import Maruswap.OpenReplies
import Maruswap.SlotPool

/-!
# Binders and failing calls

The binders of the RPC client are a slot pool: a call claims one, asks, may
carry any reply to any binder, and frees its own once it is marked. A call that
returns while it still holds a binder drops it, and the library may carry a
failed completion to a binder that is free. The calls run in any order and the
words they send may lead to any binder.
-/

set_option autoImplicit false

namespace Maruswap.BinderLeaks
open WireFormat RpcCalls RpcBinders OpenReplies GuardedRun
open SlotPool (Claim Slot Pool Act Keeps all_free_iff keeps_of_asked)

variable {P : Type*}

def claimOf : Pc → Claim ℕ
  | .idle => .idle
  | .bound b => .taken b
  | .sending b => .asked b
  | .waiting b => .asked b
  | .polling b => .asked b
  | .polled b _ => .carrying b
  | .marking b _ => .carrying b
  | .ready b => .asked b
  | .loaded b _ => .asked b
  | .copied b _ => .asked b
  | .putBack b => .asked b
  | .checked b => .closing b
  | .released => .idle
  | .returned _ => .idle

def slotOf : ℕ → Slot
  | 0 => .free
  | 2 => .marked
  | _ => .taken

def pool (pc : ℕ → Pc) (binders : ℕ → Binder) (due : ℕ) : Pool ℕ ℕ :=
  ⟨fun c => claimOf (pc c),fun b => slotOf (binders b).flags,due⟩

def view (s : Rpc P) : Pool ℕ ℕ :=
  pool s.pc s.binders (s.requests.length+s.recvCq.length)

theorem slot_of_free {n : ℕ} : slotOf n = .free ↔ n = 0 := by
  unfold slotOf
  split <;> simp_all

theorem slot_of_marked {n : ℕ} : slotOf n = .marked ↔ n = 2 := by
  unfold slotOf
  split <;> simp_all

theorem pool_pc (pc : ℕ → Pc) (binders : ℕ → Binder) (n c : ℕ) (p : Pc) :
    pool (Function.update pc c p) binders n = (pool pc binders n).set c (claimOf p) := by
  unfold pool Pool.set
  congr
  exact funext fun d => Function.apply_update (fun _ => claimOf) pc c p d

theorem pool_binder (pc : ℕ → Pc) (binders : ℕ → Binder) (n b : ℕ) (v : Binder) :
    pool pc (Function.update binders b v) n = { pool pc binders n with
      slot := Function.update (pool pc binders n).slot b (slotOf v.flags) } := by
  unfold pool
  congr
  exact funext fun d => Function.apply_update (fun _ v => slotOf (Binder.flags v)) binders b v d

theorem pool_keep {pc : ℕ → Pc} {c : ℕ} {p : Pc} (h : claimOf p = claimOf (pc c))
    (binders : ℕ → Binder) (n : ℕ) :
    pool (Function.update pc c p) binders n = pool pc binders n := by
  rw [pool_pc, h]
  unfold Pool.set
  congr
  exact Function.update_eq_self c _

theorem pool_flags {binders : ℕ → Binder} {b : ℕ} {v : Binder}
    (h : v.flags = (binders b).flags) (pc : ℕ → Pc) (n : ℕ) :
    pool pc (Function.update binders b v) n = pool pc binders n := by
  have hself : Function.update (pool pc binders n).slot b (slotOf (binders b).flags) =
      (pool pc binders n).slot := Function.update_eq_self b _
  rw [pool_binder, h, hself]

theorem view_move {s : Rpc P} {c : ℕ} {p : Pc} (h : claimOf p = claimOf (s.pc c)) :
    view (s.move c p) = view s :=
  pool_keep h s.binders _

/-- The step does not return to the caller with a binder in its hands: the post
is accepted, no failed send completion is polled before the reply, the receive
queue yields no negative poll to the library and no failed completion to the
driver, and `__put_binder` finds the binder marked. -/
def Returns (k : Client) : Label P → Rpc P → Prop
  | .post _ accepted, _ => accepted = true
  | .pollSend c r, s => (s.pc c).binder = none ∨ r ≠ .failed
  | .pollRecv _ .negative, _ => k.driver = true
  | .pollRecv _ (.failed _ _), _ => k.driver = false
  | .checkBinder c, s => ∀ b ∈ (s.pc c).binder, (s.binders b).flags = 2
  | _, _ => True

/-- The binder named by the completion in the hands of a call is not free when
its flags are set. -/
def Marks : Label P → Rpc P → Prop
  | .setFlags c, s => ∀ x ∈ carries (s.pc c), (s.binders (replyBinder x.1.immData)).flags ≠ 0
  | _, _ => True

/-- No failed completion is taken for a reply. -/
def Asked (k : Client) : Label P → Prop
  | .pollRecv _ (.failed _ _) => k.driver = true
  | _ => True

instance decidableReturns (k : Client) :
    (l : Label P) → (s : Rpc P) → Decidable (Returns k l s)
  | .post _ accepted, _ => inferInstanceAs (Decidable (accepted = true))
  | .pollSend c r, s => inferInstanceAs (Decidable ((s.pc c).binder = none ∨ r ≠ .failed))
  | .pollRecv _ .negative, _ => inferInstanceAs (Decidable (k.driver = true))
  | .pollRecv _ (.failed _ _), _ => inferInstanceAs (Decidable (k.driver = false))
  | .checkBinder c, s =>
    inferInstanceAs (Decidable (∀ b ∈ (s.pc c).binder, (s.binders b).flags = 2))
  | .pollRecv _ .empty, _ => .isTrue trivial
  | .pollRecv _ .got, _ => .isTrue trivial
  | .acquire _ _, _ => .isTrue trivial
  | .answer _ _ _, _ => .isTrue trivial
  | .complete _, _ => .isTrue trivial
  | .sent _, _ => .isTrue trivial
  | .readFlags _, _ => .isTrue trivial
  | .storePrivate _, _ => .isTrue trivial
  | .setFlags _, _ => .isTrue trivial
  | .loadPrivate _, _ => .isTrue trivial
  | .copy _, _ => .isTrue trivial
  | .putBack _, _ => .isTrue trivial
  | .release _, _ => .isTrue trivial

structure Mirrors (k : Client) (l : Label P) (s t : Rpc P) (a : Act ℕ ℕ) : Prop where
  step : SlotPool.step a (view s) = some (view t)
  drops : Returns k l s ↔ ∀ c, a ≠ .drop c
  marks : Marks l s ↔ SlotPool.Marks a (view s)
  asked : Asked k l → ∀ c, a ≠ .stray c

def Seen (k : Client) (l : Label P) (s t : Rpc P) : Prop :=
  (view t = view s ∧ Returns k l s ∧ Marks l s) ∨ ∃ a, Mirrors k l s t a

theorem quiet {k : Client} {l : Label P} {s t : Rpc P} (h : view t = view s)
    (hr : Returns k l s) (hm : Marks l s) : Seen k l s t := .inl ⟨h,hr,hm⟩

theorem acquire_seen (k : Client) (c b : ℕ) (s : Rpc P) (hpc : s.pc c = .idle) :
    Seen k (.acquire c b) s (getBinder c b s) := by
  unfold getBinder
  split
  · next hf =>
    have hslot : (view s).slot b = .free := slot_of_free.mpr hf
    have hclaim : (view s).claim c = .idle := by simp [view, pool, hpc, claimOf]
    refine .inr ⟨.take c b,?_,iff_of_true trivial (by simp),
      iff_of_true trivial (by simp [SlotPool.Marks]),fun _ _ => by simp⟩
    simp only [SlotPool.step, hclaim, hslot, if_true]
    exact congrArg some (by rw [view, view, Rpc.move, Rpc.setBinder, pool_pc, pool_binder]; rfl)
  · exact quiet rfl trivial trivial

theorem post_seen (k : Client) (c b : ℕ) (s : Rpc P) (hpc : s.pc c = .bound b) :
    Seen k (.post c true) s (post k c b s) := by
  have hclaim : (view s).claim c = .taken b := by simp [view, pool, hpc, claimOf]
  have hp : claimOf (if k.driver then .sending b else .waiting b) = .asked b := by
    split <;> rfl
  refine .inr ⟨.ask c,?_,iff_of_true rfl (by simp),iff_of_true trivial (by simp [SlotPool.Marks]),
    fun _ _ => by simp⟩
  simp only [SlotPool.step, hclaim]
  refine congrArg some ?_
  rw [view, view, post, Rpc.move, pool_pc, hp, pool, pool]
  simp [Pool.set, Nat.add_right_comm]

theorem drop_seen {k : Client} {l : Label P} {s t : Rpc P} {c b : ℕ} {p : Pc}
    (hpc : (claimOf (s.pc c)).slot = some b) (hp : claimOf p = .idle) (hr : ¬Returns k l s)
    (hm : Marks l s) (ht : view t = view (s.move c p)) : Seen k l s t := by
  have hslot : ((view s).claim c).slot = some b := hpc
  refine .inr ⟨.drop c,?_,iff_of_false hr fun h => h c rfl,iff_of_true hm
    (by simp [SlotPool.Marks]),fun _ _ => by simp⟩
  simp only [SlotPool.step, hslot, ht]
  exact congrArg some (by rw [view, view, Rpc.move, pool_pc, hp])

theorem poll_send_seen {k : Client} {c b : ℕ} {r : PollResult} {s t : Rpc P}
    (hpc : s.pc c = .sending b) (ht : SendPoll c (.waiting b) (.returned false) r s t) :
    Seen k (.pollSend c r) s t := by
  cases ht with
  | empty => exact quiet rfl (by simp [Returns]) trivial
  | negative => exact quiet (view_move (by rw [hpc]; rfl)) (by simp [Returns]) trivial
  | failed hcq =>
    exact drop_seen (p := .returned false) (by rw [hpc]; rfl) rfl
      (by simp [Returns, hpc, Pc.binder]) trivial rfl
  | got hcq => exact quiet rfl (by simp [Returns]) trivial

theorem pick_seen (k : Client) (c b : ℕ) (wc : Completion) (cq : List Completion) (s : Rpc P)
    (hpc : s.pc c = .polling b) (hcq : s.recvCq = wc::cq) :
    Seen k (.pollRecv c .got) s { s.move c (.polled b wc) with recvCq := cq } := by
  have hclaim : (view s).claim c = .asked b := by simp [view, pool, hpc, claimOf]
  have hdue : (view s).due = s.requests.length+cq.length+1 := by
    simp [view, pool, hcq, Nat.add_assoc]
  refine .inr ⟨.pick c,?_,iff_of_true trivial (by simp),iff_of_true trivial
    (by simp [SlotPool.Marks]),fun _ _ => by simp⟩
  simp only [SlotPool.step, hclaim, hdue, Nat.add_one_ne_zero, if_false]
  refine congrArg some ?_
  rw [view, view, Rpc.move, pool_pc, pool, pool]
  simp [Pool.set, claimOf]

theorem mistake_seen (k : Client) (c b : ℕ) (immData : U32) (w : ℕ) (wc : Completion)
    (posted : List ℕ) (s : Rpc P) (hk : k.driver = false) (hpc : s.pc c = .polling b) :
    Seen k (.pollRecv c (.failed immData w)) s
      { s.move c (.polled b wc) with posted := posted } := by
  have hclaim : (view s).claim c = .asked b := by simp [view, pool, hpc, claimOf]
  refine .inr ⟨.stray c,?_,iff_of_true hk (by simp),iff_of_true trivial (by simp [SlotPool.Marks]),
    fun ha => absurd ha (by simp [Asked, hk])⟩
  simp only [SlotPool.step, hclaim]
  exact congrArg some (by rw [view, view, Rpc.move, pool_pc]; rfl)

theorem poll_recv_seen {k : Client} {c b : ℕ} {r : RecvResult} {s t : Rpc P}
    (hpc : s.pc c = .polling b) (ht : RecvPoll k c b r s t) : Seen k (.pollRecv c r) s t := by
  cases ht with
  | empty => exact quiet (view_move (by rw [hpc]; rfl)) trivial trivial
  | goOn hk => exact quiet (view_move (by rw [hpc]; rfl)) hk trivial
  | giveUp hk => exact drop_seen (by rw [hpc]; rfl) rfl (by simp [Returns, hk]) trivial rfl
  | failed hk hw =>
    exact drop_seen (p := .returned false) (by rw [hpc]; rfl) rfl (by simp [Returns, hk])
      trivial rfl
  | mistaken hk hw => exact mistake_seen k c b _ _ _ _ s hk hpc
  | taken hcq => exact pick_seen k c b _ _ s hpc hcq

theorem answer_view (q : Request) (payload : P) (w : ℕ) (s : Rpc P) (hq : q ∈ s.requests) :
    view (answer q payload w s) = view s := by
  have hlen := List.length_erase_of_mem hq
  have hpos := List.length_pos_of_mem hq
  unfold view answer
  congr 1
  simp only [hlen, List.length_append, List.length_singleton]
  omega

theorem set_flags_seen (k : Client) (c b : ℕ) (wc : Completion) (s : Rpc P)
    (hpc : s.pc c = .marking b wc) : Seen k (.setFlags c) s
      ((s.setBinder (replyBinder wc.immData)
        { s.binders (replyBinder wc.immData) with flags := 2 }).move c (.waiting b)) := by
  have hclaim : (view s).claim c = .carrying b := by simp [view, pool, hpc, claimOf]
  have hmarks : Marks (.setFlags c) s ↔
      SlotPool.Marks (.mark c (replyBinder wc.immData)) (view s) := by
    simp [Marks, SlotPool.Marks, hpc, carries, view, pool, slot_of_free]
  refine .inr ⟨.mark c (replyBinder wc.immData),?_,iff_of_true trivial (by simp),hmarks,
    fun _ _ => by simp⟩
  simp only [SlotPool.step, hclaim]
  exact congrArg some (by rw [view, view, Rpc.move, Rpc.setBinder, pool_pc, pool_binder]; rfl)

theorem store_private_view (c b : ℕ) (wc : Completion) (s : Rpc P)
    (hpc : s.pc c = .polled b wc) : view ((s.setBinder (replyBinder wc.immData)
      { s.binders (replyBinder wc.immData) with priv := wc.wrId }).move c (.marking b wc)) =
        view s := by
  rw [view_move]
  · exact @pool_flags s.binders (replyBinder wc.immData)
      { s.binders (replyBinder wc.immData) with priv := wc.wrId } rfl s.pc _
  · show claimOf _ = claimOf (s.pc c)
    rw [hpc]
    rfl

theorem check_binder_seen (k : Client) (c b : ℕ) (s : Rpc P) (hpc : s.pc c = .putBack b)
    (hf : (s.binders b).flags = 2) : Seen k (.checkBinder c) s (s.move c (.checked b)) := by
  have hclaim : (view s).claim c = .asked b := by simp [view, pool, hpc, claimOf]
  have hslot : (view s).slot b = .marked := slot_of_marked.mpr hf
  refine .inr ⟨.close c,?_,iff_of_true (by simpa [Returns, hpc, Pc.binder] using hf) (by simp),
    iff_of_true trivial (by simp [SlotPool.Marks]),fun _ _ => by simp⟩
  simp only [SlotPool.step, hclaim, hslot, if_true]
  exact congrArg some (by rw [view, view, Rpc.move, pool_pc]; rfl)

theorem release_seen (k : Client) (c b : ℕ) (s : Rpc P) (hpc : s.pc c = .checked b) :
    Seen k (.release c) s (release k c b s) := by
  have hclaim : (view s).claim c = .closing b := by simp [view, pool, hpc, claimOf]
  have hp : claimOf (if k.driver then .returned true else .released) = .idle := by
    split <;> rfl
  refine .inr ⟨.free c,?_,iff_of_true trivial (by simp),iff_of_true trivial
    (by simp [SlotPool.Marks]),fun _ _ => by simp⟩
  simp only [SlotPool.step, hclaim]
  refine congrArg some ?_
  rw [view, view, release, Rpc.move, Rpc.setBinder, pool_pc, pool_binder, hp]
  rfl

theorem poll_late_view {c : ℕ} {r : PollResult} {s t : Rpc P} (hpc : s.pc c = .released)
    (ht : SendPoll c (.returned true) (.returned false) r s t) : view t = view s := by
  cases ht with
  | empty => rfl
  | negative => exact view_move (by rw [hpc]; rfl)
  | failed hcq => exact pool_keep (by rw [hpc]; rfl) _ _
  | got hcq => rfl

theorem step_seen (k : Client) (l : Label P) (s t : Rpc P) (h : step k l s = some t) :
    Seen k l s t := by
  cases step_effect h with
  | acquire hpc hb => exact acquire_seen k _ _ s hpc
  | post hpc => exact post_seen k _ _ s hpc
  | refuse hpc hk => exact drop_seen (by rw [hpc]; rfl) rfl (by simp [Returns]) trivial rfl
  | answer hq hw => exact quiet (answer_view _ _ _ s hq) trivial trivial
  | complete hc => exact quiet rfl trivial trivial
  | pollSend hpc ht => exact poll_send_seen hpc ht
  | pollLate hpc ht =>
    exact quiet (poll_late_view hpc ht) (by simp [Returns, hpc, Pc.binder]) trivial
  | sent hpc => exact quiet (view_move (by rw [hpc]; rfl)) trivial trivial
  | finished hpc => exact quiet (view_move (by rw [hpc]; rfl)) trivial trivial
  | readFlags hpc =>
    refine quiet (view_move ?_) trivial trivial
    rw [hpc]
    split <;> rfl
  | pollRecv hpc ht => exact poll_recv_seen hpc ht
  | storePrivate hpc => exact quiet (store_private_view _ _ _ s hpc) trivial trivial
  | setFlags hpc => exact set_flags_seen k _ _ _ s hpc
  | loadPrivate hpc => exact quiet (view_move (by rw [hpc]; rfl)) trivial trivial
  | copy hpc => exact quiet (pool_keep (by rw [hpc]; rfl) _ _) trivial trivial
  | putBack hpc => exact quiet (pool_keep (by rw [hpc]; rfl) _ _) trivial trivial
  | checkBinder hpc hf => exact check_binder_seen k _ _ s hpc hf
  | skipBinder hpc hf hk =>
    exact drop_seen (by rw [hpc]; rfl) rfl (by simpa [Returns, hpc, Pc.binder] using hf) trivial rfl
  | release hpc => exact release_seen k _ _ s hpc

theorem run_seen (k : Client) (ls : List (Label P)) (s t : Rpc P)
    (h : run (step k) ls s = some t) : ∃ as, run SlotPool.step as (view s) = some (view t) ∧
      (Meets (step k) (fun l s => Returns k l s ∧ Marks l s) ls s ↔
        Meets SlotPool.step Keeps as (view s)) ∧
      (Meets (step k) (Returns k) ls s ↔ ∀ c, .drop c ∉ as) ∧
      ((∀ l ∈ ls, Asked k l) → ∀ c, .stray c ∉ as) := by
  induction ls generalizing s with
  | nil =>
    exact ⟨[],congrArg (fun u => some (view u)) (Option.some.inj h),iff_of_true trivial trivial,
      iff_of_true trivial (by simp),by simp⟩
  | cons l ls ih =>
    obtain ⟨u,hu,hrest⟩ := run_cons.mp h
    obtain ⟨as,has,hkeeps,hdrop,hstray⟩ := ih u hrest
    rw [meets_cons hu, meets_cons hu, hkeeps, hdrop]
    rcases step_seen k l s u hu with ⟨hv,hr,hm⟩ | ⟨a,ha⟩
    · refine ⟨as,hv ▸ has,by simp [hr, hm, hv],by simp [hr],fun hl => ?_⟩
      exact hstray fun l hmem => hl l (List.mem_cons_of_mem _ hmem)
    · refine ⟨a::as,run_cons.mpr ⟨_,ha.step,has⟩,?_,?_,fun hl c hc => ?_⟩
      · rw [meets_cons ha.step, Keeps, ha.drops, ha.marks]
      · simp [ha.drops, List.mem_cons, not_or, forall_and, eq_comm]
      · rcases List.mem_cons.mp hc with hc | hc
        · exact ha.asked (hl l (List.mem_cons_self ..)) c hc.symm
        · exact hstray (fun l hmem => hl l (List.mem_cons_of_mem _ hmem)) c hc

theorem reply_binder_lt (immData : U32) : replyBinder immData < nrBinders := by
  have h : (immData &&& 0xff#32).toNat ≤ (0xff#32).toNat := by
    rw [BitVec.toNat_and]
    exact Nat.and_le_right
  exact Nat.lt_succ_of_le h

def Beyond (s : Rpc P) : Prop := ∀ b, nrBinders ≤ b → (s.binders b).flags = 0

theorem set_binder_beyond {s : Rpc P} (h : Beyond s) {b : ℕ} (v : Binder)
    (hb : b < nrBinders ∨ v.flags = 0) : Beyond (s.setBinder b v) := by
  intro d hd
  by_cases hdb : d = b
  · subst hdb
    simpa [Rpc.setBinder] using hb.resolve_left (Nat.not_lt.mpr hd)
  · simpa [Rpc.setBinder, hdb] using h d hd

theorem send_poll_binders {c : ℕ} {onNegative onFailed : Pc} {r : PollResult} {s t : Rpc P}
    (h : SendPoll c onNegative onFailed r s t) : t.binders = s.binders := by
  cases h <;> rfl

theorem recv_poll_binders {k : Client} {c b : ℕ} {r : RecvResult} {s t : Rpc P}
    (h : RecvPoll k c b r s t) : t.binders = s.binders := by
  cases h <;> rfl

theorem step_beyond (k : Client) (l : Label P) (s t : Rpc P) (h : Beyond s)
    (hs : step k l s = some t) : Beyond t := by
  cases step_effect hs with
  | acquire hpc hb =>
    unfold getBinder
    split
    · exact set_binder_beyond h _ (.inl hb)
    · exact h
  | post hpc => exact h
  | refuse hpc hk => exact h
  | answer hq hw => exact h
  | complete hc => exact h
  | pollSend hpc ht => rwa [Beyond, send_poll_binders ht]
  | pollLate hpc ht => rwa [Beyond, send_poll_binders ht]
  | sent hpc => exact h
  | finished hpc => exact h
  | readFlags hpc => exact h
  | pollRecv hpc ht => rwa [Beyond, recv_poll_binders ht]
  | storePrivate hpc => exact set_binder_beyond h _ (.inl (reply_binder_lt _))
  | setFlags hpc => exact set_binder_beyond h _ (.inl (reply_binder_lt _))
  | loadPrivate hpc => exact h
  | copy hpc => exact h
  | putBack hpc => exact h
  | checkBinder hpc hf => exact h
  | skipBinder hpc hf hk => exact h
  | release hpc => exact set_binder_beyond h _ (.inr rfl)

def NoCall (s : Rpc P) : Prop := ∀ c, s.pc c = .idle ∨ ∃ success, s.pc c = .returned success

def AllFree (s : Rpc P) : Prop := ∀ b, b < nrBinders → (s.binders b).flags = 0

/-- Calls in any order, with any words and any failures: once no call is in
progress the binders are all free exactly if no step returned with a binder and
no free binder was marked. Unless a failed completion is taken for a reply the
second follows from the first. -/
theorem binders_released (k : Client) (n : ℕ) (buffer : ℕ → P) (ls : List (Label P)) (s : Rpc P)
    (h : run (step k) ls (initRpc n buffer) = some s) (hidle : NoCall s) :
    (AllFree s ↔
      Meets (step k) (fun l s => Returns k l s ∧ Marks l s) ls (initRpc n buffer)) ∧
    ((∀ l ∈ ls, Asked k l) →
      (AllFree s ↔ Meets (step k) (Returns k) ls (initRpc n buffer))) := by
  obtain ⟨as,has,hkeeps,hdrop,hstray⟩ := run_seen k ls (initRpc n buffer) s h
  have hclaim : ∀ c, (view s).claim c = .idle := by
    intro c
    rcases hidle c with hc | ⟨success,hc⟩
    · simp [view, pool, hc, claimOf]
    · simp [view, pool, hc, claimOf]
  have hbeyond : Beyond s :=
    run_induction (step_beyond k) (fun _ _ => rfl : Beyond (initRpc n buffer)) h
  have hfree : AllFree s ↔
      Meets (step k) (fun l s => Returns k l s ∧ Marks l s) ls (initRpc n buffer) := by
    rw [hkeeps]
    refine Iff.trans ⟨fun hfree b => ?_,fun hfree b _ => ?_⟩ (all_free_iff has hclaim)
    · rcases Nat.lt_or_ge b nrBinders with hb | hb
      · exact slot_of_free.mpr (hfree b hb)
      · exact slot_of_free.mpr (hbeyond b hb)
    · exact slot_of_free.mp (hfree b)
  refine ⟨hfree,fun hasked => hfree.trans ⟨fun hm => hm.mono fun _ _ => And.left,fun hm => ?_⟩⟩
  exact hkeeps.mpr (keeps_of_asked has hclaim (hdrop.mp hm) (hstray hasked))

def commitLabels (c b w : ℕ) : List (Label ℕ) :=
  [.acquire c b,.post c true,.complete c,.pollSend c .got,.sent c,
    .answer ⟨rpcImm commitWord b,c,b⟩ 50 w,.readFlags c,.pollRecv c .got,.storePrivate c,
    .setFlags c,.readFlags c,.loadPrivate c,.copy c,.putBack c,.checkBinder c,.release c]

theorem binders_released_sample : ∃ s : Rpc ℕ,
    run (step (driver fun _ => .commit)) (commitLabels 0 5 0) (initRpc 4 id) = some s ∧
      NoCall s ∧ AllFree s := by
  have hidle : ∀ c : ℕ, ∀ s ∈ run (step (driver fun _ => .commit)) (commitLabels 0 5 0)
      (initRpc 4 id), s.pc c = .idle ∨ ∃ success, s.pc c = .returned success := by
    intro c s hs
    cases c with
    | zero => exact .inr ⟨true,Option.some.inj hs ▸ rfl⟩
    | succ c => exact .inl (Option.some.inj hs ▸ rfl)
  obtain ⟨s,hs⟩ : ∃ s, run (step (driver fun _ => .commit)) (commitLabels 0 5 0)
    (initRpc 4 id) = some s := ⟨_,rfl⟩
  have hmeets : Meets (step (driver fun _ => .commit)) (Returns (driver fun _ => .commit))
    (commitLabels 0 5 0) (initRpc 4 id) := by decide +kernel
  have hasked : ∀ l ∈ commitLabels 0 5 0, Asked (driver fun _ => .commit) l := by
    simp [commitLabels, Asked]
  exact ⟨s,hs,fun c => hidle c s hs,
    ((binders_released _ 4 id _ s hs fun c => hidle c s hs).2 hasked).mpr hmeets⟩

theorem refused_posts (k : Client) (hk : k.driver = true) (n : ℕ) (buffer : ℕ → P) (m : ℕ)
    (hm : m ≤ nrBinders) : ∃ ls s, run (step k) ls (initRpc n buffer) = some s ∧
      (∀ c, s.pc c = if c < m then .returned false else .idle) ∧
      ∀ b, (s.binders b).flags = if b < m then 1 else 0 := by
  induction m with
  | zero => exact ⟨[],_,rfl,fun _ => rfl,fun _ => rfl⟩
  | succ m ih =>
    obtain ⟨ls,s,hrun,hpc,hflags⟩ := ih (Nat.le_of_succ_le hm)
    have hidle : s.pc m = .idle := by simp [hpc m]
    have hfree : (s.binders m).flags = 0 := by simp [hflags m]
    refine ⟨ls++[.acquire m m,.post m false],
      ((s.setBinder m { s.binders m with flags := 1 }).move m (.bound m)).move m (.returned false),
      run_trans hrun ?_,fun c => ?_,fun b => ?_⟩
    · have hlt : m < nrBinders := hm
      simp [run, step, hidle, hlt, getBinder, hfree, hk, Rpc.move]
    · by_cases hc : c = m
      · simp [Rpc.move, hc]
      · have hlt : c < m+1 ↔ c < m := by omega
        simp [Rpc.move, Rpc.setBinder, hc, hpc c, hlt]
    · by_cases hb : b = m
      · simp [Rpc.move, Rpc.setBinder, hb]
      · have hlt : b < m+1 ↔ b < m := by omega
        simp [Rpc.move, Rpc.setBinder, hb, hflags b, hlt]

/-- One refused post leaves a binder taken; after 256 of them no try of
`__get_binder` succeeds any more. -/
theorem binder_leaked :
    (¬ ∀ (k : Client) (n : ℕ) (buffer : ℕ → ℕ) (ls : List (Label ℕ)) (s : Rpc ℕ),
      run (step k) ls (initRpc n buffer) = some s → NoCall s → AllFree s) ∧
    ∃ (ls : List (Label ℕ)) (s : Rpc ℕ),
      run (step (driver fun _ => .commit)) ls (initRpc 4 id) = some s ∧ NoCall s ∧
        ∀ c b, b < nrBinders → getBinder c b s = s := by
  have hno : ∀ (m : ℕ) (s : Rpc ℕ), (∀ c, s.pc c = if c < m then .returned false else .idle) →
      NoCall s := by
    intro m s hpc c
    rw [hpc c]
    split
    · exact .inr ⟨false,rfl⟩
    · exact .inl rfl
  constructor
  · intro h
    obtain ⟨ls,s,hrun,hpc,hflags⟩ :=
      refused_posts (driver fun _ => .commit) rfl 4 (id : ℕ → ℕ) 1 (by decide)
    have hfree := h _ 4 id ls s hrun (hno 1 s hpc) 0 (by decide)
    simp [hflags 0] at hfree
  · obtain ⟨ls,s,hrun,hpc,hflags⟩ :=
      refused_posts (driver fun _ => .commit) rfl 4 (id : ℕ → ℕ) nrBinders le_rfl
    refine ⟨ls,s,hrun,hno nrBinders s hpc,fun c b hb => ?_⟩
    simp [getBinder, hflags b, hb]

end Maruswap.BinderLeaks
