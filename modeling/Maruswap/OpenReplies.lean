import Maruswap.RpcBinders

/-!
# Replies to OPEN

`ib_rpc_open_unlocked` puts the whole page offset under the opcode, and
`__ib_rpc` puts the binder into the same low bits. The word is that of COMMIT
and QCOMMIT otherwise, which keep the low eight bits clear.
-/

set_option autoImplicit false

namespace Maruswap.OpenReplies
open WireFormat RpcCalls RpcBinders GuardedRun

variable {P : Type*}

inductive DriverCall where
  | openBlock (offset : U32)
  | commit
  | qcommit (count : U32)

/-- The opcode words `sib.c` passes to `__ib_rpc`. -/
def DriverCall.word : DriverCall → U32
  | .openBlock offset => openWord offset
  | .commit => commitWord
  | .qcommit count => qcommitWord count

def driver (calls : ℕ → DriverCall) : Client := ⟨true,fun c => (calls c).word,fun _ => true⟩

/-- The word of an OPEN for `offset` under binder `b` decodes to that binder on
the client and to OPEN of the block of `offset` on the server. -/
structure ReachesCaller (offset : U32) (b : ℕ) : Prop where
  binder : replyBinder (rpcImm (openWord offset) b) = b
  opcode : ibGetOpcode (rpcImm (openWord offset) b) = opcodeOpen
  block : ∃ hd, interpretHeader (rpcImm (openWord offset) b) = some hd ∧
    hd.opcode = opcodeOpen.toNat ∧ hd.nrBlock = (offset >>> 18).toNat

/-- The low eight bits of the offset add nothing to the binder. -/
def LowBitsCovered (offset : U32) (b : ℕ) : Prop :=
  (offset &&& 0xff#32) ||| BitVec.ofNat 32 b = BitVec.ofNat 32 b

instance (offset : U32) (b : ℕ) : Decidable (LowBitsCovered offset b) :=
  inferInstanceAs (Decidable (_ = _))

/-- A word in flight is that of its call under the binder the call acquired. -/
def Sent (k : Client) (immData : U32) (call binder : ℕ) : Prop :=
  binder < nrBinders ∧ immData = rpcImm (k.opcode call) binder

structure Worded (k : Client) (s : Rpc P) : Prop where
  bound : ∀ c b, s.pc c = .bound b → b < nrBinders
  requests : ∀ q ∈ s.requests, Sent k q.immData q.call q.binder
  recvCq : ∀ wc ∈ s.recvCq, Sent k wc.immData wc.call wc.binder
  carried : ∀ d wc stored, carries (s.pc d) = some (wc,stored) →
    Sent k wc.immData wc.call wc.binder

theorem open_word_low (offset : U32) : openWord offset &&& 0xff#32 = offset &&& 0xff#32 := by
  have h : (opcodeOpen <<< 28) &&& 0xff#32 = 0#32 := by decide
  rw [openWord, BitVec.and_comm, BitVec.and_or_distrib_left, BitVec.and_comm, h,
    BitVec.zero_or, BitVec.and_comm]

theorem qcommit_word_low (count : U32) : qcommitWord count &&& 0xff#32 = 0#32 := by
  have h : (opcodeQcommit <<< 28) &&& 0xff#32 = 0#32 := by decide
  have hm : 0xfffff00#32 &&& 0xff#32 = 0#32 := by decide
  rw [qcommitWord, BitVec.and_comm, BitVec.and_or_distrib_left, BitVec.and_comm, h,
    BitVec.and_comm, BitVec.and_assoc, hm, BitVec.and_zero, BitVec.zero_or]

theorem open_fits_iff (calls : ℕ → DriverCall) (c b : ℕ) (offset : U32)
    (hc : calls c = .openBlock offset) (hb : b < nrBinders) :
    Fits (driver calls) c b ↔ LowBitsCovered offset b := by
  rw [fits_iff _ c b hb]
  change ((calls c).word &&& 0xff#32) ||| _ = _ ↔ _
  rw [hc, DriverCall.word, open_word_low]
  rfl

theorem open_imm_eq (offset : U32) (b : ℕ) (ho : offset.toNat < 2^28) (hb : b < nrBinders) :
    (rpcImm (openWord offset) b).toNat = 2^28+(offset.toNat ||| b) := by
  have hb28 : b < 2^28 := by
    unfold nrBinders at hb
    omega
  have hor : offset.toNat ||| b < 2^28 := Nat.or_lt_two_pow ho hb28
  have hlow : offset ||| BitVec.ofNat 32 b = BitVec.ofNat 32 (offset.toNat ||| b) := by
    apply BitVec.eq_of_toNat_eq
    rw [BitVec.toNat_or, BitVec.toNat_ofNat, BitVec.toNat_ofNat,
      Nat.mod_eq_of_lt (by omega), Nat.mod_eq_of_lt (by omega)]
  have h := opcode_or_offset 1 (offset.toNat ||| b) (by decide) hor
  rw [rpcImm, openWord, BitVec.or_assoc, hlow]
  exact h

theorem reaches_caller_iff (offset : U32) (b : ℕ) (ho : offset.toNat < 2^28)
    (hb : b < nrBinders) : ReachesCaller offset b ↔ LowBitsCovered offset b := by
  have hfit : replyBinder (rpcImm (openWord offset) b) = b ↔ LowBitsCovered offset b :=
    open_fits_iff (fun _ => .openBlock offset) 0 b offset rfl hb
  have himm := open_imm_eq offset b ho hb
  have hor : offset.toNat ||| b < 2^28 :=
    Nat.or_lt_two_pow ho (by unfold nrBinders at hb; omega)
  constructor
  · exact fun h => hfit.mp h.binder
  · intro h
    refine ⟨hfit.mpr h,?_,?_⟩
    · apply BitVec.eq_of_toNat_eq
      rw [ib_get_opcode_eq, himm]
      change _ = 1
      omega
    · obtain ⟨off,hd,-⟩ := interpret_header_eq (rpcImm (openWord offset) b)
      refine ⟨_,hd,?_,?_⟩
      · change (rpcImm (openWord offset) b).toNat/2^28 = 1
        omega
      · change blockOf (pageOffset _) = _
        have hblock : (offset.toNat ||| b)/2^18 = offset.toNat/2^18 := by
          have hb18 : b >>> 18 = 0 := by
            rw [Nat.shiftRight_eq_div_pow]
            unfold nrBinders at hb
            omega
          rw [← Nat.shiftRight_eq_div_pow, Nat.shiftRight_or_distrib, hb18, Nat.or_zero,
            Nat.shiftRight_eq_div_pow]
        rw [BitFields.toNat_high, blockOf, pageOffset, himm, ← hblock]
        congr 1
        omega

theorem init_worded (k : Client) (n : ℕ) (buffer : ℕ → P) : Worded k (initRpc n buffer) :=
  ⟨nofun,nofun,nofun,nofun⟩

theorem move_worded (k : Client) (c : ℕ) (p : Pc) (s : Rpc P) (h : Worded k s)
    (hb : ∀ b, p ≠ .bound b) (hc : carries p = none) : Worded k (s.move c p) := by
  refine ⟨fun d b hd => ?_,h.requests,h.recvCq,fun d wc stored hd => ?_⟩
  · by_cases hdc : d = c
    · subst hdc
      exact absurd (by simpa [Rpc.move] using hd) (hb b)
    · exact h.bound d b (by simpa [Rpc.move, hdc] using hd)
  · by_cases hdc : d = c
    · subst hdc
      simp [Rpc.move, hc] at hd
    · exact h.carried d wc stored (by simpa [Rpc.move, hdc] using hd)

theorem carry_worded (k : Client) (c : ℕ) (p : Pc) (wc : Completion) (stored : Bool)
    (s : Rpc P) (h : Worded k s) (hp : carries p = some (wc,stored))
    (hw : Sent k wc.immData wc.call wc.binder) : Worded k (s.move c p) := by
  refine ⟨fun d b hd => ?_,h.requests,h.recvCq,fun d u stored' hd => ?_⟩
  · by_cases hdc : d = c
    · subst hdc
      have hpb : p = .bound b := by simpa [Rpc.move] using hd
      rw [hpb] at hp
      cases hp
    · exact h.bound d b (by simpa [Rpc.move, hdc] using hd)
  · by_cases hdc : d = c
    · subst hdc
      obtain ⟨rfl,-⟩ : wc = u ∧ stored = stored' := by simpa [Rpc.move, hp] using hd
      exact hw
    · exact h.carried d u stored' (by simpa [Rpc.move, hdc] using hd)

theorem Worded.dequeue {k : Client} {s : Rpc P} (h : Worded k s) {cq : List Completion}
    (hcq : ∀ wc ∈ cq, wc ∈ s.recvCq) : Worded k { s with recvCq := cq } :=
  ⟨h.bound,h.requests,fun wc hwc => h.recvCq wc (hcq wc hwc),h.carried⟩

theorem poll_recv_worded {k : Client} {c b : ℕ} {r : RecvResult} {s t : Rpc P}
    (hk : k.driver = true ∨ ∀ immData w, r ≠ .failed immData w) (h : Worded k s)
    (ht : RecvPoll k c b r s t) : Worded k t := by
  cases ht with
  | empty => exact move_worded k c _ s h (by simp) rfl
  | goOn hk => exact move_worded k c _ s h (by simp) rfl
  | giveUp hk => exact move_worded k c _ s h (by simp) rfl
  | failed hk hw =>
    have hm := move_worded k c (.returned false) s h (by simp) rfl
    exact ⟨hm.bound,hm.requests,hm.recvCq,hm.carried⟩
  | mistaken hlib hw =>
    rcases hk with hk | hr
    · rw [hk] at hlib
      cases hlib
    · exact absurd rfl (hr _ _)
  | @taken _ wc cq hcq =>
    exact (carry_worded k c (.polled b wc) wc false s h rfl
      (h.recvCq wc (by simp [hcq]))).dequeue (fun v hv => hcq ▸ List.mem_cons_of_mem wc hv)

theorem poll_send_worded {k : Client} {c : ℕ} {onNegative onFailed : Pc} {r : PollResult}
    {s t : Rpc P} (h : Worded k s)
    (hn : (∀ b, onNegative ≠ .bound b) ∧ carries onNegative = none)
    (hf : (∀ b, onFailed ≠ .bound b) ∧ carries onFailed = none)
    (ht : SendPoll c onNegative onFailed r s t) : Worded k t := by
  cases ht with
  | empty => exact h
  | negative => exact move_worded k c _ s h hn.1 hn.2
  | failed hcq =>
    have hm := move_worded k c onFailed s h hf.1 hf.2
    exact ⟨hm.bound,hm.requests,hm.recvCq,hm.carried⟩
  | got hcq => exact ⟨h.bound,h.requests,h.recvCq,h.carried⟩

theorem set_binder_worded (k : Client) (b : ℕ) (v : Binder) (s : Rpc P) (h : Worded k s) :
    Worded k (s.setBinder b v) :=
  ⟨h.bound,h.requests,h.recvCq,h.carried⟩

theorem acquire_worded (k : Client) (c b : ℕ) (s : Rpc P) (h : Worded k s)
    (hb : b < nrBinders) : Worded k (getBinder c b s) := by
  unfold getBinder
  split
  · refine ⟨fun d v hd => ?_,h.requests,h.recvCq,fun d wc stored hd => ?_⟩
    · by_cases hdc : d = c
      · subst hdc
        obtain rfl : b = v := by simpa [Rpc.move] using hd
        exact hb
      · exact h.bound d v (by simpa [Rpc.move, Rpc.setBinder, hdc] using hd)
    · by_cases hdc : d = c
      · subst hdc
        simp [Rpc.move, carries] at hd
      · exact h.carried d wc stored (by simpa [Rpc.move, Rpc.setBinder, hdc] using hd)
  · exact h

theorem post_worded (k : Client) (c b : ℕ) (s : Rpc P) (h : Worded k s)
    (hpc : s.pc c = .bound b) : Worded k (post k c b s) := by
  have hm : Worded k (s.move c (if k.driver then .sending b else .waiting b)) := by
    split
    · exact move_worded k c _ s h (by simp) rfl
    · exact move_worded k c _ s h (by simp) rfl
  refine ⟨hm.bound,fun q hq => ?_,hm.recvCq,hm.carried⟩
  rcases List.mem_append.mp hq with hq | hq
  · exact h.requests q hq
  · rw [List.mem_singleton] at hq
    exact hq ▸ ⟨h.bound c b hpc,rfl⟩

theorem answer_worded (k : Client) (q : Request) (payload : P) (w : ℕ) (s : Rpc P)
    (h : Worded k s) (hq : q ∈ s.requests) : Worded k (answer q payload w s) := by
  refine ⟨h.bound,fun r hr => h.requests r (List.mem_of_mem_erase hr),fun wc hwc => ?_,h.carried⟩
  rcases List.mem_append.mp hwc with hwc | hwc
  · exact h.recvCq wc hwc
  · rw [List.mem_singleton] at hwc
    exact hwc ▸ h.requests q hq

/-- The library takes a receive that failed for a reply. -/
def Mistakes (k : Client) : Label P → Prop
  | .pollRecv _ (.failed _ _) => k.driver = false
  | _ => False

theorem step_worded {k : Client} (l : Label P) (s t : Rpc P) (h : Worded k s)
    (hl : ¬Mistakes k l) (hs : step k l s = some t) : Worded k t := by
  cases step_effect hs with
  | acquire hpc hb => exact acquire_worded k _ _ s h hb
  | post hpc => exact post_worded k _ _ s h hpc
  | refuse hpc hk => exact move_worded k _ _ s h (by simp) rfl
  | answer hq hw => exact answer_worded k _ _ _ s h hq
  | complete hc => exact ⟨h.bound,h.requests,h.recvCq,h.carried⟩
  | pollSend hpc ht =>
    exact poll_send_worded h ⟨by simp,rfl⟩ ⟨by simp,rfl⟩ ht
  | pollLate hpc ht =>
    exact poll_send_worded h ⟨by simp,rfl⟩ ⟨by simp,rfl⟩ ht
  | sent hpc => exact move_worded k _ _ s h (by simp) rfl
  | finished hpc => exact move_worded k _ _ s h (by simp) rfl
  | readFlags hpc =>
    split
    · exact move_worded k _ _ s h (by simp) rfl
    · exact move_worded k _ _ s h (by simp) rfl
  | @pollRecv c b r _ _ hpc ht =>
    refine poll_recv_worded ?_ h ht
    cases r with
    | failed immData w => exact .inl (by simpa [Mistakes] using hl)
    | _ => exact .inr (by simp)
  | @storePrivate c b wc _ hpc =>
    have hw := h.carried c wc false (by simp [hpc, carries])
    exact carry_worded k c (.marking b wc) wc true _ (set_binder_worded k _ _ s h) rfl hw
  | setFlags hpc => exact move_worded k _ _ _ (set_binder_worded k _ _ s h) (by simp) rfl
  | loadPrivate hpc => exact move_worded k _ _ s h (by simp) rfl
  | @copy c b w _ hpc =>
    have hm := move_worded k c (.copied b w) s h (by simp) rfl
    exact ⟨hm.bound,hm.requests,hm.recvCq,hm.carried⟩
  | @putBack c b w _ hpc =>
    have hm := move_worded k c (.putBack b) s h (by simp) rfl
    exact ⟨hm.bound,hm.requests,hm.recvCq,hm.carried⟩
  | checkBinder hpc hf => exact move_worded k _ _ s h (by simp) rfl
  | skipBinder hpc hf _ => exact move_worded k _ _ s h (by simp) rfl
  | @release c b _ hpc =>
    have hb := set_binder_worded k b { s.binders b with flags := 0 } s h
    have hm : Worded k ((s.setBinder b { s.binders b with flags := 0 }).move c
        (if k.driver then .returned true else .released)) := by
      split
      · exact move_worded k c _ _ hb (by simp) rfl
      · exact move_worded k c _ _ hb (by simp) rfl
    exact ⟨hm.bound,hm.requests,hm.recvCq,hm.carried⟩

/-- The binder a call writes to when it has polled this reply is the one the
reply's own call acquired. -/
def MarksCaller (wc : Completion) : Prop := replyBinder wc.immData = wc.binder

/-- COMMIT and QCOMMIT leave room for the binder, an OPEN only as far as the
low bits of its offset do. -/
def Covered (b : ℕ) : DriverCall → Prop
  | .openBlock offset => LowBitsCovered offset b
  | _ => True

theorem marks_caller_iff (calls : ℕ → DriverCall) (wc : Completion)
    (h : Sent (driver calls) wc.immData wc.call wc.binder) :
    MarksCaller wc ↔ Covered wc.binder (calls wc.call) := by
  obtain ⟨hb,himm⟩ := h
  have hfit : MarksCaller wc ↔ Fits (driver calls) wc.call wc.binder := by
    rw [MarksCaller, himm]
    rfl
  rw [hfit]
  cases hc : calls wc.call with
  | openBlock offset => exact open_fits_iff calls wc.call wc.binder offset hc hb
  | commit =>
    refine iff_of_true (fits_of_low_bits _ wc.call wc.binder ?_ hb) trivial
    change (calls wc.call).word &&& 0xff#32 = 0#32
    rw [hc]
    decide
  | qcommit count =>
    refine iff_of_true (fits_of_low_bits _ wc.call wc.binder ?_ hb) trivial
    change (calls wc.call).word &&& 0xff#32 = 0#32
    rw [hc]
    exact qcommit_word_low count

theorem driver_sure (calls : ℕ → DriverCall) (l : Label P) : ¬Mistakes (driver calls) l := by
  cases l with
  | pollRecv c r =>
    cases r with
    | failed immData w => exact fun h => by cases h
    | _ => exact id
  | _ => exact id

/-- An OPEN word reaches its caller exactly if the low bits of the offset are
among the bits of the binder; and so it is with every reply polled in any run,
whatever posts and polls fail. -/
theorem open_replies (calls : ℕ → DriverCall) (n : ℕ) (buffer : ℕ → P) (ls : List (Label P))
    (s : Rpc P) (h : run (step (driver calls)) ls (initRpc n buffer) = some s) :
    (∀ offset b, offset.toNat < 2^28 → b < nrBinders →
      (ReachesCaller offset b ↔ LowBitsCovered offset b)) ∧
    ∀ d wc stored, carries (s.pc d) = some (wc,stored) →
      (MarksCaller wc ↔ Covered wc.binder (calls wc.call)) := by
  have hw : Worded (driver calls) s :=
    run_induction (fun l s t hs => step_worded l s t hs (driver_sure calls l))
      (init_worded _ n buffer) h
  exact ⟨reaches_caller_iff,fun d wc stored hd =>
    marks_caller_iff calls wc (hw.carried d wc stored hd)⟩

def openLabels (offset : U32) (b : ℕ) : List (Label ℕ) :=
  [.acquire 0 b,.post 0 true,.complete 0,.pollSend 0 .got,.sent 0,
    .answer ⟨rpcImm (openWord offset) b,0,b⟩ 50 0,.readFlags 0,.pollRecv 0 .got]

theorem open_replies_sample : ∃ s : Rpc ℕ,
    run (step (driver fun _ => .openBlock 0x40000#32)) (openLabels 0x40000#32 5)
      (initRpc 4 id) = some s ∧
      carries (s.pc 0) = some (⟨rpcImm (openWord 0x40000#32) 5,0,0,5⟩,false) ∧
      MarksCaller ⟨rpcImm (openWord 0x40000#32) 5,0,0,5⟩ ∧ ReachesCaller 0x40000#32 5 := by
  have hsome : (run (step (driver fun _ => .openBlock 0x40000#32)) (openLabels 0x40000#32 5)
      (initRpc 4 id)).isSome := by decide +kernel
  obtain ⟨s,hs⟩ := Option.isSome_iff_exists.mp hsome
  have hend : ∀ t ∈ run (step (driver fun _ => .openBlock 0x40000#32))
      (openLabels 0x40000#32 5) (initRpc 4 id),
      carries (t.pc 0) = some (⟨rpcImm (openWord 0x40000#32) 5,0,0,5⟩,false) := by
    decide +kernel
  have hcov : LowBitsCovered 0x40000#32 5 := by decide
  obtain ⟨hiff,hrun⟩ := open_replies (fun _ => .openBlock 0x40000#32) 4 id _ s hs
  exact ⟨s,hs,hend s hs,(hrun 0 _ false (hend s hs)).mpr hcov,
    (hiff 0x40000#32 5 (by decide) (by decide)).mpr hcov⟩

/-- The first write of a block at offset 1 under binder 0: the reply comes back
as binder 1, and the caller's own binder is never marked. -/
theorem open_reply_misrouted :
    (¬ ∀ offset b, offset.toNat < 2^28 → b < nrBinders → ReachesCaller offset b) ∧
    ∃ s : Rpc ℕ, run (step (driver fun _ => .openBlock 1#32))
        (openLabels 1#32 0++[.storePrivate 0,.setFlags 0]) (initRpc 4 id) = some s ∧
      (s.pc 0).binder = some 0 ∧ (s.binders 0).flags = 1 ∧ (s.binders 1).flags = 2 := by
  constructor
  · intro h
    exact absurd (h 1#32 0 (by decide) (by decide)).binder (by decide)
  · have hsome : (run (step (driver fun _ => .openBlock 1#32))
        (openLabels 1#32 0++[.storePrivate 0,.setFlags 0]) (initRpc 4 id)).isSome := by
      decide +kernel
    obtain ⟨s,hs⟩ := Option.isSome_iff_exists.mp hsome
    have hend : ∀ t ∈ run (step (driver fun _ => .openBlock 1#32))
        (openLabels 1#32 0++[.storePrivate 0,.setFlags 0]) (initRpc 4 id),
        (t.pc 0).binder = some 0 ∧ (t.binders 0).flags = 1 ∧ (t.binders 1).flags = 2 := by
      decide +kernel
    exact ⟨s,hs,hend s hs⟩

end Maruswap.OpenReplies
