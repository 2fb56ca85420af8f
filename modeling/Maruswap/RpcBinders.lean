import Maruswap.GuardedRun
import Maruswap.RpcCalls
import Mathlib.Data.List.Nodup

/-!
# Matching replies to calls

Any call may poll any other call's reply and mark its binder. What keeps the
replies apart is the stage each call's request has reached: on the wire, in a
receive work, in the hands of the call that polled it, or marked under the
binder of its own call.
-/

set_option autoImplicit false

namespace Maruswap.RpcBinders
open WireFormat RpcCalls GuardedRun

variable {P : Type*}

/-- `carried d w stored` is a reply in work `w` that call `d` has polled; it is
stored once `private` is written. -/
inductive Stage where
  | fresh
  | requested
  | replied (w : ℕ)
  | carried (d w : ℕ) (stored : Bool)
  | marked (w : ℕ)
  | putBack

def Stage.work : Stage → Option ℕ
  | .replied w => some w
  | .carried _ w _ => some w
  | .marked w => some w
  | _ => none

def Stage.stored : Stage → Option ℕ
  | .carried _ w true => some w
  | .marked w => some w
  | _ => none

def Stage.flag : Stage → ℕ
  | .marked _ => 2
  | .putBack => 2
  | _ => 1

def Stage.InFlight : Stage → Prop
  | .fresh => False
  | .putBack => False
  | _ => True

/-- The completion in the hands of a call, and whether `private` holds it. -/
def carries : Pc → Option (Completion × Bool)
  | .polled _ wc => some (wc,false)
  | .marking _ wc => some (wc,true)
  | _ => none

/-- Binder `b` can be read back out of the word of call `c`. -/
def Fits (k : Client) (c b : ℕ) : Prop := replyBinder (rpcImm (k.opcode c) b) = b

def Phase (k : Client) (c : ℕ) : Pc → Stage → Prop
  | .idle, st => st = .fresh
  | .bound b, st => st = .fresh ∧ Fits k c b
  | .ready _, st => ∃ w, st = .marked w
  | .loaded _ w, st => st = .marked w
  | .copied _ w, st => st = .marked w
  | .putBack _, st => st = .putBack
  | .checked _, st => st = .putBack
  | .released, st => st = .putBack
  | .returned success, st => success = true ∧ st = .putBack
  | _, st => st.InFlight

def fullTrace (c : ℕ) : List Event := [.released c,.putBack c c,.copied c c]

def logged (c : ℕ) : Pc → List Event
  | .copied _ _ => [.copied c c]
  | .putBack _ => [.putBack c c,.copied c c]
  | .checked _ => [.putBack c c,.copied c c]
  | .released => fullTrace c
  | .returned _ => fullTrace c
  | _ => []

theorem carries_in_flight {k : Client} {c : ℕ} {p : Pc} {st : Stage} {wc : Completion}
    {stored : Bool} (hcar : carries p = some (wc,stored)) (h : Phase k c p st) : st.InFlight := by
  cases p with
  | polled b v => exact h
  | marking b v => exact h
  | _ => cases hcar

theorem requested_unlogged {k : Client} {c : ℕ} {p : Pc} (h : Phase k c p .requested) :
    logged c p = [] := by
  cases p with
  | copied b w => cases h
  | putBack b => cases h
  | checked b => cases h
  | released => cases h
  | returned success => cases h.2
  | _ => rfl

/-- Receive work `w` is off the queue and holds the reply to call `c`. -/
structure Holds (rw : ℕ → RecvWork P) (answered : ℕ → Option P) (posted : List ℕ)
    (c w : ℕ) : Prop where
  call : (rw w).call = c
  payload : answered c = some (rw w).buffer
  unposted : w ∉ posted

structure Matched (k : Client) (stage : ℕ → Stage) (s : Rpc P) : Prop where
  exclusive : ∀ c d b, (s.pc c).binder = some b → (s.pc d).binder = some b → c = d
  phase : ∀ c, Phase k c (s.pc c) (stage c)
  flags : ∀ c b, (s.pc c).binder = some b → (s.binders b).flags = (stage c).flag
  priv : ∀ c b w, (s.pc c).binder = some b → (stage c).stored = some w →
    (s.binders b).priv = w
  holds : ∀ c w, (stage c).work = some w → Holds s.rw s.answered s.posted c w
  posted : s.posted.Nodup
  requestNodup : (s.requests.map Request.call).Nodup
  requests : ∀ q ∈ s.requests, stage q.call = .requested ∧
    (s.pc q.call).binder = some (replyBinder q.immData)
  recvNodup : (s.recvCq.map Completion.call).Nodup
  recvCq : ∀ wc ∈ s.recvCq, stage wc.call = .replied wc.wrId ∧
    (s.pc wc.call).binder = some (replyBinder wc.immData)
  carried : ∀ d wc stored, carries (s.pc d) = some (wc,stored) →
    stage wc.call = .carried d wc.wrId stored ∧
      (s.pc wc.call).binder = some (replyBinder wc.immData)
  trace : ∀ c, trace c s.log = logged c (s.pc c)
  res : ∀ c, logged c (s.pc c) ≠ [] → s.answered c ≠ none ∧ s.res c = s.answered c

theorem init_matched (k : Client) (n : ℕ) (buffer : ℕ → P) :
    Matched k (fun _ => .fresh) (initRpc n buffer) where
  exclusive := nofun
  phase := fun _ => rfl
  flags := nofun
  priv := nofun
  holds := nofun
  posted := List.nodup_range
  requestNodup := List.nodup_nil
  requests := nofun
  recvNodup := List.nodup_nil
  recvCq := nofun
  carried := nofun
  trace := fun _ => rfl
  res := fun _ h => absurd rfl h

/-! Frames: what a step of one call leaves to the others. -/

theorem binder_update {pc : ℕ → Pc} {c : ℕ} {p : Pc} (h : p.binder = (pc c).binder) (d : ℕ) :
    (Function.update pc c p d).binder = (pc d).binder := by
  by_cases hd : d = c
  · subst hd
    simpa using h
  · simp [hd]

theorem logged_update {pc : ℕ → Pc} {c : ℕ} {p : Pc} (h : logged c p = logged c (pc c))
    (d : ℕ) : logged d (Function.update pc c p d) = logged d (pc d) := by
  by_cases hd : d = c
  · subst hd
    simpa using h
  · simp [hd]

theorem stage_kept {stage : ℕ → Stage} {x y : ℕ} {st v : Stage} (hy : stage y = st)
    (hx : stage x ≠ st) : Function.update stage x v y = st := by
  have hne : y ≠ x := fun he => hx (he ▸ hy)
  rwa [Function.update_of_ne hne]

theorem flag_pos (st : Stage) : st.flag ≠ 0 := by
  cases st <;> simp [Stage.flag]

theorem phase_advance {k : Client} {pc : ℕ → Pc} {stage : ℕ → Stage} {x : ℕ} {v : Stage}
    (h : ∀ d, Phase k d (pc d) (stage d)) (hx : (stage x).flag = 1) (hf : stage x ≠ .fresh)
    (hv : v.InFlight) (d : ℕ) : Phase k d (pc d) (Function.update stage x v d) := by
  by_cases hd : d = x
  · subst hd
    rw [Function.update_self]
    have hp := h d
    cases hpc : pc d with
    | idle => exact absurd (by simpa [hpc, Phase] using hp) hf
    | bound b => exact absurd (by simpa [hpc, Phase] using hp : _ ∧ _).1 hf
    | sending b => exact hv
    | waiting b => exact hv
    | polling b => exact hv
    | polled b wc => exact hv
    | marking b wc => exact hv
    | ready b =>
      obtain ⟨w,hw⟩ : ∃ w, stage d = .marked w := by simpa [hpc, Phase] using hp
      simp [hw, Stage.flag] at hx
    | loaded b w =>
      have hw : stage d = .marked w := by simpa [hpc, Phase] using hp
      simp [hw, Stage.flag] at hx
    | copied b w =>
      have hw : stage d = .marked w := by simpa [hpc, Phase] using hp
      simp [hw, Stage.flag] at hx
    | putBack b =>
      have hw : stage d = .putBack := by simpa [hpc, Phase] using hp
      simp [hw, Stage.flag] at hx
    | checked b =>
      have hw : stage d = .putBack := by simpa [hpc, Phase] using hp
      simp [hw, Stage.flag] at hx
    | released =>
      have hw : stage d = .putBack := by simpa [hpc, Phase] using hp
      simp [hw, Stage.flag] at hx
    | returned success =>
      have hw : stage d = .putBack := (by simpa [hpc, Phase] using hp : _ ∧ stage d = _).2
      simp [hw, Stage.flag] at hx
  · rw [Function.update_of_ne hd]
    exact h d

theorem phase_update {k : Client} {pc : ℕ → Pc} {stage : ℕ → Stage} {c : ℕ} {p : Pc}
    (h : ∀ d, Phase k d (pc d) (stage d)) (hp : Phase k c p (stage c)) (d : ℕ) :
    Phase k d (Function.update pc c p d) (stage d) :=
  (Function.forall_update_iff pc fun d p => Phase k d p (stage d)).mpr ⟨hp,fun d _ => h d⟩ d

theorem move_matched (k : Client) (c : ℕ) (p : Pc) (stage : ℕ → Stage) (s : Rpc P)
    (h : Matched k stage s) (hbinder : p.binder = (s.pc c).binder) (hphase : Phase k c p (stage c))
    (hcarries : carries p = none) (hlog : logged c p = logged c (s.pc c)) :
    Matched k stage (s.move c p) := by
  have hb := binder_update hbinder
  have hl := logged_update hlog
  constructor
  · intro d e b hd he
    exact h.exclusive d e b (hb d ▸ hd) (hb e ▸ he)
  · exact phase_update h.phase hphase
  · exact fun d b hd => h.flags d b (hb d ▸ hd)
  · exact fun d b w hd => h.priv d b w (hb d ▸ hd)
  · exact h.holds
  · exact h.posted
  · exact h.requestNodup
  · exact fun q hq => ⟨(h.requests q hq).1,(hb _).trans (h.requests q hq).2⟩
  · exact h.recvNodup
  · exact fun wc hwc => ⟨(h.recvCq wc hwc).1,(hb _).trans (h.recvCq wc hwc).2⟩
  · intro d wc stored hd
    by_cases hdc : d = c
    · subst hdc
      simp [Rpc.move, hcarries] at hd
    · obtain ⟨hst,hbd⟩ := h.carried d wc stored (by simpa [Rpc.move, hdc] using hd)
      exact ⟨hst,(hb _).trans hbd⟩
  · exact fun d => (h.trace d).trans (hl d).symm
  · exact fun d hd => h.res d (hl d ▸ hd)

theorem acquire_matched (k : Client) (c b : ℕ) (stage : ℕ → Stage) (s : Rpc P)
    (h : Matched k stage s)
    (hpc : s.pc c = .idle) (hfit : Fits k c b) : Matched k stage (getBinder c b s) := by
  unfold getBinder
  split
  · next hfree =>
    have hnone : ∀ d, (s.pc d).binder ≠ some b := fun d hd =>
      flag_pos (stage d) ((h.flags d b hd).symm.trans hfree)
    have hother : ∀ d v, (Function.update s.pc c (.bound b) d).binder = some v →
        (d = c ∧ v = b) ∨ (s.pc d).binder = some v ∧ v ≠ b := by
      intro d v hd
      by_cases hdc : d = c
      · subst hdc
        rw [Function.update_self] at hd
        exact Or.inl ⟨rfl,(Option.some.inj hd).symm⟩
      · rw [Function.update_of_ne hdc] at hd
        exact Or.inr ⟨hd,fun hv => hnone d (hv ▸ hd)⟩
    have hkeep : ∀ d v, (s.pc d).binder = some v →
        (Function.update s.pc c (.bound b) d).binder = some v := by
      intro d v hd
      have hdc : d ≠ c := by
        rintro rfl
        simp [hpc, Pc.binder] at hd
      rwa [Function.update_of_ne hdc]
    have hfresh : stage c = .fresh := by simpa [hpc, Phase] using h.phase c
    have hl := @logged_update s.pc c (.bound b) (by rw [hpc]; rfl)
    constructor
    · intro d e v hd he
      rcases hother d v hd with ⟨rfl,rfl⟩ | ⟨hd,hv⟩
      · rcases hother e v he with ⟨rfl,-⟩ | ⟨-,hv⟩
        · rfl
        · exact absurd rfl hv
      · rcases hother e v he with ⟨-,rfl⟩ | ⟨he,-⟩
        · exact absurd rfl hv
        · exact h.exclusive d e v hd he
    · exact phase_update h.phase ⟨hfresh,hfit⟩
    · intro d v hd
      rcases hother d v hd with ⟨rfl,rfl⟩ | ⟨hd,hv⟩
      · simp [Rpc.setBinder, Rpc.move, hfresh, Stage.flag]
      · simpa [Rpc.setBinder, Rpc.move, hv] using h.flags d v hd
    · intro d v w hd hw
      rcases hother d v hd with ⟨rfl,rfl⟩ | ⟨hd,hv⟩
      · simp [hfresh, Stage.stored] at hw
      · simpa [Rpc.setBinder, Rpc.move, hv] using h.priv d v w hd hw
    · exact h.holds
    · exact h.posted
    · exact h.requestNodup
    · exact fun q hq => ⟨(h.requests q hq).1,hkeep _ _ (h.requests q hq).2⟩
    · exact h.recvNodup
    · exact fun wc hwc => ⟨(h.recvCq wc hwc).1,hkeep _ _ (h.recvCq wc hwc).2⟩
    · intro d wc stored hd
      have hdc : d ≠ c := by
        rintro rfl
        simp [Rpc.move, carries] at hd
      obtain ⟨hst,hbd⟩ := h.carried d wc stored (by simpa [Rpc.move, Rpc.setBinder, hdc] using hd)
      exact ⟨hst,hkeep _ _ hbd⟩
    · exact fun d => (h.trace d).trans (hl d).symm
    · exact fun d hd => h.res d (hl d ▸ hd)
  · exact h

theorem post_matched (k : Client) (c b : ℕ) (stage : ℕ → Stage) (s : Rpc P)
    (h : Matched k stage s) (hpc : s.pc c = .bound b) :
    Matched k (Function.update stage c .requested) (post k c b s) := by
  obtain ⟨hfresh,hfit⟩ : stage c = .fresh ∧ Fits k c b := by simpa [hpc, Phase] using h.phase c
  obtain ⟨p,hp,hbinder,hphase,hcarries,hlog⟩ : ∃ p,
      p = (if k.driver then .sending b else .waiting b) ∧ p.binder = (s.pc c).binder ∧
        Phase k c p .requested ∧ carries p = none ∧ logged c p = logged c (s.pc c) := by
    rw [hpc]
    cases k.driver
    · exact ⟨_,rfl,rfl,trivial,rfl,rfl⟩
    · exact ⟨_,rfl,rfl,trivial,rfl,rfl⟩
  have hb := binder_update hbinder
  have hl := logged_update hlog
  have hne : ∀ st, st ≠ .fresh → stage c ≠ st := fun st hst he => hst (he ▸ hfresh)
  unfold post
  rw [← hp]
  constructor
  · intro d e v hd he
    exact h.exclusive d e v (hb d ▸ hd) (hb e ▸ he)
  · intro d
    by_cases hd : d = c
    · subst hd
      simpa [Rpc.move] using hphase
    · simpa [Rpc.move, hd] using h.phase d
  · intro d v hd
    have hf := h.flags d v (hb d ▸ hd)
    by_cases hdc : d = c
    · subst hdc
      rw [hfresh] at hf
      rw [Function.update_self]
      exact hf
    · rw [Function.update_of_ne hdc]
      exact hf
  · intro d v w hd hw
    by_cases hdc : d = c
    · subst hdc
      simp [Stage.stored] at hw
    · exact h.priv d v w (hb d ▸ hd) (by simpa [hdc] using hw)
  · intro d w hw
    by_cases hdc : d = c
    · subst hdc
      simp [Stage.work] at hw
    · exact h.holds d w (by simpa [hdc] using hw)
  · exact h.posted
  · simp only [List.map_append, List.map_cons, List.map_nil]
    refine List.nodup_append.mpr ⟨h.requestNodup,List.nodup_singleton _,fun x hx y hy he => ?_⟩
    obtain ⟨q,hq,rfl⟩ := List.mem_map.mp hx
    rw [List.mem_singleton] at hy
    exact hne .requested nofun ((he.trans hy) ▸ (h.requests q hq).1)
  · intro q hq
    rcases List.mem_append.mp hq with hq | hq
    · obtain ⟨hst,hbd⟩ := h.requests q hq
      exact ⟨stage_kept hst (hne _ nofun),(hb _).trans hbd⟩
    · rw [List.mem_singleton] at hq
      subst hq
      exact ⟨Function.update_self c _ stage,(hb c).trans
        (by simpa [hpc, Pc.binder] using hfit.symm)⟩
  · exact h.recvNodup
  · intro wc hwc
    obtain ⟨hst,hbd⟩ := h.recvCq wc hwc
    exact ⟨stage_kept hst (hne _ nofun),(hb _).trans hbd⟩
  · intro d wc stored hd
    have hdc : d ≠ c := by
      rintro rfl
      simp [Rpc.move, hcarries] at hd
    obtain ⟨hst,hbd⟩ := h.carried d wc stored (by simpa [Rpc.move, hdc] using hd)
    exact ⟨stage_kept hst (hne _ nofun),(hb _).trans hbd⟩
  · exact fun d => (h.trace d).trans (hl d).symm
  · exact fun d hd => h.res d (hl d ▸ hd)

theorem answer_matched (k : Client) (q : Request) (payload : P) (w : ℕ) (stage : ℕ → Stage)
    (s : Rpc P)
    (h : Matched k stage s) (hq : q ∈ s.requests) (hw : w ∈ s.posted) :
    Matched k (Function.update stage q.call (.replied w)) (answer q payload w s) := by
  obtain ⟨hreq,hqb⟩ := h.requests q hq
  have hne : ∀ st, st ≠ .requested → stage q.call ≠ st := fun st hst he => hst (he ▸ hreq)
  have hwork : ∀ d v, (stage d).work = some v → v ≠ w ∧ d ≠ q.call := by
    intro d v hd
    refine ⟨fun he => (h.holds d v hd).unposted (he ▸ hw),?_⟩
    rintro rfl
    simp [hreq, Stage.work] at hd
  constructor
  · exact h.exclusive
  · exact phase_advance h.phase (by rw [hreq]; rfl) (hne _ nofun) trivial
  · intro d v hd
    have hf := h.flags d v hd
    by_cases hdc : d = q.call
    · subst hdc
      rw [hreq] at hf
      rw [Function.update_self]
      exact hf
    · rw [Function.update_of_ne hdc]
      exact hf
  · intro d v u hd hu
    by_cases hdc : d = q.call
    · subst hdc
      simp [Stage.stored] at hu
    · exact h.priv d v u hd (by simpa [hdc] using hu)
  · intro d v hv
    by_cases hdc : d = q.call
    · subst hdc
      obtain rfl : w = v := by simpa [Stage.work] using hv
      exact ⟨by simp [answer],by simp [answer],List.Nodup.not_mem_erase h.posted⟩
    · rw [Function.update_of_ne hdc] at hv
      have hh := h.holds d v hv
      have hvw := (hwork d v hv).1
      exact ⟨by simpa [answer, hvw] using hh.call,by simpa [answer, hvw, hdc] using hh.payload,
        fun hm => hh.unposted (List.mem_of_mem_erase hm)⟩
  · exact h.posted.erase w
  · exact h.requestNodup.sublist (List.erase_sublist.map _)
  · intro r hr
    have hnodup : s.requests.Nodup := h.requestNodup.of_map
    obtain ⟨hrq,hr⟩ := hnodup.mem_erase_iff.mp hr
    have hcall : r.call ≠ q.call := fun he =>
      hrq (List.inj_on_of_nodup_map h.requestNodup hr hq he)
    rw [Function.update_of_ne hcall]
    exact h.requests r hr
  · simp only [answer, List.map_append, List.map_cons, List.map_nil]
    refine List.nodup_append.mpr ⟨h.recvNodup,List.nodup_singleton _,fun x hx y hy he => ?_⟩
    obtain ⟨wc,hwc,rfl⟩ := List.mem_map.mp hx
    rw [List.mem_singleton] at hy
    have hst := (h.recvCq wc hwc).1
    rw [he.trans hy, hreq] at hst
    cases hst
  · intro wc hwc
    rcases List.mem_append.mp hwc with hwc | hwc
    · obtain ⟨hst,hbd⟩ := h.recvCq wc hwc
      exact ⟨stage_kept hst (hne _ nofun),hbd⟩
    · rw [List.mem_singleton] at hwc
      subst hwc
      exact ⟨Function.update_self q.call _ stage,hqb⟩
  · intro d wc stored hd
    obtain ⟨hst,hbd⟩ := h.carried d wc stored hd
    exact ⟨stage_kept hst (hne _ nofun),hbd⟩
  · exact h.trace
  · intro d hd
    have hdc : d ≠ q.call := by
      rintro rfl
      have hp := h.phase q.call
      rw [hreq] at hp
      have hnone : logged q.call (s.pc q.call) = [] := requested_unlogged hp
      exact hd hnone
    simpa [answer, hdc] using h.res d hd

theorem polled_matched (k : Client) (c b : ℕ) (wc : Completion) (cq : List Completion)
    (stage : ℕ → Stage)
    (s : Rpc P) (h : Matched k stage s) (hpc : s.pc c = .polling b) (hcq : s.recvCq = wc::cq) :
    Matched k (Function.update stage wc.call (.carried c wc.wrId false))
      { s.move c (.polled b wc) with recvCq := cq } := by
  obtain ⟨hrep,hqb⟩ := h.recvCq wc (by simp [hcq])
  have hnodup : wc.call ∉ cq.map Completion.call ∧ (cq.map Completion.call).Nodup := by
    simpa [hcq] using h.recvNodup
  have hne : ∀ st, (∀ w, st ≠ .replied w) → stage wc.call ≠ st :=
    fun st hst he => hst _ (he ▸ hrep)
  have hb := @binder_update s.pc c (.polled b wc) (by simp [hpc, Pc.binder])
  have hl := @logged_update s.pc c (.polled b wc) (by rw [hpc]; rfl)
  have hphase := phase_advance h.phase (x := wc.call) (v := .carried c wc.wrId false)
    (by rw [hrep]; rfl) (hne _ nofun) trivial
  constructor
  · intro d e v hd he
    exact h.exclusive d e v (hb d ▸ hd) (hb e ▸ he)
  · exact phase_update hphase (by have hp := hphase c; rw [hpc] at hp; exact hp)
  · intro d v hd
    have hf := h.flags d v (hb d ▸ hd)
    by_cases hdc : d = wc.call
    · subst hdc
      rw [hrep] at hf
      rw [Function.update_self]
      exact hf
    · rw [Function.update_of_ne hdc]
      exact hf
  · intro d v u hd hu
    by_cases hdc : d = wc.call
    · subst hdc
      simp [Stage.stored] at hu
    · exact h.priv d v u (hb d ▸ hd) (by simpa [hdc] using hu)
  · intro d u hu
    by_cases hdc : d = wc.call
    · subst hdc
      obtain rfl : wc.wrId = u := by simpa [Stage.work] using hu
      exact h.holds wc.call wc.wrId (by rw [hrep]; rfl)
    · exact h.holds d u (by simpa [hdc] using hu)
  · exact h.posted
  · exact h.requestNodup
  · intro q hq
    obtain ⟨hst,hbd⟩ := h.requests q hq
    exact ⟨stage_kept hst (hne _ nofun),(hb _).trans hbd⟩
  · exact hnodup.2
  · intro v hv
    obtain ⟨hst,hbd⟩ := h.recvCq v (by simp [hcq, show v ∈ cq from hv])
    have hcall : v.call ≠ wc.call := fun he => hnodup.1 (he ▸ List.mem_map_of_mem hv)
    rw [Function.update_of_ne hcall]
    exact ⟨hst,(hb _).trans hbd⟩
  · intro d v stored hd
    by_cases hdc : d = c
    · subst hdc
      obtain ⟨rfl,rfl⟩ : wc = v ∧ false = stored := by simpa [Rpc.move, carries] using hd
      exact ⟨Function.update_self ..,(hb _).trans hqb⟩
    · obtain ⟨hst,hbd⟩ := h.carried d v stored (by simpa [Rpc.move, hdc] using hd)
      exact ⟨stage_kept hst (hne _ nofun),(hb _).trans hbd⟩
  · exact fun d => (h.trace d).trans (hl d).symm
  · exact fun d hd => h.res d (hl d ▸ hd)

theorem write_matched (k : Client) (c : ℕ) (p : Pc) (wc : Completion) (stored : Bool)
    (st : Stage) (v : Binder) (stage : ℕ → Stage) (s : Rpc P) (h : Matched k stage s)
    (hpc : carries (s.pc c) = some (wc,stored)) (hbinder : p.binder = (s.pc c).binder)
    (hlog : logged c p = logged c (s.pc c)) (hp : ∀ u, u.InFlight → Phase k c p u)
    (hflight : st.InFlight) (hwork : st.work = some wc.wrId) (hstored : st.stored = some v.priv)
    (hflag : v.flags = st.flag) (hcarries : ∀ u stored', carries p = some (u,stored') →
      u = wc ∧ st = .carried c wc.wrId stored') :
    Matched k (Function.update stage wc.call st)
      ((s.setBinder (replyBinder wc.immData) v).move c p) := by
  obtain ⟨hcar,hqb⟩ := h.carried c wc stored hpc
  have hne : ∀ u, u ≠ .carried c wc.wrId stored → stage wc.call ≠ u :=
    fun u hu he => hu (he ▸ hcar)
  have hb := binder_update hbinder
  have hl := logged_update hlog
  have hphase := phase_advance h.phase (x := wc.call) (by rw [hcar]; rfl) (hne _ nofun) hflight
  have hc : (Function.update stage wc.call st c).InFlight := by
    by_cases he : c = wc.call
    · rwa [he, Function.update_self]
    · have hpc' := h.phase c
      rw [Function.update_of_ne he]
      exact carries_in_flight hpc hpc'
  have hother : ∀ d u, (s.pc d).binder = some u → d ≠ wc.call → u ≠ replyBinder wc.immData :=
    fun d u hd hdc hu => hdc (h.exclusive d wc.call _ (hu ▸ hd) hqb)
  have hself : ∀ u, (s.pc wc.call).binder = some u → u = replyBinder wc.immData :=
    fun u hu => Option.some.inj (hu.symm.trans hqb)
  constructor
  · intro d e u hd he
    exact h.exclusive d e u (hb d ▸ hd) (hb e ▸ he)
  · exact phase_update hphase (hp _ hc)
  · intro d u hd
    by_cases hdc : d = wc.call
    · subst hdc
      obtain rfl := hself u (hb wc.call ▸ hd)
      simpa [Rpc.setBinder, Rpc.move] using hflag
    · have hu := hother d u (hb d ▸ hd) hdc
      simpa [Rpc.setBinder, Rpc.move, hu, hdc] using h.flags d u (hb d ▸ hd)
  · intro d u w hd hw
    by_cases hdc : d = wc.call
    · subst hdc
      obtain rfl := hself u (hb wc.call ▸ hd)
      rw [Function.update_self, hstored] at hw
      simpa [Rpc.setBinder, Rpc.move] using hw
    · have hu := hother d u (hb d ▸ hd) hdc
      simpa [Rpc.setBinder, Rpc.move, hu] using
        h.priv d u w (hb d ▸ hd) (by simpa [hdc] using hw)
  · intro d u hu
    by_cases hdc : d = wc.call
    · subst hdc
      rw [Function.update_self, hwork] at hu
      obtain rfl := Option.some.inj hu
      exact h.holds wc.call wc.wrId (by rw [hcar]; rfl)
    · exact h.holds d u (by simpa [hdc] using hu)
  · exact h.posted
  · exact h.requestNodup
  · intro q hq
    obtain ⟨hst,hbd⟩ := h.requests q hq
    exact ⟨stage_kept hst (hne _ nofun),(hb _).trans hbd⟩
  · exact h.recvNodup
  · intro u hu
    obtain ⟨hst,hbd⟩ := h.recvCq u hu
    exact ⟨stage_kept hst (hne _ nofun),(hb _).trans hbd⟩
  · intro d u stored' hd
    by_cases hdc : d = c
    · subst hdc
      obtain ⟨rfl,rfl⟩ := hcarries u stored' (by simpa [Rpc.move] using hd)
      exact ⟨Function.update_self ..,(hb _).trans hqb⟩
    · obtain ⟨hst,hbd⟩ := h.carried d u stored'
        (by simpa [Rpc.move, Rpc.setBinder, hdc] using hd)
      have hdiff : Stage.carried d u.wrId stored' ≠ .carried c wc.wrId stored :=
        fun he => hdc (Stage.carried.inj he).1
      exact ⟨stage_kept hst (hne _ hdiff),(hb _).trans hbd⟩
  · exact fun d => (h.trace d).trans (hl d).symm
  · exact fun d hd => h.res d (hl d ▸ hd)

theorem store_matched (k : Client) (c b : ℕ) (wc : Completion) (stage : ℕ → Stage) (s : Rpc P)
    (h : Matched k stage s) (hpc : s.pc c = .polled b wc) :
    Matched k (Function.update stage wc.call (.carried c wc.wrId true))
      ((s.setBinder (replyBinder wc.immData)
        { s.binders (replyBinder wc.immData) with priv := wc.wrId }).move c (.marking b wc)) := by
  have hcarries : carries (s.pc c) = some (wc,false) := by simp [hpc, carries]
  obtain ⟨hcar,hqb⟩ := h.carried c wc false hcarries
  refine write_matched k c (.marking b wc) wc false _ _ stage s h hcarries ?_ ?_ (fun _ hu => hu)
    trivial rfl rfl ?_ ?_
  · rw [hpc]; rfl
  · rw [hpc]; rfl
  · rw [h.flags wc.call _ hqb, hcar]; rfl
  · rintro u stored ⟨⟩
    exact ⟨rfl,rfl⟩

theorem mark_matched (k : Client) (c b : ℕ) (wc : Completion) (stage : ℕ → Stage) (s : Rpc P)
    (h : Matched k stage s) (hpc : s.pc c = .marking b wc) :
    Matched k (Function.update stage wc.call (.marked wc.wrId))
      ((s.setBinder (replyBinder wc.immData)
        { s.binders (replyBinder wc.immData) with flags := 2 }).move c (.waiting b)) := by
  have hcarries : carries (s.pc c) = some (wc,true) := by simp [hpc, carries]
  obtain ⟨hcar,hqb⟩ := h.carried c wc true hcarries
  refine write_matched k c (.waiting b) wc true _ _ stage s h hcarries ?_ ?_ (fun _ hu => hu)
    trivial rfl ?_ rfl nofun
  · rw [hpc]; rfl
  · rw [hpc]; rfl
  · rw [h.priv wc.call _ wc.wrId hqb (by rw [hcar]; rfl)]; rfl

theorem trace_cons (e : Event) (c : ℕ) (log : List Event) :
    trace c (e::log) = if e.caller = c then e::trace c log else trace c log := by
  simp [trace, List.filter_cons]

theorem trace_logged {log : List Event} {pc : ℕ → Pc} {c : ℕ} {p : Pc} {e : Event}
    (h : ∀ d, trace d log = logged d (pc d)) (hc : e.caller = c)
    (hp : logged c p = e::logged c (pc c)) (d : ℕ) :
    trace d (e::log) = logged d (Function.update pc c p d) := by
  rw [trace_cons, hc]
  by_cases hd : d = c
  · subst hd
    rw [if_pos rfl, Function.update_self, hp, h]
  · rw [if_neg (Ne.symm hd), Function.update_of_ne hd, h]

theorem copy_matched (k : Client) (c b w : ℕ) (stage : ℕ → Stage) (s : Rpc P)
    (h : Matched k stage s) (hpc : s.pc c = .loaded b w) : Matched k stage (copy c b w s) := by
  have hmark : stage c = .marked w := by simpa [hpc, Phase] using h.phase c
  obtain ⟨hcall,hpay,-⟩ := h.holds c w (by rw [hmark]; rfl)
  have hb := @binder_update s.pc c (.copied b w) (by simp [hpc, Pc.binder])
  constructor
  · intro d e v hd he
    exact h.exclusive d e v (hb d ▸ hd) (hb e ▸ he)
  · exact phase_update h.phase hmark
  · exact fun d v hd => h.flags d v (hb d ▸ hd)
  · exact fun d v u hd => h.priv d v u (hb d ▸ hd)
  · exact h.holds
  · exact h.posted
  · exact h.requestNodup
  · exact fun q hq => ⟨(h.requests q hq).1,(hb _).trans (h.requests q hq).2⟩
  · exact h.recvNodup
  · exact fun wc hwc => ⟨(h.recvCq wc hwc).1,(hb _).trans (h.recvCq wc hwc).2⟩
  · intro d wc stored hd
    have hdc : d ≠ c := by
      rintro rfl
      simp [copy, Rpc.move, carries] at hd
    obtain ⟨hst,hbd⟩ := h.carried d wc stored (by simpa [copy, Rpc.move, hdc] using hd)
    exact ⟨hst,(hb _).trans hbd⟩
  · exact trace_logged h.trace rfl (by rw [hpc, hcall]; rfl)
  · intro d hd
    by_cases hdc : d = c
    · subst hdc
      simp [copy, Rpc.move, hpay]
    · simpa [copy, Rpc.move, hdc] using h.res d (by simpa [copy, Rpc.move, hdc] using hd)

theorem put_back_matched (k : Client) (c b w : ℕ) (stage : ℕ → Stage) (s : Rpc P)
    (h : Matched k stage s) (hpc : s.pc c = .copied b w) :
    Matched k (Function.update stage c .putBack) (putBack c b w s) := by
  have hmark : stage c = .marked w := by simpa [hpc, Phase] using h.phase c
  obtain ⟨hcall,hpay,hun⟩ := h.holds c w (by rw [hmark]; rfl)
  have hne : ∀ st, st ≠ .marked w → stage c ≠ st := fun st hst he => hst (he ▸ hmark)
  have hb := @binder_update s.pc c (.putBack b) (by simp [hpc, Pc.binder])
  constructor
  · intro d e v hd he
    exact h.exclusive d e v (hb d ▸ hd) (hb e ▸ he)
  · intro d
    by_cases hd : d = c
    · subst hd
      simp [putBack, Rpc.move, Phase]
    · simpa [putBack, Rpc.move, hd] using h.phase d
  · intro d v hd
    have hf := h.flags d v (hb d ▸ hd)
    by_cases hdc : d = c
    · subst hdc
      rw [hmark] at hf
      rw [Function.update_self]
      exact hf
    · rw [Function.update_of_ne hdc]
      exact hf
  · intro d v u hd hu
    by_cases hdc : d = c
    · subst hdc
      simp [Stage.stored] at hu
    · exact h.priv d v u (hb d ▸ hd) (by simpa [hdc] using hu)
  · intro d u hu
    by_cases hdc : d = c
    · subst hdc
      simp [Stage.work] at hu
    · rw [Function.update_of_ne hdc] at hu
      obtain ⟨hdcall,hdpay,hdun⟩ := h.holds d u hu
      refine ⟨hdcall,hdpay,fun hm => ?_⟩
      rcases List.mem_append.mp hm with hm | hm
      · exact hdun hm
      · obtain rfl := List.mem_singleton.mp hm
        exact hdc (hdcall.symm.trans hcall)
  · exact List.nodup_append.mpr ⟨h.posted,List.nodup_singleton w,fun x hx y hy he =>
      hun (List.mem_singleton.mp hy ▸ he ▸ hx)⟩
  · exact h.requestNodup
  · intro q hq
    obtain ⟨hst,hbd⟩ := h.requests q hq
    exact ⟨stage_kept hst (hne _ nofun),(hb _).trans hbd⟩
  · exact h.recvNodup
  · intro wc hwc
    obtain ⟨hst,hbd⟩ := h.recvCq wc hwc
    exact ⟨stage_kept hst (hne _ nofun),(hb _).trans hbd⟩
  · intro d wc stored hd
    have hdc : d ≠ c := by
      rintro rfl
      simp [putBack, Rpc.move, carries] at hd
    obtain ⟨hst,hbd⟩ := h.carried d wc stored (by simpa [putBack, Rpc.move, hdc] using hd)
    exact ⟨stage_kept hst (hne _ nofun),(hb _).trans hbd⟩
  · exact trace_logged h.trace rfl (by rw [hpc, hcall]; rfl)
  · intro d hd
    by_cases hdc : d = c
    · subst hdc
      exact h.res d (by simp [hpc, logged])
    · exact h.res d (by simpa [putBack, Rpc.move, hdc] using hd)

theorem release_matched (k : Client) (c b : ℕ) (stage : ℕ → Stage) (s : Rpc P)
    (h : Matched k stage s) (hpc : s.pc c = .checked b) : Matched k stage (release k c b s) := by
  have hback : stage c = .putBack := by simpa [hpc, Phase] using h.phase c
  obtain ⟨p,hp,hbinder,hphase,hcarries,hlog⟩ : ∃ p,
      p = (if k.driver then .returned true else .released) ∧ p.binder = none ∧
        Phase k c p (stage c) ∧ carries p = none ∧ logged c p = fullTrace c := by
    rw [hback]
    cases k.driver
    · exact ⟨_,rfl,rfl,rfl,rfl,rfl⟩
    · exact ⟨_,rfl,rfl,⟨rfl,rfl⟩,rfl,rfl⟩
  have hown : (s.pc c).binder = some b := by simp [hpc, Pc.binder]
  have hother : ∀ d v, (Function.update s.pc c p d).binder = some v →
      (s.pc d).binder = some v ∧ v ≠ b := by
    intro d v hd
    by_cases hdc : d = c
    · subst hdc
      simp [hbinder] at hd
    · rw [Function.update_of_ne hdc] at hd
      exact ⟨hd,fun hv => hdc (h.exclusive d c b (hv ▸ hd) hown)⟩
  have hkeep : ∀ d v, stage d ≠ .putBack → (s.pc d).binder = some v →
      (Function.update s.pc c p d).binder = some v := by
    intro d v hd hv
    have hdc : d ≠ c := fun he => hd (he ▸ hback)
    rwa [Function.update_of_ne hdc]
  unfold release
  rw [← hp]
  constructor
  · intro d e v hd he
    exact h.exclusive d e v (hother d v hd).1 (hother e v he).1
  · exact phase_update h.phase hphase
  · intro d v hd
    obtain ⟨hd,hv⟩ := hother d v hd
    simpa [Rpc.setBinder, Rpc.move, hv] using h.flags d v hd
  · intro d v u hd hu
    obtain ⟨hd,hv⟩ := hother d v hd
    simpa [Rpc.setBinder, Rpc.move, hv] using h.priv d v u hd hu
  · exact h.holds
  · exact h.posted
  · exact h.requestNodup
  · intro q hq
    obtain ⟨hst,hbd⟩ := h.requests q hq
    exact ⟨hst,hkeep _ _ (by rw [hst]; nofun) hbd⟩
  · exact h.recvNodup
  · intro wc hwc
    obtain ⟨hst,hbd⟩ := h.recvCq wc hwc
    exact ⟨hst,hkeep _ _ (by rw [hst]; nofun) hbd⟩
  · intro d wc stored hd
    have hdc : d ≠ c := by
      rintro rfl
      simp [Rpc.move, hcarries] at hd
    obtain ⟨hst,hbd⟩ := h.carried d wc stored
      (by simpa [Rpc.move, Rpc.setBinder, hdc] using hd)
    exact ⟨hst,hkeep _ _ (by rw [hst]; nofun) hbd⟩
  · exact trace_logged h.trace rfl
      (show logged c p = .released c::logged c (s.pc c) by rw [hpc, hlog]; rfl)
  · intro d hd
    by_cases hdc : d = c
    · subst hdc
      exact h.res d (by simp [hpc, logged])
    · exact h.res d (by simpa [Rpc.move, Rpc.setBinder, hdc] using hd)

def Acquires (k : Client) : Label P → Prop
  | .acquire c b => b < nrBinders → Fits k c b
  | _ => True

theorem send_matched (k : Client) (sends sendCq : List ℕ) (done : ℕ → Bool)
    (stage : ℕ → Stage) (s : Rpc P) (h : Matched k stage s) :
    Matched k stage { s with sends := sends, sendCq := sendCq, done := done } :=
  ⟨h.exclusive,h.phase,h.flags,h.priv,h.holds,h.posted,h.requestNodup,h.requests,h.recvNodup,
    h.recvCq,h.carried,h.trace,h.res⟩

theorem poll_send_matched {k : Client} {c : ℕ} {onNegative onFailed : Pc} {r : PollResult}
    {stage : ℕ → Stage} {s t : Rpc P} (h : Matched k stage s)
    (hr : r ≠ .negative ∧ r ≠ .failed) (ht : SendPoll c onNegative onFailed r s t) :
    Matched k stage t := by
  cases ht with
  | empty => exact h
  | negative => exact absurd rfl hr.1
  | failed hcq => exact absurd rfl hr.2
  | got hcq => exact send_matched k s.sends _ _ stage s h

theorem read_flags_matched (k : Client) (c b : ℕ) (stage : ℕ → Stage) (s : Rpc P)
    (h : Matched k stage s) (hpc : s.pc c = .waiting b) :
    Matched k stage (s.move c (if (s.binders b).flags = 2 then .ready b else .polling b)) := by
  have hphase : (stage c).InFlight := by simpa [hpc, Phase] using h.phase c
  have hflag := h.flags c b (by simp [hpc, Pc.binder])
  split
  · next hf =>
    rw [hf] at hflag
    refine move_matched k c _ stage s h (by rw [hpc]; rfl) ?_ rfl (by rw [hpc]; rfl)
    cases hst : stage c with
    | marked w => exact ⟨w,rfl⟩
    | _ => simp_all [Stage.flag, Stage.InFlight]
  · exact move_matched k c _ stage s h (by rw [hpc]; rfl) hphase rfl (by rw [hpc]; rfl)

theorem poll_recv_matched {k : Client} {c b : ℕ} {r : RecvResult} {stage : ℕ → Stage}
    {s t : Rpc P} (h : Matched k stage s) (hpc : s.pc c = .polling b)
    (hr : r ≠ .negative ∧ ∀ immData w, r ≠ .failed immData w) (ht : RecvPoll k c b r s t) :
    ∃ stage, Matched k stage t := by
  cases ht with
  | empty =>
    have hphase := h.phase c
    rw [hpc] at hphase
    exact ⟨stage,move_matched k c _ stage s h (by rw [hpc]; rfl) hphase rfl (by rw [hpc]; rfl)⟩
  | goOn hk => exact absurd rfl hr.1
  | giveUp hk => exact absurd rfl hr.1
  | failed hk hw => exact absurd rfl (hr.2 _ _)
  | mistaken hk hw => exact absurd rfl (hr.2 _ _)
  | taken hcq => exact ⟨_,polled_matched k c b _ _ stage s h hpc hcq⟩

theorem step_matched (k : Client) (l : Label P) (s t : Rpc P)
    (h : ∃ stage, Matched k stage s) (hg : Accepted l ∧ Acquires k l)
    (hs : step k l s = some t) : ∃ stage, Matched k stage t := by
  obtain ⟨stage,h⟩ := h
  cases step_effect hs with
  | acquire hpc hb => exact ⟨stage,acquire_matched k _ _ stage s h hpc (hg.2 hb)⟩
  | post hpc => exact ⟨_,post_matched k _ _ stage s h hpc⟩
  | refuse hpc hk => exact absurd hg.1 (by simp [Accepted])
  | answer hq hw => exact ⟨_,answer_matched k _ _ _ stage s h hq hw⟩
  | complete hc => exact ⟨stage,send_matched k _ _ s.done stage s h⟩
  | pollSend hpc ht => exact ⟨stage,poll_send_matched h hg.1 ht⟩
  | pollLate hpc ht => exact ⟨stage,poll_send_matched h hg.1 ht⟩
  | @sent c b _ hpc =>
    have hphase := h.phase c
    rw [hpc] at hphase
    exact ⟨stage,move_matched k c _ stage s h (by rw [hpc]; rfl) hphase rfl (by rw [hpc]; rfl)⟩
  | @finished c _ hpc =>
    have hphase := h.phase c
    rw [hpc] at hphase
    exact ⟨stage,move_matched k c _ stage s h (by rw [hpc]; rfl) ⟨rfl,hphase⟩ rfl
      (by rw [hpc]; rfl)⟩
  | readFlags hpc => exact ⟨stage,read_flags_matched k _ _ stage s h hpc⟩
  | pollRecv hpc ht => exact poll_recv_matched h hpc hg.1 ht
  | storePrivate hpc => exact ⟨_,store_matched k _ _ _ stage s h hpc⟩
  | setFlags hpc => exact ⟨_,mark_matched k _ _ _ stage s h hpc⟩
  | @loadPrivate c b _ hpc =>
    obtain ⟨w,hw⟩ : ∃ w, stage c = .marked w := by simpa [hpc, Phase] using h.phase c
    have hpriv := h.priv c b w (by simp [hpc, Pc.binder]) (by rw [hw]; rfl)
    exact ⟨stage,move_matched k c _ stage s h (by rw [hpc]; rfl) (by rw [hpriv]; exact hw) rfl
      (by rw [hpc]; rfl)⟩
  | copy hpc => exact ⟨stage,copy_matched k _ _ _ stage s h hpc⟩
  | putBack hpc => exact ⟨_,put_back_matched k _ _ _ stage s h hpc⟩
  | @checkBinder c b _ hpc hf =>
    have hback : stage c = .putBack := by simpa [hpc, Phase] using h.phase c
    exact ⟨stage,move_matched k c _ stage s h (by rw [hpc]; rfl) hback rfl (by rw [hpc]; rfl)⟩
  | @skipBinder c b _ hpc hf hk =>
    have hback : stage c = .putBack := by simpa [hpc, Phase] using h.phase c
    have hflag := h.flags c b (by simp [hpc, Pc.binder])
    rw [hback] at hflag
    exact absurd hflag hf
  | release hpc => exact ⟨stage,release_matched k _ _ stage s h hpc⟩

theorem fits_iff (k : Client) (c b : ℕ) (hb : b < nrBinders) :
    Fits k c b ↔ (k.opcode c &&& 0xff#32) ||| BitVec.ofNat 32 b = BitVec.ofNat 32 b := by
  have hlow : BitVec.ofNat 32 b &&& 0xff#32 = BitVec.ofNat 32 b := by
    apply BitVec.eq_of_toNat_eq
    have h := BitFields.toNat_mask (BitVec.ofNat 32 b) 8 (by decide)
    rw [BitVec.toNat_ofNat] at h ⊢
    unfold nrBinders at hb
    refine h.trans ?_
    omega
  have hmask : rpcImm (k.opcode c) b &&& 0xff#32 =
      (k.opcode c &&& 0xff#32) ||| BitVec.ofNat 32 b := by
    rw [rpcImm, BitVec.and_comm, BitVec.and_or_distrib_left, BitVec.and_comm,
      BitVec.and_comm 0xff#32, hlow]
  have hb32 : (BitVec.ofNat 32 b).toNat = b := by
    rw [BitVec.toNat_ofNat]
    unfold nrBinders at hb
    omega
  rw [Fits, replyBinder, hmask]
  constructor
  · intro h
    exact BitVec.eq_of_toNat_eq (h.trans hb32.symm)
  · intro h
    rw [h, hb32]

theorem fits_of_low_bits (k : Client) (c b : ℕ) (hk : k.opcode c &&& 0xff#32 = 0#32)
    (hb : b < nrBinders) : Fits k c b := by
  rw [fits_iff k c b hb, hk, BitVec.zero_or]

end Maruswap.RpcBinders
