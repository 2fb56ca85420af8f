import Maruswap.GuardedRun
import Maruswap.WriterThreads

/-!
# Waiting on a shared send queue

The loop of `__ib_rdma_send` and `__ib_multicast_send` in any number of calls on
one queue pair. Every call has a number, its `wr_id`, and polls the completion
queue that all of them share: a success is passed on to the call it belongs to, a
failure ends whoever polled it. The status of a request, what it was when its
call returned, and the writes to calls that had returned are ghosts.
-/

set_option autoImplicit false

namespace Maruswap.SendQueue
open WireFormat GuardedRun
open WriterThreads (einval)

inductive Pc where
  | idle
  | testing
  | polling
  | returned (ret : U32)
  deriving DecidableEq

structure Completion where
  wrId : ℕ
  success : Bool
  deriving DecidableEq

structure Queue where
  pc : ℕ → Pc
  done : ℕ → Bool
  posted : List ℕ
  sendCq : List Completion
  status : ℕ → Option Bool
  seen : ℕ → Option Bool
  stray : List ℕ

/-- `miss` is an `ib_poll_cq` that returns zero or less. -/
inductive Label where
  | post (c : ℕ)
  | complete (c : ℕ) (success : Bool)
  | test (c : ℕ)
  | miss (c : ℕ)
  | poll (c : ℕ)
  deriving DecidableEq

namespace Queue

def move (s : Queue) (c : ℕ) (p : Pc) : Queue := { s with pc := Function.update s.pc c p }

def finish (s : Queue) (c : ℕ) (ret : U32) : Queue :=
  { s.move c (.returned ret) with seen := Function.update s.seen c (s.status c) }

end Queue

def Pc.gone : Pc → Bool
  | .returned _ => true
  | _ => false

def writeDone (d : ℕ) (s : Queue) : Queue :=
  { s with
    done := Function.update s.done d true
    stray := if (s.pc d).gone then d::s.stray else s.stray }

def poll (c : ℕ) (s : Queue) : Option Queue :=
  match s.sendCq with
  | [] => none
  | wc::cq =>
    if wc.success then some ((writeDone wc.wrId { s with sendCq := cq }).move c .testing)
    else some (Queue.finish { s with sendCq := cq } c einval)

def step : Label → Queue → Option Queue
  | .post c, s =>
    if s.pc c = .idle then some { s.move c .testing with posted := s.posted++[c] } else none
  | .complete c success, s =>
    if c ∈ s.posted then some { s with
      posted := s.posted.erase c
      sendCq := s.sendCq++[⟨c,success⟩]
      status := Function.update s.status c (some success) }
    else none
  | .test c, s =>
    if s.pc c = .testing then some (if s.done c then s.finish c 0#32 else s.move c .polling)
    else none
  | .miss c, s => if s.pc c = .polling then some (s.move c .testing) else none
  | .poll c, s => if s.pc c = .polling then poll c s else none

def initQueue : Queue where
  pc := fun _ => .idle
  done := fun _ => false
  posted := []
  sendCq := []
  status := fun _ => none
  seen := fun _ => none
  stray := []

/-- Every call that returned did so after its own request had completed, with zero
exactly for success, and no completion was written to a call that had returned. -/
structure Honest (s : Queue) : Prop where
  returned : ∀ c ret, s.pc c = .returned ret →
    ∃ ok, s.seen c = some ok ∧ (ret = 0#32 ↔ ok = true)
  stray : s.stray = []

/-- A failed completion is polled only by a call whose own request has failed. -/
def Own : Label → Queue → Prop
  | .poll c, s => s.pc c = .polling → ∀ wc ∈ s.sendCq.head?, wc.success = false →
    s.status c = some false
  | _, _ => True

instance (l : Label) (s : Queue) : Decidable (Own l s) :=
  match l with
  | .poll c => inferInstanceAs (Decidable (s.pc c = .polling → ∀ wc ∈ s.sendCq.head?,
      wc.success = false → s.status c = some false))
  | .post _ => .isTrue trivial
  | .complete _ _ => .isTrue trivial
  | .test _ => .isTrue trivial
  | .miss _ => .isTrue trivial

/-- A request is posted, queued or settled; `done` is set for a success that has
left the queue, and a call returned has the status of its request. -/
structure Sound (s : Queue) : Prop where
  fresh : ∀ c, s.pc c = .idle → c ∉ s.posted ∧ s.status c = none
  posted : s.posted.Nodup ∧ ∀ c ∈ s.posted, s.status c = none
  queued : ∀ wc ∈ s.sendCq, s.status wc.wrId = some wc.success
  unique : (s.sendCq.map Completion.wrId).Nodup
  done : ∀ c, s.done c = true → s.status c = some true ∧ c ∉ s.sendCq.map Completion.wrId
  returned : ∀ c ret, s.pc c = .returned ret → s.seen c = s.status c ∧
    (ret = 0#32 ∧ s.done c = true ∨ ret ≠ 0#32 ∧ s.status c = some false)
  stray : s.stray = []

theorem Sound.honest {s : Queue} (h : Sound s) : Honest s := by
  refine ⟨fun c ret hc => ?_,h.stray⟩
  obtain ⟨hseen,⟨hret,hdone⟩ | ⟨hret,hstatus⟩⟩ := h.returned c ret hc
  · exact ⟨true,hseen.trans (h.done c hdone).1,by simp [hret]⟩
  · exact ⟨false,hseen.trans hstatus,by simp [hret]⟩

theorem init_sound : Sound initQueue where
  fresh := by simp [initQueue]
  posted := by simp [initQueue]
  queued := by simp [initQueue]
  unique := by simp [initQueue]
  done := by simp [initQueue]
  returned := by simp [initQueue]
  stray := rfl

theorem Sound.move {s : Queue} (h : Sound s) (c : ℕ) (p : Pc) (hp : p = .testing ∨ p = .polling) :
    Sound (s.move c p) := by
  have hidle : p ≠ .idle := by rcases hp with rfl | rfl <;> simp
  have hgone : ∀ ret, p ≠ .returned ret := by rcases hp with rfl | rfl <;> simp
  refine ⟨fun d hd => ?_,h.posted,h.queued,h.unique,h.done,fun d ret hd => ?_,h.stray⟩
  · by_cases hdc : d = c
    · subst hdc
      exact absurd (by simpa [Queue.move] using hd) hidle
    · exact h.fresh d (by simpa [Queue.move, hdc] using hd)
  · by_cases hdc : d = c
    · subst hdc
      exact absurd (by simpa [Queue.move] using hd) (hgone ret)
    · exact h.returned d ret (by simpa [Queue.move, hdc] using hd)

theorem Sound.finish {s : Queue} (h : Sound s) (c : ℕ) (ret : U32)
    (hc : ret = 0#32 ∧ s.done c = true ∨ ret ≠ 0#32 ∧ s.status c = some false) :
    Sound (s.finish c ret) := by
  refine ⟨fun d hd => ?_,h.posted,h.queued,h.unique,h.done,fun d r hd => ?_,h.stray⟩
  · by_cases hdc : d = c
    · subst hdc
      simp [Queue.finish, Queue.move] at hd
    · exact h.fresh d (by simpa [Queue.finish, Queue.move, hdc] using hd)
  · by_cases hdc : d = c
    · subst hdc
      have hr : ret = r := by simpa [Queue.finish, Queue.move] using hd
      subst hr
      exact ⟨by simp [Queue.finish, Queue.move],hc⟩
    · have hd' : s.pc d = .returned r := by simpa [Queue.finish, Queue.move, hdc] using hd
      obtain ⟨hseen,hcase⟩ := h.returned d r hd'
      exact ⟨by simpa [Queue.finish, Queue.move, hdc] using hseen,hcase⟩

theorem post_sound {s : Queue} (h : Sound s) (c : ℕ) (hpc : s.pc c = .idle) :
    Sound { s.move c .testing with posted := s.posted++[c] } := by
  have hm := h.move c .testing (Or.inl rfl)
  obtain ⟨hnot,hnone⟩ := h.fresh c hpc
  refine ⟨fun d hd => ?_,⟨?_,fun d hd => ?_⟩,hm.queued,hm.unique,hm.done,hm.returned,hm.stray⟩
  · have hdc : d ≠ c := by
      rintro rfl
      simp [Queue.move] at hd
    obtain ⟨h1,h2⟩ := hm.fresh d hd
    refine ⟨?_,h2⟩
    exact List.not_mem_append h1 (by simpa using hdc)
  · change (s.posted++[c]).Nodup
    rw [List.nodup_append]
    refine ⟨h.posted.1,by simp,fun x hx y hy hxy => ?_⟩
    obtain rfl := List.mem_singleton.mp hy
    exact hnot (hxy ▸ hx)
  · rcases List.mem_append.mp hd with hd | hd
    · exact h.posted.2 d hd
    · obtain rfl := List.mem_singleton.mp hd
      exact hnone

theorem complete_sound {s : Queue} (h : Sound s) (c : ℕ) (success : Bool) (hc : c ∈ s.posted) :
    Sound { s with
      posted := s.posted.erase c
      sendCq := s.sendCq++[⟨c,success⟩]
      status := Function.update s.status c (some success) } := by
  have hnone := h.posted.2 c hc
  have hother : ∀ d, s.status d ≠ none → d ≠ c := by
    rintro d hd rfl
    exact hd hnone
  have hnew : c ∉ s.sendCq.map Completion.wrId := by
    intro hm
    obtain ⟨wc,hwc,he⟩ := List.mem_map.mp hm
    have := h.queued wc hwc
    rw [he, hnone] at this
    cases this
  have hstatus : ∀ d, d ≠ c → Function.update s.status c (some success) d = s.status d :=
    fun d hd => Function.update_of_ne hd _ _
  refine ⟨fun d hd => ?_,⟨h.posted.1.erase c,fun d hd => ?_⟩,fun wc hwc => ?_,?_,
    fun d hd => ?_,fun d ret hd => ?_,h.stray⟩
  · obtain ⟨h1,h2⟩ := h.fresh d hd
    have hdc : d ≠ c := by
      rintro rfl
      exact h1 hc
    exact ⟨fun hm => h1 (List.mem_of_mem_erase hm),(hstatus d hdc).trans h2⟩
  · have hdc : d ≠ c := by
      rintro rfl
      exact List.Nodup.not_mem_erase h.posted.1 hd
    exact (hstatus d hdc).trans (h.posted.2 d (List.mem_of_mem_erase hd))
  · rcases List.mem_append.mp hwc with hwc | hwc
    · have hq := h.queued wc hwc
      exact (hstatus _ (hother _ (by simp [hq]))).trans hq
    · obtain rfl := List.mem_singleton.mp hwc
      exact Function.update_self ..
  · change (List.map Completion.wrId (s.sendCq++[⟨c,success⟩])).Nodup
    rw [List.map_append, List.nodup_append]
    refine ⟨h.unique,by simp,fun x hx y hy hxy => ?_⟩
    obtain rfl := List.mem_singleton.mp hy
    exact hnew (hxy ▸ hx)
  · obtain ⟨h1,h2⟩ := h.done d hd
    have hdc := hother d (by simp [h1])
    refine ⟨(hstatus d hdc).trans h1,?_⟩
    simpa [hdc] using h2
  · obtain ⟨h1,h2⟩ := h.returned d ret hd
    have hdc : d ≠ c := by
      refine hother d ?_
      rcases h2 with ⟨-,h2⟩ | ⟨-,h2⟩
      · simp [(h.done d h2).1]
      · simp [h2]
    refine ⟨h1.trans (hstatus d hdc).symm,h2.imp id fun hf => ⟨hf.1,?_⟩⟩
    exact (hstatus d hdc).trans hf.2

theorem pop_sound {s : Queue} (h : Sound s) {wc : Completion} {cq : List Completion}
    (hq : s.sendCq = wc::cq) : Sound { s with sendCq := cq } := by
  have hsub : ∀ x ∈ cq, x ∈ s.sendCq := fun x hx => hq ▸ List.mem_cons_of_mem wc hx
  have hmap : ∀ d, d ∈ cq.map Completion.wrId → d ∈ s.sendCq.map Completion.wrId := by
    intro d hd
    rw [hq]
    exact List.mem_cons_of_mem _ hd
  have hu := h.unique
  rw [hq, List.map_cons] at hu
  exact ⟨h.fresh,h.posted,fun x hx => h.queued x (hsub x hx),(List.nodup_cons.mp hu).2,
    fun d hd => ⟨(h.done d hd).1,fun hm => (h.done d hd).2 (hmap d hm)⟩,h.returned,h.stray⟩

theorem write_sound {s : Queue} (h : Sound s) {wc : Completion} {cq : List Completion}
    (hq : s.sendCq = wc::cq) (hok : wc.success = true) :
    Sound (writeDone wc.wrId { s with sendCq := cq }) := by
  have hp := pop_sound h hq
  have hmem : wc ∈ s.sendCq := by rw [hq]; simp
  have hstatus : s.status wc.wrId = some true := by rw [h.queued wc hmem, hok]
  have hu := h.unique
  rw [hq, List.map_cons] at hu
  have hpending : (s.pc wc.wrId).gone = false := by
    cases hpc : s.pc wc.wrId with
    | returned ret =>
      rcases (h.returned _ ret hpc).2 with ⟨-,hd⟩ | ⟨-,hs⟩
      · exact absurd (List.mem_map_of_mem hmem) (h.done _ hd).2
      · rw [hstatus] at hs
        cases hs
    | _ => rfl
  have hmono : ∀ d, s.done d = true → Function.update s.done wc.wrId true d = true := by
    intro d hd
    by_cases hdw : d = wc.wrId
    · subst hdw; simp
    · simpa [hdw] using hd
  refine ⟨hp.fresh,hp.posted,hp.queued,hp.unique,fun d hd => ?_,fun d ret hd => ?_,?_⟩
  · by_cases hdw : d = wc.wrId
    · subst hdw
      exact ⟨hstatus,(List.nodup_cons.mp hu).1⟩
    · exact hp.done d (by simpa [writeDone, hdw] using hd)
  · obtain ⟨h1,h2⟩ := hp.returned d ret hd
    exact ⟨h1,h2.imp (fun hz => ⟨hz.1,hmono d hz.2⟩) id⟩
  · simpa [writeDone, hpending] using h.stray

theorem step_sound (l : Label) (s t : Queue) (h : Sound s) (hg : Own l s)
    (ht : step l s = some t) : Sound t := by
  cases l with
  | post c =>
    obtain ⟨hpc,ht⟩ := Option.ite_none_right_eq_some.mp ht
    exact Option.some.inj ht ▸ post_sound h c hpc
  | complete c success =>
    obtain ⟨hc,ht⟩ := Option.ite_none_right_eq_some.mp ht
    exact Option.some.inj ht ▸ complete_sound h c success hc
  | test c =>
    obtain ⟨hpc,ht⟩ := Option.ite_none_right_eq_some.mp ht
    obtain rfl := Option.some.inj ht
    split
    · next hd => exact h.finish c 0#32 (Or.inl ⟨rfl,hd⟩)
    · exact h.move c .polling (Or.inr rfl)
  | miss c =>
    obtain ⟨hpc,ht⟩ := Option.ite_none_right_eq_some.mp ht
    exact Option.some.inj ht ▸ h.move c .testing (Or.inl rfl)
  | poll c =>
    obtain ⟨hpc,ht⟩ := Option.ite_none_right_eq_some.mp ht
    unfold poll at ht
    split at ht
    · cases ht
    · next wc cq hq =>
      split_ifs at ht with hok
      · exact Option.some.inj ht ▸ (write_sound h hq hok).move c .testing (Or.inl rfl)
      · have hf : wc.success = false := by simpa using hok
        have hown : s.status c = some false := hg hpc wc (by rw [hq]; rfl) hf
        exact Option.some.inj ht ▸ (pop_sound h hq).finish c einval
          (Or.inr ⟨by decide,hown⟩)

def Misled (s : Queue) : Prop :=
  ∃ c ret, s.pc c = .returned ret ∧ ¬ ∃ ok, s.seen c = some ok ∧ (ret = 0#32 ↔ ok = true)

theorem returned_stays (l : Label) (s t : Queue) (h : step l s = some t) (c : ℕ) (ret : U32)
    (hc : s.pc c = .returned ret) : t.pc c = .returned ret ∧ t.seen c = s.seen c := by
  have busy : ∀ d, s.pc d ≠ .returned ret → c ≠ d := by
    rintro d hd rfl
    exact hd hc
  cases l with
  | post d =>
    obtain ⟨hpc,ht⟩ := Option.ite_none_right_eq_some.mp h
    obtain rfl := Option.some.inj ht
    have hne := busy d (by simp [hpc])
    exact ⟨by simpa [Queue.move, hne] using hc,rfl⟩
  | complete d success =>
    obtain ⟨-,ht⟩ := Option.ite_none_right_eq_some.mp h
    exact Option.some.inj ht ▸ ⟨hc,rfl⟩
  | test d =>
    obtain ⟨hpc,ht⟩ := Option.ite_none_right_eq_some.mp h
    obtain rfl := Option.some.inj ht
    have hne := busy d (by simp [hpc])
    split
    · simpa [Queue.finish, Queue.move, hne] using hc
    · simpa [Queue.move, hne] using hc
  | miss d =>
    obtain ⟨hpc,ht⟩ := Option.ite_none_right_eq_some.mp h
    obtain rfl := Option.some.inj ht
    have hne := busy d (by simp [hpc])
    exact ⟨by simpa [Queue.move, hne] using hc,rfl⟩
  | poll d =>
    obtain ⟨hpc,ht⟩ := Option.ite_none_right_eq_some.mp h
    have hne := busy d (by simp [hpc])
    unfold poll at ht
    split at ht
    · cases ht
    · split_ifs at ht
      · obtain rfl := Option.some.inj ht
        simpa [writeDone, Queue.move, hne] using hc
      · obtain rfl := Option.some.inj ht
        simpa [Queue.finish, Queue.move, hne] using hc

theorem step_misled (l : Label) (s t : Queue) (hs : Misled s) (h : step l s = some t) :
    Misled t := by
  obtain ⟨c,ret,hc,hn⟩ := hs
  obtain ⟨hpc,hseen⟩ := returned_stays l s t h c ret hc
  exact ⟨c,ret,hpc,by rw [hseen]; exact hn⟩

theorem poll_misled (l : Label) (s t : Queue) (hg : ¬ Own l s) (h : step l s = some t) :
    Misled t := by
  cases l with
  | poll c =>
    obtain ⟨hpc,ht⟩ := Option.ite_none_right_eq_some.mp h
    simp only [Own, hpc, forall_const] at hg
    push Not at hg
    obtain ⟨wc,hwc,hf,hstatus⟩ := hg
    unfold poll at ht
    split at ht
    · cases ht
    · next wc' cq hq =>
      obtain rfl : wc' = wc := by simpa [hq] using hwc
      rw [if_neg (by simp [hf])] at ht
      obtain rfl := Option.some.inj ht
      refine ⟨c,einval,by simp [Queue.finish, Queue.move],?_⟩
      rintro ⟨ok,hok,hret⟩
      have hs : s.status c = some ok := by simpa [Queue.finish] using hok
      have hfalse : ok = false := by
        have hne : einval ≠ 0#32 := by decide
        simpa [hne] using hret
      exact hstatus (hs.trans (congrArg some hfalse))
  | _ => exact absurd trivial hg

theorem run_sound_or_misled (ls : List Label) (s t : Queue) (hs : Sound s)
    (h : run step ls s = some t) : (Meets step Own ls s ∧ Sound t) ∨
      (¬ Meets step Own ls s ∧ Misled t) := by
  induction ls generalizing s with
  | nil => exact Or.inl ⟨trivial,Option.some.inj h ▸ hs⟩
  | cons l ls ih =>
    obtain ⟨u,hu,hrest⟩ := run_cons.mp h
    by_cases hg : Own l s
    · rcases ih u (step_sound l s u hs hg hu) hrest with ⟨hm,ht⟩ | ⟨hm,ht⟩
      · exact Or.inl ⟨⟨hg,fun v hv => Option.some.inj (hu.symm.trans hv) ▸ hm⟩,ht⟩
      · exact Or.inr ⟨fun hmeets => hm (hmeets.2 u hu),ht⟩
    · exact Or.inr ⟨fun hmeets => hg hmeets.1,
        run_induction step_misled (poll_misled l s u hg hu) hrest⟩

/-- Every call has returned after its own request and with its result, in exactly
the runs in which a failed completion is polled only by a call that failed too. -/
theorem send_outcomes (ls : List Label) (s : Queue) (h : run step ls initQueue = some s) :
    Honest s ↔ Meets step Own ls initQueue := by
  rcases run_sound_or_misled ls initQueue s init_sound h with ⟨hm,hs⟩ | ⟨hm,c,ret,hc,hn⟩
  · exact iff_of_true hs.honest hm
  · exact iff_of_false (fun hh => hn (hh.returned c ret hc)) hm

/-- Two calls, each of which polls the success of the other. -/
def crossedSuccess : List Label :=
  [.post 0,.post 1,.test 0,.test 1,.complete 1 true,.complete 0 true,.poll 0,.poll 1,.test 0,
    .test 1]

theorem send_outcomes_sample : ∃ s, run step crossedSuccess initQueue = some s ∧
    s.pc 0 = .returned 0#32 ∧ Honest s :=
  ⟨_,rfl,rfl,(send_outcomes crossedSuccess _ rfl).mpr (by decide)⟩

/-- Call 0 polls the failure of call 1 and returns before its own request has
completed. -/
theorem failure_taken_over : ∃ s,
    run step [.post 0,.post 1,.test 0,.complete 1 false,.poll 0] initQueue = some s ∧
      s.pc 0 = .returned einval ∧ s.status 0 = none ∧ ¬ Honest s := by
  refine ⟨_,rfl,rfl,rfl,fun hh => ?_⟩
  obtain ⟨ok,hok,-⟩ := hh.returned 0 einval rfl
  cases hok

end Maruswap.SendQueue
