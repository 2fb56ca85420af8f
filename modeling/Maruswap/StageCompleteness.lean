import Maruswap.StageSoundness
import Mathlib.Data.Finset.Card

/-!
# Room and presence in the stage buffer

The batch counts a write under the spinlock, the count when it is staged. They
stay in step as long as no write is between the two when a commit resets the
count, and a staged page outlives the clear of a commit that began before its
frame was posted only if it is staged after it.
-/

set_option autoImplicit false

namespace Maruswap.StageCompleteness
open WireFormat DriverStage WriterThreads WriterThreads.Writers GuardedRun SoloWrites

variable {Page : Type*}

/-- A store finds room, and a write that returned zero is on the list until a
commit starts after the post of its frame. -/
structure Complete (w : Writers Page) : Prop where
  room : ∀ i, w.pc i = .storing → stageBufferFull w.stageBuffer = false
  present : ∀ o e, (o,e) ∈ w.finished → e = w.commits →
    (w.stageBuffer.checkList o).isSome

/-- No write is counted and unstaged at the reset of the count, and `__xa_store`
finds its memory. -/
def CountInStep : Label Page → Writers Page → Prop
  | .resetCount _, w => ∀ i, ¬ (w.pc i).InFlight
  | .store _ xa, _ => xa = true
  | _, _ => True

/-- No frame posted after the start of a commit is staged before its clear. -/
def ClearInStep : Label Page → Writers Page → Prop
  | .clear _, w => ∀ o e, (o,e) ∈ w.staged → e ≠ w.commits
  | _, _ => True

def InStep (l : Label Page) (w : Writers Page) : Prop := CountInStep l w ∧ ClearInStep l w

/-- What the count may reach before the next reset: the batch, or a whole batch
while a commit is between its two resets. -/
structure Counted (w : Writers Page) : Prop where
  locked : ∀ i, (w.pc i).Locked → w.lock = some i
  batch : w.batch ≤ configBatch
  counting : ∀ i, w.pc i = .counting → w.batch < configBatch
  drained : ∀ i, (w.pc i).Draining → w.batch = 0
  room : ∃ flight : Finset ℕ, (∀ i, i ∈ flight ↔ (w.pc i).InFlight) ∧
    w.stageBuffer.count+flight.card ≤ configBatch ∧
    ((∀ i, ¬ (w.pc i).Draining) → w.stageBuffer.count+flight.card ≤ w.batch)

/-- What was staged since the last start of a commit is on the list. -/
structure Present (w : Writers Page) : Prop where
  stagedAt : ∀ o e, (o,e) ∈ w.staged → e ≤ w.commits
  posted : ∀ i, w.pc i = .storing → (w.call i).postedAt ≤ w.commits
  listed : ∀ o e, (o,e) ∈ w.staged → e = w.commits → (w.stageBuffer.checkList o).isSome
  polling : ∀ i, w.pc i = .polling → ((w.call i).offset,(w.call i).postedAt) ∈ w.staged
  finished : ∀ p ∈ w.finished, p ∈ w.staged

theorem Counted.room_of {w : Writers Page} (h : Counted w) (i : ℕ) (hi : w.pc i = .storing) :
    stageBufferFull w.stageBuffer = false := by
  obtain ⟨flight,hf,hc,-⟩ := h.room
  have hmem : i ∈ flight := (hf i).mpr (by rw [hi]; trivial)
  have hpos := Finset.card_pos.mpr ⟨i,hmem⟩
  simp only [stageBufferFull, decide_eq_false_iff_not]
  omega

theorem Present.complete {w : Writers Page} (h : Present w) (hc : Counted w) : Complete w :=
  ⟨hc.room_of,fun o e hf he => h.listed o e (h.finished _ hf) he⟩

theorem locked_step {w u : Writers Page} {i : ℕ}
    (h : ∀ j, (w.pc j).Locked → w.lock = some j) (hpc : ∀ j, j ≠ i → u.pc j = w.pc j)
    (hl : (u.lock = w.lock ∧ ((u.pc i).Locked → (w.pc i).Locked)) ∨
      (w.lock = none ∧ u.lock = some i) ∨
      ((w.pc i).Locked ∧ u.lock = none ∧ ¬ (u.pc i).Locked)) :
    ∀ j, (u.pc j).Locked → u.lock = some j := by
  intro j hj
  by_cases hji : j = i
  · subst hji
    rcases hl with ⟨hl,hp⟩ | ⟨-,hl⟩ | ⟨-,-,hn⟩
    · rw [hl]
      exact h j (hp hj)
    · exact hl
    · exact absurd hj hn
  · rw [hpc j hji] at hj
    have hw := h j hj
    rcases hl with ⟨hl,-⟩ | ⟨hn,-⟩ | ⟨hi,-,-⟩
    · rw [hl]
      exact hw
    · simp [hn] at hw
    · exact absurd (Option.some.inj (hw.symm.trans (h i hi))) hji

theorem draining_locked {p : Pc} (h : p.Draining) : p.Locked := by
  cases p <;> first | exact h | exact h.elim

theorem in_flight_unlocked {p : Pc} (h : p.InFlight) : ¬ p.Locked ∧ ¬ p.Draining := by
  cases p <;> first | exact ⟨id,id⟩ | exact h.elim

theorem Counted.alone {w : Writers Page} (h : Counted w) {i j : ℕ} (hi : (w.pc i).Locked)
    (hj : (w.pc j).Locked) : i = j :=
  Option.some.inj ((h.locked i hi).symm.trans (h.locked j hj))

/-- A step of thread `i` that leaves batch and count alone, and after which the
thread is in flight or draining only if it was before. -/
theorem Counted.frame {w u : Writers Page} (h : Counted w) (i : ℕ) (hb : u.batch = w.batch)
    (hc : u.stageBuffer.count = w.stageBuffer.count) (hpc : ∀ j, j ≠ i → u.pc j = w.pc j)
    (hl : ∀ j, (u.pc j).Locked → u.lock = some j)
    (hcounting : u.pc i = .counting → w.batch < configBatch)
    (hflight : (u.pc i).InFlight → (w.pc i).InFlight)
    (hdrain : (u.pc i).Draining ↔ (w.pc i).Draining) : Counted u := by
  have hdr : ∀ j, (u.pc j).Draining ↔ (w.pc j).Draining := by
    intro j
    by_cases hj : j = i
    · subst hj
      exact hdrain
    · rw [hpc j hj]
  refine ⟨hl,hb ▸ h.batch,fun j hj => ?_,fun j hj => hb ▸ h.drained j ((hdr j).mp hj),?_⟩
  · rw [hb]
    by_cases hji : j = i
    · subst hji
      exact hcounting hj
    · exact h.counting j (hpc j hji ▸ hj)
  · obtain ⟨flight,hf,hle,hbatch⟩ := h.room
    rw [hb, hc]
    by_cases hi : (u.pc i).InFlight
    · refine ⟨flight,fun j => ?_,hle,fun hn => hbatch (fun j hj => hn j ((hdr j).mpr hj))⟩
      rw [hf]
      by_cases hj : j = i
      · subst hj
        exact ⟨fun _ => hi,hflight⟩
      · rw [hpc j hj]
    · have hcard := Finset.card_le_card (Finset.erase_subset i flight)
      refine ⟨flight.erase i,fun j => ?_,by omega,fun hn => ?_⟩
      · rw [Finset.mem_erase, hf]
        by_cases hj : j = i
        · subst hj
          exact ⟨fun hx => absurd rfl hx.1,fun hx => absurd hx hi⟩
        · rw [hpc j hj]
          exact ⟨fun hx => hx.2,fun hx => ⟨hj,hx⟩⟩
      · have := hbatch (fun j hj => hn j ((hdr j).mpr hj))
        omega

theorem quietly_counted (i : ℕ) (w u : Writers Page) (h : Counted w) (hq : Quietly i w u) :
    Counted u := by
  refine h.frame i hq.batch (congrArg StageBuffer.count hq.stageBuffer) hq.pc
    (locked_step h.locked hq.pc hq.lock) (fun hc => ?_)
    (fun hf => absurd hf hq.after.not_inFlight)
    ⟨fun hd => absurd hd hq.after.not_draining,fun hd => absurd hd hq.before.not_draining⟩
  have := hq.after
  rw [hc] at this
  exact this.elim

theorem reset_batch_counted (i : ℕ) (ret : U32) (w : Writers Page) (h : Counted w)
    (hpc : w.pc i = .committing [] ret) :
    Counted { w.move i (.clearing ret) with batch := 0 } := by
  have hlocked : (w.pc i).Locked := by rw [hpc]; trivial
  have hother : ∀ j, j ≠ i → Function.update w.pc i (.clearing ret) j = w.pc j :=
    fun j hj => Function.update_of_ne hj _ _
  have hself : Function.update w.pc i (.clearing ret) i = .clearing ret :=
    Function.update_self ..
  refine ⟨locked_step h.locked hother (Or.inl ⟨rfl,fun _ => hlocked⟩),Nat.zero_le _,
    fun _ _ => show 0 < configBatch by decide,fun _ _ => rfl,?_⟩
  obtain ⟨flight,hf,hle,-⟩ := h.room
  refine ⟨flight,fun j => ?_,hle,fun hn => absurd (show Pc.Draining _ from ?_) (hn i)⟩
  · rw [hf]
    change _ ↔ (Function.update w.pc i (.clearing ret) j).InFlight
    by_cases hj : j = i
    · subst hj
      rw [hself, hpc]
      exact Iff.rfl
    · rw [hother j hj]
  · change (Function.update w.pc i (.clearing ret) i).Draining
    rw [hself]
    trivial

theorem reset_count_counted (i : ℕ) (ret : U32) (p : Pc) (lock : Option ℕ) (w : Writers Page)
    (h : Counted w) (hpc : w.pc i = .resetting ret) (hnone : ∀ j, ¬ (w.pc j).InFlight)
    (hp : ¬ p.InFlight ∧ ¬ p.Draining)
    (hl : (lock = w.lock ∧ p.Locked) ∨ (lock = none ∧ ¬ p.Locked)) :
    Counted { ({ w with stageBuffer := stageBufferCountReset w.stageBuffer }).move i p with
      lock := lock } := by
  have hlocked : (w.pc i).Locked := by rw [hpc]; trivial
  have hzero : w.batch = 0 := h.drained i (by rw [hpc]; trivial)
  have hother : ∀ j, j ≠ i → Function.update w.pc i p j = w.pc j :=
    fun j hj => Function.update_of_ne hj _ _
  have hself : Function.update w.pc i p i = p := Function.update_self ..
  refine ⟨locked_step h.locked hother ?_,h.batch,fun j hj => ?_,fun j _ => hzero,∅,
    fun j => ?_,?_,fun _ => ?_⟩
  · rcases hl with ⟨hl,-⟩ | ⟨hl,hn⟩
    · exact Or.inl ⟨hl,fun _ => hlocked⟩
    · refine Or.inr (Or.inr ⟨hlocked,hl,?_⟩)
      change ¬ (Function.update w.pc i p i).Locked
      rwa [hself]
  · change w.batch < configBatch
    rw [hzero]
    decide
  · refine iff_of_false (by simp) ?_
    change ¬ (Function.update w.pc i p j).InFlight
    by_cases hj : j = i
    · subst hj
      rw [hself]
      exact hp.1
    · rw [hother j hj]
      exact hnone j
  · exact Nat.zero_le _
  · exact Nat.zero_le _

theorem count_counted (i : ℕ) (w : Writers Page) (h : Counted w) (hpc : w.pc i = .counting) :
    Counted (count i w) := by
  have hlocked : (w.pc i).Locked := by rw [hpc]; trivial
  have hlt := h.counting i hpc
  have hother : ∀ j, j ≠ i → Function.update w.pc i .posting j = w.pc j :=
    fun j hj => Function.update_of_ne hj _ _
  have hself : Function.update w.pc i .posting i = .posting := Function.update_self ..
  have hdrain : ∀ j, ¬ (w.pc j).Draining := by
    intro j hj
    have := h.alone hlocked (draining_locked hj)
    subst this
    rw [hpc] at hj
    exact hj.elim
  have hnone : ∀ j, ¬ (Function.update w.pc i .posting j).Locked := by
    intro j hj
    by_cases hji : j = i
    · subst hji
      rw [hself] at hj
      exact hj.elim
    · rw [hother j hji] at hj
      exact hji (h.alone hj hlocked)
  obtain ⟨flight,hf,hle,hbatch⟩ := h.room
  have hni : i ∉ flight := fun hi => (in_flight_unlocked ((hf i).mp hi)).1 hlocked
  have hcard := Finset.card_insert_of_notMem hni
  have hsum := hbatch hdrain
  refine ⟨fun j hj => absurd hj (hnone j),hlt,fun j hj => ?_,fun j hj => ?_,insert i flight,
    fun j => ?_,?_,fun _ => ?_⟩
  · have hj : Function.update w.pc i .posting j = .counting := hj
    exact absurd (by rw [hj]; trivial) (hnone j)
  · exact absurd (draining_locked hj) (hnone j)
  · rw [Finset.mem_insert, hf]
    change _ ↔ (Function.update w.pc i .posting j).InFlight
    by_cases hj : j = i
    · subst hj
      rw [hself]
      exact ⟨fun _ => trivial,fun _ => Or.inl rfl⟩
    · rw [hother j hj]
      exact ⟨fun hx => hx.resolve_left hj,Or.inr⟩
  · change w.stageBuffer.count+(insert i flight).card ≤ configBatch
    omega
  · change w.stageBuffer.count+(insert i flight).card ≤ w.batch+1
    omega

theorem store_counted (i : ℕ) (w : Writers Page) (h : Counted w) (hpc : w.pc i = .storing) :
    Counted (store i true w) := by
  have hf := h.room_of i hpc
  have hother : ∀ j, j ≠ i → Function.update w.pc i .polling j = w.pc j :=
    fun j hj => Function.update_of_ne hj _ _
  have hself : Function.update w.pc i .polling i = .polling := Function.update_self ..
  have hpolling : ∀ j, (Function.update w.pc i .polling j).Locked → (w.pc j).Locked := by
    intro j hj
    by_cases hji : j = i
    · subst hji
      rw [hself] at hj
      exact hj.elim
    · rwa [hother j hji] at hj
  have hdrain : ∀ j, (Function.update w.pc i .polling j).Draining ↔ (w.pc j).Draining := by
    intro j
    by_cases hji : j = i
    · subst hji
      rw [hself, hpc]
      exact Iff.rfl
    · rw [hother j hji]
  obtain ⟨flight,hfl,hle,hbatch⟩ := h.room
  have hi : i ∈ flight := (hfl i).mpr (by rw [hpc]; trivial)
  have hcard := Finset.card_erase_add_one hi
  have hcount : (store i true w).stageBuffer.count = w.stageBuffer.count+1 := by
    simp [store, store_room hf]
  refine ⟨fun j hj => h.locked j (hpolling j hj),h.batch,fun j hj => ?_,
    fun j hj => h.drained j ((hdrain j).mp hj),flight.erase i,fun j => ?_,?_,fun hn => ?_⟩
  · by_cases hji : j = i
    · subst hji
      have hj : Function.update w.pc j .polling j = .counting := hj
      rw [hself] at hj
      cases hj
    · exact h.counting j ((hother j hji).symm.trans hj)
  · rw [Finset.mem_erase, hfl]
    change _ ↔ (Function.update w.pc i .polling j).InFlight
    by_cases hj : j = i
    · subst hj
      rw [hself]
      exact ⟨fun hx => absurd rfl hx.1,fun hx => hx.elim⟩
    · rw [hother j hj]
      exact ⟨fun hx => hx.2,fun hx => ⟨hj,hx⟩⟩
  · rw [hcount]
    omega
  · have := hbatch (fun j hj => hn j ((hdrain j).mpr hj))
    rw [hcount]
    change w.stageBuffer.count+1+(flight.erase i).card ≤ w.batch
    omega

theorem Counted.moved {w : Writers Page} (h : Counted w) (i : ℕ) (p : Pc) (u : Writers Page)
    (hu : u.pc = Function.update w.pc i p) (hlock : u.lock = w.lock) (hb : u.batch = w.batch)
    (hc : u.stageBuffer.count = w.stageBuffer.count) (hl : p.Locked → (w.pc i).Locked)
    (hcounting : p = .counting → w.batch < configBatch)
    (hflight : p.InFlight → (w.pc i).InFlight) (hdrain : p.Draining ↔ (w.pc i).Draining) :
    Counted u := by
  have hself : u.pc i = p := by rw [hu, Function.update_self]
  have hother : ∀ j, j ≠ i → u.pc j = w.pc j := fun j hj => by
    rw [hu, Function.update_of_ne hj]
  refine h.frame i hb hc hother (locked_step h.locked hother (Or.inl ⟨hlock,?_⟩)) ?_ ?_ ?_
  all_goals rw [hself]
  · exact hl
  · exact hcounting
  · exact hflight
  · exact hdrain

theorem step_counted (l : Label Page) (w u : Writers Page) (h : Counted w)
    (hg : CountInStep l w) (hs : step l w = some u) : Counted u := by
  cases hl : l.quiet with
  | some i => exact quietly_counted i w u h (quiet_step l i w u hl hs)
  | none =>
    cases step_effect hs with
    | connect c => exact ⟨h.locked,h.batch,h.counting,h.drained,h.room⟩
    | start hpc hb =>
      exact h.moved _ _ _ rfl rfl rfl rfl (fun _ => by rw [hpc]; trivial) (by simp) False.elim
        (by rw [hpc]; exact Iff.rfl)
    | pass hpc hb =>
      exact h.moved _ _ _ rfl rfl rfl rfl (fun _ => by rw [hpc]; trivial)
        (fun _ => Nat.lt_of_not_le hb) False.elim (by rw [hpc]; exact Iff.rfl)
    | resetBatch hpc => exact reset_batch_counted _ _ w h hpc
    | clear hpc =>
      exact h.moved _ _ _ rfl rfl rfl rfl (fun _ => by rw [hpc]; trivial) (by simp) False.elim
        (by rw [hpc]; exact Iff.rfl)
    | resetCount hpc =>
      exact reset_count_counted _ _ .counting w.lock w h hpc hg ⟨id,id⟩ (Or.inl ⟨rfl,trivial⟩)
    | abort hpc hret =>
      exact reset_count_counted _ _ (.returned 1#32) none w h hpc hg ⟨id,id⟩ (Or.inr ⟨rfl,id⟩)
    | count hpc => exact count_counted _ w h hpc
    | post hpc =>
      exact h.moved _ _ _ rfl rfl rfl rfl False.elim (by simp) (fun _ => by rw [hpc]; trivial)
        (by rw [hpc]; exact Iff.rfl)
    | refuse hpc hret =>
      exact h.moved _ _ _ rfl rfl rfl rfl False.elim (by simp) False.elim
        (by rw [hpc]; exact Iff.rfl)
    | store xa hpc =>
      have hxa : xa = true := hg
      subst hxa
      exact store_counted _ w h hpc
    | complete hpc =>
      exact h.moved _ _ _ rfl rfl rfl rfl False.elim (by simp) False.elim
        (by rw [hpc]; exact Iff.rfl)
    | incomplete hpc =>
      exact h.moved _ _ _ rfl rfl rfl rfl False.elim (by simp) False.elim
        (by rw [hpc]; exact Iff.rfl)
    | _ => cases hl

/-- A step of thread `i` that stages nothing, and takes off the list nothing that
was staged since the last start of a commit. -/
theorem Present.frame {w u : Writers Page} (h : Present w) (i : ℕ) (hs : u.staged = w.staged)
    (hfin : ∀ p ∈ u.finished, p ∈ w.staged) (hcommits : w.commits ≤ u.commits)
    (hlist : ∀ o, (o,u.commits) ∈ w.staged →
      u.commits = w.commits ∧ u.stageBuffer.checkList o = w.stageBuffer.checkList o)
    (hpc : ∀ j, j ≠ i → u.pc j = w.pc j) (hcall : ∀ j, j ≠ i → u.call j = w.call j)
    (hi : u.pc i = .storing → (u.call i).postedAt ≤ u.commits)
    (hpoll : u.pc i ≠ .polling) : Present u where
  stagedAt := fun o e ho => (h.stagedAt o e (hs ▸ ho)).trans hcommits
  posted := fun j hj => by
    by_cases hji : j = i
    · subst hji
      exact hi hj
    · rw [hcall j hji]
      exact (h.posted j (hpc j hji ▸ hj)).trans hcommits
  listed := fun o e ho he => by
    subst he
    rw [hs] at ho
    obtain ⟨hc,hl⟩ := hlist o ho
    rw [hl]
    exact h.listed o _ ho hc
  polling := fun j hj => by
    by_cases hji : j = i
    · subst hji
      exact absurd hj hpoll
    · rw [hs, hcall j hji]
      exact h.polling j (hpc j hji ▸ hj)
  finished := fun p hp => hs ▸ hfin p hp

theorem quietly_present (i : ℕ) (w u : Writers Page) (h : Present w) (hq : Quietly i w u) :
    Present u := by
  have hafter := hq.after
  refine h.frame i hq.staged (fun p hp => h.finished p (hq.finished ▸ hp)) hq.commits.ge
    (fun o _ => ⟨hq.commits,by rw [hq.stageBuffer]⟩) hq.pc hq.call (fun hp => ?_)
    (fun hp => ?_)
  · rw [hp] at hafter
    exact hafter.elim
  · rw [hp] at hafter
    exact hafter.elim

/-- The common case: thread `i` goes on to `p`, nothing is staged or finished. -/
theorem Present.moved {w : Writers Page} (h : Present w) (i : ℕ) (p : Pc) (u : Writers Page)
    (hu : u.pc = Function.update w.pc i p) (hcall : u.call = w.call)
    (hs : u.staged = w.staged) (hf : u.finished = w.finished)
    (hcommits : w.commits ≤ u.commits) (hlist : ∀ o, (o,u.commits) ∈ w.staged →
      u.commits = w.commits ∧ u.stageBuffer.checkList o = w.stageBuffer.checkList o)
    (hp : p ≠ .storing ∧ p ≠ .polling) : Present u := by
  have hself : u.pc i = p := by rw [hu, Function.update_self]
  refine h.frame i hs (fun q hq => h.finished q (hf ▸ hq)) hcommits hlist
    (fun j hj => by rw [hu, Function.update_of_ne hj]) (fun j _ => by rw [hcall]) ?_ ?_
  · rw [hself]
    exact fun hx => absurd hx hp.1
  · rw [hself]
    exact hp.2

theorem store_present (i : ℕ) (w : Writers Page) (h : Present w) (hc : Counted w)
    (hpc : w.pc i = .storing) : Present (store i true w) := by
  have hf := hc.room_of i hpc
  have hstaged : (store i true w).staged =
      w.staged++[((w.call i).offset,(w.call i).postedAt)] := by simp [store, hf]
  have hlist : (store i true w).stageBuffer.checkList =
      Function.update w.stageBuffer.checkList (w.call i).offset (some w.stageBuffer.index) := by
    simp [store, store_room hf]
  have hother : ∀ j, j ≠ i → Function.update w.pc i .polling j = w.pc j :=
    fun j hj => Function.update_of_ne hj _ _
  have hmem : ∀ p, p ∈ (store i true w).staged ↔
      p ∈ w.staged ∨ p = ((w.call i).offset,(w.call i).postedAt) := by
    intro p
    rw [hstaged, List.mem_append, List.mem_singleton]
  refine ⟨fun o e ho => ?_,fun j hj => ?_,fun o e ho he => ?_,fun j hj => ?_,fun p hp => ?_⟩
  · rcases (hmem _).mp ho with ho | ho
    · exact h.stagedAt o e ho
    · obtain ⟨-,rfl⟩ := Prod.mk.inj ho
      exact h.posted i hpc
  · by_cases hji : j = i
    · subst hji
      have hj : Function.update w.pc j .polling j = .storing := hj
      rw [Function.update_self] at hj
      cases hj
    · exact h.posted j ((hother j hji).symm.trans hj)
  · rw [hlist]
    by_cases hoi : o = (w.call i).offset
    · subst hoi
      rw [Function.update_self]
      rfl
    · rw [Function.update_of_ne hoi]
      rcases (hmem _).mp ho with ho | ho
      · exact h.listed o e ho he
      · exact absurd (Prod.mk.inj ho).1 hoi
  · by_cases hji : j = i
    · subst hji
      exact (hmem _).mpr (Or.inr rfl)
    · exact (hmem _).mpr (Or.inl (h.polling j ((hother j hji).symm.trans hj)))
  · exact (hmem p).mpr (Or.inl (h.finished p hp))

theorem step_present (l : Label Page) (w u : Writers Page) (h : Present w) (hc : Counted w)
    (hg : InStep l w) (hs : step l w = some u) : Present u := by
  cases hl : l.quiet with
  | some i => exact quietly_present i w u h (quiet_step l i w u hl hs)
  | none =>
    have keep : ∀ i p (u : Writers Page), u.pc = Function.update w.pc i p → u.call = w.call →
        u.staged = w.staged → u.finished = w.finished → u.commits = w.commits →
        u.stageBuffer.checkList = w.stageBuffer.checkList → p ≠ .storing ∧ p ≠ .polling →
        Present u := fun i p u hu hcall hst hf hcm hcl hp =>
      h.moved i p u hu hcall hst hf hcm.ge (fun o _ => ⟨hcm,congrFun hcl o⟩) hp
    cases step_effect hs with
    | connect c => exact ⟨h.stagedAt,h.posted,h.listed,h.polling,h.finished⟩
    | start hpc hb =>
      refine h.moved _ _ _ rfl rfl rfl rfl (Nat.le_succ _) (fun o ho => ?_) (by simp)
      exact absurd (h.stagedAt o _ ho) (Nat.not_succ_le_self _)
    | pass hpc hb => exact keep _ _ _ rfl rfl rfl rfl rfl rfl (by simp)
    | resetBatch hpc => exact keep _ _ _ rfl rfl rfl rfl rfl rfl (by simp)
    | clear hpc =>
      exact h.moved _ _ _ rfl rfl rfl rfl le_rfl (fun o ho => absurd rfl (hg.2 o _ ho)) (by simp)
    | resetCount hpc => exact keep _ .counting _ rfl rfl rfl rfl rfl rfl (by simp)
    | abort hpc hret => exact keep _ (.returned 1#32) _ rfl rfl rfl rfl rfl rfl (by simp)
    | count hpc => exact keep _ _ _ rfl rfl rfl rfl rfl rfl (by simp)
    | post hpc =>
      refine h.frame _ rfl h.finished le_rfl (fun _ _ => ⟨rfl,rfl⟩)
        (fun j hj => Function.update_of_ne hj _ _) (fun j hj => Function.update_of_ne hj _ _)
        (fun _ => ?_) (by simp [move])
      simp [move]
    | refuse hpc hret => exact keep _ _ _ rfl rfl rfl rfl rfl rfl (by simp)
    | store xa hpc =>
      have hxa : xa = true := hg.1
      subst hxa
      exact store_present _ w h hc hpc
    | complete hpc =>
      refine h.frame _ rfl (fun p hp => ?_) le_rfl (fun _ _ => ⟨rfl,rfl⟩)
        (fun j hj => Function.update_of_ne hj _ _) (fun _ _ => rfl) (by simp [move])
        (by simp [move])
      rcases List.mem_append.mp hp with hp | hp
      · exact h.finished p hp
      · rw [List.mem_singleton.mp hp]
        exact h.polling _ hpc
    | incomplete hpc => exact keep _ _ _ rfl rfl rfl rfl rfl rfl (by simp)
    | _ => cases hl

theorem init_counted (ctrl : ℕ → RdmaCtrl) (cs : List ℕ) (c : ℕ) (buffer : ℕ → Page)
    (call : ℕ → Call Page) : Counted (initWriters ctrl cs c buffer call) where
  locked := fun _ h => h.elim
  batch := Nat.zero_le _
  counting := nofun
  drained := fun _ h => h.elim
  room := ⟨∅,fun _ => iff_of_false (Finset.notMem_empty _) id,Nat.zero_le _,
    fun _ => Nat.zero_le _⟩

theorem init_present (ctrl : ℕ → RdmaCtrl) (cs : List ℕ) (c : ℕ) (buffer : ℕ → Page)
    (call : ℕ → Call Page) : Present (initWriters ctrl cs c buffer call) :=
  ⟨nofun,nofun,nofun,nofun,nofun⟩

/-- Over every run of any number of writers whose stores and resets are in step,
whether or not posts, completions and commits fail. -/
theorem stage_complete (ctrl : ℕ → RdmaCtrl) (cs : List ℕ) (c : ℕ) (buffer : ℕ → Page)
    (call : ℕ → Call Page) (ls : List (Label Page)) (w : Writers Page)
    (hg : Meets step InStep ls (initWriters ctrl cs c buffer call))
    (h : run step ls (initWriters ctrl cs c buffer call) = some w) : Complete w := by
  have hstep : ∀ l (s t : Writers Page), Counted s ∧ Present s → InStep l s →
      step l s = some t → Counted t ∧ Present t := fun l s t hi hg hs =>
    ⟨step_counted l s t hi.1 hg.1 hs,step_present l s t hi.2 hi.1 hg hs⟩
  have hw := run_invariant hstep
    ⟨init_counted ctrl cs c buffer call,init_present ctrl cs c buffer call⟩ hg h
  exact hw.2.complete hw.1

/-! A write posted and staged between the start of another's commit and its clear. -/

/-- Writer 0 fills the batch; writer 1 starts a commit; writer 0 posts, stages
and returns; writer 1 clears the list. -/
def clearedLabels : List (Label ℕ) :=
  countLabels 0 5000#32 70++commitLabels 1 5001#32 71++
    [.post 0 0#32,.store 0 true,.complete 0 true,.clear 1]

theorem cleared_run (w : Writers ℕ) (h : Sight w .idle .idle none 1023 1023 1023)
    (hc : w.commits = 0) : ∃ u, run step clearedLabels w = some u ∧ u.commits = 1 ∧
      (5000#32,1) ∈ u.finished ∧ u.stageBuffer.checkList 5000#32 = none := by
  obtain ⟨e1,s1⟩ := h.counts 5000#32 70 (by decide) (by decide)
  have o1 : ((counted 0 5000#32 70 w).call 0).offset = 5000#32 := by simp [counted]
  have c1 : (counted 0 5000#32 70 w).commits = 0 := hc
  generalize counted 0 5000#32 70 w = w1 at e1 s1 o1 c1
  have e2 := commit_run 1 5001#32 71 1 0 w1 s1.lock (by rw [s1.second]; trivial)
    (by rw [s1.batch]; decide) (by decide) (s1.opened _) s1.list
  have s2 : Sight (committed 1 5001#32 71 w1) .posting (.clearing 0#32) (some 1) 0 1023 1023 :=
    ⟨by simp [committed, move, s1.first],by simp [committed, move],
      by simpa [committed, move] using s1.third,rfl,rfl,s1.count,s1.index,s1.ctrl,s1.list⟩
  have o2 : ((committed 1 5001#32 71 w1).call 0).offset = 5000#32 := by simp [committed, o1]
  have c2 : (committed 1 5001#32 71 w1).commits = 1 := by simp [committed, c1]
  generalize committed 1 5001#32 71 w1 = w2 at e2 s2 o2 c2
  have e3 : ∃ u, run step [.post 0 0#32,.store 0 true,.complete 0 true,.clear 1] w2 = some u ∧
      u.commits = 1 ∧ (5000#32,1) ∈ u.finished ∧ u.stageBuffer.checkList 5000#32 = none := by
    refine ⟨?u,?r,?_,?_,?_⟩
    case r =>
      simp [run, step, move, s2.first, s2.second, post, store, complete]
      rfl
    · exact c2
    · simp [o2, c2]
    · rfl
  obtain ⟨u,e3,hu⟩ := e3
  exact ⟨u,run_trans (run_trans e1 e2) e3,hu⟩

/-- Nothing fails: no mapping, RPC, post, store or completion. -/
def Succeeds : Label Page → Prop
  | .call _ _ _ ret => ret = 0#32
  | .openRpc _ outcome => outcome.isSome
  | .commitRpc _ tret => tret = 0#32
  | .post _ ret => ret = 0#32
  | .store _ xa => xa = true
  | .complete _ success => success = true
  | _ => True

theorem cleared_after_return : ¬ ∀ (ls : List (Label ℕ)) (w : Writers ℕ),
    (∀ l ∈ ls, Succeeds l) → run step ls start = some w → Complete w := by
  intro h
  obtain ⟨w,hw,hs,hc⟩ := row_sight
  obtain ⟨u,hu,hcommits,hfin,hnone⟩ := cleared_run w hs hc
  have hok : ∀ l ∈ rowLabels 2 0 1023++clearedLabels, Succeeds l := by
    have hrace : ∀ l ∈ clearedLabels, Succeeds l := by
      simp [clearedLabels, countLabels, commitLabels, Succeeds]
    exact fun l hl => (List.mem_append.mp hl).elim
      (row_forall (by simp [writeLabels, Succeeds]) 0 1023 l) (hrace l)
  have := (h _ u hok (run_trans hw hu)).present 5000#32 1 hfin hcommits.symm
  simp [hnone] at this

theorem resting_not_in_flight {p : Pc} (h : p.Resting) : ¬p.InFlight := by
  cases p <;> first | exact id | exact h.elim

theorem turn_in_step {row : List (Label ℕ)} {v : Writers ℕ}
    (hrow : ∀ l ∈ row, ∀ w, InStep l w) (hv : run step (row++fillLabels) start = some v)
    (hp : ∀ j, (v.pc j).Resting ∨ v.pc j = .clearing 0#32)
    (hc : v.commits = 1 ∧ ∀ x ∈ v.staged, x.2 = 0) : Meets step InStep (turnLabels row) start := by
  have hfill : ∀ l ∈ row++fillLabels, ∀ w, InStep l w := fun l hl =>
    (List.mem_append.mp hl).elim (hrow l)
      ((by simp [fillLabels, countLabels, InStep, CountInStep, ClearInStep] :
        ∀ l ∈ fillLabels, ∀ w : Writers ℕ, InStep l w) l)
  have hresume : ∀ l ∈ resumeLabels, ∀ w : Writers ℕ, InStep l w := by
    simp [resumeLabels, InStep, CountInStep, ClearInStep]
  refine meets_append (meets_append (meets_of_forall hfill start) fun t ht => ?_)
    fun t _ => meets_of_forall hresume t
  obtain rfl := Option.some.inj (hv.symm.trans ht)
  refine ⟨⟨trivial,fun o e he => ?_⟩,fun u hu => ⟨⟨fun j => ?_,trivial⟩,fun _ _ => trivial⟩⟩
  · have hzero : e = 0 := hc.2 _ he
    rw [hc.1, hzero]
    exact Nat.zero_ne_one
  · cases step_effect hu with
    | clear hpc =>
      by_cases hj : j = 1
      · simp [move, hj, Pc.InFlight]
      · simp only [move, Function.update_of_ne hj]
        rcases hp j with hr | hr
        · exact resting_not_in_flight hr
        · simp [hr, Pc.InFlight]

/-- Two writers, and the commit of a full batch between their returned writes. -/
theorem stage_complete_sample : ∃ row w, row = rowLabels 2 0 1023 ∧
    run step (turnLabels row) start = some w ∧ Complete w ∧ w.commits = 1 ∧
    w.stageBuffer.checkList 5000#32 = none ∧ w.stageBuffer.checkList 5001#32 = some 0 ∧
    w.stageBuffer.checkList 5002#32 = some 1 := by
  obtain ⟨row,v,w,u,hrow,hv,hw,hu,hp,-,hc,hlast⟩ := turn_run
  have hrun := run_trans (run_trans hv hw) hu
  have hg := turn_in_step (hrow ▸ row_forall (by
    simp [writeLabels, InStep, CountInStep, ClearInStep]) 0 1023) hv hp hc
  exact ⟨row,u,hrow,hrun,stage_complete openCtrl [1,0] 0 _ _ _ u hg hrun,hlast⟩

end Maruswap.StageCompleteness
