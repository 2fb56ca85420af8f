import Maruswap.GuardedRun
import Maruswap.KeyedLog
import Maruswap.SoloWrites

/-!
# Slots of the stage buffer under concurrent writers

The window over the ring survives every interleaving as long as the list is
still empty when the count is reset: a page staged between the clear and the
reset of a commit would stay listed without being counted.
-/

set_option autoImplicit false

namespace Maruswap.StageSoundness
open WireFormat DriverStage WriterThreads WriterThreads.Writers RingWindow GuardedRun
open SoloWrites

variable {Page : Type*}

/-- The page most recently stored under an offset. -/
def lastStored (w : Writers Page) (offset : U32) : Option Page :=
  KeyedLog.lastOf offset w.stores

/-- Distinct offsets have distinct slots, and what is loaded for an offset is
the page last stored under it. -/
structure Sound (w : Writers Page) : Prop where
  slots : ∀ o p s, w.stageBuffer.checkList o = some s → w.stageBuffer.checkList p = some s →
    o = p
  content : ∀ o s, w.stageBuffer.checkList o = some s →
    lastStored w o = some (w.stageBuffer.buffer s)
  loads : ∀ o page, stageBufferLoad o w.stageBuffer = some page → lastStored w o = some page

structure Staged (w : Writers Page) : Prop where
  windowed : Windowed w.stageBuffer
  holds : Holds w.stageBuffer.buffer w.stageBuffer.checkList (lastStored w)
  cleared : ∀ i ret, w.pc i = .resetting ret → ∀ o, w.stageBuffer.checkList o = none

theorem Staged.sound {w : Writers Page} (h : Staged w) : Sound w := by
  refine ⟨fun o p s ho hp => window_injective h.windowed ho hp,h.holds,fun o page ho => ?_⟩
  obtain ⟨s,hs,rfl⟩ := Option.map_eq_some_iff.mp ho
  exact h.holds o s hs

/-- No page is staged between the clear and the reset of a commit. -/
def StoreOutside : Label Page → Writers Page → Prop
  | .store _ _, w => stageBufferFull w.stageBuffer = false → ∀ j ret, w.pc j ≠ .resetting ret
  | _, _ => True

theorem init_staged (ctrl : ℕ → RdmaCtrl) (cs : List ℕ) (c : ℕ) (buffer : ℕ → Page)
    (call : ℕ → Call Page) : Staged (initWriters ctrl cs c buffer call) where
  windowed := empty_window (show 0 < configBatch by decide) (fun _ => rfl)
  holds := nofun
  cleared := nofun

theorem Staged.frame {w u : Writers Page} (h : Staged w)
    (hb : u.stageBuffer = w.stageBuffer) (hs : u.stores = w.stores)
    (hp : ∀ i ret, u.pc i = .resetting ret → w.pc i = .resetting ret) : Staged u := by
  have hl : lastStored u = lastStored w := by
    funext o
    rw [lastStored, lastStored, hs]
  refine ⟨?_,?_,?_⟩
  · rw [hb]
    exact h.windowed
  · rw [hb, hl]
    exact h.holds
  · rw [hb]
    exact fun i ret hi => h.cleared i ret (hp i ret hi)

theorem resetting_update {pc : ℕ → Pc} {i : ℕ} {p : Pc} (hp : ∀ ret, p ≠ .resetting ret)
    (j : ℕ) (ret : U32) (h : Function.update pc i p j = .resetting ret) :
    pc j = .resetting ret := by
  by_cases hj : j = i
  · subst hj
    rw [Function.update_self] at h
    exact absurd h (hp ret)
  · rwa [Function.update_of_ne hj] at h

theorem quietly_staged (i : ℕ) (w u : Writers Page) (h : Staged w) (hq : Quietly i w u) :
    Staged u := by
  refine h.frame hq.stageBuffer hq.stores (fun j ret hj => ?_)
  by_cases hji : j = i
  · subst hji
    exact absurd (by rw [hj]; trivial) hq.after.not_draining
  · rwa [hq.pc j hji] at hj

theorem store_staged (i : ℕ) (xa : Bool) (w : Writers Page) (h : Staged w)
    (hg : stageBufferFull w.stageBuffer = false → ∀ j ret, w.pc j ≠ .resetting ret) :
    Staged (store i xa w) := by
  have hw := store_windowed xa (w.call i).page (w.call i).offset w.stageBuffer h.windowed
  have hpc := @resetting_update w.pc i .polling nofun
  cases hf : stageBufferFull w.stageBuffer with
  | true =>
    have hb : ∀ o s, (stageBufferStore xa (w.call i).page (w.call i).offset
        w.stageBuffer).checkList o = some s → w.stageBuffer.checkList o = some s := by
      intro o s ho
      simp only [stageBufferStore, hf, if_true] at ho
      split at ho
      · exact erase_le ho
      · exact ho
    have hbuf : (stageBufferStore xa (w.call i).page (w.call i).offset w.stageBuffer).buffer =
        w.stageBuffer.buffer := by
      simp only [stageBufferStore, hf, if_true]
      split <;> rfl
    refine ⟨hw,?_,fun j ret hj o => ?_⟩
    · have hl : lastStored (store i xa w) = lastStored w := by
        funext o
        simp [lastStored, store, hf]
      rw [hl]
      change Holds (stageBufferStore _ _ _ _).buffer _ _
      rw [hbuf]
      exact holds_mono h.holds hb
    · cases hs : (store i xa w).stageBuffer.checkList o with
      | none => rfl
      | some s =>
        have := hb o s hs
        simp [h.cleared j ret (hpc j ret hj) o] at this
  | false =>
    have hc := not_full hf
    refine ⟨hw,?_,fun j ret hj => absurd (hpc j ret hj) (hg hf j ret)⟩
    cases xa with
    | true =>
      have hl : lastStored (store i true w) =
          Function.update (lastStored w) (w.call i).offset (some (w.call i).page) := by
        funext o
        by_cases ho : o = (w.call i).offset
        · subst ho
          simp [lastStored, store, hf, KeyedLog.lastOf, KeyedLog.entries_single_self]
        · simp [lastStored, store, hf, KeyedLog.lastOf, ho,
            KeyedLog.entries_single_ne (Ne.symm ho)]
      rw [hl]
      have hh := holds_store h.holds h.windowed hc (w.call i).offset (w.call i).page
      simpa [store, stageBufferStore, hf, stageBufferCountAdd] using hh
    | false =>
      have hl : lastStored (store i false w) = lastStored w := by
        funext o
        simp [lastStored, store, hf]
      rw [hl]
      have hh := holds_skip h.holds h.windowed hc (w.call i).page
      simpa [store, stageBufferStore, hf, stageBufferCountAdd] using hh

theorem Staged.reset {w : Writers Page} (h : Staged w) {i : ℕ} {ret : U32}
    (hpc : w.pc i = .resetting ret) :
    Staged { w with stageBuffer := stageBufferCountReset w.stageBuffer } :=
  have hempty := h.cleared i ret hpc
  ⟨reset_windowed w.stageBuffer h.windowed hempty,h.holds,fun _ _ _ => hempty⟩

theorem step_staged (l : Label Page) (w u : Writers Page) (h : Staged w)
    (hg : StoreOutside l w) (hs : step l w = some u) : Staged u := by
  cases hl : l.quiet with
  | some i => exact quietly_staged i w u h (quiet_step l i w u hl hs)
  | none =>
    cases step_effect hs with
    | connect c => exact h.frame rfl rfl (fun _ _ hj => hj)
    | start hpc hb => exact h.frame rfl rfl (resetting_update (by simp))
    | pass hpc hb => exact h.frame rfl rfl (resetting_update (by simp))
    | resetBatch hpc => exact h.frame rfl rfl (resetting_update (by simp))
    | clear hpc =>
      exact ⟨clear_windowed w.stageBuffer h.windowed,
        holds_mono h.holds (by simp [clearStageBufferAddr]),fun _ _ _ _ => rfl⟩
    | resetCount hpc =>
      exact (h.reset hpc).frame rfl rfl (resetting_update (by simp))
    | abort hpc hret =>
      exact (h.reset hpc).frame rfl rfl (resetting_update (by simp))
    | count hpc => exact h.frame rfl rfl (resetting_update (by simp))
    | post hpc => exact h.frame rfl rfl (resetting_update (by simp))
    | refuse hpc hret => exact h.frame rfl rfl (resetting_update (by simp))
    | store xa hpc => exact store_staged _ xa w h hg
    | complete hpc => exact h.frame rfl rfl (resetting_update (by simp))
    | incomplete hpc => exact h.frame rfl rfl (resetting_update (by simp))
    | _ => cases hl

/-- Over every run of any number of writers in which no page is staged between
the clear and the reset of a commit. -/
theorem stage_sound (ctrl : ℕ → RdmaCtrl) (cs : List ℕ) (c : ℕ) (buffer : ℕ → Page)
    (call : ℕ → Call Page) (ls : List (Label Page)) (w : Writers Page)
    (hg : Meets step StoreOutside ls (initWriters ctrl cs c buffer call))
    (h : run step ls (initWriters ctrl cs c buffer call) = some w) : Sound w :=
  (run_invariant step_staged (init_staged ctrl cs c buffer call) hg h).sound

/-- Writer 0 fills the batch and posts; writer 1 commits up to the clear; writer
0 stores; writer 1 resets the count and writes. -/
def raceLabels : List (Label ℕ) :=
  countLabels 0 5000#32 70++[.post 0 0#32]++commitLabels 1 5001#32 71++
    [.clear 1,.store 0 true,.complete 0 true]++
    [.resetCount 1,.count 1,.post 1 0#32,.store 1 true,.complete 1 true]

theorem race_run (w : Writers ℕ) (h : Sight w .idle .idle none 1023 1023 1023) :
    ∃ u, run step raceLabels w = some u ∧ Room 2 1023 u ∧
      (∀ m, checkRdmaInfo m u.toDriver = false) ∧ u.stageBuffer.index = 1 ∧
      u.stageBuffer.checkList 5000#32 = some 1023 := by
  obtain ⟨e1,s1⟩ := h.counts 5000#32 70 (by decide) (by decide)
  have o1 : ((counted 0 5000#32 70 w).call 0).offset = 5000#32 := by simp [counted]
  generalize counted 0 5000#32 70 w = w1 at e1 s1 o1
  have e2 : step (.post 0 0#32) w1 = some (post 0 0#32 w1) := by simp [step, s1.first]
  have s2 : Sight (post 0 0#32 w1) .storing .idle none 1024 1023 1023 :=
    ⟨by simp [post, move],by simp [post, move, s1.second],by simpa [post, move] using s1.third,
      s1.lock,s1.batch,s1.count,s1.index,s1.ctrl,s1.list⟩
  have o2 : ((post 0 0#32 w1).call 0).offset = 5000#32 := by simp [post, o1]
  generalize post 0 0#32 w1 = w2 at e2 s2 o2
  have e3 := commit_run 1 5001#32 71 1 0 w2 s2.lock (by rw [s2.second]; trivial)
    (by rw [s2.batch]; decide) (by decide) (s2.opened _) s2.list
  have s3 : Sight (committed 1 5001#32 71 w2) .storing (.clearing 0#32) (some 1) 0 1023 1023 :=
    ⟨by simp [committed, move, s2.first],by simp [committed, move],
      by simpa [committed, move] using s2.third,rfl,rfl,s2.count,s2.index,s2.ctrl,s2.list⟩
  have o3 : ((committed 1 5001#32 71 w2).call 0).offset = 5000#32 := by simp [committed, o2]
  have p3 : ((committed 1 5001#32 71 w2).call 1).offset = 5001#32 := by simp [committed]
  generalize committed 1 5001#32 71 w2 = w3 at e3 s3 o3 p3
  have f3 : stageBufferFull (clearStageBufferAddr w3.stageBuffer) = false := by
    simp [stageBufferFull, clearStageBufferAddr, s3.count, configBatch]
  have e4 : ∃ u, run step [.clear 1,.store 0 true,.complete 0 true] w3 = some u ∧
      Sight u (.returned 0#32) (.resetting 0#32) (some 1) 0 1024 0 ∧
      (u.call 1).offset = 5001#32 ∧ u.stageBuffer.checkList 5000#32 = some 1023 := by
    refine ⟨?u,?r,?_,?_,?_⟩
    case r =>
      simp [run, step, move, s3.first, s3.second, store, complete]
      rfl
    · refine ⟨by simp,by simp,by simpa using s3.third,s3.lock,s3.batch,?_,?_,s3.ctrl,s3.list⟩
      · simp only [store_room f3]
        simp [clearStageBufferAddr, s3.count]
      · simp only [store_room f3]
        simp [clearStageBufferAddr, s3.index, configBatch]
    · exact p3
    · simp only [store_room f3]
      simp [clearStageBufferAddr, s3.index, o3]
  obtain ⟨w4,e4,s4,p4,c4⟩ := e4
  have f4 : stageBufferFull (stageBufferCountReset w4.stageBuffer) = false := by
    simp [stageBufferFull, stageBufferCountReset, configBatch]
  have e5 : ∃ u, run step [.resetCount 1,.count 1,.post 1 0#32,.store 1 true,.complete 1 true]
      w4 = some u ∧ Room 2 1023 u ∧
      (∀ m, checkRdmaInfo m u.toDriver = false) ∧ u.stageBuffer.index = 1 ∧
      u.stageBuffer.checkList 5000#32 = some 1023 := by
    refine ⟨?v,?t,?_,?_,?_,?_⟩
    case t =>
      simp [run, step, move, s4.second, count, post, store, complete]
      rfl
    · refine ⟨rfl,by simpa using s4.third,?_,?_⟩
      · simp [s4.batch, configBatch]
      · simp only [store_room f4]
        simp [stageBufferCountReset, configBatch]
    · exact s4.opened
    · simp only [store_room f4]
      simp [stageBufferCountReset, s4.index, configBatch]
    · simp only [store_room f4]
      simp [stageBufferCountReset, p4, c4]
  obtain ⟨u,e5,hu⟩ := e5
  have e12 : run step (countLabels 0 5000#32 70++[.post 0 0#32]) w = some w2 :=
    run_trans e1 (run_cons.mpr ⟨w2,e2,rfl⟩)
  exact ⟨u,run_trans (run_trans (run_trans e12 e3) e4) e5,hu⟩

/-- A further full batch brings the ring round to the slot of offset 5000. -/
theorem staged_between_shares_slot : ¬ ∀ (ls : List (Label ℕ)) (w : Writers ℕ),
    run step ls start = some w → Sound w := by
  intro h
  obtain ⟨w,hw,hs,-⟩ := row_sight
  obtain ⟨u,hu,hroom,hopen,hi,hc⟩ := race_run w hs
  obtain ⟨v,hv,hr⟩ := row_run 2 10000 1023 u hroom (by rw [hi]; decide) (by decide)
    fun _ _ => hopen _
  have hsound := h _ v (run_trans (run_trans hw hu) hv)
  have hkept : v.stageBuffer.checkList 5000#32 = some 1023 := by
    refine (hr.kept 5000#32 (fun m hm he => ?_)).trans hc
    have := congrArg BitVec.toNat he
    rw [BitVec.toNat_ofNat, BitVec.toNat_ofNat] at this
    omega
  have hlast : v.stageBuffer.checkList 11022#32 = some 1023 := by
    have hl := hr.last 1022 rfl
    rw [hi] at hl
    exact hl
  exact absurd (hsound.slots _ _ 1023 hkept hlast) (by decide)

theorem step_unreset (l : Label Page) (w u : Writers Page)
    (h : ∀ j ret, w.pc j ≠ .resetting ret) (hl : ∀ i, l ≠ .clear i) (hs : step l w = some u)
    (j : ℕ) (ret : U32) : u.pc j ≠ .resetting ret := by
  cases hq : l.quiet with
  | some i =>
    have hq := quiet_step l i w u hq hs
    by_cases hji : j = i
    · subst hji
      exact fun hj => hq.after.not_draining (by rw [hj]; trivial)
    · rw [hq.pc j hji]
      exact h j ret
  | none =>
    cases step_effect hs with
    | connect c => exact h j ret
    | clear hpc => exact absurd rfl (hl _)
    | start hpc hb => exact fun hj => h j ret (resetting_update (by simp) j ret hj)
    | pass hpc hb => exact fun hj => h j ret (resetting_update (by simp) j ret hj)
    | resetBatch hpc => exact fun hj => h j ret (resetting_update (by simp) j ret hj)
    | resetCount hpc => exact fun hj => h j ret (resetting_update (by simp) j ret hj)
    | abort hpc hret => exact fun hj => h j ret (resetting_update (by simp) j ret hj)
    | count hpc => exact fun hj => h j ret (resetting_update (by simp) j ret hj)
    | post hpc => exact fun hj => h j ret (resetting_update (by simp) j ret hj)
    | refuse hpc hret => exact fun hj => h j ret (resetting_update (by simp) j ret hj)
    | store xa hpc => exact fun hj => h j ret (resetting_update (by simp) j ret hj)
    | complete hpc => exact fun hj => h j ret (resetting_update (by simp) j ret hj)
    | incomplete hpc => exact fun hj => h j ret (resetting_update (by simp) j ret hj)
    | _ => cases hq

theorem meets_unreset {ls : List (Label Page)} {w : Writers Page}
    (h : ∀ j ret, w.pc j ≠ .resetting ret) (hls : ∀ l ∈ ls, ∀ i, l ≠ .clear i) :
    Meets step StoreOutside ls w := by
  refine meets_of_invariant (k := fun l => ∀ i, l ≠ .clear i) step_unreset
    (fun l w hw _ => ?_) h hls
  cases l with
  | store i xa => exact fun _ => hw
  | _ => trivial

theorem turn_meets {row : List (Label ℕ)} {v w : Writers ℕ}
    (hrow : ∀ l ∈ row, ∀ j, l ≠ .clear j) (hv : run step (row++fillLabels) start = some v)
    (hw : run step resetLabels v = some w) (hp : ∀ j, (w.pc j).Resting ∨ w.pc j = .counting) :
    Meets step StoreOutside (turnLabels row) start := by
  have hfill : ∀ l ∈ row++fillLabels, ∀ j, l ≠ .clear j := fun l hl =>
    (List.mem_append.mp hl).elim (hrow l) ((by simp [fillLabels, countLabels] :
      ∀ l ∈ fillLabels, ∀ j, l ≠ .clear j) l)
  refine meets_append (meets_append (meets_unreset ?_ hfill) fun t ht => ?_) fun t ht => ?_
  · exact fun _ _ => by simp [start, initWriters]
  · exact meets_of_forall (by simp [resetLabels, StoreOutside]) t
  · obtain rfl := Option.some.inj ((run_trans hv hw).symm.trans ht)
    refine meets_unreset (fun j ret hj => ?_) (by simp [resumeLabels])
    simpa [hj, Pc.Resting] using hp j

/-- Two writers and the commit of a full batch: the two pages posted after it have
slots of their own. -/
theorem stage_sound_sample : ∃ row w, row = rowLabels 2 0 1023 ∧
    run step (turnLabels row) start = some w ∧ Sound w ∧ w.commits = 1 ∧
    w.stageBuffer.checkList 5000#32 = none ∧ w.stageBuffer.checkList 5001#32 = some 0 ∧
    w.stageBuffer.checkList 5002#32 = some 1 := by
  obtain ⟨row,v,w,u,hrow,hv,hw,hu,-,hp,-,hlast⟩ := turn_run
  have hrun := run_trans (run_trans hv hw) hu
  have hg := turn_meets (hrow ▸ row_forall (by simp [writeLabels]) 0 1023) hv hw hp
  exact ⟨row,u,hrow,hrun,stage_sound openCtrl [1,0] 0 _ _ _ u hg hrun,hlast⟩

end Maruswap.StageSoundness
