import Maruswap.StageCompleteness

/-!
# A single writer against answering servers

One thread writes, both servers are alive, an open returns the base of its block
and a commit succeeds. Nothing then needs to be assumed about the order of steps:
the guards of the stage buffer hold by themselves, and a block is open on both
servers from the check on.
-/

set_option autoImplicit false

namespace Maruswap.OneWriter
open WireFormat DriverStage WriterThreads WriterThreads.Writers GuardedRun StageSoundness
open StageCompleteness

variable {Page : Type*}

def thread : Label Page → Option ℕ
  | .connect _ => none
  | .call i _ _ _ => some i
  | .lock i => some i
  | .check i => some i
  | .openRpc i _ => some i
  | .test i => some i
  | .commitRpc i _ => some i
  | .resetBatch i => some i
  | .clear i => some i
  | .resetCount i => some i
  | .count i => some i
  | .post i _ => some i
  | .store i _ => some i
  | .complete i _ => some i

/-- An open returns the base of the block, a commit returns 0, `__xa_store` finds
its memory. Posts and completions may fail. -/
def Answered : Label Page → Writers Page → Prop
  | .openRpc i outcome, w =>
    ∃ rkey, outcome = some ⟨⟨getNumMemblock (w.call i).offset,0⟩,rkey⟩
  | .commitRpc _ tret, _ => tret = 0#32
  | .store _ xa, _ => xa = true
  | _, _ => True

/-- The block is open at server `c`, or will be opened there again. -/
def Based (d : Driver Page) (c n : ℕ) : Prop := ((d.ctrl c).rdmaInfo n).remoteAddr = ⟨n,0⟩

structure Connected (d : Driver Page) : Prop where
  list : d.rdmaCtrlList = [1,0]
  main : d.mainRdmaCtrl = 0
  alive : ∀ c, (d.ctrl c).alive = true
  based : ∀ c n, ((d.ctrl c).rdmaInfo n).rkey ≠ 0#32 → Based d c n

def Ready : Pc → Prop
  | .testing => True
  | .committing _ _ => True
  | .clearing _ => True
  | .resetting _ => True
  | .counting => True
  | .posting => True
  | .storing => True
  | .polling => True
  | .idle => False
  | .entered => False
  | .checking => False
  | .openSub => False
  | .openMain _ => False
  | .returned _ => False

def block (w : Writers Page) : ℕ := getNumMemblock (w.call 0).offset

structure Linked (w : Writers Page) : Prop where
  connected : Connected w.toDriver
  openMain : ∀ tret, w.pc 0 = .openMain tret → Based w.toDriver 1 (block w)
  ready : Ready (w.pc 0) → Based w.toDriver 0 (block w) ∧ Based w.toDriver 1 (block w)

structure Alone (w : Writers Page) : Prop where
  idle : ∀ i, i ≠ 0 → w.pc i = .idle
  linked : Linked w
  staged : Staged w
  counted : Counted w

theorem step_others (l : Label Page) (i : ℕ) (w u : Writers Page) (hl : thread l = some i)
    (hs : step l w = some u) (j : ℕ) (hj : j ≠ i) : u.pc j = w.pc j := by
  cases hq : l.quiet with
  | some k =>
    have hk : k = i := by
      cases l <;> simp_all [Label.quiet, thread]
    exact (quiet_step l k w u hq hs).pc j (hk ▸ hj)
  | none =>
    have moved : ∀ k p, some k = some i → Function.update w.pc k p j = w.pc j := by
      intro k p hk
      obtain rfl := Option.some.inj hk
      exact Function.update_of_ne hj _ _
    cases step_effect hs with
    | connect c => cases hl
    | start hpc hb => exact moved _ _ hl
    | pass hpc hb => exact moved _ _ hl
    | resetBatch hpc => exact moved _ _ hl
    | clear hpc => exact moved _ _ hl
    | resetCount hpc => exact moved _ .counting hl
    | abort hpc hret => exact moved _ (.returned 1#32) hl
    | count hpc => exact moved _ _ hl
    | post hpc => exact moved _ _ hl
    | refuse hpc hret => exact moved _ _ hl
    | store xa hpc => exact moved _ _ hl
    | complete hpc => exact moved _ _ hl
    | incomplete hpc => exact moved _ _ hl
    | _ => cases hq

theorem Alone.only {w : Writers Page} (h : Alone w) {p : Pc} (hpc : w.pc 0 = p) (j : ℕ) :
    w.pc j = p ∨ w.pc j = .idle := by
  by_cases hj : j = 0
  · subst hj
    exact Or.inl hpc
  · exact Or.inr (h.idle j hj)

theorem store_outside (l : Label Page) (w u : Writers Page) (h : Alone w)
    (hl : thread l = some 0) (hs : step l w = some u) : StoreOutside l w := by
  cases step_effect hs with
  | store xa hpc =>
    obtain rfl := Option.some.inj hl
    intro _ j ret hj
    rcases h.only hpc j with hp | hp <;> simp [hp] at hj
  | _ => trivial

theorem count_in_step (l : Label Page) (w u : Writers Page) (h : Alone w)
    (hl : thread l = some 0) (ha : Answered l w) (hs : step l w = some u) :
    CountInStep l w := by
  have hnone : ∀ ret, w.pc 0 = .resetting ret → ∀ j, ¬ (w.pc j).InFlight := by
    intro ret hpc j
    rcases h.only hpc j with hp | hp <;> simp [hp, Pc.InFlight]
  cases step_effect hs with
  | resetCount hpc =>
    obtain rfl := Option.some.inj hl
    exact hnone _ hpc
  | abort hpc hret =>
    obtain rfl := Option.some.inj hl
    exact hnone _ hpc
  | store xa hpc => exact ha
  | _ => trivial

theorem checked_based {d : Driver Page} (h : Connected d) (n : ℕ)
    (hc : checkRdmaInfo n d = false) : Based d 0 n ∧ Based d 1 n := by
  simp only [checkRdmaInfo, h.list, List.any_cons, List.any_nil, Bool.or_false,
    Bool.or_eq_false_iff, beq_eq_false_iff_ne] at hc
  exact ⟨h.based 0 n hc.2,h.based 1 n hc.1⟩

theorem set_based {d : Driver Page} (c n : ℕ) (rkey : U32) {b m : ℕ} (h : Based d b m) :
    Based (setRdmaInfo c n ⟨⟨n,0⟩,rkey⟩ d) b m := by
  unfold Based at h ⊢
  unfold setRdmaInfo
  by_cases hb : b = c
  · subst hb
    by_cases hm : m = n
    · subst hm
      simp
    · simpa [hm] using h
  · simpa [hb] using h

theorem open_based {d : Driver Page} (h : Connected d) (c : ℕ) (offset rkey : U32) :
    let e := (ibRpcOpenUnlocked c offset (some ⟨⟨getNumMemblock offset,0⟩,rkey⟩) d).2
    Connected e ∧ Based e c (getNumMemblock offset) ∧ ∀ b m, Based d b m → Based e b m := by
  unfold ibRpcOpenUnlocked
  split
  · next hr => exact ⟨h,h.based c _ hr,fun _ _ hb => hb⟩
  · refine ⟨⟨h.list,h.main,fun b => ?_,fun b m hb => ?_⟩,?_,fun b m => set_based c _ rkey⟩
    · by_cases hb : b = c
      · subst hb
        simpa [setRdmaInfo] using h.alive b
      · simpa [setRdmaInfo, hb] using h.alive b
    · by_cases hbm : b = c ∧ m = getNumMemblock offset
      · obtain ⟨rfl,rfl⟩ := hbm
        simp [Based, setRdmaInfo]
      · refine set_based c _ rkey (h.based b m ?_)
        by_cases hbc : b = c
        · subst hbc
          have hm : m ≠ getNumMemblock offset := fun hm => hbm ⟨rfl,hm⟩
          simpa [setRdmaInfo, hm] using hb
        · simpa [setRdmaInfo, hbc] using hb
    · simp [Based, setRdmaInfo]

structure Kept (w u : Writers Page) : Prop where
  ctrl : u.ctrl = w.ctrl
  list : u.rdmaCtrlList = w.rdmaCtrlList
  main : u.mainRdmaCtrl = w.mainRdmaCtrl
  offset : Ready (u.pc 0) → (u.call 0).offset = (w.call 0).offset
  openMain : ∀ tret, u.pc 0 ≠ .openMain tret
  ready : Ready (u.pc 0) → Ready (w.pc 0)

theorem Kept.based {w u : Writers Page} (hk : Kept w u) (c n : ℕ) :
    Based u.toDriver c n ↔ Based w.toDriver c n := by
  rw [Based, Based, hk.ctrl]

theorem Linked.kept {w u : Writers Page} (h : Linked w) (hk : Kept w u) :
    Linked u ∧ ∀ c n, Based w.toDriver c n → Based u.toDriver c n := by
  refine ⟨⟨⟨hk.list.trans h.connected.list,hk.main.trans h.connected.main,?_,fun c n => ?_⟩,
    fun tret hp => absurd hp (hk.openMain tret),fun hp => ?_⟩,fun c n => (hk.based c n).mpr⟩
  · rw [hk.ctrl]
    exact h.connected.alive
  · rw [hk.based, hk.ctrl]
    exact h.connected.based c n
  · rw [hk.based, hk.based, block, hk.offset hp]
    exact h.ready (hk.ready hp)

theorem kept_ready {w u : Writers Page} (p : Pc) (hu : u.pc = Function.update w.pc 0 p)
    (hopen : ∀ tret, p ≠ .openMain tret) (hw : Ready (w.pc 0)) (hctrl : u.ctrl = w.ctrl)
    (hlist : u.rdmaCtrlList = w.rdmaCtrlList) (hmain : u.mainRdmaCtrl = w.mainRdmaCtrl)
    (hoffset : (u.call 0).offset = (w.call 0).offset) : Kept w u := by
  refine ⟨hctrl,hlist,hmain,fun _ => hoffset,?_,fun _ => hw⟩
  rw [hu, Function.update_self]
  exact hopen

theorem loud_kept (l : Label Page) (w u : Writers Page) (hl : thread l = some 0)
    (hq : l.quiet = none) (hs : step l w = some u) : Kept w u := by
  cases step_effect hs with
  | connect c => cases hl
  | start hpc hb =>
    obtain rfl := Option.some.inj hl
    exact kept_ready _ rfl (by simp) (by rw [hpc]; trivial) rfl rfl rfl rfl
  | pass hpc hb =>
    obtain rfl := Option.some.inj hl
    exact kept_ready _ rfl (by simp) (by rw [hpc]; trivial) rfl rfl rfl rfl
  | resetBatch hpc =>
    obtain rfl := Option.some.inj hl
    exact kept_ready _ rfl (by simp) (by rw [hpc]; trivial) rfl rfl rfl rfl
  | clear hpc =>
    obtain rfl := Option.some.inj hl
    exact kept_ready _ rfl (by simp) (by rw [hpc]; trivial) rfl rfl rfl rfl
  | resetCount hpc =>
    obtain rfl := Option.some.inj hl
    exact kept_ready .counting rfl (by simp) (by rw [hpc]; trivial) rfl rfl rfl rfl
  | abort hpc hret =>
    obtain rfl := Option.some.inj hl
    exact kept_ready (.returned 1#32) rfl (by simp) (by rw [hpc]; trivial) rfl rfl rfl rfl
  | count hpc =>
    obtain rfl := Option.some.inj hl
    exact kept_ready _ rfl (by simp) (by rw [hpc]; trivial) rfl rfl rfl rfl
  | post hpc =>
    obtain rfl := Option.some.inj hl
    exact kept_ready _ rfl (by simp) (by rw [hpc]; trivial) rfl rfl rfl (by simp)
  | refuse hpc hret =>
    obtain rfl := Option.some.inj hl
    exact kept_ready _ rfl (by simp) (by rw [hpc]; trivial) rfl rfl rfl rfl
  | store xa hpc =>
    obtain rfl := Option.some.inj hl
    exact kept_ready _ rfl (by simp) (by rw [hpc]; trivial) rfl rfl rfl rfl
  | complete hpc =>
    obtain rfl := Option.some.inj hl
    exact kept_ready _ rfl (by simp) (by rw [hpc]; trivial) rfl rfl rfl rfl
  | incomplete hpc =>
    obtain rfl := Option.some.inj hl
    exact kept_ready _ rfl (by simp) (by rw [hpc]; trivial) rfl rfl rfl rfl
  | _ => cases hq

theorem call_kept (offset : U32) (page : Page) (ret : U32) (w : Writers Page) :
    Kept w (enter 0 offset page ret w) := by
  have hp : ¬Ready (if ret = 0#32 then .entered else .returned ret) := by
    split <;> exact id
  refine ⟨rfl,rfl,rfl,fun hr => absurd ?_ hp,fun t => ?_,fun hr => absurd ?_ hp⟩
  · simpa [enter, move] using hr
  · by_cases hret : ret = 0#32 <;> simp [enter, move, hret]
  · simpa [enter, move] using hr

theorem open_sub_linked (rkey : U32) (w : Writers Page) (h : Linked w) :
    let outcome := some ⟨⟨getNumMemblock (w.call 0).offset,0⟩,rkey⟩
    Linked (openSub 0 1 outcome w) ∧
      ∀ c n, Based w.toDriver c n → Based (openSub 0 1 outcome w).toDriver c n := by
  obtain ⟨he,hb,hmono⟩ := open_based h.connected 1 (w.call 0).offset rkey
  simp only [openSub, h.connected.alive 1, if_true]
  refine ⟨⟨he,fun _ _ => hb,fun hp => ?_⟩,hmono⟩
  simp [move, withDriver, Ready] at hp

theorem open_main_linked (tret rkey : U32) (w : Writers Page) (h : Linked w)
    (hpc : w.pc 0 = .openMain tret) :
    let outcome := some ⟨⟨getNumMemblock (w.call 0).offset,0⟩,rkey⟩
    Linked (openMain 0 tret outcome w) ∧
      ∀ c n, Based w.toDriver c n → Based (openMain 0 tret outcome w).toDriver c n := by
  obtain ⟨he,hb,hmono⟩ := open_based h.connected 0 (w.call 0).offset rkey
  have h1 := hmono 1 _ (h.openMain tret hpc)
  simp only [openMain, h.connected.main, h.connected.alive 0, if_true]
  split
  · refine ⟨⟨he,fun t ht => ?_,fun _ => ⟨hb,h1⟩⟩,hmono⟩
    simp [move, withDriver] at ht
  · refine ⟨⟨he,fun t ht => ?_,fun hp => ?_⟩,hmono⟩
    · simp [fail, move, withDriver] at ht
    · simp [fail, move, withDriver, Ready] at hp

theorem check_linked (w : Writers Page) (h : Linked w) : Linked (w.move 0
    (if checkRdmaInfo (getNumMemblock (w.call 0).offset) w.toDriver then .openSub
      else .testing)) := by
  refine ⟨h.connected,fun t ht => ?_,fun hp => ?_⟩
  · simp only [move, Function.update_self] at ht
    split at ht <;> cases ht
  · cases hc : checkRdmaInfo (getNumMemblock (w.call 0).offset) w.toDriver with
    | true => simp [move, hc, Ready] at hp
    | false => exact checked_based h.connected _ hc

theorem step_linked (l : Label Page) (w u : Writers Page) (h : Linked w)
    (hl : thread l = some 0) (ha : Answered l w) (hs : step l w = some u) :
    Linked u ∧ ∀ c n, Based w.toDriver c n → Based u.toDriver c n := by
  cases hq : l.quiet with
  | none => exact h.kept (loud_kept l w u hl hq hs)
  | some i =>
    cases step_effect hs with
    | @call i offset _ page ret hpc ho =>
      obtain rfl := Option.some.inj hl
      exact h.kept (call_kept offset page ret w)
    | lock hpc hlock =>
      obtain rfl := Option.some.inj hl
      exact h.kept ⟨rfl,rfl,rfl,fun _ => rfl,by simp [move],by simp [move, Ready]⟩
    | check hpc =>
      obtain rfl := Option.some.inj hl
      exact ⟨check_linked w h,fun _ _ hb => hb⟩
    | @openSub i c _ outcome hpc hc =>
      obtain rfl := Option.some.inj hl
      obtain ⟨rkey,rfl⟩ := ha
      obtain rfl : 1 = c := by
        simpa [subRdmaCtrl, h.connected.list, h.connected.main] using hc
      exact open_sub_linked rkey w h
    | openMain outcome hpc =>
      obtain rfl := Option.some.inj hl
      obtain ⟨rkey,rfl⟩ := ha
      exact open_main_linked _ rkey w h hpc
    | commitRpc tret hpc =>
      obtain rfl := Option.some.inj hl
      exact h.kept (kept_ready _ rfl (by simp) (by rw [hpc]; trivial) rfl rfl rfl rfl)
    | _ => cases hq

theorem step_alone (l : Label Page) (w u : Writers Page) (h : Alone w)
    (hl : thread l = some 0) (ha : Answered l w) (hs : step l w = some u) : Alone u where
  idle := fun i hi => (step_others l 0 w u hl hs i hi).trans (h.idle i hi)
  linked := (step_linked l w u h.linked hl ha hs).1
  staged := step_staged l w u h.staged (store_outside l w u h hl hs) hs
  counted := step_counted l w u h.counted (count_in_step l w u h hl ha hs) hs

end Maruswap.OneWriter
