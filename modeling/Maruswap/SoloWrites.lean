import Maruswap.GuardedRun
import Maruswap.WriterThreads

/-!
# Writes that nobody interrupts

A write whose steps run without a break, in closed form, and rows of such writes
to consecutive offsets.
-/

set_option autoImplicit false

namespace Maruswap.SoloWrites
open WireFormat DriverStage WriterThreads WriterThreads.Writers GuardedRun

variable {Page : Type*}

def writeLabels (i : ℕ) (o : U32) (page : Page) : List (Label Page) :=
  [.call i o page 0#32,.lock i,.check i,.test i,.count i,.post i 0#32,.store i true,
    .complete i true]

/-- What a write to an open block leaves behind while there is room. -/
def wrote (i : ℕ) (o : U32) (page : Page) (w : Writers Page) : Writers Page :=
  { w.move i (.returned 0#32) with
    batch := w.batch+1
    lock := none
    call := Function.update w.call i ⟨o,page,w.commits⟩
    frames := w.frames++[(flowHeader o,page)]
    stageBuffer := stageBufferStore true page o w.stageBuffer
    stores := w.stores++[(o,page)]
    staged := w.staged++[(o,w.commits)]
    finished := w.finished++[(o,w.commits)] }

/-- Nobody holds the lock, and there is room for `n` writes of thread `i`. -/
structure Room (i n : ℕ) (w : Writers Page) : Prop where
  lock : w.lock = none
  resting : (w.pc i).Resting
  batch : w.batch+n ≤ configBatch
  count : w.stageBuffer.count+n ≤ configBatch

theorem solo_write (i : ℕ) (o : U32) (page : Page) (n : ℕ) (w : Writers Page)
    (h : Room i (n+1) w) (ho : getNumMemblock o < maxMemblock)
    (hopen : checkRdmaInfo (getNumMemblock o) w.toDriver = false) :
    run step (writeLabels i o page) w = some (wrote i o page w) := by
  have hb : ¬ configBatch ≤ w.batch := by
    have := h.batch
    omega
  have hf : stageBufferFull w.stageBuffer = false := by
    have := h.count
    simp only [stageBufferFull, decide_eq_false_iff_not]
    omega
  simp [run, writeLabels, step, wrote, enter, move, test, count, post, store, complete,
    h.lock, h.resting, hopen, ho, hb, hf]

/-- A write up to the moment it is counted and out of the spinlock. -/
def countLabels (i : ℕ) (o : U32) (page : Page) : List (Label Page) :=
  [.call i o page 0#32,.lock i,.check i,.test i,.count i]

def counted (i : ℕ) (o : U32) (page : Page) (w : Writers Page) : Writers Page :=
  { w.move i .posting with
    batch := w.batch+1
    lock := none
    call := Function.update w.call i ⟨o,page,0⟩ }

theorem count_run (i : ℕ) (o : U32) (page : Page) (w : Writers Page) (hl : w.lock = none)
    (hr : (w.pc i).Resting) (hb : w.batch < configBatch)
    (ho : getNumMemblock o < maxMemblock)
    (hopen : checkRdmaInfo (getNumMemblock o) w.toDriver = false) :
    run step (countLabels i o page) w = some (counted i o page w) := by
  have hb' : ¬ configBatch ≤ w.batch := by omega
  simp [run, countLabels, step, enter, move, test, count, counted, hl, hr, hb', ho, hopen]

/-- A write that finds the batch full, up to the reset of the batch. Both servers
answer its commit. -/
def commitLabels (i : ℕ) (o : U32) (page : Page) : List (Label Page) :=
  [.call i o page 0#32,.lock i,.check i,.test i,.commitRpc i 0#32,.commitRpc i 0#32,
    .resetBatch i]

def committed (i : ℕ) (o : U32) (page : Page) (w : Writers Page) : Writers Page :=
  { w.move i (.clearing 0#32) with
    batch := 0
    lock := some i
    commits := w.commits+1
    call := Function.update w.call i ⟨o,page,0⟩ }

theorem commit_run (i : ℕ) (o : U32) (page : Page) (a b : ℕ) (w : Writers Page)
    (hl : w.lock = none) (hr : (w.pc i).Resting) (hb : configBatch ≤ w.batch)
    (ho : getNumMemblock o < maxMemblock)
    (hopen : checkRdmaInfo (getNumMemblock o) w.toDriver = false)
    (hlist : w.rdmaCtrlList = [a,b]) :
    run step (commitLabels i o page) w = some (committed i o page w) := by
  simp [run, commitLabels, step, enter, move, test, committed, hl, hr, hb, ho, hopen, hlist]

/-- Writes of thread `i` to `n` consecutive offsets from `base` on. -/
def rowLabels (i base : ℕ) : ℕ → List (Label ℕ)
  | 0 => []
  | n+1 => rowLabels i base n++writeLabels i (BitVec.ofNat 32 (base+n)) n

/-- What a row leaves behind. -/
structure Row (i base n : ℕ) (w u : Writers ℕ) : Prop where
  lock : u.lock = none
  resting : (u.pc i).Resting
  others : ∀ j, j ≠ i → u.pc j = w.pc j
  ctrl : u.ctrl = w.ctrl
  rdmaCtrlList : u.rdmaCtrlList = w.rdmaCtrlList
  batch : u.batch = w.batch+n
  commits : u.commits = w.commits
  count : u.stageBuffer.count = w.stageBuffer.count+n
  index : u.stageBuffer.index = (w.stageBuffer.index+n) % configBatch
  kept : ∀ o : U32, (∀ m, m < n → o ≠ BitVec.ofNat 32 (base+m)) →
    u.stageBuffer.checkList o = w.stageBuffer.checkList o
  last : ∀ m, n = m+1 → u.stageBuffer.checkList (BitVec.ofNat 32 (base+m)) =
    some ((w.stageBuffer.index+m) % configBatch)
  staged : ∀ x ∈ u.staged, x ∈ w.staged ∨ x.2 = w.commits

theorem row_forall {i : ℕ} {kind : Label ℕ → Prop}
    (h : ∀ o page, ∀ l ∈ writeLabels i o page, kind l) (base n : ℕ) :
    ∀ l ∈ rowLabels i base n, kind l := by
  induction n with
  | zero => exact nofun
  | succ n ih => exact fun l hl => (List.mem_append.mp hl).elim (ih l) (h _ _ l)

theorem row_run (i base n : ℕ) (w : Writers ℕ) (h : Room i n w)
    (hi : w.stageBuffer.index < configBatch) (hbase : base+n ≤ 2^25)
    (hopen : ∀ m, m < n →
      checkRdmaInfo (getNumMemblock (BitVec.ofNat 32 (base+m))) w.toDriver = false) :
    ∃ u, run step (rowLabels i base n) w = some u ∧ Row i base n w u := by
  induction n with
  | zero =>
    exact ⟨w,rfl,h.lock,h.resting,fun _ _ => rfl,rfl,rfl,rfl,rfl,rfl,
      (Nat.mod_eq_of_lt hi).symm,fun _ _ => rfl,nofun,fun _ => .inl⟩
  | succ n ih =>
    have hb := h.batch
    have hc := h.count
    obtain ⟨u,hu,hr⟩ := ih ⟨h.lock,h.resting,by omega,by omega⟩ (by omega)
      fun m hm => hopen m (by omega)
    have hroom : Room i 1 u :=
      ⟨hr.lock,hr.resting,by rw [hr.batch]; omega,by rw [hr.count]; omega⟩
    have ho := hopen n (by omega)
    have hopen : checkRdmaInfo (getNumMemblock (BitVec.ofNat 32 (base+n))) u.toDriver = false := by
      unfold checkRdmaInfo at ho ⊢
      rwa [hr.ctrl, hr.rdmaCtrlList]
    have hblock : getNumMemblock (BitVec.ofNat 32 (base+n)) < maxMemblock := by
      rw [get_num_memblock_eq, BitVec.toNat_ofNat]
      unfold blockOf maxMemblock
      omega
    have hf : stageBufferFull u.stageBuffer = false := by
      simp only [stageBufferFull, decide_eq_false_iff_not, hr.count]
      omega
    refine ⟨_,run_trans hu (solo_write i _ n 0 u hroom hblock hopen),rfl,?_,?_,hr.ctrl,
      hr.rdmaCtrlList,?_,hr.commits,?_,?_,?_,?_,?_⟩
    · simp [wrote, move, Pc.Resting]
    · intro j hj
      simpa [wrote, move, hj] using hr.others j hj
    · exact congrArg (·+1) hr.batch
    · simp [wrote, store_room hf, hr.count, Nat.add_assoc]
    · simp [wrote, store_room hf, hr.index, Nat.add_assoc]
    · intro o ho
      have hne : o ≠ BitVec.ofNat 32 (base+n) := ho n (by omega)
      simpa [wrote, store_room hf, hne] using
        hr.kept o (fun m hm => ho m (by omega))
    · intro m hm
      obtain rfl : n = m := by omega
      simp [wrote, store_room hf, hr.index]
    · intro x hx
      rcases List.mem_append.mp hx with hx | hx
      · exact hr.staged x hx
      · rw [List.mem_singleton.mp hx]
        exact .inr hr.commits

def openCtrl : ℕ → RdmaCtrl := fun _ => ⟨true,fun n => ⟨⟨n,0⟩,1#32⟩⟩

def start : Writers ℕ := initWriters openCtrl [1,0] 0 (fun _ => 0) (fun _ => ⟨0#32,0,0⟩)

/-- Where writers 0 and 1 stand, and the counters. -/
structure Sight (w : Writers ℕ) (p q : Pc) (lock : Option ℕ) (batch count index : ℕ) :
    Prop where
  first : w.pc 0 = p
  second : w.pc 1 = q
  third : (w.pc 2).Resting
  lock : w.lock = lock
  batch : w.batch = batch
  count : w.stageBuffer.count = count
  index : w.stageBuffer.index = index
  ctrl : w.ctrl = openCtrl
  list : w.rdmaCtrlList = [1,0]

theorem Sight.opened {w : Writers ℕ} {p q : Pc} {lock : Option ℕ} {batch count index : ℕ}
    (h : Sight w p q lock batch count index) (m : ℕ) : checkRdmaInfo m w.toDriver = false := by
  simp [checkRdmaInfo, h.list, h.ctrl, openCtrl]

theorem Sight.counts {w : Writers ℕ} {q : Pc} {batch count index : ℕ}
    (h : Sight w .idle q none batch count index) (o : U32) (page : ℕ) (hb : batch < configBatch)
    (ho : getNumMemblock o < maxMemblock) :
    run step (countLabels 0 o page) w = some (counted 0 o page w) ∧
      Sight (counted 0 o page w) .posting q none (batch+1) count index := by
  have hresting : (w.pc 0).Resting := by
    rw [h.first]
    trivial
  have hbatch : w.batch < configBatch := by rwa [h.batch]
  refine ⟨count_run 0 o page w h.lock hresting hbatch ho (h.opened _),?_⟩
  exact ⟨by simp [counted, move],by simp [counted, move, h.second],
    by simpa [counted, move] using h.third,rfl,by simp [counted, h.batch],h.count,h.index,
    h.ctrl,h.list⟩

theorem start_room : Room 2 1023 start where
  lock := rfl
  resting := trivial
  batch := by decide
  count := by decide

theorem start_opened (m : ℕ) : checkRdmaInfo m start.toDriver = false := by
  simp [checkRdmaInfo, start, initWriters, openCtrl]

theorem row_sight : ∃ w, run step (rowLabels 2 0 1023) start = some w ∧
    Sight w .idle .idle none 1023 1023 1023 ∧ w.commits = 0 := by
  obtain ⟨w,hw,hr⟩ := row_run 2 0 1023 start start_room (by decide) (by decide)
    fun _ _ => start_opened _
  exact ⟨w,hw,⟨hr.others 0 (by decide),hr.others 1 (by decide),hr.resting,hr.lock,hr.batch,
    hr.count,hr.index,hr.ctrl,hr.rdmaCtrlList⟩,hr.commits⟩

def fillLabels : List (Label ℕ) :=
  countLabels 0 5000#32 70++[.call 1 5001#32 71 0#32,.post 0 0#32,.lock 1,.check 1,
    .store 0 true,.test 1,.complete 0 true,.commitRpc 1 0#32,.commitRpc 1 0#32,.resetBatch 1]

def resetLabels : List (Label ℕ) := [.clear 1,.resetCount 1]

def resumeLabels : List (Label ℕ) :=
  [.count 1,.call 0 5002#32 72 0#32,.post 1 0#32,.lock 0,.check 0,.store 1 true,.test 0,
    .count 0,.complete 1 true,.post 0 0#32,.store 0 true,.complete 0 true]

def turnLabels (row : List (Label ℕ)) : List (Label ℕ) :=
  row++fillLabels++resetLabels++resumeLabels

theorem fill_run (w : Writers ℕ) (h : Sight w .idle .idle none 1023 1023 1023) :
    ∃ u, run step fillLabels w = some u ∧
      Sight u (.returned 0#32) (.clearing 0#32) (some 1) 0 1024 0 ∧
      (u.call 1).offset = 5001#32 ∧ u.commits = w.commits+1 ∧
      (∀ j, j ≠ 0 → j ≠ 1 → u.pc j = w.pc j) ∧
      ∀ x ∈ u.staged, x ∈ w.staged ∨ x.2 = w.commits := by
  obtain ⟨e1,s1⟩ := h.counts 5000#32 70 (by decide) (by decide)
  have p1 : ∀ j, j ≠ 0 → (counted 0 5000#32 70 w).pc j = w.pc j := fun j hj => by
    simp [counted, move, hj]
  have c1 : (counted 0 5000#32 70 w).commits = w.commits := rfl
  have t1 : (counted 0 5000#32 70 w).staged = w.staged := rfl
  generalize counted 0 5000#32 70 w = w1 at e1 s1 p1 c1 t1
  have f1 : stageBufferFull w1.stageBuffer = false := by
    simp [stageBufferFull, s1.count, configBatch]
  have hfull : configBatch ≤ w1.batch := by rw [s1.batch]; decide
  have e2 : ∃ u, run step [.call 1 5001#32 71 0#32,.post 0 0#32,.lock 1,.check 1,
      .store 0 true,.test 1,.complete 0 true,.commitRpc 1 0#32,.commitRpc 1 0#32,.resetBatch 1]
      w1 = some u ∧ Sight u (.returned 0#32) (.clearing 0#32) (some 1) 0 1024 0 ∧
      (u.call 1).offset = 5001#32 ∧ u.commits = w1.commits+1 ∧
      (∀ j, j ≠ 0 → j ≠ 1 → u.pc j = w1.pc j) ∧
      ∀ x ∈ u.staged, x ∈ w1.staged ∨ x.2 = w1.commits := by
    have hblock : getNumMemblock 5001#32 < maxMemblock := by decide
    have hopen := s1.opened
    refine ⟨?u,?r,?_,?_,?_,?_,?_⟩
    case r =>
      simp [run, step, enter, move, test, post, store, complete, s1.first, s1.second, s1.lock,
        hblock, hopen, hfull, s1.list, Pc.Resting]
      rfl
    · refine ⟨by simp,by simp,by simpa using s1.third,rfl,rfl,?_,?_,s1.ctrl,rfl⟩
      · simp only [store_room f1]
        simp [s1.count]
      · simp only [store_room f1]
        simp [s1.index, configBatch]
    · simp
    · rfl
    · intro j h0 h1
      simp [h0, h1]
    · intro x hx
      simp only [f1, if_true] at hx
      rcases List.mem_append.mp hx with hx | hx
      · exact .inl hx
      · exact .inr (congrArg Prod.snd (List.mem_singleton.mp hx))
  obtain ⟨u,e2,s2,o2,c2,p2,t2⟩ := e2
  refine ⟨u,run_trans e1 e2,s2,o2,c1 ▸ c2,fun j h0 h1 => (p2 j h0 h1).trans (p1 j h0),?_⟩
  rwa [← t1, ← c1]

theorem reset_run (w : Writers ℕ)
    (h : Sight w (.returned 0#32) (.clearing 0#32) (some 1) 0 1024 0) :
    ∃ u, run step resetLabels w = some u ∧
      Sight u (.returned 0#32) .counting (some 1) 0 0 0 ∧ u.call = w.call ∧
      u.commits = w.commits ∧ (u.stageBuffer.checkList = fun _ => none) ∧
      ∀ j, j ≠ 1 → u.pc j = w.pc j := by
  refine ⟨?u,?r,?_,?_,?_,?_,?_⟩
  case r =>
    simp [run, resetLabels, step, move, h.second]
    rfl
  · exact ⟨by simpa using h.first,by simp,by simpa using h.third,h.lock,h.batch,rfl,h.index,
      h.ctrl,h.list⟩
  · rfl
  · rfl
  · rfl
  · exact fun j hj => by simp [hj]

theorem resume_run (w : Writers ℕ) (h : Sight w (.returned 0#32) .counting (some 1) 0 0 0)
    (ho : (w.call 1).offset = 5001#32) :
    ∃ u, run step resumeLabels w = some u ∧ u.commits = w.commits ∧
      u.stageBuffer.checkList 5001#32 = some 0 ∧ u.stageBuffer.checkList 5002#32 = some 1 ∧
      u.stageBuffer.checkList 5000#32 = w.stageBuffer.checkList 5000#32 := by
  have f1 : stageBufferFull w.stageBuffer = false := by
    simp [stageBufferFull, h.count, configBatch]
  have f2 : ∀ page, stageBufferFull (stageBufferStore true page 5001#32 w.stageBuffer) = false := by
    intro page
    rw [store_room f1]
    simp [stageBufferFull, h.count, configBatch]
  have hblock : getNumMemblock 5002#32 < maxMemblock := by decide
  have hbatch : ¬ configBatch ≤ w.batch+1 := by simp [h.batch, configBatch]
  refine ⟨?u,?r,?_,?_,?_,?_⟩
  case r =>
    simp [run, resumeLabels, step, enter, move, test, count, post, store, complete, h.first,
      h.second, hblock, checkRdmaInfo, h.ctrl, h.list, openCtrl, hbatch, Pc.Resting]
    rfl
  · rfl
  · simp only [ho, store_room (f2 _)]
    simp [store_room f1, h.index]
  · simp only [ho, store_room (f2 _)]
    simp [store_room f1, h.index, configBatch]
  · simp only [ho, store_room (f2 _)]
    simp [store_room f1]

theorem turn_run : ∃ row v w u, row = rowLabels 2 0 1023 ∧
    run step (row++fillLabels) start = some v ∧
    run step resetLabels v = some w ∧ run step resumeLabels w = some u ∧
    (∀ j, (v.pc j).Resting ∨ v.pc j = .clearing 0#32) ∧
    (∀ j, (w.pc j).Resting ∨ w.pc j = .counting) ∧
    (v.commits = 1 ∧ ∀ x ∈ v.staged, x.2 = 0) ∧ u.commits = 1 ∧
    u.stageBuffer.checkList 5000#32 = none ∧ u.stageBuffer.checkList 5001#32 = some 0 ∧
    u.stageBuffer.checkList 5002#32 = some 1 := by
  obtain ⟨r,hr,hrow⟩ := row_run 2 0 1023 start start_room (by decide) (by decide)
    fun _ _ => start_opened _
  obtain ⟨v,hv,sv,ov,cv,pv,tv⟩ := fill_run r ⟨hrow.others 0 (by decide),hrow.others 1 (by decide),
    hrow.resting,hrow.lock,hrow.batch,hrow.count,hrow.index,hrow.ctrl,hrow.rdmaCtrlList⟩
  obtain ⟨w,hw,sw,ow,cw,lw,pw⟩ := reset_run v sv
  obtain ⟨u,hu,cu,l1,l2,l0⟩ := resume_run w sw (ow ▸ ov)
  have hone : v.commits = 1 := cv.trans (congrArg (·+1) hrow.commits)
  have hrest : ∀ j, j ≠ 1 → (v.pc j).Resting := by
    intro j hj
    by_cases h0 : j = 0
    · rw [h0, sv.first]
      trivial
    · rw [pv j h0 hj]
      by_cases h2 : j = 2
      · exact h2 ▸ hrow.resting
      · rw [hrow.others j h2]
        trivial
  refine ⟨_,v,w,u,rfl,run_trans hr hv,hw,hu,fun j => ?_,fun j => ?_,
    ⟨hone,fun x hx => ?_⟩,(cu.trans cw).trans hone,by rw [l0, lw],l1,l2⟩
  · by_cases hj : j = 1
    · exact .inr (hj ▸ sv.second)
    · exact .inl (hrest j hj)
  · by_cases hj : j = 1
    · exact .inr (hj ▸ sw.second)
    · exact .inl (pw j hj ▸ hrest j hj)
  · rcases tv x hx with hx | hx
    · exact (hrow.staged x hx).elim nofun id
    · exact hx.trans hrow.commits

end Maruswap.SoloWrites
