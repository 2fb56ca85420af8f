import Maruswap.OneWriter
import Maruswap.SoloWrites

/-!
# The batch and the frames behind it

Writes that run one after another. The batch is advanced before the post whose
outcome decides whether there is a frame, and nothing takes it back; what a
COMMIT is triggered by is the frames accepted since the last reset and the posts
refused since then.
-/

set_option autoImplicit false

namespace Maruswap.BatchAccounts
open WireFormat DriverStage WriterThreads WriterThreads.Writers GuardedRun OneWriter SoloWrites

variable {Page : Type*}

/-- The outcomes of the posts since the batch was last reset. -/
structure Tally where
  accepted : ℕ
  refused : ℕ

def Tally.add (n : Tally) : Label Page → Tally
  | .resetBatch _ => ⟨0,0⟩
  | .post _ ret => if ret = 0#32 then ⟨n.accepted+1,n.refused⟩ else ⟨n.accepted,n.refused+1⟩
  | _ => n

def tally (ls : List (Label Page)) : Tally := ls.foldl Tally.add ⟨0,0⟩

def Sequential : Label Page → Writers Page → Prop
  | .call i _ _ _, w => ∀ j, j ≠ i → (w.pc j).Resting
  | _, _ => True

/-- Thread `i` is the one that may be writing. -/
structure Balanced (n : Tally) (i : ℕ) (w : Writers Page) : Prop where
  others : ∀ j, j ≠ i → (w.pc j).Resting
  batch : w.batch = n.accepted+n.refused+(if w.pc i = .posting then 1 else 0)

theorem plain_not_posting {p : Pc} (h : p.Plain) : p ≠ .posting := by
  rintro rfl
  exact h

theorem resting_calls (l : Label Page) (k : ℕ) (w u : Writers Page) (hl : thread l = some k)
    (hr : (w.pc k).Resting) (h : step l w = some u) :
    ∃ offset page ret, l = .call k offset page ret := by
  have busy : ∀ j p, some j = some k → w.pc j = p → ¬ p.Resting → False := by
    intro j p hj hp hn
    obtain rfl := Option.some.inj hj
    exact hn (hp ▸ hr)
  cases step_effect h with
  | connect c => cases hl
  | @call j offset _ page ret hpc ho =>
    obtain rfl := Option.some.inj hl
    exact ⟨offset,page,ret,rfl⟩
  | lock hpc _ => exact (busy _ _ hl hpc id).elim
  | check hpc => exact (busy _ _ hl hpc id).elim
  | openSub _ hpc _ => exact (busy _ _ hl hpc id).elim
  | openMain _ hpc => exact (busy _ _ hl hpc id).elim
  | start hpc _ => exact (busy _ _ hl hpc id).elim
  | pass hpc _ => exact (busy _ _ hl hpc id).elim
  | commitRpc _ hpc => exact (busy _ _ hl hpc id).elim
  | resetBatch hpc => exact (busy _ _ hl hpc id).elim
  | clear hpc => exact (busy _ _ hl hpc id).elim
  | resetCount hpc => exact (busy _ _ hl hpc id).elim
  | abort hpc _ => exact (busy _ _ hl hpc id).elim
  | count hpc => exact (busy _ _ hl hpc id).elim
  | post hpc => exact (busy _ _ hl hpc id).elim
  | refuse hpc _ => exact (busy _ _ hl hpc id).elim
  | store _ hpc => exact (busy _ _ hl hpc id).elim
  | complete hpc => exact (busy _ _ hl hpc id).elim
  | incomplete hpc => exact (busy _ _ hl hpc id).elim

theorem thread_balanced (n : Tally) (l : Label Page) (k : ℕ) (w u : Writers Page)
    (hl : thread l = some k) (h : step l w = some u)
    (hw : w.batch = n.accepted+n.refused+(if w.pc k = .posting then 1 else 0)) :
    u.batch = (n.add l).accepted+(n.add l).refused+(if u.pc k = .posting then 1 else 0) := by
  cases hq : l.quiet with
  | some j =>
    have hj : j = k := by
      cases l <;> simp_all [Label.quiet, thread]
    subst hj
    have hquiet := quiet_step l j w u hq h
    have hadd : n.add l = n := by
      cases l <;> simp_all [Label.quiet, Tally.add]
    rw [if_neg (plain_not_posting hquiet.before)] at hw
    rw [hadd, hquiet.batch, hw, if_neg (plain_not_posting hquiet.after)]
  | none =>
    cases step_effect h with
    | connect c => cases hl
    | start hpc hb =>
      obtain rfl := Option.some.inj hl
      simpa [hpc, move, Tally.add] using hw
    | pass hpc hb =>
      obtain rfl := Option.some.inj hl
      simpa [hpc, move, Tally.add] using hw
    | resetBatch hpc =>
      obtain rfl := Option.some.inj hl
      simp [move, Tally.add]
    | clear hpc =>
      obtain rfl := Option.some.inj hl
      simpa [hpc, move, Tally.add] using hw
    | resetCount hpc =>
      obtain rfl := Option.some.inj hl
      simpa [hpc, move, Tally.add] using hw
    | abort hpc hret =>
      obtain rfl := Option.some.inj hl
      simpa [hpc, fail, move, Tally.add] using hw
    | count hpc =>
      obtain rfl := Option.some.inj hl
      simpa [hpc, count, move, Tally.add] using hw
    | post hpc =>
      obtain rfl := Option.some.inj hl
      simp only [hpc, if_true] at hw
      simp only [move, Tally.add, if_true, Function.update_self, hw, reduceCtorEq, if_false]
      omega
    | refuse hpc hret =>
      obtain rfl := Option.some.inj hl
      simp only [hpc, if_true] at hw
      simp only [move, Tally.add, if_neg hret, Function.update_self, hw, reduceCtorEq, if_false]
      omega
    | store xa hpc =>
      obtain rfl := Option.some.inj hl
      simpa [hpc, store, move, Tally.add] using hw
    | complete hpc =>
      obtain rfl := Option.some.inj hl
      simpa [hpc, move, Tally.add] using hw
    | incomplete hpc =>
      obtain rfl := Option.some.inj hl
      simpa [hpc, move, Tally.add] using hw
    | _ => cases hq

theorem step_balanced (n : Tally) (i : ℕ) (l : Label Page) (w u : Writers Page)
    (hw : Balanced n i w) (hseq : Sequential l w) (h : step l w = some u) :
    ∃ k, Balanced (n.add l) k u := by
  cases hl : thread l with
  | none =>
    cases step_effect h with
    | connect c => exact ⟨i,hw.others,hw.batch⟩
    | _ => cases hl
  | some k =>
    have hmoved : ∀ j, j ≠ k → u.pc j = w.pc j := step_others l k w u hl h
    by_cases hk : k = i
    · subst hk
      refine ⟨k,fun j hj => ?_,thread_balanced n l k w u hl h hw.batch⟩
      rw [hmoved j hj]
      exact hw.others j hj
    · -- Another thread than the last one begins, so the last one has returned.
      have hrest := hw.others k hk
      obtain ⟨offset,page,ret,rfl⟩ := resting_calls l k w u hl hrest h
      have hi : (w.pc i).Resting := hseq i (fun h => hk h.symm)
      have hbatch : w.batch = n.accepted+n.refused+(if w.pc k = .posting then 1 else 0) := by
        have hb := hw.batch
        rw [if_neg (plain_not_posting hi.plain)] at hb
        rw [if_neg (plain_not_posting hrest.plain)]
        exact hb
      refine ⟨k,fun j hj => ?_,thread_balanced n _ k w u hl h hbatch⟩
      rw [hmoved j hj]
      exact hseq j hj

theorem run_balanced (n : Tally) (i : ℕ) (ls : List (Label Page)) (w u : Writers Page)
    (hw : Balanced n i w) (hseq : Meets step Sequential ls w) (h : run step ls w = some u) :
    ∃ k, Balanced (ls.foldl Tally.add n) k u := by
  induction ls generalizing n i w with
  | nil => exact Option.some.inj h ▸ ⟨i,hw⟩
  | cons l ls ih =>
    obtain ⟨v,hv,hrest⟩ := run_cons.mp h
    obtain ⟨k,hk⟩ := step_balanced n i l w v hw hseq.1 hv
    exact ih (n.add l) k v hk (hseq.2 v hv) hrest

theorem init_balanced (ctrl : ℕ → RdmaCtrl) (rdmaCtrlList : List ℕ) (mainRdmaCtrl : ℕ)
    (buffer : ℕ → Page) (call : ℕ → Call Page) :
    Balanced ⟨0,0⟩ 0 (initWriters ctrl rdmaCtrlList mainRdmaCtrl buffer call) :=
  ⟨fun _ _ => trivial,rfl⟩

/-- Whenever a COMMIT is sent, the batch that triggered it is the number of
frames accepted since the last one exactly if no post has been refused since. -/
theorem batch_counts_frames (ctrl : ℕ → RdmaCtrl) (rdmaCtrlList : List ℕ) (mainRdmaCtrl : ℕ)
    (buffer : ℕ → Page) (call : ℕ → Call Page) (ls : List (Label Page)) (w : Writers Page)
    (hseq : Meets step Sequential ls
      (initWriters ctrl rdmaCtrlList mainRdmaCtrl buffer call))
    (h : run step ls (initWriters ctrl rdmaCtrlList mainRdmaCtrl buffer call) = some w)
    (i c : ℕ) (todo : List ℕ) (ret : U32) (hpc : w.pc i = .committing (c::todo) ret) :
    w.batch = (tally ls).accepted ↔ (tally ls).refused = 0 := by
  obtain ⟨k,hk⟩ := run_balanced ⟨0,0⟩ 0 ls _ w
    (init_balanced ctrl rdmaCtrlList mainRdmaCtrl buffer call) hseq h
  have hik : i = k := by
    by_contra hne
    have hrest := hk.others i hne
    rw [hpc] at hrest
    exact hrest
  have hbatch := hk.batch
  rw [← hik, hpc, if_neg (by simp)] at hbatch
  change w.batch = (tally ls).accepted+(tally ls).refused+0 at hbatch
  omega

theorem alone_sequential (i : ℕ) (ls : List (Label Page)) (w : Writers Page)
    (hl : ∀ l ∈ ls, thread l = some i) (hw : ∀ j, j ≠ i → (w.pc j).Resting) :
    Meets step Sequential ls w := by
  induction ls generalizing w with
  | nil => trivial
  | cons l ls ih =>
    have hli := hl l (by simp)
    refine ⟨?_,fun u hu => ih u (fun m hm => hl m (by simp [hm])) ?_⟩
    · cases l with
      | call k offset page ret =>
        obtain rfl := Option.some.inj hli
        exact hw
      | _ => trivial
    · intro j hj
      rw [step_others l i w u hli hu j hj]
      exact hw j hj

theorem row_threads (i base n : ℕ) : ∀ l ∈ rowLabels i base n, thread l = some i :=
  row_forall (by simp [writeLabels, thread]) base n

theorem row_tally (i base n : ℕ) : tally (rowLabels i base n) = ⟨n,0⟩ := by
  induction n with
  | zero => rfl
  | succ n ih =>
    rw [tally, rowLabels, List.foldl_append]
    change (writeLabels i _ n).foldl Tally.add (tally (rowLabels i base n)) = _
    rw [ih]
    simp [writeLabels, Tally.add]

/-- A call that finds the batch full, up to its first COMMIT. -/
def triggerLabels (i : ℕ) : List (Label ℕ) := [.call i 0#32 0 0#32,.lock i,.check i,.test i]

def triggered (i : ℕ) (w : Writers ℕ) : Writers ℕ :=
  { w.move i (.committing w.rdmaCtrlList 0#32) with
    lock := some i
    commits := w.commits+1
    call := Function.update w.call i ⟨0#32,0,0⟩ }

theorem trigger_run (i : ℕ) (w : Writers ℕ) (hl : w.lock = none) (hr : (w.pc i).Resting)
    (hb : configBatch ≤ w.batch) (hopen : ∀ m, checkRdmaInfo m w.toDriver = false) :
    run step (triggerLabels i) w = some (triggered i w) := by
  have ho : getNumMemblock 0#32 < maxMemblock := by decide
  simp [run, triggerLabels, step, enter, move, test, triggered, hl, hr, hb, ho, hopen]

theorem tally_append (ls ms : List (Label Page)) :
    tally (ls++ms) = ms.foldl Tally.add (tally ls) := List.foldl_append

theorem row_opened {n : ℕ} {w : Writers ℕ} (hr : Row 2 0 n start w) (m : ℕ) :
    checkRdmaInfo m w.toDriver = false := by
  simp [checkRdmaInfo, hr.rdmaCtrlList, hr.ctrl, start, initWriters, openCtrl]

theorem trigger_threads (i : ℕ) : ∀ l ∈ triggerLabels i, thread l = some i := by
  intro l hl
  simp only [triggerLabels, List.mem_cons, List.not_mem_nil, or_false] at hl
  rcases hl with rfl | rfl | rfl | rfl <;> rfl

def fullRow (n : ℕ) : List (Label ℕ) := rowLabels 2 0 n++triggerLabels 2

theorem full_row_run (n : ℕ) (hn : n = configBatch) : ∃ w,
    run step (fullRow n) start = some w ∧ Meets step Sequential (fullRow n) start ∧
      w.pc 2 = .committing [1,0] 0#32 ∧ tally (fullRow n) = ⟨n,0⟩ := by
  have hsmall : configBatch ≤ 2^25 := by decide
  have hroom : Room 2 n start :=
    ⟨rfl,trivial,by simp [start, initWriters, hn],by simp [start, initWriters, hn]⟩
  obtain ⟨w,hw,hr⟩ := row_run 2 0 n start hroom (by decide) (by omega) fun _ _ => start_opened _
  have hbatch : configBatch ≤ w.batch := by
    rw [hr.batch]
    omega
  have hthread : ∀ l ∈ fullRow n, thread l = some 2 := by
    intro l hl
    rcases List.mem_append.mp hl with hl | hl
    · exact row_threads 2 0 n l hl
    · exact trigger_threads 2 l hl
  refine ⟨_,run_trans hw (trigger_run 2 w hr.lock hr.resting hbatch (row_opened hr)),
    alone_sequential 2 _ start hthread (fun _ _ => trivial),?_,?_⟩
  · simp [triggered, move, hr.rdmaCtrlList, start, initWriters]
  · rw [fullRow, tally_append, row_tally]
    rfl

set_option maxRecDepth 20000 in
theorem batch_counts_frames_sample : ∃ w : Writers ℕ, run step (fullRow 1024) start = some w ∧
    w.pc 2 = .committing [1,0] 0#32 ∧ w.batch = (tally (fullRow 1024)).accepted := by
  obtain ⟨w,hw,hseq,hpc,htally⟩ := full_row_run 1024 rfl
  have hrefused : (tally (fullRow 1024)).refused = 0 := by rw [htally]
  exact ⟨w,hw,hpc,(batch_counts_frames openCtrl [1,0] 0 (fun _ => 0) (fun _ => ⟨0#32,0,0⟩)
    (fullRow 1024) w hseq hw 2 1 [0] 0#32 hpc).mpr hrefused⟩

def shortRow (n : ℕ) : List (Label ℕ) :=
  rowLabels 2 0 n++(countLabels 2 0#32 0++(.post 2 1#32::triggerLabels 2))

theorem short_row_run (n : ℕ) (hn : n+1 = configBatch) : ∃ w,
    run step (shortRow n) start = some w ∧ Meets step Sequential (shortRow n) start ∧
      w.pc 2 = .committing [1,0] 0#32 ∧ w.batch = n+1 ∧ tally (shortRow n) = ⟨n,1⟩ := by
  have hsmall : configBatch ≤ 2^25 := by decide
  have hroom : Room 2 n start := ⟨rfl,trivial,by simp [start, initWriters]; omega,
    by simp [start, initWriters]; omega⟩
  obtain ⟨w,hw,hr⟩ := row_run 2 0 n start hroom (by decide) (by omega) fun _ _ => start_opened _
  have hbatch : w.batch = n := by simpa [start, initWriters] using hr.batch
  have hopen := row_opened hr
  have hcount := count_run 2 0#32 0 w hr.lock hr.resting (by omega) (by decide) (hopen _)
  have hpost : step (.post 2 1#32) (counted 2 0#32 0 w) =
      some ((counted 2 0#32 0 w).move 2 (.returned 1#32)) := by
    simp [step, post, counted, move]
  have htrigger := trigger_run 2 ((counted 2 0#32 0 w).move 2 (.returned 1#32)) rfl
    (by simp [move, Pc.Resting]) (by simp [move, counted, hbatch, ← hn]) hopen
  have hthread : ∀ l ∈ shortRow n, thread l = some 2 := by
    intro l hl
    rcases List.mem_append.mp hl with hl | hl
    · exact row_threads 2 0 n l hl
    · rcases List.mem_append.mp hl with hl | hl
      · simp only [countLabels, List.mem_cons, List.not_mem_nil, or_false] at hl
        rcases hl with rfl | rfl | rfl | rfl | rfl <;> rfl
      · rcases List.mem_cons.mp hl with rfl | hl
        · rfl
        · exact trigger_threads 2 l hl
  refine ⟨_,run_trans hw (run_trans hcount (run_cons.mpr ⟨_,hpost,htrigger⟩)),
    alone_sequential 2 _ start hthread (fun _ _ => trivial),?_,?_,?_⟩
  · simp [triggered, counted, move, hr.rdmaCtrlList, start, initWriters]
  · simp [triggered, counted, move, hbatch]
  · rw [shortRow, tally_append, row_tally]
    rfl

/-- The refused post is counted: the COMMIT goes out for 1024 frames when there
are 1023. -/
theorem refused_post_counted : ∃ w : Writers ℕ, run step (shortRow 1023) start = some w ∧
    Meets step Sequential (shortRow 1023) start ∧ w.pc 2 = .committing [1,0] 0#32 ∧
    w.batch = 1024 ∧ tally (shortRow 1023) = ⟨1023,1⟩ :=
  short_row_run 1023 rfl

end Maruswap.BatchAccounts
