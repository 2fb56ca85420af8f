import Maruswap.CommitWalk

/-!
# The lock of a commit

`__process_rdma_rpc_commit` with every lock, unlock and touch of `commit_list`
recorded. Without the record it is the handler. When a page cannot be conveyed the
first walk unlocks and breaks off, and what follows is the code of a commit that
went well.
-/

set_option autoImplicit false

namespace Maruswap.CommitLocks
open WireFormat ServerHandlers CommitWalk
open MulticastLoop (Named Unmoved commit_walk_unmoved)

variable {Page : Type*} [Zero Page]

inductive Access where
  | lock
  | unlock
  | touch
  deriving DecidableEq

def tracedWalk (alloc : ℕ → AllocResult) : List ℕ → Server Page → List Access × Server Page
  | [], s => ([],s)
  | w::ws, s =>
    if (s.rw w).convey then
      let r := tracedWalk alloc ws s
      (.touch::r.1,r.2)
    else
      let r := ibConveyPage (alloc w) (s.rw w).wc s
      if r.1 then
        let t := tracedWalk alloc ws r.2
        (.touch::t.1,t.2)
      else ([.touch,.unlock],r.2)

def tracedDrain : List ℕ → Server Page → List Access × Server Page
  | [], s => ([],s)
  | w::ws, s =>
    let r := tracedDrain ws { s with
      rw := Function.update s.rw w { s.rw w with convey := false }
      posted := s.posted++[(s.rw w).wc.wrId]
      commitList := s.commitList.erase w
      log := .repost (s.rw w).wc.frame::s.log }
    (.touch::r.1,r.2)

/-- The first touch is the `list_empty` at the entry. -/
def tracedCommit (alloc : ℕ → AllocResult) (immData : U32) (s : Server Page) :
    Option (List Access × Server Page) :=
  if s.commitList = [] then some ([.touch],s.emit (.committed immData))
  else if s.batch < commitNeed immData then none
  else
    let t := tracedWalk alloc s.commitList s
    let u := tracedDrain t.2.commitList t.2
    some (.touch::.lock::(t.1++u.1++[.unlock]),(resetBatch u.2).emit (.committed immData))

theorem traced_walk_erases (alloc : ℕ → AllocResult) (ws : List ℕ) (s : Server Page) :
    (tracedWalk alloc ws s).2 = commitWalk alloc ws s := by
  induction ws generalizing s with
  | nil => rfl
  | cons w ws ih =>
    simp only [tracedWalk, commitWalk]
    split_ifs
    · exact ih s
    · exact ih _
    · rfl

omit [Zero Page] in
theorem traced_drain_eq (ws : List ℕ) (s : Server Page) :
    tracedDrain ws s = (List.replicate ws.length .touch,drain ws s) := by
  induction ws generalizing s with
  | nil => rfl
  | cons w ws ih =>
    simp only [tracedDrain, ih]
    rfl

theorem traced_commit_erases (alloc : ℕ → AllocResult) (immData : U32) (s : Server Page) :
    (tracedCommit alloc immData s).map Prod.snd = processRdmaRpcCommit alloc immData s := by
  unfold tracedCommit processRdmaRpcCommit
  split_ifs
  · rfl
  · rfl
  · simp only [Option.map_some, traced_drain_eq, traced_walk_erases, commitRegion]

theorem walk_trace (alloc : ℕ → AllocResult) (ws : List ℕ) (s : Server Page)
    (hid : ∀ w ∈ ws, (s.rw w).wc.wrId = w) :
    (Allocates alloc s ws → (tracedWalk alloc ws s).1 = List.replicate ws.length .touch) ∧
      (¬Allocates alloc s ws →
        ∃ k, (tracedWalk alloc ws s).1 = List.replicate k .touch++[.unlock]) := by
  induction ws generalizing s with
  | nil =>
    refine ⟨fun _ => rfl,fun hno => absurd ?_ hno⟩
    intro n w hw
    simp at hw
  | cons w ws ih =>
    cases hflag : (s.rw w).convey with
    | true =>
      obtain ⟨hall,hsome⟩ := ih s fun v hv => hid v (by simp [hv])
      rw [allocates_skip alloc ws hflag, tracedWalk, if_pos hflag]
      refine ⟨fun h => ?_,fun h => ?_⟩
      · simp [hall h, List.replicate_succ]
      · obtain ⟨k,hk⟩ := hsome h
        exact ⟨k+1,by simp [hk, List.replicate_succ]⟩
    | false =>
      have hiff := convey_iff (alloc w) (s.rw w).wc s
      rw [tracedWalk, if_neg (by simp [hflag])]
      dsimp only
      split_ifs with hok
      · have hstep := convey_step (alloc w) s (hid w (by simp)) hok
        obtain ⟨hall,hsome⟩ := ih _ fun v hv => by rw [hstep.wc]; exact hid v (by simp [hv])
        rw [allocates_cons alloc ws hflag hstep]
        refine ⟨fun h => ?_,fun h => ?_⟩
        · simp [hall h.2, List.replicate_succ]
        · obtain ⟨k,hk⟩ := hsome fun hrest => h ⟨hiff.mp hok,hrest⟩
          exact ⟨k+1,by simp [hk, List.replicate_succ]⟩
      · refine ⟨fun h => absurd ?_ hok,fun _ => ⟨1,rfl⟩⟩
        refine hiff.mpr fun hnone => h (blockIn s w) w ?_
        have hn : s.memblocks (blockIn s w) = none := hnone
        simp [lacks, hflag, hn]

def Balanced (es : List Access) : Prop := es.count .lock = es.count .unlock

/-- The list is touched only between a lock and the next unlock. -/
def Guarded : Bool → List Access → Prop
  | _, [] => True
  | _, .lock::es => Guarded true es
  | _, .unlock::es => Guarded false es
  | held, .touch::es => held = true ∧ Guarded held es

/-- Every page on the list had been conveyed before, or is copied to its place; and the
pages are those before, with the copies made. -/
def AcksConveyed (s t : Server Page) : Prop := ∃ new, t.log = new++s.log ∧
  t.pageAt = KeyedLog.replay (new.reverse.filterMap Event.written) s.pageAt ∧
  ∀ w ∈ s.commitList, (s.rw w).convey = true ∨ copyEvent s w ∈ new

theorem guarded_touches (held : Bool) (k : ℕ) (es : List Access) :
    Guarded held (List.replicate k .touch++es) ↔ (0 < k → held = true) ∧ Guarded held es := by
  induction k with
  | zero => simp
  | succ k ih =>
    rw [List.replicate_succ, List.cons_append, Guarded, ih]
    constructor
    · rintro ⟨hheld,-,hes⟩
      exact ⟨fun _ => hheld,hes⟩
    · rintro ⟨hheld,hes⟩
      exact ⟨hheld (Nat.succ_pos k),fun _ => hheld (Nat.succ_pos k),hes⟩

/-- What a commit of a list of `n` entries records, `k` touches before it breaks off. -/
def goodRecord (n : ℕ) : List Access :=
  .touch::.lock::(List.replicate n .touch++(List.replicate n .touch++[.unlock]))

def badRecord (k n : ℕ) : List Access :=
  .touch::.lock::(List.replicate k .touch++.unlock::(List.replicate n .touch++[.unlock]))

variable {alloc : ℕ → AllocResult} {immData : U32} {s t : Server Page} {es : List Access}

theorem commit_record (hs : Named s) (hne : s.commitList ≠ [])
    (h : tracedCommit alloc immData s = some (es,t)) :
    (Allocates alloc s s.commitList → es = goodRecord s.commitList.length) ∧
      (¬Allocates alloc s s.commitList → ∃ k, es = badRecord k s.commitList.length) := by
  have hlist : (commitWalk alloc s.commitList s).commitList = s.commitList :=
    (commit_walk_unmoved alloc s.commitList s).commitList
  obtain ⟨hall,hsome⟩ := walk_trace alloc s.commitList s hs
  simp only [tracedCommit, if_neg hne, Option.ite_none_left_eq_some, Option.some.injEq,
    Prod.mk.injEq, traced_drain_eq, traced_walk_erases, hlist] at h
  obtain ⟨-,rfl,-⟩ := h
  refine ⟨fun ha => ?_,fun ha => ?_⟩
  · rw [hall ha, goodRecord, List.append_assoc]
  · obtain ⟨k,hk⟩ := hsome ha
    exact ⟨k,by simp [hk, badRecord]⟩

/-- After the walk the commit logs nothing but reposts, the reset and the reply, and
leaves the pages alone. -/
theorem commit_logs (hne : s.commitList ≠ [])
    (h : tracedCommit alloc immData s = some (es,t)) :
    t.pageAt = (commitWalk alloc s.commitList s).pageAt ∧
    ∃ rest, t.log = rest++(commitWalk alloc s.commitList s).log ∧
      ∀ e ∈ rest, e.written = none := by
  have ht := traced_commit_erases alloc immData s
  rw [h, processRdmaRpcCommit, if_neg hne] at ht
  obtain ⟨-,ht⟩ := Option.ite_none_left_eq_some.mp ht.symm
  obtain rfl := Option.some.inj ht
  rw [commitRegion, drain_eq _ _ rfl]
  refine ⟨rfl,.committed immData::.reset::_,rfl,?_⟩
  intro e he
  simp only [List.mem_cons, List.mem_reverse, List.mem_map] at he
  rcases he with rfl | rfl | ⟨w,-,rfl⟩ <;> rfl

theorem commit_replays (hs : Named s) (hne : s.commitList ≠ [])
    (h : tracedCommit alloc immData s = some (es,t)) :
    ∃ complete new rest, Walk alloc s.commitList s (commitWalk alloc s.commitList s) complete ∧
      (commitWalk alloc s.commitList s).log = new++s.log ∧ t.log = (rest++new)++s.log ∧
      (∀ e ∈ rest, e.written = none) ∧
      t.pageAt = KeyedLog.replay ((rest++new).reverse.filterMap Event.written) s.pageAt := by
  obtain ⟨hpages,rest,hrest,hquiet⟩ := commit_logs hne h
  obtain ⟨complete,hwalk⟩ := commit_walk alloc s.commitList s hs
  obtain ⟨new,hnew,-⟩ := hwalk.copies
  have hnone : rest.reverse.filterMap Event.written = [] :=
    List.filterMap_eq_nil_iff.mpr fun e he => hquiet e (List.mem_reverse.mp he)
  refine ⟨complete,new,rest,hwalk,hnew,by rw [hrest, hnew, List.append_assoc],hquiet,?_⟩
  rw [hpages, hwalk.replays hnew, List.reverse_append, List.filterMap_append, hnone,
    List.append_nil]

theorem acks_conveyed_iff (hs : Named s) (h : tracedCommit alloc immData s = some (es,t)) :
    AcksConveyed s t ↔ Allocates alloc s s.commitList := by
  by_cases hne : s.commitList = []
  · simp only [tracedCommit, if_pos hne, Option.some.injEq, Prod.mk.injEq] at h
    obtain ⟨-,rfl⟩ := h
    refine iff_of_true ⟨[.committed immData],rfl,rfl,?_⟩ ?_
    · simp [hne]
    · intro n w hw
      simp [hne] at hw
  · obtain ⟨complete,new,rest,hwalk,hnew,hlog,hquiet,hpages⟩ := commit_replays hs hne h
    obtain ⟨new',hnew',hall,hsome⟩ := hwalk.copies
    obtain rfl : new = new' := List.append_cancel_right (hnew.symm.trans hnew')
    have hno : ∀ w, copyEvent s w ∉ rest := fun w hw => by
      have := hquiet _ hw
      rw [copy_event_written] at this
      cases this
    constructor
    · rintro ⟨new',hlog',-,hacks⟩
      obtain rfl : new' = rest++new := List.append_cancel_right (hlog'.symm.trans hlog)
      rw [← hwalk.complete_iff]
      cases complete with
      | true => rfl
      | false =>
        obtain ⟨w,hw,hflag,-,hmissed⟩ := hsome rfl
        rcases hacks w hw with hup | hmem
        · simp [hflag] at hup
        · rcases List.mem_append.mp hmem with hmem | hmem
          · exact absurd hmem (hno w)
          · exact absurd hmem (hmissed _ _ _)
    · intro ha
      refine ⟨rest++new,hlog,hpages,fun w hw => ?_⟩
      cases hflag : (s.rw w).convey with
      | true => exact .inl rfl
      | false =>
        exact .inr (List.mem_append_right _ (hall (hwalk.complete_iff.mpr ha) w hw hflag))

theorem balanced_iff (hs : Named s) (h : tracedCommit alloc immData s = some (es,t)) :
    Balanced es ↔ Allocates alloc s s.commitList := by
  by_cases hne : s.commitList = []
  · simp only [tracedCommit, if_pos hne, Option.some.injEq, Prod.mk.injEq] at h
    obtain ⟨rfl,-⟩ := h
    refine iff_of_true rfl fun n w hw => ?_
    simp [hne] at hw
  · obtain ⟨hall,hsome⟩ := commit_record hs hne h
    by_cases ha : Allocates alloc s s.commitList
    · refine iff_of_true ?_ ha
      rw [hall ha]
      simp [Balanced, goodRecord, List.count_replicate]
    · refine iff_of_false ?_ ha
      obtain ⟨k,rfl⟩ := hsome ha
      simp [Balanced, badRecord, List.count_replicate]

theorem guarded_tail_iff (hs : Named s) (h : tracedCommit alloc immData s = some (es,t)) :
    Guarded false es.tail ↔ Allocates alloc s s.commitList := by
  by_cases hne : s.commitList = []
  · simp only [tracedCommit, if_pos hne, Option.some.injEq, Prod.mk.injEq] at h
    obtain ⟨rfl,-⟩ := h
    refine iff_of_true trivial fun n w hw => ?_
    simp [hne] at hw
  · obtain ⟨hall,hsome⟩ := commit_record hs hne h
    by_cases ha : Allocates alloc s s.commitList
    · refine iff_of_true ?_ ha
      rw [hall ha, goodRecord, List.tail_cons, Guarded, guarded_touches, guarded_touches]
      exact ⟨fun _ => rfl,fun _ => rfl,trivial⟩
    · refine iff_of_false ?_ ha
      obtain ⟨k,rfl⟩ := hsome ha
      rw [badRecord, List.tail_cons, Guarded, guarded_touches, Guarded, guarded_touches]
      rintro ⟨-,hfree,-⟩
      exact Bool.false_ne_true (hfree (List.length_pos_iff.mpr hne))

theorem entry_unguarded (h : tracedCommit alloc immData s = some (es,t)) :
    ¬Guarded false es := by
  unfold tracedCommit at h
  split_ifs at h
  all_goals
    obtain ⟨rfl,-⟩ := Prod.mk.inj (Option.some.inj h)
    exact fun hg => Bool.false_ne_true hg.1

/-- No commit touches the list under the lock only: it looks whether the list is
empty before it locks. Apart from that, what it acknowledges is conveyed, lock and
unlock balance, and the lock is held, each exactly if for every block that the list
lacks the first allocation succeeds. -/
theorem commit_acks (hs : Named s) (h : tracedCommit alloc immData s = some (es,t)) :
    ¬(AcksConveyed s t ∧ Balanced es ∧ Guarded false es) ∧
      (AcksConveyed s t ↔ Allocates alloc s s.commitList) ∧
      (Balanced es ↔ Allocates alloc s s.commitList) ∧
      (Guarded false es.tail ↔ Allocates alloc s s.commitList) :=
  ⟨fun hall => entry_unguarded h hall.2.2,acks_conveyed_iff hs h,balanced_iff hs h,
    guarded_tail_iff hs h⟩

/-- Frames for the blocks 1, 0 and 2 have arrived; those for 1 and 2 could not be conveyed. -/
def pendingServer : Server ℕ :=
  let s := processMulticastRpcFlow ⟨none,none⟩ ⟨flowHeader 0x40000#32,0,0⟩
    (deliver 0 7 (initServer 0 1#32))
  let t := processMulticastRpcFlow ⟨none,none⟩ ⟨flowHeader 3#32,1,1⟩ (deliver 1 8 s)
  processMulticastRpcFlow ⟨none,none⟩ ⟨flowHeader 0x80000#32,2,2⟩ (deliver 2 9 t)

theorem pending_list : pendingServer.commitList = [2,1,0] ∧
    pendingServer.commitList.map (fun w => (pendingServer.rw w).convey) = [false,true,false] := by
  decide +kernel

theorem pending_named : Named pendingServer := by
  intro w hw
  rw [pending_list.1] at hw
  revert w
  decide +kernel

theorem commit_acks_sample : ∃ es t, tracedCommit (fun _ => ⟨some 4096,some 9#32⟩)
    (qcommitWord 1#32) pendingServer = some (es,t) ∧ AcksConveyed pendingServer t ∧
      Balanced es ∧ t.pageAt 0x40000 = 7 ∧ t.pageAt 3 = 8 ∧ t.pageAt 0x80000 = 9 := by
  have hpages : (tracedCommit (fun _ => ⟨some 4096,some 9#32⟩) (qcommitWord 1#32)
      pendingServer).map (fun r => (r.2.pageAt 0x40000,r.2.pageAt 3,r.2.pageAt 0x80000)) =
      some (7,8,9) := by decide +kernel
  obtain ⟨⟨es,t⟩,h,hpages⟩ := Option.map_eq_some_iff.mp hpages
  obtain ⟨-,hacks,hbalanced,-⟩ := commit_acks pending_named h
  have hall : Allocates (fun _ => ⟨some 4096,some 9#32⟩) pendingServer pendingServer.commitList :=
    fun n w _ => ⟨rfl,rfl⟩
  exact ⟨es,t,h,hacks.mpr hall,hbalanced.mpr hall,congrArg Prod.fst hpages,
    congrArg (fun x => x.2.1) hpages,congrArg (fun x => x.2.2) hpages⟩

/-- Without it the frames are acknowledged all the same and their receive works posted
again, and the lock is released twice. -/
theorem lost_page_acked : ∃ es t,
    tracedCommit (fun _ => ⟨none,none⟩) (qcommitWord 1#32) pendingServer = some (es,t) ∧
      t.commitList = [] ∧ t.pageAt 0x40000 = 0 ∧
      ¬AcksConveyed pendingServer t ∧ ¬Balanced es ∧ ¬Guarded false es.tail := by
  have hlost : (tracedCommit (fun _ => ⟨none,none⟩) (qcommitWord 1#32) pendingServer).map
      (fun r => (r.2.commitList,r.2.pageAt 0x40000)) = some ([],0) := by decide +kernel
  obtain ⟨⟨es,t⟩,h,hlost⟩ := Option.map_eq_some_iff.mp hlost
  have hno : ¬Allocates (fun _ => ⟨none,none⟩) pendingServer pendingServer.commitList := by
    intro ha
    have hfirst : pendingServer.commitList.find? (lacks pendingServer 1) = some 0 := by
      decide +kernel
    have hgot := (ha 1 0 hfirst).1
    cases hgot
  exact ⟨es,t,h,congrArg Prod.fst hlost,congrArg Prod.snd hlost,
    fun hk => hno ((acks_conveyed_iff pending_named h).mp hk),
    fun hk => hno ((balanced_iff pending_named h).mp hk),
    fun hk => hno ((guarded_tail_iff pending_named h).mp hk)⟩

end Maruswap.CommitLocks
