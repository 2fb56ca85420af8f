import Maruswap.MulticastLoop

/-!
# The first walk of a commit

What the walk of `__process_rdma_rpc_commit` comes to on any commit list, with
any mixture of raised and lowered flags and any outcome of the allocations. The
walk gets to its end exactly if the allocations it asks for succeed; then it has
copied what was pending, in the order of the list.
-/

set_option autoImplicit false

namespace Maruswap.CommitWalk
open WireFormat ServerHandlers
open MulticastLoop (Unmoved ib_convey_page_unmoved)

variable {Page : Type*} [Zero Page]

theorem add_memblock_others (a : AllocResult) (id : ℕ) (s : Server Page) {n : ℕ}
    (hn : n ≠ id) : (addMemblock a id s).2.memblocks n = s.memblocks n := by
  unfold addMemblock
  split
  · rfl
  · split
    · simp [hn]
    · rfl

theorem convey_others (a : AllocResult) (wc : Wc) (s : Server Page) {n : ℕ}
    (hn : n ≠ blockOf (pageOffset wc.immData)) :
    (ibConveyPage a wc s).2.memblocks n = s.memblocks n := by
  obtain ⟨off,hd,-⟩ := interpret_header_eq wc.immData
  simp only [ibConveyPage, hd]
  split_ifs with hm hadd
  · simp [copyPage, hn, add_memblock_others a _ s hn]
  · exact add_memblock_others a _ s hn
  · simp [copyPage, hn]
  · rfl

theorem add_memblock_absent_iff (a : AllocResult) (id : ℕ) (s : Server Page)
    (h : s.memblocks id = none) : (addMemblock a id s).1 = true ↔ a.Succeeds := by
  unfold addMemblock
  simp only [h, Option.isSome_none, Bool.false_eq_true, if_false]
  cases hm : a.mmap <;> cases hr : a.regMr <;> simp [AllocResult.Succeeds, hm, hr]

theorem convey_iff (a : AllocResult) (wc : Wc) (s : Server Page) :
    (ibConveyPage a wc s).1 = true ↔
      (s.memblocks (blockOf (pageOffset wc.immData)) = none → a.Succeeds) := by
  obtain ⟨off,hd,-⟩ := interpret_header_eq wc.immData
  simp only [ibConveyPage, hd]
  cases hm : s.memblocks (blockOf (pageOffset wc.immData)) with
  | none =>
    simp only [Option.isNone_none, if_true, forall_const]
    rw [← add_memblock_absent_iff a _ s hm]
    cases hadd : (addMemblock a (blockOf (pageOffset wc.immData)) s).1 <;> simp [hadd]
  | some mb => simp

def blockIn (s : Server Page) (w : ℕ) : ℕ := blockOf (pageOffset (s.rw w).wc.immData)

def entry (s : Server Page) (w : ℕ) : ℕ × Page :=
  (pageOffset (s.rw w).wc.immData,(s.rw w).buffer)

def copyEvent (s : Server Page) (w : ℕ) : Event Page :=
  .convey (s.rw w).wc.frame (blockIn s w) (byteOf (pageOffset (s.rw w).wc.immData))
    (s.rw w).buffer

def pending (s : Server Page) (ws : List ℕ) : List ℕ := ws.filter fun w => !(s.rw w).convey

omit [Zero Page] in
theorem pending_up {s : Server Page} {w : ℕ} (ws : List ℕ) (h : (s.rw w).convey = true) :
    pending s (w::ws) = pending s ws := by
  simp [pending, h]

omit [Zero Page] in
theorem pending_down {s : Server Page} {w : ℕ} (ws : List ℕ) (h : (s.rw w).convey = false) :
    pending s (w::ws) = w::pending s ws := by
  simp [pending, h]

/-- The entry is not conveyed, and its block `n` is not there. -/
def lacks (s : Server Page) (n w : ℕ) : Bool :=
  !(s.rw w).convey && decide (blockIn s w = n) && (s.memblocks n).isNone

/-- For every block that is lacking, the allocation made for the first entry in it
succeeds. -/
def Allocates (alloc : ℕ → AllocResult) (s : Server Page) (ws : List ℕ) : Prop :=
  ∀ n w, ws.find? (lacks s n) = some w → (alloc w).Succeeds

structure Step (w : ℕ) (s t : Server Page) : Prop where
  wc : ∀ v, (t.rw v).wc = (s.rw v).wc
  buffer : ∀ v, (t.rw v).buffer = (s.rw v).buffer
  flag : (t.rw w).convey = true
  flags : ∀ v, v ≠ w → (t.rw v).convey = (s.rw v).convey
  mapped : (t.memblocks (blockIn s w)).isSome
  others : ∀ n, n ≠ blockIn s w → t.memblocks n = s.memblocks n
  pages : t.pageAt = KeyedLog.write s.pageAt (entry s w)
  log : t.log = copyEvent s w::s.log

theorem convey_step (a : AllocResult) (s : Server Page) {w : ℕ} (hid : (s.rw w).wc.wrId = w)
    (h : (ibConveyPage a (s.rw w).wc s).1 = true) :
    Step w s (ibConveyPage a (s.rw w).wc s).2 := by
  rcases ib_convey_page_cases a (s.rw w).wc s with ⟨-,hc⟩ | ⟨he,-,-⟩
  · have hrw := hc.rw_eq
    rw [hid] at hrw
    have hpages := hc.pages
    have hlog := hc.log
    rw [hid] at hpages hlog
    refine ⟨fun v => ?_,fun v => ?_,by rw [hrw]; simp,fun v hv => by rw [hrw]; simp [hv],
      hc.mapped,fun n hn => convey_others a _ s hn,hpages,hlog⟩
    · rw [hrw]
      by_cases hv : v = w
      · subst hv; simp
      · simp [hv]
    · rw [hrw]
      by_cases hv : v = w
      · subst hv; simp
      · simp [hv]
  · rw [he] at h
    cases h

variable {w : ℕ} {s t : Server Page}

theorem Step.block (h : Step w s t) (v : ℕ) : blockIn t v = blockIn s v := by
  rw [blockIn, blockIn, h.wc]

theorem Step.entry_eq (h : Step w s t) (v : ℕ) : entry t v = entry s v := by
  rw [entry, entry, h.wc, h.buffer]

theorem Step.event (h : Step w s t) (v : ℕ) : copyEvent t v = copyEvent s v := by
  rw [copyEvent, copyEvent, h.block, h.wc, h.buffer]

theorem Step.lacks_eq (h : Step w s t) {n : ℕ} (hn : n ≠ blockIn s w) :
    lacks t n = lacks s n := by
  funext v
  by_cases hv : v = w
  · subst hv
    simp [lacks, h.block, Ne.symm hn]
  · simp [lacks, h.block, h.others n hn, h.flags v hv]

theorem Step.lacks_own (h : Step w s t) (v : ℕ) : lacks t (blockIn s w) v = false := by
  obtain ⟨mb,hmb⟩ := Option.isSome_iff_exists.mp h.mapped
  simp [lacks, hmb]

theorem allocates_cons (alloc : ℕ → AllocResult) (ws : List ℕ)
    (hflag : (s.rw w).convey = false) (h : Step w s t) :
    Allocates alloc s (w::ws) ↔
      (s.memblocks (blockIn s w) = none → (alloc w).Succeeds) ∧ Allocates alloc t ws := by
  have hskip : ∀ n, n ≠ blockIn s w →
      (w::ws).find? (lacks s n) = ws.find? (lacks t n) := by
    intro n hn
    have hw : lacks s n w = false := by simp [lacks, Ne.symm hn]
    rw [List.find?_cons, hw, h.lacks_eq hn]
  constructor
  · intro hall
    refine ⟨fun hnone => hall (blockIn s w) w ?_,fun n v hv => ?_⟩
    · simp [lacks, hflag, hnone]
    · by_cases hn : n = blockIn s w
      · subst hn
        have hl := List.find?_some hv
        rw [h.lacks_own] at hl
        cases hl
      · exact hall n v ((hskip n hn).trans hv)
  · rintro ⟨hfirst,hrest⟩ n v hv
    by_cases hn : n = blockIn s w
    · subst hn
      cases hm : s.memblocks (blockIn s w) with
      | none =>
        have hw : lacks s (blockIn s w) w = true := by simp [lacks, hflag, hm]
        rw [List.find?_cons, hw] at hv
        exact Option.some.inj hv ▸ hfirst hm
      | some mb =>
        have hl := List.find?_some hv
        simp [lacks, hm] at hl
    · exact hrest n v ((hskip n hn).symm.trans hv)

omit [Zero Page] in
theorem allocates_skip (alloc : ℕ → AllocResult) (ws : List ℕ)
    (hflag : (s.rw w).convey = true) :
    Allocates alloc s (w::ws) ↔ Allocates alloc s ws := by
  have hskip : ∀ n, (w::ws).find? (lacks s n) = ws.find? (lacks s n) := by
    intro n
    have hw : lacks s n w = false := by simp [lacks, hflag]
    rw [List.find?_cons, hw]
  simp only [Allocates, hskip]

inductive Walk (alloc : ℕ → AllocResult) :
    List ℕ → Server Page → Server Page → Bool → Prop where
  | done {s : Server Page} : Walk alloc [] s s true
  | skip {w : ℕ} {ws : List ℕ} {s t : Server Page} {complete : Bool}
      (hflag : (s.rw w).convey = true) (hrest : Walk alloc ws s t complete) :
      Walk alloc (w::ws) s t complete
  | copy {w : ℕ} {ws : List ℕ} {s u t : Server Page} {complete : Bool}
      (hflag : (s.rw w).convey = false) (hstep : Step w s u)
      (hgot : s.memblocks (blockIn s w) = none → (alloc w).Succeeds)
      (hrest : Walk alloc ws u t complete) : Walk alloc (w::ws) s t complete
  | stop {w : ℕ} {ws : List ℕ} {s : Server Page} (hflag : (s.rw w).convey = false)
      (hnone : s.memblocks (blockIn s w) = none) (hfail : ¬(alloc w).Succeeds) :
      Walk alloc (w::ws) s s false

theorem commit_walk (alloc : ℕ → AllocResult) (ws : List ℕ) (s : Server Page)
    (hid : ∀ w ∈ ws, (s.rw w).wc.wrId = w) :
    ∃ complete, Walk alloc ws s (commitWalk alloc ws s) complete := by
  induction ws generalizing s with
  | nil => exact ⟨true,.done⟩
  | cons w ws ih =>
    have hidw := hid w (by simp)
    cases hflag : (s.rw w).convey with
    | true =>
      obtain ⟨complete,h⟩ := ih s fun v hv => hid v (by simp [hv])
      rw [commitWalk, if_pos hflag]
      exact ⟨complete,.skip hflag h⟩
    | false =>
      have hiff := convey_iff (alloc w) (s.rw w).wc s
      rw [commitWalk, if_neg (by simp [hflag])]
      dsimp only
      split_ifs with hok
      · have hstep := convey_step (alloc w) s hidw hok
        obtain ⟨complete,h⟩ := ih _ fun v hv => by rw [hstep.wc]; exact hid v (by simp [hv])
        exact ⟨complete,.copy hflag hstep (hiff.mp hok) h⟩
      · have hno : ¬(s.memblocks (blockIn s w) = none → (alloc w).Succeeds) :=
          fun himp => hok (hiff.mpr himp)
        obtain ⟨hnone,hfail⟩ := Classical.not_imp.mp hno
        rcases ib_convey_page_cases (alloc w) (s.rw w).wc s with ⟨htrue,-⟩ | ⟨he,-,-⟩
        · exact absurd htrue hok
        · rw [he]
          exact ⟨false,.stop hflag hnone hfail⟩

variable {alloc : ℕ → AllocResult} {ws : List ℕ} {complete : Bool}

theorem Walk.complete_iff (h : Walk alloc ws s t complete) :
    complete = true ↔ Allocates alloc s ws := by
  induction h with
  | done => exact iff_of_true rfl fun n w hw => by simp at hw
  | skip hflag hrest ih => rw [ih, allocates_skip alloc _ hflag]
  | copy hflag hstep hgot hrest ih =>
    rw [ih, allocates_cons alloc _ hflag hstep, and_iff_right hgot]
  | @stop w ws s hflag hnone hfail =>
    refine iff_of_false Bool.false_ne_true fun hall => hfail (hall (blockIn s w) w ?_)
    simp [lacks, hflag, hnone]

theorem Walk.flags (h : Walk alloc ws s t complete) (v : ℕ) (hv : v ∉ ws) :
    (t.rw v).convey = (s.rw v).convey := by
  induction h with
  | done => rfl
  | skip hflag hrest ih => exact ih (List.not_mem_of_not_mem_cons hv)
  | copy hflag hstep hgot hrest ih =>
    obtain ⟨hne,hv⟩ := List.ne_and_not_mem_of_not_mem_cons hv
    rw [ih hv, hstep.flags v hne]
  | stop => rfl

theorem Walk.pages (h : Walk alloc ws s t true) (hn : ws.Nodup) :
    t.pageAt = KeyedLog.replay ((pending s ws).map (entry s)) s.pageAt := by
  generalize htrue : true = complete at h
  induction h with
  | done => rfl
  | @skip w ws s t complete hflag hrest ih =>
    rw [ih (List.nodup_cons.mp hn).2 htrue, pending_up ws hflag]
  | @copy w ws s u t complete hflag hstep hgot hrest ih =>
    obtain ⟨hw,hn⟩ := List.nodup_cons.mp hn
    have hpending : pending u ws = pending s ws :=
      List.filter_congr fun v hv => by rw [hstep.flags v (fun he => hw (he ▸ hv))]
    have hentry : entry u = entry s := funext hstep.entry_eq
    rw [ih hn htrue, hpending, hentry, hstep.pages, pending_down ws hflag]
    rfl
  | stop => cases htrue

/-- What the walk copied: all that was pending, if it got to the end; otherwise
nothing in the block of some pending entry. -/
theorem Walk.copies (h : Walk alloc ws s t complete) : ∃ new, t.log = new++s.log ∧
    (complete = true → ∀ w ∈ ws, (s.rw w).convey = false → copyEvent s w ∈ new) ∧
    (complete = false → ∃ w ∈ ws, (s.rw w).convey = false ∧
      s.memblocks (blockIn s w) = none ∧
      ∀ frame byte content, Event.convey frame (blockIn s w) byte content ∉ new) := by
  induction h with
  | done => exact ⟨[],rfl,by simp,by simp⟩
  | @skip w ws s t complete hflag hrest ih =>
    obtain ⟨new,hlog,hall,hsome⟩ := ih
    refine ⟨new,hlog,fun hc v hv hf => ?_,fun hc => ?_⟩
    · rcases List.mem_cons.mp hv with rfl | hv
      · simp [hflag] at hf
      · exact hall hc v hv hf
    · obtain ⟨v,hv,hrest⟩ := hsome hc
      exact ⟨v,by simp [hv],hrest⟩
  | @copy w ws s u t complete hflag hstep hgot hrest ih =>
    obtain ⟨new,hlog,hall,hsome⟩ := ih
    refine ⟨new++[copyEvent s w],?_,fun hc v hv hf => ?_,fun hc => ?_⟩
    · rw [hlog, hstep.log, List.append_assoc]
      rfl
    · by_cases hvw : v = w
      · simp [hvw]
      · have hv : v ∈ ws := (List.mem_cons.mp hv).resolve_left hvw
        have hmem := hall hc v hv ((hstep.flags v hvw).trans hf)
        rw [hstep.event] at hmem
        exact List.mem_append_left _ hmem
    · obtain ⟨v,hv,hf,hnone,hno⟩ := hsome hc
      rw [hstep.block] at hnone hno
      have hvw : v ≠ w := by
        rintro rfl
        simp [hstep.flag] at hf
      -- the block of `w` is there now, so that of `v` is another
      have hblock : blockIn s v ≠ blockIn s w := by
        intro he
        have hmapped := hstep.mapped
        rw [← he, hnone] at hmapped
        cases hmapped
      refine ⟨v,by simp [hv],(hstep.flags v hvw).symm.trans hf,?_,fun frame byte content hm => ?_⟩
      · rw [← hstep.others _ hblock]
        exact hnone
      · rcases List.mem_append.mp hm with hm | hm
        · exact hno frame byte content hm
        · simp [copyEvent] at hm
          exact hblock hm.2.1
  | @stop w ws s hflag hnone hfail =>
    exact ⟨[],rfl,by simp,fun _ => ⟨w,by simp,hflag,hnone,by simp⟩⟩

omit [Zero Page] in
theorem copy_event_written (s : Server Page) (w : ℕ) :
    (copyEvent s w).written = some (entry s w) := by
  have hpage : 2^18*blockIn s w+byteOf (pageOffset (s.rw w).wc.immData)/4096 =
      pageOffset (s.rw w).wc.immData := by
    unfold blockIn blockOf byteOf
    omega
  rw [copyEvent, Event.written, hpage, entry]

theorem Walk.replays (h : Walk alloc ws s t complete) {new : List (Event Page)}
    (hlog : t.log = new++s.log) :
    t.pageAt = KeyedLog.replay (new.reverse.filterMap Event.written) s.pageAt := by
  induction h generalizing new with
  | done =>
    obtain rfl : new = [] := by simpa using hlog
    rfl
  | skip hflag hrest ih => exact ih hlog
  | @copy w ws s u t complete hflag hstep hgot hrest ih =>
    obtain ⟨rest,hu,-⟩ := hrest.copies
    obtain rfl : new = rest++[copyEvent s w] := by
      refine List.append_cancel_right (hlog.symm.trans (hu.trans ?_))
      rw [hstep.log, List.append_assoc]
      rfl
    rw [ih hu, hstep.pages, List.reverse_append, List.reverse_singleton, List.singleton_append,
      List.filterMap_cons, copy_event_written]
    rfl
  | stop hflag hnone hfail =>
    obtain rfl : new = [] := by simpa using hlog
    rfl

end Maruswap.CommitWalk
