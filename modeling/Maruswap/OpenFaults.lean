import Maruswap.MulticastLoop
import Maruswap.ServerBookkeeping

/-!
# OPEN without memory

`__process_rdma_rpc_open` does not look at the result of `add_memblock`: it reads
through the entry all the same, where `ib_convey_page` returns. The handler with
`memblock_lock` and what it reads recorded, over messages whose allocations may fail.
A read through an entry that is not there, and an index past the table, halt the
server.
-/

set_option autoImplicit false

namespace Maruswap.OpenFaults
open WireFormat GuardedRun ServerBookkeeping
open ServerHandlers hiding processRdmaRpcOpen

variable {Page : Type*}

/-- A read through the memory region of block `n`, if there is one, and an index past
the table. -/
inductive Access where
  | through (n : ℕ) (mr : Option (ℕ × U32))
  | past (n : ℕ)
  deriving DecidableEq

/-- `bare` tells that block 0 is in the table without a memory region:
`alloc_rdma_memory_handler` puts it there and does not look whether `set_memblock`
succeeded. `held` is `memblock_lock`. -/
structure Watched (Page : Type*) extends Server Page where
  bare : Bool
  held : Bool
  halted : Bool
  accesses : List Access

def region (s : Server Page) (n : ℕ) : Option (ℕ × U32) :=
  (s.memblocks n).map fun mb => (mb.buffer,mb.rkey)

def Watched.mr (s : Watched Page) (n : ℕ) : Option (ℕ × U32) :=
  if s.bare = true ∧ n = 0 then none else region s.toServer n

def halt (s : Watched Page) : Watched Page := { s with halted := true }

section Handler
variable [Zero Page]

/-- The lock is taken, and the block added if it is not there. -/
def prepare (a : AllocResult) (n : ℕ) (s : Watched Page) : Watched Page :=
  { s with
    toServer := if (s.memblocks n).isNone then (addMemblock a n s.toServer).2 else s.toServer
    held := true }

/-- Address and rkey are read one after the other. The word is never refused; if it
were, the lock would be kept. -/
def processRdmaRpcOpen (a : AllocResult) (header : U32) (s : Watched Page) : Watched Page :=
  match interpretHeader header with
  | none => { s with held := true }
  | some hd =>
    if hd.nrBlock < maxMemblock then
      let t := prepare a hd.nrBlock s
      match t.mr hd.nrBlock with
      | none => halt { t with accesses := .through hd.nrBlock none::t.accesses }
      | some mr => { t with
          toServer := t.emit (.opened header mr.1 mr.2)
          held := false
          accesses := .through hd.nrBlock (some mr)::.through hd.nrBlock (some mr)::t.accesses }
    else halt { s with held := true, accesses := .past hd.nrBlock::s.accesses }

/-- The messages of `ServerBookkeeping`. An OPEN waits for the lock; a frame for a
block past the table has no outcome either. -/
def step : Message Page → Watched Page → Option (Watched Page)
  | .openBlock header a, s =>
    if s.halted = false ∧ s.held = false ∧ ibGetOpcode header = opcodeOpen then
      some (processRdmaRpcOpen a header s)
    else none
  | .flow header payload w a, s =>
    if s.halted = false ∧ ibGetOpcode header = multicastOpcodeFlow ∧ w ∈ s.posted then
      some (if InTable header then { s with
        toServer := processMulticastRpcFlow a ⟨header,w,0⟩ (deliver w payload s.toServer) }
      else halt s)
    else none
  | .commit immData alloc, s =>
    if s.halted = false ∧
        (ibGetOpcode immData = opcodeCommit ∨ ibGetOpcode immData = opcodeQcommit) then
      (processRdmaRpcCommit alloc immData s.toServer).map fun t => { s with toServer := t }
    else none

/-- After `alloc_rdma_memory_handler`, where `ibv_reg_mr` for block 0 may have failed. If
`alloc_memblock` fails there, `set_memblock` writes through NULL, and no message comes. -/
def initWatched (buffer : ℕ) (regMr : Option U32) : Watched Page where
  toServer := initServer buffer (regMr.getD 0#32)
  bare := regMr.isNone
  held := false
  halted := false
  accesses := []

end Handler

/-! Handlers that fault nowhere, and what they are given. -/

/-- Every OPEN has read through a block of the table, has replied with what is there
under its block, and has released the lock. -/
structure OpensSafely (s : Watched Page) : Prop where
  filled : ∀ n mr, .through n mr ∈ s.accesses → mr.isSome
  inside : ∀ n, .past n ∉ s.accesses
  replies : ∀ immData addr rkey, .opened immData addr rkey ∈ s.log →
    s.mr (blockOf (pageOffset immData)) = some (addr,rkey)
  released : s.held = false

/-- The block of an OPEN is in the table with its memory region, or it belongs there
and memory is had for it. -/
def Provided : Message Page → Watched Page → Prop
  | .openBlock header a, s => InTable header ∧
    ((s.memblocks (blockOf (pageOffset header))).isSome →
      (s.mr (blockOf (pageOffset header))).isSome) ∧
    (s.memblocks (blockOf (pageOffset header)) = none → a.Succeeds)
  | _, _ => True

instance (a : AllocResult) : Decidable a.Succeeds := inferInstanceAs (Decidable (_ ∧ _))

instance (m : Message Page) (s : Watched Page) : Decidable (Provided m s) :=
  match m with
  | .openBlock header a => inferInstanceAs (Decidable (InTable header ∧
      ((s.memblocks (blockOf (pageOffset header))).isSome →
        (s.mr (blockOf (pageOffset header))).isSome) ∧
      (s.memblocks (blockOf (pageOffset header)) = none → a.Succeeds)))
  | .flow _ _ _ _ => .isTrue trivial
  | .commit _ _ => .isTrue trivial

/-! What the other handlers leave alone. -/

def opens : Event Page → Bool
  | .opened _ _ _ => true
  | _ => false

structure Quiet (s t : Server Page) : Prop where
  region : ∀ n mr, region s n = some mr → region t n = some mr
  log : ∀ e ∈ t.log, opens e = true → e ∈ s.log

variable {s t u : Server Page}

theorem Quiet.refl (s : Server Page) : Quiet s s := ⟨fun _ _ h => h,fun _ h _ => h⟩

theorem Quiet.trans (h : Quiet s t) (k : Quiet t u) : Quiet s u :=
  ⟨fun n mr hn => k.region n mr (h.region n mr hn),
    fun e he ho => h.log e (k.log e he ho) ho⟩

theorem quiet_log (hregion : region t = region s) {e : Event Page} (he : opens e = false)
    (hlog : t.log = e::s.log) : Quiet s t := by
  refine ⟨fun n mr hn => by rwa [hregion],fun d hd ho => ?_⟩
  rw [hlog] at hd
  rcases List.mem_cons.mp hd with rfl | hd
  · rw [he] at ho
    cases ho
  · exact hd

section Quiet
variable [Zero Page]

theorem add_memblock_quiet (a : AllocResult) (id : ℕ) (s : Server Page) :
    Quiet s (addMemblock a id s).2 := by
  unfold addMemblock
  split
  · exact Quiet.refl s
  · next habsent =>
    split
    · refine ⟨fun n mr hn => ?_,fun _ h _ => h⟩
      have hne : n ≠ id := by
        rintro rfl
        simp [region] at hn habsent
        simp [habsent] at hn
      simpa [region, hne] using hn
    · exact Quiet.refl s

theorem add_memblock_region (a : AllocResult) (id : ℕ) (s : Server Page)
    (h : s.memblocks id = none) :
    (region (addMemblock a id s).2 id).isSome = true ↔ a.Succeeds := by
  unfold addMemblock
  simp only [h, Option.isSome_none, Bool.false_eq_true, if_false]
  cases hm : a.mmap <;> cases hr : a.regMr <;> simp [region, AllocResult.Succeeds, hm, hr, h]

omit [Zero Page] in
theorem copy_page_quiet (wc : Wc) (n byte : ℕ) (s : Server Page) :
    Quiet s (copyPage wc n byte s) := by
  refine quiet_log (funext fun m => ?_) rfl rfl
  by_cases hm : m = n
  · subst hm
    cases h : s.memblocks m <;> simp [region, copyPage, h]
  · simp [region, copyPage, hm]

theorem convey_quiet (a : AllocResult) (wc : Wc) (s : Server Page) :
    Quiet s (ibConveyPage a wc s).2 := by
  obtain ⟨off,hd,-⟩ := interpret_header_eq wc.immData
  simp only [ibConveyPage, hd]
  split_ifs
  · exact (add_memblock_quiet a _ s).trans (copy_page_quiet wc _ _ _)
  · exact add_memblock_quiet a _ s
  · exact copy_page_quiet wc _ _ s
  · exact Quiet.refl s

theorem flow_quiet (a : AllocResult) (wc : Wc) (payload : Page) (s : Server Page) :
    Quiet s (processMulticastRpcFlow a wc (deliver wc.wrId payload s)) := by
  have harrived : Quiet s (flowListAdd wc (deliver wc.wrId payload s)) :=
    ⟨fun _ _ h => h,fun _ h _ => h⟩
  rw [processMulticastRpcFlow, flowConvey]
  split_ifs
  · exact harrived
  · exact harrived.trans (convey_quiet a wc _)

theorem walk_quiet (alloc : ℕ → AllocResult) (ws : List ℕ) (s : Server Page) :
    Quiet s (commitWalk alloc ws s) := by
  induction ws generalizing s with
  | nil => exact Quiet.refl s
  | cons w ws ih =>
    rw [commitWalk]
    split_ifs
    · exact ih s
    · have hconvey := convey_quiet (alloc w) (s.rw w).wc s
      dsimp only
      split_ifs
      · exact hconvey.trans (ih _)
      · exact hconvey

omit [Zero Page] in
theorem drain_quiet (ws : List ℕ) (s : Server Page) : Quiet s (drain ws s) := by
  induction ws generalizing s with
  | nil => exact Quiet.refl s
  | cons w ws ih =>
    rw [drain]
    refine Quiet.trans ?_ (ih _)
    exact quiet_log (e := .repost (s.rw w).wc.frame) rfl rfl rfl

theorem commit_quiet {alloc : ℕ → AllocResult} {immData : U32}
    (h : processRdmaRpcCommit alloc immData s = some t) : Quiet s t := by
  unfold processRdmaRpcCommit at h
  split_ifs at h
  · obtain rfl := Option.some.inj h
    exact quiet_log rfl rfl rfl
  · obtain rfl := Option.some.inj h
    have hwalk := walk_quiet alloc s.commitList s
    have hdrain := hwalk.trans (drain_quiet (commitWalk alloc s.commitList s).commitList _)
    have hregion : Quiet s (commitRegion alloc s) :=
      hdrain.trans (quiet_log (e := .reset) rfl rfl rfl)
    exact hregion.trans (quiet_log (e := .committed immData) rfl rfl rfl)

end Quiet

/-! An OPEN, by what it finds. -/

section Opening
variable [Zero Page] {a : AllocResult} {header : U32} {m : Message Page} {v w : Watched Page}

theorem prepare_quiet (a : AllocResult) (n : ℕ) (v : Watched Page) :
    Quiet v.toServer (prepare a n v).toServer := by
  simp only [prepare]
  split
  · exact add_memblock_quiet a n v.toServer
  · exact Quiet.refl v.toServer

/-- Block 0 has been in the table from the start, so that what is added is there with
its memory region. -/
theorem prepare_mr_iff (a : AllocResult) (n : ℕ) (hzero : (v.memblocks 0).isSome) :
    ((prepare a n v).mr n).isSome = true ↔
      ((v.memblocks n).isSome → (v.mr n).isSome) ∧ (v.memblocks n = none → a.Succeeds) := by
  cases hm : v.memblocks n with
  | some mb =>
    have hprepare : (prepare a n v).mr n = v.mr n := by simp [prepare, Watched.mr, hm]
    simp [hprepare]
  | none =>
    have hn : n ≠ 0 := by
      rintro rfl
      simp [hm] at hzero
    have hprepare : (prepare a n v).mr n = region (addMemblock a n v.toServer).2 n := by
      simp [prepare, Watched.mr, hm, hn]
    rw [hprepare, add_memblock_region a n v.toServer hm]
    simp

inductive Opening (a : AllocResult) (header : U32) (v : Watched Page) : Watched Page → Prop where
  | past (hout : ¬InTable header) : Opening a header v (halt { v with
      held := true, accesses := .past (blockOf (pageOffset header))::v.accesses })
  | empty (hin : InTable header)
      (hmr : (prepare a (blockOf (pageOffset header)) v).mr (blockOf (pageOffset header)) = none) :
      Opening a header v (halt { prepare a (blockOf (pageOffset header)) v with
        accesses := .through (blockOf (pageOffset header)) none::v.accesses })
  | served {mr : ℕ × U32} (hin : InTable header)
      (hmr : (prepare a (blockOf (pageOffset header)) v).mr (blockOf (pageOffset header)) =
        some mr) :
      Opening a header v { prepare a (blockOf (pageOffset header)) v with
        toServer := (prepare a (blockOf (pageOffset header)) v).emit (.opened header mr.1 mr.2)
        held := false
        accesses := .through (blockOf (pageOffset header)) (some mr)::
          .through (blockOf (pageOffset header)) (some mr)::v.accesses }

theorem open_opening (a : AllocResult) (header : U32) (v : Watched Page) :
    Opening a header v (processRdmaRpcOpen a header v) := by
  obtain ⟨off,hd,-⟩ := interpret_header_eq header
  simp only [processRdmaRpcOpen, hd]
  by_cases hin : blockOf (pageOffset header) < maxMemblock
  · rw [if_pos hin]
    cases hmr : (prepare a (blockOf (pageOffset header)) v).mr (blockOf (pageOffset header)) with
    | none => exact .empty hin hmr
    | some mr => exact .served hin hmr
  · rw [if_neg hin]
    exact .past hin

/-! What stays true whatever fails. -/

/-- Block 0 is in the table, and what was replied for a block is there. -/
structure Kept (v : Watched Page) : Prop where
  zero : (v.memblocks 0).isSome
  replies : ∀ immData addr rkey, .opened immData addr rkey ∈ v.log →
    v.mr (blockOf (pageOffset immData)) = some (addr,rkey)

omit [Zero Page] in
theorem mr_kept (h : Quiet v.toServer w.toServer) (hbare : w.bare = v.bare) {n : ℕ}
    {mr : ℕ × U32} (hn : v.mr n = some mr) : w.mr n = some mr := by
  obtain ⟨hno,hn⟩ := Option.ite_none_left_eq_some.mp hn
  rw [Watched.mr, hbare, if_neg hno]
  exact h.region n mr hn

omit [Zero Page] in
theorem Kept.quiet (hv : Kept v) (h : Quiet v.toServer w.toServer) (hbare : w.bare = v.bare) :
    Kept w where
  zero := by
    obtain ⟨mb,hmb⟩ := Option.isSome_iff_exists.mp hv.zero
    have hw := h.region 0 (mb.buffer,mb.rkey) (by rw [region, hmb]; rfl)
    obtain ⟨mb',hmb',-⟩ := Option.map_eq_some_iff.mp hw
    exact hmb' ▸ rfl
  replies := fun immData addr rkey he =>
    mr_kept h hbare (hv.replies immData addr rkey (h.log _ he rfl))

theorem open_kept (hv : Kept v) (h : Opening a header v w) : Kept w := by
  have hprepare : Kept (prepare a (blockOf (pageOffset header)) v) :=
    hv.quiet (prepare_quiet a _ v) rfl
  cases h with
  | past hout => exact ⟨hv.zero,hv.replies⟩
  | empty hin hmr => exact ⟨hprepare.zero,hprepare.replies⟩
  | @served mr hin hmr =>
    refine ⟨hprepare.zero,fun immData addr rkey he => ?_⟩
    rcases List.mem_cons.mp he with he | he
    · cases he
      exact hmr
    · exact hprepare.replies immData addr rkey he

theorem step_kept (m : Message Page) (v w : Watched Page) (hv : Kept v)
    (h : step m v = some w) : Kept w := by
  cases m with
  | openBlock header a =>
    obtain ⟨-,h⟩ := Option.ite_none_right_eq_some.mp h
    exact Option.some.inj h ▸ open_kept hv (open_opening a header v)
  | flow header payload r a =>
    obtain ⟨-,h⟩ := Option.ite_none_right_eq_some.mp h
    obtain rfl := Option.some.inj h
    split
    · exact hv.quiet (flow_quiet a ⟨header,r,0⟩ payload v.toServer) rfl
    · exact ⟨hv.zero,hv.replies⟩
  | commit immData alloc =>
    obtain ⟨-,h⟩ := Option.ite_none_right_eq_some.mp h
    obtain ⟨t,ht,rfl⟩ := Option.map_eq_some_iff.mp h
    exact hv.quiet (commit_quiet ht) rfl

/-! As long as nothing halts, the server is that of `ServerBookkeeping`. -/

theorem step_halted (m : Message Page) (hv : v.halted = true) : step m v = none := by
  cases m <;> simp [step, hv]

theorem rdma_rpc_open_eq (a : AllocResult) (header : U32) (v : Watched Page) :
    ServerHandlers.processRdmaRpcOpen a header v.toServer =
      (region (prepare a (blockOf (pageOffset header)) v).toServer
        (blockOf (pageOffset header))).map fun mr =>
          (prepare a (blockOf (pageOffset header)) v).emit (.opened header mr.1 mr.2) := by
  obtain ⟨off,hd,-⟩ := interpret_header_eq header
  simp only [ServerHandlers.processRdmaRpcOpen, hd, region, prepare, Option.map_map]
  rfl

theorem opening_erases (h : Opening a header v w) (hw : w.halted = false) :
    ServerHandlers.processRdmaRpcOpen a header v.toServer = some w.toServer := by
  rw [rdma_rpc_open_eq]
  cases h with
  | past hout => cases hw
  | empty hin hmr => cases hw
  | @served mr hin hmr =>
    obtain ⟨-,hregion⟩ := Option.ite_none_left_eq_some.mp hmr
    rw [hregion]
    rfl

theorem step_erases (h : step m v = some w) (hw : w.halted = false) :
    ServerBookkeeping.step m v.toServer = some w.toServer := by
  cases m with
  | openBlock header a =>
    obtain ⟨⟨-,-,hop⟩,h⟩ := Option.ite_none_right_eq_some.mp h
    have hopening := Option.some.inj h ▸ open_opening a header v
    have hin : InTable header := by
      cases hopening with
      | past hout => cases hw
      | empty hin hmr => exact hin
      | served hin hmr => exact hin
    exact (if_pos ⟨hop,hin⟩).trans (opening_erases hopening hw)
  | flow header payload r a =>
    obtain ⟨⟨-,hop,hr⟩,h⟩ := Option.ite_none_right_eq_some.mp h
    obtain rfl := Option.some.inj h
    by_cases hin : InTable header
    · rw [if_pos hin]
      exact if_pos ⟨hop,hin,hr⟩
    · rw [if_neg hin] at hw
      cases hw
  | commit immData alloc =>
    obtain ⟨⟨-,hop⟩,h⟩ := Option.ite_none_right_eq_some.mp h
    obtain ⟨t,ht,rfl⟩ := Option.map_eq_some_iff.mp h
    exact (if_pos hop).trans ht

theorem run_erases (ms : List (Message Page)) (h : run step ms v = some w)
    (hw : w.halted = false) : run ServerBookkeeping.step ms v.toServer = some w.toServer := by
  induction ms generalizing v with
  | nil => exact Option.some.inj h ▸ rfl
  | cons m ms ih =>
    obtain ⟨u,hu,hrest⟩ := run_cons.mp h
    have hrunning : u.halted = false := by
      cases ms with
      | nil => exact Option.some.inj hrest ▸ hw
      | cons m' ms =>
        obtain ⟨x,hx,-⟩ := run_cons.mp hrest
        rw [← Bool.not_eq_true]
        intro hhalted
        rw [step_halted m' hhalted] at hx
        cases hx
    exact run_cons.mpr ⟨u.toServer,step_erases hu hrunning,ih hrest⟩

structure Ready (v : Watched Page) : Prop where
  bare : v.bare = false
  held : v.held = false
  halted : v.halted = false

theorem step_lifts (hv : Ready v) {t : Server Page}
    (h : ServerBookkeeping.step m v.toServer = some t) :
    ∃ w, step m v = some w ∧ w.toServer = t ∧ Ready w := by
  cases m with
  | openBlock header a =>
    obtain ⟨⟨hop,hin⟩,h⟩ := Option.ite_none_right_eq_some.mp h
    refine ⟨_,if_pos ⟨hv.halted,hv.held,hop⟩,?_⟩
    rw [rdma_rpc_open_eq] at h
    obtain ⟨mr,hregion,ht⟩ := Option.map_eq_some_iff.mp h
    have hmr : (prepare a (blockOf (pageOffset header)) v).mr (blockOf (pageOffset header)) =
        some mr := by
      have hbare : (prepare a (blockOf (pageOffset header)) v).bare = false := hv.bare
      rw [Watched.mr, if_neg (by simp [hbare]), hregion]
    have hopening := open_opening a header v
    generalize processRdmaRpcOpen a header v = w at hopening ⊢
    cases hopening with
    | past hout => exact absurd hin hout
    | empty hin' hnone =>
      rw [hmr] at hnone
      cases hnone
    | served hin' hsome =>
      obtain rfl := Option.some.inj (hmr.symm.trans hsome)
      exact ⟨ht,hv.bare,rfl,hv.halted⟩
  | flow header payload r a =>
    obtain ⟨⟨hop,hin,hr⟩,h⟩ := Option.ite_none_right_eq_some.mp h
    refine ⟨_,if_pos ⟨hv.halted,hop,hr⟩,?_⟩
    rw [if_pos hin]
    exact ⟨Option.some.inj h,hv.bare,hv.held,hv.halted⟩
  | commit immData alloc =>
    obtain ⟨hop,h⟩ := Option.ite_none_right_eq_some.mp h
    refine ⟨{ v with toServer := t },?_,rfl,hv.bare,hv.held,hv.halted⟩
    refine (if_pos ⟨hv.halted,hop⟩).trans ?_
    rw [h, Option.map_some]

theorem run_lifts (ms : List (Message Page)) (hv : Ready v) {t : Server Page}
    (h : run ServerBookkeeping.step ms v.toServer = some t) :
    ∃ w, run step ms v = some w ∧ w.toServer = t ∧ Ready w := by
  induction ms generalizing v with
  | nil => exact ⟨v,rfl,Option.some.inj h,hv⟩
  | cons m ms ih =>
    obtain ⟨u,hu,hrest⟩ := run_cons.mp h
    obtain ⟨x,hx,rfl,hready⟩ := step_lifts hv hu
    obtain ⟨w,hw,ht⟩ := ih hready hrest
    exact ⟨w,run_cons.mpr ⟨x,hx,hw⟩,ht⟩

/-! The reads. -/

structure Reads (v : Watched Page) : Prop where
  filled : ∀ n mr, .through n mr ∈ v.accesses → mr.isSome
  inside : ∀ n, .past n ∉ v.accesses
  released : v.held = false

theorem open_reads (hv : Kept v) (hr : Reads v) (h : Opening a header v w) :
    Provided (.openBlock header a) v ∧ Reads w ∨
      ¬Provided (.openBlock header a) v ∧ w.held = true ∧ w.halted = true := by
  have hiff := prepare_mr_iff (v := v) a (blockOf (pageOffset header)) hv.zero
  cases h with
  | past hout => exact .inr ⟨fun hp => hout hp.1,rfl,rfl⟩
  | empty hin hmr =>
    refine .inr ⟨fun hp => ?_,rfl,rfl⟩
    have hsome := hiff.mpr hp.2
    rw [hmr] at hsome
    cases hsome
  | @served mr hin hmr =>
    refine .inl ⟨⟨hin,hiff.mp (by rw [hmr]; rfl)⟩,fun n mr' hm => ?_,fun n hm => ?_,rfl⟩
    · rcases List.mem_cons.mp hm with he | hm
      · cases he
        rfl
      · rcases List.mem_cons.mp hm with he | hm
        · cases he
          rfl
        · exact hr.filled n mr' hm
    · simp only [List.mem_cons, reduceCtorEq, false_or] at hm
      exact hr.inside n hm

theorem step_reads (m : Message Page) (hv : Kept v) (hr : Reads v) (h : step m v = some w) :
    Provided m v ∧ Reads w ∨ ¬Provided m v ∧ w.held = true ∧ w.halted = true := by
  cases m with
  | openBlock header a =>
    obtain ⟨-,h⟩ := Option.ite_none_right_eq_some.mp h
    exact open_reads hv hr (Option.some.inj h ▸ open_opening a header v)
  | flow header payload r a =>
    obtain ⟨-,h⟩ := Option.ite_none_right_eq_some.mp h
    obtain rfl := Option.some.inj h
    refine .inl ⟨trivial,?_⟩
    split <;> exact ⟨hr.filled,hr.inside,hr.released⟩
  | commit immData alloc =>
    obtain ⟨-,h⟩ := Option.ite_none_right_eq_some.mp h
    obtain ⟨t,ht,rfl⟩ := Option.map_eq_some_iff.mp h
    exact .inl ⟨trivial,hr.filled,hr.inside,hr.released⟩

theorem run_reads (ms : List (Message Page)) (hv : Kept v) (hr : Reads v)
    (h : run step ms v = some w) : Kept w ∧ (Meets step Provided ms v ∧ Reads w ∨
      ¬Meets step Provided ms v ∧ w.held = true ∧ w.halted = true) := by
  induction ms generalizing v with
  | nil => exact Option.some.inj h ▸ ⟨hv,.inl ⟨trivial,hr⟩⟩
  | cons m ms ih =>
    obtain ⟨u,hu,hrest⟩ := run_cons.mp h
    have hk := step_kept m v u hv hu
    rcases step_reads m hv hr hu with ⟨hp,hr'⟩ | ⟨hp,hheld,hhalted⟩
    · obtain ⟨hw,hrun⟩ := ih hk hr' hrest
      refine ⟨hw,hrun.imp (fun hm => ⟨⟨hp,fun x hx => ?_⟩,hm.2⟩) fun hm => ⟨fun hmeets => ?_,hm.2⟩⟩
      · exact Option.some.inj (hu.symm.trans hx) ▸ hm.1
      · exact hm.1 (hmeets.2 u hu)
    · cases ms with
      | nil =>
        obtain rfl := Option.some.inj hrest
        exact ⟨hk,.inr ⟨fun hmeets => hp hmeets.1,hheld,hhalted⟩⟩
      | cons m' ms =>
        obtain ⟨x,hx,-⟩ := run_cons.mp hrest
        rw [step_halted m' hhalted] at hx
        cases hx

theorem init_kept (buffer : ℕ) (regMr : Option U32) :
    Kept (initWatched buffer regMr : Watched Page) where
  zero := by simp [initWatched, initServer]
  replies := by simp [initWatched, initServer]

theorem init_reads (buffer : ℕ) (regMr : Option U32) :
    Reads (initWatched buffer regMr : Watched Page) where
  filled := by simp [initWatched]
  inside := by simp [initWatched]
  released := rfl

/-- Over every sequence of messages, with any of the allocations failing, also the
first: no OPEN reads through an entry that is not there, and every one replies with
its block and releases the lock, exactly if every OPEN finds its block in the table or
memory for it. Whatever happens, what is replied is in the table, the lock is released
by a handler that returns, and a failed `add_memblock` changes nothing. -/
theorem open_safe_iff (buffer : ℕ) (regMr : Option U32) (ms : List (Message Page))
    (s : Watched Page) (h : run step ms (initWatched buffer regMr) = some s) :
    (OpensSafely s ↔ Meets step Provided ms (initWatched buffer regMr)) ∧
    (∀ immData addr rkey, .opened immData addr rkey ∈ s.log →
      s.mr (blockOf (pageOffset immData)) = some (addr,rkey)) ∧
    (s.halted = false → s.held = false) ∧
    ∀ (a : AllocResult) (id : ℕ) (t : Server Page), (addMemblock a id t).1 = false →
      (addMemblock a id t).2 = t := by
  obtain ⟨hkept,hrun⟩ := run_reads ms (init_kept buffer regMr) (init_reads buffer regMr) h
  refine ⟨?_,hkept.replies,fun hrunning => ?_,fun a id t hf => (add_memblock_fails a id t hf).1⟩
  · rcases hrun with ⟨hm,hr⟩ | ⟨hm,hheld,-⟩
    · exact iff_of_true ⟨hr.filled,hr.inside,hkept.replies,hr.released⟩ hm
    · refine iff_of_false (fun hs => ?_) hm
      rw [hs.released] at hheld
      cases hheld
  · rcases hrun with ⟨-,hr⟩ | ⟨-,-,hhalted⟩
    · exact hr.released
    · rw [hrunning] at hhalted
      cases hhalted

end Opening

/-- Block 1 is opened, and block 2 after a frame for it has been conveyed by a commit. -/
def sampleMessages (a : AllocResult) : List (Message ℕ) :=
  [.openBlock (openWord 0x40000#32) a,.flow (flowHeader 0x80000#32) 7 0 ⟨none,none⟩,
    .commit (qcommitWord 0#32) fun _ => ⟨some 8192,some 5#32⟩,
    .openBlock (openWord 0x80000#32) ⟨none,none⟩]

theorem open_safe_iff_sample : ∃ s,
    run step (sampleMessages ⟨some 4096,some 9#32⟩) (initWatched 0 (some 1#32)) = some s ∧
      s.mr 2 = some (8192,5#32) ∧ OpensSafely s := by
  have hrun : (run step (sampleMessages ⟨some 4096,some 9#32⟩)
      (initWatched 0 (some 1#32))).map (fun s => s.mr 2) = some (some (8192,5#32)) := by
    decide +kernel
  obtain ⟨s,hs,hmr⟩ := Option.map_eq_some_iff.mp hrun
  exact ⟨s,hs,hmr,(open_safe_iff 0 (some 1#32) _ s hs).1.mpr (by decide +kernel)⟩

/-- Without memory for block 1 the first OPEN reads through NULL with the lock held;
and if block 0 could not be registered, so does every OPEN for it. -/
theorem open_reads_null :
    (∃ s, run step [.openBlock (openWord 0x40000#32) ⟨none,none⟩]
        (initWatched 0 (some 1#32) : Watched ℕ) = some s ∧
      s.accesses = [.through 1 none] ∧ s.held = true ∧ ¬OpensSafely s) ∧
    ∃ s, run step [.openBlock (openWord 0#32) ⟨some 4096,some 9#32⟩]
        (initWatched 0 none : Watched ℕ) = some s ∧
      s.accesses = [.through 0 none] ∧ ¬OpensSafely s := by
  have hbad : ∀ {s : Watched ℕ} {n : ℕ}, s.accesses = [.through n none] → ¬OpensSafely s := by
    intro s n hs hsafe
    have hsome := hsafe.filled n none (by simp [hs])
    cases hsome
  constructor
  · have hrun : (run step [.openBlock (openWord 0x40000#32) ⟨none,none⟩]
        (initWatched 0 (some 1#32) : Watched ℕ)).map (fun s => (s.accesses,s.held)) =
          some ([.through 1 none],true) := by decide +kernel
    obtain ⟨s,hs,he⟩ := Option.map_eq_some_iff.mp hrun
    obtain ⟨haccesses,hheld⟩ := Prod.mk.inj he
    exact ⟨s,hs,haccesses,hheld,hbad haccesses⟩
  · have hrun : (run step [.openBlock (openWord 0#32) ⟨some 4096,some 9#32⟩]
        (initWatched 0 none : Watched ℕ)).map (fun s => s.accesses) =
          some [.through 0 none] := by decide +kernel
    obtain ⟨s,hs,he⟩ := Option.map_eq_some_iff.mp hrun
    exact ⟨s,hs,he,hbad he⟩

end Maruswap.OpenFaults
