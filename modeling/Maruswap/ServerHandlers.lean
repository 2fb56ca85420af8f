import Maruswap.WireFormat
import Maruswap.KeyedLog

/-!
# The memory server's handlers

One connection of the server: the memblocks and commit list of its handler
pair, and the receive works of the multicast queue pair. Every handler body is
a function of the whole state. The outcomes of `mmap` and `ibv_reg_mr` are
arguments. A block number past the table and a read through a missing memblock
have no defined outcome, and the step has no value there.
-/

set_option autoImplicit false

namespace Maruswap.ServerHandlers
open WireFormat

variable {Page : Type*}

/-- The block number a header decodes to is an index of `memblocks`. -/
def InTable (header : U32) : Prop := blockOf (pageOffset header) < maxMemblock

instance (header : U32) : Decidable (InTable header) := Nat.decLt _ _

/-- `CONFIG_BATCH` of include/rpc.h. -/
def configBatch : ℕ := 2^9

/-- `MCM_MAX_RECV_WR`, the receive works posted for multicast. -/
def mcmMaxRecvWr : ℕ := 2^12

/-- A receive completion. The frame number is a ghost: it tells apart frames
with the same header and payload, and no branch reads it. -/
structure Wc where
  immData : U32
  wrId : ℕ
  frame : ℕ

/-- `buffer` is the page behind the `UD_EXTRA` bytes. -/
structure RecvWork (Page : Type*) where
  buffer : Page
  wc : Wc
  convey : Bool

structure Memblock (Page : Type*) where
  memblockId : ℕ
  buffer : ℕ
  rkey : U32
  pages : ℕ → Page

/-- What the handlers do to memory, to the queue pair and to the client. -/
inductive Event (Page : Type*) where
  | convey (frame block byte : ℕ) (content : Page)
  | repost (frame : ℕ)
  | reset
  | opened (immData : U32) (remoteAddr : ℕ) (rkey : U32)
  | committed (immData : U32)
  deriving DecidableEq

/-- The state of one handler pair; `log` has the latest event first. -/
structure Handler (Page : Type*) where
  memblocks : ℕ → Option (Memblock Page)
  memblockList : List ℕ
  batch : ℕ
  commitList : List ℕ
  log : List (Event Page)

structure Server (Page : Type*) extends Handler Page where
  rw : ℕ → RecvWork Page
  posted : List ℕ

/-- The address from `alloc_memblock` and the rkey from `set_memblock`. -/
structure AllocResult where
  mmap : Option ℕ
  regMr : Option U32

def AllocResult.Succeeds (a : AllocResult) : Prop := a.mmap.isSome ∧ a.regMr.isSome

def Server.emit (s : Server Page) (e : Event Page) : Server Page := { s with log := e::s.log }

def Event.written : Event Page → Option (ℕ × Page)
  | .convey _ block byte content => some (2^18*block+byte/4096,content)
  | _ => none

section Memory
variable [Zero Page]

/-- The content of a page, zero while its block is not mapped. -/
def Handler.pageAt (h : Handler Page) (P : ℕ) : Page :=
  match h.memblocks (blockOf P) with
  | some mb => mb.pages (byteOf P)
  | none => 0

def Replayed (s : Server Page) : Prop :=
  s.pageAt = KeyedLog.replay (s.log.reverse.filterMap Event.written) fun _ => 0

def addMemblock (a : AllocResult) (id : ℕ) (s : Server Page) : Bool × Server Page :=
  if (s.memblocks id).isSome then (true,s)
  else match a.mmap, a.regMr with
    | some buffer, some rkey => (true, { s with
        memblocks := Function.update s.memblocks id (some ⟨id,buffer,rkey,fun _ => 0⟩)
        memblockList := s.memblockList++[id] })
    | _, _ => (false,s)

/-- The copy at the end of `ib_convey_page`, with the flag and the counter. -/
def copyPage (wc : Wc) (nrBlock byte : ℕ) (s : Server Page) : Server Page :=
  let content := (s.rw wc.wrId).buffer
  { s with
    memblocks := Function.update s.memblocks nrBlock ((s.memblocks nrBlock).map
      fun mb => { mb with pages := Function.update mb.pages byte content })
    rw := Function.update s.rw wc.wrId { s.rw wc.wrId with convey := true }
    batch := s.batch+1
    log := .convey wc.frame nrBlock byte content::s.log }

def ibConveyPage (a : AllocResult) (wc : Wc) (s : Server Page) : Bool × Server Page :=
  match interpretHeader wc.immData with
  | none => (false,s)
  | some hd =>
    let r := if (s.memblocks hd.nrBlock).isNone then addMemblock a hd.nrBlock s else (true,s)
    if r.1 then (true,copyPage wc hd.nrBlock (byteOffset hd.offset) r.2) else r

/-- The handler locks `memblock_lock` for its whole body. -/
def processRdmaRpcOpen (a : AllocResult) (header : U32) (s : Server Page) :
    Option (Server Page) :=
  match interpretHeader header with
  | none => some s
  | some hd =>
    let t := if (s.memblocks hd.nrBlock).isNone then (addMemblock a hd.nrBlock s).2 else s
    (t.memblocks hd.nrBlock).map fun mb => t.emit (.opened header mb.buffer mb.rkey)

/-- The first half of `__process_multicast_rpc_flow`: the completion is saved
and the receive work put at the head of the commit list, before the lock. -/
def flowListAdd (wc : Wc) (s : Server Page) : Server Page :=
  { s with
    rw := Function.update s.rw wc.wrId { s.rw wc.wrId with wc := wc }
    commitList := wc.wrId::s.commitList }

/-- The second half, under `mmh->lock`. -/
def flowConvey (a : AllocResult) (wc : Wc) (s : Server Page) : Server Page :=
  if (s.rw wc.wrId).convey then s else (ibConveyPage a wc s).2

def processMulticastRpcFlow (a : AllocResult) (wc : Wc) (s : Server Page) : Server Page :=
  flowConvey a wc (flowListAdd wc s)

/-- The first walk of a commit; it breaks off at the first page that cannot be
conveyed. -/
def commitWalk (alloc : ℕ → AllocResult) : List ℕ → Server Page → Server Page
  | [], s => s
  | w::ws, s =>
    if (s.rw w).convey then commitWalk alloc ws s
    else
      let r := ibConveyPage (alloc w) (s.rw w).wc s
      if r.1 then commitWalk alloc ws r.2 else r.2

end Memory

/-- The second walk: every entry is cleared, posted again and unlinked. -/
def drain : List ℕ → Server Page → Server Page
  | [], s => s
  | w::ws, s => drain ws { s with
      rw := Function.update s.rw w { s.rw w with convey := false }
      posted := s.posted++[(s.rw w).wc.wrId]
      commitList := s.commitList.erase w
      log := .repost (s.rw w).wc.frame::s.log }

def resetBatch (s : Server Page) : Server Page := { s with batch := 0, log := .reset::s.log }

section Commit
variable [Zero Page]

/-- The region of `__process_rdma_rpc_commit` under `mmh->lock`. -/
def commitRegion (alloc : ℕ → AllocResult) (s : Server Page) : Server Page :=
  let t := commitWalk alloc s.commitList s
  resetBatch (drain t.commitList t)

/-- The value `rmh->batch` has to reach before a commit proceeds. -/
def commitNeed (immData : U32) : ℕ :=
  if immData >>> 28 = opcodeQcommit then ((immData >>> 8) &&& 0xfffff#32).toNat else configBatch

/-- The whole handler as one step. It has no value while the waiting loop spins. -/
def processRdmaRpcCommit (alloc : ℕ → AllocResult) (immData : U32) (s : Server Page) :
    Option (Server Page) :=
  if s.commitList = [] then some (s.emit (.committed immData))
  else if s.batch < commitNeed immData then none
  else some ((commitRegion alloc s).emit (.committed immData))

end Commit

/-- The queue pair writes a frame into a posted receive work. -/
def deliver (w : ℕ) (payload : Page) (s : Server Page) : Server Page :=
  { s with
    rw := Function.update s.rw w { s.rw w with buffer := payload }
    posted := s.posted.erase w }

/-- A fresh connection: `alloc_rdma_memory_handler` maps block 0, and
`alloc_multicast_memory_handler` posts its receive works. -/
def initServer [Zero Page] (buffer : ℕ) (rkey : U32) : Server Page where
  memblocks := Function.update (fun _ => none) 0 (some ⟨0,buffer,rkey,fun _ => 0⟩)
  memblockList := [0]
  batch := 0
  commitList := []
  log := []
  rw := fun w => ⟨0,⟨0,w,0⟩,false⟩
  posted := List.range mcmMaxRecvWr

section Effects
variable [Zero Page]

/-- A block is mapped and nothing a client can see has changed. -/
structure Provided (id : ℕ) (s t : Server Page) : Prop where
  mapped : (t.memblocks id).isSome
  pages : t.pageAt = s.pageAt
  rw_eq : t.rw = s.rw
  posted : t.posted = s.posted
  batch : t.batch = s.batch
  commitList : t.commitList = s.commitList
  log : t.log = s.log

theorem page_update_absent (s : Server Page) (id buffer : ℕ) (rkey : U32)
    (h : s.memblocks id = none) (P : ℕ) :
    Handler.pageAt { s.toHandler with
      memblocks := Function.update s.memblocks id (some ⟨id,buffer,rkey,fun _ => 0⟩) } P =
      s.pageAt P := by
  by_cases hid : blockOf P = id
  · simp [Handler.pageAt, hid, h]
  · simp [Handler.pageAt, hid]

theorem add_memblock_provided (a : AllocResult) (id : ℕ) (s : Server Page)
    (h : (addMemblock a id s).1 = true) : Provided id s (addMemblock a id s).2 := by
  unfold addMemblock at h ⊢
  split
  · next hs => exact ⟨hs,rfl,rfl,rfl,rfl,rfl,rfl⟩
  · next hs =>
    have hn : s.memblocks id = none := by simpa using hs
    split
    · refine ⟨by simp,?_,rfl,rfl,rfl,rfl,rfl⟩
      funext P
      exact page_update_absent s id _ _ hn P
    · next hx => simp_all

theorem add_memblock_fails (a : AllocResult) (id : ℕ) (s : Server Page)
    (h : (addMemblock a id s).1 = false) :
    (addMemblock a id s).2 = s ∧ s.memblocks id = none ∧ ¬ a.Succeeds := by
  unfold addMemblock at h ⊢
  split
  · next hs => simp [hs] at h
  · next hs =>
    have hn : s.memblocks id = none := by simpa using hs
    simp only [hn] at h
    cases hm : a.mmap <;> cases hr : a.regMr <;> simp_all [AllocResult.Succeeds]

theorem open_effect (header : U32) (a : AllocResult) (s t : Server Page)
    (h : processRdmaRpcOpen a header s = some t) :
    t.pageAt = s.pageAt ∧ t.rw = s.rw ∧ t.posted = s.posted ∧ t.batch = s.batch ∧
      t.commitList = s.commitList ∧
      ∃ remoteAddr rkey, t.log = .opened header remoteAddr rkey::s.log := by
  obtain ⟨off,hd,-⟩ := interpret_header_eq header
  simp only [processRdmaRpcOpen, hd, Option.map_eq_some_iff] at h
  obtain ⟨mb,hmb,rfl⟩ := h
  split
  · cases hadd : (addMemblock a (blockOf (pageOffset header)) s).1 with
    | true =>
      have hp := add_memblock_provided a _ s hadd
      exact ⟨hp.pages,hp.rw_eq,hp.posted,hp.batch,hp.commitList,_,_,
        congrArg (_::·) hp.log⟩
    | false =>
      obtain ⟨hs,-,-⟩ := add_memblock_fails a _ s hadd
      rw [hs]
      exact ⟨rfl,rfl,rfl,rfl,rfl,_,_,rfl⟩
  · exact ⟨rfl,rfl,rfl,rfl,rfl,_,_,rfl⟩

structure Conveyed (wc : Wc) (s t : Server Page) : Prop where
  mapped : (t.memblocks (blockOf (pageOffset wc.immData))).isSome
  pages : t.pageAt = KeyedLog.write s.pageAt (pageOffset wc.immData,(s.rw wc.wrId).buffer)
  rw_eq : t.rw = Function.update s.rw wc.wrId { s.rw wc.wrId with convey := true }
  posted : t.posted = s.posted
  batch : t.batch = s.batch+1
  commitList : t.commitList = s.commitList
  log : t.log = .convey wc.frame (blockOf (pageOffset wc.immData))
    (byteOf (pageOffset wc.immData)) (s.rw wc.wrId).buffer::s.log

theorem copy_page_conveyed (wc : Wc) (s t : Server Page)
    (h : Provided (blockOf (pageOffset wc.immData)) s t) :
    Conveyed wc s (copyPage wc (blockOf (pageOffset wc.immData))
      (byteOf (pageOffset wc.immData)) t) := by
  obtain ⟨mb,hmb⟩ := Option.isSome_iff_exists.mp h.mapped
  refine ⟨by simp [copyPage, hmb],?_,?_,h.posted,?_,h.commitList,?_⟩
  · funext P
    by_cases hP : P = pageOffset wc.immData
    · subst hP
      simp [Handler.pageAt, copyPage, hmb, KeyedLog.write, h.rw_eq]
    · rw [KeyedLog.write_ne _ hP, ← h.pages]
      by_cases hb : blockOf P = blockOf (pageOffset wc.immData)
      · have ho : byteOf P ≠ byteOf (pageOffset wc.immData) :=
          fun ho => hP (location_injective _ _ hb ho)
        simp [Handler.pageAt, copyPage, hmb, hb, ho]
      · simp [Handler.pageAt, copyPage, hb]
  · simp [copyPage, h.rw_eq]
  · simp [copyPage, h.batch]
  · simp [copyPage, h.log, h.rw_eq]

/-- `ib_convey_page` either conveys, or fails for want of memory and changes
nothing. -/
theorem ib_convey_page_cases (a : AllocResult) (wc : Wc) (s : Server Page) :
    ((ibConveyPage a wc s).1 = true ∧ Conveyed wc s (ibConveyPage a wc s).2) ∨
    (ibConveyPage a wc s = (false,s) ∧
      s.memblocks (blockOf (pageOffset wc.immData)) = none ∧ ¬ a.Succeeds) := by
  obtain ⟨off,hd,ho⟩ := interpret_header_eq wc.immData
  simp only [ibConveyPage, hd, ho]
  split
  · next hn =>
    cases hadd : (addMemblock a (blockOf (pageOffset wc.immData)) s).1 with
    | true => exact Or.inl ⟨rfl,copy_page_conveyed wc s _ (add_memblock_provided a _ s hadd)⟩
    | false =>
      obtain ⟨hs,hm,ha⟩ := add_memblock_fails a _ s hadd
      exact Or.inr ⟨Prod.ext hadd hs,hm,ha⟩
  · next hn =>
    have hm : (s.memblocks (blockOf (pageOffset wc.immData))).isSome := by
      simpa [Option.isSome_iff_ne_none] using hn
    exact Or.inl ⟨rfl,copy_page_conveyed wc s s ⟨hm,rfl,rfl,rfl,rfl,rfl,rfl⟩⟩

theorem Conveyed.replayed {wc : Wc} {s t : Server Page} (h : Conveyed wc s t)
    (hs : Replayed s) : Replayed t := by
  have hpage : 2^18*blockOf (pageOffset wc.immData)+byteOf (pageOffset wc.immData)/4096 =
      pageOffset wc.immData := by
    unfold blockOf byteOf
    omega
  rw [Replayed, h.pages, hs, h.log, List.reverse_cons, List.filterMap_append,
    KeyedLog.replay_append]
  simp only [List.filterMap_cons, Event.written, List.filterMap_nil, hpage]
  rfl

theorem Replayed.quiet {s t : Server Page} (hs : Replayed s) (hp : t.pageAt = s.pageAt)
    (es : List (Event Page)) (hl : t.log = es++s.log) (hes : ∀ e ∈ es, e.written = none) :
    Replayed t := by
  have hnone : es.reverse.filterMap Event.written = [] :=
    List.filterMap_eq_nil_iff.mpr fun e he => hes e (List.mem_reverse.mp he)
  rw [Replayed, hp, hs, hl, List.reverse_append, List.filterMap_append, hnone,
    List.append_nil]

theorem init_pages (buffer : ℕ) (rkey : U32) :
    (initServer buffer rkey : Server Page).pageAt = fun _ => 0 := by
  funext P
  by_cases hb : blockOf P = 0 <;> simp [Handler.pageAt, initServer, hb]

theorem init_replayed (buffer : ℕ) (rkey : U32) :
    Replayed (initServer buffer rkey : Server Page) :=
  init_pages buffer rkey

theorem ib_convey_page_conveyed (a : AllocResult) (wc : Wc) (s : Server Page)
    (ha : a.Succeeds) :
    (ibConveyPage a wc s).1 = true ∧ Conveyed wc s (ibConveyPage a wc s).2 := by
  rcases ib_convey_page_cases a wc s with h | ⟨_,_,hn⟩
  · exact h
  · exact absurd ha hn

theorem flow_convey_conveyed (a : AllocResult) (wc : Wc) (s : Server Page)
    (hflag : (s.rw wc.wrId).convey = false) (ha : a.Succeeds) :
    Conveyed wc s (flowConvey a wc s) := by
  rw [flowConvey, if_neg (by simp [hflag])]
  exact (ib_convey_page_conveyed a wc s ha).2

theorem walk_conveyed (alloc : ℕ → AllocResult) (ws : List ℕ) (s : Server Page)
    (h : ∀ w ∈ ws, (s.rw w).convey = true) : commitWalk alloc ws s = s := by
  induction ws with
  | nil => rfl
  | cons w ws ih =>
    rw [commitWalk, if_pos (h w (by simp))]
    exact ih (fun v hv => h v (by simp [hv]))

theorem walk_one (alloc : ℕ → AllocResult) (ws : List ℕ) (s : Server Page) (w : ℕ)
    (hn : ws.Nodup) (hw : w ∈ ws) (hid : (s.rw w).wc.wrId = w)
    (hflag : (s.rw w).convey = false)
    (hrest : ∀ v ∈ ws, v ≠ w → (s.rw v).convey = true) (ha : (alloc w).Succeeds) :
    Conveyed (s.rw w).wc s (commitWalk alloc ws s) := by
  induction ws with
  | nil => exact absurd hw (by simp)
  | cons v ws ih =>
    obtain ⟨hv,hn⟩ := List.nodup_cons.mp hn
    by_cases h : v = w
    · subst h
      obtain ⟨h1,hc⟩ := ib_convey_page_conveyed (alloc v) (s.rw v).wc s ha
      rw [commitWalk, if_neg (by simp [hflag]), if_pos h1, walk_conveyed]
      · exact hc
      · intro u hu
        have hne : u ≠ v := fun he => hv (he ▸ hu)
        rw [hc.rw_eq, hid]
        simp [hne, hrest u (by simp [hu]) hne]
    · rw [commitWalk, if_pos (hrest v (by simp) h)]
      exact ih hn (by simpa [Ne.symm h] using hw) (fun u hu => hrest u (by simp [hu]))

end Effects

def cleared (ws : List ℕ) (rw : ℕ → RecvWork Page) : ℕ → RecvWork Page :=
  fun w => if w ∈ ws then { rw w with convey := false } else rw w

@[simp] theorem cleared_nil (rw : ℕ → RecvWork Page) : cleared [] rw = rw := by
  funext w
  simp [cleared]

theorem cleared_cons (w : ℕ) (ws : List ℕ) (rw : ℕ → RecvWork Page) :
    cleared ws (Function.update rw w { rw w with convey := false }) = cleared (w::ws) rw := by
  funext v
  by_cases hv : v = w
  · subst hv
    by_cases hm : v ∈ ws <;> simp [cleared, hm]
  · by_cases hm : v ∈ ws <;> simp [cleared, hm, hv]

theorem drain_eq (ws : List ℕ) (s : Server Page) (h : s.commitList = ws) :
    drain ws s = { s with
      rw := cleared ws s.rw
      posted := s.posted++ws.map (fun w => (s.rw w).wc.wrId)
      commitList := []
      log := (ws.map (fun w => Event.repost (s.rw w).wc.frame)).reverse++s.log } := by
  induction ws generalizing s with
  | nil =>
    obtain ⟨⟨memblocks,blocks,batch,commitList,log⟩,rw,posted⟩ := s
    subst h
    simp [drain]
  | cons w ws ih =>
    have hwc : ∀ v, (Function.update s.rw w { s.rw w with convey := false } v).wc =
        (s.rw v).wc := by
      intro v
      by_cases hv : v = w
      · subst hv; simp
      · simp [hv]
    rw [drain, ih _ (by simp [h])]
    simp [cleared_cons, hwc]

end Maruswap.ServerHandlers
