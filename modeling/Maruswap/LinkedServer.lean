import Maruswap.GetPage
import Maruswap.ListHead
import Maruswap.MulticastLoop

/-!
# The memory server on linked lists

The receive loops once more, with `commit_list` and `memblock_list` as the handlers
have them: list heads among the nodes of the receive works and the memblocks. The
walks of the commits follow the links while their bodies unlink the entries, and a GET
follows them to the end. Run by run this server does what the one with plain lists does.
-/

set_option autoImplicit false

namespace Maruswap.LinkedServer
open LinkedRing ListHead WireFormat GuardedRun
open ServerHandlers (Memblock RecvWork Wc Event AllocResult Server InTable commitNeed
  mcmMaxRecvWr commitWalk drain)
open GetPage (Search Outcome ibSendInline opcodeGet walkList)
open MulticastLoop (Loop multicastWalk multicastDrain multicastOpcodeCheck multicastOpcodeCommit
  multicastOpcodeNone)

variable {Page : Type*}

/-- The list members of the structures, and what `list_del` leaves in an entry. -/
inductive Node where
  | commitList
  | memblockList
  | work (w : ℕ)
  | memblock (id : ℕ)
  | poison1
  | poison2
  deriving DecidableEq

structure Linked (Page : Type*) where
  links : Links Node
  memblocks : ℕ → Option (Memblock Page)
  batch : ℕ
  log : List (Event Page)
  rw : ℕ → RecvWork Page
  posted : List ℕ

def Linked.emit (s : Linked Page) (e : Event Page) : Linked Page := { s with log := e::s.log }

def deliver (w : ℕ) (payload : Page) (s : Linked Page) : Linked Page :=
  { s with
    rw := Function.update s.rw w { s.rw w with buffer := payload }
    posted := s.posted.erase w }

section Handlers
variable [Zero Page]

/-- `alloc_memblock` links the new block to itself first. One that cannot be set up is
put on no list. -/
def addMemblock (a : AllocResult) (id : ℕ) (s : Linked Page) : Bool × Linked Page :=
  if (s.memblocks id).isSome then (true,s)
  else
    let links := initListHead (.memblock id) s.links
    match a.mmap, a.regMr with
    | some buffer, some rkey => (true, { s with
        links := listAddTail (.memblock id) .memblockList links
        memblocks := Function.update s.memblocks id (some ⟨id,buffer,rkey,fun _ => 0⟩) })
    | _, _ => (false, { s with links := links })

def copyPage (wc : Wc) (nrBlock byte : ℕ) (s : Linked Page) : Linked Page :=
  let content := (s.rw wc.wrId).buffer
  { s with
    memblocks := Function.update s.memblocks nrBlock ((s.memblocks nrBlock).map
      fun mb => { mb with pages := Function.update mb.pages byte content })
    rw := Function.update s.rw wc.wrId { s.rw wc.wrId with convey := true }
    batch := s.batch+1
    log := .convey wc.frame nrBlock byte content::s.log }

def ibConveyPage (a : AllocResult) (wc : Wc) (s : Linked Page) : Bool × Linked Page :=
  match interpretHeader wc.immData with
  | none => (false,s)
  | some hd =>
    let r := if (s.memblocks hd.nrBlock).isNone then addMemblock a hd.nrBlock s else (true,s)
    if r.1 then (true,copyPage wc hd.nrBlock (byteOffset hd.offset) r.2) else r

def processRdmaRpcOpen (a : AllocResult) (header : U32) (s : Linked Page) :
    Option (Linked Page) :=
  match interpretHeader header with
  | none => some s
  | some hd =>
    let t := if (s.memblocks hd.nrBlock).isNone then (addMemblock a hd.nrBlock s).2 else s
    (t.memblocks hd.nrBlock).map fun mb => t.emit (.opened header mb.buffer mb.rkey)

def processMulticastRpcFlow (a : AllocResult) (wc : Wc) (s : Linked Page) : Linked Page :=
  let t := { s with
    rw := Function.update s.rw wc.wrId { s.rw wc.wrId with wc := wc }
    links := listAdd (.work wc.wrId) .commitList s.links }
  if (t.rw wc.wrId).convey then t else (ibConveyPage a wc t).2

def walkBound : ℕ := mcmMaxRecvWr+1

/-- `list_for_each_entry_safe` over the commit list. -/
def forEachSafe (body : Node → Linked Page → Option (Bool × Linked Page)) (s : Linked Page) :
    Option (Linked Page) :=
  let pos := s.links.next .commitList
  walkSafe Linked.links body .commitList walkBound pos (s.links.next pos) s

/-- `list_for_each_entry` over the commit list. -/
def forEach (body : Node → Linked Page → Option (Bool × Linked Page)) (s : Linked Page) :
    Option (Linked Page) :=
  walk Linked.links body .commitList walkBound (s.links.next .commitList) s

def commitBody (alloc : ℕ → AllocResult) : Node → Linked Page → Option (Bool × Linked Page)
  | .work w, s =>
    some (if (s.rw w).convey then (true,s) else ibConveyPage (alloc w) (s.rw w).wc s)
  | _, _ => none

def drainBody : Node → Linked Page → Option (Bool × Linked Page)
  | .work w, s => some (true, { s with
      rw := Function.update s.rw w { s.rw w with convey := false }
      posted := s.posted++[(s.rw w).wc.wrId]
      links := listDelInit (.work w) s.links
      log := .repost (s.rw w).wc.frame::s.log })
  | _, _ => none

def commitRegion (alloc : ℕ → AllocResult) (s : Linked Page) : Option (Linked Page) :=
  (forEachSafe (commitBody alloc) s).bind fun t => (forEachSafe drainBody t).map fun u =>
    { u with batch := 0, log := .reset::u.log }

def processRdmaRpcCommit (alloc : ℕ → AllocResult) (immData : U32) (s : Linked Page) :
    Option (Linked Page) :=
  if listEmpty .commitList s.links then some (s.emit (.committed immData))
  else if s.batch < commitNeed immData then none
  else (commitRegion alloc s).map (·.emit (.committed immData))

def multicastBody (alloc : ℕ → AllocResult) : Node → Linked Page → Option (Bool × Linked Page)
  | .work w, s => some (ibConveyPage (alloc w) (s.rw w).wc s)
  | _, _ => none

def multicastDrainBody : Node → Linked Page → Option (Bool × Linked Page)
  | .work w, s => some (true, { s with
      links := listDel .poison1 .poison2 (.work w) s.links
      posted := s.posted++[(s.rw w).wc.wrId]
      log := .repost (s.rw w).wc.frame::s.log })
  | _, _ => none

def processMulticastRpcCommit (alloc : ℕ → AllocResult) (wc : Wc) (s : Linked Page) :
    Option (Linked Page × Option U32) :=
  if listEmpty .commitList s.links then some (s.emit (.committed wc.immData),none)
  else (forEach (multicastBody alloc) s).bind fun t => (forEachSafe multicastDrainBody t).map
    fun u => (u,some wc.immData)

def ibProcessMulticastCompletion (alloc : ℕ → AllocResult) (wc : Wc) (s : Linked Page) :
    Option (Linked Page × Option U32) :=
  if ibGetOpcode wc.immData = multicastOpcodeFlow then
    if InTable wc.immData then some (processMulticastRpcFlow (alloc wc.wrId) wc s,none)
    else none
  else if ibGetOpcode wc.immData = multicastOpcodeCheck then some (s,none)
  else if ibGetOpcode wc.immData = multicastOpcodeCommit then
    processMulticastRpcCommit alloc wc s
  else if ibGetOpcode wc.immData = multicastOpcodeNone then some (s,none)
  else some (s,none)

def getBody (offset : U32) : Node → Linked Page × Search Page →
    Option (Bool × Linked Page × Search Page)
  | .work w, p => some (true,p.1,
      if (p.1.rw w).wc.immData &&& 0xfffffff#32 = offset then ⟨true,(p.1.rw w).buffer⟩ else p.2)
  | _, _ => none

/-- `list_for_each_entry` in GET; `page` is what the buffer holds before. -/
def searchList (offset : U32) (page : Page) (s : Linked Page) : Option (Search Page) :=
  (walk (fun p => p.1.links) (getBody offset) .commitList walkBound (s.links.next .commitList)
    (s,⟨false,page⟩)).map Prod.snd

/-- The walk that ends `while(!check)`; there is no value while the loop goes on. -/
def processRdmaRpcGetPage (maxInline : ℕ) (header : U32) (page : Page) (s : Linked Page) :
    Option (Outcome Page) :=
  match interpretHeader header with
  | none => some .ignored
  | some hd => (searchList hd.offset page s).bind fun r =>
      if r.check then some (ibSendInline maxInline pageSize header r.page) else none

end Handlers

/-- `gets` are the outcomes of the GETs, the latest first. -/
structure LinkedLoop (Page : Type*) extends Linked Page where
  recvCq : List Wc
  answers : List U32
  gets : List (Outcome Page)

structure PlainLoop (Page : Type*) extends Loop Page where
  gets : List (Outcome Page)

inductive Label (Page : Type*) where
  | openBlock (header : U32) (a : AllocResult)
  | getPage (header : U32) (page : Page)
  | loop (l : MulticastLoop.Label Page)

def ends : Outcome Page → Bool
  | .aborted => true
  | _ => false

section Steps
variable [Zero Page]

def handle (maxInline : ℕ) : Label Page → LinkedLoop Page → Option (LinkedLoop Page)
  | .openBlock header a, s =>
    if ibGetOpcode header = opcodeOpen ∧ InTable header then
      (processRdmaRpcOpen a header s.toLinked).map fun t => { s with toLinked := t }
    else none
  | .getPage header page, s =>
    if ibGetOpcode header = opcodeGet then
      (processRdmaRpcGetPage maxInline header page s.toLinked).map fun q =>
        { s with gets := q::s.gets }
    else none
  | .loop (.arrive header payload w), s =>
    if w ∈ s.posted then
      some { s with
        toLinked := deliver w payload s.toLinked
        recvCq := s.recvCq++[⟨header,w,0⟩] }
    else none
  | .loop (.handle alloc), s => match s.recvCq with
    | [] => none
    | wc::rest => (ibProcessMulticastCompletion alloc wc s.toLinked).map fun r =>
        { s with toLinked := r.1, recvCq := rest, answers := r.2.toList++s.answers }
  | .loop (.commit immData alloc), s =>
    if ibGetOpcode immData = opcodeCommit ∨ ibGetOpcode immData = opcodeQcommit then
      (processRdmaRpcCommit alloc immData s.toLinked).map fun t => { s with toLinked := t }
    else none

/-- A GET that aborts is the end of both threads. -/
def step (maxInline : ℕ) (l : Label Page) (s : LinkedLoop Page) : Option (LinkedLoop Page) :=
  if s.gets.any ends then none else handle maxInline l s

def initLinks (garbage : Links Node) : Links Node :=
  initListHead .commitList (listAddTail (.memblock 0) .memblockList
    (initListHead (.memblock 0) (initListHead .memblockList garbage)))

def initLinked (garbage : Links Node) (buffer : ℕ) (rkey : U32) : LinkedLoop Page where
  links := initLinks garbage
  memblocks := Function.update (fun _ => none) 0 (some ⟨0,buffer,rkey,fun _ => 0⟩)
  batch := 0
  log := []
  rw := fun w => ⟨0,⟨0,w,0⟩,false⟩
  posted := List.range mcmMaxRecvWr
  recvCq := []
  answers := []
  gets := []

def plainHandle (maxInline : ℕ) : Label Page → PlainLoop Page → Option (PlainLoop Page)
  | .openBlock header a, s =>
    if ibGetOpcode header = opcodeOpen ∧ InTable header then
      (ServerHandlers.processRdmaRpcOpen a header s.toServer).map fun t =>
        { s with toServer := t }
    else none
  | .getPage header page, s =>
    if ibGetOpcode header = opcodeGet then
      (GetPage.processRdmaRpcGetPage maxInline header [s.toServer] page).map fun q =>
        { s with gets := q.2::s.gets }
    else none
  | .loop l, s => (MulticastLoop.step l s.toLoop).map fun t => { s with toLoop := t }

def plainStep (maxInline : ℕ) (l : Label Page) (s : PlainLoop Page) : Option (PlainLoop Page) :=
  if s.gets.any ends then none else plainHandle maxInline l s

def initPlain (buffer : ℕ) (rkey : U32) : PlainLoop Page :=
  ⟨MulticastLoop.initLoop buffer rkey,[]⟩

end Steps

/-- Both lists are rings of what the plain server lists, and every memblock that is
mapped is listed. -/
structure Abstracts (t : Linked Page) (s : Server Page) : Prop where
  memblocks : t.memblocks = s.memblocks
  batch : t.batch = s.batch
  log : t.log = s.log
  rw_eq : t.rw = s.rw
  posted : t.posted = s.posted
  works : Ring t.links .commitList (s.commitList.map .work)
  blocks : Ring t.links .memblockList (s.memblockList.map .memblock)
  mapped : ∀ id, id ∈ s.memblockList ↔ (s.memblocks id).isSome

/-! Nodes of the two lists are never the same. -/

section Apart
variable {ws ids : List ℕ} {w id : ℕ}

theorem work_not_block : .work w ∉ Node.memblockList::ids.map .memblock := by simp

theorem block_not_work : .memblock id ∉ Node.commitList::ws.map .work := by simp

theorem lists_apart (ws ids : List ℕ) : (Node.commitList::ws.map .work).Disjoint
    (.memblockList::ids.map .memblock) := by
  intro n hn hm
  simp only [List.mem_cons, List.mem_map] at hn hm
  rcases hn with rfl | ⟨w,-,rfl⟩ <;> simp at hm

end Apart

section Refinement
variable [Zero Page] {t : Linked Page} {s : Server Page}

/-- The two servers give the same answer and stay together. -/
def Alike (r : Bool × Linked Page) (q : Bool × Server Page) : Prop :=
  r.1 = q.1 ∧ Abstracts r.2 q.2

theorem add_memblock_alike (a : AllocResult) (id : ℕ) (h : Abstracts t s) :
    Alike (addMemblock a id t) (ServerHandlers.addMemblock a id s) := by
  rw [addMemblock, ServerHandlers.addMemblock, h.memblocks]
  by_cases hm : (s.memblocks id).isSome
  · rw [if_pos hm, if_pos hm]
    exact ⟨rfl,h⟩
  · rw [if_neg hm, if_neg hm]
    have hnew : Node.memblock id ∉ .memblockList::s.memblockList.map .memblock := by
      simpa [h.mapped] using hm
    have hold : Node.memblock id ∉ .commitList::s.commitList.map .work := block_not_work
    have hblocks := init_list_head_frame h.blocks hnew
    have hworks := init_list_head_frame h.works hold
    have hfailed : Abstracts { t with links := initListHead (.memblock id) t.links } s :=
      ⟨h.memblocks,h.batch,h.log,h.rw_eq,h.posted,hworks,hblocks,h.mapped⟩
    cases a.mmap with
    | none => exact ⟨rfl,h.memblocks ▸ hfailed⟩
    | some buffer =>
      cases a.regMr with
      | none => exact ⟨rfl,h.memblocks ▸ hfailed⟩
      | some rkey =>
        refine ⟨rfl,rfl,h.batch,h.log,h.rw_eq,h.posted,?_,?_,fun n => ?_⟩
        · exact list_add_tail_frame hblocks hworks hold (List.disjoint_symm (lists_apart _ _))
        · rw [List.map_append]
          exact list_add_tail_ring hblocks hnew
        · by_cases hn : n = id
          · subst hn; simp
          · simpa [hn] using h.mapped n

omit [Zero Page] in
theorem copy_page_abstracts (wc : Wc) (nrBlock byte : ℕ) (h : Abstracts t s) :
    Abstracts (copyPage wc nrBlock byte t) (ServerHandlers.copyPage wc nrBlock byte s) := by
  refine ⟨?_,congrArg (·+1) h.batch,?_,?_,h.posted,h.works,h.blocks,fun id => ?_⟩
  · simp [copyPage, ServerHandlers.copyPage, h.memblocks, h.rw_eq]
  · simp [copyPage, ServerHandlers.copyPage, h.log, h.rw_eq]
  · simp [copyPage, ServerHandlers.copyPage, h.rw_eq]
  · by_cases hid : id = nrBlock
    · subst hid
      simpa [ServerHandlers.copyPage] using h.mapped id
    · simpa [ServerHandlers.copyPage, hid] using h.mapped id

theorem provide_alike (a : AllocResult) (id : ℕ) (h : Abstracts t s) :
    Alike (if (t.memblocks id).isNone then addMemblock a id t else (true,t))
      (if (s.memblocks id).isNone then ServerHandlers.addMemblock a id s else (true,s)) := by
  rw [h.memblocks]
  split
  · exact add_memblock_alike a id h
  · exact ⟨rfl,h⟩

theorem ib_convey_page_alike (a : AllocResult) (wc : Wc) (h : Abstracts t s) :
    Alike (ibConveyPage a wc t) (ServerHandlers.ibConveyPage a wc s) := by
  obtain ⟨off,hd,-⟩ := interpret_header_eq wc.immData
  have hcopy : ∀ {r : Bool × Linked Page} {q : Bool × Server Page} nrBlock byte, Alike r q →
      Alike (if r.1 then (true,copyPage wc nrBlock byte r.2) else r)
        (if q.1 then (true,ServerHandlers.copyPage wc nrBlock byte q.2) else q) := by
    rintro r q nrBlock byte ⟨hok,hr⟩
    rw [hok]
    split
    · exact ⟨rfl,copy_page_abstracts wc nrBlock byte hr⟩
    · exact ⟨hok,hr⟩
  simp only [ibConveyPage, ServerHandlers.ibConveyPage, hd]
  exact hcopy _ _ (provide_alike a _ h)

omit [Zero Page] in
theorem emit_abstracts (e : Event Page) (h : Abstracts t s) : Abstracts (t.emit e) (s.emit e) :=
  ⟨h.memblocks,h.batch,congrArg (e::·) h.log,h.rw_eq,h.posted,h.works,h.blocks,h.mapped⟩

theorem open_abstracts (a : AllocResult) (header : U32) (h : Abstracts t s) :
    Option.Rel Abstracts (processRdmaRpcOpen a header t)
      (ServerHandlers.processRdmaRpcOpen a header s) := by
  obtain ⟨off,hd,-⟩ := interpret_header_eq header
  have hready : ∀ id, Abstracts (if (t.memblocks id).isNone then (addMemblock a id t).2 else t)
      (if (s.memblocks id).isNone then (ServerHandlers.addMemblock a id s).2 else s) := by
    intro id
    rw [h.memblocks]
    split
    · exact (add_memblock_alike a id h).2
    · exact h
  have hreply : ∀ {u : Linked Page} {v : Server Page} id, Abstracts u v → Option.Rel Abstracts
      ((u.memblocks id).map fun mb => u.emit (.opened header mb.buffer mb.rkey))
      ((v.memblocks id).map fun mb => v.emit (.opened header mb.buffer mb.rkey)) := by
    intro u v id hu
    rw [hu.memblocks]
    cases v.memblocks id with
    | none => exact .none
    | some mb => exact .some (emit_abstracts _ hu)
  simp only [processRdmaRpcOpen, ServerHandlers.processRdmaRpcOpen, hd]
  exact hreply _ (hready _)

theorem flow_abstracts (a : AllocResult) (wc : Wc) (h : Abstracts t s)
    (hfresh : wc.wrId ∉ s.commitList) :
    Abstracts (processMulticastRpcFlow a wc t) (ServerHandlers.processMulticastRpcFlow a wc s) := by
  have hnew : Node.work wc.wrId ∉ .commitList::s.commitList.map .work := by simpa using hfresh
  have hlisted : Abstracts
      { t with
        rw := Function.update t.rw wc.wrId { t.rw wc.wrId with wc := wc }
        links := listAdd (.work wc.wrId) .commitList t.links }
      (ServerHandlers.flowListAdd wc s) := by
    refine ⟨h.memblocks,h.batch,h.log,?_,h.posted,list_add_ring h.works hnew,?_,h.mapped⟩
    · simp [ServerHandlers.flowListAdd, h.rw_eq]
    · exact list_add_frame h.works h.blocks work_not_block (lists_apart _ _)
  rw [ServerHandlers.processMulticastRpcFlow, ServerHandlers.flowConvey, ← hlisted.rw_eq]
  unfold processMulticastRpcFlow
  dsimp only
  split
  · exact hlisted
  · exact (ib_convey_page_alike a wc hlisted).2

/-! The walks, over the list the plain server walks. -/

theorem visit_commit (alloc : ℕ → AllocResult) (ws : List ℕ) (h : Abstracts t s) :
    ∃ u, visit (commitBody alloc) (ws.map .work) t = some u ∧
      Abstracts u (commitWalk alloc ws s) := by
  induction ws generalizing t s with
  | nil => exact ⟨t,rfl,h⟩
  | cons w ws ih =>
    rw [List.map_cons, visit, commitBody, commitWalk, h.rw_eq, Option.bind_some]
    by_cases hup : (s.rw w).convey
    · simp only [if_pos hup, if_true]
      exact ih h
    · obtain ⟨hok,hr⟩ := ib_convey_page_alike (alloc w) (s.rw w).wc h
      simp only [if_neg hup, hok]
      split
      · exact ih hr
      · exact ⟨_,rfl,hr⟩

theorem visit_multicast (alloc : ℕ → AllocResult) (ws : List ℕ) (h : Abstracts t s) :
    ∃ u, visit (multicastBody alloc) (ws.map .work) t = some u ∧
      Abstracts u (multicastWalk alloc ws s) := by
  induction ws generalizing t s with
  | nil => exact ⟨t,rfl,h⟩
  | cons w ws ih =>
    rw [List.map_cons, visit, multicastBody, multicastWalk, h.rw_eq, Option.bind_some]
    obtain ⟨hok,hr⟩ := ib_convey_page_alike (alloc w) (s.rw w).wc h
    simp only [hok]
    split
    · exact ih hr
    · exact ⟨_,rfl,hr⟩

/-- The entries from some place on are linked as the plain server has them. -/
def Kept (xs : List Node) (t : Linked Page) : Prop :=
  ∃ s pre, Abstracts t s ∧ s.commitList.map Node.work = pre++xs

omit [Zero Page] in
theorem Kept.path {xs : List Node} (h : Kept xs t) :
    Path t.links (xs++[.commitList]) ∧ .commitList ∉ xs := by
  obtain ⟨s,pre,hs,hlist⟩ := h
  have hring := hs.works
  rw [hlist] at hring
  have hpath : Path t.links (.commitList::pre++(xs++[.commitList])) := by
    simpa using hring.path
  exact ⟨hpath.right,fun hm => hring.head_not_mem (List.mem_append_right pre hm)⟩

omit [Zero Page] in
theorem Kept.tail {x : Node} {xs : List Node} (h : Kept (x::xs) t) : Kept xs t := by
  obtain ⟨s,pre,hs,hlist⟩ := h
  exact ⟨s,pre++[x],hs,by rw [hlist, List.append_assoc]; rfl⟩

theorem convey_kept {xs : List Node} (a : AllocResult) (wc : Wc) (h : Kept xs t) :
    Kept xs (ibConveyPage a wc t).2 := by
  obtain ⟨s,pre,hs,hlist⟩ := h
  have hmoved := MulticastLoop.ib_convey_page_unmoved a wc s
  exact ⟨_,pre,(ib_convey_page_alike a wc hs).2,by rw [hmoved.commitList, hlist]⟩

theorem commit_body_kept {alloc : ℕ → AllocResult} {x : Node} {xs : List Node} {b : Bool}
    {u : Linked Page} (h : Kept xs t) (hu : commitBody alloc x t = some (b,u)) : Kept xs u := by
  cases x with
  | work w =>
    rw [commitBody, Option.some.injEq] at hu
    split at hu
    · obtain rfl : t = u := congrArg Prod.snd hu
      exact h
    · obtain rfl : (ibConveyPage (alloc w) (t.rw w).wc t).2 = u := congrArg Prod.snd hu
      exact convey_kept (alloc w) (t.rw w).wc h
  | _ => cases hu

theorem multicast_body_kept {alloc : ℕ → AllocResult} {x : Node} {xs : List Node} {b : Bool}
    {u : Linked Page} (h : Kept xs t) (hu : multicastBody alloc x t = some (b,u)) : Kept xs u := by
  cases x with
  | work w =>
    rw [multicastBody, Option.some.injEq] at hu
    obtain rfl : (ibConveyPage (alloc w) (t.rw w).wc t).2 = u := congrArg Prod.snd hu
    exact convey_kept (alloc w) (t.rw w).wc h
  | _ => cases hu

omit [Zero Page] in
theorem Abstracts.kept (h : Abstracts t s) : Kept (s.commitList.map .work) t := ⟨s,[],h,rfl⟩

omit [Zero Page] in
theorem walk_bound (h : s.commitList.length ≤ mcmMaxRecvWr) :
    (s.commitList.map Node.work).length < walkBound := by
  rw [List.length_map]
  exact Nat.lt_succ_of_le h

theorem for_each_safe_commit (alloc : ℕ → AllocResult) (h : Abstracts t s)
    (hlen : s.commitList.length ≤ mcmMaxRecvWr) :
    ∃ u, forEachSafe (commitBody alloc) t = some u ∧
      Abstracts u (commitWalk alloc s.commitList s) := by
  rw [forEachSafe, h.works.next_head, walk_safe_visits Linked.links _ _ Kept
    (fun _ _ hs => hs.path) (fun _ _ _ _ hs hu => (commit_body_kept hs hu).tail) h.kept
    (walk_bound hlen)]
  exact visit_commit alloc s.commitList h

theorem for_each_multicast (alloc : ℕ → AllocResult) (h : Abstracts t s)
    (hlen : s.commitList.length ≤ mcmMaxRecvWr) :
    ∃ u, forEach (multicastBody alloc) t = some u ∧
      Abstracts u (multicastWalk alloc s.commitList s) := by
  rw [forEach, h.works.next_head, walk_visits Linked.links _ _ Kept
    (fun _ _ hs => hs.path.2) (fun _ _ _ _ hs hu => ?_) h.kept (walk_bound hlen)]
  · exact visit_multicast alloc s.commitList h
  · have hk := multicast_body_kept hs hu
    exact ⟨Path.next_first hk.path.1,hk.tail⟩

omit [Zero Page] in
theorem visit_get (offset : U32) (ws : List ℕ) (r : Search Page) (h : t.rw = s.rw) :
    visit (getBody offset) (ws.map .work) (t,r) = some (t,walkList offset s ws r) := by
  induction ws generalizing r with
  | nil => rfl
  | cons w ws ih =>
    rw [List.map_cons, visit, getBody, Option.bind_some, if_pos rfl, ih, walkList, h]

omit [Zero Page] in
theorem get_body_kept {offset : U32} {x : Node} {xs : List Node} {b : Bool}
    {p q : Linked Page × Search Page} (h : Kept xs p.1)
    (hq : getBody offset x p = some (b,q)) : Kept xs q.1 := by
  cases x with
  | work w =>
    rw [getBody, Option.some.injEq] at hq
    obtain rfl := (Prod.mk.inj hq).2
    exact h
  | _ => cases hq

omit [Zero Page] in
theorem search_list_eq (offset : U32) (page : Page) (h : Abstracts t s)
    (hlen : s.commitList.length ≤ mcmMaxRecvWr) :
    searchList offset page t = some (walkList offset s s.commitList ⟨false,page⟩) := by
  rw [searchList, h.works.next_head, walk_visits (fun p : Linked Page × Search Page => p.1.links)
    _ _ (fun xs p => Kept xs p.1) (fun _ _ hs => hs.path.2) (fun _ _ _ _ hs hu => ?_) h.kept
    (walk_bound hlen)]
  · rw [visit_get offset s.commitList _ h.rw_eq]
    rfl
  · have hk := get_body_kept hs hu
    exact ⟨Path.next_first hk.path.1,hk.tail⟩

omit [Zero Page] in
theorem get_page_eq (maxInline : ℕ) (header : U32) (page : Page) (h : Abstracts t s)
    (hlen : s.commitList.length ≤ mcmMaxRecvWr) : processRdmaRpcGetPage maxInline header page t =
      (GetPage.processRdmaRpcGetPage maxInline header [s] page).map Prod.snd := by
  obtain ⟨off,hd,-⟩ := interpret_header_eq header
  simp only [processRdmaRpcGetPage, GetPage.processRdmaRpcGetPage, hd, GetPage.searchLoop,
    search_list_eq _ page h hlen, Option.bind_some]
  split
  · rfl
  · rfl

/-! The walks that unlink every entry they come to. -/

def Left (xs : List Node) (t : Linked Page) : Prop :=
  ∃ s, Abstracts t s ∧ s.commitList.map Node.work = xs

omit [Zero Page] in
theorem Left.kept {xs : List Node} (h : Left xs t) : Kept xs t := by
  obtain ⟨s,hs,rfl⟩ := h
  exact hs.kept

omit [Zero Page] in
theorem Left.first {w : ℕ} {xs : List Node} (h : Left (.work w::xs) t) :
    ∃ s ws, Abstracts t s ∧ s.commitList = w::ws ∧ ws.map .work = xs := by
  obtain ⟨s,hs,hlist⟩ := h
  obtain ⟨v,ws,hvs,hv,hws⟩ := List.map_eq_cons_iff.mp hlist
  obtain rfl : v = w := by simpa using hv
  exact ⟨s,ws,hs,hvs,hws⟩

omit [Zero Page] in
theorem drain_abstracts {w : ℕ} {ws : List ℕ} (h : Abstracts t s) (hlist : s.commitList = w::ws) :
    Abstracts
      { t with
        rw := Function.update t.rw w { t.rw w with convey := false }
        posted := t.posted++[(t.rw w).wc.wrId]
        links := listDelInit (.work w) t.links
        log := .repost (t.rw w).wc.frame::t.log }
      { s with
        rw := Function.update s.rw w { s.rw w with convey := false }
        posted := s.posted++[(s.rw w).wc.wrId]
        commitList := s.commitList.erase w
        log := .repost (s.rw w).wc.frame::s.log } := by
  have hworks := h.works
  rw [hlist, List.map_cons] at hworks
  have hring : Ring t.links .commitList ([]++.work w::ws.map .work) := hworks
  have herase : (s.commitList.erase w).map Node.work = []++ws.map .work := by
    rw [hlist, List.erase_cons_head, List.nil_append]
  have hframe : Ring (listDelInit (.work w) t.links) .memblockList
      (s.memblockList.map .memblock) :=
    init_list_head_frame (list_del_entry_frame hring h.blocks (lists_apart (w::ws) _))
      work_not_block
  refine ⟨h.memblocks,h.batch,?_,?_,?_,?_,hframe,h.mapped⟩
  · simp [h.log, h.rw_eq]
  · simp [h.rw_eq]
  · simp [h.posted, h.rw_eq]
  · rw [herase]
    exact (list_del_init_ring hring).1

omit [Zero Page] in
theorem multicast_drain_abstracts {w : ℕ} {ws : List ℕ} (h : Abstracts t s)
    (hlist : s.commitList = w::ws) :
    Abstracts
      { t with
        links := listDel .poison1 .poison2 (.work w) t.links
        posted := t.posted++[(t.rw w).wc.wrId]
        log := .repost (t.rw w).wc.frame::t.log }
      { s with
        commitList := s.commitList.erase w
        posted := s.posted++[(s.rw w).wc.wrId]
        log := .repost (s.rw w).wc.frame::s.log } := by
  have hworks := h.works
  rw [hlist, List.map_cons] at hworks
  have hring : Ring t.links .commitList ([]++.work w::ws.map .work) := hworks
  have herase : (s.commitList.erase w).map Node.work = []++ws.map .work := by
    rw [hlist, List.erase_cons_head, List.nil_append]
  have hframe := list_del_entry_frame hring h.blocks (lists_apart (w::ws) _)
  refine ⟨h.memblocks,h.batch,?_,h.rw_eq,?_,?_,?_,h.mapped⟩
  · simp [h.log, h.rw_eq]
  · simp [h.posted, h.rw_eq]
  · rw [herase]
    exact list_del_ring .poison1 .poison2 hring
  · exact (hframe.set_next work_not_block).set_prev work_not_block

omit [Zero Page] in
theorem visit_drain (ws : List ℕ) (h : Abstracts t s) (hlist : s.commitList = ws) :
    ∃ u, visit drainBody (ws.map .work) t = some u ∧ Abstracts u (drain ws s) := by
  induction ws generalizing t s with
  | nil => exact ⟨t,rfl,h⟩
  | cons w ws ih =>
    have hone := drain_abstracts h hlist
    exact ih hone (by simp [hlist])

omit [Zero Page] in
theorem visit_multicast_drain (ws : List ℕ) (h : Abstracts t s) (hlist : s.commitList = ws) :
    ∃ u, visit multicastDrainBody (ws.map .work) t = some u ∧
      Abstracts u (multicastDrain ws s) := by
  induction ws generalizing t s with
  | nil => exact ⟨t,rfl,h⟩
  | cons w ws ih =>
    have hone := multicast_drain_abstracts h hlist
    exact ih hone (by simp [hlist])

omit [Zero Page] in
theorem drain_body_left {x : Node} {xs : List Node} {u : Linked Page} (h : Left (x::xs) t)
    (hu : drainBody x t = some (true,u)) : Left xs u := by
  cases x with
  | work w =>
    obtain ⟨s,ws,hs,hlist,rfl⟩ := h.first
    rw [drainBody, Option.some.injEq, Prod.mk.injEq] at hu
    exact ⟨_,hu.2 ▸ drain_abstracts hs hlist,by simp [hlist]⟩
  | _ => cases hu

omit [Zero Page] in
theorem multicast_drain_body_left {x : Node} {xs : List Node} {u : Linked Page}
    (h : Left (x::xs) t) (hu : multicastDrainBody x t = some (true,u)) : Left xs u := by
  cases x with
  | work w =>
    obtain ⟨s,ws,hs,hlist,rfl⟩ := h.first
    rw [multicastDrainBody, Option.some.injEq, Prod.mk.injEq] at hu
    exact ⟨_,hu.2 ▸ multicast_drain_abstracts hs hlist,by simp [hlist]⟩
  | _ => cases hu

omit [Zero Page] in
theorem for_each_safe_drain (h : Abstracts t s) (hlen : s.commitList.length ≤ mcmMaxRecvWr) :
    ∃ u, forEachSafe drainBody t = some u ∧ Abstracts u (drain s.commitList s) := by
  rw [forEachSafe, h.works.next_head, walk_safe_visits Linked.links _ _ Left
    (fun _ _ hs => hs.kept.path) (fun _ _ _ _ hs hu => drain_body_left hs hu) ⟨s,h,rfl⟩
    (walk_bound hlen)]
  exact visit_drain s.commitList h rfl

omit [Zero Page] in
theorem for_each_safe_multicast_drain (h : Abstracts t s)
    (hlen : s.commitList.length ≤ mcmMaxRecvWr) :
    ∃ u, forEachSafe multicastDrainBody t = some u ∧
      Abstracts u (multicastDrain s.commitList s) := by
  rw [forEachSafe, h.works.next_head, walk_safe_visits Linked.links _ _ Left
    (fun _ _ hs => hs.kept.path) (fun _ _ _ _ hs hu => multicast_drain_body_left hs hu)
    ⟨s,h,rfl⟩ (walk_bound hlen)]
  exact visit_multicast_drain s.commitList h rfl

/-! The handlers. -/

omit [Zero Page] in
theorem list_empty_abstracts (h : Abstracts t s) :
    listEmpty .commitList t.links = true ↔ s.commitList = [] := by
  rw [list_empty_iff h.works, List.map_eq_nil_iff]

theorem commit_region_abstracts (alloc : ℕ → AllocResult) (h : Abstracts t s)
    (hlen : s.commitList.length ≤ mcmMaxRecvWr) :
    ∃ u, commitRegion alloc t = some u ∧ Abstracts u (ServerHandlers.commitRegion alloc s) := by
  obtain ⟨u,hu,hsu⟩ := for_each_safe_commit alloc h hlen
  have hlist := (MulticastLoop.commit_walk_unmoved alloc s.commitList s).commitList
  obtain ⟨v,hv,hsv⟩ := for_each_safe_drain hsu (by rwa [hlist])
  rw [commitRegion, hu, Option.bind_some, hv]
  exact ⟨_,rfl,hsv.memblocks,rfl,congrArg (_::·) hsv.log,hsv.rw_eq,hsv.posted,hsv.works,
    hsv.blocks,hsv.mapped⟩

theorem rdma_commit_abstracts (alloc : ℕ → AllocResult) (immData : U32) (h : Abstracts t s)
    (hlen : s.commitList.length ≤ mcmMaxRecvWr) :
    Option.Rel Abstracts (processRdmaRpcCommit alloc immData t)
      (ServerHandlers.processRdmaRpcCommit alloc immData s) := by
  obtain ⟨u,hu,hsu⟩ := commit_region_abstracts alloc h hlen
  have hempty := list_empty_abstracts h
  rw [processRdmaRpcCommit, ServerHandlers.processRdmaRpcCommit, h.batch, hu]
  by_cases hl : s.commitList = []
  · rw [if_pos hl, if_pos (hempty.mpr hl)]
    exact .some (emit_abstracts _ h)
  · rw [if_neg hl, if_neg (hempty.not.mpr hl)]
    split
    · exact .none
    · exact .some (emit_abstracts _ hsu)

def SameAnswer (r : Linked Page × Option U32) (q : Server Page × Option U32) : Prop :=
  Abstracts r.1 q.1 ∧ r.2 = q.2

theorem multicast_commit_abstracts (alloc : ℕ → AllocResult) (wc : Wc) (h : Abstracts t s)
    (hlen : s.commitList.length ≤ mcmMaxRecvWr) :
    ∃ r, processMulticastRpcCommit alloc wc t = some r ∧
      SameAnswer r (MulticastLoop.processMulticastRpcCommit alloc wc s) := by
  obtain ⟨u,hu,hsu⟩ := for_each_multicast alloc h hlen
  have hlist := (MulticastLoop.multicast_walk_unmoved alloc s.commitList s).commitList
  obtain ⟨v,hv,hsv⟩ := for_each_safe_multicast_drain hsu (by rwa [hlist])
  have hempty := list_empty_abstracts h
  rw [processMulticastRpcCommit, MulticastLoop.processMulticastRpcCommit, hu, Option.bind_some, hv]
  by_cases hl : s.commitList = []
  · rw [if_pos hl, if_pos (hempty.mpr hl)]
    exact ⟨_,rfl,emit_abstracts _ h,rfl⟩
  · rw [if_neg hl, if_neg (hempty.not.mpr hl)]
    exact ⟨_,rfl,hsv,rfl⟩

theorem completion_abstracts (alloc : ℕ → AllocResult) (wc : Wc) (h : Abstracts t s)
    (hlen : s.commitList.length ≤ mcmMaxRecvWr) (hfresh : wc.wrId ∉ s.commitList) :
    Option.Rel SameAnswer (ibProcessMulticastCompletion alloc wc t)
      (MulticastLoop.ibProcessMulticastCompletion alloc wc s) := by
  obtain ⟨r,hr,hsr⟩ := multicast_commit_abstracts alloc wc h hlen
  rw [ibProcessMulticastCompletion, MulticastLoop.ibProcessMulticastCompletion, hr]
  split_ifs
  · exact .some ⟨flow_abstracts (alloc wc.wrId) wc h hfresh,rfl⟩
  · exact .none
  · exact .some ⟨h,rfl⟩
  · exact .some hsr
  · exact .some ⟨h,rfl⟩
  · exact .some ⟨h,rfl⟩

/-! Whole runs. -/

/-- `lost` are the receive works that are posted no more. -/
structure Follows (t : LinkedLoop Page) (s : PlainLoop Page) : Prop where
  server : Abstracts t.toLinked s.toServer
  recvCq : t.recvCq = s.recvCq
  answers : t.answers = s.answers
  gets : t.gets = s.gets
  accounted : ∃ lost, MulticastLoop.Accounted lost s.toLoop

omit [Zero Page] in
theorem accounted_bound {lost : List ℕ} {s : Loop Page} (h : MulticastLoop.Accounted lost s) :
    s.commitList.length ≤ mcmMaxRecvWr := by
  have hlen := h.places.length_eq
  simp only [List.length_append, List.length_range] at hlen
  omega

omit [Zero Page] in
theorem accounted_fresh {lost : List ℕ} {s : Loop Page} {wc : Wc}
    (h : MulticastLoop.Accounted lost s) (hwc : wc ∈ s.recvCq) : wc.wrId ∉ s.commitList := by
  have hnodup := h.places.nodup_iff.mpr List.nodup_range
  obtain ⟨hnodup,-,-⟩ := List.nodup_append.mp hnodup
  have hw : wc.wrId ∈ s.posted++s.recvCq.map Wc.wrId :=
    List.mem_append_right _ (List.mem_map_of_mem hwc)
  exact fun hl => (List.nodup_append.mp hnodup).2.2 _ hw _ hl rfl

theorem open_accounted {maxInline : ℕ} {lost : List ℕ} {s t : PlainLoop Page} {header : U32}
    {a : AllocResult} (hs : MulticastLoop.Accounted lost s.toLoop)
    (h : plainHandle maxInline (.openBlock header a) s = some t) :
    MulticastLoop.Accounted lost t.toLoop := by
  simp only [plainHandle, Option.ite_none_right_eq_some] at h
  obtain ⟨u,hu,rfl⟩ := Option.map_eq_some_iff.mp h.2
  obtain ⟨-,hrw,hp,-,hl,-⟩ := ServerHandlers.open_effect header a s.toServer u hu
  refine ⟨?_,?_⟩
  · simpa [hp, hl] using hs.places
  · simpa [MulticastLoop.Named, hrw, hl] using hs.named

theorem plain_accounted {maxInline : ℕ} {lost : List ℕ} {s t : PlainLoop Page} (l : Label Page)
    (hs : MulticastLoop.Accounted lost s.toLoop) (h : plainHandle maxInline l s = some t) :
    ∃ lost, MulticastLoop.Accounted lost t.toLoop := by
  cases l with
  | openBlock header a => exact ⟨lost,open_accounted hs h⟩
  | getPage header page =>
    simp only [plainHandle, Option.ite_none_right_eq_some] at h
    obtain ⟨q,-,rfl⟩ := Option.map_eq_some_iff.mp h.2
    exact ⟨lost,hs⟩
  | loop l =>
    obtain ⟨u,hu,rfl⟩ := Option.map_eq_some_iff.mp h
    exact ⟨_,MulticastLoop.step_accounted lost l s.toLoop u hs hu⟩

def Together (t : LinkedLoop Page) (s : PlainLoop Page) : Prop :=
  Abstracts t.toLinked s.toServer ∧ t.recvCq = s.recvCq ∧ t.answers = s.answers ∧
    t.gets = s.gets

theorem loop_together {lost : List ℕ} (maxInline : ℕ) (l : MulticastLoop.Label Page)
    (t : LinkedLoop Page) (s : PlainLoop Page) (h : Follows t s)
    (hacc : MulticastLoop.Accounted lost s.toLoop) :
    Option.Rel Together (handle maxInline (.loop l) t) (plainHandle maxInline (.loop l) s) := by
  have hlen := accounted_bound hacc
  cases l with
  | arrive header payload w =>
    simp only [handle, plainHandle, MulticastLoop.step, h.server.posted, h.recvCq]
    split
    · refine .some ⟨?_,rfl,h.answers,h.gets⟩
      have hs := h.server
      refine ⟨hs.memblocks,hs.batch,hs.log,?_,?_,hs.works,hs.blocks,hs.mapped⟩
      · simp [deliver, ServerHandlers.deliver, hs.rw_eq]
      · simp [deliver, ServerHandlers.deliver, hs.posted]
    · exact .none
  | handle alloc =>
    simp only [handle, plainHandle, MulticastLoop.step, MulticastLoop.multicastMemoryThread,
      h.recvCq, h.answers]
    cases hq : s.recvCq with
    | nil => exact .none
    | cons wc rest =>
      have hfresh := accounted_fresh hacc (hq ▸ List.mem_cons_self ..)
      simp only [Option.map_map]
      refine rel_map (completion_abstracts alloc wc h.server hlen hfresh) fun r q hr => ?_
      exact ⟨hr.1,rfl,by rw [hr.2]; rfl,h.gets⟩
  | commit immData alloc =>
    simp only [handle, plainHandle, MulticastLoop.step]
    split
    · simp only [Option.map_map]
      refine rel_map (rdma_commit_abstracts alloc immData h.server hlen) fun _ _ hu => ?_
      exact ⟨hu,h.recvCq,h.answers,h.gets⟩
    · exact .none

theorem handle_together (maxInline : ℕ) (l : Label Page) (t : LinkedLoop Page)
    (s : PlainLoop Page) (h : Follows t s) :
    Option.Rel Together (handle maxInline l t) (plainHandle maxInline l s) := by
  obtain ⟨lost,hacc⟩ := h.accounted
  cases l with
  | openBlock header a =>
    simp only [handle, plainHandle]
    split
    · exact rel_map (open_abstracts a header h.server) fun _ _ hu =>
        ⟨hu,h.recvCq,h.answers,h.gets⟩
    · exact .none
  | getPage header page =>
    simp only [handle, plainHandle]
    split
    · rw [get_page_eq maxInline header page h.server (accounted_bound hacc), Option.map_map]
      cases GetPage.processRdmaRpcGetPage maxInline header [s.toServer] page with
      | none => exact .none
      | some q => exact .some ⟨h.server,h.recvCq,h.answers,congrArg (q.2::·) h.gets⟩
    · exact .none
  | loop l => exact loop_together maxInline l t s h hacc

theorem step_follows (maxInline : ℕ) (l : Label Page) (t : LinkedLoop Page) (s : PlainLoop Page)
    (h : Follows t s) : Option.Rel Follows (step maxInline l t) (plainStep maxInline l s) := by
  obtain ⟨lost,hacc⟩ := h.accounted
  have hrel := handle_together maxInline l t s h
  rw [step, plainStep, h.gets]
  split
  · exact .none
  cases hs : plainHandle maxInline l s with
  | none =>
    rw [hs] at hrel
    cases ht : handle maxInline l t with
    | none => exact .none
    | some u => rw [ht] at hrel; cases hrel
  | some v =>
    rw [hs] at hrel
    cases ht : handle maxInline l t with
    | none => rw [ht] at hrel; cases hrel
    | some u =>
      rw [ht, Option.rel_some_some] at hrel
      obtain ⟨hu,hq,ha,hgets⟩ := hrel
      exact .some ⟨hu,hq,ha,hgets,plain_accounted l hacc hs⟩

omit [Zero Page] in
theorem init_links_rings (garbage : Links Node) :
    Ring (initLinks garbage) .commitList [] ∧
      Ring (initLinks garbage) .memblockList [.memblock 0] := by
  have hown : Node.memblock 0 ∉ [Node.memblockList] := by simp
  have hother : Node.commitList ∉ [Node.memblockList,.memblock 0] := by simp
  have hblocks := init_list_head_frame (init_list_head_ring .memblockList garbage) hown
  exact ⟨init_list_head_ring _ _,
    init_list_head_frame (list_add_tail_ring hblocks hown) hother⟩

theorem init_follows (garbage : Links Node) (buffer : ℕ) (rkey : U32) :
    Follows (initLinked garbage buffer rkey : LinkedLoop Page)
      (initPlain buffer rkey) := by
  obtain ⟨hworks,hblocks⟩ := init_links_rings garbage
  refine ⟨⟨rfl,rfl,rfl,rfl,rfl,hworks,hblocks,fun id => ?_⟩,rfl,rfl,rfl,[],
    MulticastLoop.init_accounted buffer rkey⟩
  by_cases hid : id = 0
  · subst hid; simp [initPlain, MulticastLoop.initLoop, ServerHandlers.initServer]
  · simp [initPlain, MulticastLoop.initLoop, ServerHandlers.initServer, hid]

/-- Whatever the links held at first, the frames carry and the allocations come to,
the server on linked lists takes the runs of the one on plain lists, and no others.
Every walk comes to its end, and both lists stay rings of what is listed. -/
theorem linked_server_refines (maxInline : ℕ) (garbage : Links Node) (buffer : ℕ) (rkey : U32)
    (ls : List (Label Page)) :
    Option.Rel Follows (run (step maxInline) ls (initLinked garbage buffer rkey))
      (run (plainStep maxInline) ls (initPlain buffer rkey)) :=
  run_rel (step_follows maxInline) ls (init_follows garbage buffer rkey)

end Refinement

end Maruswap.LinkedServer
