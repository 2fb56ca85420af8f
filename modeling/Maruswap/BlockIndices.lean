import Maruswap.DriverCalls
import Maruswap.ServerHandlers

/-!
# The block numbers that index the tables

Both sides take a block number of ten bits out of a word, and index a table of 128
blocks with it; only the opcode is looked at. `__process_rdma_rpc_open` and
`ib_convey_page` with every index into `memblocks` recorded; without the record they
are the handlers. The entry points of the driver record theirs in their log.
-/

set_option autoImplicit false

namespace Maruswap.BlockIndices
open WireFormat DriverStage DriverCalls DriverCalls.Calls
open ServerHandlers hiding Event configBatch
open ReaderThreads (pickCtrl)

variable {Page : Type*}

section Server
variable [Zero Page]

def tracedAddMemblock (a : AllocResult) (id : ℕ) (s : Server Page) :
    List ℕ × (Bool × Server Page) :=
  if (s.memblocks id).isSome then ([id],(true,s))
  else match a.mmap, a.regMr with
    | some buffer, some rkey => ([id,id],(true,{ s with
        memblocks := Function.update s.memblocks id (some ⟨id,buffer,rkey,fun _ => 0⟩)
        memblockList := s.memblockList++[id] }))
    | _, _ => ([id],(false,s))

def tracedConveyPage (a : AllocResult) (wc : Wc) (s : Server Page) :
    List ℕ × (Bool × Server Page) :=
  match interpretHeader wc.immData with
  | none => ([],(false,s))
  | some hd =>
    let r := if (s.memblocks hd.nrBlock).isNone then tracedAddMemblock a hd.nrBlock s
      else ([],(true,s))
    if r.2.1 then (hd.nrBlock::r.1++[hd.nrBlock],
      (true,copyPage wc hd.nrBlock (byteOffset hd.offset) r.2.2))
    else (hd.nrBlock::r.1,r.2)

/-- The reply is read through the entry twice. -/
def tracedOpen (a : AllocResult) (header : U32) (s : Server Page) :
    List ℕ × Option (Server Page) :=
  match interpretHeader header with
  | none => ([],some s)
  | some hd =>
    let r := if (s.memblocks hd.nrBlock).isNone then tracedAddMemblock a hd.nrBlock s
      else ([],(true,s))
    (hd.nrBlock::r.1++[hd.nrBlock,hd.nrBlock],
      (r.2.2.memblocks hd.nrBlock).map fun mb => r.2.2.emit (.opened header mb.buffer mb.rkey))

theorem traced_add_erases (a : AllocResult) (id : ℕ) (s : Server Page) :
    (tracedAddMemblock a id s).2 = addMemblock a id s := by
  unfold tracedAddMemblock addMemblock
  split
  · rfl
  · cases a.mmap <;> cases a.regMr <;> rfl

theorem traced_convey_erases (a : AllocResult) (wc : Wc) (s : Server Page) :
    (tracedConveyPage a wc s).2 = ibConveyPage a wc s := by
  unfold tracedConveyPage ibConveyPage
  cases interpretHeader wc.immData with
  | none => rfl
  | some hd =>
    dsimp only
    by_cases hn : (s.memblocks hd.nrBlock).isNone = true
    · rw [if_pos hn, if_pos hn, traced_add_erases]
      split <;> rfl
    · rw [if_neg hn, if_neg hn]
      rfl

theorem traced_open_erases (a : AllocResult) (header : U32) (s : Server Page) :
    (tracedOpen a header s).2 = processRdmaRpcOpen a header s := by
  unfold tracedOpen processRdmaRpcOpen
  cases interpretHeader header with
  | none => rfl
  | some hd =>
    dsimp only
    by_cases hn : (s.memblocks hd.nrBlock).isNone = true
    · rw [if_pos hn, if_pos hn, traced_add_erases]
    · rw [if_neg hn, if_neg hn]

theorem traced_add_indices (a : AllocResult) (id : ℕ) (s : Server Page) :
    ∀ n ∈ (tracedAddMemblock a id s).1, n = id := by
  unfold tracedAddMemblock
  split
  · simp
  · cases a.mmap <;> cases a.regMr <;> simp

/-- The handlers index the table with the block of their word, and with nothing else. -/
structure Indexes (word : U32) (indices : List ℕ) : Prop where
  some : blockOf (pageOffset word) ∈ indices
  all : ∀ n ∈ indices, n = blockOf (pageOffset word)

theorem convey_indexes (a : AllocResult) (wc : Wc) (s : Server Page) :
    Indexes wc.immData (tracedConveyPage a wc s).1 := by
  obtain ⟨off,hd,-⟩ := interpret_header_eq wc.immData
  have hadd := traced_add_indices a (blockOf (pageOffset wc.immData)) s
  simp only [tracedConveyPage, hd]
  by_cases hn : (s.memblocks (blockOf (pageOffset wc.immData))).isNone = true
  · rw [if_pos hn]
    split_ifs
    · refine ⟨by simp,fun n hin => ?_⟩
      simp only [List.cons_append, List.mem_cons, List.mem_append, List.not_mem_nil,
        or_false] at hin
      rcases hin with rfl | hin | rfl
      · rfl
      · exact hadd n hin
      · rfl
    · exact ⟨by simp,by simpa using hadd⟩
  · rw [if_neg hn]
    exact ⟨by simp,by simp⟩

theorem open_indexes (a : AllocResult) (header : U32) (s : Server Page) :
    Indexes header (tracedOpen a header s).1 := by
  obtain ⟨off,hd,-⟩ := interpret_header_eq header
  have hadd := traced_add_indices a (blockOf (pageOffset header)) s
  simp only [tracedOpen, hd]
  split_ifs
  · refine ⟨by simp,fun n hn => ?_⟩
    simp only [List.cons_append, List.mem_cons, List.mem_append, List.not_mem_nil,
      or_false] at hn
    rcases hn with rfl | hn | rfl | rfl
    · rfl
    · exact hadd n hn
    · rfl
    · rfl
  · exact ⟨by simp,by simp⟩

end Server

theorem block_in_table_iff (P : ℕ) : blockOf P < maxMemblock ↔ P < 2^25 := by
  unfold blockOf maxMemblock
  omega

theorem Indexes.in_table_iff {word : U32} {indices : List ℕ} (h : Indexes word indices) :
    (∀ n ∈ indices, n < maxMemblock) ↔ pageOffset word < 2^25 := by
  rw [← block_in_table_iff]
  constructor
  · exact fun hall => hall _ h.some
  · exact fun hlt n hn => (h.all n hn).symm ▸ hlt

def touches : Event Page → Bool
  | .touch _ _ => true
  | _ => false

/-- From one state to another the tables are indexed with `n` only, and at all if
`hit`. -/
def Touches (n : ℕ) (hit : Prop) (s t : Calls Page) : Prop :=
  ∃ new, t.log = new++s.log ∧ (∀ c m, .touch c m ∈ new → m = n) ∧
    ((∃ c, .touch c n ∈ new) ↔ hit)

variable {n : ℕ} {hit : Prop} {s t u : Calls Page}

theorem touches_refl (n : ℕ) (s : Calls Page) : Touches n False s s :=
  ⟨[],rfl,by simp,by simp⟩

theorem Touches.still (h : Touches n hit s t)
    (ht : ∃ new, u.log = new++t.log ∧ ∀ e ∈ new, touches e = false) : Touches n hit s u := by
  obtain ⟨new,hnew,hall,hhit⟩ := h
  obtain ⟨more,hmore,hstill⟩ := ht
  have hno : ∀ c m, .touch c m ∉ more := fun c m hin => by cases hstill _ hin
  refine ⟨more++new,by rw [hmore, hnew, List.append_assoc],fun c m hin => ?_,?_⟩
  · exact hall c m ((List.mem_append.mp hin).resolve_left (hno c m))
  · rw [← hhit]
    refine exists_congr fun c => ?_
    rw [List.mem_append, or_iff_right (hno c n)]

theorem Touches.emit (h : Touches n hit s t) (e : Event Page) (he : touches e = false) :
    Touches n hit s (t.emit e) :=
  h.still ⟨[e],rfl,by simpa using he⟩

theorem Touches.asks (h : Touches n True s t) (hask : Asks n t u) : Touches n True s u := by
  obtain ⟨new,hnew,hall,hhit⟩ := h
  obtain ⟨more,hmore,hasks⟩ := hask.log
  obtain ⟨c,hc⟩ := hhit.mpr trivial
  refine ⟨more++new,by rw [hmore, hnew, List.append_assoc],fun c m hin => ?_,
    iff_of_true ⟨c,List.mem_append_right more hc⟩ trivial⟩
  rcases List.mem_append.mp hin with hin | hin
  · exact hasks _ hin
  · exact hall c m hin

theorem Touches.touch (h : Touches n False s t) (c : ℕ) :
    Touches n True s (t.emit (.touch c n)) := by
  obtain ⟨new,hnew,hall,-⟩ := h
  refine ⟨.touch c n::new,congrArg (_::·) hnew,fun d m hin => ?_,
    iff_of_true ⟨c,List.mem_cons_self ..⟩ trivial⟩
  rcases List.mem_cons.mp hin with he | hin
  · cases he
    rfl
  · exact hall d m hin

theorem check_touches (n : ℕ) (s : Calls Page) :
    Touches n (s.rdmaCtrlList ≠ []) s (checkRdmaInfo n s).2 := by
  refine ⟨_,rfl,fun c m hin => ?_,?_⟩
  · obtain ⟨d,-,he⟩ := List.mem_map.mp (List.mem_reverse.mp hin)
    cases he
    rfl
  · simp only [List.mem_reverse, List.mem_map, Event.touch.injEq, and_true, exists_eq_right]
    exact ⟨fun ⟨c,hc⟩ => List.ne_nil_of_mem hc,List.exists_mem_of_ne_nil _⟩

theorem opening_touches {offset : U32} {e : WriteEnv} {ret : U32}
    (h : Opening offset e s ret t) :
    Touches (getNumMemblock offset) (s.rdmaCtrlList ≠ []) s t := by
  have hcheck : Touches (getNumMemblock offset) (s.rdmaCtrlList ≠ []) s
      (checkRdmaInfo (getNumMemblock offset) (s.emit (.map e.dma))).2 := by
    obtain ⟨new,hnew,hall,hhit⟩ := check_touches (getNumMemblock offset) (s.emit (.map e.dma))
    refine ⟨new++[.map e.dma],?_,fun c m hin => hall c m (by simpa using hin),?_⟩
    · rw [hnew, List.append_assoc]
      rfl
    · rw [← (show _ ↔ s.rdmaCtrlList ≠ [] from hhit)]
      simp
  cases h with
  | known hk => exact hcheck
  | asked hk ho =>
    have hne : s.rdmaCtrlList ≠ [] := by
      intro hnil
      simp [WriterThreads.checkRdmaInfo, hnil] at hk
    simp only [ne_eq, hne, not_false_eq_true] at hcheck ⊢
    exact hcheck.asks (open_all_asks ho)

theorem commit_all_touches (h : Touches n hit s t) (word : U32) (results : ℕ → U32) :
    Touches n hit s (commitAllWith word results t).2 := by
  refine h.still ⟨_,rfl,fun e he => ?_⟩
  obtain ⟨c,rfl⟩ := requests_are he
  rfl

theorem write_touches {page : Page} {offset : U32} {e : WriteEnv} {ret : U32}
    (h : maruswapMulticastWrite page offset e s = some (ret,t)) (he : e.mapError = false) :
    Touches (getNumMemblock offset) (s.rdmaCtrlList ≠ []) s t := by
  have hcommit : ∀ {u v : Calls Page} {r : U32}, Opening offset e s 0#32 u →
      Committing e u r v → Touches (getNumMemblock offset) (s.rdmaCtrlList ≠ []) s v := by
    intro u v r ho hc
    cases hc with
    | room hb => exact opening_touches ho
    | full hb => exact commit_all_touches (opening_touches ho) commitWord e.commits
  cases write_writing h with
  | unmapped he' => simp [he] at he'
  | unopened _ ho hret => exact opening_touches ho
  | uncommitted _ ho hc hret => exact hcommit ho hc
  | @sent _ u v _ _ ho hc hsend =>
    have hv : Touches (getNumMemblock offset) (s.rdmaCtrlList ≠ []) s (counted v) :=
      (hcommit ho hc).still ⟨[],rfl,by simp⟩
    have hstore : Touches (getNumMemblock offset) (s.rdmaCtrlList ≠ []) s
        (storePage e.xa page offset ((counted v).emit (.frame (flowHeader offset) page))) := by
      refine (hv.emit _ rfl).still ⟨[_],rfl,fun e he => ?_⟩
      rw [List.mem_singleton.mp he]
      split <;> rfl
    cases hsend with
    | refused hp => exact hv
    | ended hp hd => exact hstore.emit _ rfl
    | failed hp hd => exact hstore

theorem read_touches {odd : Bool} {offset : U32} {e : ReadEnv} {ret : U32}
    (h : maruswapRdmaRead odd offset e s = some (ret,t)) :
    Touches (getNumMemblock offset) True s t := by
  obtain ⟨c,-,hread⟩ := read_reading h
  have htouch := (touches_refl (getNumMemblock offset) s).touch c
  have hfetch : Touches (getNumMemblock offset) True s (fetching c offset e s) := by
    rw [fetching]
    split
    · exact (htouch.emit _ rfl).emit _ rfl
    · exact htouch.emit _ rfl
  cases hread with
  | staged hl => exact htouch.emit _ rfl
  | unmapped hl he => exact htouch
  | ended hl he hd => exact hfetch.emit _ rfl
  | failed hl he hd => exact hfetch

def InTables (s t : Calls Page) : Prop :=
  ∃ new, t.log = new++s.log ∧ ∀ c n, .touch c n ∈ new → n < maxMemblock

theorem Touches.in_tables_iff (h : Touches n hit s t) :
    InTables s t ↔ (hit → n < maxMemblock) := by
  obtain ⟨new,hnew,hall,hhit⟩ := h
  constructor
  · rintro ⟨new',hnew',hin⟩ hh
    obtain rfl : new' = new := List.append_cancel_right (hnew'.symm.trans hnew)
    obtain ⟨c,hc⟩ := hhit.mpr hh
    exact hin c n hc
  · intro hlt
    refine ⟨new,hnew,fun c m hin => ?_⟩
    obtain rfl := hall c m hin
    exact hlt (hhit.mp ⟨c,hin⟩)

theorem num_memblock_in_table_iff (offset : U32) :
    getNumMemblock offset < maxMemblock ↔ offset.toNat % 2^28 < 2^25 := by
  rw [get_num_memblock_eq, block_in_table_iff]

/-- On both sides the tables are indexed within their bounds exactly for the words
whose bits 25 to 27 are zero. A write that finds no controller on the list touches no
table. -/
theorem block_indices_iff [Zero Page] :
    (∀ (a : AllocResult) (header : U32) (s : Server Page),
      (∀ n ∈ (tracedOpen a header s).1, n < maxMemblock) ↔ pageOffset header < 2^25) ∧
    (∀ (a : AllocResult) (wc : Wc) (s : Server Page),
      (∀ n ∈ (tracedConveyPage a wc s).1, n < maxMemblock) ↔ pageOffset wc.immData < 2^25) ∧
    (∀ (page : Page) (offset : U32) (e : WriteEnv) (s t : Calls Page),
      maruswapMulticastWrite page offset e s = some (0#32,t) →
        (InTables s t ↔ offset.toNat % 2^28 < 2^25 ∨ s.rdmaCtrlList = [])) ∧
    ∀ (odd : Bool) (offset : U32) (e : ReadEnv) (s t : Calls Page),
      maruswapRdmaRead odd offset e s = some (0#32,t) →
        (InTables s t ↔ offset.toNat % 2^28 < 2^25) := by
  refine ⟨fun a header s => (open_indexes a header s).in_table_iff,
    fun a wc s => (convey_indexes a wc s).in_table_iff,fun page offset e s t h => ?_,
    fun odd offset e s t h => ?_⟩
  · have he : e.mapError = false := by
      cases he : e.mapError with
      | false => rfl
      | true =>
        simp [maruswapMulticastWrite, getReqForPage, he, enomem] at h
    rw [(write_touches h he).in_tables_iff, num_memblock_in_table_iff, ne_eq]
    exact imp_iff_or_not.trans (by rw [not_not])
  · rw [(read_touches h).in_tables_iff, num_memblock_in_table_iff]
    exact forall_prop_of_true trivial

/-- What lies behind the tables is not zero. -/
def farCalls : Calls ℕ :=
  initCalls (fun _ => true) (fun _ _ => ⟨⟨0,0⟩,1#32⟩) [1,0] 0 fun _ => 0

def sampleEnv : WriteEnv :=
  ⟨4096,false,some ⟨⟨0,0⟩,1#32⟩,some ⟨⟨0,0⟩,1#32⟩,fun _ => 0#32,0#32,true,[.got true]⟩

theorem block_indices_iff_sample : ∃ t,
    maruswapMulticastWrite 7 5#32 sampleEnv farCalls = some (0#32,t) ∧ InTables farCalls t := by
  have hret : (maruswapMulticastWrite 7 5#32 sampleEnv farCalls).map Prod.fst = some 0#32 := by
    decide +kernel
  obtain ⟨⟨ret,t⟩,ht,rfl⟩ := Option.map_eq_some_iff.mp hret
  obtain ⟨-,-,hwrite,-⟩ := @block_indices_iff ℕ _
  exact ⟨t,ht,(hwrite 7 5#32 sampleEnv farCalls t ht).mpr (.inl (by decide))⟩

theorem block_past_tables :
    128 ∈ (tracedOpen ⟨some 0,some 1#32⟩ 0x12000000#32 (initServer 0 1#32 : Server ℕ)).1 ∧
    128 ∈ (tracedConveyPage ⟨some 0,some 1#32⟩ ⟨flowHeader 0x2000000#32,0,0⟩
      (initServer 0 1#32 : Server ℕ)).1 ∧
    ∃ t, maruswapMulticastWrite 7 0x2000000#32 sampleEnv farCalls = some (0#32,t) ∧
      ¬InTables farCalls t := by
  refine ⟨by decide +kernel,by decide +kernel,?_⟩
  have hret : (maruswapMulticastWrite 7 0x2000000#32 sampleEnv farCalls).map Prod.fst =
      some 0#32 := by decide +kernel
  obtain ⟨⟨ret,t⟩,ht,rfl⟩ := Option.map_eq_some_iff.mp hret
  refine ⟨t,ht,fun hin => ?_⟩
  have hlt := (write_touches ht rfl).in_tables_iff.mp hin (by simp [farCalls, initCalls])
  exact absurd hlt (by decide)

end Maruswap.BlockIndices
