import Maruswap.HeaderCodec
import Maruswap.LastFrame

/-!
# GET

`__process_rdma_rpc_get_page` walks the commit list until some frame on it is for
the page it looks for. Every match is copied over the one before, and `list_add` has
put the latest frame first, so what is left is the earliest. What it looks for is the
offset of `interpret_header`, without the block; what it compares it with are all 28
bits of a frame. The page is sent inline, on a queue pair for which 64 bytes of inline
data are asked; `maxInline` is what the provider has granted.
-/

set_option autoImplicit false

namespace Maruswap.GetPage
open WireFormat ServerHandlers ServerBookkeeping CommitWalk GuardedRun LastFrame

variable {Page : Type*}

def opcodeGet : U32 := 0x6#32

/-- The flag `check`, and the page behind the slots of `rpc_buffer`. -/
structure Search (Page : Type*) where
  check : Bool
  page : Page

/-- One walk under `mmh->lock`; it goes on behind a match. -/
def walkList (offset : U32) (s : Server Page) : List ℕ → Search Page → Search Page
  | [], r => r
  | w::ws, r => walkList offset s ws
      (if (s.rw w).wc.immData &&& 0xfffffff#32 = offset then ⟨true,(s.rw w).buffer⟩ else r)

/-- `while(!check)`, with the walks counted. Frames may come between two walks: each
walk has the server as it finds it. There is no value while the loop goes on. -/
def searchLoop (offset : U32) : List (Server Page) → Page → Option (ℕ × Page)
  | [], _ => none
  | s::ss, page =>
    let r := walkList offset s s.commitList ⟨false,page⟩
    if r.check then some (1,r.page)
    else (searchLoop offset ss r.page).map fun q => (q.1+1,q.2)

/-- `.max_inline_data` in `ib_create_rdma_qp` -/
def askedInline : ℕ := 64

inductive Outcome (Page : Type*) where
  | ignored
  | replied (immData : U32) (page : Page)
  | aborted
  deriving DecidableEq

/-- `__ib_send`: a post with more inline data than the queue pair takes is refused, and
`assert(!bad_wr)` ends the server. -/
def ibSendInline (maxInline size : ℕ) (immData : U32) (page : Page) : Outcome Page :=
  if size ≤ maxInline then .replied immData page else .aborted

def processRdmaRpcGetPage (maxInline : ℕ) (header : U32) (ss : List (Server Page)) (page : Page) :
    Option (ℕ × Outcome Page) :=
  match interpretHeader header with
  | none => some (0,.ignored)
  | some hd => (searchLoop hd.offset ss page).map fun q =>
      (q.1,ibSendInline maxInline pageSize header q.2)

theorem interpret_header_offset (header : U32) : ∃ hd, interpretHeader header = some hd ∧
    hd.offset.toNat = pageOffset header % 2^18 := by
  refine ⟨_,HeaderCodec.interpret_header_fields header,?_⟩
  change (BitVec.ofNat 32 (header.toNat % 2^28 &&& 0x3ffff)).toNat = header.toNat % 2^28 % 2^18
  rw [show (0x3ffff : ℕ) = 2^18-1 from rfl, Nat.and_two_pow_sub_one_eq_mod, BitVec.toNat_ofNat,
    Nat.mod_eq_of_lt (by omega)]

theorem matches_iff (immData offset : U32) :
    immData &&& 0xfffffff#32 = offset ↔ pageOffset immData = offset.toNat := by
  have hm : (immData &&& 0xfffffff#32).toNat = pageOffset immData :=
    BitFields.toNat_mask immData 28 (by decide)
  rw [← hm]
  exact ⟨congrArg BitVec.toNat,BitVec.eq_of_toNat_eq⟩

theorem walk_list_eq (offset : U32) (s : Server Page) (ws : List ℕ) (r : Search Page) :
    walkList offset s ws r =
      ((KeyedLog.lastOf offset.toNat (ws.map (entry s))).map (Search.mk true)).getD r := by
  induction ws generalizing r with
  | nil => rfl
  | cons w ws ih =>
    rw [walkList, ih, List.map_cons, KeyedLog.last_of_cons]
    cases hlast : KeyedLog.lastOf offset.toNat (ws.map (entry s)) with
    | some page => rfl
    | none =>
      by_cases h : pageOffset (s.rw w).wc.immData = offset.toNat <;> simp [matches_iff, entry, h]

theorem sent_inline_iff (maxInline size : ℕ) (immData : U32) (page found : Page) :
    ibSendInline maxInline size immData page = .replied immData found ↔
      size ≤ maxInline ∧ page = found := by
  unfold ibSendInline
  split_ifs with h
  · simp [h]
  · simp [h]

section Frames
variable [Zero Page]

/-- A frame for a posted receive work. The list does not depend on what becomes of the
copy, so that the frame may be for any block. -/
def receive (f : Frame Page) (s : Server Page) : Option (Server Page) :=
  if ibGetOpcode f.header = multicastOpcodeFlow ∧ f.work ∈ s.posted then
    some (processMulticastRpcFlow f.alloc ⟨f.header,f.work,0⟩ (deliver f.work f.payload s))
  else none

structure Lists (fs : List (Frame Page)) (s : Server Page) : Prop where
  clean : Clean s
  entries : s.commitList.map (entry s) = (fs.map Frame.write).reverse

variable {fs : List (Frame Page)} {f : Frame Page} {s t : Server Page}

omit [Zero Page] in
theorem arrived_entries (hs : Clean s) (hw : f.work ∈ s.posted) :
    (arrived f s).commitList.map (entry (arrived f s)) = f.write::s.commitList.map (entry s) := by
  have hold : s.commitList.map (entry (arrived f s)) = s.commitList.map (entry s) := by
    refine List.map_congr_left fun v hv => ?_
    have hne : v ≠ f.work := by
      rintro rfl
      exact hs.fresh hw hv
    rw [entry, entry, arrived_rw, Function.update_of_ne hne]
  have hlist : (arrived f s).commitList = f.work::s.commitList := rfl
  rw [hlist, List.map_cons, arrived_entry, hold]

theorem receive_lists (h : Lists fs s) (ht : receive f s = some t) : Lists (fs++[f]) t := by
  obtain ⟨⟨-,hw⟩,ht⟩ := Option.ite_none_right_eq_some.mp ht
  obtain rfl := Option.some.inj ht
  obtain ⟨hclean,hflow⟩ := flow_cases f h.clean hw
  have harrived := arrived_entries (f := f) h.clean hw
  have hframes : ((fs++[f]).map Frame.write).reverse = f.write::(fs.map Frame.write).reverse := by
    simp
  refine ⟨hclean,?_⟩
  rw [hframes, ← h.entries, ← harrived]
  cases hflow with
  | copied hstep hlist hgot =>
    rw [hlist]
    exact List.map_congr_left fun v _ => hstep.entry_eq v
  | left ht hnone hfail => rw [ht]

theorem run_lists (pre : List (Frame Page)) (h : Lists pre s) (ht : run receive fs s = some t) :
    Lists (pre++fs) t := by
  induction fs generalizing pre s with
  | nil =>
    obtain rfl := Option.some.inj ht
    rwa [List.append_nil]
  | cons f fs ih =>
    obtain ⟨u,hu,hrest⟩ := run_cons.mp ht
    rw [List.append_cons]
    exact ih _ (receive_lists h hu) hrest

def newestFrame (P : ℕ) (fs : List (Frame Page)) : Option Page :=
  (ofPage P fs).getLast?.map Frame.payload

omit [Zero Page] in
theorem last_of_list (Q : ℕ) (h : s.commitList.map (entry s) = (fs.map Frame.write).reverse) :
    KeyedLog.lastOf Q (s.commitList.map (entry s)) = firstFrame Q fs := by
  rw [h, KeyedLog.lastOf, KeyedLog.entries_reverse, entries_write, List.getLast?_reverse,
    List.head?_map, firstFrame]

omit [Zero Page] in
theorem walk_frames (h : Lists fs s) (offset : U32) (page : Page) :
    walkList offset s s.commitList ⟨false,page⟩ =
      ((firstFrame offset.toNat fs).map (Search.mk true)).getD ⟨false,page⟩ := by
  rw [walk_list_eq, last_of_list offset.toNat h.entries]

omit [Zero Page] in
theorem search_found (h : Lists fs s) {offset : U32} {first : Page}
    (hfirst : firstFrame offset.toNat fs = some first) (ss : List (Server Page)) (page : Page) :
    searchLoop offset (s::ss) page = some (1,first) := by
  rw [searchLoop, walk_frames h, hfirst]
  rfl

omit [Zero Page] in
theorem search_missed (h : Lists fs s) {offset : U32} (hnone : firstFrame offset.toNat fs = none)
    (ss : List (Server Page)) (page : Page) :
    searchLoop offset (s::ss) page =
      (searchLoop offset ss page).map fun q => (q.1+1,q.2) := by
  rw [searchLoop, walk_frames h, hnone]
  rfl

omit [Zero Page] in
theorem search_spins (h : Lists fs s) {offset : U32} (hnone : firstFrame offset.toNat fs = none)
    (n : ℕ) (page : Page) : searchLoop offset (List.replicate n s) page = none := by
  induction n with
  | zero => rfl
  | succ n ih => rw [List.replicate_succ, search_missed h hnone, ih, Option.map_none]

omit [Zero Page] in
theorem search_walks {offset : U32} {ss : List (Server Page)} {page : Page} {q : ℕ × Page}
    (h : searchLoop offset ss page = some q) : q.1 ≠ 0 := by
  cases ss with
  | nil => cases h
  | cons s ss =>
    rw [searchLoop] at h
    split_ifs at h
    · obtain rfl := Option.some.inj h
      exact Nat.one_ne_zero
    · obtain ⟨r,-,rfl⟩ := Option.map_eq_some_iff.mp h
      exact Nat.succ_ne_zero r.1

omit [Zero Page] in
/-- One walk is enough exactly if some frame is for the page looked for; then what is
sent is the earliest such frame. -/
theorem get_page_once_iff (h : Lists fs s) (maxInline : ℕ) (header : U32)
    (ss : List (Server Page)) (page : Page) (out : Outcome Page) :
    processRdmaRpcGetPage maxInline header (s::ss) page = some (1,out) ↔
      ∃ first, firstFrame (pageOffset header % 2^18) fs = some first ∧
        ibSendInline maxInline pageSize header first = out := by
  obtain ⟨hd,hhd,hoffset⟩ := interpret_header_offset header
  rw [processRdmaRpcGetPage, hhd, ← hoffset]
  cases hfirst : firstFrame hd.offset.toNat fs with
  | some first =>
    dsimp only
    rw [search_found h hfirst]
    simp
  | none =>
    dsimp only
    rw [search_missed h hfirst]
    cases hrest : searchLoop hd.offset ss page with
    | none => simp
    | some q =>
      have hq : q.1 ≠ 0 := search_walks hrest
      simp [hq]

omit [Zero Page] in
theorem get_page_spins (h : Lists fs s) (maxInline : ℕ) {header : U32}
    (hnone : firstFrame (pageOffset header % 2^18) fs = none) (n : ℕ) (page : Page) :
    processRdmaRpcGetPage maxInline header (List.replicate n s) page = none := by
  obtain ⟨hd,hhd,hoffset⟩ := interpret_header_offset header
  rw [← hoffset] at hnone
  rw [processRdmaRpcGetPage, hhd]
  dsimp only
  rw [search_spins h hnone, Option.map_none]

/-- On a connection with an empty commit list any frames arrive, with any of the
allocations failing, and a GET for a page that one of them is for. It leaves its loop
after one walk and replies with the latest of these frames exactly if the queue pair
takes a page of inline data and the earliest frame for the page of block 0 with the same
offset has that content; without a frame for that page it never leaves the loop. -/
theorem get_page_newest_iff (buffer : ℕ) (rkey : U32) (before : List (Message Page))
    (hbefore : run step before (initServer buffer rkey) = some s) (hempty : s.commitList = [])
    (h : run receive fs s = some t) (maxInline : ℕ) (header : U32) (newest : Page)
    (hnewest : newestFrame (pageOffset header) fs = some newest) (ss : List (Server Page))
    (page : Page) :
    (processRdmaRpcGetPage maxInline header (t::ss) page = some (1,.replied header newest) ↔
      pageSize ≤ maxInline ∧
        firstFrame (pageOffset header % 2^18) fs = newestFrame (pageOffset header) fs) ∧
    (firstFrame (pageOffset header % 2^18) fs = none →
      ∀ n, processRdmaRpcGetPage maxInline header (List.replicate n t) page = none) := by
  have hs : Clean s := run_induction step_clean (init_clean buffer rkey) hbefore
  have ht : Lists fs t := run_lists [] ⟨hs,by simp [hempty]⟩ h
  refine ⟨?_,fun hnone n => get_page_spins ht maxInline hnone n page⟩
  rw [get_page_once_iff ht, hnewest]
  constructor
  · rintro ⟨first,hfirst,hsent⟩
    obtain ⟨hsize,rfl⟩ := (sent_inline_iff ..).mp hsent
    exact ⟨hsize,hfirst⟩
  · exact fun ⟨hsize,hfirst⟩ => ⟨newest,hfirst,(sent_inline_iff ..).mpr ⟨hsize,rfl⟩⟩

end Frames

def getWord (offset : U32) : U32 := HeaderCodec.setHeader opcodeGet offset

/-- Two frames for one page, and a frame for the same offset in block 1. -/
def gotten : List (Frame ℕ) :=
  [⟨flowHeader 5#32,7,0,⟨some 0,some 1#32⟩⟩,⟨flowHeader 5#32,8,1,⟨some 0,some 1#32⟩⟩,
    ⟨flowHeader 6#32,4,2,⟨some 0,some 1#32⟩⟩,⟨flowHeader 0x40007#32,9,3,⟨some 4096,some 9#32⟩⟩]

theorem get_page_newest_iff_sample : ∃ t, run receive gotten (initServer 0 1#32) = some t ∧
    processRdmaRpcGetPage 4096 (getWord 6#32) [t] 0 = some (1,.replied (getWord 6#32) 4) := by
  have hsome : (run receive gotten (initServer 0 1#32)).isSome := by decide +kernel
  obtain ⟨t,ht⟩ := Option.isSome_iff_exists.mp hsome
  exact ⟨t,ht,(get_page_newest_iff 0 1#32 [] rfl rfl ht 4096 (getWord 6#32) 4 (by decide) []
    0).1.mpr ⟨by decide,by decide⟩⟩

/-- With the inline data that is asked for the server aborts. With a page of it the earlier
of the two frames is replied, and a GET for the page in block 1 is not answered at all. -/
theorem oldest_page_got : ∃ t, run receive gotten (initServer 0 1#32) = some t ∧
    newestFrame (pageOffset (getWord 5#32)) gotten = some 8 ∧
    processRdmaRpcGetPage askedInline (getWord 5#32) [t] 0 = some (1,.aborted) ∧
    processRdmaRpcGetPage pageSize (getWord 5#32) [t] 0 =
      some (1,.replied (getWord 5#32) 7) ∧
    newestFrame (pageOffset (getWord 0x40007#32)) gotten = some 9 ∧
    ∀ n, processRdmaRpcGetPage pageSize (getWord 0x40007#32) (List.replicate n t) 0 = none := by
  have hsome : (run receive gotten (initServer 0 1#32)).isSome := by decide +kernel
  obtain ⟨t,ht⟩ := Option.isSome_iff_exists.mp hsome
  have hlists : Lists gotten t :=
    run_lists [] ⟨init_clean 0 1#32,by simp [initServer]⟩ ht
  exact ⟨t,ht,by decide,(get_page_once_iff hlists _ _ [] 0 _).mpr ⟨7,by decide,by decide⟩,
    (get_page_once_iff hlists _ _ [] 0 _).mpr ⟨7,by decide,by decide⟩,by decide,
    fun n => get_page_spins hlists _ (by decide) n 0⟩

end Maruswap.GetPage
