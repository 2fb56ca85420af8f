import Maruswap.ReadYourWrites

/-!
# Swap slots

`maruswap_store` and `maruswap_load` drop the type of a slot and hand its page id
on as 32 bits. The stage buffer is keyed by these; a header and a read address
keep 28 of them. Slots are apart on both paths exactly if their page ids are
apart in the low 28 bits, and then nothing stored to one shows in the other.
-/

set_option autoImplicit false

namespace Maruswap.SwapSlots
open WireFormat DriverStage WriterThreads GuardedRun OneWriter ReaderThreads ReadYourWrites

variable {Page : Type*}

/-- The arguments of `maruswap_store` and `maruswap_load`; `pgoff_t` has 64 bits. -/
structure Slot where
  type : U32
  pageid : BitVec 64
  deriving DecidableEq

/-- `u32 offset`, the only argument that gets to `sib.c`. -/
def Slot.offset (s : Slot) : U32 := s.pageid.setWidth 32

/-- Where a server puts the frame of the slot. -/
def Slot.location (s : Slot) : Option Ptr :=
  (interpretHeader (flowHeader s.offset)).map fun hd => ⟨hd.nrBlock,byteOffset hd.offset⟩

/-- What `maruswap_rdma_read` copies to the page when the RDMA read succeeds. -/
def maruswapLoad (odd : Bool) (s : Slot) (w : Cluster Page) : Option Page :=
  (pickCtrl odd w.toDriver).map fun c =>
    (stageBufferLoad s.offset w.stageBuffer).getD
      ((w.server c).memory (readAddr w.toDriver ⟨.loading,s.offset,c,none,none⟩))

theorem offset_toNat (s : Slot) : s.offset.toNat = s.pageid.toNat % 2^32 :=
  BitVec.toNat_setWidth 32 s.pageid

theorem offset_eq_iff (s t : Slot) :
    s.offset = t.offset ↔ s.pageid.toNat % 2^32 = t.pageid.toNat % 2^32 := by
  rw [← offset_toNat, ← offset_toNat]
  exact BitVec.toNat_inj.symm

theorem page_of_offset (s : Slot) : pageOf s.offset = s.pageid.toNat % 2^28 := by
  rw [pageOf, offset_toNat]
  omega

theorem location_eq (s : Slot) :
    s.location = some ⟨blockOf (pageOf s.offset),byteOf (pageOf s.offset)⟩ := by
  obtain ⟨off,hd,ho⟩ := interpret_header_eq (flowHeader s.offset)
  rw [Slot.location, hd, Option.map_some, ho, flow_header_page]
  rfl

theorem location_eq_iff (s t : Slot) :
    s.location = t.location ↔ s.pageid.toNat % 2^28 = t.pageid.toNat % 2^28 := by
  rw [location_eq, location_eq, ← page_of_offset, ← page_of_offset]
  constructor
  · intro h
    have hp := Ptr.mk.inj (Option.some.inj h)
    exact location_injective _ _ hp.1 hp.2
  · intro h
    rw [h]

theorem read_addr_location (s : Slot) (c : ℕ) (d : Driver Page)
    (h : Based d c (getNumMemblock s.offset)) (rd : Reader Page) (hc : rd.ctrl = c)
    (ho : rd.offset = s.offset) : some (readAddr d rd) = s.location := by
  have hbase : ((d.ctrl rd.ctrl).rdmaInfo (getNumMemblock rd.offset)).remoteAddr =
      ⟨getNumMemblock s.offset,0⟩ := by rw [hc, ho]; exact h
  rw [location_eq, readAddr, hbase, ho, get_num_memblock_eq, send_offset_byte, Nat.zero_add]
  rfl

/-- No store to a slot with the page of `t` begins. -/
def Elsewhere (t : Slot) : ReaderThreads.Label Page → Cluster Page → Prop
  | .driver (.call _ offset _ _) _, _ => pageOf offset ≠ pageOf t.offset
  | _, _ => True

theorem load_promised {w : Cluster Page} (h : Faithful w) {t : Slot} {v : Page}
    (hv : w.latest t.offset = some v) (odd : Bool) : maruswapLoad odd t w = some v := by
  have hp := h.held.latest t.offset v hv
  have hconn := h.held.alone.linked.connected
  obtain ⟨c,hc⟩ : ∃ c, pickCtrl odd w.toDriver = some c := by
    cases odd <;> simp [pickCtrl, subRdmaCtrl, hconn.list, hconn.main]
  have hlt := pick_ctrl_lt hconn odd hc
  rw [maruswapLoad, hc, Option.map_some]
  cases hl : stageBufferLoad t.offset w.stageBuffer with
  | some page =>
    have hs := hp.stored
    rw [h.held.alone.staged.sound.loads _ page hl] at hs
    exact hs
  | none =>
    have hn : w.stageBuffer.checkList t.offset = none := by simpa [stageBufferLoad] using hl
    have haddr := (read_addr_location t c w.toDriver (hp.based c hlt)
      ⟨.loading,t.offset,c,none,none⟩ rfl rfl).trans (location_eq t)
    rw [Option.getD_none, Option.some.inj haddr]
    exact congrArg some
      ((Server.settled (hp.handled hn c hlt)).symm.trans (hp.eventual c))

theorem step_latest (t : Slot) (v : Page) (l : ReaderThreads.Label Page) (w u : Cluster Page)
    (h : Faithful w) (hv : w.latest t.offset = some v) (hg : Reliable l w)
    (he : Elsewhere t l w) (hs : ReaderThreads.step l w = some u) :
    u.latest t.offset = some v := by
  cases l with
  | driver l lost =>
    obtain ⟨x,hx,rfl⟩ := Option.map_eq_some_iff.mp hs
    change written l w t.offset = some v
    cases step_effect hx with
    | call page ret hpc ho => exact (if_neg (Ne.symm he)).trans hv
    | complete hpc =>
      obtain rfl := Option.some.inj hg.1
      have hbusy : ¬ (w.pc 0).Resting := by rw [hpc]; exact id
      have hne := h.held.offset_ne hbusy hv
      exact (Function.update_of_ne (fun ho => hne (congrArg pageOf ho)) _ _).trans hv
    | _ => exact hv
  | deliver c k =>
    obtain ⟨s,-,rfl⟩ := Option.map_eq_some_iff.mp hs
    exact hv
  | read r offset odd =>
    simp only [ReaderThreads.step, Option.ite_none_right_eq_some] at hs
    obtain ⟨c,-,rfl⟩ := Option.map_eq_some_iff.mp hs.2
    exact hv
  | load r =>
    obtain ⟨-,hs⟩ := Option.ite_none_right_eq_some.mp hs
    exact Option.some.inj hs ▸ hv
  | issue r ret =>
    obtain ⟨-,hs⟩ := Option.ite_none_right_eq_some.mp hs
    exact Option.some.inj hs ▸ hv
  | rdmaRead r ret =>
    simp only [ReaderThreads.step] at hs
    split at hs
    · exact Option.some.inj hs ▸ hv
    · cases hs

theorem run_latest (t : Slot) (v : Page) (ms : List (ReaderThreads.Label Page))
    (w u : Cluster Page) (h : Faithful w) (hv : w.latest t.offset = some v)
    (hg : Meets ReaderThreads.step Reliable ms w)
    (he : Meets ReaderThreads.step (Elsewhere t) ms w)
    (hm : run ReaderThreads.step ms w = some u) :
    Faithful u ∧ u.latest t.offset = some v := by
  have hstep : ∀ (l : ReaderThreads.Label Page) (x y : Cluster Page),
      Faithful x ∧ x.latest t.offset = some v → Reliable l x ∧ Elsewhere t l x →
        ReaderThreads.step l x = some y → Faithful y ∧ y.latest t.offset = some v :=
    fun l x y hx hl hs => ⟨step_faithful l x y hx.1 hl.1 hs,
      step_latest t v l x y hx.1 hx.2 hl.1 hl.2 hs⟩
  exact run_invariant hstep ⟨h,hv⟩ (hg.and he) hm

/-- The type of a slot plays no part. Two slots share their stage key exactly if
their page ids agree modulo 2^32, and their place on the servers exactly if they
agree modulo 2^28. A slot whose last store returned 0 reads back the page stored,
whatever is stored to slots that differ from it modulo 2^28. -/
theorem slots_apart (buffer : ℕ → Page) (call : ℕ → Call Page) (memory : ℕ → Ptr → Page) :
    (∀ s t : Slot, (s.offset = t.offset ↔ s.pageid.toNat % 2^32 = t.pageid.toNat % 2^32) ∧
      (s.location = t.location ↔ s.pageid.toNat % 2^28 = t.pageid.toNat % 2^28)) ∧
    ∀ (ls ms : List (ReaderThreads.Label Page)) (w u : Cluster Page) (t : Slot) (v : Page),
      Meets ReaderThreads.step Reliable ls (initCluster buffer call memory) →
      run ReaderThreads.step ls (initCluster buffer call memory) = some w →
      w.latest t.offset = some v →
      Meets ReaderThreads.step Reliable ms w → Meets ReaderThreads.step (Elsewhere t) ms w →
      run ReaderThreads.step ms w = some u →
      ∀ odd, maruswapLoad odd t w = some v ∧ maruswapLoad odd t u = some v := by
  refine ⟨fun s t => ⟨offset_eq_iff s t,location_eq_iff s t⟩,?_⟩
  intro ls ms w u t v hg h hv hgm he hm odd
  have hw := run_invariant step_faithful (init_faithful buffer call memory) hg h
  obtain ⟨hu,hv'⟩ := run_latest t v ms w u hw hv hgm he hm
  exact ⟨load_promised hw hv odd,load_promised hu hv' odd⟩

def firstStore (s : Slot) (page : ℕ) : List (ReaderThreads.Label ℕ) :=
  [.call 0 s.offset page 0#32,.lock 0,.check 0,.openRpc 0 (some ⟨⟨0,0⟩,1#32⟩),
    .openRpc 0 (some ⟨⟨0,0⟩,2#32⟩),.test 0,.count 0,.post 0 0#32,.store 0 true,
    .complete 0 true].map fun l => .driver l fun _ => false

def nextStore (s : Slot) (page : ℕ) : List (ReaderThreads.Label ℕ) :=
  [.call 0 s.offset page 0#32,.lock 0,.check 0,.test 0,.count 0,.post 0 0#32,.store 0 true,
    .complete 0 true].map fun l => .driver l fun _ => false

def freshCluster : Cluster ℕ :=
  initCluster (fun _ => 0) (fun _ => ⟨0#32,0,0⟩) (fun _ _ => 0)

theorem slots_apart_sample : ∃ w u : Cluster ℕ,
    run ReaderThreads.step (firstStore ⟨0#32,5#64⟩ 7) freshCluster = some w ∧
    run ReaderThreads.step (nextStore ⟨0#32,6#64⟩ 8) w = some u ∧
    maruswapLoad true ⟨0#32,5#64⟩ u = some 7 := by
  have hne : pageOf (Slot.offset ⟨0#32,6#64⟩) ≠ pageOf (Slot.offset ⟨0#32,5#64⟩) := by decide
  have hfirst : ∃ w : Cluster ℕ,
      (run ReaderThreads.step (firstStore ⟨0#32,5#64⟩ 7) freshCluster = some w ∧
        Meets ReaderThreads.step Reliable (firstStore ⟨0#32,5#64⟩ 7) freshCluster) ∧
      w.latest 5#32 = some 7 ∧ ∃ u : Cluster ℕ,
      run ReaderThreads.step (nextStore ⟨0#32,6#64⟩ 8) w = some u ∧
      Meets ReaderThreads.step (fun l w => Reliable l w ∧ Elsewhere ⟨0#32,5#64⟩ l w)
        (nextStore ⟨0#32,6#64⟩ 8) w :=
    ⟨_,guarded_cons rfl ⟨rfl,trivial,trivial⟩ <|
      guarded_cons rfl ⟨rfl,trivial,trivial⟩ <|
      guarded_cons rfl ⟨rfl,trivial,trivial⟩ <|
      guarded_cons rfl ⟨rfl,⟨1#32,rfl⟩,trivial⟩ <|
      guarded_cons rfl ⟨rfl,⟨2#32,rfl⟩,trivial⟩ <|
      guarded_cons rfl ⟨rfl,trivial,trivial⟩ <|
      guarded_cons rfl ⟨rfl,trivial,trivial⟩ <|
      guarded_cons rfl ⟨rfl,trivial,trivial⟩ <|
      guarded_cons rfl ⟨rfl,rfl,trivial⟩ <|
      guarded_cons rfl ⟨rfl,trivial,trivial⟩ ⟨rfl,trivial⟩,rfl,
      _,guarded_cons rfl ⟨⟨rfl,trivial,trivial⟩,hne⟩ <|
      guarded_cons rfl ⟨⟨rfl,trivial,trivial⟩,trivial⟩ <|
      guarded_cons rfl ⟨⟨rfl,trivial,trivial⟩,trivial⟩ <|
      guarded_cons rfl ⟨⟨rfl,trivial,trivial⟩,trivial⟩ <|
      guarded_cons rfl ⟨⟨rfl,trivial,trivial⟩,trivial⟩ <|
      guarded_cons rfl ⟨⟨rfl,trivial,trivial⟩,trivial⟩ <|
      guarded_cons rfl ⟨⟨rfl,rfl,trivial⟩,trivial⟩ <|
      guarded_cons rfl ⟨⟨rfl,trivial,trivial⟩,trivial⟩ ⟨rfl,trivial⟩⟩
  obtain ⟨w,⟨hw,hg⟩,hv,u,hu,hmeets⟩ := hfirst
  have hgm := hmeets.mono (k := Reliable) (fun _ _ h => h.1)
  have hem := hmeets.mono (k := Elsewhere ⟨0#32,5#64⟩) (fun _ _ h => h.2)
  exact ⟨w,u,hw,hu,((slots_apart (fun _ => 0) (fun _ => ⟨0#32,0,0⟩) (fun _ _ => 0)).2 _ _ w u
    ⟨0#32,5#64⟩ 7 hg hw hv hgm hem hu true).2⟩

/-- Page 5 of the first swap area is overwritten by page 5 of the second. -/
theorem swap_areas_alias : ∃ w u : Cluster ℕ,
    (⟨0#32,5#64⟩ : Slot) ≠ ⟨1#32,5#64⟩ ∧
    run ReaderThreads.step (firstStore ⟨0#32,5#64⟩ 7) freshCluster = some w ∧
    maruswapLoad true ⟨0#32,5#64⟩ w = some 7 ∧
    run ReaderThreads.step (nextStore ⟨1#32,5#64⟩ 8) w = some u ∧
    maruswapLoad true ⟨0#32,5#64⟩ u = some 8 :=
  ⟨_,_,by decide,rfl,rfl,rfl,rfl⟩

end Maruswap.SwapSlots
