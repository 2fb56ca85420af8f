import Maruswap.ByteRanges
import Maruswap.HeaderCodec
import Maruswap.ReaderThreads

/-!
# Where a page is kept

`ib_convey_page` copies a frame, `maruswap_rdma_read` and the client of lib/test.c
fetch a page, each to or from an address it computes itself, in 32-bit words and
64-bit pointers. `buffer` gives the base of every block, which is what an OPEN
replies.
-/

set_option autoImplicit false

namespace Maruswap.PageRanges
open WireFormat HeaderCodec ServerHandlers DriverStage BitFields ByteRanges
open ReaderThreads (Reader readAddr)

/-- `MEMBLOCK_SIZE` -/
def memblockSize : ℕ := 2^30

abbrev Place := ℕ × U64

/-- `offset << 12` on a 32-bit word, added to a pointer. -/
def shifted (offset : U32) : U64 := (offset <<< 12).setWidth 64

/-- `memblocks[nr_block]->buffer + (offset << 12)` -/
def conveyPlace (buffer : ℕ → U64) (header : U32) : Option Place :=
  (interpretHeader header).map fun hd =>
    (hd.nrBlock,buffer hd.nrBlock+shifted hd.offset)

/-- `rdma_info->remote_addr + (send_offset << PAGE_SHIFT)` -/
def readPlace (buffer : ℕ → U64) (offset : U32) : Place :=
  (getNumMemblock offset,buffer (getNumMemblock offset)+shifted (offset &&& 0x3ffff#32))

/-- `list[nr_block].remote_addr + ((offset & 0x3ffff) << 12)`, with eight bits of
block number. -/
def testPlace (buffer : ℕ → U64) (offset : U32) : Place :=
  let nrBlock := ((offset >>> 18) &&& 0xff#32).toNat
  (nrBlock,buffer nrBlock+shifted (offset &&& 0x3ffff#32))

def Place.bytes (p : Place) : Set U64 := ByteRanges.bytes p.2 pageSize

variable {Page : Type*}

def ptrAddr (buffer : ℕ → U64) (p : Ptr) : U64 := buffer p.block+BitVec.ofNat 64 p.byte

theorem shifted_eq (offset : U32) : shifted offset = BitVec.ofNat 64 (byteOffset offset) := by
  apply BitVec.eq_of_toNat_eq
  rw [shifted, BitVec.toNat_setWidth, BitVec.toNat_ofNat, byteOffset]

theorem read_addr_place (buffer : ℕ → U64) (d : Driver Page) (rd : Reader Page)
    (h : ((d.ctrl rd.ctrl).rdmaInfo (getNumMemblock rd.offset)).remoteAddr =
      ⟨getNumMemblock rd.offset,0⟩) :
    ptrAddr buffer (readAddr d rd) = (readPlace buffer rd.offset).2 := by
  simp only [readAddr, ptrAddr, h, readPlace, Nat.zero_add, shifted_eq]

theorem convey_place_logged [Zero Page] (a : AllocResult) (wc : Wc) (s : Server Page)
    (h : (ibConveyPage a wc s).1 = true) (buffer : ℕ → U64) :
    ∃ block byte content, (ibConveyPage a wc s).2.log =
        .convey wc.frame block byte content::s.log ∧
      conveyPlace buffer wc.immData = some (block,ptrAddr buffer ⟨block,byte⟩) := by
  obtain ⟨off,hd,ho⟩ := interpret_header_eq wc.immData
  rcases ib_convey_page_cases a wc s with ⟨-,hc⟩ | ⟨he,-,-⟩
  · refine ⟨_,_,_,hc.log,?_⟩
    rw [conveyPlace, hd, ← ho]
    simp only [Option.map_some, ptrAddr, shifted_eq]
  · rw [he] at h
    cases h

theorem read_place_eq (buffer : ℕ → U64) (offset : U32) :
    readPlace buffer offset = (blockOf (offset.toNat % 2^28),
      ptrAddr buffer ⟨blockOf (offset.toNat % 2^28),byteOf (offset.toNat % 2^28)⟩) := by
  rw [readPlace, shifted_eq, send_offset_byte, get_num_memblock_eq, ptrAddr]

theorem convey_place_eq (buffer : ℕ → U64) (offset : U32) :
    conveyPlace buffer (flowHeader offset) = some (readPlace buffer offset) := by
  obtain ⟨off,hd,ho⟩ := interpret_header_eq (flowHeader offset)
  rw [conveyPlace, hd, read_place_eq, ← flow_header_page]
  simp only [Option.map_some, ptrAddr, ← ho, shifted_eq]

theorem test_place_eq (buffer : ℕ → U64) (offset : U32) (h : offset.toNat < 2^26) :
    testPlace buffer offset = readPlace buffer offset := by
  have hblock : ((offset >>> 18) &&& 0xff#32).toNat = getNumMemblock offset := by
    have hf : ((offset >>> 18) &&& 0xff#32).toNat = offset.toNat / 2^18 % 2^8 :=
      toNat_field 18 8 offset (by decide)
    rw [hf, get_num_memblock_eq, blockOf]
    omega
  simp only [testPlace, readPlace, hblock]

theorem read_bytes_eq (buffer : ℕ → U64) (offset : U32) :
    Place.bytes (readPlace buffer offset) =
      part (buffer (readPlace buffer offset).1) (byteOf (offset.toNat % 2^28)) pageSize := by
  rw [read_place_eq]
  rfl

theorem byte_of_fits (P : ℕ) : byteOf P+pageSize ≤ memblockSize := by
  unfold byteOf pageSize memblockSize
  omega

theorem other_page_apart (buffer : ℕ → U64) {P Q : U32} (hP : P.toNat < 2^25)
    (hQ : Q.toNat < 2^25) (hne : Q ≠ P) :
    (readPlace buffer Q).1 ≠ (readPlace buffer P).1 ∨
      Disjoint (Place.bytes (readPlace buffer Q)) (Place.bytes (readPlace buffer P)) := by
  have hfits := byte_of_fits (P.toNat % 2^28)
  have hfitsQ := byte_of_fits (Q.toNat % 2^28)
  have hblocksize : memblockSize = 1073741824 := rfl
  refine or_iff_not_imp_left.mpr fun hblock => ?_
  have hblock := not_not.mp hblock
  rw [read_bytes_eq, read_bytes_eq, hblock,
    part_disjoint_iff _ (by decide) (by decide) (by omega) (by omega)]
  have hPQ : P.toNat ≠ Q.toNat := fun he => hne (BitVec.eq_of_toNat_eq he.symm)
  rw [read_place_eq, read_place_eq] at hblock
  simp only [blockOf] at hblock
  unfold byteOf pageSize
  omega

/-- Writer, reader and test client compute the same page of the same block, inside
it and without a carry out of 32 bits, and no two offsets share a byte. -/
theorem same_bytes (buffer : ℕ → U64) (P : U32) (hP : P.toNat < maxMemblock*2^18) :
    conveyPlace buffer (flowHeader P) = some (readPlace buffer P) ∧
    testPlace buffer P = readPlace buffer P ∧
    (readPlace buffer P).1 < maxMemblock ∧
    ((P &&& 0x3ffff#32) <<< 12).toNat = P.toNat % 2^18*pageSize ∧
    P.toNat % 2^18*pageSize+pageSize ≤ memblockSize ∧
    Place.bytes (readPlace buffer P) ⊆
      ByteRanges.bytes (buffer (readPlace buffer P).1) memblockSize ∧
    ∀ Q : U32, Q.toNat < maxMemblock*2^18 → Q ≠ P →
      (readPlace buffer Q).1 ≠ (readPlace buffer P).1 ∨
        Disjoint (Place.bytes (readPlace buffer Q)) (Place.bytes (readPlace buffer P)) := by
  have hsmall : P.toNat < 2^25 := hP
  have hbyte := send_offset_byte P
  have hfits := byte_of_fits (P.toNat % 2^28)
  have hsize : pageSize = 4096 := rfl
  have hblocksize : memblockSize = 1073741824 := rfl
  have hmod : byteOf (P.toNat % 2^28) = P.toNat % 2^18*pageSize := by
    rw [hsize, byteOf]
    omega
  refine ⟨convey_place_eq buffer P,test_place_eq buffer P (Nat.lt_trans hsmall (by decide)),
    ?_,?_,?_,?_,?_⟩
  · rw [read_place_eq]
    simp only [blockOf, maxMemblock]
    omega
  · exact hbyte.trans hmod
  · rwa [← hmod]
  · rw [read_bytes_eq, ← part_zero, part_subset_iff _ (by decide) (by omega) (by omega)]
    omega
  · exact fun Q hQ hne => other_page_apart buffer hsmall hQ hne

/-- The bytes that a handler copies a frame to are those that a reader of the same page
asks for, and none of those that a reader of another page asks for. -/
theorem copied_bytes_read [Zero Page] (buffer : ℕ → U64) (a : AllocResult) (wc : Wc)
    (s : Server Page) (P : U32) (hP : P.toNat < maxMemblock*2^18)
    (hwc : wc.immData = flowHeader P) (hok : (ibConveyPage a wc s).1 = true)
    (d : Driver Page) (rd : Reader Page) (hQ : rd.offset.toNat < maxMemblock*2^18)
    (hbase : ((d.ctrl rd.ctrl).rdmaInfo (getNumMemblock rd.offset)).remoteAddr =
      ⟨getNumMemblock rd.offset,0⟩) :
    ∃ block byte content, (ibConveyPage a wc s).2.log =
        .convey wc.frame block byte content::s.log ∧
      (rd.offset = P → getNumMemblock rd.offset = block ∧
        ptrAddr buffer (readAddr d rd) = ptrAddr buffer ⟨block,byte⟩) ∧
      (rd.offset ≠ P → getNumMemblock rd.offset ≠ block ∨
        Disjoint (ByteRanges.bytes (ptrAddr buffer (readAddr d rd)) pageSize)
          (ByteRanges.bytes (ptrAddr buffer ⟨block,byte⟩) pageSize)) := by
  obtain ⟨block,byte,content,hlog,hplace⟩ := convey_place_logged a wc s hok buffer
  rw [hwc, convey_place_eq, Option.some.injEq] at hplace
  have hread := read_addr_place buffer d rd hbase
  have hblock : getNumMemblock rd.offset = (readPlace buffer rd.offset).1 := rfl
  refine ⟨block,byte,content,hlog,fun he => ?_,fun hne => ?_⟩
  · rw [hread, hblock, he, hplace]
    exact ⟨rfl,rfl⟩
  · have hapart := other_page_apart buffer hP hQ hne
    rw [hplace] at hapart
    rw [hread, hblock]
    exact hapart

def openedDriver : Driver ℕ :=
  ⟨fun _ => ⟨true,fun n => ⟨⟨n,0⟩,1#32⟩⟩,[1,0],0,0,⟨fun _ => 0,0,fun _ => none,0⟩⟩

theorem copied_bytes_read_sample :
    (∃ block byte content, (ibConveyPage ⟨some 0,some 1#32⟩ ⟨flowHeader 5#32,3,0⟩
        (initServer 0 1#32 : Server ℕ)).2.log = [.convey 0 block byte content] ∧
      ptrAddr (fun _ => 4096#64) (readAddr openedDriver ⟨.missed,5#32,0,none,none⟩) =
        ptrAddr (fun _ => 4096#64) ⟨block,byte⟩) ∧
    ∃ block byte content, (ibConveyPage ⟨some 0,some 1#32⟩ ⟨flowHeader 5#32,3,0⟩
        (initServer 0 1#32 : Server ℕ)).2.log = [.convey 0 block byte content] ∧
      (getNumMemblock 6#32 ≠ block ∨ Disjoint
        (ByteRanges.bytes (ptrAddr (fun _ => 4096#64)
          (readAddr openedDriver ⟨.missed,6#32,0,none,none⟩)) pageSize)
        (ByteRanges.bytes (ptrAddr (fun _ => 4096#64) ⟨block,byte⟩) pageSize)) := by
  constructor
  · obtain ⟨block,byte,content,hlog,hsame,-⟩ := copied_bytes_read (fun _ => 4096#64)
      ⟨some 0,some 1#32⟩ ⟨flowHeader 5#32,3,0⟩ (initServer 0 1#32 : Server ℕ) 5#32 (by decide)
      rfl (by decide) openedDriver ⟨.missed,5#32,0,none,none⟩ (by decide) rfl
    exact ⟨block,byte,content,hlog,(hsame rfl).2⟩
  · obtain ⟨block,byte,content,hlog,-,hapart⟩ := copied_bytes_read (fun _ => 4096#64)
      ⟨some 0,some 1#32⟩ ⟨flowHeader 5#32,3,0⟩ (initServer 0 1#32 : Server ℕ) 5#32 (by decide)
      rfl (by decide) openedDriver ⟨.missed,6#32,0,none,none⟩ (by decide) rfl
    exact ⟨block,byte,content,hlog,hapart (by decide)⟩

theorem same_bytes_sample :
    conveyPlace (fun n => BitVec.ofNat 64 (n*2^30)) (flowHeader 0x1ffffff#32) =
      some (127,0x1ffffff000#64) :=
  (same_bytes (fun n => BitVec.ofNat 64 (n*2^30)) 0x1ffffff#32 (by decide)).1.trans (by decide)

end Maruswap.PageRanges
