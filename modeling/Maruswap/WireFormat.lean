import Maruswap.BitFields

/-!
# Immediate words

The multicast header packs a 4-bit opcode over a 28-bit page offset. The RPC
word packs the opcode over whatever the caller put in the low 28 bits and the
binder in the lowest eight. Encoders and decoders stand as the sources write
them, on 32-bit words; the arithmetic lemmas are the ones the other modules
use instead of the masks.
-/

set_option autoImplicit false

namespace Maruswap.WireFormat
open BitFields

abbrev U32 := BitVec 32

def maxMemblock : ℕ := 128

def pageSize : ℕ := 2^12

def opcodeOpen : U32 := 0x1#32
def opcodeCommit : U32 := 0x3#32
def opcodeQcommit : U32 := 0x7#32
def multicastOpcodeFlow : U32 := 0x1#32

/-- What `interpret_header` writes through its three pointers. -/
structure Interpreted where
  opcode : ℕ
  nrBlock : ℕ
  offset : U32

def interpretHeader (header : U32) : Option Interpreted :=
  let opcode := (header >>> 28).toNat
  if 32 ≤ opcode then none
  else
    let off := header &&& 0xfffffff#32
    some ⟨opcode, ((off >>> 18) &&& 0xfff#32).toNat, off &&& 0x3ffff#32⟩

def ibGetOpcode (immData : U32) : U32 := (immData &&& 0xf0000000#32) >>> 28

def getNumMemblock (offset : U32) : ℕ := ((offset >>> 18) &&& 0x3ff#32).toNat

/-- The header `maruswap_multicast_write` builds for a page offset. -/
def flowHeader (offset : U32) : U32 :=
  (multicastOpcodeFlow <<< 28) ||| (offset &&& 0xfffffff#32)

/-- The word `ib_rpc_open_unlocked` hands to `__ib_rpc`: the whole offset is
or-ed under the opcode. -/
def openWord (offset : U32) : U32 := (opcodeOpen <<< 28) ||| offset

def commitWord : U32 := opcodeCommit <<< 28

def qcommitWord (count : U32) : U32 :=
  (opcodeQcommit <<< 28) ||| ((count <<< 8) &&& 0xfffff00#32)

/-- `opcode | binder`, the immediate word of a request. -/
def rpcImm (opcode : U32) (binder : ℕ) : U32 := opcode ||| BitVec.ofNat 32 binder

def replyBinder (immData : U32) : ℕ := (immData &&& 0xff#32).toNat

/-- `offset << 12` on a 32-bit word: the byte position of a page in its block. -/
def byteOffset (offset : U32) : ℕ := (offset <<< 12).toNat

/-- The 28-bit page offset a header names. -/
def pageOffset (header : U32) : ℕ := header.toNat % 2^28

def blockOf (P : ℕ) : ℕ := P / 2^18

def byteOf (P : ℕ) : ℕ := P % 2^18*4096

theorem ib_get_opcode_eq (immData : U32) :
    (ibGetOpcode immData).toNat = immData.toNat / 2^28 := by
  have hmask : (immData &&& 0xf0000000#32) >>> 28 = immData >>> 28 := by
    have h : 0xf0000000#32 >>> 28 = 0xf#32 := by decide
    have hand : (immData &&& 0xf0000000#32) >>> 28 = immData >>> 28 &&& 0xf#32 := by
      rw [BitVec.ushiftRight_and_distrib, h]
    rw [hand]
    apply BitVec.eq_of_toNat_eq
    have hlt := immData.isLt
    have hm := toNat_mask (immData >>> 28) 4 (by decide)
    rw [toNat_high] at hm ⊢
    refine hm.trans ?_
    omega
  rw [ibGetOpcode, hmask, toNat_high]

theorem interpret_header_eq (header : U32) :
    ∃ off : U32, interpretHeader header =
        some ⟨header.toNat / 2^28, blockOf (pageOffset header), off⟩ ∧
      byteOffset off = byteOf (pageOffset header) := by
  have hlt := header.isLt
  have hop : (header >>> 28).toNat = header.toNat / 2^28 := toNat_high header 28
  have hoff : (header &&& 0xfffffff#32).toNat = header.toNat % 2^28 :=
    toNat_mask header 28 (by decide)
  have hnr : (((header &&& 0xfffffff#32) >>> 18) &&& 0xfff#32).toNat =
      blockOf (pageOffset header) := by
    have h := toNat_mask ((header &&& 0xfffffff#32) >>> 18) 12 (by decide)
    rw [toNat_high, hoff] at h
    exact h.trans (Nat.mod_eq_of_lt (by omega))
  have hlow : ((header &&& 0xfffffff#32) &&& 0x3ffff#32).toNat =
      pageOffset header % 2^18 := by
    have h := toNat_mask (header &&& 0xfffffff#32) 18 (by decide)
    rwa [hoff] at h
  refine ⟨(header &&& 0xfffffff#32) &&& 0x3ffff#32, ?_, ?_⟩
  · rw [interpretHeader, hop, if_neg (by omega)]
    dsimp only
    rw [hnr]
  · rw [byteOffset, BitVec.toNat_shiftLeft, hlow, Nat.shiftLeft_eq, byteOf]
    omega

theorem location_injective (P Q : ℕ) (hb : blockOf P = blockOf Q)
    (ho : byteOf P = byteOf Q) : P = Q := by
  unfold blockOf at hb
  unfold byteOf at ho
  omega

theorem opcode_or_offset (op P : ℕ) (hop : op < 16) (hP : P < 2^28) :
    ((BitVec.ofNat 32 op <<< 28) ||| BitVec.ofNat 32 P).toNat = 2^28*op+P := by
  have hhigh : (BitVec.ofNat 32 op).toNat = op := by
    rw [BitVec.toNat_ofNat, Nat.mod_eq_of_lt (by omega)]
  have hlow : (BitVec.ofNat 32 P).toNat = P := by
    rw [BitVec.toNat_ofNat, Nat.mod_eq_of_lt (by omega)]
  have hpack := toNat_pack 28 (BitVec.ofNat 32 op) (BitVec.ofNat 32 P) (by rw [hhigh]; omega)
    (by rwa [hlow])
  rw [hhigh, hlow, Nat.mul_comm] at hpack
  exact hpack

theorem flow_header_page (offset : U32) :
    pageOffset (flowHeader offset) = offset.toNat % 2^28 := by
  have hmask : (offset &&& 0xfffffff#32).toNat = offset.toNat % 2^28 :=
    toNat_mask offset 28 (by decide)
  have hm : offset &&& 0xfffffff#32 = BitVec.ofNat 32 (offset.toNat % 2^28) := by
    apply BitVec.eq_of_toNat_eq
    rw [BitVec.toNat_ofNat]
    omega
  have hw := opcode_or_offset 1 (offset.toNat % 2^28) (by decide) (Nat.mod_lt _ (by decide))
  rw [pageOffset, flowHeader, hm]
  change ((BitVec.ofNat 32 1 <<< 28) ||| BitVec.ofNat 32 _).toNat % 2^28 = _
  omega

theorem get_num_memblock_eq (offset : U32) :
    getNumMemblock offset = blockOf (offset.toNat % 2^28) := by
  have h := toNat_mask (offset >>> 18) 10 (by decide)
  rw [toNat_high] at h
  refine h.trans ?_
  unfold blockOf
  omega

theorem send_offset_byte (offset : U32) :
    byteOffset (offset &&& 0x3ffff#32) = byteOf (offset.toNat % 2^28) := by
  have hm : (offset &&& 0x3ffff#32).toNat = offset.toNat % 2^18 :=
    toNat_mask offset 18 (by decide)
  rw [byteOffset, BitVec.toNat_shiftLeft, hm, Nat.shiftLeft_eq, byteOf]
  omega

end Maruswap.WireFormat
