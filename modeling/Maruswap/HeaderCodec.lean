import Maruswap.BitFields
import Maruswap.ServerHandlers

/-!
# One format, four encoders

The library and the driver build immediate words in code of their own, the
library from byte offsets and the driver from page offsets, and each side takes
apart what the other has built. A header is an opcode and a page offset in their
ranges, and the words are exactly the headers.
-/

set_option autoImplicit false

namespace Maruswap.HeaderCodec
open WireFormat ServerHandlers BitFields

abbrev U64 := BitVec 64

/-- `set_header` of lib/rpc.c, on a byte offset. The word is or-ed with a `size_t`. -/
def libSetHeader (opcode : U32) (offset : U64) : U32 :=
  ((opcode <<< 28).setWidth 64 ||| ((offset >>> 12) &&& 0xfffffff#64)).setWidth 32

/-- `get_offset` of drive/ib.h. -/
def getOffset (roffset : U64) : U32 := ((roffset >>> 12) &&& 0xfffffff#64).setWidth 32

/-- `set_header` of drive/ib.h, on a page offset. -/
def setHeader (opcode offset : U32) : U32 :=
  ((opcode <<< 28) ||| (offset &&& 0xfffffff#32)) &&& 0xffffffff#32

structure Header where
  opcode : ℕ
  page : ℕ
  opcode_lt : opcode < 2^4
  page_lt : page < 2^28

namespace Header

def word (h : Header) : U32 := pack 28 (BitVec.ofNat 32 h.opcode) (BitVec.ofNat 32 h.page)

def ofWord (w : U32) : Header where
  opcode := w.toNat / 2^28
  page := w.toNat % 2^28
  opcode_lt := by omega
  page_lt := Nat.mod_lt _ (by decide)

@[simp] theorem toNat_opcode (h : Header) : (BitVec.ofNat 32 h.opcode).toNat = h.opcode := by
  rw [BitVec.toNat_ofNat, Nat.mod_eq_of_lt (Nat.lt_trans h.opcode_lt (by decide))]

@[simp] theorem toNat_page (h : Header) : (BitVec.ofNat 32 h.page).toNat = h.page := by
  rw [BitVec.toNat_ofNat, Nat.mod_eq_of_lt (Nat.lt_trans h.page_lt (by decide))]

theorem toNat_word (h : Header) : h.word.toNat = h.opcode*2^28+h.page := by
  have ho := h.opcode_lt
  have hp := h.page_lt
  rw [word, toNat_pack, toNat_opcode, toNat_page]
  · rw [toNat_opcode]
    omega
  · rwa [toNat_page]

def equiv : Header ≃ U32 where
  toFun := word
  invFun := ofWord
  left_inv h := by
    have hw := h.toNat_word
    have hp := h.page_lt
    have hhigh : h.word.toNat / 2^28 = h.opcode := by omega
    have hlow : h.word.toNat % 2^28 = h.page := by omega
    obtain ⟨opcode,page,ho,hp'⟩ := h
    simp only [ofWord, mk.injEq]
    exact ⟨hhigh,hlow⟩
  right_inv w := by
    apply BitVec.eq_of_toNat_eq
    rw [toNat_word]
    exact Nat.div_add_mod' w.toNat (2^28)

end Header

theorem set_header_eq (h : Header) :
    setHeader (BitVec.ofNat 32 h.opcode) (BitVec.ofNat 32 h.page) = h.word := by
  have hpage : BitVec.ofNat 32 h.page &&& 0xfffffff#32 = BitVec.ofNat 32 h.page := by
    apply BitVec.eq_of_toNat_eq
    have hm := toNat_mask (BitVec.ofNat 32 h.page) 28 (by decide)
    rw [h.toNat_page, Nat.mod_eq_of_lt h.page_lt] at hm
    rw [h.toNat_page]
    exact hm
  have hall : (0xffffffff#32 : U32) = BitVec.allOnes 32 := by decide
  rw [setHeader, hpage, hall, BitVec.and_allOnes]
  rfl

theorem lib_set_header_eq (h : Header) :
    libSetHeader (BitVec.ofNat 32 h.opcode) (BitVec.ofNat 64 h.page <<< 12) = h.word := by
  have ho := h.opcode_lt
  have hp := h.page_lt
  have hpage : (BitVec.ofNat 64 h.page).toNat = h.page := by
    rw [BitVec.toNat_ofNat, Nat.mod_eq_of_lt (by omega)]
  have hlow : (((BitVec.ofNat 64 h.page <<< 12) >>> 12) &&& 0xfffffff#64).toNat = h.page := by
    have hm := toNat_field 12 28 (BitVec.ofNat 64 h.page <<< 12) (by decide)
    rw [toNat_shift_left _ _ (by rw [hpage]; omega), hpage] at hm
    refine Eq.trans hm ?_
    omega
  have hhigh : ((BitVec.ofNat 32 h.opcode <<< 28).setWidth 64).toNat = 2^28*h.opcode := by
    rw [BitVec.toNat_setWidth, toNat_shift_left _ _ (by rw [h.toNat_opcode]; omega),
      h.toNat_opcode, Nat.mod_eq_of_lt (by omega), Nat.mul_comm]
  apply BitVec.eq_of_toNat_eq
  rw [libSetHeader, BitVec.toNat_setWidth, BitVec.toNat_or, hhigh, hlow,
    ← Nat.two_pow_add_eq_or_of_lt hp, h.toNat_word]
  omega

theorem get_offset_eq (P : ℕ) (hP : P < 2^28) :
    getOffset (BitVec.ofNat 64 P <<< 12) = BitVec.ofNat 32 P := by
  have hpage : (BitVec.ofNat 64 P).toNat = P := by
    rw [BitVec.toNat_ofNat, Nat.mod_eq_of_lt (by omega)]
  have hm := toNat_field 12 28 (BitVec.ofNat 64 P <<< 12) (by decide)
  rw [toNat_shift_left _ _ (by rw [hpage]; omega), hpage] at hm
  apply BitVec.eq_of_toNat_eq
  rw [getOffset, BitVec.toNat_setWidth, BitVec.toNat_ofNat]
  refine Eq.trans (congrArg (· % 2^32) hm) ?_
  omega

/-- `maruswap_multicast_write` does without `set_header`. -/
theorem flow_header_eq (offset : U32) :
    flowHeader offset = setHeader multicastOpcodeFlow offset := by
  have hall : (0xffffffff#32 : U32) = BitVec.allOnes 32 := by decide
  rw [setHeader, hall, BitVec.and_allOnes, flowHeader]

theorem interpret_header_fields (w : U32) : interpretHeader w =
    some ⟨(Header.ofWord w).opcode,(Header.ofWord w).page >>> 18,
      BitVec.ofNat 32 ((Header.ofWord w).page &&& 0x3ffff)⟩ := by
  have hlt := w.isLt
  have hop : (w >>> 28).toNat = w.toNat / 2^28 := toNat_high w 28
  have hoff : (w &&& 0xfffffff#32).toNat = w.toNat % 2^28 := toNat_mask w 28 (by decide)
  have hnr : (((w &&& 0xfffffff#32) >>> 18) &&& 0xfff#32).toNat =
      w.toNat % 2^28 / 2^18 := by
    have h := toNat_field 18 12 (w &&& 0xfffffff#32) (by decide)
    rw [hoff] at h
    exact h.trans (Nat.mod_eq_of_lt (by omega))
  have hlow : (w &&& 0xfffffff#32) &&& 0x3ffff#32 =
      BitVec.ofNat 32 (w.toNat % 2^28 &&& 0x3ffff) := by
    apply BitVec.eq_of_toNat_eq
    have h := toNat_mask (w &&& 0xfffffff#32) 18 (by decide)
    rw [hoff] at h
    rw [BitVec.toNat_ofNat, show (0x3ffff : ℕ) = 2^18-1 from rfl,
      Nat.and_two_pow_sub_one_eq_mod, Nat.mod_eq_of_lt (show _ < 2^32 by omega)]
    exact h
  rw [interpretHeader, hop, if_neg (by omega)]
  simp only [hnr, hlow, Header.ofWord, Nat.shiftRight_eq_div_pow]

theorem decoded_page (n : ℕ) (hn : 32 ≤ n) (P : ℕ) (hP : P < 2^28) :
    ((BitVec.ofNat n (P >>> 18) <<< 18) ||| (BitVec.ofNat 32 (P &&& 0x3ffff)).setWidth n) =
      BitVec.ofNat n P := by
  have hp : 2^32 ≤ 2^n := Nat.pow_le_pow_right (by decide) hn
  have hhigh : (BitVec.ofNat n (P >>> 18)).toNat = P / 2^18 := by
    rw [Nat.shiftRight_eq_div_pow, BitVec.toNat_ofNat, Nat.mod_eq_of_lt (by omega)]
  have hlow : ((BitVec.ofNat 32 (P &&& 0x3ffff)).setWidth n).toNat = P % 2^18 := by
    rw [show (0x3ffff : ℕ) = 2^18-1 from rfl, Nat.and_two_pow_sub_one_eq_mod,
      BitVec.toNat_setWidth, BitVec.toNat_ofNat, Nat.mod_eq_of_lt (show _ < 2^32 by omega),
      Nat.mod_eq_of_lt (by omega)]
  apply BitVec.eq_of_toNat_eq
  have hpack := toNat_pack 18 (BitVec.ofNat n (P >>> 18))
    ((BitVec.ofNat 32 (P &&& 0x3ffff)).setWidth n) (by rw [hhigh]; omega)
    (by rw [hlow]; omega)
  rw [hhigh, hlow] at hpack
  rw [BitVec.toNat_ofNat, Nat.mod_eq_of_lt (show P < 2^n by omega)]
  refine Eq.trans hpack ?_
  omega

theorem qcommit_imm_eq (count : U32) (hc : count.toNat < 2^20) (binder : ℕ) :
    rpcImm (qcommitWord count) binder =
      pack 28 opcodeQcommit (pack 8 count (BitVec.ofNat 32 binder)) := by
  have hmask : (0xfffff00#32 : U32) = 0xfffff#32 <<< 8 := by decide
  have hcount : count &&& 0xfffff#32 = count := by
    apply BitVec.eq_of_toNat_eq
    have hm := toNat_mask count 20 (by decide)
    rw [Nat.mod_eq_of_lt hc] at hm
    exact hm
  rw [rpcImm, qcommitWord, hmask, ← BitVec.shiftLeft_and_distrib, hcount, BitVec.or_assoc]
  rfl

theorem qcommit_read_back (count : U32) (hc : count.toNat < 2^20) (binder : ℕ)
    (hb : binder < 2^8) :
    rpcImm (qcommitWord count) binder >>> 28 = opcodeQcommit ∧
      commitNeed (rpcImm (qcommitWord count) binder) = count.toNat ∧
      replyBinder (rpcImm (qcommitWord count) binder) = binder := by
  have hbinder : (BitVec.ofNat 32 binder).toNat = binder := by
    rw [BitVec.toNat_ofNat, Nat.mod_eq_of_lt (by omega)]
  have hlow : (pack 8 count (BitVec.ofNat 32 binder)).toNat = count.toNat*2^8+binder := by
    rw [toNat_pack 8 _ _ (by omega) (by rwa [hbinder]), hbinder]
  have hfits : (pack 8 count (BitVec.ofNat 32 binder)).toNat < 2^28 := by
    rw [hlow]
    omega
  have hop : opcodeQcommit.toNat*2^28 < 2^32 := by decide
  have hword : (rpcImm (qcommitWord count) binder).toNat =
      7*2^28+(count.toNat*2^8+binder) := by
    rw [qcommit_imm_eq count hc, toNat_pack 28 _ _ hop hfits, hlow]
    rfl
  have hhigh : rpcImm (qcommitWord count) binder >>> 28 = opcodeQcommit := by
    rw [qcommit_imm_eq count hc]
    exact pack_high 28 _ _ hop hfits
  refine ⟨hhigh,?_,?_⟩
  · rw [commitNeed, if_pos hhigh]
    generalize rpcImm (qcommitWord count) binder = w at hword ⊢
    have hf : ((w >>> 8) &&& 0xfffff#32).toNat = w.toNat / 2^8 % 2^20 :=
      toNat_field 8 20 w (by decide)
    rw [hf, hword]
    omega
  · rw [replyBinder]
    generalize rpcImm (qcommitWord count) binder = w at hword ⊢
    have hm : (w &&& 0xff#32).toNat = w.toNat % 2^8 := toNat_mask w 8 (by decide)
    rw [hm, hword]
    omega

/-- All encoders build the same word of a header, the decoders read its fields out
of it, and every word is built again from what they read. A QCOMMIT is read back
with its count and its binder. -/
theorem header_codec :
    (∀ h : Header,
      let w := setHeader (BitVec.ofNat 32 h.opcode) (BitVec.ofNat 32 h.page)
      libSetHeader (BitVec.ofNat 32 h.opcode) (BitVec.ofNat 64 h.page <<< 12) = w ∧
      setHeader (BitVec.ofNat 32 h.opcode) (getOffset (BitVec.ofNat 64 h.page <<< 12)) = w ∧
      flowHeader (BitVec.ofNat 32 h.page) =
        setHeader multicastOpcodeFlow (BitVec.ofNat 32 h.page) ∧
      (ibGetOpcode w).toNat = h.opcode ∧
      interpretHeader w =
        some ⟨h.opcode,h.page >>> 18,BitVec.ofNat 32 (h.page &&& 0x3ffff)⟩) ∧
    (∀ w : U32, ∃ hd, interpretHeader w = some hd ∧ (ibGetOpcode w).toNat = hd.opcode ∧
      setHeader (BitVec.ofNat 32 hd.opcode)
        ((BitVec.ofNat 32 hd.nrBlock <<< 18) ||| hd.offset) = w ∧
      libSetHeader (BitVec.ofNat 32 hd.opcode)
        (((BitVec.ofNat 64 hd.nrBlock <<< 18) ||| hd.offset.setWidth 64) <<< 12) = w) ∧
    ∀ (count : Fin (2^20)) (binder : Fin (2^8)),
      let w := rpcImm (qcommitWord (BitVec.ofNat 32 count)) binder
      ibGetOpcode w = opcodeQcommit ∧ w >>> 28 = opcodeQcommit ∧ commitNeed w = count ∧
        replyBinder w = binder := by
  have hof : ∀ h : Header, Header.ofWord h.word = h := Header.equiv.left_inv
  have hto : ∀ w : U32, (Header.ofWord w).word = w := Header.equiv.right_inv
  refine ⟨fun h => ?_,fun w => ?_,fun count binder => ?_⟩
  · have hd := interpret_header_fields h.word
    have hop : (ibGetOpcode h.word).toNat = (Header.ofWord h.word).opcode :=
      ib_get_opcode_eq h.word
    rw [hof] at hd hop
    dsimp only
    rw [get_offset_eq h.page h.page_lt, set_header_eq]
    exact ⟨lib_set_header_eq h,rfl,flow_header_eq _,hop,hd⟩
  · have hp := (Header.ofWord w).page_lt
    refine ⟨_,interpret_header_fields w,ib_get_opcode_eq w,?_,?_⟩
    · have hpage := decoded_page 32 (by decide) _ hp
      rw [BitVec.setWidth_eq] at hpage
      rw [hpage, set_header_eq, hto]
    · rw [decoded_page 64 (by decide) _ hp, lib_set_header_eq, hto]
  · have hc : (BitVec.ofNat 32 (count : ℕ)).toNat = count := by
      rw [BitVec.toNat_ofNat, Nat.mod_eq_of_lt (by omega)]
    obtain ⟨hhigh,hneed,hb⟩ := qcommit_read_back (BitVec.ofNat 32 count) (by omega) binder
      binder.isLt
    refine ⟨?_,hhigh,hneed.trans hc,hb⟩
    apply BitVec.eq_of_toNat_eq
    rw [ib_get_opcode_eq, ← toNat_high, hhigh]

end Maruswap.HeaderCodec
