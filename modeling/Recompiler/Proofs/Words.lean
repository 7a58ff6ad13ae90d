import Mathlib
import Recompiler.Bits

/-!
Machine words bit by bit. The sign extensions, shifts and comparisons of words are those of bit
vectors, and two words are equal if all their bits are.
-/

namespace Recompiler

theorem sext32_toBitVec (v : UInt64) :
    (sext32 v).toBitVec = (v.toBitVec.setWidth 32).signExtend 64 := by
  simp only [sext32, Int64.toBitVec_toUInt64, Int32.toBitVec_toInt64, UInt32.toBitVec_toInt32,
    UInt64.toBitVec_toUInt32]

theorem sext16_toBitVec (v : UInt64) :
    (sext16 v).toBitVec = (v.toBitVec.setWidth 16).signExtend 64 := by
  simp [sext16]

theorem sext8_toBitVec (v : UInt64) :
    (sext8 v).toBitVec = (v.toBitVec.setWidth 8).signExtend 64 := by
  simp [sext8]

theorem sextWord_toBitVec (v : UInt32) : (sextWord v).toBitVec = v.toBitVec.signExtend 64 := by
  simp [sextWord]

theorem sext32_eq_sextWord (v : UInt64) : sext32 v = sextWord v.toUInt32 := rfl

theorem sar64_toBitVec (v s : UInt64) (h : s.toNat < 64) :
    (sar64 v s).toBitVec = v.toBitVec.sshiftRight s.toNat := by
  have hs : s.toBitVec.smod 64#64 = s.toBitVec := by
    rw [BitVec.smod_eq]
    have hm : s.toBitVec.msb = false := by
      rw [BitVec.msb_eq_false_iff_two_mul_lt]
      change 2 * s.toNat < 2 ^ 64
      omega
    rw [hm]
    apply BitVec.eq_of_toNat_eq
    exact Nat.mod_eq_of_lt h
  simp [sar64, hs]

theorem sar32_toBitVec (v s : UInt32) (h : s.toNat < 32) :
    (sar32 v s).toBitVec = v.toBitVec.sshiftRight s.toNat := by
  have hs : s.toBitVec.smod 32#32 = s.toBitVec := by
    rw [BitVec.smod_eq]
    have hm : s.toBitVec.msb = false := by
      rw [BitVec.msb_eq_false_iff_two_mul_lt]
      change 2 * s.toNat < 2 ^ 32
      omega
    rw [hm]
    apply BitVec.eq_of_toNat_eq
    exact Nat.mod_eq_of_lt h
  simp [sar32, hs]

theorem slt64_eq_decide (x y : UInt64) :
    slt64 x y = decide (x.toBitVec.toInt < y.toBitVec.toInt) :=
  decide_eq_decide.2 Int64.lt_iff_toInt_lt

theorem slt32_eq_decide (x y : UInt32) :
    slt32 x y = decide (x.toBitVec.toInt < y.toBitVec.toInt) :=
  decide_eq_decide.2 Int32.lt_iff_toInt_lt

theorem signBit64_eq_msb (v : UInt64) : signBit64 v = v.toBitVec.msb := by
  have h : v >>> 63 = 0 ↔ v.toNat < 2 ^ 63 := by
    have hv : v.toNat < 2 ^ 64 := v.toNat_lt
    rw [← UInt64.toNat_inj]
    change v.toNat >>> 63 = 0 ↔ _
    rw [Nat.shiftRight_eq_div_pow]
    omega
  have hb : signBit64 v = !decide (v >>> 63 = 0) := by
    rfl
  rw [BitVec.msb_eq_decide, hb, ← decide_not, decide_eq_decide, h]
  exact Nat.not_lt

theorem signBit32_eq_msb (v : UInt32) : signBit32 v = v.toBitVec.msb := by
  have h : v >>> 31 = 0 ↔ v.toNat < 2 ^ 31 := by
    have hv : v.toNat < 2 ^ 32 := v.toNat_lt
    rw [← UInt32.toNat_inj]
    change v.toNat >>> 31 = 0 ↔ _
    rw [Nat.shiftRight_eq_div_pow]
    omega
  have hb : signBit32 v = !decide (v >>> 31 = 0) := by
    rfl
  rw [BitVec.msb_eq_decide, hb, ← decide_not, decide_eq_decide, h]
  exact Nat.not_lt

theorem joinWords_toBitVec (hi lo : UInt32) :
    (joinWords hi lo).toBitVec = hi.toBitVec ++ lo.toBitVec := by
  apply BitVec.eq_of_getLsbD_eq
  intro i hi'
  simp [joinWords]
  grind

theorem highWord_toBitVec (v : UInt64) :
    (highWord v).toBitVec = v.toBitVec.extractLsb' 32 32 := by
  apply BitVec.eq_of_getLsbD_eq
  intro i hi
  simp [highWord, hi]

theorem lowWord_toBitVec (v : UInt64) : (lowWord v).toBitVec = v.toBitVec.setWidth 32 := by
  simp [lowWord]

def bitOf (v : UInt64) (i : Nat) : Bool := v.toBitVec.getLsbD i

theorem eq_of_bitOf_eq {v w : UInt64} (h : ∀ i, i < 64 → bitOf v i = bitOf w i) : v = w :=
  UInt64.eq_of_toBitVec_eq (BitVec.eq_of_getLsbD_eq h)

theorem bitOf_of_ge (v : UInt64) {i : Nat} (hi : 64 ≤ i) : bitOf v i = false :=
  BitVec.getLsbD_of_ge _ _ hi

@[simp] theorem bitOf_and (v w : UInt64) (i : Nat) :
    bitOf (v &&& w) i = (bitOf v i && bitOf w i) := by
  simp only [bitOf, UInt64.toBitVec_and, BitVec.getLsbD_and]

@[simp] theorem bitOf_or (v w : UInt64) (i : Nat) :
    bitOf (v ||| w) i = (bitOf v i || bitOf w i) := by
  simp only [bitOf, UInt64.toBitVec_or, BitVec.getLsbD_or]

@[simp] theorem bitOf_xor (v w : UInt64) (i : Nat) :
    bitOf (v ^^^ w) i = (bitOf v i ^^ bitOf w i) := by
  simp only [bitOf, UInt64.toBitVec_xor, BitVec.getLsbD_xor]

theorem bitOf_not (v : UInt64) {i : Nat} (hi : i < 64) : bitOf (~~~v) i = !bitOf v i := by
  simp only [bitOf, UInt64.toBitVec_not, BitVec.getLsbD_not, hi, decide_true, Bool.true_and]

@[simp] theorem bitOf_zero (i : Nat) : bitOf 0 i = false := by
  simp [bitOf]

theorem toNat_shiftAmount {s : UInt64} (hs : s.toNat < 64) : (s.toBitVec % 64).toNat = s.toNat :=
  Nat.mod_eq_of_lt hs

theorem bitOf_shiftLeft (v s : UInt64) {i : Nat} (hs : s.toNat < 64) (hi : i < 64) :
    bitOf (v <<< s) i = (decide (s.toNat ≤ i) && bitOf v (i - s.toNat)) := by
  simp only [bitOf, UInt64.toBitVec_shiftLeft, BitVec.shiftLeft_eq', toNat_shiftAmount hs,
    BitVec.getLsbD_shiftLeft, hi, decide_true, Bool.true_and]
  by_cases h : i < s.toNat
  · simp [h, Nat.not_le.2 h]
  · simp [h, Nat.le_of_not_lt h]

theorem bitOf_shiftRight (v s : UInt64) (i : Nat) (hs : s.toNat < 64) :
    bitOf (v >>> s) i = bitOf v (s.toNat + i) := by
  simp only [bitOf, UInt64.toBitVec_shiftRight, BitVec.ushiftRight_eq', toNat_shiftAmount hs,
    BitVec.getLsbD_ushiftRight]

theorem bitOf_sar64 (v s : UInt64) {i : Nat} (hs : s.toNat < 64) (hi : i < 64) :
    bitOf (sar64 v s) i = if s.toNat + i < 64 then bitOf v (s.toNat + i) else bitOf v 63 := by
  have hn : ¬64 ≤ i := Nat.not_le.2 hi
  simp only [bitOf, sar64_toBitVec v s hs, BitVec.getLsbD_sshiftRight, hn, decide_false,
    Bool.not_false, Bool.true_and, BitVec.msb_eq_getLsbD_last]

theorem bitOf_sext32 (v : UInt64) {i : Nat} (hi : i < 64) :
    bitOf (sext32 v) i = if i < 32 then bitOf v i else bitOf v 31 := by
  simp only [bitOf, sext32_toBitVec, BitVec.getLsbD_signExtend, BitVec.getLsbD_setWidth,
    BitVec.msb_setWidth, hi, decide_true, Bool.true_and]
  split
  · rename_i h
    simp [h]
  · simp

theorem signBit64_eq_bitOf (v : UInt64) : signBit64 v = bitOf v 63 := by
  rw [signBit64_eq_msb, BitVec.msb_eq_getLsbD_last]
  rfl

end Recompiler
