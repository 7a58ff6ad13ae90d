import Recompiler.Ir.Machine
import Recompiler.Proofs.Context
import Recompiler.Proofs.MultiplyUnit
import Recompiler.Proofs.Widths

/-!
Arithmetic of double words on pairs of words. Bitwise operations work on each word, shifts carry
bits from one word to the other, sums and differences carry one, and a comparison looks at the low
words if the high ones are equal. Of sign-extended words the low one is enough.
-/

namespace Recompiler

open Ir

theorem toNat_lowWord (v : UInt64) : (lowWord v).toNat = v.toNat % 0x100000000 :=
  UInt64.toNat_toUInt32 v

theorem toNat_highWord (v : UInt64) : (highWord v).toNat = v.toNat / 0x100000000 := by
  rw [highWord, UInt64.toNat_toUInt32, UInt64.toNat_shiftRight, Nat.shiftRight_eq_div_pow]
  exact Nat.mod_eq_of_lt (Nat.div_lt_of_lt_mul v.toNat_lt)

theorem toNat_ofBool32 (b : Bool) : (ofBool32 b).toNat = b.toNat := by
  cases b <;> rfl

theorem eq_joinWords {v : UInt64} {hi lo : UInt32} (hh : highWord v = hi) (hl : lowWord v = lo) :
    v = joinWords hi lo := by
  rw [← hh, ← hl, joinWords_high_low]

theorem sextWord_lowWord {n : Int} {v : UInt64} (h : Fits n v) (hn : n ≤ 32) :
    sextWord (lowWord v) = v :=
  sext32_eq_of_fits h hn

/-- An operation on double words that works on each word. -/
structure Bitwise (op : BinOp) (f : UInt64 → UInt64 → UInt64) : Prop where
  high : ∀ x y, highWord (f x y) = Machine.evalBin op (highWord x) (highWord y)
  low : ∀ x y, lowWord (f x y) = Machine.evalBin op (lowWord x) (lowWord y)
  fits : ∀ x y, Fits 32 x → Fits 32 y → Fits 32 (f x y)

namespace Bitwise

theorem and : Bitwise .and (· &&& ·) where
  high x y := by
    rw [Machine.evalBin, ← UInt32.toBitVec_inj, UInt32.toBitVec_and]
    simp only [highWord_toBitVec, UInt64.toBitVec_and, BitVec.extractLsb'_and]
  low x y := by
    rw [Machine.evalBin, ← UInt32.toBitVec_inj, UInt32.toBitVec_and]
    simp only [lowWord_toBitVec, UInt64.toBitVec_and, BitVec.setWidth_and]
  fits _ _ hx hy := hx.and hy

theorem or : Bitwise .or (· ||| ·) where
  high x y := by
    rw [Machine.evalBin, ← UInt32.toBitVec_inj, UInt32.toBitVec_or]
    simp only [highWord_toBitVec, UInt64.toBitVec_or, BitVec.extractLsb'_or]
  low x y := by
    rw [Machine.evalBin, ← UInt32.toBitVec_inj, UInt32.toBitVec_or]
    simp only [lowWord_toBitVec, UInt64.toBitVec_or, BitVec.setWidth_or]
  fits _ _ hx hy := hx.or hy

theorem xor : Bitwise .xor (· ^^^ ·) where
  high x y := by
    rw [Machine.evalBin, ← UInt32.toBitVec_inj, UInt32.toBitVec_xor]
    simp only [highWord_toBitVec, UInt64.toBitVec_xor, BitVec.extractLsb'_xor]
  low x y := by
    rw [Machine.evalBin, ← UInt32.toBitVec_inj, UInt32.toBitVec_xor]
    simp only [lowWord_toBitVec, UInt64.toBitVec_xor, BitVec.setWidth_xor]
  fits _ _ hx hy := hx.xor hy

theorem highWord_not (v : UInt64) : highWord (~~~v) = ~~~highWord v := by
  have hn : (~~~v).toNat = 2 ^ 64 - 1 - v.toNat := UInt64.toNat_not v
  have hv := v.toNat_lt
  rw [← UInt32.toNat_inj, toNat_highWord, UInt32.toNat_not, toNat_highWord, hn]
  change _ = 2 ^ 32 - 1 - _
  omega

theorem lowWord_not (v : UInt64) : lowWord (~~~v) = ~~~lowWord v := UInt64.toUInt32_not v

theorem nor : Bitwise .nor (fun x y => ~~~(x ||| y)) where
  high x y := by
    rw [highWord_not, or.high]
    rfl
  low x y := by
    rw [lowWord_not, or.low]
    rfl
  fits _ _ hx hy := (hx.or hy).not

end Bitwise

theorem lowWord_add (x y : UInt64) : lowWord (x + y) = lowWord x + lowWord y :=
  UInt64.toUInt32_add x y

theorem lowWord_sub (x y : UInt64) : lowWord (x - y) = lowWord x - lowWord y :=
  UInt64.toUInt32_sub x y

theorem highWord_add (x y : UInt64) : highWord (x + y) =
    highWord x + highWord y + ofBool32 (lowWord x + lowWord y < lowWord x) := by
  have hx := x.toNat_lt
  have hy := y.toNat_lt
  rw [← UInt32.toNat_inj, toNat_highWord, UInt32.toNat_add, UInt32.toNat_add, toNat_ofBool32,
    toNat_highWord, toNat_highWord, UInt64.toNat_add]
  by_cases h : lowWord x + lowWord y < lowWord x
  · have h' := UInt32.lt_iff_toNat_lt.mp h
    rw [UInt32.toNat_add, toNat_lowWord, toNat_lowWord] at h'
    simp only [h, decide_true, Bool.toNat_true]
    omega
  · have h' := mt UInt32.lt_iff_toNat_lt.mpr h
    rw [UInt32.toNat_add, toNat_lowWord, toNat_lowWord] at h'
    simp only [h, decide_false, Bool.toNat_false]
    omega

theorem highWord_sub (x y : UInt64) : highWord (x - y) =
    highWord x - highWord y - ofBool32 (lowWord x < lowWord y) := by
  have hx := x.toNat_lt
  have hy := y.toNat_lt
  rw [← UInt32.toNat_inj, toNat_highWord, UInt32.toNat_sub, UInt32.toNat_sub, toNat_ofBool32,
    toNat_highWord, toNat_highWord, UInt64.toNat_sub]
  by_cases h : lowWord x < lowWord y
  · have h' := UInt32.lt_iff_toNat_lt.mp h
    rw [toNat_lowWord, toNat_lowWord] at h'
    simp only [h, decide_true, Bool.toNat_true]
    omega
  · have h' := mt UInt32.lt_iff_toNat_lt.mpr h
    rw [toNat_lowWord, toNat_lowWord] at h'
    simp only [h, decide_false, Bool.toNat_false]
    omega

theorem lt_iff_words (x y : UInt64) : x < y ↔
    highWord x < highWord y ∨ highWord x = highWord y ∧ lowWord x < lowWord y := by
  rw [UInt64.lt_iff_toNat_lt, UInt32.lt_iff_toNat_lt, UInt32.lt_iff_toNat_lt, ← UInt32.toNat_inj,
    toNat_highWord, toNat_highWord, toNat_lowWord, toNat_lowWord]
  omega

theorem slt64_iff_words (x y : UInt64) : slt64 x y = true ↔
    slt32 (highWord x) (highWord y) = true ∨ highWord x = highWord y ∧ lowWord x < lowWord y := by
  have heq : highWord x = highWord y ↔ (highWord x).toInt32.toInt = (highWord y).toInt32.toInt := by
    rw [← UInt32.toBitVec_inj, ← BitVec.toInt_inj]
    rfl
  have hlx := (lowWord x).toNat_lt
  have hly := (lowWord y).toNat_lt
  simp only [slt64, slt32, decide_eq_true_eq]
  rw [Int64.lt_iff_toInt_lt, Int32.lt_iff_toInt_lt, UInt32.lt_iff_toNat_lt, heq, toInt_words,
    toInt_words]
  omega

theorem slt64_sextWord (x y : UInt32) : slt64 (sextWord x) (sextWord y) = slt32 x y := by
  unfold slt64 slt32
  congr 1
  rw [eq_iff_iff, Int64.lt_iff_toInt_lt, Int32.lt_iff_toInt_lt]
  change x.toInt32.toInt64.toInt < y.toInt32.toInt64.toInt ↔ _
  rw [Int32.toInt_toInt64, Int32.toInt_toInt64]

theorem toNat_sextWord (x : UInt32) : (sextWord x).toNat =
    if x.toNat < 0x80000000 then x.toNat else x.toNat + 0xffffffff00000000 := by
  have h : (sextWord x).toNat = (x.toBitVec.signExtend 64).toNat := by
    rw [← sextWord_toBitVec]
    rfl
  have hx := x.toNat_lt
  rw [h, BitVec.toNat_signExtend, BitVec.msb_eq_decide]
  change (BitVec.setWidth 64 x.toBitVec).toNat + _ = _
  rw [BitVec.toNat_setWidth]
  change x.toNat % _ + (if decide (2 ^ 31 ≤ x.toNat) = true then _ else _) = _
  split <;> split <;> simp_all
  all_goals omega

theorem sextWord_lt (x y : UInt32) : sextWord x < sextWord y ↔ x < y := by
  rw [UInt64.lt_iff_toNat_lt, UInt32.lt_iff_toNat_lt, toNat_sextWord, toNat_sextWord]
  have hx := x.toNat_lt
  have hy := y.toNat_lt
  split <;> split <;> omega

theorem signBit32_eq (v : UInt32) : signBit32 v = decide (0x80000000 ≤ v.toNat) := by
  rw [signBit32_eq_msb, BitVec.msb_eq_decide]
  rfl

theorem signBit32_xor (u v : UInt32) : signBit32 (u ^^^ v) = (signBit32 u ^^ signBit32 v) := by
  rw [signBit32_eq_msb, signBit32_eq_msb, signBit32_eq_msb, UInt32.toBitVec_xor, BitVec.msb_xor]

theorem toNat_sextWord_sign (v : UInt32) : (sextWord v).toNat =
    v.toNat + if signBit32 v then 0xffffffff00000000 else 0 := by
  rw [toNat_sextWord, signBit32_eq]
  by_cases h : v.toNat < 0x80000000
  · rw [if_pos h, if_neg (by simpa using h), Nat.add_zero]
  · rw [if_neg h, if_pos (by simpa using h)]

theorem overflows_add (a b : UInt32) : Machine.overflows false a b =
    decide ((sextWord a + sextWord b).toNat ≠ (sextWord (a + b)).toNat) := by
  have ha := a.toNat_lt
  have hb := b.toNat_lt
  have hsum := UInt32.toNat_add a b
  have hsa := signBit32_eq a
  have hsb := signBit32_eq b
  have hss := signBit32_eq (a + b)
  rw [UInt64.toNat_add, toNat_sextWord_sign, toNat_sextWord_sign, toNat_sextWord_sign,
    Machine.overflows, if_neg nofun, signBit32_xor, signBit32_xor]
  cases h₁ : signBit32 a <;> cases h₂ : signBit32 b <;> cases h₃ : signBit32 (a + b) <;>
    simp [h₁, h₂, h₃] at * <;> omega

theorem overflows_sub (a b : UInt32) : Machine.overflows true a b =
    decide ((sextWord a - sextWord b).toNat ≠ (sextWord (a - b)).toNat) := by
  have ha := a.toNat_lt
  have hb := b.toNat_lt
  have hsum := UInt32.toNat_sub a b
  have hsa := signBit32_eq a
  have hsb := signBit32_eq b
  have hss := signBit32_eq (a - b)
  rw [UInt64.toNat_sub, toNat_sextWord_sign, toNat_sextWord_sign, toNat_sextWord_sign,
    Machine.overflows, if_pos rfl, signBit32_xor, signBit32_xor]
  cases h₁ : signBit32 a <;> cases h₂ : signBit32 b <;> cases h₃ : signBit32 (a - b) <;>
    simp [h₁, h₂, h₃] at * <;> omega

theorem lowWord_sext32 (v : UInt64) : lowWord (sext32 v) = lowWord v := toUInt32_sext32 v

theorem overflows_lowWord (sub : Bool) (x y : UInt64) :
    Machine.overflows sub (lowWord x) (lowWord y) =
      if sub then subOverflows32 x y else addOverflows32 x y := by
  have hne (r : UInt64) : (r != sext32 r) = decide (r.toNat ≠ (sextWord (lowWord r)).toNat) := by
    rw [Bool.eq_iff_iff, decide_eq_true_iff, Ne, UInt64.toNat_inj]
    exact bne_iff_ne
  cases sub with
  | false =>
    rw [overflows_add, if_neg nofun, addOverflows32, hne, lowWord_add, lowWord_sext32,
      lowWord_sext32]
    rfl
  | true =>
    rw [overflows_sub, if_pos rfl, subOverflows32, hne, lowWord_sub, lowWord_sext32,
      lowWord_sext32]
    rfl

def wordBit (v : UInt32) (i : Nat) : Bool := v.toBitVec.getLsbD i

theorem wordBit_or (v w : UInt32) (i : Nat) :
    wordBit (v ||| w) i = (wordBit v i || wordBit w i) := by
  simp only [wordBit, UInt32.toBitVec_or, BitVec.getLsbD_or]

theorem wordBit_zero (i : Nat) : wordBit 0 i = false := by
  simp [wordBit]

theorem wordBit_lowWord (v : UInt64) (i : Nat) :
    wordBit (lowWord v) i = (decide (i < 32) && bitOf v i) := by
  rw [wordBit, lowWord_toBitVec, BitVec.getLsbD_setWidth]
  rfl

theorem wordBit_highWord (v : UInt64) (i : Nat) :
    wordBit (highWord v) i = (decide (i < 32) && bitOf v (32 + i)) := by
  rw [wordBit, highWord_toBitVec, BitVec.getLsbD_extractLsb']
  rfl

theorem wordBit_shiftLeft (v sa : UInt32) {i : Nat} (hsa : sa.toNat < 32) (hi : i < 32) :
    wordBit (v <<< sa) i = (decide (sa.toNat ≤ i) && wordBit v (i - sa.toNat)) := by
  simp only [wordBit, UInt32.toBitVec_shiftLeft, BitVec.shiftLeft_eq', toNat_wordShiftAmount hsa,
    BitVec.getLsbD_shiftLeft, hi, decide_true, Bool.true_and]
  by_cases h : i < sa.toNat
  · simp [h, Nat.not_le.2 h]
  · simp [h, Nat.le_of_not_lt h]

theorem wordBit_shiftRight (v sa : UInt32) (i : Nat) (hsa : sa.toNat < 32) :
    wordBit (v >>> sa) i = wordBit v (sa.toNat + i) := by
  simp only [wordBit, UInt32.toBitVec_shiftRight, BitVec.ushiftRight_eq',
    toNat_wordShiftAmount hsa, BitVec.getLsbD_ushiftRight]

theorem wordBit_sar32 (v sa : UInt32) {i : Nat} (hsa : sa.toNat < 32) (hi : i < 32) :
    wordBit (sar32 v sa) i =
      if sa.toNat + i < 32 then wordBit v (sa.toNat + i) else wordBit v 31 := by
  have hn : ¬ 32 ≤ i := Nat.not_le.2 hi
  simp only [wordBit, sar32_toBitVec v sa hsa, BitVec.getLsbD_sshiftRight, hn, decide_false,
    Bool.not_false, Bool.true_and, BitVec.msb_eq_getLsbD_last]

theorem bitOf_joinWords (hi lo : UInt32) (i : Nat) :
    bitOf (joinWords hi lo) i = if i < 32 then wordBit lo i else wordBit hi (i - 32) := by
  rw [bitOf, joinWords_toBitVec, BitVec.getLsbD_append, wordBit, wordBit]

/-- The bits that leave the low word enter the high one. -/
theorem shiftLeft_pair (v : UInt64) {s : UInt64} {sa : UInt32} (hs : s.toNat = sa.toNat)
    (h0 : 0 < sa.toNat) (hsa : sa.toNat < 32) : v <<< s =
      joinWords (highWord v <<< sa ||| lowWord v >>> (32 - sa)) (lowWord v <<< sa) := by
  have hrest : (32 - sa).toNat = 32 - sa.toNat :=
    UInt32.toNat_sub_of_le _ _ (UInt32.le_iff_toNat_le.mpr hsa.le)
  apply eq_of_bitOf_eq
  intro i hi
  rw [bitOf_shiftLeft _ _ (by omega) hi, bitOf_joinWords, hs]
  split
  · rename_i h
    rw [wordBit_shiftLeft _ _ hsa h, wordBit_lowWord,
      decide_eq_true (show i - sa.toNat < 32 by omega), Bool.true_and]
  · rename_i h
    rw [wordBit_or, wordBit_shiftLeft _ _ hsa (by omega), wordBit_shiftRight _ _ _ (by omega),
      hrest, wordBit_highWord, wordBit_lowWord, decide_eq_true (show sa.toNat ≤ i by omega),
      decide_eq_true (show i - 32 - sa.toNat < 32 by omega), Bool.true_and, Bool.true_and]
    by_cases hc : sa.toNat ≤ i - 32
    · rw [decide_eq_true hc, decide_eq_false (by omega), Bool.true_and, Bool.false_and,
        Bool.or_false]
      congr 1
      omega
    · rw [decide_eq_false hc, decide_eq_true (by omega), Bool.true_and, Bool.false_and,
        Bool.false_or]
      congr 1
      omega

theorem wordBit_carryRight (v : UInt64) {sa : UInt32} (h0 : 0 < sa.toNat) (hsa : sa.toNat < 32)
    {i : Nat} (hi : i < 32) : wordBit (lowWord v >>> sa ||| highWord v <<< (32 - sa)) i =
      bitOf v (sa.toNat + i) := by
  have hrest : (32 - sa).toNat = 32 - sa.toNat :=
    UInt32.toNat_sub_of_le _ _ (UInt32.le_iff_toNat_le.mpr hsa.le)
  rw [wordBit_or, wordBit_shiftRight _ _ _ hsa, wordBit_shiftLeft _ _ (by omega) hi, hrest,
    wordBit_lowWord, wordBit_highWord]
  by_cases hc : sa.toNat + i < 32
  · rw [decide_eq_true hc, decide_eq_false (show ¬ 32 - sa.toNat ≤ i by omega), Bool.true_and,
      Bool.false_and, Bool.or_false]
  · rw [decide_eq_false hc, decide_eq_true (show 32 - sa.toNat ≤ i by omega),
      decide_eq_true (show i - (32 - sa.toNat) < 32 by omega), Bool.true_and, Bool.true_and,
      Bool.false_and, Bool.false_or]
    congr 1
    omega

theorem shiftRight_pair (v : UInt64) {s : UInt64} {sa : UInt32} (hs : s.toNat = sa.toNat)
    (h0 : 0 < sa.toNat) (hsa : sa.toNat < 32) : v >>> s =
      joinWords (highWord v >>> sa) (lowWord v >>> sa ||| highWord v <<< (32 - sa)) := by
  apply eq_of_bitOf_eq
  intro i hi
  rw [bitOf_shiftRight _ _ _ (by omega), bitOf_joinWords, hs]
  split
  · exact (wordBit_carryRight v h0 hsa ‹_›).symm
  · rw [wordBit_shiftRight _ _ _ hsa, wordBit_highWord]
    by_cases hc : sa.toNat + (i - 32) < 32
    · rw [decide_eq_true hc, Bool.true_and]
      congr 1
      omega
    · rw [decide_eq_false hc, Bool.false_and, bitOf_of_ge _ (by omega)]

theorem sar64_pair (v : UInt64) {s : UInt64} {sa : UInt32} (hs : s.toNat = sa.toNat)
    (h0 : 0 < sa.toNat) (hsa : sa.toNat < 32) : sar64 v s =
      joinWords (sar32 (highWord v) sa) (lowWord v >>> sa ||| highWord v <<< (32 - sa)) := by
  apply eq_of_bitOf_eq
  intro i hi
  rw [bitOf_sar64 _ _ (by omega) hi, bitOf_joinWords, hs]
  by_cases hlow : i < 32
  · rw [if_pos hlow, if_pos (by omega)]
    exact (wordBit_carryRight v h0 hsa hlow).symm
  · rw [if_neg hlow, wordBit_sar32 _ _ hsa (by omega), wordBit_highWord, wordBit_highWord]
    by_cases hc : sa.toNat + i < 64
    · rw [if_pos hc, if_pos (by omega), decide_eq_true (by omega), Bool.true_and]
      congr 1
      omega
    · rw [if_neg hc, if_neg (by omega), decide_eq_true (by decide), Bool.true_and]

theorem shiftLeft_far (v : UInt64) {s : UInt64} {sa : UInt32} (hs : s.toNat = sa.toNat + 32)
    (hsa : sa.toNat < 32) : v <<< s = joinWords (lowWord v <<< sa) 0 := by
  apply eq_of_bitOf_eq
  intro i hi
  rw [bitOf_shiftLeft _ _ (by omega) hi, bitOf_joinWords, hs]
  split
  · rw [wordBit_zero, decide_eq_false (by omega), Bool.false_and]
  · rw [wordBit_shiftLeft _ _ hsa (by omega), wordBit_lowWord,
      decide_eq_true (show i - 32 - sa.toNat < 32 by omega), Bool.true_and]
    by_cases hc : sa.toNat ≤ i - 32
    · rw [decide_eq_true hc, decide_eq_true (by omega), Bool.true_and, Bool.true_and]
      congr 1
      omega
    · rw [decide_eq_false hc, decide_eq_false (by omega), Bool.false_and, Bool.false_and]

theorem shiftRight_far (v : UInt64) {s : UInt64} {sa : UInt32} (hs : s.toNat = sa.toNat + 32)
    (hsa : sa.toNat < 32) : v >>> s = joinWords 0 (highWord v >>> sa) := by
  apply eq_of_bitOf_eq
  intro i hi
  rw [bitOf_shiftRight _ _ _ (by omega), bitOf_joinWords, hs]
  split
  · rw [wordBit_shiftRight _ _ _ hsa, wordBit_highWord]
    by_cases hc : sa.toNat + i < 32
    · rw [decide_eq_true hc, Bool.true_and]
      congr 1
      omega
    · rw [decide_eq_false hc, Bool.false_and, bitOf_of_ge _ (by omega)]
  · rw [wordBit_zero, bitOf_of_ge _ (by omega)]

theorem sar64_far (v : UInt64) {s : UInt64} {sa : UInt32} (hs : s.toNat = sa.toNat + 32)
    (hsa : sa.toNat < 32) : sar64 v s = sextWord (sar32 (highWord v) sa) := by
  apply eq_of_bitOf_eq
  intro i hi
  have hbit {j : Nat} (hj : j < 32) : (sar32 (highWord v) sa).toBitVec.getLsbD j =
      if sa.toNat + j < 32 then bitOf v (32 + (sa.toNat + j)) else bitOf v 63 := by
    have h := wordBit_sar32 (highWord v) sa hsa hj
    rw [wordBit_highWord, wordBit_highWord, decide_eq_true (show 31 < 32 by decide),
      Bool.true_and] at h
    refine h.trans (ite_congr rfl (fun hc => ?_) fun _ => rfl)
    rw [decide_eq_true hc, Bool.true_and]
  rw [bitOf_sar64 _ _ (by omega) hi, bitOf_sextWord _ hi, hs]
  by_cases hlow : i < 32
  · rw [if_pos hlow, hbit hlow, Nat.add_right_comm, Nat.add_comm _ 32]
    exact ite_congr (propext (by omega)) (fun _ => rfl) fun _ => rfl
  · rw [if_neg hlow, hbit (by decide), if_neg (by omega)]
    by_cases h31 : sa.toNat + 31 < 32
    · rw [if_pos h31, show 32 + (sa.toNat + 31) = 63 by omega]
    · rw [if_neg h31]

end Recompiler
