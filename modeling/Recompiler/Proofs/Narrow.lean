import Recompiler.Proofs.KnownBits
import Recompiler.Trace.Widths

/-!
Narrow values. `Fits n v` says that the bits of `v` from the one below `n` on are all equal, so
that the low `n` bits determine `v` by sign extension. Each operation of the integer unit maps
narrow operands to a result that is as narrow as the width analysis claims.
-/

namespace Recompiler

def extendFrom (n : Nat) (v : UInt64) : UInt64 := ⟨(v.toBitVec.setWidth n).signExtend 64⟩

/-- The bits from the one below `n` on are all copies of the sign. -/
def Fits (n : Int) (v : UInt64) : Prop :=
  ∀ i : Nat, i < 64 → n ≤ i + 1 → bitOf v i = bitOf v 63

theorem fits_of_le_64 {n : Int} (h : 64 ≤ n) (v : UInt64) : Fits n v := by
  intro i hi hn
  have he : i = 63 := by omega
  rw [he]

theorem Fits.mono {m n : Int} {v : UInt64} (h : Fits m v) (hmn : m ≤ n) : Fits n v :=
  fun i hi hn => h i hi (Int.le_trans hmn hn)

theorem fits_clamp {n : Int} {v : UInt64} : Fits (Widths.clamp n) v ↔ Fits n v := by
  constructor
  · intro h i hi hn
    apply h i hi
    simp only [Widths.clamp]
    omega
  · intro h i hi hn
    simp only [Widths.clamp] at hn
    rcases Int.le_total n 64 with hle | hle
    · exact h i hi (by omega)
    · exact fits_of_le_64 (Int.le_refl 64) v i hi (by omega)

theorem Fits.inter {m n : Int} {v : UInt64} (hm : Fits m v) (hn : Fits n v) :
    Fits (min m n) v := by
  rcases Int.le_total m n with h | h
  · rwa [Int.min_eq_left h]
  · rwa [Int.min_eq_right h]

theorem bitOf_extendFrom {n : Nat} (v : UInt64) {i : Nat} (hn : 1 ≤ n) (hi : i < 64) :
    bitOf (extendFrom n v) i = if i < n then bitOf v i else bitOf v (n - 1) := by
  have hn' : 0 < n := hn
  simp only [extendFrom, bitOf, BitVec.getLsbD_signExtend, BitVec.getLsbD_setWidth, hi,
    decide_true, Bool.true_and, BitVec.msb_setWidth, hn']
  split
  · rename_i h
    rw [decide_eq_true h, Bool.true_and]
  · rfl

theorem extendFrom_eq_iff_fits {n : Nat} {v : UInt64} (hn : 1 ≤ n) (hn' : n ≤ 64) :
    extendFrom n v = v ↔ Fits n v := by
  constructor
  · intro h i hi hni
    have hb {j : Nat} (hj : j < 64) (hnj : n ≤ j + 1) : bitOf v j = bitOf v (n - 1) := by
      rw [← h, bitOf_extendFrom v hn hj, bitOf_extendFrom v hn (by omega)]
      split
      · rw [if_pos (by omega)]
        congr 1
        omega
      · rw [if_pos (by omega)]
    rw [hb hi (by omega), hb (show 63 < 64 by decide) (by omega)]
  · intro h
    apply eq_of_bitOf_eq
    intro i hi
    rw [bitOf_extendFrom v hn hi]
    split
    · rfl
    · rw [h i hi (by omega), h (n - 1) (by omega) (by omega)]

theorem fits_iff_sshiftRight {k : Nat} {v : UInt64} (hk : k < 64) :
    Fits (k + 1) v ↔
      v.toBitVec.sshiftRight k = 0#64 ∨ v.toBitVec.sshiftRight k = BitVec.allOnes 64 := by
  have hbit {i : Nat} (hi : i < 64) : (v.toBitVec.sshiftRight k).getLsbD i =
      if k + i < 64 then bitOf v (k + i) else bitOf v 63 := by
    have hn : ¬64 ≤ i := Nat.not_le.2 hi
    simp only [bitOf, BitVec.getLsbD_sshiftRight, hn, decide_false, Bool.not_false,
      Bool.true_and, BitVec.msb_eq_getLsbD_last]
  constructor
  · intro h
    have hall {i : Nat} (hi : i < 64) :
        (v.toBitVec.sshiftRight k).getLsbD i = bitOf v 63 := by
      rw [hbit hi]
      split
      · exact h (k + i) (by omega) (by omega)
      · rfl
    cases hs : bitOf v 63 with
    | false =>
      left
      apply BitVec.eq_of_getLsbD_eq
      intro i hi
      rw [hall hi, hs, BitVec.getLsbD_zero]
    | true =>
      right
      apply BitVec.eq_of_getLsbD_eq
      intro i hi
      rw [hall hi, hs, BitVec.getLsbD_allOnes, decide_eq_true hi]
  · intro h
    have hall {i j : Nat} (hi : i < 64) (hj : j < 64) :
        (v.toBitVec.sshiftRight k).getLsbD i = (v.toBitVec.sshiftRight k).getLsbD j := by
      rcases h with h | h <;> rw [h]
      · rw [BitVec.getLsbD_zero, BitVec.getLsbD_zero]
      · rw [BitVec.getLsbD_allOnes, BitVec.getLsbD_allOnes, decide_eq_true hi, decide_eq_true hj]
    intro i hi hki
    have h' := hall (show i - k < 64 by omega) (show 63 - k < 64 by omega)
    rw [hbit (by omega), hbit (by omega), if_pos (by omega), if_pos (by omega)] at h'
    rwa [show k + (i - k) = i by omega, show k + (63 - k) = 63 by omega] at h'

theorem fits_iff_toInt {k : Nat} {v : UInt64} (hk : k < 64) :
    Fits (k + 1) v ↔ -2 ^ k ≤ v.toBitVec.toInt ∧ v.toBitVec.toInt < 2 ^ k := by
  have hp : (0 : Int) < 2 ^ k := Int.pow_pos (by decide)
  have hq : (v.toBitVec.sshiftRight k).toInt = v.toBitVec.toInt / 2 ^ k := by
    rw [BitVec.toInt_sshiftRight, Int.shiftRight_eq_div_pow]
    rfl
  have hl : -2 ^ k ≤ v.toBitVec.toInt ↔ -1 ≤ v.toBitVec.toInt / 2 ^ k := by
    rw [Int.le_ediv_iff_mul_le hp, Int.neg_one_mul]
  have hu : v.toBitVec.toInt < 2 ^ k ↔ v.toBitVec.toInt / 2 ^ k < 1 := by
    rw [Int.ediv_lt_iff_lt_mul hp, Int.one_mul]
  rw [fits_iff_sshiftRight hk, ← BitVec.toInt_inj, ← BitVec.toInt_inj, hq, hl, hu,
    show (0#64).toInt = 0 from rfl, show (BitVec.allOnes 64).toInt = -1 from rfl]
  omega

theorem bitOf_one {i : Nat} (hi : i < 64) : bitOf 1 i = decide (i = 0) := by
  have h : ∀ k : Fin 64, bitOf 1 k.val = decide (k.val = 0) := by decide
  exact h ⟨i, hi⟩

theorem bitOf_ofBool64 (b : Bool) {i : Nat} (hi : i < 64) :
    bitOf (ofBool64 b) i = (b && decide (i = 0)) := by
  cases b
  · exact bitOf_zero i
  · exact bitOf_one hi

theorem shiftRight_and_one (v : UInt64) {n : Nat} (hn : n < 64) :
    (v >>> UInt64.ofNat n) &&& 1 = ofBool64 (bitOf v n) := by
  have hs : (UInt64.ofNat n).toNat = n :=
    UInt64.toNat_ofNat_of_lt' (Nat.lt_of_lt_of_le hn (by decide))
  apply eq_of_bitOf_eq
  intro i hi
  rw [bitOf_and, bitOf_shiftRight _ _ _ (by omega), hs, bitOf_one hi, bitOf_ofBool64 _ hi]
  by_cases h : i = 0
  · rw [h]
    rfl
  · simp [h]

theorem shiftRight_63 (v : UInt64) : v >>> 63 = ofBool64 (bitOf v 63) := by
  apply eq_of_bitOf_eq
  intro i hi
  rw [bitOf_shiftRight _ _ _ (by decide), bitOf_ofBool64 _ hi]
  by_cases h : i = 0
  · rw [h]
    simp
  · rw [bitOf_of_ge v (show 64 ≤ UInt64.toNat 63 + i by change 64 ≤ 63 + i; omega)]
    simp [h]

theorem ofBool64_inj {a b : Bool} : ofBool64 a = ofBool64 b ↔ a = b := by
  revert a b
  decide

theorem KnownBits.Describes.fits_widthBelow {x : KnownBits} {v : UInt64} (h : x.Describes v)
    (hm : bitOf x.mask 63 = true) {n : Nat} (hn : n ≤ 63)
    (hv : ∀ i, n ≤ i → i < 64 → bitOf v i = bitOf v 63) :
    Fits (x.widthBelow (x.bits >>> 63) n) v := by
  induction n with
  | zero => exact fun i hi _ => hv i (Nat.zero_le i) hi
  | succ n ih =>
    simp only [widthBelow]
    split
    · rename_i hc
      rw [Bool.and_eq_true, beq_iff_eq, beq_iff_eq, shiftRight_and_one _ (by omega),
        shiftRight_and_one _ (by omega), shiftRight_63] at hc
      have hmn : bitOf x.mask n = true := ofBool64_inj.1 hc.1
      have hbn : bitOf x.bits n = bitOf x.bits 63 := ofBool64_inj.1 hc.2
      apply ih (by omega)
      intro i hni hi
      rcases Nat.eq_or_lt_of_le hni with he | hlt
      · rw [← he, h.bit_of_mask hmn, h.bit_of_mask hm, hbn]
      · exact hv i hlt hi
    · intro i hi hni
      exact hv i (by omega) hi

theorem KnownBits.Describes.fits {x : KnownBits} {v : UInt64} (h : x.Describes v) :
    Fits x.width v := by
  simp only [width, signBit64_eq_bitOf]
  split
  · rename_i hm
    apply h.fits_widthBelow hm (Nat.le_refl 63)
    intro i hi hi'
    rw [show i = 63 by omega]
  · exact fits_of_le_64 (by decide) v

end Recompiler
