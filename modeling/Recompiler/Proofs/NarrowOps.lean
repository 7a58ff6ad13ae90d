import Recompiler.Interp.Alu
import Recompiler.Interp.Memory
import Recompiler.Proofs.Narrow

/-!
The widths of results: each operation of the integer unit maps narrow operands to a result that
is as narrow as the width analysis claims.
-/

namespace Recompiler

theorem bitOf_sextWord (v : UInt32) {i : Nat} (hi : i < 64) :
    bitOf (sextWord v) i = if i < 32 then v.toBitVec.getLsbD i else v.toBitVec.getLsbD 31 := by
  simp only [bitOf, sextWord_toBitVec, BitVec.getLsbD_signExtend, hi, decide_true, Bool.true_and,
    BitVec.msb_eq_getLsbD_last]

theorem fits_sextWord (v : UInt32) : Fits 32 (sextWord v) := by
  intro i hi hn
  rw [bitOf_sextWord v hi, bitOf_sextWord v (by decide), if_neg (show ¬63 < 32 by decide)]
  split
  · rw [show i = 31 by omega]
  · rfl

theorem fits_sext32 (v : UInt64) : Fits 32 (sext32 v) := by
  rw [sext32_eq_sextWord]
  exact fits_sextWord _

theorem sext32_eq_of_fits {n : Int} {v : UInt64} (h : Fits n v) (hn : n ≤ 32) : sext32 v = v := by
  apply eq_of_bitOf_eq
  intro i hi
  rw [bitOf_sext32 v hi]
  split
  · rfl
  · rw [h i hi (by omega), h 31 (by decide) (by omega)]

theorem fits_sext16 (v : UInt64) : Fits 16 (sext16 v) := by
  intro i hi hn
  simp only [bitOf, sext16_toBitVec, BitVec.getLsbD_signExtend, hi, decide_true, Bool.true_and,
    BitVec.msb_eq_getLsbD_last, show (63 : Nat) < 64 by decide, show ¬63 < 16 by decide, if_false]
  split
  · rw [show i = 15 by omega]
  · rfl

theorem fits_sext8 (v : UInt64) : Fits 8 (sext8 v) := by
  intro i hi hn
  simp only [bitOf, sext8_toBitVec, BitVec.getLsbD_signExtend, hi, decide_true, Bool.true_and,
    BitVec.msb_eq_getLsbD_last, show (63 : Nat) < 64 by decide, show ¬63 < 8 by decide, if_false]
  split
  · rw [show i = 7 by omega]
  · rfl

theorem fits_of_toNat_lt {k : Nat} {v : UInt64} (hk : k < 64) (h : v.toNat < 2 ^ k) :
    Fits (k + 1) v := by
  have hz {i : Nat} (hi : k ≤ i) : bitOf v i = false :=
    Nat.testBit_lt_two_pow (Nat.lt_of_lt_of_le h (Nat.pow_le_pow_right (by decide) hi))
  intro i hi hn
  rw [hz (by omega), hz (show k ≤ 63 by omega)]

theorem Fits.and {m n : Int} {v w : UInt64} (hv : Fits m v) (hw : Fits n w) :
    Fits (max m n) (v &&& w) := by
  intro i hi hn
  rw [bitOf_and, bitOf_and, hv i hi (by omega), hw i hi (by omega)]

theorem Fits.or {m n : Int} {v w : UInt64} (hv : Fits m v) (hw : Fits n w) :
    Fits (max m n) (v ||| w) := by
  intro i hi hn
  rw [bitOf_or, bitOf_or, hv i hi (by omega), hw i hi (by omega)]

theorem Fits.xor {m n : Int} {v w : UInt64} (hv : Fits m v) (hw : Fits n w) :
    Fits (max m n) (v ^^^ w) := by
  intro i hi hn
  rw [bitOf_xor, bitOf_xor, hv i hi (by omega), hw i hi (by omega)]

theorem Fits.not {n : Int} {v : UInt64} (hv : Fits n v) : Fits n (~~~v) := by
  intro i hi hn
  rw [bitOf_not _ hi, bitOf_not _ (show 63 < 64 by decide), hv i hi hn]

theorem Fits.bounds {m n : Int} {v : UInt64} (h : Fits m v) (hmn : m ≤ n) (hn : 1 ≤ n)
    (hn' : n < 64) : ∃ k : Nat, n = k + 1 ∧ (2 : Int) ^ k ≤ 2 ^ 62 ∧
      -2 ^ k ≤ v.toBitVec.toInt ∧ v.toBitVec.toInt < 2 ^ k := by
  refine ⟨(n - 1).toNat, by omega, ?_, ?_⟩
  · have hp : 2 ^ (n - 1).toNat ≤ 2 ^ 62 := Nat.pow_le_pow_right (by decide) (by omega)
    exact_mod_cast hp
  · rw [← fits_iff_toInt (by omega)]
    exact h.mono (by omega)

theorem Fits.add {m n : Int} {v w : UInt64} (hm : 1 ≤ m) (hv : Fits m v) (hw : Fits n w) :
    Fits (max m n + 1) (v + w) := by
  rcases Int.lt_or_le (max m n) 63 with hlt | hge
  · obtain ⟨k, hk, hp, hv₁, hv₂⟩ := hv.bounds (n := max m n) (by omega) (by omega) (by omega)
    obtain ⟨k', hk', _, hw₁, hw₂⟩ := hw.bounds (n := max m n) (by omega) (by omega) (by omega)
    have he : k' = k := by omega
    subst he
    have hs : (v + w).toBitVec.toInt = v.toBitVec.toInt + w.toBitVec.toInt := by
      rw [UInt64.toBitVec_add, BitVec.toInt_add]
      exact Int.bmod_eq_of_le (by omega) (by omega)
    have hf : Fits ((k' + 1 : Nat) + 1) (v + w) := by
      rw [fits_iff_toInt (by omega), hs, Int.pow_succ]
      omega
    rwa [hk]
  · exact fits_of_le_64 (by omega) _

theorem Fits.sub {m n : Int} {v w : UInt64} (hm : 1 ≤ m) (hv : Fits m v) (hw : Fits n w) :
    Fits (max m n + 1) (v - w) := by
  rcases Int.lt_or_le (max m n) 63 with hlt | hge
  · obtain ⟨k, hk, hp, hv₁, hv₂⟩ := hv.bounds (n := max m n) (by omega) (by omega) (by omega)
    obtain ⟨k', hk', _, hw₁, hw₂⟩ := hw.bounds (n := max m n) (by omega) (by omega) (by omega)
    have he : k' = k := by omega
    subst he
    have hs : (v - w).toBitVec.toInt = v.toBitVec.toInt - w.toBitVec.toInt := by
      rw [UInt64.toBitVec_sub, BitVec.toInt_sub]
      exact Int.bmod_eq_of_le (by omega) (by omega)
    have hf : Fits ((k' + 1 : Nat) + 1) (v - w) := by
      rw [fits_iff_toInt (by omega), hs, Int.pow_succ]
      omega
    rwa [hk]
  · exact fits_of_le_64 (by omega) _

open Interp in
theorem Fits.add32 {m n : Int} {v w : UInt64} (hm : 1 ≤ m) (hv : Fits m v) (hw : Fits n w) :
    Fits (min 32 (max m n + 1)) (add32 v w) := by
  refine (fits_sext32 _).inter ?_
  rcases Int.lt_or_le (max m n) 32 with hlt | hge
  · have hs := hv.add hm hw
    rw [sext32_eq_of_fits hv (by omega), sext32_eq_of_fits hw (by omega),
      sext32_eq_of_fits hs (by omega)]
    exact hs
  · exact (fits_sext32 _).mono (by omega)

open Interp in
theorem Fits.sub32 {m n : Int} {v w : UInt64} (hm : 1 ≤ m) (hv : Fits m v) (hw : Fits n w) :
    Fits (min 32 (max m n + 1)) (sub32 v w) := by
  refine (fits_sext32 _).inter ?_
  rcases Int.lt_or_le (max m n) 32 with hlt | hge
  · have hs := hv.sub hm hw
    rw [sext32_eq_of_fits hv (by omega), sext32_eq_of_fits hw (by omega),
      sext32_eq_of_fits hs (by omega)]
    exact hs
  · exact (fits_sext32 _).mono (by omega)

theorem Fits.shiftLeft {n : Int} {v s : UInt64} (h : Fits n v) (hn : 1 ≤ n)
    (hs : s.toNat < 64) : Fits (n + s.toNat) (v <<< s) := by
  intro i hi hni
  have h63 : (63 : Nat) < 64 := by decide
  rw [bitOf_shiftLeft _ _ hs hi, bitOf_shiftLeft _ _ hs h63, decide_eq_true (by omega),
    decide_eq_true (by omega), Bool.true_and, Bool.true_and, h _ (by omega) (by omega),
    h (63 - s.toNat) (by omega) (by omega)]

theorem fits_shiftRight (v : UInt64) {s : UInt64} (hs : s.toNat < 64) (h0 : 0 < s.toNat) :
    Fits (65 - s.toNat) (v >>> s) := by
  intro i hi hni
  rw [bitOf_shiftRight _ _ _ hs, bitOf_shiftRight _ _ _ hs, bitOf_of_ge v (by omega),
    bitOf_of_ge v (by omega)]

theorem Fits.sar64 {n : Int} {v s : UInt64} (h : Fits n v) (hs : s.toNat < 64) :
    Fits (n - s.toNat) (sar64 v s) := by
  intro i hi hni
  have h63 : (63 : Nat) < 64 := by decide
  rw [bitOf_sar64 _ _ hs hi, bitOf_sar64 _ _ hs h63]
  have hb {j : Nat} (hj : n ≤ s.toNat + j + 1) :
      (if s.toNat + j < 64 then bitOf v (s.toNat + j) else bitOf v 63) = bitOf v 63 := by
    split
    · exact h _ (by omega) (by omega)
    · rfl
  rw [hb (by omega), hb (by omega)]

theorem Fits.sext32 {n : Int} {v : UInt64} (h : Fits n v) : Fits (min 32 n) (sext32 v) := by
  rcases Int.lt_or_le 32 n with hlt | hge
  · rw [Int.min_eq_left (by omega)]
    exact fits_sext32 v
  · rw [Int.min_eq_right hge, sext32_eq_of_fits h hge]
    exact h

theorem getLsbD_toUInt32 (v : UInt64) {i : Nat} (hi : i < 32) :
    v.toUInt32.toBitVec.getLsbD i = bitOf v i := by
  simp only [UInt64.toBitVec_toUInt32, BitVec.getLsbD_setWidth, hi, decide_true, Bool.true_and,
    bitOf]

theorem toNat_wordShiftAmount {s : UInt32} (hs : s.toNat < 32) : (s.toBitVec % 32).toNat = s.toNat :=
  Nat.mod_eq_of_lt hs

theorem sextWord_shiftLeft (v s : UInt64) (sa : UInt32) (hs : s.toNat = sa.toNat)
    (hsa : sa.toNat < 32) : sextWord (v.toUInt32 <<< sa) = sext32 (v <<< s) := by
  have hw {i : Nat} (hi : i < 32) :
      (v.toUInt32 <<< sa).toBitVec.getLsbD i = bitOf (v <<< s) i := by
    rw [bitOf_shiftLeft _ _ (by omega) (by omega), hs]
    simp only [UInt32.toBitVec_shiftLeft, BitVec.shiftLeft_eq', toNat_wordShiftAmount hsa,
      BitVec.getLsbD_shiftLeft, hi, decide_true, Bool.true_and]
    rw [getLsbD_toUInt32 v (by omega)]
    by_cases h : i < sa.toNat
    · simp [h, Nat.not_le.2 h]
    · simp [h, Nat.le_of_not_lt h]
  apply eq_of_bitOf_eq
  intro i hi
  rw [bitOf_sextWord _ hi, bitOf_sext32 _ hi]
  split
  · exact hw ‹_›
  · exact hw (by decide)

theorem sextWord_shiftRight (v s : UInt64) (sa : UInt32) (hs : s.toNat = sa.toNat)
    (hsa : sa.toNat < 32) :
    sextWord (v.toUInt32 >>> sa) = sext32 ((v &&& 0xffffffff) >>> s) := by
  have hw {i : Nat} (hi : i < 32) :
      (v.toUInt32 >>> sa).toBitVec.getLsbD i = bitOf ((v &&& 0xffffffff) >>> s) i := by
    rw [bitOf_shiftRight _ _ _ (by omega), hs, bitOf_and,
      KnownBits.bitOf_lowMask (show sa.toNat + i < 64 by omega)]
    simp only [UInt32.toBitVec_shiftRight, BitVec.ushiftRight_eq', toNat_wordShiftAmount hsa,
      BitVec.getLsbD_ushiftRight]
    by_cases h : sa.toNat + i < 32
    · rw [getLsbD_toUInt32 v h, decide_eq_true h, Bool.and_true]
    · rw [BitVec.getLsbD_of_ge _ _ (Nat.le_of_not_lt h), decide_eq_false h, Bool.and_false]
  apply eq_of_bitOf_eq
  intro i hi
  rw [bitOf_sextWord _ hi, bitOf_sext32 _ hi]
  split
  · exact hw ‹_›
  · exact hw (by decide)

theorem sextWord_sar32 (v s : UInt64) (sa : UInt32) (hs : s.toNat = sa.toNat)
    (hsa : sa.toNat < 32) :
    sextWord (sar32 v.toUInt32 sa) = sext32 (sar64 (sext32 v) s) := by
  have hw {i : Nat} (hi : i < 32) :
      (sar32 v.toUInt32 sa).toBitVec.getLsbD i = bitOf (sar64 (sext32 v) s) i := by
    have hn : ¬32 ≤ i := Nat.not_le.2 hi
    rw [bitOf_sar64 _ _ (by omega) (by omega), hs, sar32_toBitVec _ _ hsa]
    simp only [BitVec.getLsbD_sshiftRight, hn, decide_false, Bool.not_false, Bool.true_and,
      BitVec.msb_eq_getLsbD_last]
    rw [if_pos (show sa.toNat + i < 64 by omega), bitOf_sext32 _ (by omega)]
    split
    · exact getLsbD_toUInt32 v ‹_›
    · exact getLsbD_toUInt32 v (by decide)
  apply eq_of_bitOf_eq
  intro i hi
  rw [bitOf_sextWord _ hi, bitOf_sext32 _ hi]
  split
  · exact hw ‹_›
  · exact hw (by decide)

end Recompiler
