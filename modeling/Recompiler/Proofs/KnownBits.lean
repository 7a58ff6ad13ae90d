import Recompiler.Proofs.Words
import Recompiler.Trace.KnownBits

/-!
Soundness of partial knowledge. `KnownBits.Describes x v` says that `v` has the bits that `x`
claims, and each operation on known bits describes the result of the operation on values.
-/

namespace Recompiler.KnownBits

/-- The value agrees with the known bits, and no other bits are recorded. -/
def Describes (x : KnownBits) (v : UInt64) : Prop := v &&& x.mask = x.bits

theorem Describes.bit_eq {x : KnownBits} {v : UInt64} (h : x.Describes v) (i : Nat) :
    bitOf x.bits i = (bitOf v i && bitOf x.mask i) := by
  rw [← show v &&& x.mask = x.bits from h, bitOf_and]

theorem describes_of_bits {x : KnownBits} {v : UInt64}
    (h : ∀ i, i < 64 → bitOf x.bits i = (bitOf v i && bitOf x.mask i)) : x.Describes v := by
  apply eq_of_bitOf_eq
  intro i hi
  rw [bitOf_and, h i hi]

theorem Describes.bit_of_mask {x : KnownBits} {v : UInt64} {i : Nat} (h : x.Describes v)
    (hi : bitOf x.mask i = true) : bitOf v i = bitOf x.bits i := by
  rw [h.bit_eq i, hi, Bool.and_true]

theorem describes_unknown (v : UInt64) : unknown.Describes v := by
  simp [Describes, unknown]

theorem describes_const {v w : UInt64} : (const w).Describes v ↔ v = w := by
  have h : v &&& allOnes = v := UInt64.and_neg_one
  simp only [Describes, const, h]

theorem Describes.eq_of_isFull {x : KnownBits} {v : UInt64} (h : x.Describes v)
    (hx : x.isFull = true) : v = x.bits := by
  have hm : x.mask = allOnes := by simpa only [isFull, beq_iff_eq] using hx
  rw [← show v &&& x.mask = x.bits from h, hm]
  exact UInt64.and_neg_one.symm

theorem Describes.cut {x : KnownBits} {v : UInt64} (h : x.Describes v) :
    Describes ⟨x.mask, x.bits &&& x.mask⟩ v := by
  change v &&& x.mask = x.bits &&& x.mask
  rw [← show v &&& x.mask = x.bits from h, UInt64.and_assoc, UInt64.and_self]

theorem Describes.and {x y : KnownBits} {v w : UInt64} (hv : x.Describes v)
    (hw : y.Describes w) : (x.and y).Describes (v &&& w) := by
  apply describes_of_bits
  intro i hi
  simp only [KnownBits.and, bitOf_and, bitOf_or, bitOf_not _ hi, hv.bit_eq i, hw.bit_eq i]
  grind

theorem Describes.or {x y : KnownBits} {v w : UInt64} (hv : x.Describes v)
    (hw : y.Describes w) : (x.or y).Describes (v ||| w) := by
  apply describes_of_bits
  intro i hi
  simp only [KnownBits.or, bitOf_and, bitOf_or, hv.bit_eq i, hw.bit_eq i]
  grind

theorem Describes.xor {x y : KnownBits} {v w : UInt64} (hv : x.Describes v)
    (hw : y.Describes w) : (x.xor y).Describes (v ^^^ w) := by
  apply describes_of_bits
  intro i hi
  simp only [KnownBits.xor, bitOf_and, bitOf_xor, hv.bit_eq i, hw.bit_eq i]
  grind

theorem Describes.not {x : KnownBits} {v : UInt64} (hv : x.Describes v) :
    x.not.Describes (~~~v) := by
  apply describes_of_bits
  intro i hi
  simp only [KnownBits.not, bitOf_and, bitOf_not _ hi, hv.bit_eq i]
  grind

theorem bitOf_lowMask {i : Nat} (hi : i < 64) : bitOf 0xffffffff i = decide (i < 32) := by
  have h : ∀ k : Fin 64, bitOf 0xffffffff k.val = decide (k.val < 32) := by decide
  exact h ⟨i, hi⟩

theorem bitOf_highHalf {i : Nat} (hi : i < 64) : bitOf highHalf i = decide (32 ≤ i) := by
  have h : ∀ k : Fin 64, bitOf highHalf k.val = decide (32 ≤ k.val) := by decide
  exact h ⟨i, hi⟩

theorem bitOf_wordSign {i : Nat} (hi : i < 64) : bitOf 0x80000000 i = decide (i = 31) := by
  have h : ∀ k : Fin 64, bitOf 0x80000000 k.val = decide (k.val = 31) := by decide
  exact h ⟨i, hi⟩

theorem wordSign_ne_zero (v : UInt64) :
    (v &&& 0xffffffff &&& 0x80000000 != 0) = bitOf v 31 := by
  cases hb : bitOf v 31 with
  | false =>
    have h : v &&& 0xffffffff &&& 0x80000000 = 0 := by
      apply eq_of_bitOf_eq
      intro i hi
      rw [bitOf_and, bitOf_and, bitOf_wordSign hi, bitOf_zero]
      by_cases he : i = 31
      · rw [he, hb, Bool.false_and, Bool.false_and]
      · simp [he]
    rw [h]
    rfl
  | true =>
    apply bne_iff_ne.2
    intro h
    have h' := congrArg (bitOf · 31) h
    simp only [bitOf_and, hb, bitOf_zero, bitOf_lowMask (show 31 < 64 by decide),
      bitOf_wordSign (show 31 < 64 by decide)] at h'
    cases h'

theorem bitOf_signExtend_mask (x : KnownBits) {i : Nat} (hi : i < 64) :
    bitOf x.signExtend.mask i = if i < 32 then bitOf x.mask i else bitOf x.mask 31 := by
  simp only [signExtend, wordSign_ne_zero]
  cases hm : bitOf x.mask 31 <;>
    simp only [Bool.false_eq_true, ↓reduceIte, bitOf_and, bitOf_or, bitOf_lowMask hi,
      bitOf_highHalf hi] <;> grind

theorem bitOf_signExtend_bits {x : KnownBits} {v : UInt64} (h : x.Describes v) {i : Nat}
    (hi : i < 64) :
    bitOf x.signExtend.bits i = if i < 32 then bitOf x.bits i else bitOf x.bits 31 := by
  have hb := h.bit_eq 31
  simp only [signExtend, wordSign_ne_zero]
  cases hm : bitOf x.mask 31 <;> cases hs : bitOf x.bits 31 <;>
    simp only [Bool.false_eq_true, ↓reduceIte, bitOf_and, bitOf_or, bitOf_lowMask hi,
      bitOf_highHalf hi] <;> grind

theorem Describes.signExtend {x : KnownBits} {v : UInt64} (h : x.Describes v) :
    x.signExtend.Describes (sext32 v) := by
  apply describes_of_bits
  intro i hi
  rw [bitOf_signExtend_mask x hi, bitOf_signExtend_bits h hi, bitOf_sext32 v hi]
  split
  · exact h.bit_eq i
  · exact h.bit_eq 31

theorem Describes.zeroExtend {x : KnownBits} {v : UInt64} (h : x.Describes v) :
    x.zeroExtend.Describes (v &&& 0xffffffff) := by
  apply describes_of_bits
  intro i hi
  simp only [KnownBits.zeroExtend, bitOf_and, bitOf_or, bitOf_lowMask hi, bitOf_highHalf hi,
    h.bit_eq i]
  grind

theorem bitOf_highRun (s : UInt64) {i : Nat} (hs : s.toNat < 64) (hi : i < 64) :
    bitOf (highRun s) i = decide (64 ≤ s.toNat + i) := by
  have h : ∀ k : Nat, bitOf allOnes k = decide (k < 64) :=
    fun k => BitVec.getLsbD_allOnes (v := 64) (i := k)
  simp only [highRun, bitOf_not _ hi, bitOf_shiftRight _ _ _ hs, h]
  grind

theorem bitOf_lowOnes (s : UInt64) (i : Nat) (hs : s.toNat < 64) :
    bitOf ((1 <<< s) - 1) i = decide (i < s.toNat) := by
  have hp : 2 ^ s.toNat < 2 ^ 64 := Nat.pow_lt_pow_right (by decide) hs
  have h₁ : (1 <<< s : UInt64).toNat = 2 ^ s.toNat := by
    rw [UInt64.toNat_shiftLeft, Nat.mod_eq_of_lt hs, Nat.shiftLeft_eq, UInt64.toNat_one,
      Nat.one_mul, Nat.mod_eq_of_lt hp]
  have h₂ : ((1 <<< s) - 1 : UInt64).toNat = 2 ^ s.toNat - 1 := by
    rw [UInt64.toNat_sub_of_le _ _ ?_, h₁, UInt64.toNat_one]
    rw [UInt64.le_iff_toNat_le, h₁, UInt64.toNat_one]
    exact Nat.one_le_two_pow
  change ((1 <<< s) - 1 : UInt64).toNat.testBit i = _
  rw [h₂, Nat.testBit_two_pow_sub_one]

theorem Describes.shiftLeft {x : KnownBits} {v s : UInt64} (h : x.Describes v)
    (hs : s.toNat < 64) : (x.shiftLeft s).Describes (v <<< s) := by
  apply describes_of_bits
  intro i hi
  simp only [KnownBits.shiftLeft, bitOf_or, bitOf_shiftLeft _ _ hs hi, bitOf_lowOnes s i hs,
    h.bit_eq]
  grind

theorem Describes.shiftRight {x : KnownBits} {v s : UInt64} (h : x.Describes v)
    (hs : s.toNat < 64) : (x.shiftRight s).Describes (v >>> s) := by
  apply describes_of_bits
  intro i hi
  simp only [KnownBits.shiftRight, bitOf_or, bitOf_shiftRight _ _ _ hs, bitOf_highRun s hs hi,
    h.bit_eq]
  by_cases hh : 64 ≤ s.toNat + i
  · rw [bitOf_of_ge v hh, Bool.false_and, Bool.false_and]
  · simp [hh]

theorem Describes.shiftArith {x : KnownBits} {v s : UInt64} (h : x.Describes v)
    (hs : s.toNat < 64) : (x.shiftArith s).Describes (sar64 v s) := by
  apply describes_of_bits
  intro i hi
  have hb := h.bit_eq 63
  have hb' := h.bit_eq (s.toNat + i)
  simp only [KnownBits.shiftArith, signBit64_eq_bitOf]
  cases hm : bitOf x.mask 63 <;>
    simp only [Bool.false_eq_true, ↓reduceIte, bitOf_and, bitOf_or, bitOf_sar64 _ _ hs hi,
      bitOf_shiftRight _ _ _ hs, bitOf_highRun s hs hi]
  · by_cases hh : s.toNat + i < 64
    · grind
    · rw [bitOf_of_ge x.mask (Nat.le_of_not_lt hh), Bool.and_false, Bool.and_false]
  · grind

theorem testBit_eq_le_mod (n i : Nat) : n.testBit i = decide (2 ^ i ≤ n % 2 ^ (i + 1)) := by
  rw [Nat.testBit_eq_decide_div_mod_eq, decide_eq_decide, Nat.mod_pow_succ]
  have hr : n % 2 ^ i < 2 ^ i := Nat.mod_lt _ (Nat.two_pow_pos i)
  rcases Nat.mod_two_eq_zero_or_one (n / 2 ^ i) with h | h
  · simp [h, hr]
  · simp [h]

theorem testBit_of_mod_eq {m n i : Nat} (h : m % 2 ^ (i + 1) = n % 2 ^ (i + 1)) :
    m.testBit i = n.testBit i := by
  rw [testBit_eq_le_mod, testBit_eq_le_mod, h]

theorem mod_two_pow_of_lt_64 (n : Nat) {i : Nat} (hi : i < 64) :
    n % 2 ^ 64 % 2 ^ (i + 1) = n % 2 ^ (i + 1) :=
  Nat.mod_mod_of_dvd n (Nat.pow_dvd_pow 2 hi)

theorem low_of_lowRun {m : UInt64} {i : Nat} (hi : i < 64) (h : bitOf (lowRun m) i = true) :
    m.toNat % 2 ^ (i + 1) = 2 ^ (i + 1) - 1 := by
  simp only [lowRun, bitOf_and, bitOf_not _ hi, Bool.and_eq_true, Bool.not_eq_true'] at h
  have h₁ : m.toNat.testBit i = true := h.1
  have h₂ : (m + 1).toNat.testBit i = false := h.2
  have hr : m.toNat % 2 ^ (i + 1) < 2 ^ (i + 1) := Nat.mod_lt _ (Nat.two_pow_pos _)
  have hs : (m + 1).toNat % 2 ^ (i + 1) = (m.toNat % 2 ^ (i + 1) + 1) % 2 ^ (i + 1) := by
    rw [UInt64.toNat_add, UInt64.toNat_one, mod_two_pow_of_lt_64 _ hi, Nat.mod_add_mod]
  rw [testBit_eq_le_mod, decide_eq_true_iff] at h₁
  rw [testBit_eq_le_mod, decide_eq_false_iff_not, hs] at h₂
  by_cases hc : m.toNat % 2 ^ (i + 1) + 1 < 2 ^ (i + 1)
  · rw [Nat.mod_eq_of_lt hc] at h₂
    omega
  · omega

theorem bitOf_of_low {m : UInt64} {i j : Nat} (h : m.toNat % 2 ^ (i + 1) = 2 ^ (i + 1) - 1)
    (hj : j ≤ i) : bitOf m j = true := by
  have hb : (m.toNat % 2 ^ (i + 1)).testBit j = true := by
    rw [h, Nat.testBit_two_pow_sub_one]
    exact decide_eq_true (Nat.lt_succ_of_le hj)
  rw [Nat.testBit_mod_two_pow] at hb
  exact (Bool.and_eq_true_iff.1 hb).2

theorem Describes.mod_eq {x : KnownBits} {v : UInt64} {i : Nat} (h : x.Describes v)
    (hx : ∀ j, j ≤ i → bitOf x.mask j = true) :
    v.toNat % 2 ^ (i + 1) = x.bits.toNat % 2 ^ (i + 1) := by
  apply Nat.eq_of_testBit_eq
  intro j
  rw [Nat.testBit_mod_two_pow, Nat.testBit_mod_two_pow]
  by_cases hj : j < i + 1
  · have hb : v.toNat.testBit j = x.bits.toNat.testBit j :=
      h.bit_of_mask (hx j (Nat.le_of_lt_succ hj))
    rw [hb]
  · simp [hj]

theorem low_masks {x y : KnownBits} {i : Nat} (hi : i < 64)
    (h : bitOf (lowRun (x.mask &&& y.mask)) i = true) :
    (∀ j, j ≤ i → bitOf x.mask j = true) ∧ ∀ j, j ≤ i → bitOf y.mask j = true := by
  have hl := low_of_lowRun hi h
  have hb : ∀ j, j ≤ i → bitOf x.mask j = true ∧ bitOf y.mask j = true := by
    intro j hj
    have hj' := bitOf_of_low hl hj
    rw [bitOf_and] at hj'
    exact Bool.and_eq_true_iff.1 hj'
  exact ⟨fun j hj => (hb j hj).1, fun j hj => (hb j hj).2⟩

theorem Describes.add {x y : KnownBits} {v w : UInt64} (hv : x.Describes v)
    (hw : y.Describes w) : (x.add y).Describes (v + w) := by
  apply describes_of_bits
  intro i hi
  simp only [KnownBits.add, bitOf_and]
  cases hm : bitOf (lowRun (x.mask &&& y.mask)) i with
  | false => rw [Bool.and_false, Bool.and_false]
  | true =>
    obtain ⟨hx, hy⟩ := low_masks hi hm
    rw [Bool.and_true, Bool.and_true]
    apply testBit_of_mod_eq
    change (x.bits + y.bits).toNat % _ = (v + w).toNat % _
    rw [UInt64.toNat_add, UInt64.toNat_add, mod_two_pow_of_lt_64 _ hi,
      mod_two_pow_of_lt_64 _ hi, Nat.add_mod, ← hv.mod_eq hx, ← hw.mod_eq hy, ← Nat.add_mod]

theorem mod_eq_of_add_mod_eq {a b r m : Nat} (hm : 0 < m) (h : (a + r) % m = (b + r) % m) :
    a % m = b % m := by
  rw [Nat.add_mod a, Nat.add_mod b] at h
  have ha : a % m < m := Nat.mod_lt _ hm
  have hb : b % m < m := Nat.mod_lt _ hm
  have hr : r % m < m := Nat.mod_lt _ hm
  have hc {k : Nat} (hk : k < m) :
      (k + r % m) % m = if k + r % m < m then k + r % m else k + r % m - m := by
    split
    · rename_i hl
      exact Nat.mod_eq_of_lt hl
    · rename_i hl
      rw [Nat.mod_eq_sub_mod (Nat.le_of_not_lt hl), Nat.mod_eq_of_lt (by omega)]
  rw [hc ha, hc hb] at h
  split at h <;> split at h <;> omega

theorem Describes.sub {x y : KnownBits} {v w : UInt64} (hv : x.Describes v)
    (hw : y.Describes w) : (x.sub y).Describes (v - w) := by
  apply describes_of_bits
  intro i hi
  simp only [KnownBits.sub, bitOf_and]
  cases hm : bitOf (lowRun (x.mask &&& y.mask)) i with
  | false => rw [Bool.and_false, Bool.and_false]
  | true =>
    obtain ⟨hx, hy⟩ := low_masks hi hm
    rw [Bool.and_true, Bool.and_true]
    apply testBit_of_mod_eq
    have hs (a b : UInt64) : ((a - b).toNat + b.toNat) % 2 ^ (i + 1) = a.toNat % 2 ^ (i + 1) := by
      rw [← mod_two_pow_of_lt_64 _ hi, ← UInt64.toNat_add, UInt64.sub_add_cancel]
    apply mod_eq_of_add_mod_eq (r := w.toNat) (Nat.two_pow_pos _)
    change ((x.bits - y.bits).toNat + _) % _ = ((v - w).toNat + _) % _
    rw [hs, hv.mod_eq hx, ← hs x.bits y.bits, Nat.add_mod, hw.mod_eq hy, ← Nat.add_mod]

theorem describes_flag (b : Bool) : flag.Describes (ofBool64 b) := by
  cases b <;> rfl

theorem Describes.compare {x y : KnownBits} {v w : UInt64} (lt : UInt64 → UInt64 → Bool)
    (hv : x.Describes v) (hw : y.Describes w) :
    (KnownBits.compare lt x y).Describes (ofBool64 (lt v w)) := by
  simp only [KnownBits.compare]
  split
  · rename_i h
    rw [Bool.and_eq_true] at h
    rw [describes_const, hv.eq_of_isFull h.1, hw.eq_of_isFull h.2]
  · exact describes_flag _

end Recompiler.KnownBits
