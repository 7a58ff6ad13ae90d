import Recompiler.Proofs.DelaySlots

/-!
The multiply unit over the integers. Its two registers hold the exact product of the operands, or
the truncated quotient with the remainder, and no operation raises an exception.
-/

namespace Recompiler

open Interp

namespace Width

def modulus : Width → Nat
  | .word => 0x100000000
  | .double => 0x10000000000000000

/-- The number in the low bits of a register. -/
def number (w : Width) (signed : Bool) (v : UInt64) : Int :=
  match w, signed with
  | .word, true => v.toUInt32.toInt32.toInt
  | .word, false => v.toUInt32.toNat
  | .double, true => v.toInt64.toInt
  | .double, false => v.toNat

/-- A register holds a number of the width and nothing else: words are sign extended. -/
def Fills : Width → UInt64 → Prop
  | .word, v => sext32 v = v
  | .double, _ => True

end Width

namespace MulDivOp

def width : MulDivOp → Width
  | .mult | .multu | .div | .divu => .word
  | .dmult | .dmultu | .ddiv | .ddivu => .double

def isSigned : MulDivOp → Bool
  | .mult | .div | .dmult | .ddiv => true
  | .multu | .divu | .dmultu | .ddivu => false

def isProduct : MulDivOp → Bool
  | .mult | .multu | .dmult | .dmultu => true
  | .div | .divu | .ddiv | .ddivu => false

def number (op : MulDivOp) (v : UInt64) : Int := op.width.number op.isSigned v

end MulDivOp

/-- The quotient `q` of `a` by `b` and the remainder `r`, in a width with `m` numbers. The most
negative number divided by minus one has no quotient there. -/
structure IsQuotient (m : Nat) (a b q r : Int) : Prop where
  exact : ¬ (2 * a = -m ∧ b = -1) → a = q * b + r
  wraps : (m : Int) ∣ q * b + r - a
  small : |r| < |b|
  sign : r = 0 ∨ r.sign = a.sign

/-- What an operation on `x` and `y` leaves in the multiply unit. -/
structure MulDivOp.Yields (op : MulDivOp) (x y : UInt64) (r : HiLo) : Prop where
  fills_hi : op.width.Fills r.hi
  fills_lo : op.width.Fills r.lo
  /-- The low half of a product has no sign of its own. -/
  product : op.isProduct = true →
    op.number r.hi * op.width.modulus + op.width.number false r.lo = op.number x * op.number y
  quotient : op.isProduct = false → op.number y ≠ 0 →
    IsQuotient op.width.modulus (op.number x) (op.number y) (op.number r.lo) (op.number r.hi)
  byZero : op.isProduct = false → op.number y = 0 →
    op.number r.hi = op.number x ∧ r.lo = if op.number x < 0 then 1 else -1

namespace Width

theorem fills_sextWord (w : Width) (v : UInt32) : w.Fills (sextWord v) := by
  cases w with
  | word =>
    change sext32 (sextWord v) = sextWord v
    rw [sext32_eq_sextWord, toUInt32_sextWord]
  | double => trivial

theorem number_sextWord (signed : Bool) (v : UInt32) : Width.number .word signed (sextWord v) =
    if signed then v.toInt32.toInt else v.toNat := by
  cases signed with
  | true =>
    change (sextWord v).toUInt32.toInt32.toInt = _
    rw [toUInt32_sextWord]
    rfl
  | false =>
    change ((sextWord v).toUInt32.toNat : Int) = _
    rw [toUInt32_sextWord]
    rfl

theorem number_bounds (w : Width) (v : UInt64) :
    -(w.modulus : Int) ≤ 2 * w.number true v ∧ 2 * w.number true v < w.modulus := by
  cases w with
  | word =>
    have hlo := Int32.le_toInt v.toUInt32.toInt32
    have hhi := Int32.toInt_lt v.toUInt32.toInt32
    change -(0x100000000 : Int) ≤ 2 * v.toUInt32.toInt32.toInt ∧
      2 * v.toUInt32.toInt32.toInt < (0x100000000 : Int)
    omega
  | double =>
    have hlo := Int64.le_toInt v.toInt64
    have hhi := Int64.toInt_lt v.toInt64
    change -(0x10000000000000000 : Int) ≤ 2 * v.toInt64.toInt ∧
      2 * v.toInt64.toInt < (0x10000000000000000 : Int)
    omega

theorem number_nonneg (w : Width) (v : UInt64) : 0 ≤ w.number false v := by
  cases w with
  | word => exact Int.natCast_nonneg _
  | double => exact Int.natCast_nonneg _

end Width

namespace IsQuotient

variable {m : Nat} {a b : Int}

theorem tdiv (m : Nat) (a : Int) (hb : b ≠ 0) : IsQuotient m a b (a.tdiv b) (a.tmod b) := by
  have hdiv := Int.tdiv_mul_add_tmod a b
  constructor
  case exact =>
    intro _
    exact hdiv.symm
  case wraps =>
    rw [hdiv, sub_self]
    exact dvd_zero _
  case small =>
    rw [← Int.natCast_natAbs, ← Int.natCast_natAbs, Int.natAbs_tmod, Int.ofNat_lt]
    exact Nat.mod_lt _ (Int.natAbs_pos.mpr hb)
  case sign =>
    by_cases hdvd : b ∣ a
    · exact .inl (Int.tmod_eq_zero_of_dvd hdvd)
    · right
      rw [Int.sign_tmod, if_neg hdvd]

theorem tdiv_bounds (hlo : -(m : Int) ≤ 2 * a) (hhi : 2 * a < m) (hb : b ≠ 0)
    (hcase : ¬ (2 * a = -m ∧ b = -1)) : -(m : Int) ≤ a.tdiv b * 2 ∧ a.tdiv b * 2 < m := by
  by_cases hone : b = 1
  · rw [hone, Int.tdiv_one]
    omega
  by_cases hneg : b = -1
  · rw [hneg, Int.tdiv_neg, Int.tdiv_one]
    omega
  have habs : (a.tdiv b).natAbs = a.natAbs / b.natAbs := Int.natAbs_tdiv a b
  have hle : a.natAbs / b.natAbs ≤ a.natAbs / 2 := Nat.div_le_div_left (by omega) (by decide)
  omega

theorem bmod (hlo : -(m : Int) ≤ 2 * a) (hhi : 2 * a < m) (hb : b ≠ 0) :
    IsQuotient m a b ((a.tdiv b).bmod m) (a.tmod b) := by
  have h := tdiv m a hb
  constructor
  case exact =>
    intro hcase
    obtain ⟨hlow, hhigh⟩ := tdiv_bounds hlo hhi hb hcase
    rw [Int.bmod_eq_of_le_mul_two hlow hhigh]
    exact h.exact hcase
  case wraps =>
    have hcut : (m : Int) ∣ (a.tdiv b).bmod m - a.tdiv b := Int.dvd_bmod_sub_self
    have hsum : (a.tdiv b).bmod m * b + a.tmod b - a =
        ((a.tdiv b).bmod m - a.tdiv b) * b + (a.tdiv b * b + a.tmod b - a) := by ring
    rw [hsum]
    exact (hcut.mul_right b).add h.wraps
  case small => exact h.small
  case sign => exact h.sign

end IsQuotient

theorem toNat_words (r : UInt64) :
    (r.toNat : Int) = (highWord r).toNat * 0x100000000 + (lowWord r).toNat := by
  have hhigh : (highWord r).toNat = r.toNat / 0x100000000 := by
    rw [highWord, UInt64.toNat_toUInt32, UInt64.toNat_shiftRight, Nat.shiftRight_eq_div_pow]
    have hlt := r.toNat_lt
    exact Nat.mod_eq_of_lt (Nat.div_lt_of_lt_mul hlt)
  have hlow : (lowWord r).toNat = r.toNat % 0x100000000 := UInt64.toNat_toUInt32 r
  omega

theorem toInt_words (r : UInt64) :
    r.toInt64.toInt = (highWord r).toInt32.toInt * 0x100000000 + (lowWord r).toNat := by
  have hwords := toNat_words r
  have hlow := (lowWord r).toNat_lt
  have hdouble : r.toInt64.toInt = if 2 * r.toNat < 2 ^ 64 then (r.toNat : Int) else r.toNat - 2 ^ 64 :=
    BitVec.toInt_eq_toNat_cond r.toBitVec
  have hword : (highWord r).toInt32.toInt =
      if 2 * (highWord r).toNat < 2 ^ 32 then ((highWord r).toNat : Int)
      else (highWord r).toNat - 2 ^ 32 :=
    BitVec.toInt_eq_toNat_cond (highWord r).toBitVec
  rw [hdouble, hword]
  split <;> split <;> omega

theorem toInt_sext32 (v : UInt64) : (sext32 v).toInt64.toInt = v.toUInt32.toInt32.toInt := by
  rw [sext32]
  simp

theorem mul_bounds {m a b : Int} (ha : -m ≤ a ∧ a < m) (hb : -m ≤ b ∧ b < m) :
    -(m * m) ≤ a * b ∧ a * b ≤ m * m := by
  have ha' : |a| ≤ m := abs_le.mpr ⟨ha.1, le_of_lt ha.2⟩
  have hb' : |b| ≤ m := abs_le.mpr ⟨hb.1, le_of_lt hb.2⟩
  apply abs_le.mp
  rw [abs_mul]
  exact mul_le_mul ha' hb' (abs_nonneg b) ((abs_nonneg a).trans ha')

theorem toInt_mul_sext32 (x y : UInt64) : (sext32 x * sext32 y).toInt64.toInt =
    x.toUInt32.toInt32.toInt * y.toUInt32.toInt32.toInt := by
  obtain ⟨hlo, hhi⟩ := mul_bounds
    ⟨Int32.le_toInt x.toUInt32.toInt32, Int32.toInt_lt x.toUInt32.toInt32⟩
    ⟨Int32.le_toInt y.toUInt32.toInt32, Int32.toInt_lt y.toUInt32.toInt32⟩
  rw [UInt64.toInt64_mul, Int64.toInt_mul, toInt_sext32, toInt_sext32]
  apply Int.bmod_eq_of_le_mul_two
  · omega
  · omega

theorem toNat_mul_words (x y : UInt32) : (x.toUInt64 * y.toUInt64).toNat = x.toNat * y.toNat := by
  have hprod : x.toNat * y.toNat < 2 ^ 32 * 2 ^ 32 := Nat.mul_lt_mul'' x.toNat_lt y.toNat_lt
  rw [UInt64.toNat_mul, UInt32.toNat_toUInt64, UInt32.toNat_toUInt64]
  exact Nat.mod_eq_of_lt hprod

theorem toNat_ofInt (p : Int) : ((UInt64.ofInt p).toNat : Int) = p % 0x10000000000000000 := by
  have hnonneg : 0 ≤ p % 0x10000000000000000 := Int.emod_nonneg p (by decide)
  have hlt : p % 0x10000000000000000 < 0x10000000000000000 := Int.emod_lt_of_pos p (by decide)
  change ((UInt64.ofNat (p % 0x10000000000000000).toNat).toNat : Int) = _
  rw [UInt64.toNat_ofNat', Nat.mod_eq_of_lt (by omega), Int.toNat_of_nonneg hnonneg]

theorem toInt_ofInt {p : Int} (hlo : -0x8000000000000000 ≤ p) (hhi : p < 0x8000000000000000) :
    (UInt64.ofInt p).toInt64.toInt = p := by
  have hcut : (UInt64.ofInt p).toInt64.toInt = ((UInt64.ofInt p).toNat : Int).bmod (2 ^ 64) :=
    BitVec.toInt_eq_toNat_bmod (UInt64.ofInt p).toBitVec
  rw [hcut, toNat_ofInt]
  change (p % ((2 ^ 64 : Nat) : Int)).bmod (2 ^ 64) = p
  rw [Int.emod_bmod]
  apply Int.bmod_eq_of_le_mul_two
  · omega
  · omega

theorem ofInt_congr {a b : Int} (h : a % 0x10000000000000000 = b % 0x10000000000000000) :
    UInt64.ofInt a = UInt64.ofInt b := by
  apply UInt64.toNat_inj.mp
  apply Int.ofNat_inj.mp
  rw [toNat_ofInt, toNat_ofInt, h]

theorem ofInt_toNat (v : UInt64) : UInt64.ofInt v.toNat = v := by
  have hlt := v.toNat_lt
  apply UInt64.toNat_inj.mp
  apply Int.ofNat_inj.mp
  rw [toNat_ofInt]
  omega

theorem ofNat_eq_ofInt (n : Nat) : UInt64.ofNat n = UInt64.ofInt n := by
  apply UInt64.toNat_inj.mp
  apply Int.ofNat_inj.mp
  rw [toNat_ofInt, UInt64.toNat_ofNat']
  rfl

theorem ofInt_sub (p : Int) (v : UInt64) : UInt64.ofInt p - v = UInt64.ofInt (p - v.toNat) := by
  have hsum : UInt64.ofInt p = UInt64.ofInt (p - v.toNat) + v := by
    rw [← ofInt_toNat v, ← UInt64.ofInt_add, ofInt_toNat]
    exact congrArg UInt64.ofInt (by omega)
  rw [hsum, UInt64.add_sub_cancel]

theorem toNat_hi_mul64 (x y : UInt64) :
    (mul64 x y).hi.toNat = x.toNat * y.toNat / 0x10000000000000000 := by
  have hprod : x.toNat * y.toNat < 2 ^ 64 * 2 ^ 64 := Nat.mul_lt_mul'' x.toNat_lt y.toNat_lt
  change (UInt64.ofNat _).toNat = _
  rw [UInt64.toNat_ofNat']
  exact Nat.mod_eq_of_lt (Nat.div_lt_of_lt_mul hprod)

/-- What the sign of a double word adds to it, as a multiple of `2 ^ 64`, when it is read without
sign. -/
def wrapped (v : UInt64) : Int := if v.toInt64 < 0 then 1 else 0

theorem toNat_eq_wrapped (v : UInt64) :
    (v.toNat : Int) = v.toInt64.toInt + 0x10000000000000000 * wrapped v := by
  have hsigned : v.toInt64.toInt = if 2 * v.toNat < 2 ^ 64 then (v.toNat : Int) else v.toNat - 2 ^ 64 :=
    BitVec.toInt_eq_toNat_cond v.toBitVec
  have hlt := v.toNat_lt
  have hneg : v.toInt64 < 0 ↔ v.toInt64.toInt < 0 := Int64.lt_iff_toInt_lt
  unfold wrapped
  split <;> rename_i h <;> rw [hneg, hsigned] at h <;> rw [hsigned]
  · split at h <;> split <;> omega
  · split at h <;> split <;> omega

theorem corrected_eq (h v w : UInt64) :
    (if w.toInt64 < 0 then h - v else h) = UInt64.ofInt (h.toNat - wrapped w * v.toNat) := by
  unfold wrapped
  split
  · rw [Int.one_mul, ← ofInt_sub, ofInt_toNat]
  · rw [Int.zero_mul, Int.sub_zero, ofInt_toNat]

/-- The low word of a product does not depend on the signs of the operands. Two corrections make the
high word of the unsigned product that of the signed one. -/
theorem mulDiv_dmult (x y : UInt64) : mulDiv .dmult x y =
    ⟨UInt64.ofInt (x.toInt64.toInt * y.toInt64.toInt / 0x10000000000000000),
      UInt64.ofInt (x.toInt64.toInt * y.toInt64.toInt)⟩ := by
  have hx := toNat_eq_wrapped x
  have hy := toNat_eq_wrapped y
  generalize x.toInt64.toInt = a at hx ⊢
  generalize y.toInt64.toInt = b at hy ⊢
  have hproduct : ((x.toNat * y.toNat : Nat) : Int) = a * b +
      0x10000000000000000 * (a * wrapped y + wrapped x * y.toNat) := by
    rw [Nat.cast_mul, hx, hy]
    ring
  have hhigh : ((x.toNat * y.toNat / 0x10000000000000000 : Nat) : Int) =
      a * b / 0x10000000000000000 + (a * wrapped y + wrapped x * y.toNat) := by
    rw [Int.natCast_ediv, hproduct]
    exact Int.add_mul_ediv_left _ _ (by decide)
  have hlow : UInt64.ofNat (x.toNat * y.toNat) = UInt64.ofInt (a * b) := by
    rw [ofNat_eq_ofInt, hproduct]
    exact ofInt_congr (Int.add_mul_emod_self_left ..)
  have hcorrected : a * b / 0x10000000000000000 + (a * wrapped y + wrapped x * y.toNat) -
      wrapped x * y.toNat - wrapped y * x.toNat =
      a * b / 0x10000000000000000 + 0x10000000000000000 * -(wrapped x * wrapped y) := by
    rw [hx]
    ring
  refine congrArg₂ HiLo.mk ?_ hlow
  rw [corrected_eq, corrected_eq]
  apply ofInt_congr
  rw [toNat_ofInt, Int.emod_sub_emod, toNat_hi_mul64, hhigh, hcorrected]
  exact Int.add_mul_emod_self_left ..

namespace MulDivOp

variable {op : MulDivOp} {x y : UInt64} {r : HiLo}

theorem Yields.ofProduct (hop : op.isProduct = true) (hhi : op.width.Fills r.hi)
    (hlo : op.width.Fills r.lo)
    (h : op.number r.hi * op.width.modulus + op.width.number false r.lo =
      op.number x * op.number y) : op.Yields x y r where
  fills_hi := hhi
  fills_lo := hlo
  product _ := h
  quotient hq := by simp [hop] at hq
  byZero hq := by simp [hop] at hq

theorem Yields.ofQuotient (hop : op.isProduct = false) (hhi : op.width.Fills r.hi)
    (hlo : op.width.Fills r.lo) (hy : op.number y ≠ 0)
    (h : IsQuotient op.width.modulus (op.number x) (op.number y) (op.number r.lo)
      (op.number r.hi)) : op.Yields x y r where
  fills_hi := hhi
  fills_lo := hlo
  product hp := by simp [hop] at hp
  quotient _ _ := h
  byZero _ h0 := absurd h0 hy

theorem Yields.ofZero (hop : op.isProduct = false) (hhi : op.width.Fills r.hi)
    (hy : op.number y = 0) (h : op.number r.hi = op.number x)
    (hlo : r.lo = if op.number x < 0 then 1 else -1) : op.Yields x y r where
  fills_hi := hhi
  fills_lo := by
    rw [hlo]
    cases op.width with
    | word =>
      change sext32 _ = _
      split <;> rfl
    | double => trivial
  product hp := by simp [hop] at hp
  quotient _ h0 := absurd hy h0
  byZero _ _ := ⟨h, hlo⟩

theorem yields_mult (x y : UInt64) : mult.Yields x y (mulDiv .mult x y) := by
  apply Yields.ofProduct rfl
  · exact Width.fills_sextWord .word _
  · exact Width.fills_sextWord .word _
  · have hwords := toInt_words (sext32 x * sext32 y)
    rw [toInt_mul_sext32] at hwords
    change Width.number .word true (sextWord _) * 0x100000000 +
      Width.number .word false (sextWord _) = _
    rw [Width.number_sextWord, Width.number_sextWord]
    exact hwords.symm

theorem yields_multu (x y : UInt64) : multu.Yields x y (mulDiv .multu x y) := by
  apply Yields.ofProduct rfl
  · exact Width.fills_sextWord .word _
  · exact Width.fills_sextWord .word _
  · have hwords := toNat_words (x.toUInt32.toUInt64 * y.toUInt32.toUInt64)
    rw [toNat_mul_words, Nat.cast_mul] at hwords
    change Width.number .word false (sextWord _) * 0x100000000 +
      Width.number .word false (sextWord _) = _
    rw [Width.number_sextWord, Width.number_sextWord]
    exact hwords.symm

theorem yields_dmult (x y : UInt64) : dmult.Yields x y (mulDiv .dmult x y) := by
  rw [mulDiv_dmult]
  apply Yields.ofProduct rfl
  case hhi => trivial
  case hlo => trivial
  obtain ⟨hlo, hhi⟩ := mul_bounds ⟨Int64.le_toInt x.toInt64, Int64.toInt_lt x.toInt64⟩
    ⟨Int64.le_toInt y.toInt64, Int64.toInt_lt y.toInt64⟩
  change (UInt64.ofInt (x.toInt64.toInt * y.toInt64.toInt / 0x10000000000000000)).toInt64.toInt *
    0x10000000000000000 + ((UInt64.ofInt (x.toInt64.toInt * y.toInt64.toInt)).toNat : Int) =
      x.toInt64.toInt * y.toInt64.toInt
  rw [toNat_ofInt, toInt_ofInt (by omega) (by omega)]
  omega

theorem yields_dmultu (x y : UInt64) : dmultu.Yields x y (mulDiv .dmultu x y) := by
  apply Yields.ofProduct rfl
  case hhi => trivial
  case hlo => trivial
  change ((mul64 x y).hi.toNat : Int) * 0x10000000000000000 +
    ((UInt64.ofNat (x.toNat * y.toNat)).toNat : Int) = x.toNat * y.toNat
  rw [toNat_hi_mul64, UInt64.toNat_ofNat']
  omega

theorem zeroQuotient_eq {p q : Prop} [Decidable p] [Decidable q] (h : p ↔ q) :
    zeroQuotient (decide p) = if q then 1 else -1 := by
  by_cases hq : q
  · rw [if_pos hq, decide_eq_true (h.mpr hq)]
    rfl
  · rw [if_neg hq, decide_eq_false (mt h.mp hq)]
    rfl

theorem yields_div (x y : UInt64) : div.Yields x y (mulDiv .div x y) := by
  have hword (v : Int32) : Width.number .word true v.toInt64.toUInt64 = v.toInt :=
    Width.number_sextWord true v.toUInt32
  by_cases hy : y.toUInt32.toInt32 = 0
  · have hresult : mulDiv .div x y = ⟨sext32 x, zeroQuotient (x.toUInt32.toInt32 < 0)⟩ := if_pos hy
    rw [hresult]
    apply Yields.ofZero rfl
    · exact Width.fills_sextWord .word _
    · exact congrArg Int32.toInt hy
    · exact hword _
    · exact zeroQuotient_eq Int32.lt_iff_toInt_lt
  · have hresult : mulDiv .div x y = ⟨(x.toUInt32.toInt32 % y.toUInt32.toInt32).toInt64.toUInt64,
      (x.toUInt32.toInt32 / y.toUInt32.toInt32).toInt64.toUInt64⟩ := if_neg hy
    have hne : div.number y ≠ 0 := fun h => hy (Int32.toInt_inj.mp h)
    obtain ⟨hlo, hhi⟩ := Width.number_bounds .word x
    rw [hresult]
    apply Yields.ofQuotient rfl
    · exact Width.fills_sextWord .word _
    · exact Width.fills_sextWord .word _
    · exact hne
    · change IsQuotient _ _ _ (Width.number .word true _) (Width.number .word true _)
      rw [hword, hword, Int32.toInt_div, Int32.toInt_mod]
      exact IsQuotient.bmod hlo hhi hne

theorem yields_ddiv (x y : UInt64) : ddiv.Yields x y (mulDiv .ddiv x y) := by
  by_cases hy : y.toInt64 = 0
  · have hresult : mulDiv .ddiv x y = ⟨x, zeroQuotient (x.toInt64 < 0)⟩ := if_pos hy
    rw [hresult]
    apply Yields.ofZero rfl
    · trivial
    · exact congrArg Int64.toInt hy
    · rfl
    · exact zeroQuotient_eq Int64.lt_iff_toInt_lt
  · have hresult : mulDiv .ddiv x y =
      ⟨(x.toInt64 % y.toInt64).toUInt64, (x.toInt64 / y.toInt64).toUInt64⟩ := if_neg hy
    have hne : ddiv.number y ≠ 0 := fun h => hy (Int64.toInt_inj.mp h)
    obtain ⟨hlo, hhi⟩ := Width.number_bounds .double x
    rw [hresult]
    apply Yields.ofQuotient rfl
    · trivial
    · trivial
    · exact hne
    · change IsQuotient _ _ _ (x.toInt64 / y.toInt64).toInt (x.toInt64 % y.toInt64).toInt
      rw [Int64.toInt_div, Int64.toInt_mod]
      exact IsQuotient.bmod hlo hhi hne

theorem yields_divu (x y : UInt64) : divu.Yields x y (mulDiv .divu x y) := by
  have hword (v : UInt32) : Width.number .word false (sextWord v) = v.toNat :=
    Width.number_sextWord false v
  by_cases hy : y.toUInt32 = 0
  · have hresult : mulDiv .divu x y = ⟨sext32 x, zeroQuotient false⟩ := if_pos hy
    rw [hresult]
    apply Yields.ofZero rfl
    · exact Width.fills_sextWord .word _
    · exact congrArg (fun v : UInt32 => (v.toNat : Int)) hy
    · exact hword _
    · exact (if_neg (not_lt.mpr (Width.number_nonneg .word x))).symm
  · have hresult : mulDiv .divu x y =
      ⟨sextWord (x.toUInt32 % y.toUInt32), sextWord (x.toUInt32 / y.toUInt32)⟩ := if_neg hy
    have hne : divu.number y ≠ 0 := fun h => hy (UInt32.toNat_inj.mp (Int.ofNat_inj.mp h))
    rw [hresult]
    apply Yields.ofQuotient rfl
    · exact Width.fills_sextWord .word _
    · exact Width.fills_sextWord .word _
    · exact hne
    · change IsQuotient _ _ _ (Width.number .word false _) (Width.number .word false _)
      rw [hword, hword, UInt32.toNat_div, UInt32.toNat_mod, Int.ofNat_tdiv, Int.ofNat_tmod]
      exact IsQuotient.tdiv _ _ hne

theorem yields_ddivu (x y : UInt64) : ddivu.Yields x y (mulDiv .ddivu x y) := by
  by_cases hy : y = 0
  · have hresult : mulDiv .ddivu x y = ⟨x, zeroQuotient false⟩ := if_pos hy
    rw [hresult]
    apply Yields.ofZero rfl
    · trivial
    · exact congrArg (fun v : UInt64 => (v.toNat : Int)) hy
    · rfl
    · exact (if_neg (not_lt.mpr (Width.number_nonneg .double x))).symm
  · have hresult : mulDiv .ddivu x y = ⟨x % y, x / y⟩ := if_neg hy
    have hne : ddivu.number y ≠ 0 := fun h => hy (UInt64.toNat_inj.mp (Int.ofNat_inj.mp h))
    rw [hresult]
    apply Yields.ofQuotient rfl
    · trivial
    · trivial
    · exact hne
    · change IsQuotient _ _ _ ((x / y).toNat : Int) ((x % y).toNat : Int)
      rw [UInt64.toNat_div, UInt64.toNat_mod, Int.ofNat_tdiv, Int.ofNat_tmod]
      exact IsQuotient.tdiv _ _ hne

theorem yields (op : MulDivOp) (x y : UInt64) : op.Yields x y (mulDiv op x y) := by
  cases op with
  | mult => exact yields_mult x y
  | multu => exact yields_multu x y
  | div => exact yields_div x y
  | divu => exact yields_divu x y
  | dmult => exact yields_dmult x y
  | dmultu => exact yields_dmultu x y
  | ddiv => exact yields_ddiv x y
  | ddivu => exact yields_ddivu x y

end MulDivOp

namespace Interp

/-- An instruction of the multiply unit raises no exception and changes the two registers of the
unit only. They then hold the product of its operands, or the quotient and the remainder. -/
theorem exec_multiplyUnit (c : Cpu) (i : Instr) (op : MulDivOp) (h : i.kind = .mulDiv op) :
    ∃ r : HiLo, exec c i = (true, { c with leave := 0, hi := r.hi, lo := r.lo }) ∧
      op.Yields (c.reg i.rs) (c.reg i.rt) r := by
  have heffect : effect { c with leave := 0 } i c.pc = execMulDiv { c with leave := 0 } i op := by
    unfold effect
    rw [h]
  refine ⟨mulDiv op (c.reg i.rs) (c.reg i.rt), ?_, op.yields _ _⟩
  rw [exec, heffect]
  rfl

/-- The most negative word divided by minus one: the quotient wraps around. -/
theorem exec_multiplyUnit_wraps : ∃ (c : Cpu) (r : HiLo),
    (⟨0x0022001a⟩ : Instr).kind = .mulDiv .div ∧
      c.reg 1 = 0xffffffff80000000 ∧ c.reg 2 = 0xffffffffffffffff ∧
      exec c ⟨0x0022001a⟩ = (true, { c with leave := 0, hi := r.hi, lo := r.lo }) ∧
      MulDivOp.Yields .div (c.reg 1) (c.reg 2) r ∧ r = ⟨0, 0xffffffff80000000⟩ := by
  have hkind : (⟨0x0022001a⟩ : Instr).kind = .mulDiv .div := by decide
  obtain ⟨r, hexec, hyields⟩ := exec_multiplyUnit
    (((Cpu.powerOn ⟨#[], #[], []⟩ none).setReg 1 0xffffffff80000000).setReg 2 0xffffffffffffffff)
    ⟨0x0022001a⟩ .div hkind
  have hhi := congrArg (fun e => e.2.hi) hexec
  have hlo := congrArg (fun e => e.2.lo) hexec
  refine ⟨_, r, hkind, rfl, rfl, hexec, hyields, ?_⟩
  exact congrArg₂ HiLo.mk (hhi.symm.trans (by decide)) (hlo.symm.trans (by decide))

end Interp

end Recompiler
