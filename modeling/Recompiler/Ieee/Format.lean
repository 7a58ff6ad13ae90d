import Recompiler.Bits

/-!
Binary floating-point numbers as bit patterns. `decode` gives the exact value of a pattern,
`round` the pattern nearest to an exact value, a tie going to the even one.
-/

namespace Recompiler.Ieee

/-- The widths of the exponent and fraction fields. -/
structure Format where
  exponentBits : Nat
  fractionBits : Nat
  deriving DecidableEq, Repr

def single : Format := ⟨8, 23⟩

def double : Format := ⟨11, 52⟩

namespace Format

/-- The largest value of the exponent field. -/
def maxExponent (f : Format) : Nat := pow2 f.exponentBits - 1

/-- The weight of the last fraction bit of the smallest numbers is two to this power. -/
def minScale (f : Format) : Int := 2 - pow2 (f.exponentBits - 1) - (f.fractionBits : Int)

def signMask (f : Format) : Nat := pow2 (f.exponentBits + f.fractionBits)

def infinity (f : Format) : Nat := f.maxExponent * pow2 f.fractionBits

/-- The fraction bit that makes a NaN quiet. -/
def quietBit (f : Format) : Nat := pow2 (f.fractionBits - 1)

/-- The pattern with the given sign and magnitude. -/
def withSign (f : Format) (negative : Bool) (magnitude : Nat) : Nat :=
  if negative then f.signMask + magnitude else magnitude

/-- The NaN that stands for the result of an invalid operation. -/
def defaultNan (f : Format) : Nat :=
  f.withSign true (f.infinity + f.quietBit)

end Format

/-- What a pattern stands for. A finite number is its significand times two to the scale. -/
inductive Value where
  | nan (negative : Bool) (payload : Nat)
  | infinite (negative : Bool)
  | finite (negative : Bool) (significand : Nat) (scale : Int)
  deriving DecidableEq, Repr

/-- The value of a bit pattern. -/
def decode (f : Format) (bits : Nat) : Value :=
  let negative := bits / f.signMask % 2 = 1
  let exponent := bits / pow2 f.fractionBits % pow2 f.exponentBits
  let fraction := bits % pow2 f.fractionBits
  if exponent = f.maxExponent then
    if fraction = 0 then .infinite negative else .nan negative fraction
  else if exponent = 0 then .finite negative fraction f.minScale
  else .finite negative (pow2 f.fractionBits + fraction) (f.minScale + (exponent - 1 : Int))

/-- A NaN with its quiet bit set. -/
def quietNan (f : Format) (negative : Bool) (payload : Nat) : Nat :=
  f.withSign negative (f.infinity + (payload ||| f.quietBit))

/-- The quotient by `2 ^ k`, to nearest, a tie to even. -/
def roundShift (m k : Nat) : Nat :=
  let q := m / pow2 k
  let r := m % pow2 k
  if 2 * r < pow2 k then q
  else if pow2 k < 2 * r then q + 1
  else q + q % 2

/-- The magnitude pattern nearest to `m * 2 ^ scale`. -/
def roundMagnitude (f : Format) (m : Nat) (scale : Int) : Nat :=
  if m = 0 then 0
  else
    let top : Int := scale + Nat.log2 m
    let last := max (top - f.fractionBits) f.minScale
    let n := if scale < last then roundShift m (last - scale).toNat
      else m * pow2 (scale - last).toNat
    min ((last - f.minScale).toNat * pow2 f.fractionBits + n) f.infinity

/-- The pattern nearest to the number with the given sign and magnitude `m * 2 ^ scale`. -/
def round (f : Format) (negative : Bool) (m : Nat) (scale : Int) : Nat :=
  f.withSign negative (roundMagnitude f m scale)

/-- A significand and scale with one more bit at the low end, set if something was cut off. It
rounds as the uncut number does when two or more bits are dropped. -/
def sticky (m : Nat) (inexact : Bool) : Nat :=
  2 * m + (if inexact then 1 else 0)

end Recompiler.Ieee
