import Recompiler.Ieee.Format
import Recompiler.Instr.Kind

/-!
Arithmetic on bit patterns. Every result is the exact one, rounded to nearest. An operation on
a NaN gives that NaN, made quiet, and an invalid operation the default NaN.
-/

namespace Recompiler.Ieee

/-- A signed integer from sign and magnitude. -/
def signedInt (negative : Bool) (m : Nat) : Int :=
  if negative then -(m : Int) else m

/-- The rounded sum of two finite numbers; an exact zero is negative only if both are. -/
def addFinite (f : Format) (sx : Bool) (mx : Nat) (ex : Int) (sy : Bool) (my : Nat) (ey : Int) :
    Nat :=
  let e := min ex ey
  let x := signedInt sx (mx * pow2 (ex - e).toNat)
  let y := signedInt sy (my * pow2 (ey - e).toNat)
  let sum := x + y
  if sum = 0 then f.withSign (sx && sy) 0 else round f (sum < 0) sum.natAbs e

def add (f : Format) (x y : Nat) : Nat :=
  match decode f x, decode f y with
  | .nan s p, _ => quietNan f s p
  | _, .nan s p => quietNan f s p
  | .infinite sx, .infinite sy =>
    if sx = sy then f.withSign sx f.infinity else f.defaultNan
  | .infinite s, _ => f.withSign s f.infinity
  | _, .infinite s => f.withSign s f.infinity
  | .finite sx mx ex, .finite sy my ey => addFinite f sx mx ex sy my ey

/-- The pattern with the other sign. -/
def flipSign (f : Format) (x : Nat) : Nat :=
  x ^^^ f.signMask

/-- The pattern without its sign. -/
def clearSign (f : Format) (x : Nat) : Nat :=
  x % f.signMask

/-- A difference is a sum with the second sign flipped, but a NaN keeps its sign. -/
def sub (f : Format) (x y : Nat) : Nat :=
  match decode f y with
  | .nan .. => add f x y
  | _ => add f x (flipSign f y)

def mul (f : Format) (x y : Nat) : Nat :=
  match decode f x, decode f y with
  | .nan s p, _ => quietNan f s p
  | _, .nan s p => quietNan f s p
  | .infinite sx, .infinite sy => f.withSign (sx != sy) f.infinity
  | .infinite sx, .finite sy m _ =>
    if m = 0 then f.defaultNan else f.withSign (sx != sy) f.infinity
  | .finite sx m _, .infinite sy =>
    if m = 0 then f.defaultNan else f.withSign (sx != sy) f.infinity
  | .finite sx mx ex, .finite sy my ey => round f (sx != sy) (mx * my) (ex + ey)

/-- The rounded quotient of two finite numbers, the divisor not zero. -/
def divFinite (f : Format) (negative : Bool) (mx : Nat) (ex : Int) (my : Nat) (ey : Int) : Nat :=
  let extra := 2 * f.fractionBits + 4
  let n := mx * pow2 extra
  round f negative (sticky (n / my) (n % my != 0)) (ex - ey - extra - 1)

def div (f : Format) (x y : Nat) : Nat :=
  match decode f x, decode f y with
  | .nan s p, _ => quietNan f s p
  | _, .nan s p => quietNan f s p
  | .infinite _, .infinite _ => f.defaultNan
  | .infinite sx, .finite sy _ _ => f.withSign (sx != sy) f.infinity
  | .finite sx _ _, .infinite sy => f.withSign (sx != sy) 0
  | .finite sx mx ex, .finite sy my ey =>
    if my = 0 then
      if mx = 0 then f.defaultNan else f.withSign (sx != sy) f.infinity
    else divFinite f (sx != sy) mx ex my ey

/-- The integer square root by bits: `n` rounds starting from the bit of weight `2 ^ n`. -/
def isqrtBits (m : Nat) : Nat → Nat → Nat
  | 0, r => r
  | n + 1, r =>
    let c := r + pow2 n
    if c * c ≤ m then isqrtBits m n c else isqrtBits m n r

/-- The largest number whose square is at most `m`. -/
def isqrt (m : Nat) : Nat :=
  isqrtBits m (Nat.log2 m / 2 + 1) 0

/-- The rounded square root of a positive finite number. -/
def sqrtFinite (f : Format) (m : Nat) (e : Int) : Nat :=
  let extra := 2 * f.fractionBits + 6
  let odd := (e % 2).toNat
  let n := m * pow2 (extra + odd)
  let r := isqrt n
  round f false (sticky r (r * r != n)) ((e - odd - extra) / 2 - 1)

def sqrt (f : Format) (x : Nat) : Nat :=
  match decode f x with
  | .nan s p => quietNan f s p
  | .infinite s => if s then f.defaultNan else f.infinity
  | .finite s m e =>
    if m = 0 then f.withSign s 0
    else if s then f.defaultNan
    else sqrtFinite f m e

/-- A pattern that keeps its value unless it is a NaN, which becomes quiet. -/
def quiet (f : Format) (x : Nat) : Nat :=
  match decode f x with
  | .nan s p => quietNan f s p
  | _ => x

/-- The outcome of a comparison. -/
inductive Comparison where
  | unordered
  | less
  | equal
  | greater
  deriving DecidableEq, Repr

def compareFinite (sx : Bool) (mx : Nat) (ex : Int) (sy : Bool) (my : Nat) (ey : Int) :
    Comparison :=
  let e := min ex ey
  let x := signedInt sx (mx * pow2 (ex - e).toNat)
  let y := signedInt sy (my * pow2 (ey - e).toNat)
  if x < y then .less else if x = y then .equal else .greater

def compare (f : Format) (x y : Nat) : Comparison :=
  match decode f x, decode f y with
  | .nan .., _ | _, .nan .. => .unordered
  | .infinite true, .infinite true | .infinite false, .infinite false => .equal
  | .infinite true, _ | _, .infinite false => .less
  | .infinite false, _ | _, .infinite true => .greater
  | .finite sx mx ex, .finite sy my ey => compareFinite sx mx ex sy my ey

/-- The pattern in another format. A NaN keeps its sign and its highest payload bits. -/
def convert (src dst : Format) (x : Nat) : Nat :=
  match decode src x with
  | .nan s p => quietNan dst s (p * pow2 dst.fractionBits / pow2 src.fractionBits)
  | .infinite s => dst.withSign s dst.infinity
  | .finite s m e => round dst s m e

/-- The pattern nearest to an integer. -/
def ofInt (f : Format) (n : Int) : Nat :=
  round f (n < 0) n.natAbs 0

/-- The quotient of a magnitude by `2 ^ k`, rounded to an integer in the given direction. -/
def roundQuotient (mode : RoundMode) (negative : Bool) (m k : Nat) : Nat :=
  let q := m / pow2 k
  let inexact := m % pow2 k != 0
  match mode with
  | .nearest => roundShift m k
  | .zero => q
  | .up => if inexact && !negative then q + 1 else q
  | .down => if inexact && negative then q + 1 else q

/-- The integer that a finite pattern rounds to. -/
def toInt? (f : Format) (mode : RoundMode) (x : Nat) : Option Int :=
  match decode f x with
  | .finite s m e =>
    if 0 ≤ e then some (signedInt s (m * pow2 e.toNat))
    else some (signedInt s (roundQuotient mode s m (-e).toNat))
  | _ => none

/-- The 32-bit integer that a pattern rounds to; what does not fit gives the smallest one. -/
def toWord (f : Format) (mode : RoundMode) (x : Nat) : UInt32 :=
  match toInt? f mode x with
  | some n => if -pow2 31 ≤ n ∧ n < pow2 31 then UInt32.ofInt n else 0x80000000
  | none => 0x80000000

/-- The 64-bit integer that a pattern rounds to; what does not fit gives the smallest one. -/
def toLong (f : Format) (mode : RoundMode) (x : Nat) : UInt64 :=
  match toInt? f mode x with
  | some n => if -pow2 63 ≤ n ∧ n < pow2 63 then UInt64.ofInt n else 0x8000000000000000
  | none => 0x8000000000000000

end Recompiler.Ieee
