import Recompiler.Bits

/-!
Partial knowledge of a 64-bit value: a mask of known bits and their values. Each operation
gives the bits of its result that the known bits of its operands decide.
-/

namespace Recompiler

/-- Bit `n` of a value is known to be bit `n` of `bits` if bit `n` of `mask` is set. -/
structure KnownBits where
  mask : UInt64
  bits : UInt64
  deriving DecidableEq, Inhabited, Repr

namespace KnownBits

def allOnes : UInt64 := 0xffffffffffffffff

def highHalf : UInt64 := 0xffffffff00000000

def unknown : KnownBits := ⟨0, 0⟩

/-- Every bit known. -/
def const (v : UInt64) : KnownBits := ⟨allOnes, v⟩

def isFull (x : KnownBits) : Bool := x.mask == allOnes

/-- The value, if every bit is known. -/
def value? (x : KnownBits) : Option UInt64 :=
  if x.isFull then some x.bits else none

/-- The sign extension of the low word. -/
def signExtend (x : KnownBits) : KnownBits :=
  let m := x.mask &&& 0xffffffff
  let b := x.bits &&& 0xffffffff
  if m &&& 0x80000000 != 0 then
    ⟨m ||| highHalf, if b &&& 0x80000000 != 0 then b ||| highHalf else b⟩
  else ⟨m, b⟩

/-- The zero extension of the low word. -/
def zeroExtend (x : KnownBits) : KnownBits :=
  ⟨x.mask ||| highHalf, x.bits &&& 0xffffffff⟩

/-- A known zero on either side decides the bit. -/
def and (x y : KnownBits) : KnownBits :=
  let m := (x.mask &&& y.mask) ||| (x.mask &&& ~~~x.bits) ||| (y.mask &&& ~~~y.bits)
  ⟨m, x.bits &&& y.bits &&& m⟩

/-- A known one on either side decides the bit. -/
def or (x y : KnownBits) : KnownBits :=
  let m := (x.mask &&& y.mask) ||| (x.mask &&& x.bits) ||| (y.mask &&& y.bits)
  ⟨m, (x.bits ||| y.bits) &&& m⟩

def xor (x y : KnownBits) : KnownBits :=
  let m := x.mask &&& y.mask
  ⟨m, (x.bits ^^^ y.bits) &&& m⟩

def not (x : KnownBits) : KnownBits :=
  ⟨x.mask, ~~~x.bits &&& x.mask⟩

/-- The run of ones at the low end of a mask. -/
def lowRun (m : UInt64) : UInt64 :=
  m &&& ~~~(m + 1)

/-- The low bits known on both sides; no carry reaches them from an unknown bit. -/
def add (x y : KnownBits) : KnownBits :=
  let m := lowRun (x.mask &&& y.mask)
  ⟨m, (x.bits + y.bits) &&& m⟩

def sub (x y : KnownBits) : KnownBits :=
  let m := lowRun (x.mask &&& y.mask)
  ⟨m, (x.bits - y.bits) &&& m⟩

/-- The bits of a double word above the low `64 - s`; the amount is below 64. -/
def highRun (s : UInt64) : UInt64 :=
  ~~~(allOnes >>> s)

def shiftLeft (x : KnownBits) (s : UInt64) : KnownBits :=
  ⟨(x.mask <<< s) ||| ((1 <<< s) - 1), x.bits <<< s⟩

def shiftRight (x : KnownBits) (s : UInt64) : KnownBits :=
  ⟨(x.mask >>> s) ||| highRun s, x.bits >>> s⟩

def shiftArith (x : KnownBits) (s : UInt64) : KnownBits :=
  let m := if signBit64 x.mask then (x.mask >>> s) ||| highRun s else x.mask >>> s
  ⟨m, sar64 x.bits s &&& m⟩

/-- Zero in every bit but the last. -/
def flag : KnownBits := ⟨~~~1, 0⟩

/-- The outcome of a comparison, decided if both sides are known in full. -/
def compare (lt : UInt64 → UInt64 → Bool) (x y : KnownBits) : KnownBits :=
  if x.isFull && y.isFull then const (ofBool64 (lt x.bits y.bits)) else flag

/-- The number of low bits whose sign extension is known to give the whole value, among the
low `n + 1` if the bits above them all equal the sign `s`. -/
def widthBelow (x : KnownBits) (s : UInt64) : Nat → Nat
  | 0 => 1
  | n + 1 =>
    let pos := UInt64.ofNat n
    if (x.mask >>> pos) &&& 1 == 1 && (x.bits >>> pos) &&& 1 == s then x.widthBelow s n
    else n + 2

/-- The number of low bits whose sign extension is known to give the whole value. -/
def width (x : KnownBits) : Nat :=
  if signBit64 x.mask then x.widthBelow (x.bits >>> 63) 63 else 64

end KnownBits

end Recompiler
