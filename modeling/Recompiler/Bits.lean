/-!
Machine words: sign extension, signed readings, and the weights of bits.
-/

namespace Recompiler

/-- The low 32 bits of `v`, sign extended to 64 bits. -/
def sext32 (v : UInt64) : UInt64 :=
  v.toUInt32.toInt32.toInt64.toUInt64

/-- The low 16 bits of `v`, sign extended to 64 bits. -/
def sext16 (v : UInt64) : UInt64 :=
  v.toUInt16.toInt16.toInt64.toUInt64

/-- The low 8 bits of `v`, sign extended to 64 bits. -/
def sext8 (v : UInt64) : UInt64 :=
  v.toUInt8.toInt8.toInt64.toUInt64

/-- A word, sign extended to 64 bits. -/
def sextWord (v : UInt32) : UInt64 :=
  v.toInt32.toInt64.toUInt64

/-- The shift to the right of `v` that copies its sign bit; the amount is below 64. -/
def sar64 (v : UInt64) (sa : UInt64) : UInt64 :=
  (v.toInt64 >>> sa.toInt64).toUInt64

/-- The shift to the right of `v` that copies its sign bit; the amount is below 32. -/
def sar32 (v : UInt32) (sa : UInt32) : UInt32 :=
  (v.toInt32 >>> sa.toInt32).toUInt32

def signBit64 (v : UInt64) : Bool :=
  v >>> 63 != 0

def signBit32 (v : UInt32) : Bool :=
  v >>> 31 != 0

/-- Signed comparison of 64-bit words. -/
def slt64 (x y : UInt64) : Bool :=
  x.toInt64 < y.toInt64

/-- Signed comparison of 32-bit words. -/
def slt32 (x y : UInt32) : Bool :=
  x.toInt32 < y.toInt32

def ofBool64 (b : Bool) : UInt64 :=
  if b then 1 else 0

def ofBool32 (b : Bool) : UInt32 :=
  if b then 1 else 0

def lowWord (v : UInt64) : UInt32 :=
  v.toUInt32

def highWord (v : UInt64) : UInt32 :=
  (v >>> 32).toUInt32

/-- The double word with the given high and low words. -/
def joinWords (hi lo : UInt32) : UInt64 :=
  hi.toUInt64 <<< 32 ||| lo.toUInt64

/-- Does the sum of the low words, read as signed numbers, leave the range of a word? -/
def addOverflows32 (x y : UInt64) : Bool :=
  let r := sext32 x + sext32 y
  r != sext32 r

/-- Does the difference of the low words, read as signed numbers, leave the range of a word? -/
def subOverflows32 (x y : UInt64) : Bool :=
  let r := sext32 x - sext32 y
  r != sext32 r

/-- Does the signed sum leave the range of a double word? -/
def addOverflows64 (x y : UInt64) : Bool :=
  !signBit64 (x ^^^ y) && signBit64 (x ^^^ (x + y))

/-- Does the signed difference leave the range of a double word? -/
def subOverflows64 (x y : UInt64) : Bool :=
  signBit64 (x ^^^ y) && signBit64 (x ^^^ (x - y))

/-- Two to the power `k`. -/
def pow2 (k : Nat) : Nat := Nat.pow 2 k

end Recompiler
