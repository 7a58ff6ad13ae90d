import Recompiler.Bits

/-!
RAM as the host sees it: words in an array, whose bytes have the lowest address at the low end
of their word.
-/

namespace Recompiler.Ir.HostRam

/-- How far the byte at an address stands from the low end of its word, in bits. -/
def byteShift (a : Nat) : UInt32 := UInt32.ofNat (a % 4 * 8)

def byte (ram : Array UInt32) (a : Nat) : UInt32 :=
  (ram.getD (a / 4) 0 >>> byteShift a) &&& 0xff

def setByte (ram : Array UInt32) (a : Nat) (v : UInt32) : Array UInt32 :=
  let w := ram.getD (a / 4) 0
  ram.setIfInBounds (a / 4)
    ((w &&& ~~~((0xff : UInt32) <<< byteShift a)) ||| ((v &&& 0xff) <<< byteShift a))

/-- A half word, which may lie across two words. -/
def half (ram : Array UInt32) (a : Nat) : UInt32 :=
  byte ram a ||| (byte ram (a + 1) <<< 8)

def setHalf (ram : Array UInt32) (a : Nat) (v : UInt32) : Array UInt32 :=
  setByte (setByte ram a v) (a + 1) (v >>> 8)

/-- A word, which may lie across two words. -/
def word (ram : Array UInt32) (a : Nat) : UInt32 :=
  if a % 4 = 0 then ram.getD (a / 4) 0
  else half ram a ||| (half ram (a + 2) <<< 16)

def setWord (ram : Array UInt32) (a : Nat) (v : UInt32) : Array UInt32 :=
  if a % 4 = 0 then ram.setIfInBounds (a / 4) v
  else setHalf (setHalf ram a v) (a + 2) (v >>> 16)

/-- Words from bytes, lowest address first. -/
def ofBytes (size : Nat) (bytes : List UInt8) : Array UInt32 :=
  (bytes.zipIdx.foldl (fun ram (b, a) => setByte ram a b.toUInt32)) (Array.replicate (size / 4) 0)

def toBytes (ram : Array UInt32) : List UInt8 :=
  (List.range (ram.size * 4)).map fun a => (byte ram a).toUInt8

end Recompiler.Ir.HostRam
