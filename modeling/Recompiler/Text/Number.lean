/-!
Numbers as text: hexadecimal with and without padding, signed decimals, columns.
-/

namespace Recompiler.Text

/-- Lower-case hexadecimal digits, at least one. -/
def hex (n : Nat) : String :=
  String.ofList (Nat.toDigits 16 n)

/-- `s` filled with `c` on the left up to `width` characters. -/
def padLeft (c : Char) (width : Nat) (s : String) : String :=
  String.ofList (List.replicate (width - s.length) c) ++ s

/-- `s` filled with `c` on the right up to `width` characters. -/
def padRight (c : Char) (width : Nat) (s : String) : String :=
  s ++ String.ofList (List.replicate (width - s.length) c)

/-- Hexadecimal digits, zero padded to at least `width`. -/
def hexPad (width : Nat) (n : Nat) : String :=
  padLeft '0' width (hex n)

/-- A word as eight hexadecimal digits. -/
def hex8 (w : UInt32) : String :=
  hexPad 8 w.toNat

/-- An address: `0x` and eight hexadecimal digits. -/
def address (w : UInt32) : String :=
  "0x" ++ hex8 w

def decimal (n : Nat) : String :=
  String.ofList (Nat.toDigits 10 n)

/-- A decimal, with a sign if it is negative. -/
def signed (n : Int) : String :=
  if n < 0 then "-" ++ decimal n.natAbs else decimal n.natAbs

/-- A decimal that always has a sign. -/
def signedPlus (n : Int) : String :=
  if n < 0 then "-" ++ decimal n.natAbs else "+" ++ decimal n.natAbs

/-- Bytes as two hexadecimal digits each. -/
def hexBytes (bs : List UInt8) : String :=
  String.join (bs.map fun b => hexPad 2 b.toNat)

end Recompiler.Text
