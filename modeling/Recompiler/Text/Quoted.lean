import Recompiler.Text.Number

/-!
Text between double quotes. Quotes, backslashes and characters that do not show are escaped.
-/

namespace Recompiler.Text

/-- The code points that do not show: controls, blanks other than the space, marks of direction,
and private use. -/
def hiddenRanges : List (Nat × Nat) :=
  [(0x00, 0x1f), (0x7f, 0xa0), (0xad, 0xad), (0x1680, 0x1680), (0x180e, 0x180e), (0x2000, 0x200f),
   (0x2028, 0x202f), (0x205f, 0x206f), (0x3000, 0x3000), (0xe000, 0xf8ff), (0xfeff, 0xfeff),
   (0xfff0, 0xfffb), (0xfffe, 0xffff), (0xe0000, 0xe00ff), (0xf0000, 0x10ffff)]

def isHidden (c : Char) : Bool :=
  hiddenRanges.any fun (lo, hi) => lo ≤ c.toNat && c.toNat ≤ hi

/-- A character that does not show, by its letter or its number. -/
def hiddenText (c : Char) : String :=
  match c.toNat with
  | 7 => "\\a"
  | 8 => "\\b"
  | 9 => "\\t"
  | 10 => "\\n"
  | 11 => "\\v"
  | 12 => "\\f"
  | 13 => "\\r"
  | n =>
    if n < 0x80 then "\\x" ++ hexPad 2 n
    else if n < 0x10000 then "\\u" ++ hexPad 4 n
    else "\\U" ++ hexPad 8 n

def quotedChar (c : Char) : String :=
  if c = '"' then "\\\""
  else if c = '\\' then "\\\\"
  else if isHidden c then hiddenText c
  else c.toString

def quoted (s : String) : String :=
  "\"" ++ String.join (s.toList.map quotedChar) ++ "\""

end Recompiler.Text
