import Recompiler.Instr.Basic
import Recompiler.Text.Number

/-!
Images of guest memory: big-endian words that stand from a base address on.
-/

namespace Recompiler

structure Image where
  base : UInt32
  words : List Instr
  deriving DecidableEq, Inhabited, Repr

inductive ImageError where
  | unaligned (base : UInt32)
  | outside (pc : UInt32)
  deriving DecidableEq, Repr

namespace ImageError

def message : ImageError → String
  | .unaligned base => "unaligned load address " ++ Text.address base
  | .outside pc => "address " ++ Text.address pc ++ " is outside the image"

end ImageError

namespace Image

/-- Big-endian words. Bytes that make no whole word are left over. -/
def wordsOf : List UInt8 → List Instr
  | a :: b :: c :: d :: rest =>
    ⟨(a.toUInt32 <<< 24) ||| (b.toUInt32 <<< 16) ||| (c.toUInt32 <<< 8) ||| d.toUInt32⟩
      :: wordsOf rest
  | _ => []

def ofBytes (bytes : List UInt8) (base : UInt32) : Except ImageError Image :=
  if base &&& 3 ≠ 0 then .error (.unaligned base) else .ok ⟨base, wordsOf bytes⟩

/-- The words from `pc` to the end of its page or of the image. -/
def window (i : Image) (pc : UInt32) : Except ImageError (List Instr) :=
  if pc &&& 3 ≠ 0 ∨ pc < i.base then .error (.outside pc)
  else
    match i.words.drop ((pc - i.base).toNat / 4) with
    | [] => .error (.outside pc)
    | words => .ok (words.take ((0x1000 - pc.toNat % 0x1000) / 4))

end Image

end Recompiler
