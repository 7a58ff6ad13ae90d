import Recompiler.Text.Number

/-!
How programs are run, and the listing of native code.
-/

namespace Recompiler.Ir

open Text

inductive Backend where
  | auto
  | native
  | emulator
  deriving DecidableEq, Inhabited, Repr

namespace Backend

def name : Backend → String
  | .auto => "auto"
  | .native => "native"
  | .emulator => "emulator"

def ofName? : String → Option Backend
  | "auto" => some .auto
  | "native" => some .native
  | "emulator" => some .emulator
  | _ => none

/-- The backend with a number. -/
def ofNumber? : Int → Option Backend
  | 0 => some .auto
  | 1 => some .native
  | 2 => some .emulator
  | _ => none

/-- The name of the backend with a number. -/
def nameOfNumber (n : Int) : String :=
  match ofNumber? n with
  | some b => b.name
  | none => "unknown"

/-- The backend that is used: native code unless the emulator is asked for. -/
def resolve : Backend → Backend
  | .emulator => .emulator
  | _ => .native

end Backend

/-- The text of a byte of native code that is an instruction by itself, or of one that is no
instruction. -/
def byteText (b : UInt8) : String :=
  match b with
  | 0xc3 => "retq"
  | 0x90 => "nop"
  | b => ".byte 0x" ++ hexPad 2 b.toNat

/-- The lines of a listing of single-byte code at `base`. -/
def listing (base : UInt64) : List UInt8 → List String
  | [] => []
  | b :: bs => ("0x" ++ hex base.toNat ++ "  " ++ byteText b) :: listing (base + 1) bs

end Recompiler.Ir
