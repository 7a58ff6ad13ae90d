import Recompiler.Bits

/-!
The instructions of compiled traces: a small machine with nine allocatable
32-bit registers, eight floating-point registers, a context of words and a byte-addressed RAM.
-/

namespace Recompiler.Ir

/-- A register by number. The first nine are allocatable. -/
structure HostReg where
  num : Nat
  deriving DecidableEq, Inhabited, Repr

namespace HostReg

/-- The register that reads as zero and ignores writes. -/
def rz : HostReg := ⟨15⟩

/-- How many registers are allocatable. -/
def count : Nat := 9

def ofSlot (i : Fin 9) : HostReg := ⟨i.val⟩

end HostReg

/-- A floating-point register by number. The first eight exist. -/
structure FpReg where
  num : Nat
  deriving DecidableEq, Inhabited, Repr

namespace FpReg

def count : Nat := 8

def ofSlot (i : Fin 8) : FpReg := ⟨i.val⟩

end FpReg

/-- The operand size of floating-point instructions. -/
inductive FpSize where
  | single
  | double
  deriving DecidableEq, Inhabited, Repr

/-- Operations on two registers. -/
inductive BinOp where
  | add
  | sub
  | and
  | or
  | xor
  | nor
  | slt
  | sltu
  | sll
  | srl
  | sra
  deriving DecidableEq, Inhabited, Repr

/-- Operations on a register and a constant. -/
inductive ConstOp where
  | add
  | and
  | or
  | xor
  | slt
  | sltu
  | sll
  | srl
  | sra
  deriving DecidableEq, Inhabited, Repr

/-- Conditions of branches. -/
inductive Cond where
  | eq
  | ne
  | lt
  | ge
  | ltu
  | geu
  deriving DecidableEq, Inhabited, Repr

inductive RamLoad where
  | lb
  | lbu
  | lh
  | lhu
  | lw
  deriving DecidableEq, Inhabited, Repr

inductive RamStore where
  | sb
  | sh
  | sw
  deriving DecidableEq, Inhabited, Repr

inductive FpBinOp where
  | add
  | sub
  | mul
  | div
  deriving DecidableEq, Inhabited, Repr

inductive FpUnOp where
  | sqrt
  | mov
  | abs
  | neg
  deriving DecidableEq, Inhabited, Repr

/-- An instruction whose jumps go to places of type `L`. Operands come before results. -/
inductive Instr (L : Type) where
  /-- Loads a constant. -/
  | li (v : UInt32) (x : HostReg)
  | mov (x y : HostReg)
  /-- Reads the context word at `off`. -/
  | ldc (off : Int) (x : HostReg)
  /-- Writes the context word at `off`. -/
  | stc (x : HostReg) (off : Int)
  /-- Writes a constant to the context. -/
  | stci (v : UInt32) (off : Int)
  /-- Writes 32 copies of the sign of `x` to the context. -/
  | stcx (x : HostReg) (off : Int)
  /-- Reads byte `x` of the table that the context points to at `off`. -/
  | ltab (off : Int) (x y : HostReg)
  | bin (op : BinOp) (x y z : HostReg)
  | const (op : ConstOp) (x : HostReg) (v : UInt32) (y : HostReg)
  /-- The product of two words, low word to `lo`, then high word to `hi`. -/
  | mul (signed : Bool) (x y lo hi : HostReg)
  | load (op : RamLoad) (x : HostReg) (off : Int) (y : HostReg)
  | store (op : RamStore) (y x : HostReg) (off : Int)
  | branch (cond : Cond) (x y : HostReg) (target : L)
  | branchConst (cond : Cond) (x : HostReg) (v : UInt32) (target : L)
  /-- Branches if the signed sum or difference overflows. -/
  | branchOverflow (sub : Bool) (x y : HostReg) (target : L)
  | jump (target : L)
  /-- Leaves the program for a service, to be resumed at `target` with the allocatable registers
  lost. -/
  | callout (id : Int) (target : L)
  /-- Continues with the program in a link cell, if there is one. -/
  | link (cell : Int)
  | exit (status : Int)
  | fld (size : FpSize) (off : Int) (x : FpReg)
  | fst (size : FpSize) (x : FpReg) (off : Int)
  | fbin (op : FpBinOp) (size : FpSize) (x y z : FpReg)
  | funary (op : FpUnOp) (size : FpSize) (x y : FpReg)
  /-- Compares; bit 0 of `cond` asks for unordered, bit 1 for equal, bit 2 for less. -/
  | fcmp (size : FpSize) (x y : FpReg) (cond : Nat) (z : HostReg)
  deriving DecidableEq, Inhabited, Repr

namespace Instr

/-- Where an instruction may jump to. -/
def target? {L : Type} : Instr L → Option L
  | .branch _ _ _ target | .branchConst _ _ _ target | .branchOverflow _ _ _ target => some target
  | .jump target | .callout _ target => some target
  | _ => none

/-- The instruction with its jump target replaced. -/
def mapTarget {L M : Type} (f : L → M) : Instr L → Instr M
  | .li v x => .li v x
  | .mov x y => .mov x y
  | .ldc off x => .ldc off x
  | .stc x off => .stc x off
  | .stci v off => .stci v off
  | .stcx x off => .stcx x off
  | .ltab off x y => .ltab off x y
  | .bin op x y z => .bin op x y z
  | .const op x v y => .const op x v y
  | .mul signed x y lo hi => .mul signed x y lo hi
  | .load op x off y => .load op x off y
  | .store op y x off => .store op y x off
  | .branch cond x y target => .branch cond x y (f target)
  | .branchConst cond x v target => .branchConst cond x v (f target)
  | .branchOverflow sub x y target => .branchOverflow sub x y (f target)
  | .jump target => .jump (f target)
  | .callout id target => .callout id (f target)
  | .link cell => .link cell
  | .exit status => .exit status
  | .fld size off x => .fld size off x
  | .fst size x off => .fst size x off
  | .fbin op size x y z => .fbin op size x y z
  | .funary op size x y => .funary op size x y
  | .fcmp size x y cond z => .fcmp size x y cond z

/-- The most bytes that native code for the instruction takes. -/
def maxBytes {L : Type} : Instr L → Nat
  | .li .. => 6
  | .mov .. => 6
  | .ldc .. => 7
  | .stc .. => 11
  | .stci .. => 11
  | .stcx .. => 16
  | .ltab .. => 20
  | .bin op _ _ _ =>
    match op with
    | .add | .sub | .and | .or | .xor => 12
    | .nor => 14
    | .slt | .sltu => 20
    | .sll | .srl | .sra => 16
  | .const op _ _ _ =>
    match op with
    | .add | .and | .or | .xor => 16
    | .slt | .sltu => 20
    | .sll | .srl | .sra => 10
  | .mul true _ _ _ _ => 32
  | .mul false _ _ _ _ => 24
  | .load .. => 12
  | .store .. => 12
  | .branch .. => 12
  | .branchConst .. => 16
  | .branchOverflow .. => 18
  | .jump _ => 5
  | .callout .. => 32
  | .link _ => 28
  | .exit _ => 6
  | .fld .. => 10
  | .fst .. => 10
  | .fbin .. => 16
  | .funary op _ _ _ =>
    match op with
    | .sqrt | .mov => 8
    | .abs | .neg => 28
  | .fcmp .. => 80

end Instr

end Recompiler.Ir
