import Recompiler.Bits
import Recompiler.Vector

/-!
Instruction words of the R4300i and their fields. Every 32-bit value is an instruction word.
-/

namespace Recompiler

/-- The number of a general register. -/
abbrev Reg := Fin 32

namespace Reg

instance : @NeZero Nat Zero.ofOfNat0 32 := ⟨Nat.succ_ne_zero 31⟩

/-- The register that always reads as zero. -/
def zero : Reg := 0

/-- The register that linking branches write. -/
def ra : Reg := 31

/-- The register named by the low five bits of a number. -/
def ofInt (n : Int) : Reg :=
  Fin.ofNat 32 (n % 32).toNat

end Reg

/-- An instruction word. -/
structure Instr where
  word : UInt32
  deriving DecidableEq, Inhabited, Repr

namespace Instr

/-- The canonical instruction without effect. -/
def nop : Instr := ⟨0⟩

/-- The five bits of the word that start at bit `pos`. -/
def regField (i : Instr) (pos : UInt32) : Reg :=
  ⟨((i.word >>> pos) &&& 31).toNat, by
    have h : ((i.word >>> pos) &&& 31).toNat ≤ 31 := by
      rw [UInt32.toNat_and]
      exact Nat.and_le_right
    omega⟩

def opcode (i : Instr) : UInt32 := i.word >>> 26

def rs (i : Instr) : Reg := i.regField 21

def rt (i : Instr) : Reg := i.regField 16

def rd (i : Instr) : Reg := i.regField 11

/-- The shift amount. -/
def sa (i : Instr) : UInt32 := (i.word >>> 6) &&& 31

/-- The function code of the register forms. -/
def funct (i : Instr) : UInt32 := i.word &&& 63

def imm (i : Instr) : UInt16 := i.word.toUInt16

/-- The immediate as a signed number. -/
def immInt (i : Instr) : Int := i.imm.toInt16.toInt

/-- The immediate, sign extended. -/
def simm (i : Instr) : UInt64 := i.imm.toInt16.toInt64.toUInt64

/-- The immediate, zero extended. -/
def uimm (i : Instr) : UInt64 := i.imm.toUInt64

/-- The 26-bit target field of the absolute jumps. -/
def target (i : Instr) : UInt32 := i.word &&& 0x03ffffff

/-- The code of the coprocessor forms, which is the operand format in arithmetic. -/
def fmt (i : Instr) : UInt32 := (i.word >>> 21) &&& 31

def ft (i : Instr) : Reg := i.rt

def fs (i : Instr) : Reg := i.rd

def fd (i : Instr) : Reg := i.regField 6

/-- The condition of a floating-point comparison. -/
def cond (i : Instr) : UInt32 := i.word &&& 15

/-- Where a relative branch at `pc` goes. -/
def branchTarget (i : Instr) (pc : UInt32) : UInt32 :=
  let off : UInt32 := i.simm.toUInt32 <<< 2
  pc + 4 + off

/-- Where an absolute jump at `pc` goes. -/
def jumpTarget (i : Instr) (pc : UInt32) : UInt32 :=
  let low : UInt32 := i.target <<< 2
  ((pc + 4) &&& 0xf0000000) ||| low

def isNop (i : Instr) : Bool := i == nop

end Instr

end Recompiler
