import Recompiler.Instr.Kind

/-!
Classes of instructions: branches, memory accesses, the registers they read and write, and
which of them have no effect besides a register.
-/

namespace Recompiler

namespace Kind

def isBranch : Kind → Bool
  | .j | .jal | .jr | .jalr | .branchEq .. | .branchZero .. | .branchSign .. | .branchFp => true
  | _ => false

/-- Unconditional jumps. -/
def isJump : Kind → Bool
  | .j | .jal | .jr | .jalr => true
  | _ => false

def isLoad : Kind → Bool
  | .load _ | .loadPart .. | .loadLinked _ | .loadFp _ => true
  | _ => false

def isStore : Kind → Bool
  | .store _ | .storePart .. | .storeConditional _ | .storeFp _ => true
  | _ => false

/-- Encodings that the processor does not define. -/
def isReserved : Kind → Bool
  | .reserved | .systemAlias _ => true
  | _ => false

/-- Arithmetic that traps on overflow. -/
def isTrapping : Kind → Bool
  | .alu .add | .alu .sub | .alu .dadd | .alu .dsub | .imm .addi | .imm .daddi => true
  | _ => false

/-- Instructions whose only effect is the register they write. -/
def isPure : Kind → Bool
  | .alu .add | .alu .sub | .alu .dadd | .alu .dsub | .imm .addi | .imm .daddi => false
  | .shift .. | .alu _ | .imm _ | .mfhi | .mflo | .mfc0 _ | .mfc1 _ | .cfc1 => true
  | _ => false

/-- Which fields of the word an instruction only reads. -/
structure Sources where
  rs : Bool
  rt : Bool
  deriving DecidableEq, Repr

/-- The fields that name registers an instruction reads and does not write as well. -/
def sources : Kind → Sources
  | .shift _ .field _ | .shift _ .fieldPlus32 _ => ⟨false, true⟩
  | .shift _ .register _ => ⟨true, true⟩
  | .jr | .jalr | .mthi | .mtlo => ⟨true, false⟩
  | .alu _ | .mulDiv _ | .trap _ | .branchEq .. => ⟨true, true⟩
  | .branchSign .. | .trapImm _ | .branchZero .. => ⟨true, false⟩
  | .imm .lui => ⟨false, false⟩
  | .imm _ | .cache | .loadFp _ | .storeFp _ => ⟨true, false⟩
  | .store _ | .storePart .. => ⟨true, true⟩
  | .load _ | .loadPart .. | .loadLinked _ | .storeConditional _ => ⟨true, false⟩
  | .mtc0 _ | .mtc1 _ | .ctc1 => ⟨false, true⟩
  | _ => ⟨false, false⟩

end Kind

namespace Instr

/-- Instructions with a delay slot. -/
def isBranch (i : Instr) : Bool := i.kind.isBranch

/-- Branches that skip their delay slot when they are not taken. -/
def isLikely (i : Instr) : Bool :=
  match i.kind with
  | .branchEq _ likely | .branchZero _ likely | .branchSign _ _ likely => likely
  | .branchFp => i.word &&& 0x00020000 != 0
  | _ => false

def isJump (i : Instr) : Bool := i.kind.isJump

def isLoad (i : Instr) : Bool := i.kind.isLoad

def isStore (i : Instr) : Bool := i.kind.isStore

def isReserved (i : Instr) : Bool := i.kind.isReserved

def isPure (i : Instr) : Bool := i.kind.isPure

def isTrapping (i : Instr) : Bool := i.kind.isTrapping

/-- The register that receives the return address. -/
def link? (i : Instr) : Option Reg :=
  match i.kind with
  | .jal | .branchSign _ true _ => some .ra
  | .jalr => some i.rd
  | _ => none

/-- The general register that the instruction writes, return addresses apart. -/
def dest? (i : Instr) : Option Reg :=
  match i.kind with
  | .shift .. | .alu _ | .mfhi | .mflo => some i.rd
  | .imm _ | .load _ | .loadPart .. | .loadLinked _ | .storeConditional _ => some i.rt
  | .mfc0 _ | .mfc1 _ | .cfc1 => some i.rt
  | _ => none

end Instr

end Recompiler
