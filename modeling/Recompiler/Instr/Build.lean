import Recompiler.Instr.Basic

/-!
Instruction words from their fields. Opcodes and function codes are cut to six bits.
-/

namespace Recompiler.Instr

/-- A register number, moved to bit `pos`. -/
def placeReg (r : Reg) (pos : UInt32) : UInt32 :=
  UInt32.ofNat r.val <<< pos

/-- A word of the register form with opcode zero. -/
def ofFunct (funct : UInt32) (rs rt rd : Reg) (sa : UInt32) : Instr :=
  ⟨placeReg rs 21 ||| placeReg rt 16 ||| placeReg rd 11 ||| ((sa &&& 31) <<< 6) ||| (funct &&& 63)⟩

/-- A word of the immediate form. -/
def ofOpcode (op : UInt32) (rs rt : Reg) (imm : UInt16) : Instr :=
  ⟨((op &&& 63) <<< 26) ||| placeReg rs 21 ||| placeReg rt 16 ||| imm.toUInt32⟩

/-- A word of the absolute jump form. -/
def ofTarget (op target : UInt32) : Instr :=
  ⟨((op &&& 63) <<< 26) ||| (target &&& 0x03ffffff)⟩

/-- The operation `funct` on `rs` and `rt`, written to `rd`. -/
def alu (funct : UInt32) (rd rs rt : Reg) : Instr :=
  ofFunct funct rs rt rd 0

/-- The shift `funct` of `rt` by a constant, written to `rd`. -/
def shift (funct : UInt32) (rd rt : Reg) (sa : UInt32) : Instr :=
  ofFunct funct 0 rt rd sa

/-- The operation `op` on `rs` and an immediate with the result in `rt`, or an access at an
offset from `rs`. -/
def immediate (op : UInt32) (rt rs : Reg) (imm : UInt16) : Instr :=
  ofOpcode op rs rt imm

/-- A branch that compares `rs` with `rt`. -/
def branch (op : UInt32) (rs rt : Reg) (off : UInt16) : Instr :=
  ofOpcode op rs rt off

/-- A branch or trap of the opcode-one group. -/
def regimm (code : Reg) (rs : Reg) (off : UInt16) : Instr :=
  ofOpcode 0x01 rs code off

/-- A jump to the byte address `target`. -/
def jump (op target : UInt32) : Instr :=
  ofTarget op (target >>> 2)

def jr (rs : Reg) : Instr :=
  ofFunct 0x08 rs 0 0 0

def jalr (rd rs : Reg) : Instr :=
  ofFunct 0x09 rs 0 rd 0

/-- The canonical copy of `rs` into `rd`: an `or` with register zero. -/
def move (rd rs : Reg) : Instr :=
  alu 0x25 rd rs 0

/-- The sum of `rs` and register zero: the low word of `rs`, sign extended. -/
def extendWord (rd rs : Reg) : Instr :=
  alu 0x21 rd rs 0

/-- A shift of `rt` to the left by nothing: its low word, sign extended. -/
def extendShift (rd rt : Reg) : Instr :=
  shift 0x00 rd rt 0

def addiu (rt rs : Reg) (imm : UInt16) : Instr :=
  immediate 0x09 rt rs imm

def ori (rt rs : Reg) (imm : UInt16) : Instr :=
  immediate 0x0d rt rs imm

def lui (rt : Reg) (imm : UInt16) : Instr :=
  immediate 0x0f rt 0 imm

/-- The canonical unconditional branch: register zero equals itself. -/
def always (off : UInt16) : Instr :=
  branch 0x04 0 0 off

/-- A move between `rt` and the coprocessor 0 register `rd`. -/
def cop0Move (code : Reg) (rt rd : Reg) : Instr :=
  ⟨(ofFunct 0 code rt rd 0).word ||| 0x40000000⟩

def mtc0 (rt rd : Reg) : Instr :=
  cop0Move 0x04 rt rd

def mfc0 (rt rd : Reg) : Instr :=
  cop0Move 0x00 rt rd

/-- Floating-point arithmetic in the given format. -/
def fpArith (fmt funct : UInt32) (fd fs ft : Reg) : Instr :=
  ⟨(0x44000000 : UInt32) ||| ((fmt &&& 31) <<< 21) ||| placeReg ft 16 ||| placeReg fs 11
    ||| placeReg fd 6
    ||| (funct &&& 63)⟩

/-- A move between `rt` and the floating-point register `fs`. -/
def fpMove (code : Reg) (rt fs : Reg) : Instr :=
  ⟨(0x44000000 : UInt32) ||| placeReg code 21 ||| placeReg rt 16 ||| placeReg fs 11⟩

/-- A branch on the floating-point condition. -/
def branchFp (cond : Reg) (off : UInt16) : Instr :=
  ofOpcode 0x11 0x08 cond off

def syscall : Instr :=
  ofFunct 0x0c 0 0 0 0

def breakpoint : Instr :=
  ofFunct 0x0d 0 0 0 0

def eret : Instr :=
  ⟨0x42000018⟩

end Recompiler.Instr
