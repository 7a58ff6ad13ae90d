import Recompiler.Trace.Boundary

/-!
The decoding tables. One set of tables says which codes are defined at all, and is what traces are
cut by. The other one maps codes to handlers, which the interpreter runs; several codes may share
a handler, which then looks at the word again.
-/

namespace Recompiler

namespace Tables

/-- The opcodes that are defined. -/
def definedMajor : List UInt32 :=
  [0x00, 0x01, 0x02, 0x03, 0x04, 0x05, 0x06, 0x07, 0x08, 0x09, 0x0a, 0x0b, 0x0c, 0x0d, 0x0e, 0x0f,
    0x10, 0x11, 0x14, 0x15, 0x16, 0x17, 0x18, 0x19, 0x1a, 0x1b,
    0x20, 0x21, 0x22, 0x23, 0x24, 0x25, 0x26, 0x27, 0x28, 0x29, 0x2a, 0x2b, 0x2c, 0x2d, 0x2e, 0x2f,
    0x30, 0x31, 0x34, 0x35, 0x37, 0x38, 0x39, 0x3c, 0x3d, 0x3f]

/-- The function codes of opcode zero that are defined. -/
def definedSpecial : List UInt32 :=
  [0x00, 0x02, 0x03, 0x04, 0x06, 0x07, 0x08, 0x09, 0x0c, 0x0d, 0x0f,
    0x10, 0x11, 0x12, 0x13, 0x14, 0x16, 0x17, 0x18, 0x19, 0x1a, 0x1b, 0x1c, 0x1d, 0x1e, 0x1f,
    0x20, 0x21, 0x22, 0x23, 0x24, 0x25, 0x26, 0x27, 0x2a, 0x2b, 0x2c, 0x2d, 0x2e, 0x2f,
    0x30, 0x31, 0x32, 0x33, 0x34, 0x36, 0x38, 0x3a, 0x3b, 0x3c, 0x3e, 0x3f]

/-- The codes of opcode one that are defined. -/
def definedRegimm : List Reg :=
  [0x00, 0x01, 0x02, 0x03, 0x08, 0x09, 0x0a, 0x0b, 0x0c, 0x0e, 0x10, 0x11, 0x12, 0x13]

/-- The codes of the moves to and from coprocessor 0. -/
def movesCop0 : List UInt32 := [0x00, 0x01, 0x04, 0x05]

/-- The functions of coprocessor 0. -/
def functionsCop0 : List UInt32 := [0x01, 0x02, 0x06, 0x08, 0x18]

/-- The codes of coprocessor 1 that are defined. -/
def definedCop1 : List UInt32 :=
  [0x00, 0x01, 0x02, 0x04, 0x05, 0x06, 0x08, 0x10, 0x11, 0x14, 0x15]

/-- Is the word an encoding that the processor does not define? -/
def isReserved (i : Instr) : Bool :=
  match i.opcode with
  | 0x00 => !definedSpecial.contains i.funct
  | 0x01 => !definedRegimm.contains i.rt
  | 0x10 =>
    !(movesCop0.contains i.fmt || i.fmt = 0x10 && functionsCop0.contains i.funct)
  | 0x11 => !definedCop1.contains i.fmt
  | op => !definedMajor.contains op

/-- The opcodes of branches. -/
def branches : List UInt32 :=
  [0x02, 0x03, 0x04, 0x05, 0x06, 0x07, 0x14, 0x15, 0x16, 0x17]

/-- The codes of opcode one that branch. -/
def branchesRegimm : List Reg := [0x00, 0x01, 0x02, 0x03, 0x10, 0x11, 0x12, 0x13]

/-- Does the instruction have a delay slot? -/
def isBranch (i : Instr) : Bool :=
  match i.opcode with
  | 0x00 => i.funct = 0x08 || i.funct = 0x09
  | 0x01 => branchesRegimm.contains i.rt
  | 0x11 => i.fmt = 0x08
  | op => branches.contains op

/-- The codes of opcode one whose branches skip their delay slot when they are not taken. -/
def likelyRegimm : List Reg := [0x02, 0x03, 0x12, 0x13]

/-- The opcodes whose branches do so. -/
def likely : List UInt32 := [0x14, 0x15, 0x16, 0x17]

/-- Does the branch skip its delay slot when it is not taken? -/
def isLikely (i : Instr) : Bool :=
  match i.opcode with
  | 0x01 => likelyRegimm.contains i.rt
  | 0x11 => i.fmt = 0x08 && i.rt.val &&& 2 != 0
  | op => likely.contains op

/-- The function codes of opcode zero that end a trace at once. -/
def endsSpecial : List UInt32 := [0x0c, 0x0d, 0x30, 0x31, 0x32, 0x33, 0x34, 0x36]

/-- Whether a trace may go on after the instruction. -/
def boundary (i : Instr) : Boundary :=
  if isReserved i then .endNow
  else if isBranch i then .endDelay
  else
    match i.opcode with
    | 0x00 => if endsSpecial.contains i.funct then .endNow else .continue
    | 0x01 | 0x2f => .endNow
    | 0x10 =>
      match i.fmt with
      | 0x04 | 0x05 => if isVolatileCop0 i.rd then .endNow else .continue
      | 0x10 => if [0x18, 0x02, 0x06].contains i.funct then .endNow else .continue
      | _ => .continue
    | 0x11 => if i.fmt = 0x06 then .endNow else .continue
    | _ => .continue

namespace Handler

/-- Shifts of words. From the fourth code on the amount is in a register. -/
def shift (funct : UInt32) : Kind :=
  let amount : ShiftAmount := if 0x04 ≤ funct then .register else .field
  match funct &&& ~~~0x04 with
  | 0x00 => .shift .left amount .word
  | 0x02 => .shift .right amount .word
  | _ => .shift .arith amount .word

/-- Shifts of doublewords, whose codes are brought into one range. -/
def shift64 (funct : UInt32) : Kind :=
  let (fn, amount) : UInt32 × ShiftAmount :=
    if 0x3c ≤ funct then (funct - 0x04, .fieldPlus32)
    else if funct < 0x38 then (funct + 0x24, .register)
    else (funct, .field)
  match fn with
  | 0x38 => .shift .left amount .double
  | 0x3a => .shift .right amount .double
  | _ => .shift .arith amount .double

def jumpRegister (funct : UInt32) : Kind := if funct = 0x09 then .jalr else .jr

def moveHiLo : UInt32 → Kind
  | 0x10 => .mfhi
  | 0x12 => .mflo
  | 0x11 => .mthi
  | _ => .mtlo

def mulDiv : UInt32 → Kind
  | 0x18 => .mulDiv .mult
  | 0x19 => .mulDiv .multu
  | 0x1a => .mulDiv .div
  | 0x1b => .mulDiv .divu
  | 0x1c => .mulDiv .dmult
  | 0x1d => .mulDiv .dmultu
  | 0x1e => .mulDiv .ddiv
  | _ => .mulDiv .ddivu

def arith : UInt32 → Kind
  | 0x20 => .alu .add
  | 0x21 => .alu .addu
  | 0x22 => .alu .sub
  | 0x23 => .alu .subu
  | 0x2c => .alu .dadd
  | 0x2d => .alu .daddu
  | 0x2e => .alu .dsub
  | _ => .alu .dsubu

def logic : UInt32 → Kind
  | 0x24 => .alu .and
  | 0x25 => .alu .or
  | 0x26 => .alu .xor
  | 0x27 => .alu .nor
  | 0x2a => .alu .slt
  | _ => .alu .sltu

def trapCond : UInt32 → TrapCond
  | 0x30 => .ge
  | 0x31 => .geu
  | 0x32 => .lt
  | 0x33 => .ltu
  | 0x34 => .eq
  | _ => .ne

def trap (funct : UInt32) : Kind := .trap (trapCond funct)

/-- The conditions of the immediate forms are those of the register forms. -/
def trapImm (code : Reg) : Kind := .trapImm (trapCond (.ofNat code.val - 0x08 + 0x30))

/-- Bit 0 of the code selects the condition and bit 4 the link. -/
def branchSign (code : Reg) : Kind :=
  let cond : SignCond := if code.val &&& 1 != 0 then .gez else .ltz
  .branchSign cond (code.val &&& 0x10 != 0) (likelyRegimm.contains code)

def branchEq (cond : EqCond) (i : Instr) : Kind := .branchEq cond (isLikely i)

def branchZero (cond : ZeroCond) (i : Instr) : Kind := .branchZero cond (isLikely i)

def loadOps : List (UInt32 × LoadOp) :=
  [(0x20, .lb), (0x24, .lbu), (0x21, .lh), (0x25, .lhu), (0x23, .lw), (0x27, .lwu), (0x37, .ld)]

def load (i : Instr) : Kind := .load ((loadOps.lookup i.opcode).getD default)

def storeSizes : List (UInt32 × Size) :=
  [(0x28, .byte), (0x29, .half), (0x2b, .word), (0x3f, .double)]

def store (i : Instr) : Kind := .store ((storeSizes.lookup i.opcode).getD default)

def cop0 (i : Instr) : Kind := .ofCop0 i.fmt i.funct

def cop1 (i : Instr) : Kind := .ofCop1 i.fmt i.funct

end Handler

open Handler

/-- The handlers of opcode zero, by function code. -/
def special : List (UInt32 × (UInt32 → Kind)) :=
  [(0x00, shift), (0x02, shift), (0x03, shift), (0x04, shift), (0x06, shift), (0x07, shift),
    (0x08, jumpRegister), (0x09, jumpRegister), (0x0c, fun _ => .syscall),
    (0x0d, fun _ => .breakpoint), (0x0f, fun _ => .sync), (0x10, moveHiLo), (0x11, moveHiLo), (0x12, moveHiLo), (0x13, moveHiLo),
    (0x14, shift64), (0x16, shift64), (0x17, shift64), (0x18, mulDiv), (0x19, mulDiv),
    (0x1a, mulDiv), (0x1b, mulDiv), (0x1c, mulDiv), (0x1d, mulDiv), (0x1e, mulDiv), (0x1f, mulDiv),
    (0x20, arith), (0x21, arith), (0x22, arith), (0x23, arith), (0x24, logic), (0x25, logic),
    (0x26, logic), (0x27, logic), (0x2a, logic), (0x2b, logic), (0x2c, arith), (0x2d, arith),
    (0x2e, arith), (0x2f, arith), (0x30, trap), (0x31, trap), (0x32, trap), (0x33, trap),
    (0x34, trap), (0x36, trap), (0x38, shift64), (0x3a, shift64), (0x3b, shift64), (0x3c, shift64),
    (0x3e, shift64), (0x3f, shift64)]

/-- The handlers of opcode one, by the code in `rt`. -/
def regimm : List (Reg × (Reg → Kind)) :=
  [(0x00, branchSign), (0x01, branchSign), (0x02, branchSign), (0x03, branchSign),
    (0x10, branchSign), (0x11, branchSign), (0x12, branchSign), (0x13, branchSign),
    (0x08, trapImm), (0x09, trapImm), (0x0a, trapImm), (0x0b, trapImm), (0x0c, trapImm),
    (0x0e, trapImm)]

/-- Words without a handler are reserved. -/
def reserved {α : Type} : α → Kind := fun _ => .reserved

def dispatchSpecial (i : Instr) : Kind := (special.lookup i.funct).getD reserved i.funct

def dispatchRegimm (i : Instr) : Kind := (regimm.lookup i.rt).getD reserved i.rt

/-- The handlers, by opcode. -/
def major : List (UInt32 × (Instr → Kind)) :=
  [(0x00, dispatchSpecial), (0x01, dispatchRegimm), (0x02, fun _ => .j), (0x03, fun _ => .jal),
    (0x04, branchEq .eq), (0x05, branchEq .ne), (0x06, branchZero .lez), (0x07, branchZero .gtz),
    (0x08, fun _ => .imm .addi), (0x09, fun _ => .imm .addiu), (0x0a, fun _ => .imm .slti),
    (0x0b, fun _ => .imm .sltiu), (0x0c, fun _ => .imm .andi), (0x0d, fun _ => .imm .ori),
    (0x0e, fun _ => .imm .xori), (0x0f, fun _ => .imm .lui), (0x10, cop0), (0x11, cop1),
    (0x14, branchEq .eq), (0x15, branchEq .ne), (0x16, branchZero .lez), (0x17, branchZero .gtz),
    (0x18, fun _ => .imm .daddi), (0x19, fun _ => .imm .daddiu),
    (0x1a, fun _ => .loadPart .left .double), (0x1b, fun _ => .loadPart .right .double),
    (0x20, load), (0x21, load), (0x22, fun _ => .loadPart .left .word), (0x23, load), (0x24, load),
    (0x25, load), (0x26, fun _ => .loadPart .right .word), (0x27, load), (0x28, store),
    (0x29, store), (0x2a, fun _ => .storePart .left .word), (0x2b, store),
    (0x2c, fun _ => .storePart .left .double), (0x2d, fun _ => .storePart .right .double),
    (0x2e, fun _ => .storePart .right .word), (0x2f, fun _ => .cache),
    (0x30, fun _ => .loadLinked .word), (0x31, fun _ => .loadFp .word),
    (0x34, fun _ => .loadLinked .double), (0x35, fun _ => .loadFp .double), (0x37, load),
    (0x38, fun _ => .storeConditional .word), (0x39, fun _ => .storeFp .word),
    (0x3c, fun _ => .storeConditional .double), (0x3d, fun _ => .storeFp .double), (0x3f, store)]

/-- The operation that the handler of a word performs. -/
def dispatch (i : Instr) : Kind := (major.lookup i.opcode).getD reserved i

end Tables

end Recompiler
