import Recompiler.Instr.Basic

/-!
What an instruction word does. `Instr.kind` reads the operation off the opcode fields; the
operands stay in the word. Encodings that the processor does not define are `Kind.reserved`,
except in two groups where the encoding still selects a unit: undefined COP0 functions
(`Kind.systemAlias`) and undefined floating-point functions (`FpOp.undefined`).
-/

namespace Recompiler

inductive ShiftOp where
  | left
  | right
  | arith
  deriving DecidableEq, Inhabited, Repr

/-- Where a shift takes its amount from: the field, the field plus 32, or `rs`. -/
inductive ShiftAmount where
  | field
  | fieldPlus32
  | register
  deriving DecidableEq, Inhabited, Repr

/-- Operations on two registers that write `rd`. -/
inductive AluOp where
  | add
  | addu
  | sub
  | subu
  | and
  | or
  | xor
  | nor
  | slt
  | sltu
  | dadd
  | daddu
  | dsub
  | dsubu
  deriving DecidableEq, Inhabited, Repr

/-- Operations on a register and an immediate that write `rt`. -/
inductive ImmOp where
  | addi
  | addiu
  | slti
  | sltiu
  | andi
  | ori
  | xori
  | lui
  | daddi
  | daddiu
  deriving DecidableEq, Inhabited, Repr

/-- Operations of the multiply unit. -/
inductive MulDivOp where
  | mult
  | multu
  | div
  | divu
  | dmult
  | dmultu
  | ddiv
  | ddivu
  deriving DecidableEq, Inhabited, Repr

/-- Conditions of the trap instructions. -/
inductive TrapCond where
  | ge
  | geu
  | lt
  | ltu
  | eq
  | ne
  deriving DecidableEq, Inhabited, Repr

/-- Conditions of the branches that compare two registers. -/
inductive EqCond where
  | eq
  | ne
  deriving DecidableEq, Inhabited, Repr

/-- Conditions of the branches that compare a register with zero by opcode. -/
inductive ZeroCond where
  | lez
  | gtz
  deriving DecidableEq, Inhabited, Repr

/-- Conditions of the branches on the sign of a register. -/
inductive SignCond where
  | ltz
  | gez
  deriving DecidableEq, Inhabited, Repr

/-- The sizes of memory accesses. -/
inductive Size where
  | byte
  | half
  | word
  | double
  deriving DecidableEq, Inhabited, Repr

/-- The part of an unaligned access: from the address to the end of its word, or the rest. -/
inductive Side where
  | left
  | right
  deriving DecidableEq, Inhabited, Repr

/-- The width of an unaligned or linked access, or of a move between register files. -/
inductive Width where
  | word
  | double
  deriving DecidableEq, Inhabited, Repr

/-- Loads into a general register from a naturally aligned address. -/
inductive LoadOp where
  | lb
  | lbu
  | lh
  | lhu
  | lw
  | lwu
  | ld
  deriving DecidableEq, Inhabited, Repr

/-- Functions of coprocessor 0. -/
inductive SystemOp where
  | tlbr
  | tlbwi
  | tlbwr
  | tlbp
  | eret
  deriving DecidableEq, Inhabited, Repr

/-- The operand formats of floating-point arithmetic. -/
inductive FpFormat where
  | single
  | double
  | word
  | long
  deriving DecidableEq, Inhabited, Repr

/-- Rounding directions of the conversions to integers. -/
inductive RoundMode where
  | nearest
  | zero
  | up
  | down
  deriving DecidableEq, Inhabited, Repr

/-- Floating-point operations. A conversion without a direction rounds as the control register
says. -/
inductive FpOp where
  | add
  | sub
  | mul
  | div
  | sqrt
  | abs
  | mov
  | neg
  | round (mode : RoundMode) (dst : Width)
  | convert (dst : FpFormat)
  | compare
  | undefined
  deriving DecidableEq, Inhabited, Repr

inductive Kind where
  | shift (op : ShiftOp) (amount : ShiftAmount) (width : Width)
  | alu (op : AluOp)
  | imm (op : ImmOp)
  | mulDiv (op : MulDivOp)
  | mfhi
  | mthi
  | mflo
  | mtlo
  | jr
  | jalr
  | syscall
  | breakpoint
  | sync
  | trap (cond : TrapCond)
  | trapImm (cond : TrapCond)
  | j
  | jal
  | branchEq (cond : EqCond) (likely : Bool)
  | branchZero (cond : ZeroCond) (likely : Bool)
  | branchSign (cond : SignCond) (link likely : Bool)
  | branchFp
  | load (op : LoadOp)
  | store (size : Size)
  | loadPart (side : Side) (width : Width)
  | storePart (side : Side) (width : Width)
  | loadLinked (width : Width)
  | storeConditional (width : Width)
  | loadFp (width : Width)
  | storeFp (width : Width)
  | cache
  | mfc0 (width : Width)
  | mtc0 (width : Width)
  | system (op : SystemOp)
  | systemAlias (op : Option SystemOp)
  | mfc1 (width : Width)
  | mtc1 (width : Width)
  | cfc1
  | ctc1
  | fp (format : FpFormat) (op : FpOp)
  | reserved
  deriving DecidableEq, Inhabited, Repr

namespace Kind

/-- The operation of the opcode-zero group, by function code. -/
def ofSpecial : UInt32 → Kind
  | 0x00 => .shift .left .field .word
  | 0x02 => .shift .right .field .word
  | 0x03 => .shift .arith .field .word
  | 0x04 => .shift .left .register .word
  | 0x06 => .shift .right .register .word
  | 0x07 => .shift .arith .register .word
  | 0x08 => .jr
  | 0x09 => .jalr
  | 0x0c => .syscall
  | 0x0d => .breakpoint
  | 0x0f => .sync
  | 0x10 => .mfhi
  | 0x11 => .mthi
  | 0x12 => .mflo
  | 0x13 => .mtlo
  | 0x14 => .shift .left .register .double
  | 0x16 => .shift .right .register .double
  | 0x17 => .shift .arith .register .double
  | 0x18 => .mulDiv .mult
  | 0x19 => .mulDiv .multu
  | 0x1a => .mulDiv .div
  | 0x1b => .mulDiv .divu
  | 0x1c => .mulDiv .dmult
  | 0x1d => .mulDiv .dmultu
  | 0x1e => .mulDiv .ddiv
  | 0x1f => .mulDiv .ddivu
  | 0x20 => .alu .add
  | 0x21 => .alu .addu
  | 0x22 => .alu .sub
  | 0x23 => .alu .subu
  | 0x24 => .alu .and
  | 0x25 => .alu .or
  | 0x26 => .alu .xor
  | 0x27 => .alu .nor
  | 0x2a => .alu .slt
  | 0x2b => .alu .sltu
  | 0x2c => .alu .dadd
  | 0x2d => .alu .daddu
  | 0x2e => .alu .dsub
  | 0x2f => .alu .dsubu
  | 0x30 => .trap .ge
  | 0x31 => .trap .geu
  | 0x32 => .trap .lt
  | 0x33 => .trap .ltu
  | 0x34 => .trap .eq
  | 0x36 => .trap .ne
  | 0x38 => .shift .left .field .double
  | 0x3a => .shift .right .field .double
  | 0x3b => .shift .arith .field .double
  | 0x3c => .shift .left .fieldPlus32 .double
  | 0x3e => .shift .right .fieldPlus32 .double
  | 0x3f => .shift .arith .fieldPlus32 .double
  | _ => .reserved

/-- The operation of the opcode-one group, by the code in `rt`. -/
def ofRegimm : Reg → Kind
  | 0x00 => .branchSign .ltz false false
  | 0x01 => .branchSign .gez false false
  | 0x02 => .branchSign .ltz false true
  | 0x03 => .branchSign .gez false true
  | 0x08 => .trapImm .ge
  | 0x09 => .trapImm .geu
  | 0x0a => .trapImm .lt
  | 0x0b => .trapImm .ltu
  | 0x0c => .trapImm .eq
  | 0x0e => .trapImm .ne
  | 0x10 => .branchSign .ltz true false
  | 0x11 => .branchSign .gez true false
  | 0x12 => .branchSign .ltz true true
  | 0x13 => .branchSign .gez true true
  | _ => .reserved

/-- The coprocessor 0 function of a function code. -/
def systemOp? : UInt32 → Option SystemOp
  | 0x01 => some .tlbr
  | 0x02 => some .tlbwi
  | 0x06 => some .tlbwr
  | 0x08 => some .tlbp
  | 0x18 => some .eret
  | _ => none

/-- The operation of coprocessor 0, by the code in `rs` and the function code. Of the codes
that select a function only `0x10` with a known function is defined. -/
def ofCop0 (code funct : UInt32) : Kind :=
  match code with
  | 0x00 => .mfc0 .word
  | 0x01 => .mfc0 .double
  | 0x04 => .mtc0 .word
  | 0x05 => .mtc0 .double
  | 0x10 =>
    match systemOp? funct with
    | some op => .system op
    | none => .systemAlias none
  | code => if 0x10 ≤ code then .systemAlias (systemOp? funct) else .reserved

/-- The floating-point operation of a function code. -/
def fpOp (funct : UInt32) : FpOp :=
  if 0x30 ≤ funct then .compare
  else
    match funct with
    | 0x00 => .add
    | 0x01 => .sub
    | 0x02 => .mul
    | 0x03 => .div
    | 0x04 => .sqrt
    | 0x05 => .abs
    | 0x06 => .mov
    | 0x07 => .neg
    | 0x08 => .round .nearest .double
    | 0x09 => .round .zero .double
    | 0x0a => .round .up .double
    | 0x0b => .round .down .double
    | 0x0c => .round .nearest .word
    | 0x0d => .round .zero .word
    | 0x0e => .round .up .word
    | 0x0f => .round .down .word
    | 0x20 => .convert .single
    | 0x21 => .convert .double
    | 0x24 => .convert .word
    | 0x25 => .convert .long
    | _ => .undefined

/-- The operation of coprocessor 1, by the code in `rs` and the function code. -/
def ofCop1 (code funct : UInt32) : Kind :=
  match code with
  | 0x00 => .mfc1 .word
  | 0x01 => .mfc1 .double
  | 0x02 => .cfc1
  | 0x04 => .mtc1 .word
  | 0x05 => .mtc1 .double
  | 0x06 => .ctc1
  | 0x08 => .branchFp
  | 0x10 => .fp .single (fpOp funct)
  | 0x11 => .fp .double (fpOp funct)
  | 0x14 => .fp .word (fpOp funct)
  | 0x15 => .fp .long (fpOp funct)
  | _ => .reserved

end Kind

namespace Instr

/-- The operation of an instruction word. -/
def kind (i : Instr) : Kind :=
  match i.opcode with
  | 0x00 => .ofSpecial i.funct
  | 0x01 => .ofRegimm i.rt
  | 0x02 => .j
  | 0x03 => .jal
  | 0x04 => .branchEq .eq false
  | 0x05 => .branchEq .ne false
  | 0x06 => .branchZero .lez false
  | 0x07 => .branchZero .gtz false
  | 0x08 => .imm .addi
  | 0x09 => .imm .addiu
  | 0x0a => .imm .slti
  | 0x0b => .imm .sltiu
  | 0x0c => .imm .andi
  | 0x0d => .imm .ori
  | 0x0e => .imm .xori
  | 0x0f => .imm .lui
  | 0x10 => .ofCop0 i.fmt i.funct
  | 0x11 => .ofCop1 i.fmt i.funct
  | 0x14 => .branchEq .eq true
  | 0x15 => .branchEq .ne true
  | 0x16 => .branchZero .lez true
  | 0x17 => .branchZero .gtz true
  | 0x18 => .imm .daddi
  | 0x19 => .imm .daddiu
  | 0x1a => .loadPart .left .double
  | 0x1b => .loadPart .right .double
  | 0x20 => .load .lb
  | 0x21 => .load .lh
  | 0x22 => .loadPart .left .word
  | 0x23 => .load .lw
  | 0x24 => .load .lbu
  | 0x25 => .load .lhu
  | 0x26 => .loadPart .right .word
  | 0x27 => .load .lwu
  | 0x28 => .store .byte
  | 0x29 => .store .half
  | 0x2a => .storePart .left .word
  | 0x2b => .store .word
  | 0x2c => .storePart .left .double
  | 0x2d => .storePart .right .double
  | 0x2e => .storePart .right .word
  | 0x2f => .cache
  | 0x30 => .loadLinked .word
  | 0x31 => .loadFp .word
  | 0x34 => .loadLinked .double
  | 0x35 => .loadFp .double
  | 0x37 => .load .ld
  | 0x38 => .storeConditional .word
  | 0x39 => .storeFp .word
  | 0x3c => .storeConditional .double
  | 0x3d => .storeFp .double
  | 0x3f => .store .double
  | _ => .reserved

end Instr

end Recompiler
