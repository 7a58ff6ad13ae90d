import Recompiler.Instr.Class
import Recompiler.Text.Number

/-!
Instructions as assembly text.
-/

namespace Recompiler

open Text

namespace ShiftOp

def mnemonic : ShiftOp → String
  | .left => "sll"
  | .right => "srl"
  | .arith => "sra"

end ShiftOp

namespace AluOp

def mnemonic : AluOp → String
  | .add => "add"
  | .addu => "addu"
  | .sub => "sub"
  | .subu => "subu"
  | .and => "and"
  | .or => "or"
  | .xor => "xor"
  | .nor => "nor"
  | .slt => "slt"
  | .sltu => "sltu"
  | .dadd => "dadd"
  | .daddu => "daddu"
  | .dsub => "dsub"
  | .dsubu => "dsubu"

end AluOp

namespace ImmOp

def mnemonic : ImmOp → String
  | .addi => "addi"
  | .addiu => "addiu"
  | .slti => "slti"
  | .sltiu => "sltiu"
  | .andi => "andi"
  | .ori => "ori"
  | .xori => "xori"
  | .lui => "lui"
  | .daddi => "daddi"
  | .daddiu => "daddiu"

end ImmOp

namespace MulDivOp

def mnemonic : MulDivOp → String
  | .mult => "mult"
  | .multu => "multu"
  | .div => "div"
  | .divu => "divu"
  | .dmult => "dmult"
  | .dmultu => "dmultu"
  | .ddiv => "ddiv"
  | .ddivu => "ddivu"

end MulDivOp

namespace TrapCond

def mnemonic : TrapCond → String
  | .ge => "tge"
  | .geu => "tgeu"
  | .lt => "tlt"
  | .ltu => "tltu"
  | .eq => "teq"
  | .ne => "tne"

/-- The mnemonic of the form that compares with an immediate. -/
def immMnemonic : TrapCond → String
  | .ge => "tgei"
  | .geu => "tgeiu"
  | .lt => "tlti"
  | .ltu => "tltiu"
  | .eq => "teqi"
  | .ne => "tnei"

end TrapCond

namespace LoadOp

def mnemonic : LoadOp → String
  | .lb => "lb"
  | .lbu => "lbu"
  | .lh => "lh"
  | .lhu => "lhu"
  | .lw => "lw"
  | .lwu => "lwu"
  | .ld => "ld"

end LoadOp

namespace Size

def storeMnemonic : Size → String
  | .byte => "sb"
  | .half => "sh"
  | .word => "sw"
  | .double => "sd"

end Size

namespace SystemOp

def mnemonic : SystemOp → String
  | .tlbr => "tlbr"
  | .tlbwi => "tlbwi"
  | .tlbwr => "tlbwr"
  | .tlbp => "tlbp"
  | .eret => "eret"

end SystemOp

namespace Width

/-- The letter of the access width in mnemonics. -/
def letter : Width → String
  | .word => "w"
  | .double => "d"

/-- The letter of the destination of a conversion to an integer. -/
def integerLetter : Width → String
  | .word => "w"
  | .double => "l"

end Width

namespace Side

def letter : Side → String
  | .left => "l"
  | .right => "r"

end Side

namespace FpFormat

def letter : FpFormat → String
  | .single => "s"
  | .double => "d"
  | .word => "w"
  | .long => "l"

end FpFormat

namespace RoundMode

def mnemonic : RoundMode → String
  | .nearest => "round"
  | .zero => "trunc"
  | .up => "ceil"
  | .down => "floor"

end RoundMode

/-- The names of the sixteen floating-point conditions. -/
def fpCondName : UInt32 → String
  | 0x0 => "f"
  | 0x1 => "un"
  | 0x2 => "eq"
  | 0x3 => "ueq"
  | 0x4 => "olt"
  | 0x5 => "ult"
  | 0x6 => "ole"
  | 0x7 => "ule"
  | 0x8 => "sf"
  | 0x9 => "ngle"
  | 0xa => "seq"
  | 0xb => "ngl"
  | 0xc => "lt"
  | 0xd => "nge"
  | 0xe => "le"
  | _ => "ngt"

namespace Instr

/-- A general register. -/
def gprText (r : Reg) : String := "$" ++ decimal r.val

/-- A floating-point register. -/
def fprText (r : Reg) : String := "$f" ++ decimal r.val

def likelySuffix (likely : Bool) : String := if likely then "l" else ""

/-- An undefined word, as data. -/
def dataText (i : Instr) : String := ".word 0x" ++ hex8 i.word

/-- A mnemonic and its operands. -/
def operands (name : String) (args : List String) : String :=
  name ++ " " ++ String.intercalate ", " args

def rdRsRtText (i : Instr) (name : String) : String :=
  operands name [gprText i.rd, gprText i.rs, gprText i.rt]

def rsRtText (i : Instr) (name : String) : String :=
  operands name [gprText i.rs, gprText i.rt]

def accessText (i : Instr) (name : String) : String :=
  operands name [gprText i.rt, signed i.immInt ++ "(" ++ gprText i.rs ++ ")"]

def rsBranchText (i : Instr) (name : String) : String :=
  operands name [gprText i.rs, signedPlus i.immInt]

def codeText (i : Instr) (name : String) : String :=
  operands name ["0x" ++ hex ((i.word >>> 6) &&& 0xfffff).toNat]

def shiftText (i : Instr) (op : ShiftOp) (amount : ShiftAmount) (width : Width) : String :=
  let base := match width with
    | .word => op.mnemonic
    | .double => "d" ++ op.mnemonic
  match amount with
  | .field => operands base [gprText i.rd, gprText i.rt, decimal i.sa.toNat]
  | .fieldPlus32 => operands (base ++ "32") [gprText i.rd, gprText i.rt, decimal i.sa.toNat]
  | .register => operands (base ++ "v") [gprText i.rd, gprText i.rt, gprText i.rs]

def immText (i : Instr) (op : ImmOp) : String :=
  match op with
  | .andi | .ori | .xori =>
    operands op.mnemonic [gprText i.rt, gprText i.rs, "0x" ++ hex i.imm.toNat]
  | .lui => operands op.mnemonic [gprText i.rt, "0x" ++ hex i.imm.toNat]
  | _ => operands op.mnemonic [gprText i.rt, gprText i.rs, signed i.immInt]

def branchFpName (i : Instr) : String :=
  match i.rt.val % 4 with
  | 0 => "bc1f"
  | 1 => "bc1t"
  | 2 => "bc1fl"
  | _ => "bc1tl"

def fpText (i : Instr) (format : FpFormat) (op : FpOp) : String :=
  let three (name : String) : String :=
    operands (name ++ "." ++ format.letter) [fprText i.fd, fprText i.fs, fprText i.ft]
  let two (name : String) : String :=
    operands (name ++ "." ++ format.letter) [fprText i.fd, fprText i.fs]
  match op with
  | .add => three "add"
  | .sub => three "sub"
  | .mul => three "mul"
  | .div => three "div"
  | .sqrt => two "sqrt"
  | .abs => two "abs"
  | .mov => two "mov"
  | .neg => two "neg"
  | .round mode dst => two (mode.mnemonic ++ "." ++ dst.integerLetter)
  | .convert dst => two ("cvt." ++ dst.letter)
  | .compare =>
    operands ("c." ++ fpCondName i.cond ++ "." ++ format.letter) [fprText i.fs, fprText i.ft]
  | .undefined => i.dataText

/-- The letter that marks the wide form of a move to or from a coprocessor. -/
def wideMark : Width → String
  | .word => ""
  | .double => "d"

def kindText (i : Instr) : String :=
  match i.kind with
  | .shift op amount width => i.shiftText op amount width
  | .alu .or =>
    if i.rt = .zero then operands "move" [gprText i.rd, gprText i.rs] else i.rdRsRtText "or"
  | .alu op => i.rdRsRtText op.mnemonic
  | .imm op => i.immText op
  | .mulDiv op => i.rsRtText op.mnemonic
  | .mfhi => operands "mfhi" [gprText i.rd]
  | .mthi => operands "mthi" [gprText i.rs]
  | .mflo => operands "mflo" [gprText i.rd]
  | .mtlo => operands "mtlo" [gprText i.rs]
  | .jr => operands "jr" [gprText i.rs]
  | .jalr => operands "jalr" [gprText i.rd, gprText i.rs]
  | .syscall => i.codeText "syscall"
  | .breakpoint => i.codeText "break"
  | .sync => "sync"
  | .trap cond => i.rsRtText cond.mnemonic
  | .trapImm cond => operands cond.immMnemonic [gprText i.rs, signed i.immInt]
  | .j => "j 0x" ++ hexPad 7 (i.target <<< 2).toNat
  | .jal => "jal 0x" ++ hexPad 7 (i.target <<< 2).toNat
  | .branchEq cond likely =>
    let name := match cond with
      | .eq => "beq"
      | .ne => "bne"
    operands (name ++ likelySuffix likely) [gprText i.rs, gprText i.rt, signedPlus i.immInt]
  | .branchZero cond likely =>
    let name := match cond with
      | .lez => "blez"
      | .gtz => "bgtz"
    i.rsBranchText (name ++ likelySuffix likely)
  | .branchSign cond link likely =>
    let name := match cond with
      | .ltz => "bltz"
      | .gez => "bgez"
    i.rsBranchText (name ++ (if link then "al" else "") ++ likelySuffix likely)
  | .branchFp => operands i.branchFpName [signedPlus i.immInt]
  | .load op => i.accessText op.mnemonic
  | .store size => i.accessText size.storeMnemonic
  | .loadPart side width => i.accessText ("l" ++ width.letter ++ side.letter)
  | .storePart side width => i.accessText ("s" ++ width.letter ++ side.letter)
  | .loadLinked .word => i.accessText "ll"
  | .loadLinked .double => i.accessText "lld"
  | .storeConditional .word => i.accessText "sc"
  | .storeConditional .double => i.accessText "scd"
  | .loadFp width => i.accessText ("l" ++ width.letter ++ "c1")
  | .storeFp width => i.accessText ("s" ++ width.letter ++ "c1")
  | .cache => i.accessText "cache"
  | .mfc0 width => operands (wideMark width ++ "mfc0") [gprText i.rt, gprText i.rd]
  | .mtc0 width => operands (wideMark width ++ "mtc0") [gprText i.rt, gprText i.rd]
  | .system op => op.mnemonic
  | .systemAlias _ => i.dataText
  | .mfc1 width => operands (wideMark width ++ "mfc1") [gprText i.rt, fprText i.fs]
  | .mtc1 width => operands (wideMark width ++ "mtc1") [gprText i.rt, fprText i.fs]
  | .cfc1 => operands "cfc1" [gprText i.rt, gprText i.fs]
  | .ctc1 => operands "ctc1" [gprText i.rt, gprText i.fs]
  | .fp format op => i.fpText format op
  | .reserved => i.dataText

/-- An instruction as assembly text. -/
def render (i : Instr) : String :=
  if i.isNop then "nop" else i.kindText

end Instr

end Recompiler
