import Recompiler.Ir.Instr
import Recompiler.Text.Number

/-!
Programs of the host machine, and their text.
-/

namespace Recompiler.Ir

open Text

/-- A program. A jump target is the index of an instruction, or the number of instructions for
the end of the program. -/
structure Program where
  code : Array (Instr Nat)
  /-- The most bytes that its native code takes. -/
  size : Nat
  deriving DecidableEq, Inhabited, Repr

namespace HostReg

def render (r : HostReg) : String := if r = rz then "rz" else "h" ++ decimal r.num

end HostReg

namespace FpReg

def render (r : FpReg) : String := "f" ++ decimal r.num

end FpReg

namespace BinOp

def mnemonic : BinOp → String
  | .add => "add"
  | .sub => "sub"
  | .and => "and"
  | .or => "or"
  | .xor => "xor"
  | .nor => "nor"
  | .slt => "slt"
  | .sltu => "sltu"
  | .sll => "sll"
  | .srl => "srl"
  | .sra => "sra"

end BinOp

namespace ConstOp

def mnemonic : ConstOp → String
  | .add => "add"
  | .and => "and"
  | .or => "or"
  | .xor => "xor"
  | .slt => "slt"
  | .sltu => "sltu"
  | .sll => "sll"
  | .srl => "srl"
  | .sra => "sra"

end ConstOp

namespace Cond

def mnemonic : Cond → String
  | .eq => "beq"
  | .ne => "bne"
  | .lt => "blt"
  | .ge => "bge"
  | .ltu => "bltu"
  | .geu => "bgeu"

end Cond

namespace RamLoad

def mnemonic : RamLoad → String
  | .lb => "lb"
  | .lbu => "lbu"
  | .lh => "lh"
  | .lhu => "lhu"
  | .lw => "lw"

end RamLoad

namespace RamStore

def mnemonic : RamStore → String
  | .sb => "sb"
  | .sh => "sh"
  | .sw => "sw"

end RamStore

namespace FpBinOp

def mnemonic : FpBinOp → String
  | .add => "fadd"
  | .sub => "fsub"
  | .mul => "fmul"
  | .div => "fdiv"

end FpBinOp

namespace FpUnOp

def mnemonic : FpUnOp → String
  | .sqrt => "fsqrt"
  | .mov => "fmov"
  | .abs => "fabs"
  | .neg => "fneg"

end FpUnOp

namespace FpSize

def suffix : FpSize → String
  | .single => ".s"
  | .double => ".d"

end FpSize

namespace Instr

/-- A word as a signed decimal. -/
def signedText (v : UInt32) : String := signed v.toInt32.toInt

/-- A word in hexadecimal. -/
def hexText (v : UInt32) : String := "0x" ++ hex v.toNat

def regText (r : HostReg) : String := "%" ++ r.render

def fpText (r : FpReg) : String := "%" ++ r.render

def contextText (off : Int) : String := "ctx+" ++ signed off

/-- A mnemonic in a column of eight, and the operands. -/
def line (mnemonic : String) (args : List String) : String :=
  padRight ' ' 8 mnemonic ++ String.intercalate ", " args

/-- A constant operand; bit operations show it in hexadecimal. -/
def constText (op : ConstOp) (v : UInt32) : String :=
  match op with
  | .and | .or | .xor => hexText v
  | .sltu | .sll | .srl | .sra => decimal v.toNat
  | .add | .slt => signedText v

/-- A constant that a branch compares with; an unsigned one is shown in hexadecimal. -/
def branchConstText (cond : Cond) (v : UInt32) : String :=
  match cond with
  | .ltu | .geu => "$" ++ hexText v
  | _ => "$" ++ signedText v

/-- An instruction as text, with `name` for the names of jump targets. -/
def render {L : Type} (name : L → String) : Instr L → String
  | .li v x => line "li" ["$" ++ signedText v, regText x]
  | .mov x y => line "mov" [regText x, regText y]
  | .ldc off x => line "ldc" [contextText off, regText x]
  | .stc x off => line "stc" [regText x, contextText off]
  | .stci v off => line "stc" ["$" ++ signedText v, contextText off]
  | .stcx x off => line "stcx" [regText x, contextText off]
  | .ltab off x y => line "ltab" [contextText off ++ "[" ++ regText x ++ "]", regText y]
  | .bin op x y z => line op.mnemonic [regText x, regText y, regText z]
  | .const op x v y => line op.mnemonic [regText x, constText op v, regText y]
  | .mul isSigned x y lo hi =>
    line (if isSigned then "mul" else "mulu")
      [regText x, regText y, "\x7b" ++ regText lo, regText hi ++ "\x7d"]
  | .load op x off y => line op.mnemonic [signed off ++ "(" ++ regText x ++ ")", regText y]
  | .store op y x off => line op.mnemonic [regText y, signed off ++ "(" ++ regText x ++ ")"]
  | .branch cond x y target => line cond.mnemonic [regText x, regText y, name target]
  | .branchConst cond x v target =>
    line cond.mnemonic [regText x, branchConstText cond v, name target]
  | .branchOverflow sub x y target =>
    line (if sub then "bovfs" else "bovfa") [regText x, regText y, name target]
  | .jump target => line "jmp" [name target]
  | .callout id target => line "callout" ["$" ++ signed id, name target]
  | .link cell => line "link" ["$" ++ signed cell]
  | .exit status => line "exit" ["$" ++ signed status]
  | .fld size off x => line ("fld" ++ size.suffix) [contextText off, fpText x]
  | .fst size x off => line ("fst" ++ size.suffix) [fpText x, contextText off]
  | .fbin op size x y z => line (op.mnemonic ++ size.suffix) [fpText x, fpText y, fpText z]
  | .funary op size x y => line (op.mnemonic ++ size.suffix) [fpText x, fpText y]
  | .fcmp size x y cond z =>
    line ("fcmp" ++ size.suffix) [fpText x, fpText y, "$" ++ decimal cond, regText z]

end Instr

namespace Program

def empty : Program := ⟨#[], 0⟩

/-- The jump targets in the order in which the code first names them. -/
def targets (p : Program) : List Nat :=
  (p.code.toList.filterMap Instr.target?).foldl
    (fun seen t => if seen.contains t then seen else seen ++ [t]) []

/-- The name of a target: its place among the targets. -/
def targetName (targets : List Nat) (t : Nat) : String :=
  "L_" ++ decimal (targets.idxOf t)

/-- The lines of the program's text, a label standing on a line of its own. -/
def lines (p : Program) : List String :=
  let ts := p.targets
  p.code.toList.zipIdx.flatMap fun (i, n) =>
    let text := "\t" ++ i.render (targetName ts)
    if ts.contains n then [targetName ts n ++ ":", text] else [text]

def render (p : Program) : String := String.intercalate "\n" p.lines

end Program

end Recompiler.Ir
