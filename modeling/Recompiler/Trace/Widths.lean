import Recompiler.Trace.Constants

/-!
The width of every register along a trace: the number of low bits whose sign extension gives
the whole value. A width of at most 32 means a sign-extended word.
-/

namespace Recompiler

/-- The widths of the general registers, of `HI` and of `LO`. -/
structure Widths where
  regs : Vector Int 32
  hi : Int
  lo : Int
  deriving DecidableEq, Inhabited, Repr

namespace Widths

/-- Only register zero is known to be narrow. -/
def fresh : Widths :=
  ⟨(Vector.replicate 32 64).put Reg.zero 1, 64, 64⟩

/-- Register zero has width one. -/
def get (w : Widths) (r : Reg) : Int :=
  if r = .zero then 1 else w.regs.get r

def isWord (w : Widths) (r : Reg) : Bool := w.get r ≤ 32

/-- Widths lie between 1 and 64. -/
def clamp (v : Int) : Int := max 1 (min v 64)

def set (w : Widths) (r : Reg) (v : Int) : Widths :=
  if r = .zero then w else { w with regs := w.regs.put r (clamp v) }

def shiftWidth (w : Widths) (i : Instr) (op : ShiftOp) (amount : ShiftAmount)
    (width : Width) : Int :=
  let wt := w.get i.rt
  let sa : Int := i.sa.toNat
  match width, amount, op with
  | .word, .register, _ => 32
  | .word, _, .left => min 32 (wt + sa)
  | .word, _, .right => if sa = 0 then min 32 wt else 33 - sa
  | .word, _, .arith => min 32 wt - sa
  | .double, .register, .arith => wt
  | .double, .register, _ => 64
  | .double, .field, .left => wt + sa
  | .double, .field, .right => if sa = 0 then wt else 65 - sa
  | .double, .field, .arith => wt - sa
  | .double, .fieldPlus32, .left => wt + sa + 32
  | .double, .fieldPlus32, .right => 33 - sa
  | .double, .fieldPlus32, .arith => wt - sa - 32

def aluWidth (op : AluOp) (ws wt : Int) : Int :=
  match op with
  | .add | .addu | .sub | .subu => min 32 (max ws wt + 1)
  | .and | .or | .xor | .nor => max ws wt
  | .slt | .sltu => 2
  | .dadd | .daddu | .dsub | .dsubu => max ws wt + 1

def immWidth (op : ImmOp) (ws : Int) : Int :=
  match op with
  | .addi | .addiu => min 32 (max ws 16 + 1)
  | .daddi | .daddiu => max ws 16 + 1
  | .slti | .sltiu => 2
  | .andi => 17
  | .ori | .xori => max ws 17
  | .lui => 32

def loadWidth : LoadOp → Int
  | .lb => 8
  | .lbu => 9
  | .lh => 16
  | .lhu => 17
  | .lw => 32
  | .lwu => 33
  | .ld => 64

/-- The width of the result of the instruction, from the widths of its operands. -/
def resultWidth (w : Widths) (i : Instr) : Int :=
  match i.kind with
  | .shift op amount width => w.shiftWidth i op amount width
  | .alu op => aluWidth op (w.get i.rs) (w.get i.rt)
  | .imm op => immWidth op (w.get i.rs)
  | .mfhi => w.hi
  | .mflo => w.lo
  | .load op => loadWidth op
  | .loadPart _ .word | .loadLinked .word => 32
  | .storeConditional _ => 2
  | .mfc0 .word | .mfc1 .word | .cfc1 => 32
  | _ => 64

/-- A sign extension of a value that is a sign-extended word already becomes a move. -/
def dropExtension (w : Widths) (i : Instr) : Instr :=
  match i.kind with
  | .shift .left .field .word =>
    if i.sa = 0 ∧ w.isWord i.rt then .simplestMove i.rd i.rt else i
  | .alu .addu =>
    if i.rt = .zero ∧ w.isWord i.rs then .simplestMove i.rd i.rs else i
  | .imm .addiu =>
    if i.imm = 0 ∧ i.rs ≠ .zero ∧ w.isWord i.rs then .simplestMove i.rt i.rs else i
  | _ => i

/-- The effect on the multiply unit. -/
def stepHiLo (w : Widths) (i : Instr) : Widths :=
  match i.kind with
  | .mthi => { w with hi := clamp (w.get i.rs) }
  | .mtlo => { w with lo := clamp (w.get i.rs) }
  | .mulDiv .mult | .mulDiv .multu | .mulDiv .div | .mulDiv .divu => { w with hi := 32, lo := 32 }
  | .mulDiv _ => { w with hi := 64, lo := 64 }
  | _ => w

/-- A return address is a sign-extended word. -/
def stepLink (w : Widths) (c : Constants) (i : Instr) : Widths :=
  match i.link? with
  | some r => w.set r (min 32 (c.get r).width)
  | none => w

/-- The effect on the register that the instruction writes. -/
def stepDest (w : Widths) (c : Constants) (i : Instr) : Widths :=
  match i.dest? with
  | some rd => w.set rd (min (clamp (w.resultWidth i)) (c.get rd).width)
  | none => w

/-- Advances over an instruction, and simplifies it; `c` is known after the instruction. -/
def step (w : Widths) (c : Constants) (i : Instr) : Widths × Instr :=
  if i.isReserved then (fresh, i)
  else
    let i := w.dropExtension i
    (((w.stepHiLo i).stepLink c i).stepDest c i, i)

end Widths

end Recompiler
