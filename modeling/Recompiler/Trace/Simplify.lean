import Recompiler.Instr.Build
import Recompiler.Instr.Class

/-!
Peephole rules for single instruction words. `Instr.dropZeroWrite` removes writes to register
zero, `Instr.simplify` applies the rules that hold for all register contents.
-/

namespace Recompiler.Instr

/-- Removes a write to register zero. An instruction whose only effect is such a write becomes
the canonical no-operation, and a jump that links to register zero a plain jump. -/
def dropZeroWrite (i : Instr) : Instr :=
  if i.kind = .jalr ∧ i.rd = .zero then jr i.rs
  else if i.dest? = some .zero ∧ i.isPure then nop
  else i

/-- A copy of `rs` into `rd` in simplest form. -/
def simplestMove (rd rs : Reg) : Instr :=
  if rd = .zero ∨ rs = rd then nop else move rd rs

/-- The sign extension of the low word of `rs` into `rd` in simplest form. -/
def simplestExtend (rd rs : Reg) : Instr :=
  if rd = .zero then nop
  else if rs = .zero then move rd .zero
  else extendWord rd rs

/-- A branch to the instruction after its delay slot does nothing, unless it links or skips
the slot. -/
def dropSkip (i : Instr) : Instr :=
  if i.imm = 1 then nop else i

/-- The unconditional branch in simplest form. -/
def simplestAlways (off : UInt16) : Instr :=
  (always off).dropSkip

def simplifyAlu (i : Instr) (op : AluOp) : Instr :=
  let rd := i.rd
  let rs := i.rs
  let rt := i.rt
  match op with
  | .or =>
    if rt = .zero then (if rs = rd then nop else i)
    else if rs = .zero then simplestMove rd rt
    else if rs = rt then simplestMove rd rs
    else i
  | .and =>
    if rs = .zero ∨ rt = .zero then move rd .zero
    else if rs = rt then simplestMove rd rs
    else i
  | .xor =>
    if rs = rt then move rd .zero
    else if rt = .zero then simplestMove rd rs
    else if rs = .zero then simplestMove rd rt
    else i
  | .subu | .sub =>
    if rs = rt then move rd .zero
    else if rt = .zero then simplestExtend rd rs
    else i
  | .add =>
    if rt = .zero then simplestExtend rd rs
    else if rs = .zero then simplestExtend rd rt
    else i
  | .addu =>
    if rs = .zero then (if rt = .zero then move rd .zero else simplestExtend rd rt)
    else i
  | .daddu | .dadd =>
    if rt = .zero then simplestMove rd rs
    else if rs = .zero then simplestMove rd rt
    else i
  | .dsubu | .dsub =>
    if rs = rt then move rd .zero
    else if rt = .zero then simplestMove rd rs
    else i
  | .slt => if rs = rt then move rd .zero else i
  | .sltu => if rs = rt ∨ rt = .zero then move rd .zero else i
  | .nor => i

def simplifyShift (i : Instr) (op : ShiftOp) (amount : ShiftAmount) (width : Width) : Instr :=
  if i.rt = .zero then move i.rd .zero
  else
    match width, amount, op with
    | .word, .field, .left => i
    | .word, .field, _ => if i.sa = 0 then extendShift i.rd i.rt else i
    | .word, .register, _ => if i.rs = .zero then extendShift i.rd i.rt else i
    | .double, .field, _ => if i.sa = 0 then simplestMove i.rd i.rt else i
    | .double, .register, _ => if i.rs = .zero then simplestMove i.rd i.rt else i
    | _, .fieldPlus32, _ => i

def simplifyImm (i : Instr) (op : ImmOp) : Instr :=
  let rt := i.rt
  let rs := i.rs
  match op with
  | .addi => if rs = .zero then addiu rt .zero i.imm else i
  | .daddi | .daddiu =>
    if i.imm = 0 then simplestMove rt rs
    else if rs = .zero then addiu rt .zero i.imm
    else i
  | .ori => if i.imm = 0 then simplestMove rt rs else i
  | .xori =>
    if i.imm = 0 then simplestMove rt rs
    else if rs = .zero then ori rt .zero i.imm
    else i
  | .andi => if rs = .zero ∨ i.imm = 0 then move rt .zero else i
  | .lui => if i.imm = 0 then move rt .zero else i
  | .sltiu =>
    if rs = .zero then (if i.imm = 0 then move rt .zero else ori rt .zero 1)
    else i
  | .addiu | .slti => i

/-- A branch on equality. A register always equals itself, and a zero operand is moved to
`rt`. -/
def simplifyBranchEq (i : Instr) (cond : EqCond) (likely : Bool) : Instr :=
  if i.rs = i.rt then
    match cond, likely with
    | .eq, false => if i.rs = .zero then i.dropSkip else simplestAlways i.imm
    | .eq, true => simplestAlways i.imm
    | .ne, false => nop
    | .ne, true => i
  else
    let j := if i.rs = .zero then branch i.opcode i.rt i.rs i.imm else i
    if likely then j else j.dropSkip

def simplifyBranchZero (i : Instr) (cond : ZeroCond) (likely : Bool) : Instr :=
  if i.rs = .zero then
    match cond, likely with
    | .lez, _ => simplestAlways i.imm
    | .gtz, false => nop
    | .gtz, true => i
  else if likely then i
  else i.dropSkip

def simplifyBranchSign (i : Instr) (cond : SignCond) (link likely : Bool) : Instr :=
  match cond, link, likely with
  | .ltz, false, false => if i.rs = .zero then nop else i.dropSkip
  | .gez, false, false => if i.rs = .zero then simplestAlways i.imm else i.dropSkip
  | .gez, false, true => if i.rs = .zero then simplestAlways i.imm else i
  | _, _, _ => i

/-- A trap that compares a register with itself by `<`, unsigned `<` or `≠` never fires. -/
def simplifyTrap (i : Instr) (cond : TrapCond) : Instr :=
  match cond with
  | .ne | .lt | .ltu => if i.rs = i.rt then nop else i
  | _ => i

/-- A trap that compares zero with zero by `≠` or unsigned `<` never fires. -/
def simplifyTrapImm (i : Instr) (cond : TrapCond) : Instr :=
  match cond with
  | .ne | .ltu => if i.rs = .zero ∧ i.imm = 0 then nop else i
  | _ => i

/-- One pass of the rules that need no knowledge of register contents. -/
def simplify (i : Instr) : Instr :=
  if i.dest? = some .zero ∧ i.isPure then nop
  else
    match i.kind with
    | .alu op => i.simplifyAlu op
    | .shift op amount width => i.simplifyShift op amount width
    | .imm op => i.simplifyImm op
    | .branchEq cond likely => i.simplifyBranchEq cond likely
    | .branchZero cond likely => i.simplifyBranchZero cond likely
    | .branchSign cond link likely => i.simplifyBranchSign cond link likely
    | .trap cond => i.simplifyTrap cond
    | .trapImm cond => i.simplifyTrapImm cond
    | _ => i

end Recompiler.Instr
