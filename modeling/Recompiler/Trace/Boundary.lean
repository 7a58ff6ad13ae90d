import Recompiler.Instr.Class

/-!
Where a trace has to end.
-/

namespace Recompiler

inductive Boundary where
  /-- The trace goes on. -/
  | continue
  /-- The trace ends right after the instruction. -/
  | endNow
  /-- The trace ends after the delay slot of the branch. -/
  | endDelay
  deriving DecidableEq, Inhabited, Repr

/-- The coprocessor 0 registers whose writes may change the timer or the delivery of
interrupts: count, compare, status and cause. -/
def isVolatileCop0 (r : Reg) : Bool :=
  r.val = 9 || r.val = 11 || r.val = 12 || r.val = 13

/-- Whether a trace may go on after the instruction. -/
def Instr.boundary (i : Instr) : Boundary :=
  match i.kind with
  | .reserved | .systemAlias _ => .endNow
  | .j | .jal | .jr | .jalr | .branchEq .. | .branchZero .. | .branchSign .. | .branchFp =>
    .endDelay
  | .syscall | .breakpoint | .trap _ | .trapImm _ | .cache | .ctc1 => .endNow
  | .mtc0 _ => if isVolatileCop0 i.rd then .endNow else .continue
  | .system .eret | .system .tlbwi | .system .tlbwr => .endNow
  | _ => .continue

end Recompiler
