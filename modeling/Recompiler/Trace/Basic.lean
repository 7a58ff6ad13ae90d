import Recompiler.Instr.Printer
import Recompiler.Trace.Boundary
import Recompiler.Trace.Widths

/-!
Traces: straight runs of instructions, simplified and annotated with what is known about the
registers before each of them. A trace ends at its first boundary, with the delay slot if
that is a branch.
-/

namespace Recompiler

/-- One instruction of a trace. The analyses describe the registers before it runs. -/
structure TraceOp where
  /-- The word in memory. -/
  raw : Instr
  /-- The instruction that stands for it. -/
  instr : Instr
  boundary : Boundary
  constants : Constants
  widths : Widths
  inDelaySlot : Bool
  /-- A branch that ends the trace because no word is left for its delay slot. -/
  delaySlotOmitted : Bool
  deriving DecidableEq, Inhabited, Repr

namespace TraceOp

/-- The word, the instruction in a column of 28, and marks of delay slots. -/
def render (op : TraceOp) : String :=
  Text.hex8 op.raw.word ++ "  " ++ Text.padRight ' ' 28 op.instr.render
    ++ (if op.inDelaySlot then " [delay]" else "")
    ++ (if op.delaySlotOmitted then " [no-delay]" else "")

end TraceOp

namespace Trace

/-- The trace of `raw` from a point where `c` and `w` are known, and which is a delay slot if
`slot` says so. -/
def buildFrom (c : Constants) (w : Widths) (slot : Bool) : List Instr → List TraceOp
  | [] => []
  | r :: rest =>
    let (c', i) := c.step r.dropZeroWrite.simplify
    let (w', i) := w.step c' i
    let omitted := i.boundary == .endDelay && rest.isEmpty
    let op : TraceOp := ⟨r, i, i.boundary, c, w, slot, omitted⟩
    if slot || i.boundary == .endNow || omitted then [op]
    else op :: buildFrom c' w' (i.boundary == .endDelay) rest

/-- The trace of the first `limit` words of `raw`. -/
def build (raw : List Instr) (limit : Nat) : List TraceOp :=
  buildFrom .fresh .fresh false (raw.take limit)

end Trace

end Recompiler
