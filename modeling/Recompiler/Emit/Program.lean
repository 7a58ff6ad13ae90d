import Recompiler.Emit.Branch

/-!
Traces to programs. The body of the trace comes first, then the slow paths. A trace that does not
fit the budget, or is malformed, gives its link cells back.
-/

namespace Recompiler

open Ir Emit

/-- The program of a trace. -/
structure TraceProgram where
  program : Program
  exits : List Exit
  /-- The number of guest instructions. -/
  count : Nat
  deriving Inhabited, Repr

/-- Why a trace has no program, and the link cells that are free again. -/
structure EmitFailure where
  error : EmitError
  freed : List Nat
  deriving Repr

namespace Emit

/-- The instructions of a trace from the one with the given index. -/
def body (cfg : Config) (base : UInt32) : Nat → List TraceOp → EmitM Unit
  | index, [] => exitDirect cfg (base + 4 * UInt32.ofNat index) index true
  | index, op :: rest => do
    let s : Site := ⟨base + 4 * UInt32.ofNat index, index, false, op.widths⟩
    if op.inDelaySlot then throw (.strayDelaySlot s.pc)
    match op.boundary with
    | .endDelay => branch cfg s op rest
    | .endNow =>
      instr cfg s op.instr
      exitDirect cfg (s.pc + 4) (index + 1) false
    | .continue =>
      instr cfg s op.instr
      body cfg base (index + 1) rest

/-- The body of a trace and its slow paths. -/
def whole (cfg : Config) (base : UInt32) (ops : List TraceOp) : EmitM Unit := do
  body cfg base 0 ops
  for stub in (← get).stubs do
    emitStub stub

end Emit

namespace Emitter

/-- The program that has been emitted, if it fits the budget. -/
def finish (e : Emitter) (count : Nat) : Except EmitError TraceProgram :=
  if e.cache.builder.exhausted then .error .bufferFull
  else
    match e.cache.builder.build with
    | .ok program => .ok ⟨program, e.exits.toList, count⟩
    | .error err => .error (.build err)

/-- A failure gives back the cells that have been taken, if it can be recovered from. -/
def fail (e : Emitter) (err : EmitError) : EmitFailure :=
  ⟨err, if err.isRecoverable then e.exits.toList.map (·.cell) else []⟩

end Emitter

/-- The program of a trace at `pc`. Link cells are taken from the front of `cells`. -/
def TraceProgram.ofTrace (cfg : Emit.Config) (cells : List Nat) (pc : UInt32)
    (ops : List TraceOp) : Except EmitFailure TraceProgram :=
  if ops.isEmpty then .error ⟨.emptyTrace pc, []⟩
  else
    match Emit.whole cfg pc ops (.create cfg cells) with
    | .error err e => .error (e.fail err)
    | .ok () e => (e.finish ops.length).mapError e.fail

end Recompiler
