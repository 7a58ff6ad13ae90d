import Recompiler.Emit.Program
import Recompiler.Ir.Native
import Recompiler.Log
import Recompiler.Report.Image
import Recompiler.Report.Options
import Recompiler.Text.Table

/-!
Reports on the traces of an image: what each instruction becomes, what is known before it, and
the program of the trace.
-/

namespace Recompiler

/-- Why a report ends before its last trace. -/
inductive ReportError where
  | options (e : OptionsError)
  | missingImage (name : String)
  | image (e : ImageError)
  /-- A trace whose program went wrong. -/
  | emit (e : Emit.EmitError)
  deriving DecidableEq, Repr

namespace ReportError

def message : ReportError → String
  | .options e => e.message
  | .missingImage name => (OptionsError.missingFile name).message
  | .image e => e.message
  | .emit e => e.message

/-- Does the error leave what has been written so far? -/
def isRecoverable : ReportError → Bool
  | .emit _ => false
  | _ => true

end ReportError

/-- What a report has written so far. -/
structure Report where
  lines : Array String := #[]
  log : Array LogRecord := #[]
  /-- Does the log go to standard error only? -/
  verbose : Bool := false
  deriving DecidableEq, Inhabited, Repr

abbrev ReportM := EStateM ReportError Report

namespace Boundary

def name : Boundary → String
  | .continue => ""
  | .endNow => "end"
  | .endDelay => "end-delay"

end Boundary

namespace Instr

/-- The registers that the fields of an instruction name, each once and without the zero
register. Jumps have no such fields. -/
def fieldRegs (i : Instr) : List Reg :=
  if i.opcode = 2 ∨ i.opcode = 3 then []
  else if i.rs = i.rt then [i.rt].filter (· ≠ 0)
  else [i.rs, i.rt].filter (· ≠ 0)

end Instr

namespace TraceOp

/-- The instruction, the word if it says something else, and marks of delay slots. -/
def describe (op : TraceOp) : String :=
  op.instr.render
    ++ (if op.instr = op.raw then "" else " (was: " ++ op.raw.render ++ ")")
    ++ (if op.inDelaySlot then " [delay]" else "")
    ++ (if op.delaySlotOmitted then " [no-delay]" else "")

/-- The values of the registers that are known. -/
def constantsText (op : TraceOp) : String :=
  " ".intercalate (op.raw.fieldRegs.filterMap fun r =>
    (op.constants.known? r).map fun v => "r" ++ Text.decimal r.val ++ "=0x" ++ Text.hex v.toNat)

def widthsText (op : TraceOp) : String :=
  " ".intercalate (op.raw.fieldRegs.map fun r =>
    "r" ++ Text.decimal r.val ++ ":" ++ Text.signed (op.widths.get r))

/-- The cells of an instruction at `pc`. -/
def row (op : TraceOp) (pc : UInt32) : List String :=
  [Text.hex8 pc, Text.hex8 op.raw.word, op.describe, op.boundary.name, op.constantsText,
    op.widthsText]

end TraceOp

namespace Report

def header : List String := ["PC", "Raw", "Instruction", "Boundary", "Constants", "Widths"]

/-- A row for each instruction of a trace at `pc`. -/
def rows (pc : UInt32) : List TraceOp → List (List String)
  | [] => []
  | op :: ops => op.row pc :: rows (pc + 4) ops

def write (lines : List String) : ReportM Unit :=
  modify fun r => { r with lines := r.lines ++ lines }

def writeTable (pc : UInt32) (ops : List TraceOp) : ReportM Unit := do
  write ["trace at " ++ Text.address pc ++ ", " ++ Text.decimal ops.length ++ " instructions"]
  write (Text.table header (rows pc ops))

/-- Logs that a trace has no program, or no native code. -/
def warn (pc : UInt32) (message : String) : ReportM Unit :=
  modify fun r => { r with log := r.log.push (Logger.root.record .warn
    "tracedump: cannot translate trace" ["pc", Text.decimal pc.toNat, "err", message]) }

/-- How programs are emitted. -/
def emitConfig (o : ReportOptions) : Emit.Config where
  countPerOp := 2
  ramSize := 0x800000
  wideFp := o.wideFp
  budget := none

/-- The program and the native code of a trace, if they are asked for. -/
def writeProgram (o : ReportOptions) (pc : UInt32) (ops : List TraceOp) : ReportM Unit := do
  if o.showIr || o.showNative then
    match TraceProgram.ofTrace (emitConfig o) [] pc ops with
    | .error e => if e.error.isRecoverable then warn pc e.error.message else throw (.emit e.error)
    | .ok t =>
      if o.showIr then
        write [s!"host IR ({t.program.size} bytes estimated):"]
        write t.program.lines
      if o.showNative then
        match t.program.nativeError? with
        | some e => warn pc e.message
        | none => write ["native code"]

/-- Writes up to `n` traces from `pc` on, each where the one before it ends. -/
def writeTraces (o : ReportOptions) (i : Image) : Nat → UInt32 → ReportM Unit
  | 0, _ => pure ()
  | n + 1, pc => do
    match i.window pc with
    | .error e => throw (.image e)
    | .ok raw =>
      let limit := if 0 < o.maxTrace then min raw.length o.maxTrace.toNat else raw.length
      let ops := Trace.build raw limit
      writeTable pc ops
      writeProgram o pc ops
      if !ops.isEmpty then writeTraces o i n (pc + 4 * UInt32.ofNat ops.length)

/-- The options that the command line gives. `files` has the contents of files. -/
def options (files : String → Option ByteArray) (args : List String) :
    Except OptionsError ReportOptions :=
  ReportOptions.ofArguments (fun name => (files name).map fun b => (String.fromUTF8? b).getD "")
    args

/-- The image that is to be reported on. -/
def imageFile? (files : String → Option ByteArray) (args : List String) : Option String :=
  match options files args with
  | .error _ => none
  | .ok o => some o.image

/-- Writes the report that the command line asks for. -/
def writeFor (files : String → Option ByteArray) (args : List String) : ReportM Unit := do
  match options files args with
  | .error e => throw (.options e)
  | .ok o =>
    modify fun r => { r with verbose := o.verbose }
    match files o.image with
    | none => throw (.missingImage o.image)
    | some bytes =>
      match Image.ofBytes bytes.toList o.base with
      | .error e => throw (.image e)
      | .ok i => writeTraces o i o.count.toNat o.pc

/-- The report that the command line asks for, and the error that ended it. -/
def ofArguments (files : String → Option ByteArray) (args : List String) :
    Option ReportError × Report :=
  match (writeFor files args).run {} with
  | .ok () r => (none, r)
  | .error e r => (some e, r)

/-- The log for the caller. -/
def records (r : Report) : List LogRecord := if r.verbose then [] else r.log.toList

/-- The lines as text, each with its end. -/
def text (r : Report) : String := String.join (r.lines.toList.map (· ++ "\n"))

end Report

end Recompiler
