import Recompiler.Engine.Basic

/-!
Traces into the code cache. A trace never leaves its page, so that a write to a page retires
every trace made from it.
-/

namespace Recompiler

open Ir Emit

inductive CompileError where
  | notMapped (pc : UInt32)
  | degenerate (pc : UInt32)
  | emit (e : EmitError)
  | cache (e : CodeCacheError)
  | assemble (pc : UInt32) (e : NativeError)

namespace CompileError

/-- The cause, without its circumstances. -/
def cause : CompileError → String
  | .notMapped _ => "trace address is not mapped"
  | .degenerate _ => "trace too short to translate"
  | .emit .bufferFull => "code buffer full"
  | .emit _ => "unsupported trace"
  | .cache e => e.cause
  | .assemble _ e => e.message

def message (e : CompileError) : String :=
  match e with
  | .notMapped pc | .degenerate pc => Text.address pc ++ ": " ++ e.cause
  | .emit e => e.message
  | .cache e => e.message
  | .assemble pc e => "cannot assemble trace at " ++ Text.address pc ++ ": " ++ e.message

/-- The message for the trace at `pc`. -/
def render (e : CompileError) (pc : UInt32) : String :=
  "CompileError(" ++ Text.address pc ++ "): " ++ e.message

end CompileError

namespace Engine

/-- The most instructions that a trace at `pc` may have: up to the end of its page. -/
def traceLimit (o : Settings) (pc : UInt32) : Nat :=
  let n := (4096 - (pc &&& 4095)).toNat / 4
  if 0 < o.maxTrace ∧ o.maxTrace < n then o.maxTrace.toNat else n

/-- Reads `n` instructions at a physical address. -/
def readWords : Nat → UInt32 → Cpu → List Recompiler.Instr × Cpu
  | 0, _, c => ([], c)
  | n + 1, paddr, c =>
    let (w, c) := c.fetchPhys paddr
    let (ws, c) := readWords n (paddr + 4) c
    (⟨w⟩ :: ws, c)

/-- Reads the instructions that a trace at `pc` may have. -/
def fetchTrace (pc : UInt32) : EngineM (Except CompileError (List Recompiler.Instr)) := do
  let e ← get
  match e.cpu.physical? pc false with
  | none => return .error (.notMapped pc)
  | some paddr =>
    if pc &&& 3 ≠ 0 then return .error (.notMapped pc)
    let (words, cpu) := readWords (traceLimit e.host.settings pc) paddr e.cpu
    set ({ e with cpu }.settle)
    return .ok words

/-- What emission depends on. Without room there is no budget. -/
def emitConfig (e : Engine) : Emit.Config where
  countPerOp := UInt32.ofInt e.host.settings.countPerOp
  ramSize := UInt32.ofNat e.cpu.mem.size
  wideFp := e.cpu.wideFpRegs
  budget := if e.host.cache.budget = 0 then none else some e.host.cache.budget

/-- Emits a trace, with link cells from the cache. -/
def emitTrace (pc : UInt32) (ops : List TraceOp) : EngineM (Except EmitError TraceProgram) := do
  let e ← get
  match TraceProgram.ofTrace (emitConfig e) e.host.cache.free pc ops with
  | .ok t =>
    modify (·.mapHost fun h => { h with cache := h.cache.takeCells t.exits.length })
    return .ok t
  | .error f =>
    if f.error.isRecoverable then
      modify (·.mapHost fun h =>
        { h with cache := (h.cache.takeCells f.freed.length).freeCells f.freed })
      return .error f.error
    else throw (.emit f.error)

/-- Evicts traces until half of the cache is free. -/
def clearHalf : EngineM (Except CodeCacheError Unit) := do
  let cache := (← get).host.cache
  let half := cache.capacity / 2
  let (r, cache) := cache.allocate (half - Block.headerSize) (CodeCache.align half)
  modify (·.mapHost fun h => { h with cache })
  match r with
  | .ok _ => return .ok ()
  | .error e => if e.isFault then throw (.cache e) else return .error e

/-- Emits a trace. If it does not fit, it is tried once more with half of the cache free. -/
def emitOrRetry (pc : UInt32) (ops : List TraceOp) :
    EngineM (Except CompileError TraceProgram) := do
  match ← emitTrace pc ops with
  | .ok t => return .ok t
  | .error .bufferFull =>
    match ← clearHalf with
    | .error e => return .error (.cache e)
    | .ok () => return (← emitTrace pc ops).mapError .emit
  | .error e => return .error (.emit e)

/-- Marks the physical page of a trace, so that writes to it are noticed. -/
def track (e : Engine) (pc : UInt32) : Engine :=
  match e.cpu.physical? pc false with
  | none => e
  | some paddr =>
    if e.cpu.mem.inRam paddr 4 then
      let page := paddr >>> 12
      let add (vs : List UInt32) := if vs.contains (pc >>> 12) then vs else (pc >>> 12) :: vs
      let e := e.mapHost fun h =>
        { h with aliases := h.aliases.insert page (add (h.aliases.getD page [])) }
      e.mapCpu fun c => { c with mem := c.mem.markCode paddr true }
    else e

/-- Puts a program into the cache. -/
def insertTrace (pc : UInt32) (t : TraceProgram) : EngineM (Except CompileError BlockId) := do
  let (r, cache) := (← get).host.cache.insert pc t none
  modify (·.mapHost fun h => { h with cache })
  match r with
  | .ok id =>
    modify (·.track pc)
    return .ok id
  | .error e =>
    if e.isFault then throw (.cache e)
    modify (·.mapHost (·.note (e.report pc)))
    return .error (.cache e)

/-- Compiles the trace at `pc`. -/
def compile (pc : UInt32) : EngineM (Except CompileError BlockId) := do
  match ← fetchTrace pc with
  | .error e => return .error e
  | .ok words =>
    let ops := Trace.build words words.length
    match ops with
    | [] => return .error (.degenerate pc)
    | op :: rest =>
      if rest.isEmpty && op.delaySlotOmitted then return .error (.degenerate pc)
      match ← emitOrRetry pc ops with
      | .error e => return .error e
      | .ok t =>
        match if (← get).host.backend = .native then t.program.nativeError? else none with
        | some e =>
          modify (·.mapHost fun h => { h with cache := h.cache.freeCells (t.exits.map (·.cell)) })
          return .error (.assemble pc e)
        | none => insertTrace pc t

/-- The block for `pc`, which is compiled now if need be. -/
def lookup (pc : UInt32) : EngineM (Option BlockId) := do
  let count (f : Counters → Counters) : EngineM Unit :=
    modify (·.mapHost fun h => { h with counters := f h.counters })
  match (← get).host.cache.lookup pc with
  | .live id =>
    count fun c => { c with hit := c.hit + 1 }
    return some id
  | _ =>
    count fun c => { c with miss := c.miss + 1 }
    match ← compile pc with
    | .ok id => return some id
    | .error _ =>
      count fun c => { c with fail := c.fail + 1 }
      return none

end Engine

end Recompiler
