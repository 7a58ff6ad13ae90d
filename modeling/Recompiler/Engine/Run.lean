import Recompiler.Engine.Compile

/-!
Running the engine: events that are due, then the trace at the program counter, or a single
instruction where there is none.
-/

namespace Recompiler

open Ir Emit

namespace Engine

/-- Schedules an event, and says whether it was added. -/
def schedule (e : Engine) (ev : Event) (cycle : UInt32) : Bool × Engine :=
  let (added, host) := e.host.schedule e.cpu.cycle ev cycle
  (added, { e with host })

def cancel (e : Engine) (ev : Event) : Bool × Engine :=
  let (found, host) := e.host.cancel ev
  (found, { e with host })

/-- Replaces the pending events. -/
def loadEvents (e : Engine) (bytes : List UInt8) : Option Savestate.LoadError × Engine :=
  let loaded := e.host.queue.load e.cpu.cycle bytes
  (loaded.error, e.mapHost fun h => { h with queue := loaded.queue, log := h.log ++ loaded.log })

/-- The answer to a command. -/
inductive Reply where
  | unit
  | flag (b : Bool)
  | compiled (e : Option CompileError)
  | loaded (e : Option Savestate.LoadError)

def perform : HostCommand → EngineM Reply
  | .stop => do
    modify (·.mapHost fun h => { h with stopped := true })
    return .unit
  | .compile pc => do
    match ← compile pc with
    | .ok _ => return .compiled none
    | .error e => return .compiled (some e)
  | .invalidateAll => do
    modify (·.invalidateAll)
    return .unit
  | .schedule ev cycle => do
    let (added, e) := (← get).schedule ev cycle
    set e
    return .flag added
  | .scheduleAfter ev delay => do
    let e ← get
    let (added, e) := e.schedule ev (e.cpu.cycle + delay)
    set e
    return .flag added
  | .cancel ev => do
    let (found, e) := (← get).cancel ev
    set e
    return .flag found
  | .loadEvents bytes => do
    let (err, e) := (← get).loadEvents bytes
    set e
    return .loaded err
  | .handle ev commands => do
    modify (·.mapHost fun h => { h with handlers := (ev, .script commands) :: h.handlers })
    return .unit
  | .mapDevice lo hi read => do
    modify (·.mapCpu fun c => { c with mem := c.mem.map lo hi read })
    return .unit
  | .writePhys paddr size v => do
    modify (·.onCpu (·.writePhys paddr size v))
    return .unit
  | .markCode paddr on => do
    modify (·.mapCpu fun c => { c with mem := c.mem.markCode paddr on })
    return .unit
  | .writeCop0 r v => do
    modify (·.onCpu (·.writeCop0 r v))
    return .unit
  | .setPending bits on => do
    modify (·.mapCpu (·.setPending bits on))
    return .unit
  | .setReg g v => do
    modify (·.mapCpu (·.setGuest g v))
    return .unit
  | .setField f v => do
    modify (·.mapCpu (·.setField f v))
    return .unit

/-- The timer has fired, at the match itself or half of the range away from it. -/
def timerFired (e : Engine) : Engine :=
  let cmp := compareReg e.cpu
  let e := if e.cpu.cycle - cmp < 0x40000000
    then e.mapCpu (·.setPending CauseBit.timer true) else e
  e.armCompare cmp

/-- Powers the machine on again. Nothing that was compiled can be trusted afterwards. -/
def powerCycle (e : Engine) : Engine :=
  let e := (e.mapHost fun h => { h with queue := h.queue.clear }).invalidateAll
  (e.mapCpu (·.reset)).attach

/-- Runs the handler of an event. -/
def runHandler (ev : Event) : Handler → EngineM Unit
  | .compare => modify timerFired
  | .check => modify (·.mapCpu fun c => c.checkInterrupt.1)
  | .special => modify (·.mapHost fun h => { h with queue := { h.queue with specialDone := true } })
  | .reset => modify powerCycle
  | .script commands => do
    modify fun e => e.mapHost (·.observe (.fired ev e.cpu.cycle e.cpu.pc))
    for c in commands do
      let _ ← perform c

/-- Fires the event at the head of the queue if it is due, and says if it was. -/
def dispatch : EngineM Bool := do
  let e ← get
  match e.host.queue.popDue? e.cpu.cycle with
  | none => return false
  | some (ev, queue) =>
    let handler := e.host.handlers.lookup ev
    let now := e.cpu.cycle
    set (e.mapHost fun h => { h with queue })
    match handler with
    | some handler => runHandler ev handler
    | none => modify (·.mapHost (·.note (EventQueue.unhandled ev now)))
    return true

/-- Fires at most `n` due events. -/
def fireDue : Nat → EngineM Unit
  | 0 => return
  | n + 1 => do
    if ← dispatch then fireDue n

/-- How far away the next event is taken to be if there is none. -/
def farAway : UInt32 := 0x40000000

/-- Fires due events, then delivers a pending interrupt. -/
def events : EngineM Unit := do
  fireDue (← get).host.settings.eventSlots.toNat
  modify fun e =>
    let next := e.host.queue.next?.getD (e.cpu.cycle + farAway)
    e.mapCpu fun c => ({ c with nextEvent := next }).checkInterrupt.1

/-- Is the cycle `a` before `b`? -/
def isBefore (a b : UInt32) : Bool := signBit32 (a - b)

/-- The longest that linked traces run without a check. -/
def pollInterval : UInt32 := 0x10000

/-- Makes linked traces return in time for the end of the run and for the next check. -/
def limitChain (e : Engine) : Engine :=
  let poll := e.cpu.cycle + pollInterval
  let limit := match e.host.deadline with
    | some t => if isBefore t poll then t else poll
    | none => poll
  e.mapCpu fun c => if isBefore limit c.nextEvent then { c with nextEvent := limit } else c

/-- The cycles that each instruction takes. -/
def countPerOp (e : Engine) : UInt32 := UInt32.ofInt e.host.settings.countPerOp

/-- Performs the service that a trace asks for, and says whether the trace goes on. While the
service runs, the counter includes every instruction up to this one. An exception ends the
trace, and so does a write to the trace itself, unless only its exit is left. -/
def serve (e : Engine) (service : Service) : Bool × Engine :=
  let d := e.cpu.frame.callCount * e.countPerOp
  let e := e.mapHost fun h => { h with stale := false }
  let e := e.onCpu fun c => ({ c with cycle := c.cycle + d }).serve service
  if e.cpu.leave ≠ 0 then (false, e)
  else if e.host.stale && service = .exec && e.cpu.delay = 0 then
    (false, e.mapCpu fun c => { c with pc := c.pc + 4 })
  else (true, e.mapCpu fun c => { c with cycle := c.cycle - d })

/-- Runs a machine and what it links to, with at most `fuel` services, until it returns. -/
def runMachine : Nat → Machine Cpu → Host → EStateM.Result EngineFault Engine Unit
  | 0, m, host => .error .outOfFuel ⟨m.ctx, host⟩
  | fuel + 1, m, host =>
    match m.run host.cache.linkTable with
    | none => .error (.link .endless) ⟨m.ctx, host⟩
    | some (.error e, m) => .error (.link e) ⟨m.ctx, host⟩
    | some (.ok status, ⟨program, pc, regs, fregs, cpu⟩) =>
      if status ≠ exitCall then .ok () ⟨cpu, host⟩
      else
        match cpu.requested? with
        | none => .error (.invalidService cpu.frame.callId cpu.pc) ⟨cpu, host⟩
        | some service =>
          match serve ⟨cpu, host⟩ service with
          | (true, ⟨cpu, host⟩) => runMachine fuel ⟨program, pc, regs, fregs, cpu⟩ host
          | (false, e) => .ok () e

/-- The number of services after which a block is given up. -/
def serviceLimit : Nat := 0x1000000000000

/-- Runs a block, and the traces it links to, until one returns. Traces leave between
instructions. -/
def execute (id : BlockId) : EngineM Unit := do
  let run : EngineM Unit := fun ⟨cpu, host⟩ =>
    runMachine serviceLimit (.start (host.cache.block id).program cpu) host
  run
  modify (·.mapCpu fun c => { c with delay := 0 })

/-- Executes the instruction at the program counter, or a branch with its delay slot. -/
def interpret (e : Engine) : Engine :=
  let e := e.mapHost fun h =>
    { h with counters := { h.counters with interp := h.counters.interp + 1 } }
  let (n, cpu) := Interp.step e.cpu
  let d := UInt32.ofNat n * e.countPerOp
  ({ e with cpu }.settle).mapCpu fun c => { c with cycle := c.cycle + d }

/-- One round: events, then a trace or an instruction. -/
def round : EngineM Unit := do
  events
  modify limitChain
  match ← lookup (← get).cpu.pc with
  | some id => execute id
  | none => modify interpret

/-- Has the run come to its end? -/
def isDone (e : Engine) : Bool :=
  e.host.stopped || e.host.deadline.any fun t => !isBefore e.cpu.cycle t

/-- Runs rounds until the end. -/
def loop : Nat → EngineM Unit
  | 0 => throw .outOfFuel
  | fuel + 1 => do
    if (← get).isDone then return
    round
    loop fuel

/-- The number of rounds after which a run is given up. -/
def roundLimit : Nat := 0x1000000000000

/-- Runs guest code until it is stopped. -/
def run : EngineM Unit := do
  modify (·.mapHost fun h => { h with stopped := false, deadline := none })
  loop roundLimit

/-- Runs guest code for `n` cycles, and to the end of the last trace. -/
def runCycles (n : UInt32) : EngineM Unit := do
  modify fun e => e.mapHost fun h => { h with stopped := false, deadline := some (e.cpu.cycle + n) }
  loop roundLimit

end Engine

end Recompiler
