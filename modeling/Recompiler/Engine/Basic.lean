import Std.Data.HashMap
import Recompiler.CodeCache.Basic
import Recompiler.Emit.Run
import Recompiler.Engine.Settings
import Recompiler.EventQueue.Savestate
import Recompiler.Ir.Native

/-!
The engine: a guest CPU, and the host that runs it. The host keeps the code cache coherent with
the memory and the registers of the CPU by reacting to its effects.
-/

namespace Recompiler

open Ir Emit

/-- What a handler of an event may do. -/
inductive HostCommand where
  | stop
  | compile (pc : UInt32)
  | invalidateAll
  | schedule (e : Event) (cycle : UInt32)
  | scheduleAfter (e : Event) (delay : UInt32)
  | cancel (e : Event)
  | loadEvents (bytes : List UInt8)
  | handle (e : Event) (commands : List HostCommand)
  | mapDevice (lo hi : UInt32) (read : UInt32 → Size → UInt64)
  | writePhys (paddr : UInt32) (size : Size) (v : UInt64)
  | markCode (paddr : UInt32) (on : Bool)
  | writeCop0 (r : Reg) (v : UInt64)
  | setPending (bits : UInt32) (on : Bool)
  /-- Sets a register, `HI` or `LO`. -/
  | setReg (g : GuestReg) (v : UInt64)
  | setField (f : Cpu.Field) (v : UInt32)

/-- Who handles an event. -/
inductive Handler where
  /-- The timer. -/
  | compare
  /-- The delivery of interrupts. -/
  | check
  /-- The end of the precedence of the special event. -/
  | special
  /-- The power cycle. -/
  | reset
  | script (commands : List HostCommand)

/-- What an observer of the engine sees. -/
inductive Observation where
  /-- A handler with commands starts. -/
  | fired (e : Event) (cycle pc : UInt32)
  /-- A device is read or written. -/
  | device (effect : Effect)
  deriving DecidableEq, Repr

/-- How traces were found. -/
structure Counters where
  hit : Nat
  miss : Nat
  fail : Nat
  interp : Nat
  deriving DecidableEq, Inhabited, Repr

/-- All of an engine but its CPU. -/
structure Host where
  settings : Settings
  backend : Backend
  cache : CodeCache
  queue : EventQueue
  handlers : List (Event × Handler)
  /-- The virtual pages that traces on each physical page were made for. -/
  aliases : Std.HashMap UInt32 (List UInt32)
  stopped : Bool
  /-- Has the page of the running trace been written to? -/
  stale : Bool
  /-- The cycle at which the run ends, if it is bounded. -/
  deadline : Option UInt32
  /-- Are writes to code noticed? -/
  watching : Bool
  counters : Counters
  /-- Records of at least the level of warnings. -/
  log : Array LogRecord
  observed : Array Observation

structure Engine where
  cpu : Cpu
  host : Host

inductive EngineError where
  | cannotCreate (e : RegionError)
  deriving DecidableEq, Repr

namespace EngineError

def message : EngineError → String
  | .cannotCreate e => "engine: cannot create the code cache: " ++ e.message

end EngineError

/-- Faults that end a run. -/
inductive EngineFault where
  | emit (e : EmitError)
  | cache (e : CodeCacheError)
  | link (e : LinkError)
  | invalidService (id pc : UInt32)
  | outOfFuel
  deriving DecidableEq, Repr

namespace EngineFault

def message : EngineFault → String
  | .emit e => e.message
  | .cache e => e.message
  | .link e => e.message
  | .invalidService id pc =>
    "engine: invalid callout " ++ Text.decimal id.toNat ++ " at " ++ Text.address pc
  | .outOfFuel => "the engine does not stop"

end EngineFault

/-- Operations that may end in a fault, which keeps the state. -/
abbrev EngineM := EStateM EngineFault Engine

namespace Host

def note (h : Host) (r : LogRecord) : Host := { h with log := h.log.push r }

def observe (h : Host) (o : Observation) : Host := { h with observed := h.observed.push o }

/-- Schedules an event and logs if that fails. -/
def schedule (h : Host) (now : UInt32) (e : Event) (cycle : UInt32) : Bool × Host :=
  let (outcome, queue) := h.queue.schedule now e cycle
  (outcome.isAdded,
    { h with queue, log := h.log ++ outcome.report e cycle queue.capacity })

def cancel (h : Host) (e : Event) : Bool × Host :=
  let (found, queue) := h.queue.cancel e
  (found, { h with queue })

/-- Unmaps the traces of a guest page. -/
def invalidatePage (h : Host) (page : UInt32) : Host :=
  { h with cache := (h.cache.invalidatePage page).2 }

/-- Arms the timer for when the counter next equals `cmp`. A match more than half of the range
away is reached in two steps. -/
def armCompare (h : Host) (now cmp : UInt32) : Host :=
  let h := (h.cancel .compare).2
  let d := cmp - now
  let cycle := if d ≠ 0 ∧ d < EventQueue.half then cmp else cmp + EventQueue.half
  (h.schedule now .compare cycle).2

end Host

namespace Engine

def mapHost (e : Engine) (f : Host → Host) : Engine := { e with host := f e.host }

def mapCpu (e : Engine) (f : Cpu → Cpu) : Engine := { e with cpu := f e.cpu }

/-- The compare register. -/
def compareReg (c : Cpu) : UInt32 := (c.sysReg Cop0.compare).toUInt32

def armCompare (e : Engine) (cmp : UInt32) : Engine :=
  e.mapHost (·.armCompare e.cpu.cycle cmp)

/-- Clears the code marks of physical pages. -/
def unmark (m : Memory) (pages : List UInt32) : Memory :=
  pages.foldl (fun m page => m.markCode (page * 4096) false) m

/-- Drops every trace. -/
def invalidateAll (e : Engine) : Engine :=
  let pages := e.host.aliases.toList.map (·.1)
  let e := e.mapCpu fun c => { c with mem := unmark c.mem pages }
  e.mapHost fun h => { h with cache := h.cache.invalidateAll, aliases := ∅ }

/-- Drops the traces of a physical page that has been written to. -/
def codeWritten (e : Engine) (paddr : UInt32) : Engine :=
  let page := paddr >>> 12
  let virtuals := e.host.aliases.getD page []
  let current := e.cpu.pc >>> 12
  let e := e.mapCpu fun c => { c with mem := c.mem.markCode paddr false }
  e.mapHost fun h =>
    let h := { h with
      aliases := h.aliases.erase page
      stale := h.stale || virtuals.contains current }
    virtuals.foldl Host.invalidatePage h

/-- A new status may call for another register mode, or let interrupts through. -/
def statusWritten (e : Engine) (old new : UInt32) : Engine :=
  let e := if (old ^^^ new) &&& StatusBit.fr ≠ 0 then e.invalidateAll else e
  if new &&& StatusBit.ie ≠ 0 then
    e.mapHost fun h => (((h.cancel .check).2).schedule e.cpu.cycle .check e.cpu.cycle).2
  else e

/-- The guest pages that an entry of the lookaside buffer covers. -/
def tlbPages (e : TlbEntry) : List UInt32 :=
  let (lo, hi) := e.range
  (List.range ((hi - lo).toNat / 4096)).map fun i => (lo + 4096 * UInt32.ofNat i) >>> 12

/-- Retires the traces made through an entry that is replaced. -/
def tlbWritten (e : Engine) (old : TlbEntry) : Engine :=
  if old.isValid then e.mapHost fun h => (tlbPages old).foldl Host.invalidatePage h else e

/-- Reacts to an effect of the CPU. A counter that jumps takes the pending events with it. -/
def react (e : Engine) : Effect → Engine
  | .countWritten old new =>
    (e.mapHost fun h => { h with queue := h.queue.shift (new - old) }).armCompare
      (compareReg e.cpu)
  | .compareWritten v => e.armCompare v
  | .statusWritten old new => e.statusWritten old new
  | .tlbWritten old _ => e.tlbWritten old
  | .codeWritten paddr => if e.host.watching then e.codeWritten paddr else e
  | .deviceRead paddr size => e.mapHost (·.observe (.device (.deviceRead paddr size)))
  | .deviceWritten paddr size v => e.mapHost (·.observe (.device (.deviceWritten paddr size v)))

/-- Reacts to what the CPU has done since the last time. -/
def settle (e : Engine) : Engine :=
  let effects := e.cpu.effects
  if effects.isEmpty then e else effects.foldl react (e.mapCpu (·.drained))

/-- Lets the CPU do something, and reacts to it. -/
def onCpu (e : Engine) (f : Cpu → Cpu) : Engine := (e.mapCpu f).settle

/-- Connects a CPU in its power-on state. -/
def attach (e : Engine) : Engine :=
  let e := if e.host.settings.goldenEye
    then e.mapCpu fun c => { c with window := some goldenEyeWindow } else e
  (e.mapHost fun h => { h with watching := true }).armCompare (compareReg e.cpu)

def defaultHandlers : List (Event × Handler) :=
  [(.compare, .compare), (.check, .check), (.special, .special), (.reset, .reset)]

/-- The size of the code cache: native code needs whole pages. -/
def arenaSize (o : Settings) : Except EngineError Nat :=
  match o.backend.resolve with
  | .emulator => .ok o.cacheSize.toNat
  | _ =>
    match Region.create? o.cacheSize with
    | .ok r => .ok r.mapped
    | .error e => .error (.cannotCreate e)

/-- An engine for a CPU in its power-on state. -/
def create (mem : Memory) (o : Settings) : Except EngineError Engine := do
  let size ← arenaSize o
  let host : Host := {
    settings := o
    backend := o.backend.resolve
    cache := .create (.create size) o.maxPages 0
    queue := .create o.eventSlots
    handlers := defaultHandlers
    aliases := ∅
    stopped := false
    stale := false
    deadline := none
    watching := true
    counters := ⟨0, 0, 0, 0⟩
    log := #[]
    observed := #[] }
  return attach ⟨.powerOn mem none, host⟩

/-- Gives the code cache back. -/
def close : EngineM Unit := do
  modify (·.mapHost fun h => { h with watching := false })
  match (← get).host.cache.close with
  | .ok cache => modify (·.mapHost fun h => { h with cache })
  | .error e => throw (.cache e)

end Engine

end Recompiler
