import Recompiler.HostCache.Float
import Recompiler.Trace.Basic

/-!
The state of emission and its building blocks. A program runs from the first instruction of its
trace to one of its exits. An exit counts the instructions that ran, writes the program counter
and returns, or continues with the next trace through a link cell while no event is due.

Instructions that are not emitted inline, and the slow paths of those that are, ask the owner of
the program to interpret them. All guest registers are stored before that, so that the owner may
abandon the program there.
-/

namespace Recompiler

open Ir

namespace Emit

/-- What emission depends on besides the trace. -/
structure Config where
  /-- The cycles that each instruction takes. -/
  countPerOp : UInt32
  ramSize : UInt32
  /-- Are all floating-point registers 64 bits wide? -/
  wideFp : Bool
  /-- The most bytes that the program may take. -/
  budget : Option Nat
  deriving DecidableEq, Inhabited, Repr

/-- An exit to a known address, which may be linked to the trace there. -/
structure Exit where
  target : UInt32
  cell : Nat
  deriving DecidableEq, Inhabited, Repr

/-- The services that a program asks for. -/
inductive Service where
  /-- Execute one instruction. -/
  | exec
  /-- Execute a branch together with its delay slot. -/
  | step
  deriving DecidableEq, Inhabited, Repr

namespace Service

def id : Service → Int
  | .exec => 1
  | .step => 2

def ofId? (n : UInt32) : Option Service :=
  if n = 1 then some .exec else if n = 2 then some .step else none

end Service

/-- The place of an instruction in its trace. -/
structure Site where
  pc : UInt32
  /-- How many instructions come before it. -/
  index : Nat
  inDelaySlot : Bool
  /-- What is known about the registers before it. -/
  widths : Widths
  deriving Inhabited, Repr

/-- A slow path that is emitted after the body of the program. -/
structure Stub where
  id : Nat
  site : Site
  op : Recompiler.Instr
  /-- The register with the effective address. -/
  addr : HostReg
  /-- The registers where the slow path branches off. -/
  enter : Snapshot
  /-- The registers where it comes back. -/
  leave : Snapshot
  deriving Inhabited, Repr

namespace Stub

def entryLabel (id : Nat) : String := "_slow_" ++ Text.decimal id

def resumeLabel (id : Nat) : String := "_resume_" ++ Text.decimal id

def joinLabel (id : Nat) : String := "_join_" ++ Text.decimal id

end Stub

inductive EmitError where
  | emptyTrace (pc : UInt32)
  | strayDelaySlot (pc : UInt32)
  | missingDelaySlot (pc : UInt32)
  | bufferFull
  | cache (e : CacheError)
  | build (e : BuildError)
  deriving DecidableEq, Repr

namespace EmitError

def message : EmitError → String
  | .emptyTrace pc => "empty trace at " ++ Text.address pc ++ ": unsupported trace"
  | .strayDelaySlot pc => "stray delay slot at " ++ Text.address pc ++ ": unsupported trace"
  | .missingDelaySlot pc => "missing delay slot at " ++ Text.address pc ++ ": unsupported trace"
  | .bufferFull => "code buffer full"
  | .cache e => e.message
  | .build e => e.message

/-- The errors that a caller may recover from. The others mean that emission itself went
wrong. -/
def isRecoverable : EmitError → Bool
  | .emptyTrace _ | .strayDelaySlot _ | .missingDelaySlot _ | .bufferFull => true
  | .cache _ | .build _ => false

end EmitError

end Emit

open Emit

/-- The state of emission. -/
structure Emitter where
  cache : HostCache
  /-- How many labels have been named. -/
  labels : Nat
  /-- The slow paths, first one first. -/
  stubs : Array Stub
  /-- The linkable exits, first one first. -/
  exits : Array Exit
  /-- The link cells that are still to be handed out, next one first. -/
  cells : List Nat
  deriving Inhabited, Repr

abbrev EmitM := EStateM EmitError Emitter

namespace Emitter

def create (cfg : Config) (cells : List Nat) : Emitter :=
  ⟨.create (Builder.empty.setBudget cfg.budget), 0, #[], #[], cells⟩

end Emitter

namespace Emit

/-- Runs an operation of the register assignment. -/
def onCache {α : Type} (m : CacheM α) : EmitM α
  | ⟨cache, labels, stubs, exits, cells⟩ =>
    match m cache with
    | .ok a cache => .ok a ⟨cache, labels, stubs, exits, cells⟩
    | .error e cache => .error (.cache e) ⟨cache, labels, stubs, exits, cells⟩

/-- Changes the register assignment. -/
def modifyCache (f : HostCache → HostCache) : EmitM Unit
  | ⟨cache, labels, stubs, exits, cells⟩ => .ok () ⟨f cache, labels, stubs, exits, cells⟩

def emit (i : Ir.Instr String) : EmitM Unit := modifyCache (·.emit i)

/-- Puts a label before the next instruction. -/
def putLabel (name : String) : EmitM Unit
  | ⟨⟨builder, clock, depth, slots, fpSlots⟩, labels, stubs, exits, cells⟩ =>
    match builder.label name with
    | .ok builder => .ok () ⟨⟨builder, clock, depth, slots, fpSlots⟩, labels, stubs, exits, cells⟩
    | .error e =>
      .error (.build e) ⟨⟨builder, clock, depth, slots, fpSlots⟩, labels, stubs, exits, cells⟩

/-- A number that no label has yet. -/
def freshId : EmitM Nat := do
  modify fun e => { e with labels := e.labels + 1 }
  return (← get).labels

/-- A label that has not been used. -/
def freshLabel (name : String) : EmitM String := do
  return "_" ++ name ++ "_" ++ Text.decimal (← freshId)

def inLow (r : GuestReg) : EmitM HostReg := onCache (HostCache.allocInLow r)

def inHigh (r : GuestReg) : EmitM HostReg := onCache (HostCache.allocInHigh r)

def outLow (r : GuestReg) : EmitM HostReg := onCache (HostCache.allocOutLow r)

def outHigh (r : GuestReg) : EmitM HostReg := onCache (HostCache.allocOutHigh r)

/-- A register for a result that is a sign-extended word. -/
def outSigned (r : GuestReg) : EmitM HostReg := onCache (HostCache.allocOutExt r .sign)

/-- A register for a result that is a zero-extended word. -/
def outUnsigned (r : GuestReg) : EmitM HostReg := onCache (HostCache.allocOutExt r .zero)

def inWord (off : Int) : EmitM HostReg := onCache (HostCache.allocIn32 off)

def outWord (off : Int) : EmitM HostReg := onCache (HostCache.allocOut32 off)

def temp : EmitM HostReg := onCache HostCache.allocTemp

def constant (v : UInt32) : EmitM HostReg := onCache (HostCache.allocConst v)

def bin (op : BinOp) (x y z : HostReg) : EmitM Unit := emit (.bin op x y z)

def const (op : ConstOp) (x : HostReg) (v : UInt32) (y : HostReg) : EmitM Unit :=
  emit (.const op x v y)

def mov (x y : HostReg) : EmitM Unit := emit (.mov x y)

/-- Where a temporary is kept while a service runs. -/
def saveSlot (r : HostReg) : Int := 24 + 4 * r.num

/-- Writes what a service needs to know about the instruction. -/
def describe (s : Site) (op : Recompiler.Instr) : EmitM Unit := do
  emit (.stci s.pc Layout.pc)
  emit (.stci (ofBool32 s.inDelaySlot) Layout.delay)
  emit (.stci op.word Layout.callOp)
  emit (.stci (UInt32.ofNat (s.index + 1)) Layout.callCount)

/-- Stores all guest registers, and the temporaries to the save area. Returns the
temporaries. -/
def spill : EmitM (List HostReg) := do
  modifyCache (·.flushAll)
  let temps := (← get).cache.temps
  for r in temps do
    emit (.stc r (saveSlot r))
  return temps

/-- Asks for a service. The temporaries survive in the save area; the guest registers are read
again on demand. -/
def request (service : Service) (s : Site) (op : Recompiler.Instr) : EmitM Unit := do
  let resume ← freshLabel "resume"
  let temps ← spill
  describe s op
  emit (.callout service.id resume)
  putLabel resume
  for r in temps do
    emit (.ldc (saveSlot r) r)
  modifyCache (·.dropAll)

/-- Starts a slow path that interprets an instruction. All that is used before the fast path
branches off must have been allocated. -/
def branchOff (s : Site) (op : Recompiler.Instr) (addr : HostReg) : EmitM Stub := do
  let id ← freshId
  let enter := (← get).cache.snapshot
  return ⟨id, s, op, addr, enter, enter⟩

/-- Ends the fast path. The slow path comes back here. -/
def join (stub : Stub) : EmitM Unit := do
  modify fun e => { e with stubs := e.stubs.push { stub with leave := e.cache.snapshot } }
  putLabel (Stub.joinLabel stub.id)

/-- Loads what a register holds where the fast path ends. -/
def reload (temps : List HostReg) (r : HostReg) (s : Slot) : EmitM Unit :=
  match s.content with
  | .unused => pure ()
  | .temp => if temps.contains r then emit (.ldc (saveSlot r) r) else pure ()
  | content => emit (.ldc content.offset r)

def reloadFp (r : FpReg) (s : FpSlot) : EmitM Unit :=
  match s.content with
  | none => pure ()
  | some (size, off) => emit (.fld size off r)

def emitStub (stub : Stub) : EmitM Unit := do
  putLabel (Stub.entryLabel stub.id)
  modifyCache (·.restore stub.enter)
  let temps ← spill
  emit (.stc stub.addr Layout.callAddr)
  describe stub.site stub.op
  emit (.callout Service.exec.id (Stub.resumeLabel stub.id))
  putLabel (Stub.resumeLabel stub.id)
  for r in List.finRange 9 do
    reload temps (.ofSlot r) (stub.leave.slots.get r)
  for r in List.finRange 8 do
    reloadFp (.ofSlot r) (stub.leave.fpSlots.get r)
  emit (.jump (Stub.joinLabel stub.id))

/-- Counts `n` instructions and stores every register. -/
def account (cfg : Config) (n : Nat) : EmitM Unit := do
  modifyCache (·.startOp)
  let d := UInt32.ofNat n * cfg.countPerOp
  if d ≠ 0 then
    let cycle ← inWord Layout.cycle
    let _ ← outWord Layout.cycle
    const .add cycle d cycle
  onCache HostCache.endOp
  modifyCache (·.flushAll)

/-- Takes the next link cell, if there is one, for an exit to `target`. -/
def takeCell (target : UInt32) : EmitM (Option Nat) := do
  match (← get).cells with
  | [] => return none
  | cell :: rest =>
    modify fun e => { e with cells := rest, exits := e.exits.push ⟨target, cell⟩ }
    return some cell

/-- Returns to the dispatcher. -/
def exitUnlinked : EmitM Unit := do
  emit (.stci 0 Layout.lastCell)
  emit (.exit 0)

/-- Continues with the trace in a link cell, unless an event is due. -/
def exitLinked (cell : Nat) : EmitM Unit := do
  let due ← freshLabel "due"
  emit (.stci (UInt32.ofNat (cell + 1)) Layout.lastCell)
  modifyCache (·.startOp)
  let now ← inWord Layout.cycle
  let next ← inWord Layout.nextEvent
  let diff ← temp
  bin .sub now next diff
  emit (.branchConst .ge diff 0 due)
  emit (.link cell)
  putLabel due
  onCache HostCache.endOp
  emit (.exit 0)

/-- Leaves for a known address after `n` instructions. -/
def exitDirect (cfg : Config) (target : UInt32) (n : Nat) (linkable : Bool) : EmitM Unit := do
  account cfg n
  emit (.stci target Layout.pc)
  let cell ← if linkable then takeCell target else pure none
  match cell with
  | some cell => exitLinked cell
  | none => exitUnlinked

/-- Leaves for the address in a register. -/
def exitReg (cfg : Config) (r : HostReg) (n : Nat) : EmitM Unit := do
  account cfg n
  emit (.stc r Layout.pc)
  exitUnlinked

/-- Leaves for the address that a service has written. -/
def exitServed (cfg : Config) (n : Nat) : EmitM Unit := do
  account cfg n
  exitUnlinked

end Emit

end Recompiler
