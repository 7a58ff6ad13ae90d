import Recompiler.Cpu.Layout
import Recompiler.Ir.Builder

/-!
The assignment of guest values to host registers while a program is being emitted. A guest
register has a low and a high word. Each may be in a slot; the high word may also be implied by
the low one through an extension. A slot that is not dirty agrees with the context.
-/

namespace Recompiler

open Ir

/-- How the high word of a guest register follows from its low word. -/
inductive Extension where
  | sign
  | zero
  | one
  deriving DecidableEq, Inhabited, Repr

/-- What a host register holds. -/
inductive Content where
  | unused
  | temp
  | high (g : GuestReg)
  /-- The low word, which also implies the high word if there is an extension. -/
  | low (g : GuestReg) (ext : Option Extension)
  /-- The context word at an offset. -/
  | word (off : Int)
  deriving DecidableEq, Inhabited, Repr

namespace Content

def isExtended : Content → Bool
  | .low _ (some _) => true
  | _ => false

/-- Does the register hold the low word of `g`? -/
def isLow (g : GuestReg) : Content → Bool
  | .low g' _ => g' = g
  | _ => false

/-- Where the value lives in the context. -/
def offset : Content → Int
  | .unused | .temp => 0
  | .high g => Layout.highWord g
  | .low g _ => Layout.lowWord g
  | .word off => off

/-- The guest register, if the value belongs to one. -/
def guest? : Content → Option GuestReg
  | .high g | .low g _ => some g
  | _ => none

end Content

/-- The kinds of contents, by name. -/
inductive SlotKind where
  | unused
  | temp
  | high
  | low
  | extended (ext : Extension)
  | word
  deriving DecidableEq, Inhabited, Repr

namespace SlotKind

def name : SlotKind → String
  | .unused => "unused"
  | .temp => "temp"
  | .high => "hi32"
  | .low => "lo32"
  | .extended .sign => "lo32.sex"
  | .extended .zero => "lo32.zex"
  | .extended .one => "lo32.oex"
  | .word => "mem32"

def all : List SlotKind :=
  [.unused, .temp, .high, .low, .extended .sign, .extended .zero, .extended .one, .word]

def ofName? (s : String) : Option SlotKind := all.find? (·.name == s)

end SlotKind

namespace Content

def kind : Content → SlotKind
  | .unused => .unused
  | .temp => .temp
  | .high _ => .high
  | .low _ none => .low
  | .low _ (some ext) => .extended ext
  | .word _ => .word

end Content

/-- The state of one host register. -/
structure Slot where
  content : Content
  /-- Does the context lack the value? -/
  dirty : Bool
  /-- Is the value known to be `value`? -/
  isConst : Bool
  value : UInt32
  /-- When the register was last used. -/
  stamp : Nat
  /-- Is the register in use by the current instruction? -/
  busy : Bool
  deriving DecidableEq, Inhabited, Repr

namespace Slot

def empty : Slot := ⟨.unused, false, false, 0, 0, false⟩

/-- A slot that has just been given its content. -/
def fresh (content : Content) (dirty : Bool) : Slot := { empty with content, dirty }

end Slot

/-- The state of one floating-point host register. -/
structure FpSlot where
  /-- The size and context offset of the value it holds. -/
  content : Option (FpSize × Int)
  dirty : Bool
  stamp : Nat
  busy : Bool
  deriving DecidableEq, Inhabited, Repr

namespace FpSlot

def empty : FpSlot := ⟨none, false, 0, false⟩

end FpSlot

inductive CacheError where
  | outOfRegisters
  | outOfFpRegisters
  | fpAliased
  | unbalancedEnd
  | notExtension (kind : SlotKind)
  deriving DecidableEq, Repr

namespace CacheError

def message : CacheError → String
  | .outOfRegisters => "regcache: out of host registers"
  | .outOfFpRegisters => "regcache: out of host FP registers"
  | .fpAliased => "regcache: FP register aliased in a single instruction"
  | .unbalancedEnd => "regcache: unbalanced EndOpcode"
  | .notExtension kind => "regcache: not an extension kind: " ++ kind.name

end CacheError

/-- The slots of all registers, as taken where a slow path branches off. -/
structure Snapshot where
  slots : Vector Slot 9
  fpSlots : Vector FpSlot 8
  deriving DecidableEq, Inhabited, Repr

/-- The register assignment, and the program that is being emitted. -/
structure HostCache where
  builder : Builder
  clock : Nat
  /-- How many instruction scopes are open. -/
  depth : Int
  slots : Vector Slot 9
  fpSlots : Vector FpSlot 8
  deriving Inhabited, Repr

/-- Allocations may fail; the state up to the failure is kept. -/
abbrev CacheM := EStateM CacheError HostCache

namespace HostCache

def create (b : Builder) : HostCache :=
  ⟨b, 0, 0, Vector.replicate 9 .empty, Vector.replicate 8 .empty⟩

def emit (c : HostCache) (i : Ir.Instr String) : HostCache :=
  { c with builder := c.builder.add i }

def snapshot (c : HostCache) : Snapshot := ⟨c.slots, c.fpSlots⟩

def restore (c : HostCache) (s : Snapshot) : HostCache :=
  { c with slots := s.slots, fpSlots := s.fpSlots }

def slot (c : HostCache) (r : Fin 9) : Slot := c.slots.get r

def setSlot (c : HostCache) (r : Fin 9) (s : Slot) : HostCache :=
  { c with slots := c.slots.put r s }

/-- The slot number of an allocatable register. -/
def slotOf? (r : HostReg) : Option (Fin 9) :=
  if h : r.num < 9 then some ⟨r.num, h⟩ else none

/-- Changes the slot of a register; others have none. -/
def modifySlot (c : HostCache) (r : HostReg) (f : Slot → Slot) : HostCache :=
  match slotOf? r with
  | some i => c.setSlot i (f (c.slot i))
  | none => c

/-- Marks a register as used by the current instruction. -/
def touch (c : HostCache) (r : Fin 9) : HostCache :=
  let clock := c.clock + 1
  { c.setSlot r { c.slot r with stamp := clock, busy := true } with clock }

/-- The first slot whose content satisfies the predicate. -/
def find? (c : HostCache) (p : Content → Bool) : Option (Fin 9) :=
  (List.finRange 9).find? fun r => p (c.slot r).content

def findLow? (c : HostCache) (g : GuestReg) : Option (Fin 9) := c.find? (·.isLow g)

def findHigh? (c : HostCache) (g : GuestReg) : Option (Fin 9) := c.find? (· == .high g)

def findWord? (c : HostCache) (off : Int) : Option (Fin 9) := c.find? (· == .word off)

/-- Stores the high word that an extension implies. -/
def emitExtension (c : HostCache) (r : HostReg) (g : GuestReg) (ext : Extension) : HostCache :=
  match ext with
  | .sign => c.emit (.stcx r (Layout.highWord g))
  | .zero => c.emit (.stci 0 (Layout.highWord g))
  | .one => c.emit (.stci 0xffffffff (Layout.highWord g))

/-- Stores a dirty register to the context. -/
def writeback (c : HostCache) (r : Fin 9) : HostCache :=
  let s := c.slot r
  if s.dirty then
    let reg := HostReg.ofSlot r
    let c := match s.content with
      | .high _ | .low _ none | .word _ => c.emit (.stc reg s.content.offset)
      | .low g (some ext) => (c.emit (.stc reg s.content.offset)).emitExtension reg g ext
      | .unused | .temp => c
    c.setSlot r { s with dirty := false }
  else c

/-- Stores a register if needed, and releases it. -/
def freeSlot (c : HostCache) (r : Fin 9) : HostCache :=
  (c.writeback r).setSlot r .empty

def free (c : HostCache) (r : HostReg) : HostCache :=
  match slotOf? r with
  | some i => c.freeSlot i
  | none => c

/-- Releases a register without storing it. -/
def drop (c : HostCache) (r : HostReg) : HostCache :=
  c.modifySlot r fun _ => .empty

/-- Records that a register holds `v`. -/
def setConst (c : HostCache) (r : HostReg) (v : UInt32) : HostCache :=
  c.modifySlot r fun s => { s with isConst := true, value := v }

/-- Lets a register be evicted within the current instruction. -/
def unpin (c : HostCache) (r : HostReg) : HostCache :=
  c.modifySlot r fun s => { s with busy := false }

/-- Stores a dirty floating-point register to the context. -/
def fpWriteback (c : HostCache) (r : Fin 8) : HostCache :=
  let s := c.fpSlots.get r
  if s.dirty then
    let c := match s.content with
      | some (size, off) => c.emit (.fst size (FpReg.ofSlot r) off)
      | none => c
    { c with fpSlots := c.fpSlots.put r { s with dirty := false } }
  else c

/-- Stores a floating-point register if needed, and releases it. -/
def fpFree (c : HostCache) (r : Fin 8) : HostCache :=
  let c := c.fpWriteback r
  { c with fpSlots := c.fpSlots.put r .empty }

/-- Stores and releases every floating-point register. -/
def flushFp (c : HostCache) : HostCache :=
  (List.finRange 8).foldl fpFree c

/-- Is the register outside of the bit set? -/
def outside (mask : UInt32) (r : Fin 9) : Bool :=
  mask &&& (1 <<< UInt32.ofNat r.val) == 0

/-- Stores the registers outside of `mask` whose high word is implied, or those whose is not. -/
def flushPass (c : HostCache) (mask : UInt32) (extended : Bool) : HostCache :=
  (List.finRange 9).foldl (fun c r =>
    if outside mask r && (c.slot r).content.isExtended == extended then c.writeback r else c) c

/-- Releases the registers outside of `mask` that hold neither a temporary nor a constant. -/
def releaseIdle (c : HostCache) (mask : UInt32) : HostCache :=
  (List.finRange 9).foldl (fun c r =>
    let s := c.slot r
    if outside mask r && s.content != .temp && !s.isConst then c.setSlot r .empty else c) c

/-- Stores every dirty register outside of `mask`, and releases those without a constant. -/
def flushExcept (c : HostCache) (mask : UInt32) : HostCache :=
  (((c.flushPass mask false).flushPass mask true).flushFp).releaseIdle mask

def flushAll (c : HostCache) : HostCache := c.flushExcept 0

/-- Forgets everything, dirty or not. -/
def invalidate (c : HostCache) : HostCache :=
  { c with slots := Vector.replicate 9 .empty, fpSlots := Vector.replicate 8 .empty }

/-- Forgets everything but the temporaries. -/
def dropAll (c : HostCache) : HostCache :=
  { c with
    slots := c.slots.map fun s => if s.content == .temp then s else .empty
    fpSlots := Vector.replicate 8 .empty }

/-- The registers that hold temporaries. -/
def temps (c : HostCache) : List HostReg :=
  ((List.finRange 9).filter fun r => (c.slot r).content == .temp).map HostReg.ofSlot

/-- Does nothing need to be stored? -/
def isClean (c : HostCache) : Bool :=
  c.slots.toList.all (!·.dirty) && c.fpSlots.toList.all (!·.dirty)

/-- The registers that hold a value, as a bit set. -/
def live (c : HostCache) : UInt32 :=
  (List.finRange 9).foldl (fun m r =>
    if (c.slot r).content == .unused then m else m ||| (1 <<< UInt32.ofNat r.val)) 0

/-- Opens the scope of an instruction. Scopes nest, so that a branch and its delay slot are one
instruction. -/
def startOp (c : HostCache) : HostCache := { c with depth := c.depth + 1 }

/-- What remains of a slot after its instruction. -/
def endSlot (s : Slot) : Slot :=
  if s.content == .temp then .empty else { s with busy := false }

def endFpSlot (s : FpSlot) : FpSlot := { s with busy := false }

/-- Closes a scope. With the last one the temporaries go and the registers may be evicted
again. -/
def endOp : CacheM Unit := do
  modify fun c => { c with depth := c.depth - 1 }
  let c ← get
  if c.depth < 0 then throw .unbalancedEnd
  if c.depth = 0 then
    set { c with
      slots := c.slots.map endSlot
      fpSlots := c.fpSlots.map endFpSlot }

/-- The least recently used register that may be evicted: not one of the current instruction,
and no temporary, which has no place in the context. -/
def victim? (c : HostCache) : Option (Fin 9) :=
  (List.finRange 9).foldl (fun v r =>
    let s := c.slot r
    if s.busy || s.content == .temp then v
    else
      match v with
      | some v' => if s.stamp < (c.slot v').stamp then some r else v
      | none => some r) none

/-- A free register, after evicting one if there is none. -/
def alloc : CacheM (Fin 9) := do
  let c ← get
  match c.find? (· == .unused) with
  | some r => return r
  | none =>
    match c.victim? with
    | some r =>
      set (c.freeSlot r)
      return r
    | none => throw .outOfRegisters

/-- Gives a register a new content. -/
def claim (s : Slot) : CacheM (Fin 9) := do
  let r ← alloc
  modify fun c => (c.setSlot r s).touch r
  return r

/-- Uses a register that has its content already. -/
def reuse (r : Fin 9) : CacheM HostReg := do
  modify (·.touch r)
  return .ofSlot r

/-- Gives a register a new content and returns it. -/
def claimReg (content : Content) (dirty : Bool) : CacheM HostReg := do
  return .ofSlot (← claim (.fresh content dirty))

/-- A register with a word of the context that is loaded now. -/
def claimLoaded (content : Content) : CacheM HostReg := do
  let r ← claimReg content false
  modify (·.emit (.ldc content.offset r))
  return r

/-- The low word of a guest register, for reading. -/
def allocInLow (g : GuestReg) : CacheM HostReg := do
  if g.val = 0 then return .rz
  match (← get).findLow? g with
  | some r => reuse r
  | none => claimLoaded (.low g none)

/-- Computes the high word that the register `lo` implies through `ext`. -/
def emitImplied (c : HostCache) (lo r : Fin 9) (ext : Extension) : HostCache :=
  let reg := HostReg.ofSlot r
  match ext with
  | .sign => c.emit (.const .sra (HostReg.ofSlot lo) 31 reg)
  | .zero => (c.emit (.li 0 reg)).setConst reg 0
  | .one => (c.emit (.li 0xffffffff reg)).setConst reg 0xffffffff

/-- Moves the implied high word of `lo` into a register of its own. -/
def materialize (g : GuestReg) (lo : Fin 9) (ext : Extension) : CacheM HostReg := do
  modify (·.touch lo)
  let dirty := ((← get).slot lo).dirty
  let r ← claim (.fresh (.high g) dirty)
  modify fun c =>
    let c := c.emitImplied lo r ext
    c.setSlot lo { c.slot lo with content := .low g none }
  return .ofSlot r

/-- The high word of a guest register, for reading. -/
def allocInHigh (g : GuestReg) : CacheM HostReg := do
  if g.val = 0 then return .rz
  let c ← get
  match c.findHigh? g with
  | some r => reuse r
  | none =>
    match c.findLow? g with
    | some lo =>
      match (c.slot lo).content with
      | .low _ (some ext) => materialize g lo ext
      | _ => claimLoaded (.high g)
    | none => claimLoaded (.high g)

/-- Gives a register a value that the context does not have yet. -/
def overwrite (r : Fin 9) (content : Content) : CacheM HostReg := do
  modify fun c => (c.setSlot r { c.slot r with content, dirty := true, isConst := false }).touch r
  return .ofSlot r

/-- The low word of a guest register, for writing; the high word stays. -/
def allocOutLow (g : GuestReg) : CacheM HostReg := do
  if g.val = 0 then return .rz
  let c ← get
  match c.findLow? g with
  | none => claimReg (.low g none) true
  | some r =>
    match (c.slot r).content with
    | .low _ (some ext) =>
      if (c.findHigh? g).isNone && (c.slot r).dirty then
        let _ ← materialize g r ext
    | _ => pure ()
    overwrite r (.low g none)

/-- The high word of a guest register, for writing; the low word stays. -/
def allocOutHigh (g : GuestReg) : CacheM HostReg := do
  if g.val = 0 then return .rz
  modify fun c =>
    match c.findLow? g with
    | some lo => c.setSlot lo { c.slot lo with content := .low g none }
    | none => c
  match (← get).findHigh? g with
  | some r => overwrite r (.high g)
  | none => claimReg (.high g) true

/-- A guest register for writing a word whose extension gives the high word. -/
def allocOutExt (g : GuestReg) (ext : Extension) : CacheM HostReg := do
  if g.val = 0 then return .rz
  modify fun c =>
    match c.findHigh? g with
    | some hi => c.setSlot hi .empty
    | none => c
  match (← get).findLow? g with
  | some r => overwrite r (.low g (some ext))
  | none => claimReg (.low g (some ext)) true

/-- A guest register for writing, by the kind of its extension. -/
def allocOutKind (g : GuestReg) (kind : SlotKind) : CacheM HostReg :=
  match kind with
  | .extended ext => allocOutExt g ext
  | kind => throw (.notExtension kind)

/-- A context word, for reading. -/
def allocIn32 (off : Int) : CacheM HostReg := do
  match (← get).findWord? off with
  | some r => reuse r
  | none => claimLoaded (.word off)

/-- A context word, for writing. -/
def allocOut32 (off : Int) : CacheM HostReg := do
  match (← get).findWord? off with
  | some r => overwrite r (.word off)
  | none => claimReg (.word off) true

/-- A register for the rest of the current instruction. -/
def allocTemp : CacheM HostReg := claimReg .temp false

/-- A register that holds a constant, one that does already if possible. -/
def allocConst (v : UInt32) : CacheM HostReg := do
  if v = 0 then return .rz
  let c ← get
  match (List.finRange 9).find? fun r => (c.slot r).isConst && (c.slot r).value == v with
  | some r => reuse r
  | none =>
    let r ← allocTemp
    modify fun c => (c.emit (.li v r)).setConst r v
    return r

/-- Stores and forgets a context word. -/
def invalidate32 (c : HostCache) (off : Int) : HostCache :=
  match c.findWord? off with
  | some r => c.freeSlot r
  | none => c

/-- Stores and forgets a guest register. -/
def invalidateGuest (c : HostCache) (g : GuestReg) : HostCache :=
  let c := match c.findHigh? g with
    | some r => c.freeSlot r
    | none => c
  match c.findLow? g with
  | some r => c.freeSlot r
  | none => c

end HostCache

end Recompiler
