import Recompiler.HostCache.Basic

/-!
The assignment of guest floating-point values to host registers. A value is a range of context
bytes; two values that share bytes are never in registers at the same time.
-/

namespace Recompiler

open Ir

namespace FpSlot

/-- The number of bytes of a value. -/
def sizeBytes : FpSize → Int
  | .single => 4
  | .double => 8

/-- Does the register hold any of the `size` bytes at `off`? -/
def overlaps (s : FpSlot) (off size : Int) : Bool :=
  match s.content with
  | some (sz, o) => o < off + size && off < o + sizeBytes sz
  | none => false

end FpSlot

namespace HostCache

def fpTouch (c : HostCache) (r : Fin 8) : HostCache :=
  let clock := c.clock + 1
  { c with clock, fpSlots := c.fpSlots.put r { (c.fpSlots.get r) with stamp := clock, busy := true } }

/-- Releases the register if it shares bytes with the value in another shape. -/
def fpEvictPartial (size : FpSize) (off : Int) (r : Fin 8) : CacheM Unit := do
  let c ← get
  let s := c.fpSlots.get r
  if s.content ≠ some (size, off) ∧ s.overlaps off (FpSlot.sizeBytes size) then
    if s.busy then throw .fpAliased
    set (c.fpFree r)

/-- The register that holds the value, after releasing those that hold a part of it. -/
def fpFind? (size : FpSize) (off : Int) : CacheM (Option (Fin 8)) := do
  for r in List.finRange 8 do
    fpEvictPartial size off r
  let c ← get
  return (List.finRange 8).find? fun r => (c.fpSlots.get r).content == some (size, off)

/-- The least recently used register that the current instruction does not use. -/
def fpVictim? (c : HostCache) : Option (Fin 8) :=
  (List.finRange 8).foldl (fun v r =>
    let s := c.fpSlots.get r
    if s.busy then v
    else
      match v with
      | some v' => if s.stamp < (c.fpSlots.get v').stamp then some r else v
      | none => some r) none

def fpClaim (size : FpSize) (off : Int) (dirty : Bool) : CacheM FpReg := do
  let c ← get
  let s : FpSlot := { FpSlot.empty with content := some (size, off), dirty }
  match (List.finRange 8).find? fun r => (c.fpSlots.get r).content.isNone with
  | some r =>
    set ({ c with fpSlots := c.fpSlots.put r s }.fpTouch r)
    return .ofSlot r
  | none =>
    match c.fpVictim? with
    | some r =>
      let c := c.fpWriteback r
      set ({ c with fpSlots := c.fpSlots.put r s }.fpTouch r)
      return .ofSlot r
    | none => throw .outOfFpRegisters

/-- A floating-point value, for reading. -/
def allocInFp (off : Int) (size : FpSize) : CacheM FpReg := do
  match ← fpFind? size off with
  | some r =>
    modify (·.fpTouch r)
    return .ofSlot r
  | none =>
    let r ← fpClaim size off false
    modify (·.emit (.fld size off r))
    return r

/-- A floating-point value, for writing. -/
def allocOutFp (off : Int) (size : FpSize) : CacheM FpReg := do
  match ← fpFind? size off with
  | some r =>
    modify fun c =>
      { c with fpSlots := c.fpSlots.put r { (c.fpSlots.get r) with dirty := true } }.fpTouch r
    return .ofSlot r
  | none => fpClaim size off true

/-- Brings `size` context bytes at `off` up to date and forgets the registers that hold any of
them. -/
def clobberFp (c : HostCache) (off size : Int) : HostCache :=
  (List.finRange 8).foldl (fun c r =>
    if (c.fpSlots.get r).overlaps off size then c.fpFree r else c) c

end HostCache

end Recompiler
