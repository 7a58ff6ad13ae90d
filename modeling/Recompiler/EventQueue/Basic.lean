import Recompiler.Bits
import Recompiler.Log

/-!
Timed events against the cycle counter. The queue has a fixed number of slots, and holds at most
one event of each kind. Cycles are compared by their distance from now, so that the counter may
wrap around.
-/

namespace Recompiler

/-- A kind of event, by its code. -/
structure Event where
  code : UInt32
  deriving DecidableEq, Inhabited, Repr

namespace Event

/-- The timer interrupt. -/
def compare : Event := ⟨0x002⟩

/-- A check for pending interrupts. -/
def check : Event := ⟨0x004⟩

/-- The event that goes to the front until it has been seen once. -/
def special : Event := ⟨0x020⟩

/-- A power cycle. -/
def reset : Event := ⟨0x800⟩

def name (e : Event) : String :=
  match e.code with
  | 0x001 => "vi"
  | 0x002 => "compare"
  | 0x004 => "check"
  | 0x008 => "si"
  | 0x010 => "pi"
  | 0x020 => "special"
  | 0x040 => "ai"
  | 0x080 => "sp"
  | 0x100 => "dp"
  | 0x200 => "hw2"
  | 0x400 => "nmi"
  | 0x800 => "reset"
  | code => "event(0x" ++ Text.hex code.toNat ++ ")"

end Event

/-- An event that waits for its cycle. -/
structure Pending where
  /-- The slot that the event occupies. -/
  slot : Nat
  event : Event
  cycle : UInt32
  deriving DecidableEq, Inhabited, Repr

structure EventQueue where
  /-- The number of slots. -/
  capacity : Nat
  /-- The events in the order in which they fire. -/
  pending : List Pending
  /-- The slots without an event, the next one to be used first. -/
  free : List Nat
  /-- Does the special event no longer go to the front? -/
  specialDone : Bool
  /-- Which reports of events that were already pending go through. -/
  duplicates : Sampler
  deriving DecidableEq, Inhabited, Repr

namespace EventQueue

def defaultCapacity : Nat := 16

/-- An empty queue; without a positive capacity it gets the default one. -/
def create (capacity : Int) : EventQueue :=
  let n := if capacity ≤ 0 then defaultCapacity else capacity.toNat
  ⟨n, [], List.range n, false, .every 64⟩

/-- Drops every event. -/
def clear (q : EventQueue) : EventQueue :=
  { q with pending := [], free := List.range q.capacity, specialDone := false }

/-- The number of pending events. -/
def size (q : EventQueue) : Nat := q.capacity - q.free.length

/-- The distance from which on a cycle counts as past. -/
def half : UInt32 := 0x80000000

/-- The distance from which on a past cycle is so far back that it is passed over. -/
def near : UInt32 := 0x10000000

/-- Does an event at cycle `a` fire ahead of `b`? Nothing overtakes the special event until it
is done. -/
def before (done : Bool) (now a : UInt32) (b : Pending) : Bool :=
  if b.event = .special && !done then false
  else if half ≤ a - now then false
  else if b.cycle - now < half then a - now < b.cycle - now
  else if near ≤ now - b.cycle then true
  else b.event = .special && done

/-- Puts an event behind those that fire ahead of it. -/
def insertBehind (done : Bool) (now : UInt32) (p : Pending) : List Pending → List Pending
  | [] => [p]
  | b :: rest =>
    if before done now p.cycle b then p :: b :: rest else b :: insertBehind done now p rest

/-- Puts an event into its place. -/
def insert (done : Bool) (now : UInt32) (p : Pending) (ps : List Pending) : List Pending :=
  if p.event = .special && !done then p :: ps else insertBehind done now p ps

/-- The cycle that an event is scheduled at. -/
def pendingAt? (q : EventQueue) (e : Event) : Option UInt32 :=
  (q.pending.find? (·.event == e)).map (·.cycle)

/-- What became of an event that was to be scheduled. -/
inductive Scheduled where
  | added
  /-- The event was already pending, which may be worth a report. -/
  | duplicate (report : Bool)
  | exhausted
  deriving DecidableEq, Inhabited, Repr

namespace Scheduled

def isAdded : Scheduled → Bool
  | .added => true
  | _ => false

/-- What is logged about it. -/
def report (e : Event) (cycle : UInt32) (capacity : Nat) : Scheduled → List LogRecord
  | .added | .duplicate false => []
  | .duplicate true =>
    [⟨.warn, "eventq: event already pending",
      [("type", e.name), ("at", Text.decimal cycle.toNat)]⟩]
  | .exhausted =>
    [⟨.error, "eventq: event pool exhausted",
      [("type", e.name), ("at", Text.decimal cycle.toNat), ("capacity", Text.decimal capacity)]⟩]

end Scheduled

/-- Adds an event. One that is already pending stays as it is, and one without a free slot is
dropped. -/
def schedule (q : EventQueue) (now : UInt32) (e : Event) (cycle : UInt32) :
    Scheduled × EventQueue :=
  if (q.pendingAt? e).isSome then
    let (report, duplicates) := q.duplicates.next
    (.duplicate report, { q with duplicates })
  else
    match q.free with
    | [] => (.exhausted, q)
    | slot :: free =>
      (.added, { q with free, pending := insert q.specialDone now ⟨slot, e, cycle⟩ q.pending })

/-- Removes an event, and says whether it was pending. -/
def cancel (q : EventQueue) (e : Event) : Bool × EventQueue :=
  match q.pending.find? (·.event == e) with
  | some p =>
    (true, { q with pending := q.pending.eraseP (·.event == e), free := p.slot :: q.free })
  | none => (false, q)

/-- The cycle of the event that fires next. -/
def next? (q : EventQueue) : Option UInt32 := q.pending.head?.map (·.cycle)

/-- Moves every event by a number of cycles. -/
def shift (q : EventQueue) (d : UInt32) : EventQueue :=
  { q with pending := q.pending.map fun p => { p with cycle := p.cycle + d } }

/-- Is the cycle reached at `now`? -/
def isDue (now cycle : UInt32) : Bool := now - cycle < half

/-- Removes the event at the head if it is due. -/
def popDue? (q : EventQueue) (now : UInt32) : Option (Event × EventQueue) :=
  match q.pending with
  | [] => none
  | p :: rest =>
    if isDue now p.cycle then
      some (p.event, { q with pending := rest, free := p.slot :: q.free })
    else none

/-- What is logged about an event that nobody handles. -/
def unhandled (e : Event) (now : UInt32) : LogRecord :=
  ⟨.warn, "eventq: no handler for event", [("type", e.name), ("cycle", Text.decimal now.toNat)]⟩

end EventQueue

end Recompiler
