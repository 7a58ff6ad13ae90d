import Recompiler.EventQueue.Savestate

/-!
The queue in an arena of nodes. The nodes of pending events are chained by their indices in the
order in which the events fire, and the indices of all other nodes lie on a stack. Where a chain
leaves the arena or comes back to itself, an operation that follows it has no result.
-/

namespace Recompiler

/-- A node of the arena. -/
structure EventNode where
  event : Event
  cycle : UInt32
  /-- The node whose event fires after this one. -/
  next : Option Nat
  deriving DecidableEq, Inhabited, Repr

namespace EventNode

/-- What is left of a node that is given back. -/
def blank : EventNode := ⟨⟨0⟩, 0, some 0⟩

/-- The event that waits in the node. -/
def pending (n : EventNode) (slot : Nat) : Pending := ⟨slot, n.event, n.cycle⟩

end EventNode

structure EventArena where
  /-- The node whose event fires first. -/
  head : Option Nat
  nodes : Array EventNode
  /-- The nodes without an event, the next one to be used first. -/
  free : List Nat
  specialDone : Bool
  duplicates : Sampler
  deriving DecidableEq, Inhabited, Repr

namespace EventArena

open EventQueue Savestate

def create (capacity : Int) : EventArena :=
  let n := if capacity ≤ 0 then defaultCapacity else capacity.toNat
  ⟨none, Array.replicate n .blank, List.range n, false, .every 64⟩

/-- Drops every event. The nodes stay as they are. -/
def clear (a : EventArena) : EventArena :=
  { a with head := none, free := List.range a.nodes.size, specialDone := false }

/-- The number of nodes that are not on the stack. -/
def size (a : EventArena) : Int := a.nodes.size - a.free.length

/-- Changes a node of the arena. -/
def modify? (a : EventArena) (i : Nat) (f : EventNode → EventNode) : Option EventArena :=
  if i < a.nodes.size then some { a with nodes := a.nodes.modify i f } else none

/-- Follows the chain from a node to the first event that is wanted. Returns the node of this
event, if there is one, and the node before it. A chain has no more nodes than the arena. -/
def seek (a : EventArena) (wanted : Pending → Bool) :
    Nat → Option Nat → Option Nat → Option (Option Nat × Option Nat)
  | _, prev, none => some (prev, none)
  | 0, _, some _ => none
  | fuel + 1, prev, some i =>
    match a.nodes[i]? with
    | none => none
    | some node =>
      if wanted (node.pending i) then some (prev, some i)
      else a.seek wanted fuel (some i) node.next

/-- The first event of the chain that is wanted. -/
def find? (a : EventArena) (wanted : Pending → Bool) : Option (Option Nat × Option Nat) :=
  a.seek wanted a.nodes.size none a.head

/-- Chains a node behind another one, or in front of all. -/
def link (a : EventArena) (prev : Option Nat) (i : Nat) : Option EventArena :=
  match prev with
  | none => { a with head := some i }.modify? i fun node => { node with next := a.head }
  | some p => do
    let before ← a.nodes[p]?
    let a ← a.modify? i fun node => { node with next := before.next }
    a.modify? p fun node => { node with next := some i }

/-- Takes a node that follows another one, or is the first, off the chain and gives it back. -/
def unlink (a : EventArena) (prev : Option Nat) (i : Nat) : Option EventArena := do
  let node ← a.nodes[i]?
  let a ← match prev with
    | none => some { a with head := node.next }
    | some p => a.modify? p fun before => { before with next := node.next }
  let a ← a.modify? i fun _ => .blank
  return { a with free := i :: a.free }

/-- The node that a new event goes behind, if it does not go to the front. -/
def place? (a : EventArena) (now : UInt32) (e : Event) (cycle : UInt32) : Option (Option Nat) :=
  if e = .special && !a.specialDone then some none
  else (a.find? (before a.specialDone now cycle)).map (·.1)

/-- Adds an event. One that is already pending stays as it is, and one without a free node is
dropped. -/
def schedule (a : EventArena) (now : UInt32) (e : Event) (cycle : UInt32) :
    Option (Scheduled × EventArena) := do
  if (← a.find? (·.event == e)).2.isSome then
    let (report, duplicates) := a.duplicates.next
    return (.duplicate report, { a with duplicates })
  else
    match a.free with
    | [] => return (.exhausted, a)
    | i :: free =>
      let a ← { a with free }.modify? i fun _ => ⟨e, cycle, none⟩
      let prev ← a.place? now e cycle
      return (.added, ← a.link prev i)

/-- Removes an event, and says whether it was pending. -/
def cancel (a : EventArena) (e : Event) : Option (Bool × EventArena) := do
  match ← a.find? (·.event == e) with
  | (_, none) => return (false, a)
  | (prev, some i) => return (true, ← a.unlink prev i)

/-- Moves the events from a node on. -/
def shiftFrom (d : UInt32) : Nat → Option Nat → EventArena → Option EventArena
  | _, none, a => some a
  | 0, some _, _ => none
  | fuel + 1, some i, a => do
    let node ← a.nodes[i]?
    shiftFrom d fuel node.next (← a.modify? i fun node => { node with cycle := node.cycle + d })

/-- Moves every event by a number of cycles. -/
def shift (a : EventArena) (d : UInt32) : Option EventArena := shiftFrom d a.nodes.size a.head a

/-- Removes the event at the head if it is due. -/
def popDue (a : EventArena) (now : UInt32) : Option (Option Event × EventArena) :=
  match a.head with
  | none => some (none, a)
  | some i => do
    let node ← a.nodes[i]?
    if isDue now node.cycle then return (some node.event, ← a.unlink none i)
    else return (none, a)

/-- Schedules the events in `bytes` one after the other. -/
def loadMore (now : UInt32) (a : EventArena) : List UInt8 → Option (EventArena × Option LoadError)
  | b₀ :: b₁ :: b₂ :: b₃ :: rest =>
    let e : Event := ⟨wordOf b₀ b₁ b₂ b₃⟩
    if e.code = terminator then some (a, none)
    else
      match rest with
      | c₀ :: c₁ :: c₂ :: c₃ :: rest =>
        match a.schedule now e (wordOf c₀ c₁ c₂ c₃) with
        | none => none
        | some (_, a) => loadMore now a rest
      | _ => some (a, some (.truncatedEvent e))
  | _ => some (a, some .missingTerminator)

/-- Replaces the pending events by those in `bytes`. -/
def load (a : EventArena) (now : UInt32) (bytes : List UInt8) :
    Option (EventArena × Option LoadError) :=
  loadMore now a.clear bytes

end EventArena

end Recompiler
