import Std.Data.HashMap
import Recompiler.Text.Number

/-!
The memory that code is written into: a fixed number of bytes, zero at first. A region is an
arena of whole pages that native code runs from, with a count of its writes.
-/

namespace Recompiler

structure Arena where
  size : Nat
  /-- The bytes that have been written. -/
  bytes : Std.HashMap Nat UInt8
  /-- Why code is refused, while it is. Block headers are written all the same. -/
  refusal : Option String

inductive ArenaError where
  | outOfBounds (length : Nat) (off : Int)
  | refused (reason : String)
  deriving DecidableEq, Repr

namespace ArenaError

def message : ArenaError → String
  | .outOfBounds length off =>
    "codecache: write of " ++ Text.decimal length ++ " bytes at " ++ Text.signed off
      ++ " is out of bounds"
  | .refused reason => reason

end ArenaError

namespace Arena

def create (size : Nat) : Arena := ⟨size, ∅, none⟩

/-- The length of a block header. -/
def headerLength : Nat := 8

def byte (a : Arena) (off : Nat) : UInt8 := a.bytes.getD off 0

def read (a : Arena) (off n : Nat) : List UInt8 :=
  (List.range n).map fun i => a.byte (off + i)

/-- Writes bytes one after the other. -/
def poke (a : Arena) (off : Nat) : List UInt8 → Arena
  | [] => a
  | b :: bs => { a with bytes := a.bytes.insert off b }.poke (off + 1) bs

/-- Does a range of `n` bytes lie inside? -/
def contains (a : Arena) (off : Int) (n : Nat) : Bool := 0 ≤ off && off + n ≤ a.size

def write (a : Arena) (off : Int) (bs : ByteArray) : Except ArenaError Arena :=
  match if bs.size = headerLength then none else a.refusal with
  | some reason => .error (.refused reason)
  | none =>
    if a.contains off bs.size then .ok (a.poke off.toNat bs.data.toList)
    else .error (.outOfBounds bs.size off)

end Arena

/-- Memory of whole pages that native code runs from. -/
structure Region where
  arena : Arena
  /-- The bytes that are mapped. -/
  mapped : Nat
  /-- The pieces of code that have been written. -/
  writes : Nat

inductive RegionError where
  /-- No size, or none that is a signed word. -/
  | invalidSize (size : Nat)
  /-- More than an address space holds. -/
  | noMemory (size : Nat)
  | outOfBounds (length : Nat) (off : Int)
  deriving DecidableEq, Repr

namespace RegionError

def message : RegionError → String
  | .invalidSize size =>
    "loader: cannot map " ++ Text.decimal size ++ " bytes: invalid argument"
  | .noMemory size =>
    "loader: cannot map " ++ Text.decimal size ++ " bytes: cannot allocate memory"
  | .outOfBounds length off =>
    "loader: write of " ++ Text.decimal length ++ " bytes at " ++ Text.signed off
      ++ " is out of bounds"

end RegionError

namespace Region

def pageSize : Nat := 4096

/-- The size of whole pages that hold `size` bytes; sizes are taken as unsigned words. -/
def roundUp (size : Int) : Nat :=
  ((size + (pageSize - 1)) % 0x10000000000000000).toNat / pageSize * pageSize

/-- The addresses that a process has. -/
def addressSpace : Nat := 0x800000000000

def create? (size : Int) : Except RegionError Region :=
  let n := roundUp size
  if n = 0 ∨ 0x8000000000000000 ≤ n then .error (.invalidSize n)
  else if addressSpace ≤ n then .error (.noMemory n)
  else .ok ⟨.create n, n, 0⟩

/-- Writes code. Nothing is checked if there is none. -/
def write (r : Region) (off : Int) (bs : List UInt8) : Except RegionError Region :=
  if bs.isEmpty then .ok r
  else if r.arena.contains off bs.length then
    .ok { r with arena := r.arena.poke off.toNat bs, writes := r.writes + 1 }
  else .error (.outOfBounds bs.length off)

/-- Gives the memory back. -/
def close (r : Region) : Region := { r with arena := .create 0, mapped := 0 }

end Region

end Recompiler
