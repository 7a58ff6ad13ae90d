import Recompiler.Ir.Program

/-!
Programs built instruction by instruction, with named labels and a budget for the size of the
native code. Once an instruction does not fit, it and all after it are dropped.
-/

namespace Recompiler.Ir

inductive BuildError where
  | duplicateLabel (name : String)
  | unresolvedLabel (name : String)
  deriving DecidableEq, Repr

namespace BuildError

def message : BuildError → String
  | .duplicateLabel name => "label " ++ name ++ " has already been linked"
  | .unresolvedLabel name => "labels are not fully resolved: " ++ name

end BuildError

structure Builder where
  code : Array (Instr String)
  bytes : Nat
  /-- The most bytes that the program may take. -/
  limit : Option Nat
  /-- Has an instruction been dropped? -/
  exhausted : Bool
  /-- The number that placeholders in label names stand for. -/
  scope : Nat
  /-- Each label with the number of instructions before it. -/
  labels : List (String × Nat)
  /-- Names that jumps use and no label has yet. -/
  pending : List String
  deriving Inhabited, Repr

namespace Builder

def empty : Builder := ⟨#[], 0, none, false, 0, [], []⟩

/-- Limits the size of the program; nothing already added is dropped. -/
def setBudget (b : Builder) (limit : Option Nat) : Builder :=
  { b with limit := limit, exhausted := limit.any (· < b.bytes) }

/-- The bytes left, if there is a limit. -/
def available? (b : Builder) : Option Nat :=
  b.limit.map fun n => if b.exhausted then 0 else n - b.bytes

/-- Does the instruction still fit? -/
def fits (b : Builder) (n : Nat) : Bool :=
  match b.limit with
  | some limit => !b.exhausted && b.bytes + n ≤ limit
  | none => true

/-- The characters with each placeholder replaced by `digits`. -/
def fillIn (digits : List Char) : List Char → List Char
  | '\x7b' :: 'n' :: '\x7d' :: rest => digits ++ fillIn digits rest
  | c :: rest => c :: fillIn digits rest
  | [] => []

/-- The name with each placeholder replaced by the number of the scope. -/
def scopedName (b : Builder) (name : String) : String :=
  .ofList (fillIn (Text.decimal b.scope).toList name.toList)

/-- Appends an instruction whose target has its final name. -/
def push (b : Builder) (i : Instr String) : Builder :=
  if b.fits i.maxBytes then { b with code := b.code.push i, bytes := b.bytes + i.maxBytes }
  else { b with exhausted := true }

/-- Notes a name that no label has yet. -/
def request (b : Builder) (name : String) : Builder :=
  if (b.labels.lookup name).isSome || b.pending.contains name then b
  else { b with pending := b.pending ++ [name] }

/-- The instruction with its shift amount cut to five bits and its condition to three. -/
def clip (i : Instr String) : Instr String :=
  match i with
  | .const .sll x v y => .const .sll x (v &&& 31) y
  | .const .srl x v y => .const .srl x (v &&& 31) y
  | .const .sra x v y => .const .sra x (v &&& 31) y
  | .fcmp size x y cond z => .fcmp size x y (cond % 8) z
  | i => i

/-- Appends an instruction, unless the budget is used up. -/
def add (b : Builder) (i : Instr String) : Builder :=
  let i := (clip i).mapTarget b.scopedName
  match i.target? with
  | some name => (b.request name).push i
  | none => b.push i

/-- Starts a new scope for the placeholders in label names. -/
def mark (b : Builder) : Builder := { b with scope := b.scope + 1 }

/-- Puts a label before the next instruction. -/
def label (b : Builder) (name : String) : Except BuildError Builder :=
  let name := b.scopedName name
  if (b.labels.lookup name).isSome then .error (.duplicateLabel name)
  else .ok { b with
    labels := (name, b.code.size) :: b.labels
    pending := b.pending.erase name }

/-- The program, with labels replaced by the instructions they stand before. -/
def build (b : Builder) : Except BuildError Program :=
  match b.pending with
  | name :: _ => .error (.unresolvedLabel name)
  | [] =>
    .ok ⟨b.code.map (·.mapTarget fun name => (b.labels.lookup name).getD b.code.size), b.bytes⟩

end Builder

end Recompiler.Ir
