import Recompiler.Ir.Builder

/-!
Programs as lists of nodes. Labels are nodes without an instruction until the program is built, and
jumps go to nodes. Nodes that are given back keep what they hold until a later program takes them.
-/

namespace Recompiler.Ir

/-- A node of a list. Nodes have numbers, and 0 is the number of none. -/
structure Node where
  /-- A node without one does nothing. -/
  instr : Option (Instr Nat)
  next : Nat
  deriving DecidableEq, Repr

def Node.blank : Node := ⟨none, 0⟩

structure Heap where
  nodes : Array Node
  /-- The nodes that were given back, the next one to be used first. -/
  pool : List Nat
  deriving DecidableEq, Repr

namespace Heap

def empty : Heap := ⟨#[.blank], []⟩

def node (h : Heap) (a : Nat) : Node := h.nodes.getD a .blank

def set (h : Heap) (a : Nat) (n : Node) : Heap :=
  { h with nodes := h.nodes.setIfInBounds a n }

def setNext (h : Heap) (a next : Nat) : Heap := h.set a { h.node a with next }

/-- Makes the jump of a node go to another one. -/
def setTarget (h : Heap) (a target : Nat) : Heap :=
  h.set a { h.node a with instr := (h.node a).instr.map (·.mapTarget fun _ => target) }

/-- Takes a node for an instruction. -/
def alloc (h : Heap) (instr : Option (Instr Nat)) : Nat × Heap :=
  match h.pool with
  | a :: pool => (a, { h with pool }.set a ⟨instr, 0⟩)
  | [] => (h.nodes.size, { h with nodes := h.nodes.push ⟨instr, 0⟩ })

def free (h : Heap) (a : Nat) : Heap := { h with pool := a :: h.pool }

/-- The nodes of a list from `a` on. -/
def follow (h : Heap) (a : Nat) : Option (List Nat) :=
  if a = 0 then some []
  else do
    let rest ← h |>.follow (h.node a).next
    return a :: rest
partial_fixpoint

/-- The first node from `a` on with an instruction, or else the last node. -/
def skip (h : Heap) (a : Nat) : Option Nat :=
  if (h.node a).next ≠ 0 ∧ (h.node a).instr.isNone then h |>.skip (h.node a).next else some a
partial_fixpoint

/-- Makes the jumps of the nodes from `a` on go past nodes without an instruction. -/
def retarget (h : Heap) (a : Nat) : Option Heap :=
  if a = 0 then some h
  else
    match (h.node a).instr.bind Instr.target? with
    | none => h |>.retarget (h.node a).next
    | some t => do
      let t ← h.skip t
      h.setTarget a t |>.retarget (h.node a).next
partial_fixpoint

/-- The first node from `a` on with an instruction, if there is one. -/
def skipFront (h : Heap) (a : Nat) : Option Nat :=
  if a ≠ 0 ∧ (h.node a).instr.isNone then h |>.skipFront (h.node a).next else some a
partial_fixpoint

/-- Takes the nodes without an instruction off that follow `a`, and gives them back. -/
def cutBehind (h : Heap) (a : Nat) : Option Heap :=
  let b := (h.node a).next
  if b ≠ 0 ∧ (h.node b).instr.isNone then (h.setNext a (h.node b).next).free b |>.cutBehind a
  else some h
partial_fixpoint

/-- Gives the nodes without an instruction back that come after `a`. -/
def strip (h : Heap) (a : Nat) : Option Heap :=
  if a = 0 then some h
  else do
    let h ← h.cutBehind a
    h |>.strip (h.node a).next
partial_fixpoint

end Heap

/-- A program whose instructions are nodes. -/
structure NodeProgram where
  /-- The first node, if there is one. -/
  head : Nat
  /-- The most bytes that its native code takes. -/
  size : Nat
  deriving DecidableEq, Repr

namespace NodeProgram

def empty : NodeProgram := ⟨0, 0⟩

/-- The program of the list from `a` on. Nodes without an instruction are taken off: those at the
front are lost, and the others are given back. -/
def ofList (h : Heap) (a size : Nat) : Option (NodeProgram × Heap) := do
  let head ← h.skipFront a
  if head = 0 then return (.empty, h)
  else
    let h ← h.strip head
    return (⟨head, size⟩, h)

/-- The program with its jumps by position. A jump to a node that is not on its list goes to the
end. -/
def read (p : NodeProgram) (h : Heap) : Option Program := do
  let as ← h.follow p.head
  let code := as.filterMap fun a => (h.node a).instr.map (·.mapTarget fun t => as.idxOf t)
  return ⟨code.toArray, p.size⟩

end NodeProgram

/-- The builder of a list. -/
structure NodeBuilder where
  heap : Heap
  head : Nat
  tail : Nat
  bytes : Nat
  /-- The most bytes that the program may take. -/
  limit : Option Nat
  /-- Has an instruction been dropped? -/
  exhausted : Bool
  /-- The number that placeholders in label names stand for. -/
  scope : Nat
  /-- The node of each label. -/
  labels : List (String × Nat)
  /-- The jumps to each name that no label has yet. -/
  pending : List (String × List Nat)

namespace NodeBuilder

/-- A builder that has nothing yet. -/
def create (h : Heap) : NodeBuilder := ⟨h, 0, 0, 0, none, false, 0, [], []⟩

/-- Limits the size of the program; nothing already added is dropped. -/
def setBudget (b : NodeBuilder) (limit : Option Nat) : NodeBuilder :=
  { b with limit := limit, exhausted := limit.any (· < b.bytes) }

/-- The bytes left, if there is a limit. -/
def available? (b : NodeBuilder) : Option Nat :=
  b.limit.map fun n => if b.exhausted then 0 else n - b.bytes

/-- Does the instruction still fit? -/
def fits (b : NodeBuilder) (n : Nat) : Bool :=
  match b.limit with
  | some limit => !b.exhausted && b.bytes + n ≤ limit
  | none => true

/-- The name with each placeholder replaced by the number of the scope. -/
def scopedName (b : NodeBuilder) (name : String) : String :=
  .ofList (Builder.fillIn (Text.decimal b.scope).toList name.toList)

/-- The node of a label, or none so far. -/
def target (b : NodeBuilder) (name : String) : Nat := (b.labels.lookup name).getD 0

/-- Puts a node at the end of the list. -/
def push (b : NodeBuilder) (a : Nat) : NodeBuilder :=
  if b.head = 0 then { b with head := a, tail := a }
  else { b with heap := b.heap.setNext b.tail a, tail := a }

/-- Adds one more jump to those that wait for a label. -/
def note (name : String) (a : Nat) : List (String × List Nat) → List (String × List Nat)
  | [] => [(name, [a])]
  | (x, jumps) :: rest =>
    if x = name then (x, jumps ++ [a]) :: rest else (x, jumps) :: note name a rest

/-- Notes the jump of a node, unless its name has a label. -/
def request (b : NodeBuilder) (name : String) (a : Nat) : NodeBuilder :=
  if (b.labels.lookup name).isSome then b else { b with pending := note name a b.pending }

/-- Appends an instruction, unless the budget is used up. -/
def add (b : NodeBuilder) (i : Instr String) : NodeBuilder :=
  let i := (Builder.clip i).mapTarget b.scopedName
  let (a, heap) := b.heap.alloc (some (i.mapTarget b.target))
  let b := { b with heap }
  let b := match i.target? with
    | some name => b.request name a
    | none => b
  if b.fits i.maxBytes then { b.push a with bytes := b.bytes + i.maxBytes }
  else { b with exhausted := true }

/-- Appends a node without an instruction, and returns it. -/
def nop (b : NodeBuilder) : Nat × NodeBuilder :=
  let (a, heap) := b.heap.alloc none
  (a, { b with heap }.push a)

/-- Starts a new scope for the placeholders in label names. -/
def mark (b : NodeBuilder) : NodeBuilder := { b with scope := b.scope + 1 }

/-- Appends a label, and makes the jumps that wait for it go there. -/
def label (b : NodeBuilder) (name : String) : Except BuildError NodeBuilder :=
  let name := b.scopedName name
  if (b.labels.lookup name).isSome then .error (.duplicateLabel name)
  else
    let (a, b) := b.nop
    let jumps := (b.pending.lookup name).getD []
    .ok { b with
      heap := jumps.foldl (fun h jump => h.setTarget jump a) b.heap
      labels := (name, a) :: b.labels
      pending := b.pending.eraseP (·.1 == name) }

/-- The program, in which jumps go to instructions. -/
def build (b : NodeBuilder) : Option (Except BuildError (NodeProgram × Heap)) :=
  match b.pending with
  | (name, _) :: _ => some (.error (.unresolvedLabel name))
  | [] => do
    let heap ← b.heap.retarget b.head
    let built ← NodeProgram.ofList heap b.head b.bytes
    return .ok built

end NodeBuilder

end Recompiler.Ir
