import Recompiler.Ir.Machine
import Recompiler.Ir.Nodes

/-!
The machine that runs programs node by node.
-/

namespace Recompiler.Ir

/-- The link cells, by number, and the nodes that their contents stand for. -/
structure NodeLinks where
  cell : Int → Nat
  /-- The first node of the program of an entry, if it is still there. -/
  resolve : Option (Nat → Nat)

structure Emulator (σ : Type) where
  heap : Heap
  /-- The next node; the program has ended if there is none. -/
  pc : Nat
  regs : Vector UInt32 16
  fregs : Vector UInt64 8
  ctx : σ

namespace Emulator

variable {σ : Type}

/-- An emulator at the first instruction of a program. -/
def start (h : Heap) (p : NodeProgram) (ctx : σ) : Emulator σ :=
  ⟨h, p.head, Vector.replicate 16 0, Vector.replicate 8 0, ctx⟩

def goto (e : Emulator σ) (a : Nat) : Emulator σ := { e with pc := a }

/-- The machine that executes single instructions. -/
def bare (e : Emulator σ) : Machine σ := ⟨.empty, 0, e.regs, e.fregs, e.ctx⟩

/-- The emulator with the registers and the context of a machine. -/
def put (e : Emulator σ) (m : Machine σ) : Emulator σ :=
  { e with regs := m.regs, fregs := m.fregs, ctx := m.ctx }

/-- The node after the next one. -/
def after (e : Emulator σ) : Nat := (e.heap.node e.pc).next

/-- Continues with the program in a link cell; an empty cell falls through. -/
def follow (e : Emulator σ) (links : NodeLinks) (cell : Int) :
    Emulator σ ⊕ (Except LinkError Int × Emulator σ) :=
  let entry := links.cell cell
  if entry = 0 then .inl (e.goto e.after)
  else
    match links.resolve with
    | none => .inr (.error .noResolver, e)
    | some resolve =>
      if resolve entry = 0 then .inr (.error (.deadTrace cell entry), e)
      else .inl (e.goto (resolve entry))

variable [Context σ]

/-- One node, or the end. A node without an instruction does nothing. -/
def step (links : NodeLinks) (e : Emulator σ) :
    Emulator σ ⊕ (Except LinkError Int × Emulator σ) :=
  if e.pc = 0 then .inr (.ok 0, e)
  else
    match (e.heap.node e.pc).instr with
    | none => .inl (e.goto e.after)
    | some i =>
      let (m, next) := e.bare.exec i
      let e := e.put m
      match next with
      | .advance => .inl (e.goto e.after)
      | .jump target => .inl (e.goto target)
      | .call resume => .inr (.ok exitCall, e.goto resume)
      | .link cell => e.follow links cell
      | .exit status => .inr (.ok status, e.goto 0)

/-- Runs until the program exits, ends or asks for a service. -/
def run (links : NodeLinks) (e : Emulator σ) : Option (Except LinkError Int × Emulator σ) :=
  match e.step links with
  | .inl e => e |>.run links
  | .inr r => some r
partial_fixpoint

end Emulator

end Recompiler.Ir
