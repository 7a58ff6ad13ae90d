import Recompiler.Ir.Emulator

/-!
A small context for programs that run on their own: a header of 64 bytes, a pointer to a table
of 16 bytes, 32 words, and 256 bytes of RAM.
-/

namespace Recompiler.Ir

structure Scratch where
  /-- The words of the context, the header first. -/
  words : Array UInt32
  ram : Array UInt32
  deriving Inhabited, Repr

namespace Scratch

def headerWords : Nat := 18

def wordCount : Nat := 32

def ramSize : Nat := 256

/-- The table that the context points to. -/
def table : Array UInt8 := #[0, 1, 0, 1, 2, 3, 5, 8, 13, 21, 34, 55, 89, 144, 233, 255]

/-- A context with the given first words and first bytes of RAM, and zero elsewhere. -/
def create (words : List UInt32) (ram : List UInt8) : Scratch where
  words := (Array.replicate headerWords 0 ++ (words.take wordCount).toArray)
    ++ Array.replicate (wordCount - words.length) 0
  ram := HostRam.ofBytes ramSize ram

instance : Context Scratch where
  loadWord s off := if off < 0 then 0 else HostRam.word s.words off.toNat
  storeWord s off v :=
    if off < 0 then s else { s with words := HostRam.setWord s.words off.toNat v }
  tableByte _ _ i := table.getD i.toNat 0
  ram s := s.ram
  mapRam f s := { s with ram := f s.ram }

def userWords (s : Scratch) : List UInt32 := s.words.toList.drop headerWords

/-- The save area of the header. -/
def saveArea (s : Scratch) : List UInt32 := (s.words.toList.drop 6).take HostReg.count

def callId (s : Scratch) : UInt32 := s.words.getD 4 0

end Scratch

/-- What a run on its own gives. -/
structure ScratchRun where
  status : Int
  /-- The services asked for, in order. -/
  calls : List UInt32
  regs : Vector UInt32 16
  fregs : Vector UInt64 8
  ctx : Scratch

namespace ScratchRun

variable {α : Type}

/-- Runs a program, resuming it after each service, at most `limit` times. -/
def resume (run : α → Option (Except LinkError Int × α)) (ctx : α → Scratch) :
    Nat → α → List UInt32 → Except LinkError (Int × List UInt32 × α)
  | limit, m, calls =>
    match run m with
    | none => .error .endless
    | some (.error e, _) => .error e
    | some (.ok status, m) =>
      if status = exitCall then
        let calls := calls ++ [(ctx m).callId]
        match limit with
        | 0 => .ok (status, calls, m)
        | limit + 1 => resume run ctx limit m calls
      else .ok (status, calls, m)

/-- Runs a program on its own. -/
def ofProgram (p : Program) (links : Links) (ctx : Scratch) : Except LinkError ScratchRun := do
  let (status, calls, m) ← resume (·.run links) Machine.ctx 64 (.start p ctx) []
  return ⟨status, calls, m.regs, m.fregs, m.ctx⟩

/-- Runs a program on its own, node by node. -/
def ofList (h : Heap) (p : NodeProgram) (links : NodeLinks) (ctx : Scratch) :
    Except LinkError ScratchRun := do
  let (status, calls, e) ← resume (·.run links) Emulator.ctx 64 (.start h p ctx) []
  return ⟨status, calls, e.regs, e.fregs, e.ctx⟩

end ScratchRun

end Recompiler.Ir
