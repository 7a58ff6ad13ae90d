import Recompiler.Cpu.Layout
import Recompiler.Emit.Basic
import Recompiler.Interp.Basic
import Recompiler.Ir.Machine

/-!
Programs of traces on the guest CPU. A run alternates between the program and the services it
asks for, and is abandoned when a service raises an exception.
-/

namespace Recompiler

open Ir Emit

instance : Ir.Context Cpu where
  loadWord := Cpu.loadWord
  storeWord := Cpu.storeWord
  tableByte c _ page := if c.mem.codePages.getD page.toNat false then 1 else 0
  ram c := c.mem.ram
  mapRam f c := { c with mem := { c.mem with ram := f c.mem.ram } }

namespace Cpu

/-- The service that the running program asks for. -/
def requested? (c : Cpu) : Option Service := Service.ofId? c.frame.callId

/-- Performs a service for the running program. -/
def serve (c : Cpu) : Service → Cpu
  | .exec => (Interp.exec c ⟨c.frame.callOp⟩).2
  | .step => (Interp.step c).2

end Cpu

/-- What a program tells when it asks for a service. -/
structure ServiceCall where
  id : UInt32
  pc : UInt32
  op : Instr
  /-- The number of instructions up to and including this one. -/
  count : UInt32
  delay : UInt32
  deriving DecidableEq, Inhabited, Repr

namespace ServiceCall

def ofCpu (c : Cpu) : ServiceCall :=
  ⟨c.frame.callId, c.pc, ⟨c.frame.callOp⟩, c.frame.callCount, c.delay⟩

end ServiceCall

/-- A run of the program of one trace. -/
structure TraceRun where
  /-- The status of the last exit. -/
  status : Int
  /-- The services asked for, first one first. -/
  calls : Array ServiceCall
  cpu : Cpu

namespace Ir.Machine

/-- Runs a machine, resuming it after each service. There is no result if it never stops. -/
def resume (links : Links) (m : Machine Cpu) (calls : Array ServiceCall) :
    Option (Except LinkError TraceRun) :=
  match m.run links with
  | none => none
  | some (.error e, _) => some (.error e)
  | some (.ok status, m) =>
    if status = exitCall then
      let calls := calls.push (.ofCpu m.ctx)
      match m.ctx.requested? with
      | none => some (.ok ⟨status, calls, m.ctx⟩)
      | some service =>
        let cpu := m.ctx.serve service
        if cpu.leave ≠ 0 then some (.ok ⟨status, calls, cpu⟩)
        else { m with ctx := cpu } |>.resume links calls
    else some (.ok ⟨status, calls, m.ctx⟩)
partial_fixpoint

end Ir.Machine

namespace TraceRun

/-- Runs the program of a trace with every link cell empty. -/
def ofProgram (p : Program) (c : Cpu) : Except LinkError TraceRun :=
  (Machine.resume .none (.start p c) #[]).getD (.error .endless)

end TraceRun

end Recompiler
