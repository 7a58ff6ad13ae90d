import Recompiler.Interp.Alu
import Recompiler.Interp.Fp
import Recompiler.Interp.Memory

/-!
The interpreter. `Interp.exec` runs one instruction without moving the program counter,
`Interp.step` one instruction with its delay slot.
-/

namespace Recompiler.Interp

/-- Where an instruction wants control to go. -/
structure Branch where
  taken : Bool
  likely : Bool
  target : UInt32
  deriving DecidableEq, Repr

/-- Writes the return address of a branch at `pc`. -/
def link (c : Cpu) (r : Reg) (pc : UInt32) : Cpu :=
  c.setReg r (sextWord (pc + 8))

def relative (i : Instr) (pc : UInt32) (taken : Bool) : Branch :=
  ⟨taken, i.isLikely, i.branchTarget pc⟩

/-- A branch reads its operands before it links. -/
def branch? (c : Cpu) (i : Instr) (pc : UInt32) : Option Branch :=
  let rs := c.reg i.rs
  match i.kind with
  | .j | .jal => some ⟨true, false, i.jumpTarget pc⟩
  | .jr | .jalr => some ⟨true, false, rs.toUInt32⟩
  | .branchEq .eq _ => some (relative i pc (rs == c.reg i.rt))
  | .branchEq .ne _ => some (relative i pc (rs != c.reg i.rt))
  | .branchZero .lez _ => some (relative i pc (!slt64 0 rs))
  | .branchZero .gtz _ => some (relative i pc (slt64 0 rs))
  | .branchSign .ltz _ _ => some (relative i pc (signBit64 rs))
  | .branchSign .gez _ _ => some (relative i pc (!signBit64 rs))
  | .branchFp =>
    some (relative i pc ((c.fcr31 &&& FpControl.condition != 0) == (i.rt.val % 2 == 1)))
  | _ => none

/-- The effect of an instruction at `pc`, other than where control goes. -/
def effect (c : Cpu) (i : Instr) (pc : UInt32) : Cpu :=
  let rt := c.reg i.rt
  match i.kind with
  | .shift op amount width => execShift c i op amount width
  | .alu op => execAlu c i op
  | .imm op => execImm c i op
  | .mulDiv op => execMulDiv c i op
  | .mfhi => c.setReg i.rd c.hi
  | .mflo => c.setReg i.rd c.lo
  | .mthi => { c with hi := c.reg i.rs }
  | .mtlo => { c with lo := c.reg i.rs }
  | .jal | .branchSign _ true _ => link c .ra pc
  | .jalr => link c i.rd pc
  | .j | .jr | .branchEq .. | .branchZero .. | .branchSign _ false _ | .branchFp => c
  | .syscall => c.raise .syscall
  | .breakpoint => c.raise .breakpoint
  | .sync | .cache => c
  | .trap cond => execTrap c cond (c.reg i.rs) rt
  | .trapImm cond => execTrap c cond (c.reg i.rs) i.simm
  | .load op => execLoad c i op
  | .store size => execStore c i size
  | .loadPart side width => execLoadPart c i side width
  | .storePart side width => execStorePart c i side width
  | .loadLinked width => execLoadLinked c i width
  | .storeConditional width => execStoreConditional c i width
  | .loadFp width => execLoadFp c i width
  | .storeFp width => execStoreFp c i width
  | .mfc0 .word => c.setReg i.rt (sext32 (c.readCop0 i.rd))
  | .mfc0 .double => c.setReg i.rt (c.readCop0 i.rd)
  | .mtc0 .word => c.writeCop0 i.rd (sext32 rt)
  | .mtc0 .double => c.writeCop0 i.rd rt
  | .system op => execSystem c op
  | .systemAlias (some op) => execSystem c op
  | .systemAlias none => c
  | .mfc1 .word => c.setReg i.rt (sextWord (c.single i.fs))
  | .mfc1 .double => c.setReg i.rt (c.double i.fs)
  | .mtc1 .word => c.setSingle i.fs rt.toUInt32
  | .mtc1 .double => c.setDouble i.fs rt
  | .cfc1 => c.setReg i.rt (sextWord (readControl c i.fs))
  | .ctc1 => writeControl c i.fs rt.toUInt32
  | .fp format op => execFp c i format op
  | .reserved => c.raise .reserved

/-- Executes an instruction at the program counter, without moving it. The flag is false if
an exception was raised or returned from; the program counter is then at the handler. -/
def exec (c : Cpu) (i : Instr) : Bool × Cpu :=
  let c := effect { c with leave := 0 } i c.pc
  (c.leave == 0, c)

/-- Runs the delay slot of a branch at `pc` and then transfers control. -/
def finishBranch (c : Cpu) (pc : UInt32) (b : Branch) : Nat × Cpu :=
  if !b.taken && b.likely then (1, { c with pc := pc + 8 })
  else
    let c := { c with pc := pc + 4, delay := 1 }
    let c := match c.fetch (pc + 4) with
      | (some slot, c) => effect c slot (pc + 4)
      | (none, c) => c
    if c.leave != 0 then (2, c)
    else (2, { c with delay := 0, pc := if b.taken then b.target else pc + 8 })

/-- Executes the instruction at the program counter, together with its delay slot if it is a
branch, and returns the number of instructions executed. -/
def step (c : Cpu) : Nat × Cpu :=
  let pc := c.pc
  match { c with leave := 0, delay := 0 }.fetch pc with
  | (none, c) => (0, c)
  | (some i, c) =>
    let b := branch? c i pc
    let c := effect c i pc
    if c.leave != 0 then (1, c)
    else
      match b with
      | none => (1, { c with pc := pc + 4 })
      | some b => finishBranch c pc b

end Recompiler.Interp
