import Recompiler.Emit.Run
import Recompiler.Proofs.Results

/-!
The frame, through which a running program and its host exchange words. It is theirs: the CPU
neither reads nor writes it.
-/

namespace Recompiler

open Ir Emit

namespace Cpu

def framed (c : Cpu) (f : Frame) : Cpu := { c with frame := f }

@[simp] theorem framed_frame (c : Cpu) : c.framed c.frame = c := rfl

variable (c : Cpu) (f : Frame)

@[simp] theorem reg_framed (r : Reg) : (c.framed f).reg r = c.reg r := rfl

@[simp] theorem sysReg_framed (r : Reg) : (c.framed f).sysReg r = c.sysReg r := by rfl

@[simp] theorem status_framed : (c.framed f).status = c.status := by rfl

@[simp] theorem cause_framed : (c.framed f).cause = c.cause := by rfl

@[simp] theorem pc_framed : (c.framed f).pc = c.pc := by rfl

@[simp] theorem delay_framed : (c.framed f).delay = c.delay := by rfl

@[simp] theorem mem_framed : (c.framed f).mem = c.mem := rfl

@[simp] theorem leave_framed : (c.framed f).leave = c.leave := rfl

@[simp] theorem setReg_framed (r : Reg) (v : UInt64) :
    (c.framed f).setReg r v = (c.setReg r v).framed f := by
  unfold setReg
  split <;> rfl

@[simp] theorem emit_framed (e : Effect) : (c.framed f).emit e = (c.emit e).framed f := rfl

@[simp] theorem setSysReg_framed (r : Reg) (v : UInt64) :
    (c.framed f).setSysReg r v = (c.setSysReg r v).framed f := by rfl

theorem depart_framed (pc : UInt32) :
    { c.framed f with pc := pc, delay := 0, leave := 1 } =
      Cpu.framed { c with pc := pc, delay := 0, leave := 1 } f := rfl

@[simp] theorem enter_framed (code : UInt32) (refill : Bool) :
    (c.framed f).enter code refill = (c.enter code refill).framed f := by
  by_cases h : (c.status &&& StatusBit.exl != 0) = true
  · simp only [enter, status_framed, cause_framed, sysReg_framed, setSysReg_framed, h, reduceIte]
    exact depart_framed _ f _
  · simp only [enter, status_framed, cause_framed, delay_framed, pc_framed, sysReg_framed,
      setSysReg_framed, h, Bool.false_eq_true, reduceIte]
    exact depart_framed _ f _

@[simp] theorem raise_framed (e : Exception) : (c.framed f).raise e = (c.raise e).framed f := by
  unfold raise
  rw [enter_framed]

@[simp] theorem raiseRefill_framed (vaddr : UInt32) (write : Bool) :
    (c.framed f).raiseRefill vaddr write = (c.raiseRefill vaddr write).framed f := by
  unfold raiseRefill
  rw [← enter_framed]
  rfl

@[simp] theorem raiseTlb_framed (vaddr : UInt32) (e : Exception) :
    (c.framed f).raiseTlb vaddr e = (c.raiseTlb vaddr e).framed f := by
  unfold raiseTlb
  rw [← raise_framed]
  rfl

@[simp] theorem raiseAddressError_framed (vaddr : UInt32) (write : Bool) :
    (c.framed f).raiseAddressError vaddr write = (c.raiseAddressError vaddr write).framed f := by
  unfold raiseAddressError
  rw [setSysReg_framed, raise_framed]

@[simp] theorem eret_framed : (c.framed f).eret = c.eret.framed f := by
  unfold eret
  rw [status_framed]
  by_cases h : (c.status &&& StatusBit.erl != 0) = true
  · simp only [h, reduceIte]
    rfl
  · simp only [h, Bool.false_eq_true, reduceIte]
    rfl

@[simp] theorem lookup_framed (vaddr : UInt32) (write : Bool) :
    (c.framed f).lookup vaddr write = c.lookup vaddr write := rfl

@[simp] theorem physical?_framed (vaddr : UInt32) (write : Bool) :
    (c.framed f).physical? vaddr write = c.physical? vaddr write := rfl

@[simp] theorem tlbIndex?_framed (vaddr asid : UInt32) :
    (c.framed f).tlbIndex? vaddr asid = c.tlbIndex? vaddr asid := rfl

theorem toPhysical_framed (vaddr : UInt32) (write : Bool) :
    (c.framed f).toPhysical vaddr write =
      (c.toPhysical vaddr write).map id (·.framed f) := by
  unfold toPhysical
  rw [lookup_framed]
  split <;> simp

theorem readPhys_framed (paddr : UInt32) (size : Size) :
    (c.framed f).readPhys paddr size = (c.readPhys paddr size).map id (·.framed f) := by
  unfold readPhys
  rw [mem_framed]
  split <;> rfl

@[simp] theorem writePhys_framed (paddr : UInt32) (size : Size) (v : UInt64) :
    (c.framed f).writePhys paddr size v = (c.writePhys paddr size v).framed f := by
  unfold writePhys
  rw [mem_framed]
  cases c.mem.deviceAt? paddr with
  | some d => rfl
  | none =>
    by_cases h : c.mem.inRam paddr size.bytes = true
    · simp only [h, reduceIte]
      split <;> rfl
    · simp only [h, Bool.false_eq_true, reduceIte]

theorem load_framed (vaddr : UInt32) (size : Size) :
    (c.framed f).load vaddr size = (c.load vaddr size).map id (·.framed f) := by
  unfold load
  split
  · rw [toPhysical_framed]
    rcases c.toPhysical vaddr false with ⟨_ | paddr, c'⟩
    · rfl
    · simp only [Prod.map_apply, id_eq, readPhys_framed]
      rfl
  · simp

theorem store_framed (vaddr : UInt32) (size : Size) (v : UInt64) :
    (c.framed f).store vaddr size v = (c.store vaddr size v).map id (·.framed f) := by
  unfold store
  split
  · rw [toPhysical_framed]
    rcases c.toPhysical vaddr true with ⟨_ | paddr, c'⟩
    · rfl
    · simp
  · simp

theorem fetch_framed (vaddr : UInt32) :
    (c.framed f).fetch vaddr = (c.fetch vaddr).map id (·.framed f) := by
  unfold fetch
  rw [load_framed]
  rcases c.load vaddr .word with ⟨_ | v, c'⟩ <;> rfl

@[simp] theorem writeCop0_framed (r : Reg) (v : UInt64) :
    (c.framed f).writeCop0 r v = (c.writeCop0 r v).framed f := by
  have hstatus : (c.framed f).writeStatus v.toUInt32 = (c.writeStatus v.toUInt32).framed f := by
    unfold writeStatus
    by_cases h : c.status = v.toUInt32 <;> simp [h]
  unfold writeCop0
  simp only [sysReg_framed, setSysReg_framed, hstatus]
  repeat' split
  all_goals rfl

@[simp] theorem setSingle_framed (r : Reg) (v : UInt32) :
    (c.framed f).setSingle r v = (c.setSingle r v).framed f := rfl

@[simp] theorem setDouble_framed (r : Reg) (v : UInt64) :
    (c.framed f).setDouble r v = (c.setDouble r v).framed f := rfl

end Cpu

namespace Interp

variable (c : Cpu) (f : Frame) (i : Instr)

@[simp] theorem effective_framed : effective (c.framed f) i = effective c i := rfl

theorem execSystem_framed (op : SystemOp) :
    execSystem (c.framed f) op = (execSystem c op).framed f := by
  cases op with
  | tlbr | tlbwi | tlbwr => rfl
  | tlbp =>
    change (c.framed f).tlbProbe = c.tlbProbe.framed f
    unfold Cpu.tlbProbe
    simp only [Cpu.sysReg_framed, Cpu.tlbIndex?_framed]
    split <;> rfl
  | eret => exact Cpu.eret_framed c f

theorem execFp_framed (format : FpFormat) (op : FpOp) :
    execFp (c.framed f) i format op = (execFp c i format op).framed f := by
  have hconvert (v : Nat) : execConvert (c.framed f) i op v = (execConvert c i op v).framed f := by
    unfold execConvert
    split <;> first | rfl | exact Cpu.raise_framed c f _
  have hinteger (n : Int) : execInteger (c.framed f) i op n = (execInteger c i op n).framed f := by
    unfold execInteger
    split
    · exact hconvert _
    · exact hconvert _
    · exact Cpu.raise_framed c f _
  cases format with
  | single =>
    change execSingle (c.framed f) i op = (execSingle c i op).framed f
    unfold execSingle
    split <;> first | rfl | exact hconvert _
  | double =>
    change execDouble (c.framed f) i op = (execDouble c i op).framed f
    unfold execDouble
    split <;> first | rfl | exact hconvert _
  | word | long => exact hinteger _

theorem writeUnless_framed (r : Reg) (overflow : Bool) (v : UInt64) :
    writeUnless (c.framed f) r overflow v = (writeUnless c r overflow v).framed f := by
  unfold writeUnless
  split <;> simp

theorem execTrap_framed (cond : TrapCond) (x y : UInt64) :
    execTrap (c.framed f) cond x y = (execTrap c cond x y).framed f := by
  unfold execTrap
  split <;> simp

theorem execLoad_framed (op : LoadOp) :
    execLoad (c.framed f) i op = (execLoad c i op).framed f := by
  unfold execLoad
  rw [effective_framed, Cpu.load_framed]
  rcases c.load (effective c i) (loadSize op) with ⟨_ | v, c'⟩ <;> simp

theorem execStore_framed (size : Size) :
    execStore (c.framed f) i size = (execStore c i size).framed f := by
  unfold execStore
  rw [effective_framed, Cpu.reg_framed, Cpu.store_framed]
  rfl

theorem execLoadPart_framed (side : Side) (width : Width) :
    execLoadPart (c.framed f) i side width = (execLoadPart c i side width).framed f := by
  unfold execLoadPart
  simp only [effective_framed, Cpu.load_framed]
  rcases c.load (container (effective c i) width) (widthSize width) with ⟨_ | v, c'⟩
  · rfl
  · cases width <;> simp

theorem execStorePart_framed (side : Side) (width : Width) :
    execStorePart (c.framed f) i side width = (execStorePart c i side width).framed f := by
  unfold execStorePart
  simp only [effective_framed, Cpu.load_framed]
  rcases c.load (container (effective c i) width) (widthSize width) with ⟨_ | v, c'⟩
  · rfl
  · simp [Cpu.store_framed]

theorem execLoadLinked_framed (width : Width) :
    execLoadLinked (c.framed f) i width = (execLoadLinked c i width).framed f := by
  unfold execLoadLinked
  simp only [effective_framed, Cpu.load_framed]
  rcases c.load (effective c i) (widthSize width) with ⟨_ | v, c'⟩
  · rfl
  · simp only [Prod.map_apply, id_eq, Cpu.physical?_framed, Cpu.setReg_framed,
      Cpu.setSysReg_framed]
    rfl

theorem execStoreConditional_framed (width : Width) :
    execStoreConditional (c.framed f) i width = (execStoreConditional c i width).framed f := by
  unfold execStoreConditional
  rw [effective_framed, Cpu.reg_framed, Cpu.store_framed, Cpu.setReg_framed]
  by_cases h : c.llBit = 0
  · rw [if_pos h, if_pos (show (c.framed f).llBit = 0 from h)]
  · rw [if_neg h, if_neg (show (c.framed f).llBit ≠ 0 from h)]
    rcases c.store (effective c i) (widthSize width) (c.reg i.rt) with ⟨_ | _, c'⟩
    · rfl
    · exact Cpu.setReg_framed { c' with llBit := 0 } f i.rt 1

theorem execLoadFp_framed (width : Width) :
    execLoadFp (c.framed f) i width = (execLoadFp c i width).framed f := by
  unfold execLoadFp
  rw [effective_framed, Cpu.load_framed]
  rcases c.load (effective c i) (widthSize width) with ⟨_ | v, c'⟩
  · rfl
  · cases width <;> rfl

theorem execStoreFp_framed (width : Width) :
    execStoreFp (c.framed f) i width = (execStoreFp c i width).framed f := by
  unfold execStoreFp
  rw [effective_framed]
  cases width <;> exact congrArg Prod.snd (Cpu.store_framed c f _ _ _)

/-- The effect of an instruction is that of the CPU. -/
theorem effect_framed (pc : UInt32) : effect (c.framed f) i pc = (effect c i pc).framed f := by
  have hreg (r : Reg) (v : UInt64) := Cpu.setReg_framed c f r v
  unfold effect
  simp only [Cpu.reg_framed]
  cases i.kind with
  | shift op amount width => exact hreg _ _
  | alu op =>
    simp only [execAlu_eq, Cpu.reg_framed]
    exact writeUnless_framed c f _ _ _
  | imm op =>
    simp only [execImm_eq, Cpu.reg_framed]
    exact writeUnless_framed c f _ _ _
  | mulDiv op | mthi | mtlo | j | jr | branchEq | branchZero | branchFp | sync | cache => rfl
  | mfhi | mflo | jal | jalr | cfc1 => exact hreg _ _
  | branchSign cond link likely =>
    cases link with
    | true => exact hreg _ _
    | false => rfl
  | syscall | breakpoint | reserved => exact Cpu.raise_framed c f _
  | trap cond | trapImm cond => exact execTrap_framed c f cond _ _
  | load op => exact execLoad_framed c f i op
  | store size => exact execStore_framed c f i size
  | loadPart side width => exact execLoadPart_framed c f i side width
  | storePart side width => exact execStorePart_framed c f i side width
  | loadLinked width => exact execLoadLinked_framed c f i width
  | storeConditional width => exact execStoreConditional_framed c f i width
  | loadFp width => exact execLoadFp_framed c f i width
  | storeFp width => exact execStoreFp_framed c f i width
  | mfc0 width => cases width <;> exact hreg _ _
  | mtc0 width => cases width <;> exact Cpu.writeCop0_framed c f _ _
  | system op => exact execSystem_framed c f op
  | systemAlias op =>
    cases op with
    | none => rfl
    | some op => exact execSystem_framed c f op
  | mfc1 width => cases width <;> exact hreg _ _
  | mtc1 width => cases width <;> rfl
  | ctc1 =>
    unfold writeControl
    dsimp only
    split <;> rfl
  | fp format op => exact execFp_framed c f i format op

def effectAt (c : Cpu) (pc : UInt32) : Cpu :=
  match c.fetch pc with
  | (some i, c) => effect c i pc
  | (none, c) => c

theorem effectAt_framed (pc : UInt32) : effectAt (c.framed f) pc = (effectAt c pc).framed f := by
  unfold effectAt
  rw [Cpu.fetch_framed]
  rcases c.fetch pc with ⟨_ | i, c'⟩
  · rfl
  · exact effect_framed c' f i pc

def landed (c : Cpu) (target : UInt32) : Nat × Cpu :=
  if c.leave != 0 then (2, c) else (2, { c with delay := 0, pc := target })

theorem landed_framed (target : UInt32) :
    landed (c.framed f) target = (landed c target).map id (·.framed f) := by
  unfold landed
  rw [Cpu.leave_framed]
  split <;> rfl

theorem finishBranch_framed (pc : UInt32) (b : Branch) :
    finishBranch (c.framed f) pc b = (finishBranch c pc b).map id (·.framed f) := by
  have heq (c : Cpu) : finishBranch c pc b =
      if !b.taken && b.likely then (1, { c with pc := pc + 8 })
      else landed (effectAt { c with pc := pc + 4, delay := 1 } (pc + 4))
        (if b.taken then b.target else pc + 8) := rfl
  rw [heq, heq]
  split
  · rfl
  · have h := effectAt_framed { c with pc := pc + 4, delay := 1 } f (pc + 4)
    exact (congrArg (landed · _) h).trans (landed_framed _ f _)

/-- An instruction that has been executed, with its delay slot still to come if it is a branch. -/
def finish (c : Cpu) (pc : UInt32) (b : Option Branch) : Nat × Cpu :=
  if c.leave != 0 then (1, c)
  else
    match b with
    | none => (1, { c with pc := pc + 4 })
    | some b => finishBranch c pc b

theorem finish_framed (pc : UInt32) (b : Option Branch) :
    finish (c.framed f) pc b = (finish c pc b).map id (·.framed f) := by
  unfold finish
  rw [Cpu.leave_framed]
  split
  · rfl
  · cases b with
    | none => rfl
    | some b => exact finishBranch_framed c f pc b

def stepFetched (pc : UInt32) (r : Option Instr × Cpu) : Nat × Cpu :=
  r.1.elim (0, r.2) fun i => finish (effect r.2 i pc) pc (branch? r.2 i pc)

theorem stepFetched_framed (pc : UInt32) (r : Option Instr × Cpu) :
    stepFetched pc (r.map id (·.framed f)) = (stepFetched pc r).map id (·.framed f) := by
  obtain ⟨_ | i, c⟩ := r
  · rfl
  · change finish (effect (c.framed f) i pc) pc (branch? c i pc) = _
    rw [effect_framed]
    exact finish_framed _ f pc _

theorem step_eq_stepFetched :
    step c = stepFetched c.pc (({ c with leave := 0, delay := 0 } : Cpu).fetch c.pc) := by
  unfold step
  dsimp only
  rcases ({ c with leave := 0, delay := 0 } : Cpu).fetch c.pc with ⟨_ | i, c'⟩ <;> rfl

theorem step_framed : step (c.framed f) = (step c).map id (·.framed f) := by
  have h := Cpu.fetch_framed { c with leave := 0, delay := 0 } f c.pc
  rw [step_eq_stepFetched, step_eq_stepFetched, ← stepFetched_framed, ← h]
  rfl

end Interp

theorem Cpu.serve_framed (c : Cpu) {f : Frame} (h : f.callOp = c.frame.callOp)
    (service : Service) : (c.framed f).serve service = (c.serve service).framed f := by
  cases service with
  | exec =>
    unfold serve Interp.exec
    rw [show (c.framed f).frame.callOp = c.frame.callOp from h]
    exact Interp.effect_framed { c with leave := 0 } f _ c.pc
  | step =>
    unfold serve
    rw [Interp.step_framed]
    rfl

end Recompiler
