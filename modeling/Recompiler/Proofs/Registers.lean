import Mathlib
import Recompiler.Interp.Basic

/-!
The general registers and the multiply unit across the operations of the CPU. Everything but
the instructions that write them leaves them alone, together with the devices.
-/

namespace Vector

@[simp]
theorem put_get_self {α : Type} {n : Nat} (xs : Vector α n) (i : Fin n) :
    xs.put i (xs.get i) = xs := by
  change xs.set i.val xs[i.val] i.isLt = xs
  exact Vector.set_getElem_self i.isLt

end Vector

namespace Recompiler

namespace Cpu

@[simp] theorem setReg_zero (c : Cpu) (v : UInt64) : c.setReg .zero v = c := rfl

theorem setReg_of_ne {c : Cpu} {r : Reg} {v : UInt64} (h : r ≠ .zero) :
    c.setReg r v = { c with gpr := c.gpr.put r v } :=
  if_neg h

@[simp] theorem setReg_reg_self (c : Cpu) (r : Reg) : c.setReg r (c.reg r) = c := by
  unfold setReg
  split
  · rfl
  · rw [reg, Vector.put_get_self]

theorem reg_setReg_self {c : Cpu} {r : Reg} {v : UInt64} (h : r ≠ .zero) :
    (c.setReg r v).reg r = v := by
  rw [setReg_of_ne h]
  exact Vector.get_put_self _ _ _

theorem reg_setReg_of_ne {c : Cpu} {r s : Reg} {v : UInt64} (h : r ≠ s) :
    (c.setReg r v).reg s = c.reg s := by
  unfold setReg
  split
  · rfl
  · exact Vector.get_put_of_ne _ _ h

@[simp] theorem setReg_leave (c : Cpu) (r : Reg) (v : UInt64) :
    (c.setReg r v).leave = c.leave := by
  unfold setReg
  split <;> rfl

/-- The registers of the integer unit and the devices are those of `c`. -/
structure SameRegs (c d : Cpu) : Prop where
  gpr : d.gpr = c.gpr
  hi : d.hi = c.hi
  lo : d.lo = c.lo
  devices : d.mem.devices = c.mem.devices

namespace SameRegs

theorem refl (c : Cpu) : SameRegs c c := ⟨rfl, rfl, rfl, rfl⟩

theorem trans {c d e : Cpu} (h : SameRegs c d) (h' : SameRegs d e) : SameRegs c e :=
  ⟨h'.gpr.trans h.gpr, h'.hi.trans h.hi, h'.lo.trans h.lo, h'.devices.trans h.devices⟩

theorem reg {c d : Cpu} (h : SameRegs c d) (r : Reg) : d.reg r = c.reg r :=
  congrArg (fun v => Vector.get v r) h.gpr

theorem setReg {c d : Cpu} (h : SameRegs c d) (r : Reg) (v : UInt64) :
    SameRegs (c.setReg r v) (d.setReg r v) := by
  unfold Cpu.setReg
  split
  · exact h
  · exact ⟨congrArg (·.put r v) h.gpr, h.hi, h.lo, h.devices⟩

end SameRegs

theorem sameRegs_setSysReg (c : Cpu) (r : Reg) (v : UInt64) : SameRegs c (c.setSysReg r v) :=
  ⟨rfl, rfl, rfl, rfl⟩

theorem sameRegs_emit (c : Cpu) (e : Effect) : SameRegs c (c.emit e) := ⟨rfl, rfl, rfl, rfl⟩

theorem sameRegs_enter (c : Cpu) (code : UInt32) (refill : Bool) :
    SameRegs c (c.enter code refill) := by
  unfold enter
  constructor <;> · dsimp only; split <;> rfl

@[simp] theorem enter_leave (c : Cpu) (code : UInt32) (refill : Bool) :
    (c.enter code refill).leave = 1 := rfl

theorem sameRegs_raise (c : Cpu) (e : Exception) : SameRegs c (c.raise e) :=
  sameRegs_enter c e.code false

@[simp] theorem raise_leave (c : Cpu) (e : Exception) : (c.raise e).leave = 1 := rfl

theorem sameRegs_setBadAddress (c : Cpu) (vaddr : UInt32) : SameRegs c (c.setBadAddress vaddr) :=
  ⟨rfl, rfl, rfl, rfl⟩

theorem sameRegs_raiseRefill (c : Cpu) (vaddr : UInt32) (write : Bool) :
    SameRegs c (c.raiseRefill vaddr write) :=
  (sameRegs_setBadAddress c vaddr).trans (sameRegs_enter _ _ _)

theorem sameRegs_raiseTlb (c : Cpu) (vaddr : UInt32) (e : Exception) :
    SameRegs c (c.raiseTlb vaddr e) :=
  (sameRegs_setBadAddress c vaddr).trans (sameRegs_raise _ _)

theorem sameRegs_raiseAddressError (c : Cpu) (vaddr : UInt32) (write : Bool) :
    SameRegs c (c.raiseAddressError vaddr write) :=
  (sameRegs_setSysReg c _ _).trans (sameRegs_raise _ _)

theorem sameRegs_eret (c : Cpu) : SameRegs c c.eret := by
  unfold eret
  constructor <;> · dsimp only; split <;> rfl

theorem sameRegs_toPhysical (c : Cpu) (vaddr : UInt32) (write : Bool) :
    SameRegs c (c.toPhysical vaddr write).2 := by
  unfold toPhysical
  split
  · exact .refl c
  · exact sameRegs_raiseRefill c vaddr write
  · exact sameRegs_raiseTlb c vaddr _
  · exact sameRegs_raiseTlb c vaddr _

theorem toPhysical_none {c c' : Cpu} {vaddr : UInt32} {write : Bool}
    (h : c.toPhysical vaddr write = (none, c')) : c'.leave = 1 := by
  unfold toPhysical at h
  split at h <;> cases h <;> rfl

theorem toPhysical_some {c c' : Cpu} {vaddr paddr : UInt32} {write : Bool}
    (h : c.toPhysical vaddr write = (some paddr, c')) : c' = c := by
  unfold toPhysical at h
  split at h <;> cases h
  rfl

theorem sameRegs_readPhys (c : Cpu) (paddr : UInt32) (size : Size) :
    SameRegs c (c.readPhys paddr size).2 := by
  unfold readPhys
  split
  · exact sameRegs_emit c _
  · exact .refl c

@[simp] theorem devices_setWordAt (m : Memory) (i : Nat) (v : UInt32) :
    (m.setWordAt i v).devices = m.devices := rfl

@[simp] theorem devices_writeRam (m : Memory) (paddr : UInt32) (size : Size) (v : UInt64) :
    (m.writeRam paddr size v).devices = m.devices := by
  unfold Memory.writeRam
  split
  · cases size <;> rfl
  · rfl

theorem sameRegs_writePhys (c : Cpu) (paddr : UInt32) (size : Size) (v : UInt64) :
    SameRegs c (c.writePhys paddr size v) := by
  unfold writePhys
  split
  · exact sameRegs_emit c _
  · split
    · have h : SameRegs c { c with mem := c.mem.writeRam paddr size v } :=
        ⟨rfl, rfl, rfl, devices_writeRam ..⟩
      dsimp only
      split
      · exact h.trans (sameRegs_emit _ _)
      · exact h
    · exact .refl c

theorem writePhys_leave (c : Cpu) (paddr : UInt32) (size : Size) (v : UInt64) :
    (c.writePhys paddr size v).leave = c.leave := by
  unfold writePhys
  split
  · rfl
  · split
    · dsimp only
      split <;> rfl
    · rfl

theorem load_cases (c : Cpu) (vaddr : UInt32) (size : Size) :
    (∃ paddr, c.load vaddr size = (some (c.readPhys paddr size).1, (c.readPhys paddr size).2))
    ∨ (∃ c', c.load vaddr size = (none, c') ∧ SameRegs c c' ∧ c'.leave = 1) := by
  unfold load
  split
  · cases h : c.toPhysical vaddr false with
    | mk p c' =>
      have hs : SameRegs c c' := by
        have := sameRegs_toPhysical c vaddr false
        rwa [h] at this
      cases p with
      | none => exact .inr ⟨c', rfl, hs, toPhysical_none h⟩
      | some paddr =>
        cases toPhysical_some h
        exact .inl ⟨paddr, rfl⟩
  · exact .inr ⟨_, rfl, sameRegs_raiseAddressError c vaddr false, rfl⟩

theorem sameRegs_load (c : Cpu) (vaddr : UInt32) (size : Size) :
    SameRegs c (c.load vaddr size).2 := by
  rcases load_cases c vaddr size with ⟨paddr, h⟩ | ⟨c', h, hs, -⟩
  · rw [h]
    exact sameRegs_readPhys c paddr size
  · rw [h]
    exact hs

theorem sameRegs_store (c : Cpu) (vaddr : UInt32) (size : Size) (v : UInt64) :
    SameRegs c (c.store vaddr size v).2 := by
  unfold store
  split
  · have hs := sameRegs_toPhysical c vaddr true
    split
    · rename_i paddr c' h
      rw [h] at hs
      exact hs.trans (sameRegs_writePhys _ _ _ _)
    · rename_i c' h
      rw [h] at hs
      exact hs
  · exact sameRegs_raiseAddressError c vaddr true

theorem store_false {c c' : Cpu} {vaddr : UInt32} {size : Size} {v : UInt64}
    (h : c.store vaddr size v = (false, c')) : c'.leave = 1 := by
  unfold store at h
  split at h
  · split at h
    · cases h
    · rename_i hp
      cases h
      exact toPhysical_none hp
  · cases h
    rfl

theorem sameRegs_writeCop0 (c : Cpu) (r : Reg) (v : UInt64) : SameRegs c (c.writeCop0 r v) := by
  unfold writeCop0
  dsimp only
  repeat' split
  all_goals first
    | exact .refl c
    | exact sameRegs_setSysReg c _ _
    | exact ⟨rfl, rfl, rfl, rfl⟩
    | skip
  unfold writeStatus
  dsimp only
  split
  · exact ⟨rfl, rfl, rfl, rfl⟩
  · exact ⟨rfl, rfl, rfl, rfl⟩

theorem sameRegs_execSystem (c : Cpu) (op : SystemOp) : SameRegs c (Interp.execSystem c op) := by
  cases op with
  | tlbr => exact ⟨rfl, rfl, rfl, rfl⟩
  | tlbwi => exact ⟨rfl, rfl, rfl, rfl⟩
  | tlbwr => exact ⟨rfl, rfl, rfl, rfl⟩
  | tlbp =>
    change SameRegs c c.tlbProbe
    unfold tlbProbe
    dsimp only
    split <;> exact sameRegs_setSysReg c _ _
  | eret => exact sameRegs_eret c

theorem sameRegs_setSingle (c : Cpu) (r : Reg) (v : UInt32) : SameRegs c (c.setSingle r v) :=
  ⟨rfl, rfl, rfl, rfl⟩

theorem sameRegs_setDouble (c : Cpu) (r : Reg) (v : UInt64) : SameRegs c (c.setDouble r v) :=
  ⟨rfl, rfl, rfl, rfl⟩

theorem sameRegs_writeControl (c : Cpu) (r : Reg) (v : UInt32) :
    SameRegs c (Interp.writeControl c r v) := by
  unfold Interp.writeControl
  split
  · exact ⟨rfl, rfl, rfl, rfl⟩
  · exact .refl c

theorem sameRegs_execConvert (c : Cpu) (i : Instr) (op : FpOp) (v : Nat) :
    SameRegs c (Interp.execConvert c i op v) := by
  unfold Interp.execConvert
  dsimp only
  split
  all_goals first
    | exact ⟨rfl, rfl, rfl, rfl⟩
    | exact sameRegs_raise c _

theorem sameRegs_execFp (c : Cpu) (i : Instr) (format : FpFormat) (op : FpOp) :
    SameRegs c (Interp.execFp c i format op) := by
  cases format with
  | single =>
    change SameRegs c (Interp.execSingle c i op)
    unfold Interp.execSingle
    dsimp only
    split
    all_goals first
      | exact ⟨rfl, rfl, rfl, rfl⟩
      | exact sameRegs_execConvert c i op _
  | double =>
    change SameRegs c (Interp.execDouble c i op)
    unfold Interp.execDouble
    dsimp only
    split
    all_goals first
      | exact ⟨rfl, rfl, rfl, rfl⟩
      | exact sameRegs_execConvert c i op _
  | word =>
    change SameRegs c (Interp.execInteger c i op _)
    unfold Interp.execInteger
    split
    all_goals first
      | exact sameRegs_execConvert c i _ _
      | exact sameRegs_raise c _
  | long =>
    change SameRegs c (Interp.execInteger c i op _)
    unfold Interp.execInteger
    split
    all_goals first
      | exact sameRegs_execConvert c i _ _
      | exact sameRegs_raise c _

theorem sameRegs_execTrap (c : Cpu) (cond : TrapCond) (x y : UInt64) :
    SameRegs c (Interp.execTrap c cond x y) := by
  unfold Interp.execTrap
  split
  · exact sameRegs_raise c _
  · exact .refl c

theorem sameRegs_execStorePart (c : Cpu) (i : Instr) (side : Side) (width : Width) :
    SameRegs c (Interp.execStorePart c i side width) := by
  have hl := sameRegs_load c (Interp.container (Interp.effective c i) width)
    (Interp.widthSize width)
  unfold Interp.execStorePart
  dsimp only
  split
  · rename_i mem c' h
    rw [h] at hl
    exact hl.trans (sameRegs_store _ _ _ _)
  · rename_i c' h
    rw [h] at hl
    exact hl

theorem sameRegs_execLoadFp (c : Cpu) (i : Instr) (width : Width) :
    SameRegs c (Interp.execLoadFp c i width) := by
  have hl := sameRegs_load c (Interp.effective c i) (Interp.widthSize width)
  unfold Interp.execLoadFp
  split
  · rename_i v c' h
    rw [h] at hl
    cases width with
    | word => exact hl.trans (sameRegs_setSingle _ _ _)
    | double => exact hl.trans (sameRegs_setDouble _ _ _)
  · rename_i c' h
    rw [h] at hl
    exact hl

end Cpu

end Recompiler
