import Recompiler.Proofs.WriteFrames

/-!
The layout of memory. No instruction changes how much RAM there is, how many pages have marks, or
where the devices are.
-/

namespace Recompiler

theorem Memory.size_writeRam (m : Memory) (paddr : UInt32) (size : Size) (v : UInt64) :
    (m.writeRam paddr size v).ram.size = m.ram.size := by
  unfold Memory.writeRam Memory.setWordAt
  split
  · cases size <;> simp
  · rfl

theorem Memory.codePages_writeRam (m : Memory) (paddr : UInt32) (size : Size) (v : UInt64) :
    (m.writeRam paddr size v).codePages = m.codePages := by
  unfold Memory.writeRam
  split
  · cases size <;> rfl
  · rfl

namespace Cpu

/-- Memory is laid out in `d` as it is in `c`. -/
structure SameLayout (c d : Cpu) : Prop where
  ram : d.mem.ram.size = c.mem.ram.size
  marks : d.mem.codePages.size = c.mem.codePages.size
  devices : d.mem.devices = c.mem.devices

variable {b c d : Cpu}

namespace SameLayout

theorem of_mem (h : d.mem = c.mem) : SameLayout c d := by
  constructor <;> rw [h]

theorem refl (c : Cpu) : SameLayout c c := of_mem rfl

theorem trans (h : SameLayout b c) (h' : SameLayout c d) : SameLayout b d :=
  ⟨h'.ram.trans h.ram, h'.marks.trans h.marks, h'.devices.trans h.devices⟩

theorem fault (h : Fault c d) : SameLayout c d := of_mem (by rw [h.trapped.same])

theorem setReg (c : Cpu) (r : Reg) (v : UInt64) : SameLayout c (c.setReg r v) := by
  rw [Cpu.setReg]
  split
  · exact refl c
  · exact of_mem rfl

theorem readPhys (c : Cpu) (paddr : UInt32) (size : Size) :
    SameLayout c (c.readPhys paddr size).2 := by
  rw [Cpu.readPhys]
  split
  · exact of_mem rfl
  · exact refl c

theorem writePhys (c : Cpu) (paddr : UInt32) (size : Size) (v : UInt64) :
    SameLayout c (c.writePhys paddr size v) := by
  have hram : SameLayout c { c with mem := c.mem.writeRam paddr size v } :=
    ⟨Memory.size_writeRam .., congrArg Array.size (Memory.codePages_writeRam ..),
      devices_writeRam ..⟩
  rw [Cpu.writePhys]
  split
  · exact of_mem rfl
  · split
    · dsimp only
      split
      · exact hram.trans (of_mem rfl)
      · exact hram
    · exact refl c

theorem load (c : Cpu) (vaddr : UInt32) (size : Size) : SameLayout c (c.load vaddr size).2 := by
  rw [Cpu.load]
  split
  · obtain ⟨paddr, h⟩ | ⟨d, h, hf⟩ := toPhysical_cases c vaddr false
    · rw [h]
      exact readPhys c paddr size
    · rw [h]
      exact fault hf
  · exact fault (.address vaddr false)

theorem store (c : Cpu) (vaddr : UInt32) (size : Size) (v : UInt64) :
    SameLayout c (c.store vaddr size v).2 := by
  rw [Cpu.store]
  split
  · obtain ⟨paddr, h⟩ | ⟨d, h, hf⟩ := toPhysical_cases c vaddr true
    · rw [h]
      exact writePhys c paddr size v
    · rw [h]
      exact fault hf
  · exact fault (.address vaddr true)

theorem writeCop0 (c : Cpu) (r : Reg) (v : UInt64) : SameLayout c (c.writeCop0 r v) := by
  rw [Cpu.writeCop0]
  repeat' split
  all_goals first
    | exact of_mem rfl
    | skip
  unfold writeStatus
  dsimp only
  split
  · exact of_mem rfl
  · exact of_mem rfl

theorem eret (c : Cpu) : SameLayout c c.eret := by
  unfold Cpu.eret
  dsimp only
  split
  · exact of_mem rfl
  · exact of_mem rfl

end SameLayout

end Cpu

namespace Interp

open Cpu

variable (c : Cpu) (i : Instr)

theorem layout_writeUnless (r : Reg) (overflow : Bool) (v : UInt64) :
    SameLayout c (writeUnless c r overflow v) := by
  cases overflow with
  | true => exact .fault (.plain .overflow (by decide))
  | false => exact .setReg c _ _

theorem layout_execTrap (cond : TrapCond) (x y : UInt64) : SameLayout c (execTrap c cond x y) := by
  rw [execTrap]
  split
  · exact .fault (.plain .trap (by decide))
  · exact .refl c

theorem layout_execLoad (op : LoadOp) : SameLayout c (execLoad c i op) := by
  have hload := SameLayout.load c (effective c i) (loadSize op)
  rw [execLoad]
  split <;> rename_i heq <;> rw [heq] at hload
  · exact hload.trans (.setReg _ _ _)
  · exact hload

theorem layout_execLoadPart (side : Side) (width : Width) :
    SameLayout c (execLoadPart c i side width) := by
  have hload := SameLayout.load c (container (effective c i) width) (widthSize width)
  rw [execLoadPart]
  dsimp only
  split <;> rename_i heq <;> rw [heq] at hload
  · cases width <;> exact hload.trans (.setReg _ _ _)
  · exact hload

theorem layout_execStorePart (side : Side) (width : Width) :
    SameLayout c (execStorePart c i side width) := by
  have hload := SameLayout.load c (container (effective c i) width) (widthSize width)
  rw [execStorePart]
  dsimp only
  split <;> rename_i heq <;> rw [heq] at hload
  · exact hload.trans (.store _ _ _ _)
  · exact hload

theorem layout_execLoadLinked (width : Width) : SameLayout c (execLoadLinked c i width) := by
  have hload := SameLayout.load c (effective c i) (widthSize width)
  rw [execLoadLinked]
  dsimp only
  split <;> rename_i heq <;> rw [heq] at hload
  · exact (hload.trans (.setReg _ _ _)).trans (.of_mem rfl)
  · exact hload

theorem layout_execStoreConditional (width : Width) :
    SameLayout c (execStoreConditional c i width) := by
  have hstore := SameLayout.store c (effective c i) (widthSize width) (c.reg i.rt)
  rw [execStoreConditional]
  split
  · exact .setReg c _ _
  · split <;> rename_i heq <;> rw [heq] at hstore
    · have hlink (d : Cpu) : SameLayout d { d with llBit := 0 } := .of_mem rfl
      exact (hstore.trans (hlink _)).trans (.setReg _ _ _)
    · exact hstore

theorem layout_execLoadFp (width : Width) : SameLayout c (execLoadFp c i width) := by
  have hload := SameLayout.load c (effective c i) (widthSize width)
  rw [execLoadFp]
  split <;> rename_i heq <;> rw [heq] at hload
  · cases width <;> exact hload.trans (.of_mem rfl)
  · exact hload

theorem layout_execConvert (op : FpOp) (v : Nat) : SameLayout c (execConvert c i op v) := by
  unfold execConvert
  dsimp only
  split
  all_goals first
    | exact .of_mem rfl
    | exact .fault (.plain .reserved (by decide))

theorem layout_execInteger (op : FpOp) (n : Int) : SameLayout c (execInteger c i op n) := by
  unfold execInteger
  split
  · exact layout_execConvert c i _ _
  · exact layout_execConvert c i _ _
  · exact .fault (.plain .reserved (by decide))

theorem layout_execFp (format : FpFormat) (op : FpOp) : SameLayout c (execFp c i format op) := by
  cases format with
  | single =>
    rw [execFp]
    unfold execSingle
    dsimp only
    split
    all_goals first
      | exact .of_mem rfl
      | exact layout_execConvert c i _ _
  | double =>
    rw [execFp]
    unfold execDouble
    dsimp only
    split
    all_goals first
      | exact .of_mem rfl
      | exact layout_execConvert c i _ _
  | word => exact layout_execInteger c i op _
  | long => exact layout_execInteger c i op _

theorem layout_execSystem (op : SystemOp) : SameLayout c (execSystem c op) := by
  cases op with
  | tlbr | tlbwi | tlbwr => exact .of_mem rfl
  | tlbp =>
    rw [execSystem, tlbProbe]
    split <;> exact .of_mem rfl
  | eret => exact .eret c

theorem layout_writeControl (r : Reg) (v : UInt32) : SameLayout c (writeControl c r v) := by
  rw [writeControl]
  split <;> exact .of_mem rfl

/-- An instruction keeps the layout, by its kind. -/
theorem layout_effect (pc : UInt32) : SameLayout c (effect c i pc) := by
  unfold effect
  dsimp only
  cases i.kind with
  | shift | mfhi | mflo | cfc1 | jal | jalr => exact .setReg c _ _
  | alu op =>
    dsimp only
    rw [execAlu_eq]
    exact layout_writeUnless c _ _ _
  | imm op =>
    dsimp only
    rw [execImm_eq]
    exact layout_writeUnless c _ _ _
  | mfc0 width => cases width <;> exact .setReg c _ _
  | mfc1 width => cases width <;> exact .setReg c _ _
  | branchSign cond link likely =>
    cases link with
    | true => exact .setReg c _ _
    | false => exact .refl c
  | load op => exact layout_execLoad c i op
  | loadPart side width => exact layout_execLoadPart c i side width
  | loadLinked width => exact layout_execLoadLinked c i width
  | storeConditional width => exact layout_execStoreConditional c i width
  | loadFp width => exact layout_execLoadFp c i width
  | store size => exact .store c _ _ _
  | storeFp width => exact .store c _ _ _
  | storePart side width => exact layout_execStorePart c i side width
  | mtc1 width => cases width <;> exact .of_mem rfl
  | fp format op => exact layout_execFp c i format op
  | mtc0 width => cases width <;> exact .writeCop0 c _ _
  | syscall => exact .fault (.plain .syscall (by decide))
  | breakpoint => exact .fault (.plain .breakpoint (by decide))
  | reserved => exact .fault (.plain .reserved (by decide))
  | trap cond => exact layout_execTrap c cond _ _
  | trapImm cond => exact layout_execTrap c cond _ _
  | system op => exact layout_execSystem c op
  | systemAlias op =>
    cases op with
    | none => exact .refl c
    | some op => exact layout_execSystem c op
  | ctc1 => exact layout_writeControl c _ _
  | mulDiv | mthi | mtlo | j | jr | branchEq | branchZero | branchFp | sync | cache =>
    exact .of_mem rfl

end Interp

end Recompiler
