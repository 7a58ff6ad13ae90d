import Recompiler.Engine.Compile
import Recompiler.Proofs.Registers

/-!
What addresses are mapped by. Of all instructions only two change the lookaside buffer, and each
replaces one entry and reports the old one. The pages that are retired for an entry hold every
address that it covers.
-/

namespace Recompiler

open Interp

namespace TlbEntry

variable {e : TlbEntry} {vaddr asid : UInt32}

def Regular (e : TlbEntry) : Prop := e.pageMask.toNat < 0x02000000

theorem toNat_and_low (v : UInt32) : (v &&& 0x1fff).toNat = v.toNat % 8192 := by
  rw [UInt32.toNat_and, show (0x1fff : UInt32).toNat = 2 ^ 13 - 1 from rfl,
    Nat.and_two_pow_sub_one_eq_mod]

theorem mask_mod (e : TlbEntry) : e.mask.toNat % 8192 = 8191 := by
  have h : e.mask &&& 0x1fff = 0x1fff := by
    rw [← UInt32.toBitVec_inj]
    ext i hi
    simp [mask]
    grind
  rw [← toNat_and_low, h]
  rfl

theorem outside_mod (e : TlbEntry) (v : UInt32) : (v &&& ~~~e.mask).toNat % 8192 = 0 := by
  have h : v &&& ~~~e.mask &&& 0x1fff = 0 := by
    rw [← UInt32.toBitVec_inj]
    ext i hi
    simp [mask]
  rw [← toNat_and_low, h]
  rfl

theorem Regular.mask_lt (h : e.Regular) : e.mask.toNat < 0x02000000 := by
  rw [mask, UInt32.toNat_or]
  exact Nat.or_lt_two_pow (n := 25) h (by decide)

theorem and_add_and_not (v m : UInt32) : (v &&& ~~~m).toNat + (v &&& m).toNat = v.toNat := by
  have hdisj : (v &&& ~~~m).toBitVec &&& (v &&& m).toBitVec = 0#32 := by
    ext i hi
    simp
    grind
  have hor : (v &&& ~~~m).toBitVec ||| (v &&& m).toBitVec = v.toBitVec := by
    ext i hi
    simp
    grind
  have hadd := BitVec.add_eq_or_of_and_eq_zero _ _ hdisj
  have hlt := BitVec.toNat_add_of_and_eq_zero hdisj
  rw [hadd, hor] at hlt
  exact hlt.symm

theorem covers_iff : e.covers vaddr asid = true ↔
    vaddr &&& ~~~e.mask = e.entryHi &&& ~~~e.mask ∧ (e.isGlobal = true ∨ e.entryHi &&& 0xff = asid) := by
  simp [covers]

theorem range_size (e : TlbEntry) : e.range.2 - e.range.1 = e.mask + 1 := by
  simp only [range]
  rw [← UInt32.toBitVec_inj]
  simp only [UInt32.toBitVec_sub, UInt32.toBitVec_add]
  rw [BitVec.add_assoc, BitVec.add_comm, BitVec.add_sub_cancel]

theorem mem_tlbPages (h : e.Regular) (hc : e.covers vaddr asid = true) :
    vaddr >>> 12 ∈ Engine.tlbPages e := by
  obtain ⟨hv, -⟩ := covers_iff.mp hc
  have hsum := and_add_and_not vaddr e.mask
  have hmod := e.mask_mod
  have hlt := h.mask_lt
  have hle : (vaddr &&& e.mask).toNat ≤ e.mask.toNat := by
    rw [UInt32.toNat_and]
    exact Nat.and_le_right
  have hlow := e.outside_mod vaddr
  rw [Engine.tlbPages, List.mem_map]
  refine ⟨(vaddr &&& e.mask).toNat / 4096, ?_, ?_⟩
  · rw [List.mem_range, range_size, UInt32.toNat_add]
    simp only [UInt32.toNat_one]
    omega
  · rw [range, ← hv, ← UInt32.toNat_inj]
    generalize vaddr &&& ~~~e.mask = lo at *
    generalize vaddr &&& e.mask = off at *
    have hv32 := vaddr.toNat_lt
    simp only [UInt32.toNat_shiftRight, Nat.shiftRight_eq_div_pow, UInt32.toNat_add,
      UInt32.toNat_mul, UInt32.toNat_ofNat', UInt32.reduceToNat, Nat.reduceMod, Nat.reducePow]
    omega

end TlbEntry

namespace Cpu

variable {c d : Cpu} {i : Instr} {vaddr paddr pc : UInt32}

/-- What addresses are mapped by, apart from the address space. -/
def maps (c : Cpu) : Vector TlbEntry 32 × Option UInt32 := (c.tlb, c.window)

@[simp] theorem maps_setReg (c : Cpu) (r : Reg) (v : UInt64) : (c.setReg r v).maps = c.maps := by
  unfold setReg
  split <;> rfl

@[simp] theorem maps_setSysReg (c : Cpu) (r : Reg) (v : UInt64) :
    (c.setSysReg r v).maps = c.maps := rfl

@[simp] theorem maps_setSingle (c : Cpu) (r : Reg) (v : UInt32) :
    (c.setSingle r v).maps = c.maps := rfl

@[simp] theorem maps_setDouble (c : Cpu) (r : Reg) (v : UInt64) :
    (c.setDouble r v).maps = c.maps := rfl

@[simp] theorem maps_emit (c : Cpu) (e : Effect) : (c.emit e).maps = c.maps := rfl

@[simp] theorem maps_enter (c : Cpu) (code : UInt32) (refill : Bool) :
    (c.enter code refill).maps = c.maps := by
  unfold enter
  dsimp only
  split <;> rfl

@[simp] theorem maps_raise (c : Cpu) (e : Exception) : (c.raise e).maps = c.maps :=
  maps_enter c e.code false

theorem maps_toPhysical (c : Cpu) (vaddr : UInt32) (write : Bool) :
    (c.toPhysical vaddr write).2.maps = c.maps := by
  unfold toPhysical
  split
  · rfl
  · exact maps_enter _ _ _
  · exact maps_enter _ _ _
  · exact maps_enter _ _ _

@[simp] theorem maps_readPhys (c : Cpu) (paddr : UInt32) (size : Size) :
    (c.readPhys paddr size).2.maps = c.maps := by
  unfold readPhys
  split <;> rfl

@[simp] theorem maps_writePhys (c : Cpu) (paddr : UInt32) (size : Size) (v : UInt64) :
    (c.writePhys paddr size v).maps = c.maps := by
  unfold writePhys
  split
  · rfl
  · split
    · dsimp only
      split <;> rfl
    · rfl

theorem maps_load (c : Cpu) (vaddr : UInt32) (size : Size) :
    (c.load vaddr size).2.maps = c.maps := by
  have ht := maps_toPhysical c vaddr false
  unfold load
  split
  · split
    · rename_i paddr c' h
      rw [h] at ht
      exact (maps_readPhys c' paddr size).trans ht
    · rename_i c' h
      rw [h] at ht
      exact ht
  · exact maps_raise _ _

theorem maps_store (c : Cpu) (vaddr : UInt32) (size : Size) (v : UInt64) :
    (c.store vaddr size v).2.maps = c.maps := by
  have ht := maps_toPhysical c vaddr true
  unfold store
  split
  · split
    · rename_i paddr c' h
      rw [h] at ht
      exact (maps_writePhys c' paddr size v).trans ht
    · rename_i c' h
      rw [h] at ht
      exact ht
  · exact maps_raise _ _

theorem maps_of_load {size : Size} {f : UInt64 → Cpu → Cpu}
    (hf : ∀ v c, (f v c).maps = c.maps) :
    (match c.load vaddr size with
      | (some v, c) => f v c
      | (none, c) => c).maps = c.maps := by
  have hl := maps_load c vaddr size
  split
  · rename_i v c' h
    rw [h] at hl
    exact (hf v c').trans hl
  · rename_i c' h
    rw [h] at hl
    exact hl

@[simp] theorem maps_writeCop0 (c : Cpu) (r : Reg) (v : UInt64) :
    (c.writeCop0 r v).maps = c.maps := by
  unfold writeCop0 writeStatus
  dsimp only
  repeat' split
  all_goals rfl

end Cpu

namespace Interp

open Cpu

variable {c : Cpu} {i : Instr}

@[simp] theorem maps_writeUnless (c : Cpu) (r : Reg) (b : Bool) (v : UInt64) :
    (writeUnless c r b v).maps = c.maps := by
  unfold writeUnless
  split <;> simp

theorem maps_execAlu (c : Cpu) (i : Instr) (op : AluOp) : (execAlu c i op).maps = c.maps := by
  cases op <;> simp [execAlu]

theorem maps_execImm (c : Cpu) (i : Instr) (op : ImmOp) : (execImm c i op).maps = c.maps := by
  cases op <;> simp [execImm]

theorem maps_execTrap (c : Cpu) (cond : TrapCond) (x y : UInt64) :
    (execTrap c cond x y).maps = c.maps := by
  unfold execTrap
  split <;> simp

theorem maps_execLoadPart (c : Cpu) (i : Instr) (side : Side) (width : Width) :
    (execLoadPart c i side width).maps = c.maps :=
  maps_of_load fun _ c => by cases width <;> simp

theorem maps_execStorePart (c : Cpu) (i : Instr) (side : Side) (width : Width) :
    (execStorePart c i side width).maps = c.maps :=
  maps_of_load fun _ c => maps_store c _ _ _

theorem maps_execLoadLinked (c : Cpu) (i : Instr) (width : Width) :
    (execLoadLinked c i width).maps = c.maps :=
  maps_of_load fun _ c => maps_setReg c _ _

theorem maps_execStoreConditional (c : Cpu) (i : Instr) (width : Width) :
    (execStoreConditional c i width).maps = c.maps := by
  have hs := maps_store c (effective c i) (widthSize width) (c.reg i.rt)
  unfold execStoreConditional
  split
  · simp
  · split
    · rename_i c' h
      rw [h] at hs
      exact (maps_setReg _ _ _).trans hs
    · rename_i c' h
      rw [h] at hs
      exact hs

theorem maps_execLoadFp (c : Cpu) (i : Instr) (width : Width) :
    (execLoadFp c i width).maps = c.maps :=
  maps_of_load fun _ c => by cases width <;> rfl

theorem maps_execConvert (c : Cpu) (i : Instr) (op : FpOp) (v : Nat) :
    (execConvert c i op v).maps = c.maps := by
  unfold execConvert
  dsimp only
  split <;> simp

theorem maps_execFp (c : Cpu) (i : Instr) (format : FpFormat) (op : FpOp) :
    (execFp c i format op).maps = c.maps := by
  have hc (v : Nat) := maps_execConvert c i op v
  cases format with
  | single => cases op <;> first | rfl | exact maps_raise c _ | exact hc _
  | double => cases op <;> first | rfl | exact maps_raise c _ | exact hc _
  | word =>
    change (execInteger c i op _).maps = _
    unfold execInteger
    split <;> first | exact hc _ | simp
  | long =>
    change (execInteger c i op _).maps = _
    unfold execInteger
    split <;> first | exact hc _ | simp

theorem maps_writeControl (c : Cpu) (r : Reg) (v : UInt32) :
    (writeControl c r v).maps = c.maps := by
  unfold writeControl
  split <;> rfl

/-- An entry was written over another one, which was reported. -/
inductive Replaces (c d : Cpu) : Prop
  | intro (k : Fin 32) (new : TlbEntry) : new.Regular → d.maps = (c.tlb.put k new, c.window) →
    .tlbWritten (c.tlb.get k) new ∈ d.effects → Replaces c d

theorem regular_pendingEntry (c : Cpu) : c.pendingEntry.Regular := by
  unfold TlbEntry.Regular pendingEntry
  dsimp only
  rw [UInt32.toNat_and]
  exact Nat.lt_of_le_of_lt Nat.and_le_right (by decide)

theorem replaces_tlbWriteAt (c : Cpu) (k : Fin 32) : Replaces c (c.tlbWriteAt k) := by
  refine .intro k c.pendingEntry (regular_pendingEntry c) rfl ?_
  simp [tlbWriteAt, Cpu.emit]

theorem execSystem_cases (c : Cpu) (op : SystemOp) :
    (execSystem c op).maps = c.maps ∨ Replaces c (execSystem c op) := by
  cases op with
  | tlbr => exact .inl rfl
  | tlbwi => exact .inr (replaces_tlbWriteAt c _)
  | tlbwr => exact .inr (replaces_tlbWriteAt c _)
  | tlbp =>
    left
    change c.tlbProbe.maps = c.maps
    unfold tlbProbe
    dsimp only
    split <;> rfl
  | eret =>
    left
    change c.eret.maps = c.maps
    unfold eret
    dsimp only
    split <;> rfl

/-- An instruction leaves the maps alone, or replaces one entry. -/
theorem effect_cases (c : Cpu) (i : Instr) (pc : UInt32) :
    (effect c i pc).maps = c.maps ∨ Replaces c (effect c i pc) := by
  unfold effect
  dsimp only
  cases i.kind with
  | shift op amount width => exact .inl (maps_setReg _ _ _)
  | alu op => exact .inl (maps_execAlu c i op)
  | imm op => exact .inl (maps_execImm c i op)
  | mulDiv op => exact .inl rfl
  | mfhi => exact .inl (maps_setReg _ _ _)
  | mflo => exact .inl (maps_setReg _ _ _)
  | mthi => exact .inl rfl
  | mtlo => exact .inl rfl
  | j => exact .inl rfl
  | jal => exact .inl (maps_setReg _ _ _)
  | jr => exact .inl rfl
  | jalr => exact .inl (maps_setReg _ _ _)
  | branchEq cond likely => exact .inl rfl
  | branchZero cond likely => exact .inl rfl
  | branchSign cond link likely =>
    cases link with
    | true => exact .inl (maps_setReg _ _ _)
    | false => exact .inl rfl
  | branchFp => exact .inl rfl
  | syscall => exact .inl (maps_raise _ _)
  | breakpoint => exact .inl (maps_raise _ _)
  | sync => exact .inl rfl
  | cache => exact .inl rfl
  | trap cond => exact .inl (maps_execTrap c _ _ _)
  | trapImm cond => exact .inl (maps_execTrap c _ _ _)
  | load op => exact .inl (maps_of_load fun _ c => maps_setReg c _ _)
  | store size => exact .inl (maps_store c _ _ _)
  | loadPart side width => exact .inl (maps_execLoadPart c i side width)
  | storePart side width => exact .inl (maps_execStorePart c i side width)
  | loadLinked width => exact .inl (maps_execLoadLinked c i width)
  | storeConditional width => exact .inl (maps_execStoreConditional c i width)
  | loadFp width => exact .inl (maps_execLoadFp c i width)
  | storeFp width => exact .inl (maps_store c _ _ _)
  | mfc0 width => cases width <;> exact .inl (maps_setReg _ _ _)
  | mtc0 width => cases width <;> exact .inl (maps_writeCop0 _ _ _)
  | system op => exact execSystem_cases c op
  | systemAlias op =>
    cases op with
    | some op => exact execSystem_cases c op
    | none => exact .inl rfl
  | mfc1 width => cases width <;> exact .inl (maps_setReg _ _ _)
  | mtc1 width => cases width <;> exact .inl rfl
  | cfc1 => exact .inl (maps_setReg _ _ _)
  | ctc1 => exact .inl (maps_writeControl c _ _)
  | fp format op => exact .inl (maps_execFp c i format op)
  | reserved => exact .inl (maps_raise _ _)

end Interp

end Recompiler
