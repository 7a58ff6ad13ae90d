import Recompiler.Proofs.Registers

/-!
What an instruction writes. `Interp.Result c i v` relates an instruction to the value it writes
to its destination when it completes; an instruction without a destination, a link or an
operation of the multiply unit leaves the integer registers alone.
-/

namespace Recompiler.Interp

/-- The value of arithmetic on two registers. -/
def aluValue (op : AluOp) (x y : UInt64) : UInt64 :=
  match op with
  | .add | .addu => add32 x y
  | .sub | .subu => sub32 x y
  | .dadd | .daddu => x + y
  | .dsub | .dsubu => x - y
  | .and => x &&& y
  | .or => x ||| y
  | .xor => x ^^^ y
  | .nor => ~~~(x ||| y)
  | .slt => ofBool64 (slt64 x y)
  | .sltu => ofBool64 (x < y)

/-- Does arithmetic on two registers trap? -/
def aluTraps (op : AluOp) (x y : UInt64) : Bool :=
  match op with
  | .add => addOverflows32 x y
  | .sub => subOverflows32 x y
  | .dadd => addOverflows64 x y
  | .dsub => subOverflows64 x y
  | _ => false

theorem execAlu_eq (c : Cpu) (i : Instr) (op : AluOp) :
    execAlu c i op = writeUnless c i.rd (aluTraps op (c.reg i.rs) (c.reg i.rt))
      (aluValue op (c.reg i.rs) (c.reg i.rt)) := by
  cases op <;> rfl

/-- The value of arithmetic on a register and an immediate. -/
def immValue (i : Instr) (op : ImmOp) (x : UInt64) : UInt64 :=
  match op with
  | .addi | .addiu => add32 x i.simm
  | .daddi | .daddiu => x + i.simm
  | .slti => ofBool64 (slt64 x i.simm)
  | .sltiu => ofBool64 (x < i.simm)
  | .andi => x &&& i.uimm
  | .ori => x ||| i.uimm
  | .xori => x ^^^ i.uimm
  | .lui => i.simm <<< 16

/-- Does arithmetic on a register and an immediate trap? -/
def immTraps (i : Instr) (op : ImmOp) (x : UInt64) : Bool :=
  match op with
  | .addi => addOverflows32 x i.simm
  | .daddi => addOverflows64 x i.simm
  | _ => false

theorem execImm_eq (c : Cpu) (i : Instr) (op : ImmOp) :
    execImm c i op = writeUnless c i.rt (immTraps i op (c.reg i.rs))
      (immValue i op (c.reg i.rs)) := by
  cases op <;> rfl

/-- The value of a shift of `y`, where `x` holds a variable amount. -/
def shiftValue (i : Instr) (op : ShiftOp) (amount : ShiftAmount) (width : Width)
    (x y : UInt64) : UInt64 :=
  match width, amount with
  | .word, .register => shift32 op y.toUInt32 (x.toUInt32 &&& 31)
  | .word, _ => shift32 op y.toUInt32 i.sa
  | .double, .register => shift64 op y (x &&& 63)
  | .double, .field => shift64 op y i.sa.toUInt64
  | .double, .fieldPlus32 => shift64 op y (i.sa.toUInt64 + 32)

theorem execShift_eq (c : Cpu) (i : Instr) (op : ShiftOp) (amount : ShiftAmount)
    (width : Width) :
    execShift c i op amount width
      = c.setReg i.rd (shiftValue i op amount width (c.reg i.rs) (c.reg i.rt)) := rfl

/-- `v` is what the instruction may write to its destination in the state `c`. -/
def Result (c : Cpu) (i : Instr) (v : UInt64) : Prop :=
  match i.kind with
  | .shift op amount width => v = shiftValue i op amount width (c.reg i.rs) (c.reg i.rt)
  | .alu op => v = aluValue op (c.reg i.rs) (c.reg i.rt)
  | .imm op => v = immValue i op (c.reg i.rs)
  | .mfhi => v = c.hi
  | .mflo => v = c.lo
  | .load op => ∃ paddr, v = extendLoad op (c.readPhys paddr (loadSize op)).1
  | .loadPart _ .word | .loadLinked .word | .mfc0 .word | .mfc1 .word | .cfc1 =>
    ∃ w, v = sextWord w
  | .storeConditional _ => ∃ b, v = ofBool64 b
  | _ => True

theorem writeUnless_sameRegs {c : Cpu} {r : Reg} {b : Bool} {v : UInt64}
    (h : (writeUnless c r b v).leave = 0) : writeUnless c r b v = c.setReg r v := by
  cases b with
  | false => rfl
  | true => cases h

variable {c : Cpu} {i : Instr} {pc : UInt32} {rd : Reg}

theorem execLoad_result {op : LoadOp} (h : (execLoad c i op).leave = 0) :
    ∃ paddr, (c.setReg i.rt (extendLoad op (c.readPhys paddr (loadSize op)).1)).SameRegs
      (execLoad c i op) := by
  unfold execLoad at h ⊢
  rcases c.load_cases (effective c i) (loadSize op) with ⟨paddr, hl⟩ | ⟨c', hl, -, hleave⟩
  · rw [hl]
    exact ⟨paddr, (Cpu.sameRegs_readPhys c paddr _).setReg ..⟩
  · rw [hl] at h
    exact absurd (h.symm.trans hleave) (by decide)

theorem execLoadPart_result {side : Side} {width : Width}
    (h : (execLoadPart c i side width).leave = 0) :
    ∃ v, (c.setReg i.rt v).SameRegs (execLoadPart c i side width)
      ∧ (width = .word → ∃ w, v = sextWord w) := by
  unfold execLoadPart at h ⊢
  dsimp only at h ⊢
  rcases c.load_cases (container (effective c i) width) (widthSize width) with
    ⟨paddr, hl⟩ | ⟨c', hl, -, hleave⟩
  · have hs := Cpu.sameRegs_readPhys c paddr (widthSize width)
    rw [hl]
    cases width with
    | word => exact ⟨_, hs.setReg .., fun _ => ⟨_, rfl⟩⟩
    | double => exact ⟨_, hs.setReg .., nofun⟩
  · rw [hl] at h
    exact absurd (h.symm.trans hleave) (by decide)

theorem execLoadLinked_result {width : Width} (h : (execLoadLinked c i width).leave = 0) :
    ∃ v, (c.setReg i.rt v).SameRegs (execLoadLinked c i width)
      ∧ (width = .word → ∃ w, v = sextWord w) := by
  unfold execLoadLinked at h ⊢
  dsimp only at h ⊢
  rcases c.load_cases (effective c i) (widthSize width) with ⟨paddr, hl⟩ | ⟨c', hl, -, hleave⟩
  · have hs := Cpu.sameRegs_readPhys c paddr (widthSize width)
    rw [hl]
    cases width with
    | word => exact ⟨_, (hs.setReg ..).trans ⟨rfl, rfl, rfl, rfl⟩, fun _ => ⟨_, rfl⟩⟩
    | double => exact ⟨_, (hs.setReg ..).trans ⟨rfl, rfl, rfl, rfl⟩, nofun⟩
  · rw [hl] at h
    exact absurd (h.symm.trans hleave) (by decide)

theorem execStoreConditional_result {width : Width}
    (h : (execStoreConditional c i width).leave = 0) :
    ∃ b, (c.setReg i.rt (ofBool64 b)).SameRegs (execStoreConditional c i width) := by
  unfold execStoreConditional at h ⊢
  split
  · exact ⟨false, .refl _⟩
  · rename_i hb
    rw [if_neg hb] at h
    have hs := c.sameRegs_store (effective c i) (widthSize width) (c.reg i.rt)
    split
    · rename_i c' hst
      rw [hst] at hs
      have hs' : c.SameRegs { c' with llBit := 0 } := hs.trans ⟨rfl, rfl, rfl, rfl⟩
      exact ⟨true, hs'.setReg ..⟩
    · rename_i c' hst
      rw [hst] at h
      exact absurd (h.symm.trans (Cpu.store_false hst)) (by decide)

/-- An instruction that completes has written a result to its destination, and nothing else to
the integer registers. -/
theorem effect_dest (hd : i.dest? = some rd) (h : (effect c i pc).leave = 0) :
    ∃ v, (c.setReg rd v).SameRegs (effect c i pc) ∧ Result c i v := by
  unfold Instr.dest? at hd
  unfold effect at h ⊢
  unfold Result
  cases hk : i.kind with
  | shift op amount width =>
    rw [hk] at hd
    cases hd
    exact ⟨_, .refl _, rfl⟩
  | alu op =>
    rw [hk] at hd h
    cases hd
    dsimp only at h ⊢
    rw [execAlu_eq] at h ⊢
    rw [writeUnless_sameRegs h]
    exact ⟨_, .refl _, rfl⟩
  | imm op =>
    rw [hk] at hd h
    cases hd
    dsimp only at h ⊢
    rw [execImm_eq] at h ⊢
    rw [writeUnless_sameRegs h]
    exact ⟨_, .refl _, rfl⟩
  | mfhi | mflo =>
    rw [hk] at hd
    cases hd
    exact ⟨_, .refl _, rfl⟩
  | load op =>
    rw [hk] at hd h
    cases hd
    obtain ⟨paddr, hs⟩ := execLoad_result h
    exact ⟨_, hs, paddr, rfl⟩
  | loadPart side width =>
    rw [hk] at hd h
    cases hd
    obtain ⟨v, hs, hv⟩ := execLoadPart_result h
    cases width with
    | word => exact ⟨v, hs, hv rfl⟩
    | double => exact ⟨v, hs, trivial⟩
  | loadLinked width =>
    rw [hk] at hd h
    cases hd
    obtain ⟨v, hs, hv⟩ := execLoadLinked_result h
    cases width with
    | word => exact ⟨v, hs, hv rfl⟩
    | double => exact ⟨v, hs, trivial⟩
  | storeConditional width =>
    rw [hk] at hd h
    cases hd
    obtain ⟨b, hs⟩ := execStoreConditional_result h
    exact ⟨_, hs, b, rfl⟩
  | mfc0 width =>
    rw [hk] at hd
    cases hd
    cases width with
    | word => exact ⟨_, .refl _, _, rfl⟩
    | double => exact ⟨_, .refl _, trivial⟩
  | mfc1 width =>
    rw [hk] at hd
    cases hd
    cases width with
    | word => exact ⟨_, .refl _, _, rfl⟩
    | double => exact ⟨_, .refl _, trivial⟩
  | cfc1 =>
    rw [hk] at hd
    cases hd
    exact ⟨_, .refl _, _, rfl⟩
  | _ =>
    rw [hk] at hd
    cases hd

/-- The multiply unit after an instruction. -/
def hiLoAfter (c : Cpu) (i : Instr) : HiLo :=
  match i.kind with
  | .mthi => ⟨c.reg i.rs, c.lo⟩
  | .mtlo => ⟨c.hi, c.reg i.rs⟩
  | .mulDiv op => mulDiv op (c.reg i.rs) (c.reg i.rt)
  | _ => ⟨c.hi, c.lo⟩

theorem effect_link (c : Cpu) (pc : UInt32) (hl : i.link? = some rd) :
    effect c i pc = c.setReg rd (sextWord (pc + 8)) := by
  unfold Instr.link? at hl
  unfold effect
  cases hk : i.kind with
  | jal | jalr =>
    rw [hk] at hl
    cases hl
    rfl
  | branchSign cond link likely =>
    rw [hk] at hl
    cases link with
    | true =>
      cases hl
      rfl
    | false => cases hl
  | _ =>
    rw [hk] at hl
    cases hl

/-- An instruction without destination and link changes at most the multiply unit. -/
theorem effect_other (c : Cpu) (pc : UInt32) (hd : i.dest? = none) (hl : i.link? = none) :
    { c with hi := (hiLoAfter c i).hi, lo := (hiLoAfter c i).lo }.SameRegs (effect c i pc) := by
  unfold Instr.dest? at hd
  unfold Instr.link? at hl
  unfold effect hiLoAfter
  cases hk : i.kind with
  | shift | alu | mfhi | mflo | imm | load | loadPart | loadLinked | storeConditional | mfc0 | mfc1
  | cfc1 =>
    rw [hk] at hd
    cases hd
  | jal | jalr =>
    rw [hk] at hl
    cases hl
  | branchSign cond link likely =>
    rw [hk] at hl
    cases link with
    | true => cases hl
    | false => exact .refl _
  | mthi | mtlo | mulDiv => exact ⟨rfl, rfl, rfl, rfl⟩
  | j | jr | branchEq | branchZero | branchFp | sync | cache => exact .refl _
  | syscall | breakpoint | reserved => exact c.sameRegs_raise _
  | trap | trapImm => exact c.sameRegs_execTrap ..
  | store size => exact c.sameRegs_store ..
  | storePart side width => exact c.sameRegs_execStorePart ..
  | loadFp width => exact c.sameRegs_execLoadFp ..
  | storeFp width => exact c.sameRegs_store ..
  | mtc0 width => cases width <;> exact c.sameRegs_writeCop0 ..
  | system op => exact c.sameRegs_execSystem op
  | systemAlias op =>
    cases op with
    | none => exact .refl _
    | some op => exact c.sameRegs_execSystem op
  | mtc1 width =>
    cases width with
    | word => exact c.sameRegs_setSingle ..
    | double => exact c.sameRegs_setDouble ..
  | ctc1 => exact c.sameRegs_writeControl ..
  | fp format op => exact c.sameRegs_execFp ..

end Recompiler.Interp
