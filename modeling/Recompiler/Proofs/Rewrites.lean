import Recompiler.Proofs.Fields
import Recompiler.Proofs.NarrowOps
import Recompiler.Proofs.Registers
import Recompiler.Trace.Simplify

/-!
The peephole rules keep the effect of an instruction, in every state whose register zero is
zero.
-/

namespace Recompiler

open Interp

@[simp] theorem sext32_zero : sext32 0 = 0 := by decide

@[simp] theorem sext32_sext32 (v : UInt64) : sext32 (sext32 v) = sext32 v :=
  sext32_eq_of_fits (fits_sext32 v) (Int.le_refl 32)

@[simp] theorem add32_zero (x : UInt64) : add32 x 0 = sext32 x := by
  simp [add32]

@[simp] theorem zero_add32 (x : UInt64) : add32 0 x = sext32 x := by
  simp [add32]

@[simp] theorem sub32_zero (x : UInt64) : sub32 x 0 = sext32 x := by
  simp [sub32]

@[simp] theorem sub32_self (x : UInt64) : sub32 x x = 0 := by
  simp [sub32]

@[simp] theorem addOverflows32_zero (x : UInt64) : addOverflows32 x 0 = false := by
  simp [addOverflows32]

@[simp] theorem zero_addOverflows32 (x : UInt64) : addOverflows32 0 x = false := by
  simp [addOverflows32]

@[simp] theorem subOverflows32_zero (x : UInt64) : subOverflows32 x 0 = false := by
  simp [subOverflows32]

@[simp] theorem subOverflows32_self (x : UInt64) : subOverflows32 x x = false := by
  simp [subOverflows32]

@[simp] theorem signBit64_zero : signBit64 0 = false := by decide

@[simp] theorem addOverflows64_zero (x : UInt64) : addOverflows64 x 0 = false := by
  simp [addOverflows64]

@[simp] theorem zero_addOverflows64 (x : UInt64) : addOverflows64 0 x = false := by
  simp [addOverflows64]

@[simp] theorem subOverflows64_zero (x : UInt64) : subOverflows64 x 0 = false := by
  simp [subOverflows64]

@[simp] theorem subOverflows64_self (x : UInt64) : subOverflows64 x x = false := by
  simp [subOverflows64]

@[simp] theorem slt64_self (x : UInt64) : slt64 x x = false := by
  simp [slt64]

@[simp] theorem writeUnless_false (c : Cpu) (r : Reg) (v : UInt64) :
    writeUnless c r false v = c.setReg r v := rfl

theorem shift32_zero (op : ShiftOp) (v : UInt32) : Interp.shift32 op v 0 = sextWord v := by
  cases op with
  | left => simp [Interp.shift32]
  | right => simp [Interp.shift32]
  | arith =>
    have h : sar32 v 0 = v := by
      apply UInt32.eq_of_toBitVec_eq
      rw [sar32_toBitVec v 0 (by decide)]
      exact BitVec.sshiftRight_zero
    simp [Interp.shift32, h]

theorem shift64_zero (op : ShiftOp) (v : UInt64) : Interp.shift64 op v 0 = v := by
  cases op with
  | left => simp [Interp.shift64]
  | right => simp [Interp.shift64]
  | arith =>
    apply UInt64.eq_of_toBitVec_eq
    change (sar64 v 0).toBitVec = _
    rw [sar64_toBitVec v 0 (by decide)]
    exact BitVec.sshiftRight_zero

theorem zero_sar32 (sa : UInt32) : sar32 0 sa = 0 :=
  congrArg Int32.toUInt32 Int32.zero_shiftRight

theorem zero_sar64 (sa : UInt64) : sar64 0 sa = 0 :=
  congrArg Int64.toUInt64 Int64.zero_shiftRight

theorem zero_shift32 (op : ShiftOp) (sa : UInt32) : Interp.shift32 op 0 sa = 0 := by
  have h : sextWord 0 = 0 := by decide
  cases op with
  | left => simp [Interp.shift32, h]
  | right => simp [Interp.shift32, h]
  | arith => simp [Interp.shift32, zero_sar32, h]

theorem zero_shift64 (op : ShiftOp) (sa : UInt64) : Interp.shift64 op 0 sa = 0 := by
  cases op with
  | left => simp [Interp.shift64]
  | right => simp [Interp.shift64]
  | arith => exact zero_sar64 sa

end Recompiler

namespace Recompiler.Instr

open Interp

variable {c : Cpu} {i : Instr} {pc : UInt32}

theorem effect_alu {op : AluOp} (hk : i.kind = .alu op) : effect c i pc = execAlu c i op := by
  unfold effect
  rw [hk]

theorem effect_imm {op : ImmOp} (hk : i.kind = .imm op) : effect c i pc = execImm c i op := by
  unfold effect
  rw [hk]

theorem effect_shift {op : ShiftOp} {amount : ShiftAmount} {width : Width}
    (hk : i.kind = .shift op amount width) : effect c i pc = execShift c i op amount width := by
  unfold effect
  rw [hk]

theorem effect_branchEq {cond : EqCond} {likely : Bool} (hk : i.kind = .branchEq cond likely) :
    effect c i pc = c := by
  unfold effect
  rw [hk]

theorem effect_branchZero {cond : ZeroCond} {likely : Bool}
    (hk : i.kind = .branchZero cond likely) : effect c i pc = c := by
  unfold effect
  rw [hk]

theorem effect_branchSign {cond : SignCond} {likely : Bool}
    (hk : i.kind = .branchSign cond false likely) : effect c i pc = c := by
  unfold effect
  rw [hk]

theorem effect_trap {cond : TrapCond} (hk : i.kind = .trap cond) :
    effect c i pc = execTrap c cond (c.reg i.rs) (c.reg i.rt) := by
  unfold effect
  rw [hk]

theorem effect_trapImm {cond : TrapCond} (hk : i.kind = .trapImm cond) :
    effect c i pc = execTrap c cond (c.reg i.rs) i.simm := by
  unfold effect
  rw [hk]

/-- An instruction without other effects writes its destination. -/
theorem effect_of_isPure (c : Cpu) (pc : UInt32) {rd : Reg} (hd : i.dest? = some rd)
    (hp : i.isPure = true) : ∃ v, effect c i pc = c.setReg rd v := by
  unfold isPure at hp
  unfold dest? at hd
  cases hk : i.kind with
  | alu op =>
    rw [hk] at hp hd
    cases hd
    rw [effect_alu hk]
    cases op <;> first | exact ⟨_, rfl⟩ | cases hp
  | imm op =>
    rw [hk] at hp hd
    cases hd
    rw [effect_imm hk]
    cases op <;> first | exact ⟨_, rfl⟩ | cases hp
  | shift op amount width =>
    rw [hk] at hd
    cases hd
    exact ⟨_, effect_shift hk⟩
  | mfhi | mflo | cfc1 =>
    rw [hk] at hd
    cases hd
    simp only [effect, hk]
    exact ⟨_, rfl⟩
  | mfc0 width | mfc1 width =>
    rw [hk] at hd
    cases hd
    cases width <;> (simp only [effect, hk]; exact ⟨_, rfl⟩)
  | _ =>
    rw [hk] at hp
    cases hp

theorem effect_of_zeroWrite (hd : i.dest? = some .zero) (hp : i.isPure = true) :
    effect c i pc = c := by
  obtain ⟨v, hv⟩ := effect_of_isPure c pc hd hp
  rw [hv, Cpu.setReg_zero]

theorem effect_nop : effect c nop pc = c := by
  rw [effect_shift kind_nop]
  rfl

theorem effect_move (h0 : c.reg .zero = 0) (rd rs : Reg) :
    effect c (move rd rs) pc = c.setReg rd (c.reg rs) := by
  rw [effect_alu (kind_move rd rs)]
  change c.setReg (ofFunct ..).rd (c.reg (ofFunct ..).rs ||| c.reg (ofFunct ..).rt) = _
  rw [rd_ofFunct, rs_ofFunct, rt_ofFunct]
  change c.setReg rd (c.reg rs ||| c.reg .zero) = _
  rw [h0, UInt64.or_zero]

theorem effect_simplestMove (h0 : c.reg .zero = 0) (rd rs : Reg) :
    effect c (simplestMove rd rs) pc = c.setReg rd (c.reg rs) := by
  unfold simplestMove
  split
  · rename_i h
    rw [effect_nop]
    rcases h with h | h
    · rw [h, Cpu.setReg_zero]
    · rw [h, Cpu.setReg_reg_self]
  · exact effect_move h0 rd rs

theorem effect_moveZero (h0 : c.reg .zero = 0) (rd : Reg) :
    effect c (move rd .zero) pc = c.setReg rd 0 := by
  rw [effect_move h0, h0]

theorem effect_extendWord (h0 : c.reg .zero = 0) (rd rs : Reg) :
    effect c (extendWord rd rs) pc = c.setReg rd (sext32 (c.reg rs)) := by
  rw [effect_alu (kind_extendWord rd rs)]
  change c.setReg (ofFunct ..).rd (add32 (c.reg (ofFunct ..).rs) (c.reg (ofFunct ..).rt)) = _
  rw [rd_ofFunct, rs_ofFunct, rt_ofFunct]
  change c.setReg rd (add32 (c.reg rs) (c.reg .zero)) = _
  rw [h0, add32_zero]

theorem effect_simplestExtend (h0 : c.reg .zero = 0) (rd rs : Reg) :
    effect c (simplestExtend rd rs) pc = c.setReg rd (sext32 (c.reg rs)) := by
  unfold simplestExtend
  split
  · rename_i h
    rw [effect_nop, h, Cpu.setReg_zero]
  · split
    · rename_i h
      rw [effect_moveZero h0, h, h0, sext32_zero]
    · exact effect_extendWord h0 rd rs

theorem effect_extendShift (rd rt : Reg) :
    effect c (extendShift rd rt) pc = c.setReg rd (sext32 (c.reg rt)) := by
  rw [effect_shift (kind_extendShift rd rt)]
  change c.setReg (ofFunct ..).rd (Interp.shift32 .left (c.reg (ofFunct ..).rt).toUInt32
    (ofFunct ..).sa) = _
  rw [rd_ofFunct, rt_ofFunct, sa_ofFunct]
  exact congrArg _ (shift32_zero .left _)

theorem simm_eq_sext16 (i : Instr) : i.simm = sext16 i.uimm := by
  simp [simm, uimm, sext16]

theorem fits_simm (i : Instr) : Fits 16 i.simm := by
  rw [simm_eq_sext16]
  exact fits_sext16 _

@[simp] theorem sext32_simm (i : Instr) : sext32 i.simm = i.simm :=
  sext32_eq_of_fits (fits_simm i) (by decide)

theorem simm_of_imm_zero (h : i.imm = 0) : i.simm = 0 := by
  rw [simm, h]
  rfl

theorem uimm_of_imm_zero (h : i.imm = 0) : i.uimm = 0 := by
  rw [uimm, h]
  rfl

theorem imm_of_simm_zero (h : i.simm = 0) : i.imm = 0 := by
  have hs : i.simm.toUInt16 = i.imm := by
    apply UInt16.eq_of_toBitVec_eq
    apply BitVec.eq_of_getLsbD_eq
    intro j hj
    have hj' : j < 64 := by omega
    simp [simm, BitVec.getElem_signExtend, hj, hj']
  rw [← hs, h]
  rfl

theorem effect_addiu (h0 : c.reg .zero = 0) (rt : Reg) (v : UInt16) :
    effect c (addiu rt .zero v) pc = c.setReg rt v.toInt16.toInt64.toUInt64 := by
  rw [effect_imm (kind_addiu rt .zero v)]
  change c.setReg (ofOpcode ..).rt (add32 (c.reg (ofOpcode ..).rs) (ofOpcode ..).simm) = _
  rw [rt_ofOpcode, rs_ofOpcode, h0, zero_add32, sext32_simm, simm, imm_ofOpcode]

theorem effect_ori (h0 : c.reg .zero = 0) (rt : Reg) (v : UInt16) :
    effect c (ori rt .zero v) pc = c.setReg rt v.toUInt64 := by
  rw [effect_imm (kind_ori rt .zero v)]
  change c.setReg (ofOpcode ..).rt (c.reg (ofOpcode ..).rs ||| (ofOpcode ..).imm.toUInt64) = _
  rw [rt_ofOpcode, rs_ofOpcode, imm_ofOpcode, h0, UInt64.zero_or]

theorem effect_dropSkip (h : effect c i pc = c) : effect c i.dropSkip pc = c := by
  unfold dropSkip
  split
  · exact effect_nop
  · exact h

theorem effect_simplestAlways (off : UInt16) : effect c (simplestAlways off) pc = c :=
  effect_dropSkip (effect_branchEq (kind_always off))

theorem effect_simplifyAlu {op : AluOp} (h0 : c.reg .zero = 0) (hk : i.kind = .alu op) :
    effect c (i.simplifyAlu op) pc = execAlu c i op := by
  have hi : effect c i pc = execAlu c i op := effect_alu hk
  cases op with
  | and =>
    simp only [simplifyAlu]
    split
    · rename_i h
      rcases h with h | h <;> simp [effect_moveZero h0, execAlu, h, h0]
    · split
      · rename_i h
        simp [effect_simplestMove h0, execAlu, h]
      · exact hi
  | slt =>
    simp only [simplifyAlu]
    split
    · rename_i h
      simp [effect_moveZero h0, execAlu, h, ofBool64]
    · exact hi
  | sltu =>
    simp only [simplifyAlu]
    split
    · rename_i h
      rcases h with h | h <;> simp [effect_moveZero h0, execAlu, h, h0, ofBool64]
    · exact hi
  | _ =>
    simp only [simplifyAlu]
    repeat' split
    all_goals first
      | exact hi
      | simp_all [effect_simplestExtend, effect_simplestMove, effect_moveZero, effect_nop, execAlu]

theorem effect_simplifyShift {op : ShiftOp} {amount : ShiftAmount} {width : Width}
    (h0 : c.reg .zero = 0) (hk : i.kind = .shift op amount width) :
    effect c (i.simplifyShift op amount width) pc = execShift c i op amount width := by
  have hi : effect c i pc = execShift c i op amount width := effect_shift hk
  unfold simplifyShift
  split
  · rename_i h
    rw [effect_moveZero h0]
    cases width <;> cases amount <;> simp [execShift, h, h0, zero_shift32, zero_shift64]
  · repeat' split
    all_goals first
      | exact hi
      | simp_all [effect_extendShift, effect_simplestMove, execShift, shift32_zero, shift64_zero,
          sext32_eq_sextWord]

theorem zero_lt_simm (h : i.imm ≠ 0) : 0 < i.simm := by
  apply UInt64.pos_iff_ne_zero.2
  exact fun hs => h (imm_of_simm_zero hs)

theorem effect_simplifyImm {op : ImmOp} (h0 : c.reg .zero = 0) (hk : i.kind = .imm op) :
    effect c (i.simplifyImm op) pc = execImm c i op := by
  have hi : effect c i pc = execImm c i op := effect_imm hk
  cases op with
  | addi =>
    simp only [simplifyImm]
    split
    · rename_i h
      rw [effect_addiu h0]
      change c.setReg i.rt i.simm = _
      simp [execImm, h, h0]
    · exact hi
  | sltiu =>
    simp only [simplifyImm]
    split
    · rename_i h
      split
      · rename_i hz
        simp [effect_moveZero h0, execImm, h, h0, simm_of_imm_zero hz, ofBool64]
      · rename_i hz
        simp [effect_ori h0, execImm, h, h0, zero_lt_simm hz, ofBool64]
    · exact hi
  | andi =>
    simp only [simplifyImm]
    split
    · rename_i h
      rcases h with h | h
      · simp [effect_moveZero h0, execImm, h, h0]
      · simp [effect_moveZero h0, execImm, uimm_of_imm_zero h]
    · exact hi
  | xori =>
    simp only [simplifyImm]
    split
    · rename_i h
      simp [effect_simplestMove h0, execImm, uimm_of_imm_zero h]
    · split
      · rename_i h
        simp [effect_ori h0, execImm, h, h0, uimm]
      · exact hi
  | ori =>
    simp only [simplifyImm]
    split
    · rename_i h
      simp [effect_simplestMove h0, execImm, uimm_of_imm_zero h]
    · exact hi
  | lui =>
    simp only [simplifyImm]
    split
    · rename_i h
      simp [effect_moveZero h0, execImm, simm_of_imm_zero h]
    · exact hi
  | daddi | daddiu =>
    simp only [simplifyImm]
    split
    · rename_i h
      simp [effect_simplestMove h0, execImm, simm_of_imm_zero h]
    · split
      · rename_i h
        rw [effect_addiu h0]
        change c.setReg i.rt i.simm = _
        simp [execImm, h, h0]
      · exact hi
  | addiu | slti => exact hi

theorem effect_simplifyBranchEq {cond : EqCond} {likely : Bool}
    (hk : i.kind = .branchEq cond likely) : effect c (i.simplifyBranchEq cond likely) pc = c := by
  have hi : effect c i pc = c := effect_branchEq hk
  unfold simplifyBranchEq
  split
  · cases cond with
    | eq =>
      cases likely with
      | false =>
        dsimp only
        split
        · exact effect_dropSkip hi
        · exact effect_simplestAlways _
      | true => exact effect_simplestAlways _
    | ne =>
      cases likely with
      | false => exact effect_nop
      | true => exact hi
  · have hj : effect c (if i.rs = .zero then branch i.opcode i.rt i.rs i.imm else i) pc = c := by
      split
      · exact effect_branchEq ((kind_branch hk ..).trans hk)
      · exact hi
    dsimp only
    cases likely with
    | false => exact effect_dropSkip hj
    | true => exact hj

theorem effect_simplifyBranchZero {cond : ZeroCond} {likely : Bool}
    (hk : i.kind = .branchZero cond likely) :
    effect c (i.simplifyBranchZero cond likely) pc = c := by
  have hi : effect c i pc = c := effect_branchZero hk
  unfold simplifyBranchZero
  split
  · cases cond with
    | lez => exact effect_simplestAlways _
    | gtz =>
      cases likely with
      | false => exact effect_nop
      | true => exact hi
  · cases likely with
    | false => exact effect_dropSkip hi
    | true => exact hi

theorem effect_simplifyBranchSign {cond : SignCond} {link likely : Bool}
    (hk : i.kind = .branchSign cond link likely) :
    effect c (i.simplifyBranchSign cond link likely) pc = effect c i pc := by
  cases link with
  | true => cases cond <;> cases likely <;> rfl
  | false =>
    have hi : effect c i pc = c := effect_branchSign hk
    rw [hi]
    cases cond with
    | ltz =>
      cases likely with
      | false =>
        simp only [simplifyBranchSign]
        split
        · exact effect_nop
        · exact effect_dropSkip hi
      | true => exact hi
    | gez =>
      cases likely with
      | false =>
        simp only [simplifyBranchSign]
        split
        · exact effect_simplestAlways _
        · exact effect_dropSkip hi
      | true =>
        simp only [simplifyBranchSign]
        split
        · exact effect_simplestAlways _
        · exact hi

theorem effect_simplifyTrap {cond : TrapCond} (hk : i.kind = .trap cond) :
    effect c (i.simplifyTrap cond) pc = effect c i pc := by
  cases cond with
  | ge | geu | eq => rfl
  | ne | lt | ltu =>
    simp only [simplifyTrap]
    split
    · rename_i h
      rw [effect_nop, effect_trap hk]
      simp [h, execTrap, trapHolds]
    · rfl

theorem effect_simplifyTrapImm {cond : TrapCond} (h0 : c.reg .zero = 0)
    (hk : i.kind = .trapImm cond) : effect c (i.simplifyTrapImm cond) pc = effect c i pc := by
  cases cond with
  | ge | geu | lt | eq => rfl
  | ne | ltu =>
    simp only [simplifyTrapImm]
    split
    · rename_i h
      rw [effect_nop, effect_trapImm hk]
      simp [h.1, h0, simm_of_imm_zero h.2, execTrap, trapHolds]
    · rfl

/-- One pass of the rules keeps the effect. -/
theorem effect_simplify (h0 : c.reg .zero = 0) : effect c i.simplify pc = effect c i pc := by
  unfold simplify
  split
  · rename_i h
    rw [effect_nop, effect_of_zeroWrite h.1 h.2]
  · split
    · rename_i hk
      rw [effect_simplifyAlu h0 hk, effect_alu hk]
    · rename_i hk
      rw [effect_simplifyShift h0 hk, effect_shift hk]
    · rename_i hk
      rw [effect_simplifyImm h0 hk, effect_imm hk]
    · rename_i hk
      rw [effect_simplifyBranchEq hk, effect_branchEq hk]
    · rename_i hk
      rw [effect_simplifyBranchZero hk, effect_branchZero hk]
    · rename_i hk
      exact effect_simplifyBranchSign hk
    · rename_i hk
      exact effect_simplifyTrap hk
    · rename_i hk
      exact effect_simplifyTrapImm h0 hk
    · rfl

theorem effect_dropZeroWrite : effect c i.dropZeroWrite pc = effect c i pc := by
  unfold dropZeroWrite
  split
  · rename_i h
    simp only [effect, kind_jr, h.1, h.2]
    rfl
  · split
    · rename_i h
      rw [effect_nop, effect_of_zeroWrite h.1 h.2]
    · rfl

end Recompiler.Instr
