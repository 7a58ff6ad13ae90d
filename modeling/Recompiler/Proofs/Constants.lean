import Recompiler.Proofs.Rewrites
import Recompiler.Proofs.Results
import Recompiler.Trace.Constants

/-!
The known bits of the registers are right. `Constants.Holds k c` says that the known bits `k`
describe the registers of `c`; a step of the analysis over an instruction that completes keeps
this, and the instruction it returns has the effect of the one it was given.
-/

namespace Recompiler.Instr

open Interp

variable {c : Cpu} {i : Instr} {pc : UInt32}

@[simp] theorem simm_clearRs : i.clearRs.simm = i.simm := by
  rw [simm, imm_clearRs, simm]

@[simp] theorem uimm_clearRs : i.clearRs.uimm = i.uimm := by
  rw [uimm, imm_clearRs, uimm]

@[simp] theorem simm_clearRt : i.clearRt.simm = i.simm := by
  rw [simm, imm_clearRt, simm]

@[simp] theorem effective_clearRt : effective c i.clearRt = effective c i := by
  unfold effective
  rw [rs_clearRt, simm_clearRt]

theorem effective_clearRs (h : c.reg i.rs = c.reg .zero) :
    effective c i.clearRs = effective c i := by
  unfold effective
  rw [rs_clearRs, simm_clearRs, h]

/-- A source in `rs` that holds zero may be read from register zero. -/
theorem effect_clearRs (hs : i.kind.sources.rs = true) (h : c.reg i.rs = c.reg .zero) :
    effect c i.clearRs pc = effect c i pc := by
  have he := effective_clearRs h
  unfold effect
  rw [kind_clearRs hs]
  cases hk : i.kind with
  | shift op amount width =>
    simp only [execShift_eq, shiftValue, rs_clearRs, rt_clearRs, rd_clearRs, sa_clearRs, h]
  | alu op => simp only [execAlu_eq, rs_clearRs, rt_clearRs, rd_clearRs, h]
  | imm op =>
    simp only [execImm_eq, rs_clearRs, rt_clearRs, h, immTraps, immValue, simm_clearRs,
      uimm_clearRs]
  | mulDiv op => simp only [execMulDiv, rs_clearRs, rt_clearRs, h]
  | mthi | mtlo => simp only [rs_clearRs, h]
  | trap cond => simp only [rs_clearRs, rt_clearRs, h]
  | trapImm cond => simp only [rs_clearRs, simm_clearRs, h]
  | jalr => simp only [rd_clearRs]
  | load op => simp only [execLoad, he, rt_clearRs]
  | store size => simp only [execStore, he, rt_clearRs]
  | loadPart side width => simp only [execLoadPart, he, rt_clearRs]
  | storePart side width => simp only [execStorePart, he, rt_clearRs]
  | loadLinked width => simp only [execLoadLinked, he, rt_clearRs]
  | storeConditional width => simp only [execStoreConditional, he, rt_clearRs]
  | loadFp width => simp only [execLoadFp, he, ft, rt_clearRs]
  | storeFp width => simp only [execStoreFp, he, ft, rt_clearRs]
  | jr | branchEq | branchZero | cache => rfl
  | branchSign cond link likely => cases link <;> rfl
  | _ => simp only [hk, Kind.sources, Bool.false_eq_true] at hs

/-- A source in `rt` that holds zero may be read from register zero. -/
theorem effect_clearRt (hs : i.kind.sources.rt = true) (h : c.reg i.rt = c.reg .zero) :
    effect c i.clearRt pc = effect c i pc := by
  unfold effect
  rw [kind_clearRt hs]
  cases hk : i.kind with
  | shift op amount width =>
    simp only [execShift_eq, shiftValue, rs_clearRt, rt_clearRt, rd_clearRt, sa_clearRt, h]
  | alu op => simp only [execAlu_eq, rs_clearRt, rt_clearRt, rd_clearRt, h]
  | mulDiv op => simp only [execMulDiv, rs_clearRt, rt_clearRt, h]
  | trap cond => simp only [rs_clearRt, rt_clearRt, h]
  | store size => simp only [execStore, effective_clearRt, rt_clearRt, h]
  | storePart side width =>
    simp only [execStorePart, effective_clearRt, rt_clearRt]
    split
    · rename_i mem c' hl
      have hr := c.sameRegs_load (container (effective c i) width) (widthSize width)
      rw [hl] at hr
      rw [hr.reg i.rt, hr.reg .zero, h]
    · rfl
  | mtc0 width => cases width <;> simp only [rd_clearRt, rt_clearRt, h]
  | mtc1 width => cases width <;> simp only [fs, rd_clearRt, rt_clearRt, h]
  | ctc1 => simp only [fs, rd_clearRt, rt_clearRt, h]
  | branchEq => rfl
  | imm op =>
    rw [hk] at hs
    cases op <;> cases hs
  | _ => simp only [hk, Kind.sources, Bool.false_eq_true] at hs

end Recompiler.Instr

namespace Recompiler

theorem toUInt32_sext32 (v : UInt64) : (sext32 v).toUInt32 = v.toUInt32 := by
  apply UInt32.eq_of_toBitVec_eq
  apply BitVec.eq_of_getLsbD_eq
  intro j hj
  rw [getLsbD_toUInt32 _ hj, getLsbD_toUInt32 _ hj, bitOf_sext32 v (by omega), if_pos hj]

theorem add32_eq_sext32 (v w : UInt64) : Interp.add32 v w = sext32 (v + w) := by
  unfold Interp.add32
  rw [sext32_eq_sextWord, sext32_eq_sextWord (v + w), UInt64.toUInt32_add, toUInt32_sext32,
    toUInt32_sext32, UInt64.toUInt32_add]

theorem sub32_eq_sext32 (v w : UInt64) : Interp.sub32 v w = sext32 (v - w) := by
  unfold Interp.sub32
  rw [sext32_eq_sextWord, sext32_eq_sextWord (v - w), UInt64.toUInt32_sub, toUInt32_sext32,
    toUInt32_sext32, UInt64.toUInt32_sub]

theorem Instr.toUInt32_simm_shiftLeft (i : Instr) :
    i.simm.toUInt32 <<< 16 = i.imm.toUInt32 <<< 16 := by
  apply UInt32.eq_of_toBitVec_eq
  apply BitVec.eq_of_getLsbD_eq
  intro j hj
  simp only [UInt32.toBitVec_shiftLeft, BitVec.shiftLeft_eq', BitVec.getLsbD_shiftLeft, hj,
    decide_true, Bool.true_and]
  by_cases h : j < 16
  · simp [h]
  · have h16 : j - 16 < 16 := by omega
    have h32 : j - 16 < 32 := by omega
    have h64 : j - 16 < 64 := by omega
    simp [simm, BitVec.getElem_signExtend, h16, h32, h64]

theorem Instr.simm_shiftLeft (i : Instr) : i.simm <<< 16 = sextWord (i.imm.toUInt32 <<< 16) := by
  have hf : Fits 32 (i.simm <<< 16) := (fits_simm i).shiftLeft (s := 16) (by decide) (by decide)
  rw [← toUInt32_simm_shiftLeft, sextWord_shiftLeft i.simm 16 16 rfl (by decide),
    sext32_eq_of_fits hf (Int.le_refl 32)]

theorem and_31_lt (v : UInt32) : (v &&& 31).toNat < 32 := by
  rw [UInt32.toNat_and]
  exact Nat.lt_of_le_of_lt Nat.and_le_right (by decide)

theorem and_63_lt (v : UInt64) : (v &&& 63).toNat < 64 := by
  rw [UInt64.toNat_and]
  exact Nat.lt_of_le_of_lt Nat.and_le_right (by decide)

theorem toNat_and_31 (v : UInt64) : (v &&& 31).toNat = (v.toUInt32 &&& 31).toNat := by
  rw [UInt64.toNat_and, UInt32.toNat_and, UInt64.toNat_toUInt32]
  change v.toNat &&& (2 ^ 5 - 1) = (v.toNat % 2 ^ 32) &&& (2 ^ 5 - 1)
  rw [Nat.and_two_pow_sub_one_eq_mod, Nat.and_two_pow_sub_one_eq_mod]
  omega

theorem Instr.sa_lt (i : Instr) : i.sa.toNat < 32 := and_31_lt _

def Memory.DevicesFit (m : Memory) : Prop :=
  ∀ d ∈ m.devices, ∀ paddr size, (d.read paddr size).toNat < 2 ^ (8 * size.bytes.toNat)

theorem toNat_and_lt (v m : UInt32) {n : Nat} (h : m.toNat < n) : (v &&& m).toUInt64.toNat < n := by
  rw [UInt32.toNat_toUInt64, UInt32.toNat_and]
  exact Nat.lt_of_le_of_lt Nat.and_le_right h

theorem Memory.readRam_lt (m : Memory) (paddr : UInt32) (size : Size) :
    (m.readRam paddr size).toNat < 2 ^ (8 * size.bytes.toNat) := by
  unfold Memory.readRam
  split
  · cases size with
    | byte => exact toNat_and_lt _ _ (by decide)
    | half => exact toNat_and_lt _ _ (by decide)
    | word =>
      rw [UInt32.toNat_toUInt64]
      exact UInt32.toNat_lt _
    | double => exact UInt64.toNat_lt _
  · cases size <;> decide

theorem Cpu.readPhys_lt {c : Cpu} (h : c.mem.DevicesFit) (paddr : UInt32) (size : Size) :
    (c.readPhys paddr size).1.toNat < 2 ^ (8 * size.bytes.toNat) := by
  unfold Cpu.readPhys
  split
  · rename_i d hd
    exact h d (List.mem_of_find?_eq_some hd) paddr size
  · exact c.mem.readRam_lt paddr size

namespace KnownBits

theorem describes_of_lt {m v : UInt64} {n : Nat} (hm : ∀ i, i < 64 → bitOf m i = decide (n ≤ i))
    (h : v.toNat < 2 ^ n) : Describes ⟨m, 0⟩ v := by
  apply describes_of_bits
  intro i hi
  rw [bitOf_zero, hm i hi]
  by_cases hn : n ≤ i
  · have hb : bitOf v i = false :=
      Nat.testBit_lt_two_pow (Nat.lt_of_lt_of_le h (Nat.pow_le_pow_right (by decide) hn))
    rw [hb, Bool.false_and]
  · rw [decide_eq_false hn, Bool.and_false]

theorem bitOf_aboveByte (i : Nat) (hi : i < 64) : bitOf (~~~0xff) i = decide (8 ≤ i) := by
  have h : ∀ k : Fin 64, bitOf (~~~0xff) k.val = decide (8 ≤ k.val) := by decide
  exact h ⟨i, hi⟩

theorem bitOf_aboveHalf (i : Nat) (hi : i < 64) : bitOf (~~~0xffff) i = decide (16 ≤ i) := by
  have h : ∀ k : Fin 64, bitOf (~~~0xffff) k.val = decide (16 ≤ k.val) := by decide
  exact h ⟨i, hi⟩

theorem Describes.and_eq {x : KnownBits} {v m : UInt64} (h : x.Describes v)
    (hm : (x.mask &&& m == m) = true) : x.bits &&& m = v &&& m := by
  rw [beq_iff_eq] at hm
  rw [← show v &&& x.mask = x.bits from h, UInt64.and_assoc, hm]

end KnownBits

namespace Constants

open Interp

theorem describes_shift32 {op : ShiftOp} {x : KnownBits} {v s : UInt64} {sa : UInt32}
    (h : x.Describes v) (hs : s.toNat = sa.toNat) (hsa : sa.toNat < 32) :
    (shift32 op x s).Describes (Interp.shift32 op v.toUInt32 sa) := by
  have hs64 : s.toNat < 64 := by omega
  cases op with
  | left =>
    change KnownBits.Describes _ (sextWord (v.toUInt32 <<< sa))
    rw [sextWord_shiftLeft v s sa hs hsa]
    exact (h.shiftLeft hs64).signExtend
  | right =>
    change KnownBits.Describes _ (sextWord (v.toUInt32 >>> sa))
    rw [sextWord_shiftRight v s sa hs hsa]
    exact (h.zeroExtend.shiftRight hs64).signExtend
  | arith =>
    change KnownBits.Describes _ (sextWord (sar32 v.toUInt32 sa))
    rw [sextWord_sar32 v s sa hs hsa]
    exact (h.signExtend.shiftArith hs64).signExtend

theorem describes_shift64 {op : ShiftOp} {x : KnownBits} {v s : UInt64} (h : x.Describes v)
    (hs : s.toNat < 64) : (shift64 op x s).Describes (Interp.shift64 op v s) := by
  cases op with
  | left => exact h.shiftLeft hs
  | right => exact h.shiftRight hs
  | arith => exact h.shiftArith hs

theorem describes_evalAlu {op : AluOp} {x y : KnownBits} {v w : UInt64} (hv : x.Describes v)
    (hw : y.Describes w) : (evalAlu op x y).Describes (aluValue op v w) := by
  cases op with
  | add | addu =>
    change KnownBits.Describes _ (add32 v w)
    rw [add32_eq_sext32]
    exact (hv.add hw).signExtend
  | sub | subu =>
    change KnownBits.Describes _ (sub32 v w)
    rw [sub32_eq_sext32]
    exact (hv.sub hw).signExtend
  | and => exact hv.and hw
  | or => exact hv.or hw
  | xor => exact hv.xor hw
  | nor => exact (hv.or hw).not
  | slt => exact hv.compare slt64 hw
  | sltu => exact hv.compare (fun a b => a < b) hw
  | dadd | daddu => exact hv.add hw
  | dsub | dsubu => exact hv.sub hw

theorem describes_evalImm {i : Instr} {op : ImmOp} {x : KnownBits} {v : UInt64}
    (h : x.Describes v) : (evalImm i op x).Describes (immValue i op v) := by
  have hs : (KnownBits.const i.simm).Describes i.simm := KnownBits.describes_const.2 rfl
  have hu : (KnownBits.const i.uimm).Describes i.uimm := KnownBits.describes_const.2 rfl
  cases op with
  | addi | addiu =>
    change KnownBits.Describes _ (add32 v i.simm)
    rw [add32_eq_sext32]
    exact (h.add hs).signExtend
  | daddi | daddiu => exact h.add hs
  | slti => exact KnownBits.Describes.compare slt64 h hs
  | sltiu => exact KnownBits.Describes.compare (fun a b => a < b) h hs
  | andi => exact h.and hu
  | ori => exact h.or hu
  | xori => exact h.xor hu
  | lui => exact KnownBits.describes_const.2 i.simm_shiftLeft

def Holds (k : Constants) (c : Cpu) : Prop := ∀ r, (k.get r).Describes (c.reg r)

theorem describes_evalShift {k : Constants} {c : Cpu} {i : Instr} {op : ShiftOp}
    {amount : ShiftAmount} {width : Width} (h : k.Holds c) :
    (k.evalShift i op amount width).Describes
      (shiftValue i op amount width (c.reg i.rs) (c.reg i.rt)) := by
  have hsa : i.sa.toNat < 32 := i.sa_lt
  have hrt := h i.rt
  cases width with
  | word =>
    cases amount with
    | register =>
      simp only [evalShift]
      split
      · rename_i hm
        apply describes_shift32 hrt
        · rw [(h i.rs).and_eq hm, toNat_and_31]
        · exact and_31_lt _
      · exact KnownBits.describes_unknown _
    | field | fieldPlus32 => exact describes_shift32 hrt (by simp) hsa
  | double =>
    cases amount with
    | register =>
      simp only [evalShift]
      split
      · rename_i hm
        rw [(h i.rs).and_eq hm]
        exact describes_shift64 hrt (and_63_lt _)
      · exact KnownBits.describes_unknown _
    | field => exact describes_shift64 hrt (by simp; omega)
    | fieldPlus32 => exact describes_shift64 hrt (by simp; omega)

/-- The known bits of a result describe it. -/
theorem Holds.eval {k : Constants} {c : Cpu} {i : Instr} {v : UInt64} (h : k.Holds c)
    (hm : c.mem.DevicesFit) (hr : Result c i v) : (k.eval i).Describes v := by
  unfold Result at hr
  unfold Constants.eval
  cases hk : i.kind with
  | shift op amount width =>
    rw [hk] at hr
    rw [show v = _ from hr]
    exact describes_evalShift h
  | alu op =>
    rw [hk] at hr
    rw [show v = _ from hr]
    exact describes_evalAlu (h i.rs) (h i.rt)
  | imm op =>
    rw [hk] at hr
    rw [show v = _ from hr]
    exact describes_evalImm (h i.rs)
  | load op =>
    rw [hk] at hr
    obtain ⟨paddr, hv⟩ := hr
    have hlt := Cpu.readPhys_lt hm paddr (loadSize op)
    cases op with
    | lbu =>
      rw [hv]
      exact KnownBits.describes_of_lt KnownBits.bitOf_aboveByte hlt
    | lhu =>
      rw [hv]
      exact KnownBits.describes_of_lt KnownBits.bitOf_aboveHalf hlt
    | lwu =>
      rw [hv]
      exact KnownBits.describes_of_lt (fun i => KnownBits.bitOf_highHalf) hlt
    | lb | lh | lw | ld => exact KnownBits.describes_unknown v
  | storeConditional width =>
    rw [hk] at hr
    obtain ⟨b, hv⟩ := hr
    rw [hv]
    exact KnownBits.describes_flag b
  | _ => exact KnownBits.describes_unknown v

variable {k : Constants} {c : Cpu} {i : Instr} {pc : UInt32} {rd : Reg}

theorem Holds.isZero (h : k.Holds c) {r : Reg} (hz : k.isZero r = true) : c.reg r = 0 := by
  simp only [Constants.isZero, known?, KnownBits.value?] at hz
  split at hz
  · rename_i hf
    rw [(h r).eq_of_isFull hf]
    simpa using hz
  · cases hz

theorem substitute_eq (k : Constants) (i : Instr) :
    k.substitute i =
      (let j := if i.kind.sources.rs && k.isZero i.rs then i.clearRs else i
       if i.kind.sources.rt && k.isZero i.rt then j.clearRt else j) := by
  simp only [substitute]
  split <;> split <;> rfl

/-- Operands known to be zero may be read from register zero. -/
theorem Holds.effect_substitute (h : k.Holds c) (h0 : c.reg .zero = 0) :
    effect c (k.substitute i) pc = effect c i pc := by
  have hrs : effect c (if i.kind.sources.rs && k.isZero i.rs then i.clearRs else i) pc
      = effect c i pc := by
    split
    · rename_i hz
      rw [Bool.and_eq_true] at hz
      exact Instr.effect_clearRs hz.1 ((h.isZero hz.2).trans h0.symm)
    · rfl
  have hkind : (if i.kind.sources.rs && k.isZero i.rs then i.clearRs else i).kind = i.kind := by
    split
    · rename_i hz
      rw [Bool.and_eq_true] at hz
      exact Instr.kind_clearRs hz.1
    · rfl
  have hrt : (if i.kind.sources.rs && k.isZero i.rs then i.clearRs else i).rt = i.rt := by
    split
    · exact Instr.rt_clearRs i
    · rfl
  rw [substitute_eq]
  dsimp only
  split
  · rename_i hz
    rw [Bool.and_eq_true] at hz
    rw [Instr.effect_clearRt, hrs]
    · rw [hkind]
      exact hz.1
    · rw [hrt, h0]
      exact h.isZero hz.2
  · exact hrs

theorem effect_lui (rt : Reg) (v : UInt16) :
    effect c (.lui rt v) pc = c.setReg rt (sextWord (v.toUInt32 <<< 16)) := by
  rw [Instr.effect_imm (Instr.kind_lui rt v)]
  change c.setReg (Instr.ofOpcode ..).rt ((Instr.ofOpcode ..).simm <<< 16) = _
  rw [Instr.rt_ofOpcode, Instr.simm_shiftLeft, Instr.imm_ofOpcode]

theorem upperHalf_eq {v : UInt64} (h : v &&& 0xffff = 0) :
    (v >>> 16).toUInt16.toUInt32 <<< 16 = v.toUInt32 := by
  apply UInt32.eq_of_toBitVec_eq
  apply BitVec.eq_of_getLsbD_eq
  intro j hj
  rw [getLsbD_toUInt32 v hj]
  simp only [UInt32.toBitVec_shiftLeft, BitVec.shiftLeft_eq', BitVec.getLsbD_shiftLeft, hj,
    decide_true, Bool.true_and]
  by_cases hlow : j < 16
  · have hb : bitOf (v &&& 0xffff) j = false := by
      rw [h, bitOf_zero]
    have hm : ∀ k : Fin 16, bitOf 0xffff k.val = true := by decide
    rw [bitOf_and, hm ⟨j, hlow⟩, Bool.and_true] at hb
    simp [hlow, hb]
  · have h16 : j - 16 < 16 := by omega
    have h32 : j - 16 < 32 := by omega
    have hb : bitOf (v >>> 16) (j - 16) = bitOf v j := by
      rw [bitOf_shiftRight _ _ _ (by decide)]
      change bitOf v (16 + (j - 16)) = _
      congr 1
      omega
    rw [← hb]
    change (!decide (j < 16) && (v >>> 16).toUInt16.toUInt32.toBitVec.getLsbD (j - 16)) = _
    simp only [hlow, UInt16.toBitVec_toUInt32, UInt64.toBitVec_toUInt16, BitVec.getLsbD_setWidth,
      h16, h32, decide_true, decide_false, Bool.not_false, Bool.true_and, bitOf]

/-- A constant load has the effect of writing the constant. -/
theorem effect_load {v : UInt64} {j : Instr} (h0 : c.reg .zero = 0) (h : load? rd v = some j) :
    effect c j pc = c.setReg rd v := by
  unfold load? at h
  split at h
  · rename_i hv
    rw [beq_iff_eq] at hv
    cases h
    rw [Instr.effect_addiu h0]
    exact congrArg _ hv.symm
  · split at h
    · rename_i hv
      cases h
      have he : v.toUInt16.toUInt64 = v := by
        apply UInt64.toNat_inj.1
        have hlt : v.toNat ≤ 65535 := UInt64.le_iff_toNat_le.1 hv
        simp
        omega
      rw [Instr.effect_ori h0, he]
    · split at h
      · rename_i hv
        rw [Bool.and_eq_true, beq_iff_eq, beq_iff_eq] at hv
        cases h
        rw [effect_lui, upperHalf_eq hv.2]
        exact congrArg _ hv.1.symm
      · cases h

theorem Holds.aluTraps_of_isSafe (h : k.Holds c) {op : AluOp} (hk : i.kind = .alu op)
    (hs : k.isSafe i = true) : aluTraps op (c.reg i.rs) (c.reg i.rt) = false := by
  unfold isSafe at hs
  rw [hk] at hs
  cases op <;> first | rfl | skip
  all_goals
    simp only [Bool.and_eq_true, Bool.not_eq_true'] at hs
    simp only [aluTraps]
    rw [(h i.rs).eq_of_isFull hs.1.1, (h i.rt).eq_of_isFull hs.1.2]
    exact hs.2

theorem Holds.immTraps_of_isSafe (h : k.Holds c) {op : ImmOp} (hk : i.kind = .imm op)
    (hs : k.isSafe i = true) : immTraps i op (c.reg i.rs) = false := by
  unfold isSafe at hs
  rw [hk] at hs
  cases op <;> first | rfl | skip
  all_goals
    simp only [Bool.and_eq_true, Bool.not_eq_true'] at hs
    simp only [immTraps]
    rw [(h i.rs).eq_of_isFull hs.1]
    exact hs.2

/-- An instruction that does not trap and whose result is known writes what is known. -/
theorem Holds.effect_of_isFull (h : k.Holds c) (hd : i.dest? = some rd)
    (hf : (k.eval i).isFull = true) (hs : k.isSafe i = true)
    (hp : (i.isPure || i.isTrapping) = true) : effect c i pc = c.setReg rd (k.eval i).bits := by
  unfold Instr.isPure Instr.isTrapping at hp
  unfold Instr.dest? at hd
  cases hk : i.kind with
  | shift op amount width =>
    have he : k.eval i = k.evalShift i op amount width := by
      unfold Constants.eval
      rw [hk]
    rw [hk] at hd
    cases hd
    rw [he] at hf ⊢
    rw [Instr.effect_shift hk, execShift_eq, ← (describes_evalShift h).eq_of_isFull hf]
  | alu op =>
    have he : k.eval i = evalAlu op (k.get i.rs) (k.get i.rt) := by
      unfold Constants.eval
      rw [hk]
    rw [hk] at hd
    cases hd
    rw [he] at hf ⊢
    rw [Instr.effect_alu hk, execAlu_eq, h.aluTraps_of_isSafe hk hs,
      ← (describes_evalAlu (h i.rs) (h i.rt)).eq_of_isFull hf]
    rfl
  | imm op =>
    have he : k.eval i = evalImm i op (k.get i.rs) := by
      unfold Constants.eval
      rw [hk]
    rw [hk] at hd
    cases hd
    rw [he] at hf ⊢
    rw [Instr.effect_imm hk, execImm_eq, h.immTraps_of_isSafe hk hs,
      ← (describes_evalImm (h i.rs)).eq_of_isFull hf]
    rfl
  | load | storeConditional =>
    rw [hk] at hp
    cases hp
  | _ =>
    unfold Constants.eval at hf
    rw [hk] at hf
    cases hf

theorem Holds.effect_reduce (h : k.Holds c) (h0 : c.reg .zero = 0) (hd : i.dest? = some rd) :
    effect c (reduce i rd (k.get rd) (k.eval i) (k.isSafe i)) pc = effect c i pc := by
  unfold reduce
  split
  · rename_i hc
    rw [Bool.and_eq_true, Bool.and_eq_true] at hc
    rw [h.effect_of_isFull hd hc.1.1 hc.1.2 hc.2]
    split
    · rename_i ho
      rw [Bool.and_eq_true, beq_iff_eq] at ho
      rw [Instr.effect_nop, ← ho.2, ← (h rd).eq_of_isFull ho.1, Cpu.setReg_reg_self]
    · cases hl : load? rd (k.eval i).bits with
      | none => exact h.effect_of_isFull hd hc.1.1 hc.1.2 hc.2
      | some j => exact effect_load h0 hl
  · rfl

theorem get_fresh (r : Reg) : fresh.get r = if r = .zero then .const 0 else .unknown := by
  revert r
  decide

theorem holds_fresh (h0 : c.reg .zero = 0) : fresh.Holds c := by
  intro r
  rw [get_fresh]
  split
  · rename_i h
    rw [h, h0]
    exact KnownBits.describes_const.2 rfl
  · exact KnownBits.describes_unknown _

theorem Holds.of_sameRegs {d : Cpu} (h : k.Holds c) (hs : c.SameRegs d) : k.Holds d := by
  intro r
  rw [hs.reg r]
  exact h r

theorem Holds.set {x : KnownBits} {v : UInt64} (h : k.Holds c) (hv : x.Describes v) (r : Reg) :
    (k.set r x).Holds (c.setReg r v) := by
  unfold Constants.set Cpu.setReg
  split
  · exact h
  · intro s
    by_cases hs : r = s
    · subst hs
      simp only [get, Cpu.reg, Vector.get_put_self]
      exact hv.cut
    · simp only [get, Cpu.reg, Vector.get_put_of_ne _ _ hs]
      exact h s

theorem link_of_dest (hd : i.dest? = some rd) : i.link? = none := by
  unfold Instr.dest? at hd
  unfold Instr.link?
  cases hk : i.kind with
  | jal | jalr =>
    rw [hk] at hd
    cases hd
  | branchSign cond link likely =>
    rw [hk] at hd
    cases hd
  | _ => rfl

theorem dest_of_isReserved (h : i.isReserved = true) : i.dest? = none ∧ i.link? = none := by
  unfold Instr.isReserved at h
  unfold Instr.dest? Instr.link?
  cases hk : i.kind with
  | reserved | systemAlias => exact ⟨rfl, rfl⟩
  | _ =>
    rw [hk] at h
    cases h

theorem Holds.effect_step (h : k.Holds c) (h0 : c.reg .zero = 0) :
    effect c (k.step i).2 pc = effect c i pc := by
  have hs : effect c (k.substitute i).simplify pc = effect c i pc := by
    rw [Instr.effect_simplify h0, h.effect_substitute h0]
  unfold Constants.step
  split
  · rfl
  · dsimp only
    split
    · exact hs
    · rename_i rd hd
      split
      · exact hs
      · have hl : k.forgetLink (k.substitute i).simplify = k := by
          unfold forgetLink
          rw [link_of_dest hd]
        rw [hl, h.effect_reduce h0 hd, hs]

/-- The known bits after an instruction that completes describe the registers. -/
theorem Holds.step (h : k.Holds c) (h0 : c.reg .zero = 0) (hm : c.mem.DevicesFit)
    (hleave : (effect c i pc).leave = 0) : (k.step i).1.Holds (effect c i pc) := by
  unfold Constants.step
  split
  · rename_i hr
    obtain ⟨hd, hl⟩ := dest_of_isReserved hr
    have hs := (effect_other c pc hd hl).reg .zero
    exact holds_fresh (hs.trans h0)
  · have hs : effect c (k.substitute i).simplify pc = effect c i pc := by
      rw [Instr.effect_simplify h0, h.effect_substitute h0]
    rw [← hs] at hleave ⊢
    generalize (k.substitute i).simplify = j at hleave ⊢
    dsimp only
    split
    · rename_i hd
      unfold forgetLink
      split
      · rename_i r hl
        rw [effect_link c pc hl]
        exact h.set (KnownBits.describes_unknown _) r
      · rename_i hl
        have hk : k.Holds { c with hi := (hiLoAfter c j).hi, lo := (hiLoAfter c j).lo } := h
        exact hk.of_sameRegs (effect_other c pc hd hl)
    · rename_i rd hd
      have hl : k.forgetLink j = k := by
        unfold forgetLink
        rw [link_of_dest hd]
      obtain ⟨v, hv, hres⟩ := effect_dest hd hleave
      rw [hl]
      split
      · rename_i hz
        rw [hz, Cpu.setReg_zero] at hv
        exact h.of_sameRegs hv
      · exact (h.set (h.eval hm hres) rd).of_sameRegs hv

end Constants

end Recompiler
