import Recompiler.Proofs.Constants
import Recompiler.Trace.Widths

/-!
The widths of the registers are right. `Widths.Holds w c` says that every register of `c` fits
its width in `w`; a step of the analysis over an instruction that completes keeps this, and the
instruction it returns has the effect of the one it was given.
-/

namespace Recompiler

namespace Widths

open Interp

theorem fits_ofBool64 (b : Bool) : Fits 2 (ofBool64 b) := by
  cases b with
  | false => exact fits_of_toNat_lt (k := 1) (by decide) (by decide)
  | true => exact fits_of_toNat_lt (k := 1) (by decide) (by decide)

theorem fits_uimm (i : Instr) : Fits 17 i.uimm := by
  have h : i.uimm.toNat < 2 ^ 16 := by
    rw [Instr.uimm, UInt16.toNat_toUInt64]
    exact i.imm.toNat_lt
  exact fits_of_toNat_lt (by decide) h

theorem fits_aluValue {op : AluOp} {m n : Int} {x y : UInt64} (hm : 1 ≤ m) (hx : Fits m x)
    (hy : Fits n y) : Fits (aluWidth op m n) (aluValue op x y) := by
  cases op with
  | add | addu => exact hx.add32 hm hy
  | sub | subu => exact hx.sub32 hm hy
  | and => exact hx.and hy
  | or => exact hx.or hy
  | xor => exact hx.xor hy
  | nor => exact (hx.or hy).not
  | slt | sltu => exact fits_ofBool64 _
  | dadd | daddu => exact hx.add hm hy
  | dsub | dsubu => exact hx.sub hm hy

theorem fits_immValue {i : Instr} {op : ImmOp} {n : Int} {x : UInt64} (hn : 1 ≤ n)
    (hx : Fits n x) : Fits (immWidth op n) (immValue i op x) := by
  cases op with
  | addi | addiu => exact hx.add32 hn (Instr.fits_simm i)
  | daddi | daddiu => exact hx.add hn (Instr.fits_simm i)
  | slti | sltiu => exact fits_ofBool64 _
  | andi =>
    have h : (x &&& i.uimm).toNat < 2 ^ 16 := by
      rw [UInt64.toNat_and, Instr.uimm, UInt16.toNat_toUInt64]
      exact Nat.lt_of_le_of_lt Nat.and_le_right i.imm.toNat_lt
    exact fits_of_toNat_lt (by decide) h
  | ori => exact hx.or (fits_uimm i)
  | xori => exact hx.xor (fits_uimm i)
  | lui =>
    change Fits 32 (i.simm <<< 16)
    rw [Instr.simm_shiftLeft]
    exact fits_sextWord _

theorem fits_extendLoad {op : LoadOp} {v : UInt64}
    (h : v.toNat < 2 ^ (8 * (loadSize op).bytes.toNat)) : Fits (loadWidth op) (extendLoad op v) := by
  cases op with
  | lb => exact fits_sext8 v
  | lh => exact fits_sext16 v
  | lw => exact fits_sext32 v
  | lbu => exact fits_of_toNat_lt (k := 8) (by decide) h
  | lhu => exact fits_of_toNat_lt (k := 16) (by decide) h
  | lwu => exact fits_of_toNat_lt (k := 32) (by decide) h
  | ld => exact fits_of_le_64 (Int.le_refl 64) v

theorem fits_shift32_right {v sa : UInt32} (hsa : sa.toNat < 32) (h0 : 0 < sa.toNat) :
    Fits (33 - sa.toNat) (sextWord (v >>> sa)) := by
  have hz {j : Nat} (hj : 32 ≤ sa.toNat + j) : (v >>> sa).toBitVec.getLsbD j = false := by
    simp only [UInt32.toBitVec_shiftRight, BitVec.ushiftRight_eq', toNat_wordShiftAmount hsa,
      BitVec.getLsbD_ushiftRight]
    exact BitVec.getLsbD_of_ge _ _ hj
  intro j hj hn
  rw [bitOf_sextWord _ hj, bitOf_sextWord _ (show 63 < 64 by decide),
    if_neg (show ¬63 < 32 by decide), hz (show 32 ≤ sa.toNat + 31 by omega)]
  split
  · exact hz (by omega)
  · rfl

/-- A shift of a word by a constant. -/
theorem fits_shift32 (op : ShiftOp) {n : Int} {v : UInt64} {sa : UInt32} (hn : 1 ≤ n)
    (hv : Fits n v) (hsa : sa.toNat < 32) :
    Fits (match op with
      | .left => min 32 (n + sa.toNat)
      | .right => if (sa.toNat : Int) = 0 then min 32 n else 33 - sa.toNat
      | .arith => min 32 n - sa.toNat) (Interp.shift32 op v.toUInt32 sa) := by
  have hs : sa.toUInt64.toNat = sa.toNat := UInt32.toNat_toUInt64 sa
  have hs64 : sa.toUInt64.toNat < 64 := by omega
  cases op with
  | left =>
    change Fits _ (sextWord (v.toUInt32 <<< sa))
    rw [sextWord_shiftLeft v _ sa hs hsa, ← hs]
    exact (hv.shiftLeft hn hs64).sext32
  | right =>
    dsimp only
    split
    · rename_i h0
      have hz : sa = 0 := UInt32.toNat_inj.1 (Int.ofNat_inj.1 h0)
      rw [hz, shift32_zero, ← sext32_eq_sextWord]
      exact hv.sext32
    · exact fits_shift32_right hsa (by omega)
  | arith =>
    change Fits _ (sextWord (sar32 v.toUInt32 sa))
    rw [sextWord_sar32 v _ sa hs hsa, ← hs]
    exact (hv.sext32.sar64 hs64).sext32.mono (Int.min_le_right ..)

theorem fits_shift64 (op : ShiftOp) {n : Int} {v s : UInt64} (hn : 1 ≤ n) (hv : Fits n v)
    (hs : s.toNat < 64) :
    Fits (match op with
      | .left => n + s.toNat
      | .right => if (s.toNat : Int) = 0 then n else 65 - s.toNat
      | .arith => n - s.toNat) (Interp.shift64 op v s) := by
  cases op with
  | left => exact hv.shiftLeft hn hs
  | right =>
    dsimp only
    split
    · rename_i h0
      have hz : s = 0 := UInt64.toNat_inj.1 (Int.ofNat_inj.1 h0)
      rw [hz, shift64_zero]
      exact hv
    · exact fits_shiftRight v hs (by omega)
  | arith => exact hv.sar64 hs

theorem fits_shiftValue {w : Widths} {i : Instr} {op : ShiftOp} {amount : ShiftAmount}
    {width : Width} {x y : UInt64} (hn : 1 ≤ w.get i.rt) (hy : Fits (w.get i.rt) y) :
    Fits (w.shiftWidth i op amount width) (shiftValue i op amount width x y) := by
  have hsa : i.sa.toNat < 32 := i.sa_lt
  have hs : i.sa.toUInt64.toNat = i.sa.toNat := UInt32.toNat_toUInt64 i.sa
  cases width with
  | word =>
    have hf := fits_shift32 op hn hy hsa
    cases amount with
    | register => cases op <;> exact fits_sextWord _
    | field => cases op <;> exact hf
    | fieldPlus32 => cases op <;> exact hf
  | double =>
    cases amount with
    | register =>
      cases op with
      | left => exact fits_of_le_64 (Int.le_refl 64) _
      | right => exact fits_of_le_64 (Int.le_refl 64) _
      | arith =>
        have hf := hy.sar64 (and_63_lt x)
        exact hf.mono (by simp only [shiftWidth]; omega)
    | field =>
      have hf := fits_shift64 op (s := i.sa.toUInt64) hn hy (by omega)
      rw [hs] at hf
      cases op <;> exact hf
    | fieldPlus32 =>
      have hs' : (i.sa.toUInt64 + 32).toNat = i.sa.toNat + 32 := by
        simp
        omega
      have hf := fits_shift64 op (s := i.sa.toUInt64 + 32) hn hy (by omega)
      rw [hs'] at hf
      cases op with
      | left => exact hf.mono (by simp only [shiftWidth]; omega)
      | right => exact hf.mono (by simp only [shiftWidth]; omega)
      | arith => exact hf.mono (by simp only [shiftWidth]; omega)

/-- Does the operation of the multiply unit give sign-extended words? -/
def isWordMulDiv : MulDivOp → Bool
  | .mult | .multu | .div | .divu => true
  | _ => false

theorem fits_zeroQuotient (negative : Bool) : Fits 32 (zeroQuotient negative) := by
  cases negative with
  | false => exact fits_sextWord 0xffffffff
  | true => exact fits_sextWord 1

theorem fits_mulDiv (op : MulDivOp) (hop : isWordMulDiv op = true) (x y : UInt64) :
    Fits 32 (mulDiv op x y).hi ∧ Fits 32 (mulDiv op x y).lo := by
  cases op with
  | mult | multu => exact ⟨fits_sextWord _, fits_sext32 _⟩
  | div =>
    simp only [mulDiv]
    split
    · exact ⟨fits_sext32 x, fits_zeroQuotient _⟩
    · exact ⟨fits_sextWord (Int32.toUInt32 _), fits_sextWord (Int32.toUInt32 _)⟩
  | divu =>
    simp only [mulDiv]
    split
    · exact ⟨fits_sext32 x, fits_zeroQuotient _⟩
    · exact ⟨fits_sextWord _, fits_sextWord _⟩
  | dmult | dmultu | ddiv | ddivu => cases hop

/-- Every width lies between 1 and 64. -/
structure InRange (w : Widths) : Prop where
  reg : ∀ r, 1 ≤ w.get r ∧ w.get r ≤ 64
  hi : 1 ≤ w.hi ∧ w.hi ≤ 64
  lo : 1 ≤ w.lo ∧ w.lo ≤ 64

/-- Every register fits its width. -/
structure Holds (w : Widths) (c : Cpu) : Prop where
  reg : ∀ r, Fits (w.get r) (c.reg r)
  hi : Fits w.hi c.hi
  lo : Fits w.lo c.lo

variable {w : Widths} {k : Constants} {c : Cpu} {i : Instr} {pc : UInt32} {rd : Reg}

/-- A result fits the width computed from its operands. -/
theorem Holds.resultWidth {v : UInt64} (h : w.Holds c) (hw : w.InRange)
    (hm : c.mem.DevicesFit) (hr : Result c i v) : Fits (w.resultWidth i) v := by
  have h64 : Fits 64 v := fits_of_le_64 (Int.le_refl 64) v
  unfold Result at hr
  unfold Widths.resultWidth
  cases hk : i.kind with
  | shift op amount width =>
    rw [hk] at hr
    rw [show v = _ from hr]
    exact fits_shiftValue (hw.reg i.rt).1 (h.reg i.rt)
  | alu op =>
    rw [hk] at hr
    rw [show v = _ from hr]
    exact fits_aluValue (hw.reg i.rs).1 (h.reg i.rs) (h.reg i.rt)
  | imm op =>
    rw [hk] at hr
    rw [show v = _ from hr]
    exact fits_immValue (hw.reg i.rs).1 (h.reg i.rs)
  | mfhi =>
    rw [hk] at hr
    rw [show v = _ from hr]
    exact h.hi
  | mflo =>
    rw [hk] at hr
    rw [show v = _ from hr]
    exact h.lo
  | load op =>
    rw [hk] at hr
    obtain ⟨paddr, hv⟩ := hr
    rw [hv]
    exact fits_extendLoad (Cpu.readPhys_lt hm paddr (loadSize op))
  | storeConditional width =>
    rw [hk] at hr
    obtain ⟨b, hv⟩ := hr
    rw [hv]
    exact fits_ofBool64 b
  | loadPart side width =>
    cases width with
    | word =>
      rw [hk] at hr
      obtain ⟨u, hv⟩ := hr
      rw [hv]
      exact fits_sextWord u
    | double => exact h64
  | loadLinked width | mfc0 width | mfc1 width =>
    cases width with
    | word =>
      rw [hk] at hr
      obtain ⟨u, hv⟩ := hr
      rw [hv]
      exact fits_sextWord u
    | double => exact h64
  | cfc1 =>
    rw [hk] at hr
    obtain ⟨u, hv⟩ := hr
    rw [hv]
    exact fits_sextWord u
  | _ => exact h64

theorem Holds.sext32_reg (h : w.Holds c) {r : Reg} (hr : w.isWord r = true) :
    sext32 (c.reg r) = c.reg r :=
  sext32_eq_of_fits (h.reg r) (of_decide_eq_true hr)

/-- A sign extension of a sign-extended word is a move. -/
theorem Holds.effect_dropExtension (h : w.Holds c) (h0 : c.reg .zero = 0) :
    effect c (w.dropExtension i) pc = effect c i pc := by
  unfold dropExtension
  split
  · rename_i hk
    split
    · rename_i hc
      rw [Instr.effect_simplestMove h0, Instr.effect_shift hk, execShift_eq]
      simp only [shiftValue, hc.1, shift32_zero]
      rw [← sext32_eq_sextWord, h.sext32_reg hc.2]
    · rfl
  · rename_i hk
    split
    · rename_i hc
      rw [Instr.effect_simplestMove h0, Instr.effect_alu hk, execAlu_eq]
      simp only [aluValue, aluTraps, hc.1, h0, add32_zero, writeUnless_false]
      rw [h.sext32_reg hc.2]
    · rfl
  · rename_i hk
    split
    · rename_i hc
      rw [Instr.effect_simplestMove h0, Instr.effect_imm hk, execImm_eq]
      simp only [immValue, immTraps, Instr.simm_of_imm_zero hc.1, add32_zero, writeUnless_false]
      rw [h.sext32_reg hc.2.2]
    · rfl
  · rfl

theorem Holds.effect_step (h : w.Holds c) (h0 : c.reg .zero = 0) :
    effect c (w.step k i).2 pc = effect c i pc := by
  unfold Widths.step
  split
  · rfl
  · exact h.effect_dropExtension h0

theorem get_fresh (r : Reg) : fresh.get r = if r = .zero then 1 else 64 := by
  revert r
  decide

theorem inRange_fresh : fresh.InRange := by
  refine ⟨fun r => ?_, by decide, by decide⟩
  rw [get_fresh]
  split <;> decide

theorem holds_fresh (h0 : c.reg .zero = 0) : fresh.Holds c := by
  refine ⟨fun r => ?_, fits_of_le_64 (Int.le_refl 64) _, fits_of_le_64 (Int.le_refl 64) _⟩
  rw [get_fresh]
  split
  · rename_i hr
    rw [hr, h0]
    intro j _ _
    rw [bitOf_zero, bitOf_zero]
  · exact fits_of_le_64 (Int.le_refl 64) _

theorem clamp_range (v : Int) : 1 ≤ clamp v ∧ clamp v ≤ 64 := by
  unfold clamp
  omega

theorem get_set (w : Widths) (r s : Reg) (v : Int) :
    (w.set r v).get s = if r = s ∧ r ≠ .zero then clamp v else w.get s := by
  unfold set
  by_cases h0 : r = .zero
  · simp [h0]
  · by_cases hs : r = s
    · subst hs
      simp [get, h0]
    · simp [get, h0, hs, Vector.get_put_of_ne _ _ hs]

@[simp] theorem set_hi (w : Widths) (r : Reg) (v : Int) : (w.set r v).hi = w.hi := by
  unfold set
  split <;> rfl

@[simp] theorem set_lo (w : Widths) (r : Reg) (v : Int) : (w.set r v).lo = w.lo := by
  unfold set
  split <;> rfl

theorem InRange.set (hw : w.InRange) (r : Reg) (v : Int) : (w.set r v).InRange := by
  refine ⟨fun s => ?_, by rw [set_hi]; exact hw.hi, by rw [set_lo]; exact hw.lo⟩
  rw [get_set]
  split
  · exact clamp_range v
  · exact hw.reg s

theorem Holds.set {n : Int} {v : UInt64} (h : w.Holds c) (hv : Fits n v) (r : Reg) :
    (w.set r n).Holds (c.setReg r v) := by
  by_cases h0 : r = .zero
  · subst h0
    exact h
  · rw [Cpu.setReg_of_ne h0]
    refine ⟨fun s => ?_, by rw [set_hi]; exact h.hi, by rw [set_lo]; exact h.lo⟩
    rw [get_set]
    by_cases hs : r = s
    · subst hs
      rw [if_pos ⟨rfl, h0⟩]
      simp only [Cpu.reg, Vector.get_put_self]
      exact fits_clamp.2 hv
    · rw [if_neg fun hc => hs hc.1]
      simp only [Cpu.reg, Vector.get_put_of_ne _ _ hs]
      exact h.reg s

theorem Holds.of_sameRegs {d : Cpu} (h : w.Holds c) (hs : c.SameRegs d) : w.Holds d := by
  refine ⟨fun r => ?_, ?_, ?_⟩
  · rw [hs.reg r]
    exact h.reg r
  · rw [hs.hi]
    exact h.hi
  · rw [hs.lo]
    exact h.lo

theorem InRange.stepHiLo (hw : w.InRange) : (w.stepHiLo i).InRange := by
  have h32 : (1 : Int) ≤ 32 ∧ (32 : Int) ≤ 64 := by decide
  have h64 : (1 : Int) ≤ 64 ∧ (64 : Int) ≤ 64 := by decide
  unfold Widths.stepHiLo
  split
  · exact ⟨hw.reg, clamp_range _, hw.lo⟩
  · exact ⟨hw.reg, hw.hi, clamp_range _⟩
  all_goals first
    | exact hw
    | exact ⟨hw.reg, h32, h32⟩
    | exact ⟨hw.reg, h64, h64⟩

/-- The widths of the multiply unit after an instruction. -/
theorem Holds.stepHiLo (h : w.Holds c) :
    (w.stepHiLo i).Holds { c with hi := (hiLoAfter c i).hi, lo := (hiLoAfter c i).lo } := by
  unfold Widths.stepHiLo hiLoAfter
  cases hk : i.kind with
  | mthi => exact ⟨h.reg, fits_clamp.2 (h.reg i.rs), h.lo⟩
  | mtlo => exact ⟨h.reg, h.hi, fits_clamp.2 (h.reg i.rs)⟩
  | mulDiv op =>
    cases op with
    | mult =>
      obtain ⟨hhi, hlo⟩ := fits_mulDiv .mult rfl (c.reg i.rs) (c.reg i.rt)
      exact ⟨h.reg, hhi, hlo⟩
    | multu =>
      obtain ⟨hhi, hlo⟩ := fits_mulDiv .multu rfl (c.reg i.rs) (c.reg i.rt)
      exact ⟨h.reg, hhi, hlo⟩
    | div =>
      obtain ⟨hhi, hlo⟩ := fits_mulDiv .div rfl (c.reg i.rs) (c.reg i.rt)
      exact ⟨h.reg, hhi, hlo⟩
    | divu =>
      obtain ⟨hhi, hlo⟩ := fits_mulDiv .divu rfl (c.reg i.rs) (c.reg i.rt)
      exact ⟨h.reg, hhi, hlo⟩
    | dmult | dmultu | ddiv | ddivu =>
      exact ⟨h.reg, fits_of_le_64 (Int.le_refl 64) _, fits_of_le_64 (Int.le_refl 64) _⟩
  | _ => exact h

theorem stepHiLo_of_dest (hd : i.dest? = some rd) : w.stepHiLo i = w := by
  unfold Instr.dest? at hd
  unfold stepHiLo
  cases hk : i.kind with
  | mthi | mtlo | mulDiv =>
    rw [hk] at hd
    cases hd
  | _ => rfl

theorem stepHiLo_of_link (hl : i.link? = some rd) : w.stepHiLo i = w := by
  unfold Instr.link? at hl
  unfold stepHiLo
  cases hk : i.kind with
  | mthi | mtlo | mulDiv =>
    rw [hk] at hl
    cases hl
  | _ => rfl

theorem InRange.step (hw : w.InRange) : (w.step k i).1.InRange := by
  unfold Widths.step
  split
  · exact inRange_fresh
  · generalize w.dropExtension i = j
    have hl : ((w.stepHiLo j).stepLink k j).InRange := by
      unfold stepLink
      split
      · exact hw.stepHiLo.set _ _
      · exact hw.stepHiLo
    dsimp only
    unfold stepDest
    split
    · exact hl.set _ _
    · exact hl

theorem Holds.set_known {n : Int} {v : UInt64} {d : Cpu} (h : w.Holds c) (hv : Fits n v)
    (hs : (c.setReg rd v).SameRegs d) (hk : k.Holds d) :
    (w.set rd (min n (k.get rd).width)).Holds d := by
  by_cases h0 : rd = .zero
  · subst h0
    exact h.of_sameRegs hs
  · have hr : d.reg rd = v := (hs.reg rd).trans (Cpu.reg_setReg_self h0)
    have hf : Fits (k.get rd).width v := by
      have hd := hk rd
      rw [hr] at hd
      exact hd.fits
    exact (h.set (hv.inter hf) rd).of_sameRegs hs

/-- The widths after an instruction that completes hold, if the known bits do. -/
theorem Holds.step (h : w.Holds c) (hw : w.InRange) (h0 : c.reg .zero = 0)
    (hm : c.mem.DevicesFit) (hleave : (effect c i pc).leave = 0)
    (hk : k.Holds (effect c i pc)) : (w.step k i).1.Holds (effect c i pc) := by
  unfold Widths.step
  split
  · rename_i hr
    obtain ⟨hd, hl⟩ := Constants.dest_of_isReserved hr
    exact holds_fresh (((effect_other c pc hd hl).reg .zero).trans h0)
  · have hs : effect c (w.dropExtension i) pc = effect c i pc := h.effect_dropExtension h0
    rw [← hs] at hleave hk ⊢
    generalize w.dropExtension i = j at hleave hk ⊢
    dsimp only
    unfold stepDest
    split
    · rename_i rd hd
      obtain ⟨v, hv, hres⟩ := effect_dest hd hleave
      have hw' : (w.stepHiLo j).stepLink k j = w := by
        rw [stepHiLo_of_dest hd]
        unfold stepLink
        rw [Constants.link_of_dest hd]
      rw [hw']
      exact h.set_known (fits_clamp.2 (h.resultWidth hw hm hres)) hv hk
    · rename_i hd
      unfold stepLink
      split
      · rename_i r hl
        rw [stepHiLo_of_link hl]
        have he := effect_link c pc hl
        rw [he] at hk ⊢
        exact h.set_known (fits_sextWord _) (.refl _) hk
      · rename_i hl
        exact h.stepHiLo.of_sameRegs (effect_other c pc hd hl)

end Widths

end Recompiler
