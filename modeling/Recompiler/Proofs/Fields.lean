import Mathlib
import Recompiler.Instr.Build
import Recompiler.Instr.Class

/-!
The fields of instruction words that are put together from fields, or whose register fields
are cleared.
-/

namespace Recompiler.Instr

theorem regField_eq_of_word {i j : Instr} {p : UInt32}
    (h : (i.word >>> p) &&& 31 = (j.word >>> p) &&& 31) : i.regField p = j.regField p :=
  Fin.ext (congrArg UInt32.toNat h)

theorem regField_eq_of_ofNat {i : Instr} {p : UInt32} {r : Reg}
    (h : (i.word >>> p) &&& 31 = UInt32.ofNat r.val) : i.regField p = r := by
  have hr : r.val < UInt32.size := Nat.lt_trans r.isLt (by decide)
  apply Fin.ext
  change ((i.word >>> p) &&& 31).toNat = r.val
  rw [h, UInt32.toNat_ofNat_of_lt' hr]

theorem fmt_eq_of_rs {i j : Instr} (h : i.rs = j.rs) : i.fmt = j.fmt := by
  apply UInt32.toNat_inj.1
  have hv : i.rs.val = j.rs.val := congrArg Fin.val h
  exact hv

theorem field_or (a b p m : UInt32) :
    ((a ||| b) >>> p) &&& m = ((a >>> p) &&& m) ||| ((b >>> p) &&& m) := by
  apply UInt32.eq_of_toBitVec_eq
  apply BitVec.eq_of_getLsbD_eq
  intro j _
  simp [Bool.and_or_distrib_right]

theorem shiftRight_or (a b p : UInt32) : (a ||| b) >>> p = (a >>> p) ||| (b >>> p) := by
  apply UInt32.eq_of_toBitVec_eq
  simp [BitVec.ushiftRight_or_distrib]

theorem or_and (a b m : UInt32) : (a ||| b) &&& m = (a &&& m) ||| (b &&& m) := by
  have h := field_or a b 0 m
  simpa using h

theorem imm_shiftRight (v : UInt16) {p : UInt32} (hp : 16 ≤ p.toNat) (hp' : p.toNat < 32) :
    v.toUInt32 >>> p = 0 := by
  apply UInt32.toNat_inj.1
  have hv : v.toNat < 2 ^ p.toNat :=
    Nat.lt_of_lt_of_le v.toNat_lt (Nat.pow_le_pow_right (by decide) hp)
  rw [UInt32.toNat_shiftRight, Nat.mod_eq_of_lt hp', Nat.shiftRight_eq_div_pow]
  exact Nat.div_eq_of_lt hv

theorem placeReg_fields (r : Reg) :
    (placeReg r 21 >>> 21 &&& 31 = UInt32.ofNat r.val ∧ placeReg r 21 >>> 16 &&& 31 = 0
      ∧ placeReg r 21 >>> 11 &&& 31 = 0 ∧ placeReg r 21 >>> 6 &&& 31 = 0)
    ∧ (placeReg r 16 >>> 21 &&& 31 = 0 ∧ placeReg r 16 >>> 16 &&& 31 = UInt32.ofNat r.val
      ∧ placeReg r 16 >>> 11 &&& 31 = 0 ∧ placeReg r 16 >>> 6 &&& 31 = 0)
    ∧ (placeReg r 11 >>> 21 &&& 31 = 0 ∧ placeReg r 11 >>> 16 &&& 31 = 0
      ∧ placeReg r 11 >>> 11 &&& 31 = UInt32.ofNat r.val ∧ placeReg r 11 >>> 6 &&& 31 = 0) := by
  revert r
  decide

theorem placeReg_codes (r : Reg) :
    (placeReg r 21 >>> 26 = 0 ∧ placeReg r 16 >>> 26 = 0 ∧ placeReg r 11 >>> 26 = 0)
    ∧ (placeReg r 21 &&& 63 = 0 ∧ placeReg r 16 &&& 63 = 0 ∧ placeReg r 11 &&& 63 = 0)
    ∧ ((placeReg r 21).toUInt16 = 0 ∧ (placeReg r 16).toUInt16 = 0) := by
  revert r
  decide

theorem exists_code5 (v : UInt32) : ∃ k : Fin 32, v &&& 31 = UInt32.ofNat k.val := by
  have h : (v &&& 31).toNat ≤ 31 := by
    rw [UInt32.toNat_and]
    exact Nat.and_le_right
  exact ⟨⟨(v &&& 31).toNat, by omega⟩, (UInt32.ofNat_toNat).symm⟩

theorem exists_code6 (v : UInt32) : ∃ k : Fin 64, v &&& 63 = UInt32.ofNat k.val := by
  have h : (v &&& 63).toNat ≤ 63 := by
    rw [UInt32.toNat_and]
    exact Nat.and_le_right
  exact ⟨⟨(v &&& 63).toNat, by omega⟩, (UInt32.ofNat_toNat).symm⟩

theorem amount_fields (v : UInt32) :
    ((v &&& 31) <<< 6) >>> 21 &&& 31 = 0 ∧ ((v &&& 31) <<< 6) >>> 16 &&& 31 = 0
    ∧ ((v &&& 31) <<< 6) >>> 11 &&& 31 = 0 ∧ ((v &&& 31) <<< 6) >>> 6 &&& 31 = v &&& 31
    ∧ ((v &&& 31) <<< 6) >>> 26 = 0 ∧ ((v &&& 31) <<< 6) &&& 63 = 0 := by
  obtain ⟨k, hk⟩ := exists_code5 v
  rw [hk]
  clear hk
  revert k
  decide

theorem funct_fields (v : UInt32) :
    (v &&& 63) >>> 21 &&& 31 = 0 ∧ (v &&& 63) >>> 16 &&& 31 = 0 ∧ (v &&& 63) >>> 11 &&& 31 = 0
    ∧ (v &&& 63) >>> 6 &&& 31 = 0 ∧ (v &&& 63) >>> 26 = 0 ∧ v &&& 63 &&& 63 = v &&& 63 := by
  obtain ⟨k, hk⟩ := exists_code6 v
  rw [hk]
  clear hk
  revert k
  decide

theorem opcode_fields (v : UInt32) :
    ((v &&& 63) <<< 26) >>> 21 &&& 31 = 0 ∧ ((v &&& 63) <<< 26) >>> 16 &&& 31 = 0
    ∧ ((v &&& 63) <<< 26) >>> 26 = v &&& 63 ∧ ((v &&& 63) <<< 26).toUInt16 = 0 := by
  obtain ⟨k, hk⟩ := exists_code6 v
  rw [hk]
  clear hk
  revert k
  decide

section RegisterForm

variable (funct : UInt32) (rs rt rd : Reg) (sa : UInt32)

@[simp] theorem opcode_ofFunct : (ofFunct funct rs rt rd sa).opcode = 0 := by
  simp [opcode, ofFunct, shiftRight_or, placeReg_codes, amount_fields, funct_fields]

@[simp] theorem funct_ofFunct : (ofFunct funct rs rt rd sa).funct = funct &&& 63 := by
  simp [Instr.funct, ofFunct, or_and, placeReg_codes, amount_fields, funct_fields]

@[simp] theorem rs_ofFunct : (ofFunct funct rs rt rd sa).rs = rs := by
  apply regField_eq_of_ofNat
  simp [ofFunct, field_or, placeReg_fields, amount_fields, funct_fields]

@[simp] theorem rt_ofFunct : (ofFunct funct rs rt rd sa).rt = rt := by
  apply regField_eq_of_ofNat
  simp [ofFunct, field_or, placeReg_fields, amount_fields, funct_fields]

@[simp] theorem rd_ofFunct : (ofFunct funct rs rt rd sa).rd = rd := by
  apply regField_eq_of_ofNat
  simp [ofFunct, field_or, placeReg_fields, amount_fields, funct_fields]

@[simp] theorem sa_ofFunct : (ofFunct funct rs rt rd sa).sa = sa &&& 31 := by
  simp [Instr.sa, ofFunct, field_or, placeReg_fields, amount_fields, funct_fields]

end RegisterForm

section ImmediateForm

variable (op : UInt32) (rs rt : Reg) (imm : UInt16)

@[simp] theorem opcode_ofOpcode : (ofOpcode op rs rt imm).opcode = op &&& 63 := by
  simp [opcode, ofOpcode, shiftRight_or, placeReg_codes, opcode_fields,
    imm_shiftRight imm (p := 26) (by decide) (by decide)]

@[simp] theorem rs_ofOpcode : (ofOpcode op rs rt imm).rs = rs := by
  apply regField_eq_of_ofNat
  simp [ofOpcode, field_or, placeReg_fields, opcode_fields,
    imm_shiftRight imm (p := 21) (by decide) (by decide)]

@[simp] theorem rt_ofOpcode : (ofOpcode op rs rt imm).rt = rt := by
  apply regField_eq_of_ofNat
  simp [ofOpcode, field_or, placeReg_fields, opcode_fields,
    imm_shiftRight imm (p := 16) (by decide) (by decide)]

@[simp] theorem imm_ofOpcode : (ofOpcode op rs rt imm).imm = imm := by
  simp [Instr.imm, ofOpcode, placeReg_codes, opcode_fields]

end ImmediateForm

def clearRs (i : Instr) : Instr := ⟨i.word &&& 0xfc1fffff⟩

def clearRt (i : Instr) : Instr := ⟨i.word &&& 0xffe0ffff⟩

theorem field_and (w c p m : UInt32) : ((w &&& c) >>> p) &&& m = (w >>> p) &&& ((c >>> p) &&& m) := by
  apply UInt32.eq_of_toBitVec_eq
  apply BitVec.eq_of_getLsbD_eq
  intro j _
  simp [Bool.and_assoc]

theorem regField_and_of_keep {i : Instr} {c p : UInt32} (h : (c >>> p) &&& 31 = 31) :
    (⟨i.word &&& c⟩ : Instr).regField p = i.regField p := by
  apply regField_eq_of_word
  change ((i.word &&& c) >>> p) &&& 31 = _
  rw [field_and, h]

theorem regField_and_of_clear {i : Instr} {c p : UInt32} (h : (c >>> p) &&& 31 = 0) :
    (⟨i.word &&& c⟩ : Instr).regField p = 0 := by
  apply regField_eq_of_ofNat
  change ((i.word &&& c) >>> p) &&& 31 = _
  rw [field_and, h]
  simp

theorem shiftRight_26_and_63 (w : UInt32) : (w >>> 26) &&& (63 : UInt32) = w >>> 26 := by
  have hlt : (w >>> 26).toNat < 2 ^ 6 := by
    have hw : w.toNat < 2 ^ 32 := w.toNat_lt
    rw [UInt32.toNat_shiftRight, Nat.shiftRight_eq_div_pow]
    exact Nat.div_lt_of_lt_mul (Nat.lt_of_lt_of_le hw (by decide))
  apply UInt32.toNat_inj.1
  rw [UInt32.toNat_and]
  change _ &&& (2 ^ 6 - 1) = _
  rw [Nat.and_two_pow_sub_one_eq_mod, Nat.mod_eq_of_lt hlt]

theorem shiftRight_26_and (w c : UInt32) (h : c >>> 26 = 63) : (w &&& c) >>> 26 = w >>> 26 := by
  have hd : (w &&& c) >>> 26 = (w >>> 26) &&& (c >>> 26) := by
    apply UInt32.eq_of_toBitVec_eq
    simp [BitVec.ushiftRight_and_distrib]
  rw [hd, h, shiftRight_26_and_63]

section Clear

variable (i : Instr)

@[simp] theorem rs_clearRs : i.clearRs.rs = .zero := regField_and_of_clear (by decide)

@[simp] theorem rt_clearRs : i.clearRs.rt = i.rt := regField_and_of_keep (by decide)

@[simp] theorem rd_clearRs : i.clearRs.rd = i.rd := regField_and_of_keep (by decide)

@[simp] theorem rs_clearRt : i.clearRt.rs = i.rs := regField_and_of_keep (by decide)

@[simp] theorem rt_clearRt : i.clearRt.rt = .zero := regField_and_of_clear (by decide)

@[simp] theorem rd_clearRt : i.clearRt.rd = i.rd := regField_and_of_keep (by decide)

@[simp] theorem fd_clearRs : i.clearRs.fd = i.fd := regField_and_of_keep (by decide)

@[simp] theorem fd_clearRt : i.clearRt.fd = i.fd := regField_and_of_keep (by decide)

@[simp] theorem sa_clearRs : i.clearRs.sa = i.sa := by
  change ((i.word &&& 0xfc1fffff) >>> 6) &&& 31 = _
  rw [field_and]
  rfl

@[simp] theorem sa_clearRt : i.clearRt.sa = i.sa := by
  change ((i.word &&& 0xffe0ffff) >>> 6) &&& 31 = _
  rw [field_and]
  rfl

@[simp] theorem opcode_clearRs : i.clearRs.opcode = i.opcode :=
  shiftRight_26_and i.word _ (by decide)

@[simp] theorem opcode_clearRt : i.clearRt.opcode = i.opcode :=
  shiftRight_26_and i.word _ (by decide)

@[simp] theorem funct_clearRs : i.clearRs.funct = i.funct := by
  change i.word &&& 0xfc1fffff &&& 63 = i.word &&& 63
  rw [UInt32.and_assoc]
  rfl

@[simp] theorem funct_clearRt : i.clearRt.funct = i.funct := by
  change i.word &&& 0xffe0ffff &&& 63 = i.word &&& 63
  rw [UInt32.and_assoc]
  rfl

@[simp] theorem imm_clearRs : i.clearRs.imm = i.imm := by
  change (i.word &&& 0xfc1fffff).toUInt16 = i.word.toUInt16
  rw [UInt32.toUInt16_and]
  exact UInt16.and_neg_one

@[simp] theorem imm_clearRt : i.clearRt.imm = i.imm := by
  change (i.word &&& 0xffe0ffff).toUInt16 = i.word.toUInt16
  rw [UInt32.toUInt16_and]
  exact UInt16.and_neg_one

end Clear

theorem kind_ofFunct (funct : UInt32) (rs rt rd : Reg) (sa : UInt32) :
    (ofFunct funct rs rt rd sa).kind = .ofSpecial (funct &&& 63) := by
  unfold kind
  rw [opcode_ofFunct]
  change Kind.ofSpecial (ofFunct funct rs rt rd sa).funct = _
  rw [funct_ofFunct]

theorem kind_nop : nop.kind = .shift .left .field .word := by decide

theorem kind_move (rd rs : Reg) : (move rd rs).kind = .alu .or := kind_ofFunct ..

theorem kind_extendWord (rd rs : Reg) : (extendWord rd rs).kind = .alu .addu := kind_ofFunct ..

theorem kind_extendShift (rd rt : Reg) : (extendShift rd rt).kind = .shift .left .field .word :=
  kind_ofFunct ..

theorem kind_jr (rs : Reg) : (jr rs).kind = .jr := kind_ofFunct ..

theorem kind_eq_of_opcode {i j : Instr} (h : i.opcode = j.opcode) (h0 : j.opcode ≠ 0x00)
    (h1 : j.opcode ≠ 0x01) (h2 : j.opcode ≠ 0x10) (h3 : j.opcode ≠ 0x11) : i.kind = j.kind := by
  unfold kind
  rw [h]
  split
  all_goals first
    | rfl
    | contradiction

theorem kind_ofOpcode (op : UInt32) (rs rt : Reg) (imm : UInt16) {j : Instr}
    (h : op &&& 63 = j.opcode) (h0 : j.opcode ≠ 0x00) (h1 : j.opcode ≠ 0x01)
    (h2 : j.opcode ≠ 0x10) (h3 : j.opcode ≠ 0x11) : (ofOpcode op rs rt imm).kind = j.kind :=
  kind_eq_of_opcode ((opcode_ofOpcode ..).trans h) h0 h1 h2 h3

theorem kind_addiu (rt rs : Reg) (imm : UInt16) : (addiu rt rs imm).kind = .imm .addiu :=
  kind_ofOpcode 0x09 rs rt imm (j := ⟨0x24000000⟩) rfl (by decide) (by decide) (by decide)
    (by decide)

theorem kind_ori (rt rs : Reg) (imm : UInt16) : (ori rt rs imm).kind = .imm .ori :=
  kind_ofOpcode 0x0d rs rt imm (j := ⟨0x34000000⟩) rfl (by decide) (by decide) (by decide)
    (by decide)

theorem kind_lui (rt : Reg) (imm : UInt16) : (lui rt imm).kind = .imm .lui :=
  kind_ofOpcode 0x0f .zero rt imm (j := ⟨0x3c000000⟩) rfl (by decide) (by decide) (by decide)
    (by decide)

theorem kind_always (off : UInt16) : (always off).kind = .branchEq .eq false :=
  kind_ofOpcode 0x04 .zero .zero off (j := ⟨0x10000000⟩) rfl (by decide) (by decide) (by decide)
    (by decide)

theorem sources_ofCop0 (code funct : UInt32) : (Kind.ofCop0 code funct).sources.rs = false := by
  unfold Kind.ofCop0
  repeat' split
  all_goals rfl

theorem sources_ofCop1 (code funct : UInt32) : (Kind.ofCop1 code funct).sources.rs = false := by
  unfold Kind.ofCop1
  split <;> rfl

theorem sources_ofRegimm (code : Reg) : (Kind.ofRegimm code).sources.rt = false := by
  unfold Kind.ofRegimm
  split <;> rfl

theorem ofSpecial_ne_branchEq (funct : UInt32) (cond : EqCond) (likely : Bool) :
    Kind.ofSpecial funct ≠ .branchEq cond likely := by
  unfold Kind.ofSpecial
  split <;> nofun

theorem kind_of_opcode_zero {i : Instr} (h : i.opcode = 0x00) : i.kind = .ofSpecial i.funct := by
  unfold kind
  rw [h]
  rfl

theorem kind_of_opcode_one {i : Instr} (h : i.opcode = 0x01) : i.kind = .ofRegimm i.rt := by
  unfold kind
  rw [h]
  rfl

theorem kind_of_opcode_cop0 {i : Instr} (h : i.opcode = 0x10) :
    i.kind = .ofCop0 i.fmt i.funct := by
  unfold kind
  rw [h]
  rfl

theorem kind_of_opcode_cop1 {i : Instr} (h : i.opcode = 0x11) :
    i.kind = .ofCop1 i.fmt i.funct := by
  unfold kind
  rw [h]
  rfl

theorem opcode_of_sources_rs {i : Instr} (h : i.kind.sources.rs = true) :
    i.opcode ≠ 0x10 ∧ i.opcode ≠ 0x11 := by
  constructor
  · intro ho
    rw [kind_of_opcode_cop0 ho, sources_ofCop0] at h
    cases h
  · intro ho
    rw [kind_of_opcode_cop1 ho, sources_ofCop1] at h
    cases h

theorem opcode_of_sources_rt {i : Instr} (h : i.kind.sources.rt = true) : i.opcode ≠ 0x01 := by
  intro ho
  rw [kind_of_opcode_one ho, sources_ofRegimm] at h
  cases h

theorem kind_clearRs {i : Instr} (h : i.kind.sources.rs = true) : i.clearRs.kind = i.kind := by
  obtain ⟨h2, h3⟩ := opcode_of_sources_rs h
  have ho : i.clearRs.opcode = i.opcode := opcode_clearRs i
  by_cases h0 : i.opcode = 0x00
  · rw [kind_of_opcode_zero h0, kind_of_opcode_zero (ho.trans h0), funct_clearRs]
  · by_cases h1 : i.opcode = 0x01
    · rw [kind_of_opcode_one h1, kind_of_opcode_one (ho.trans h1), rt_clearRs]
    · exact kind_eq_of_opcode ho h0 h1 h2 h3

theorem kind_clearRt {i : Instr} (h : i.kind.sources.rt = true) : i.clearRt.kind = i.kind := by
  have h1 : i.opcode ≠ 0x01 := opcode_of_sources_rt h
  have ho : i.clearRt.opcode = i.opcode := opcode_clearRt i
  have hf : i.clearRt.fmt = i.fmt := fmt_eq_of_rs (rs_clearRt i)
  by_cases h0 : i.opcode = 0x00
  · rw [kind_of_opcode_zero h0, kind_of_opcode_zero (ho.trans h0), funct_clearRt]
  · by_cases h2 : i.opcode = 0x10
    · rw [kind_of_opcode_cop0 h2, kind_of_opcode_cop0 (ho.trans h2), funct_clearRt, hf]
    · by_cases h3 : i.opcode = 0x11
      · rw [kind_of_opcode_cop1 h3, kind_of_opcode_cop1 (ho.trans h3), funct_clearRt, hf]
      · exact kind_eq_of_opcode ho h0 h1 h2 h3

theorem kind_branch {i : Instr} {cond : EqCond} {likely : Bool}
    (hk : i.kind = .branchEq cond likely) (rs rt : Reg) (off : UInt16) :
    (branch i.opcode rs rt off).kind = i.kind := by
  have hs : i.kind.sources = ⟨true, true⟩ := by
    rw [hk]
    rfl
  obtain ⟨h2, h3⟩ := opcode_of_sources_rs (congrArg Kind.Sources.rs hs)
  have h1 := opcode_of_sources_rt (congrArg Kind.Sources.rt hs)
  have h0 : i.opcode ≠ 0x00 := by
    intro ho
    rw [kind_of_opcode_zero ho] at hk
    exact ofSpecial_ne_branchEq _ _ _ hk
  exact kind_ofOpcode _ rs rt off (shiftRight_26_and_63 i.word) h0 h1 h2 h3

end Recompiler.Instr
