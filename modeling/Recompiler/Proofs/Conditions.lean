import Recompiler.Proofs.Crowding
import Recompiler.Proofs.DecidedBranches
import Recompiler.Proofs.Exits

/-!
What branches test. The code of a test leaves a temporary that is nonzero exactly if the branch is
taken, and that of a jump one with the target.
-/

namespace Recompiler

open Ir Emit Interp

variable {W : Finished} {Q : Cpu → Prop} {c₀ : HostCache} {m₀ m : Machine Cpu} {env : Operands}
  {e : Emitter} {g c : Cpu} {cfg : Config} {s : Site} {i : Recompiler.Instr} {pc : UInt32}

/-- Does the test of the branch `i` hold? -/
def Emit.BranchTest.holds (c : Cpu) (i : Recompiler.Instr) : BranchTest → Bool
  | .fpFlag value => (c.fcr31 &&& FpControl.condition != 0) == value
  | .equal => c.reg i.rs == c.reg i.rt
  | .different => c.reg i.rs != c.reg i.rt
  | .atMostZero => !slt64 0 (c.reg i.rs)
  | .aboveZero => slt64 0 (c.reg i.rs)
  | .negative => signBit64 (c.reg i.rs)
  | .notNegative => !signBit64 (c.reg i.rs)

theorem isJump_ofSpecial {funct : UInt32} (h : (Kind.ofSpecial funct).isBranch = true) :
    (Kind.ofSpecial funct).isJump = true := by
  unfold Kind.ofSpecial at h ⊢
  split at h <;> first | rfl | cases h

theorem isBranch_ofCop0 (code funct : UInt32) : (Kind.ofCop0 code funct).isBranch = false := by
  unfold Kind.ofCop0
  repeat' split
  all_goals rfl

theorem opcode_of_branch (hb : i.isBranch = true) (hj : i.isJump = false) :
    i.opcode = 0x01 ∨ i.opcode = 0x11 ∨ i.opcode ∈
      [0x04, 0x05, 0x06, 0x07, 0x14, 0x15, 0x16, 0x17] := by
  unfold Recompiler.Instr.isBranch at hb
  unfold Recompiler.Instr.isJump at hj
  unfold Recompiler.Instr.kind at hb hj
  split at hb
  case h_1 ho =>
    rw [ho] at hj
    cases (isJump_ofSpecial hb).symm.trans hj
  case h_2 ho => exact .inl ho
  case h_3 ho | h_4 ho =>
    rw [ho] at hj
    cases hj
  case h_17 ho =>
    rw [isBranch_ofCop0] at hb
    cases hb
  case h_18 ho => exact .inr (.inl ho)
  all_goals first
    | cases hb; done
    | rename_i ho; rw [ho]; decide

theorem holds_of_regimm (hb : i.isBranch = true) (ho : i.opcode = 0x01) :
    branch? c i pc = some (relative i pc ((branchTest i).holds c i)) := by
  have hk := Recompiler.Instr.kind_of_opcode_one ho
  unfold Recompiler.Instr.isBranch at hb
  rw [hk] at hb
  unfold branch? branchTest
  rw [hk, ho]
  unfold Kind.ofRegimm at hb ⊢
  split at hb
  all_goals first
    | cases hb; done
    | rename_i hr; rw [hr]; rfl

theorem holds_of_cop1 (hb : i.isBranch = true) (ho : i.opcode = 0x11) :
    branch? c i pc = some (relative i pc ((branchTest i).holds c i)) := by
  have hk := Recompiler.Instr.kind_of_opcode_cop1 ho
  unfold Recompiler.Instr.isBranch at hb
  rw [hk] at hb
  unfold branch? branchTest
  rw [hk, ho]
  unfold Kind.ofCop1 at hb ⊢
  split at hb
  all_goals first
    | cases hb; done
    | skip
  have hbit : i.rt.val.testBit 0 = (i.rt.val % 2 == 1) := Nat.testBit_zero _
  change some (relative i pc _) = some (relative i pc ((BranchTest.fpFlag _).holds c i))
  rw [hbit]
  rfl

theorem branch?_of_test (hb : i.isBranch = true) (hj : i.isJump = false) :
    branch? c i pc = some (relative i pc ((branchTest i).holds c i)) := by
  rcases opcode_of_branch hb hj with ho | ho | ho
  · exact holds_of_regimm hb ho
  · exact holds_of_cop1 hb ho
  · simp only [List.mem_cons, List.not_mem_nil, or_false] at ho
    rcases ho with ho | ho | ho | ho | ho | ho | ho | ho
    all_goals
      unfold branch? branchTest Recompiler.Instr.kind
      rw [ho]
      rfl

theorem effect_of_isBranch (h : i.isBranch = true) : effect c i pc =
    (i.link?.elim c fun r => c.setReg r (sextWord (pc + 8))) := by
  unfold Recompiler.Instr.isBranch at h
  unfold effect Recompiler.Instr.link?
  cases hk : i.kind with
  | j | jal | jr | jalr | branchEq | branchZero | branchFp => rfl
  | branchSign cond link likely => cases link <;> rfl
  | _ =>
    rw [hk] at h
    cases h

theorem ofBool32_ne_zero (b : Bool) : (ofBool32 b != 0) = b := by cases b <;> rfl

theorem ofBool32_xor (b : Bool) : ofBool32 b ^^^ 1 = ofBool32 (!b) := by cases b <;> rfl

theorem evalConst_sltu_one (v : UInt32) :
    Machine.evalConst .sltu v 1 = ofBool32 (!(v != 0)) := by
  have h : v < 1 ↔ v = 0 := by
    rw [UInt32.lt_iff_toNat_lt, ← UInt32.toNat_inj]
    exact Nat.lt_one_iff
  refine congrArg ofBool32 ?_
  rw [Bool.eq_iff_iff, decide_eq_true_eq, h, Bool.not_eq_true', bne_eq_false_iff_eq]

theorem xor_ne_zero (u v : UInt32) : (u ^^^ v != 0) = (u != v) := by
  rw [Bool.eq_iff_iff, bne_iff_ne, bne_iff_ne, Ne, Ne, UInt32.xor_eq_zero_iff]

theorem bne_words (x y : UInt64) :
    ((lowWord x ^^^ lowWord y) ||| (highWord x ^^^ highWord y) != 0) = (x != y) := by
  rw [Bool.eq_iff_iff, bne_iff_ne, bne_iff_ne, Ne, Ne, UInt32.or_eq_zero_iff,
    UInt32.xor_eq_zero_iff, UInt32.xor_eq_zero_iff]
  refine not_congr ⟨fun ⟨hl, hh⟩ => ?_, fun h => by rw [h]; exact ⟨rfl, rfl⟩⟩
  rw [← joinWords_high_low x, ← joinWords_high_low y, hl, hh]

theorem bne_lowWords {x y : UInt64} (hx : sextWord (lowWord x) = x) (hy : sextWord (lowWord y) = y) :
    (lowWord x ^^^ lowWord y != 0) = (x != y) := by
  rw [xor_ne_zero, Bool.eq_iff_iff, bne_iff_ne, bne_iff_ne]
  refine not_congr ⟨fun h => ?_, fun h => by rw [h]⟩
  rw [← hx, ← hy, h]

theorem slt64_one (x : UInt64) : slt64 x 1 = !slt64 0 x := by
  rw [slt64_eq_decide, slt64_eq_decide, ← decide_not, decide_eq_decide]
  change x.toBitVec.toInt < 1 ↔ ¬ 0 < x.toBitVec.toInt
  omega

theorem shiftRight_sign (v : UInt32) : v >>> 31 = ofBool32 (signBit32 v) := by
  have hv := v.toNat_lt
  have h : (v >>> 31).toNat = v.toNat / 2 ^ 31 := Nat.shiftRight_eq_div_pow _ _
  rw [← UInt32.toNat_inj, h, signBit32_eq]
  by_cases hs : 0x80000000 ≤ v.toNat
  · simp only [hs, decide_true, ofBool32]
    change _ = 1
    omega
  · simp only [hs, decide_false, ofBool32]
    change _ = 0
    omega

theorem signBit64_highWord (x : UInt64) : signBit64 x = signBit32 (highWord x) := by
  have hx := x.toNat_lt
  rw [signBit64_eq_msb, BitVec.msb_eq_decide, signBit32_eq, toNat_highWord, decide_eq_decide]
  change 2 ^ 63 ≤ x.toNat ↔ _
  omega

theorem signBit64_sextWord (v : UInt32) : signBit64 (sextWord v) = signBit32 v := by
  have hv := v.toNat_lt
  rw [signBit64_eq_msb, BitVec.msb_eq_decide, signBit32_eq, decide_eq_decide]
  change 2 ^ 63 ≤ (sextWord v).toNat ↔ _
  rw [toNat_sextWord]
  split <;> omega

def Tests (c₀ : HostCache) (m₀ : Machine Cpu) (g : Cpu) (t : HostReg) (b : Bool) (e : Emitter)
    (m : Machine Cpu) : Prop :=
  ∃ v, Working c₀ m₀ [(t, .temp, v)] e m g ∧ (v != 0) = b

namespace Working

variable {t : HostReg} {u : UInt32} {x y : GuestReg}

protected theorem differ (h : Working c₀ m₀ [(t, .temp, u)] e m g) (hw : s.widths.Holds g) :
    Runs W Q (differ s x y t) e m fun _ e' m' =>
      Tests c₀ m₀ g t (g.guest x != g.guest y) e' m' := by
  unfold Emit.differ
  refine .bind (h.inLow x) fun xl e m h => ?_
  refine .bind (h.inLow y) fun yl e m h => ?_
  refine .bind (h.setTemp 2 rfl (i := .bin .xor xl yl t) rfl
    (perform_bin .xor (h.valueAt 1 rfl) (h.valueAt 0 rfl))) fun _ e m h => ?_
  refine .ite (fun _ => ?_) fun hboth => .pure ⟨_, h.weaken (List.sublist_append_right [_, _] _), ?_⟩
  · refine .bind h.temp fun w e m h => ?_
    refine .bind (h.inHigh x) fun xh e m h => ?_
    refine .bind (h.inHigh y) fun yh e m h => ?_
    refine .bind (h.setTemp 2 rfl (i := .bin .xor xh yh w) rfl
      (perform_bin .xor (h.valueAt 1 rfl) (h.valueAt 0 rfl))) fun _ e m h => ?_
    refine (h.setTemp 5 rfl (i := .bin .or t w t) rfl
      (perform_bin .or (h.valueAt 5 rfl) (h.valueAt 2 rfl))).imp fun _ e m h =>
        ⟨_, h.weaken (List.sublist_append_right [_, _, _, _, _] _), bne_words _ _⟩
  · simp only [Bool.not_eq_true', Bool.and_eq_false_iff, not_or, Bool.not_eq_false] at hboth
    exact bne_lowWords (Site.sextWord_guest hw hboth.1) (Site.sextWord_guest hw hboth.2)

/-- A word is at most zero if it is below one. -/
protected theorem lessThanOne (h : Working c₀ m₀ [(t, .temp, u)] e m g) (hw : s.widths.Holds g) :
    Runs W Q (lessThanOne s x t) e m fun _ e' m' =>
      Working c₀ m₀ [(t, .temp, ofBool32 (!slt64 0 (g.guest x)))] e' m' g := by
  unfold Emit.lessThanOne
  rw [← slt64_one]
  refine .ite (fun hs => ?_) fun _ => ?_
  · refine .bind (h.inLow x) fun l e m h => ?_
    have hv : Machine.evalConst .slt (lowWord (g.guest x)) 1 = ofBool32 (slt64 (g.guest x) 1) := by
      rw [← Site.sextWord_guest hw hs, lowWord, toUInt32_sextWord]
      exact congrArg ofBool32 (slt64_sextWord _ 1).symm
    exact (h.setTemp 1 rfl (i := .const .slt l 1 t) rfl
      (hv ▸ perform_const .slt (h.valueAt 0 rfl) (by simp))).imp fun _ e m h =>
        h.weaken (List.sublist_append_right [_] _)
  · refine .bind (h.inHigh x) fun high e m h => ?_
    refine .bind (h.inLow x) fun low e m h => ?_
    refine .bind (h.constant 1) fun one e m hconst => ?_
    obtain ⟨h, hone, hne⟩ := hconst
    have hr : HostReg.rz ≠ t := by
      obtain ⟨r, rfl, -⟩ := h.temps t u (List.mem_of_getElem? (i := 2) rfl)
      exact (Machine.ofSlot_ne_rz r).symm
    exact (h.compareBoth 2 rfl true (h.valueAt 1 rfl) (h.valueAt 0 rfl) (w := 1) rfl hone
      ⟨h.ne_temp 1 2 rfl Content.noConfusion rfl, h.ne_temp 0 2 rfl Content.noConfusion rfl, hr,
        hne t u (List.mem_of_getElem? (i := 2) rfl)⟩).imp
      fun _ e m h => h.weaken (List.sublist_append_right [_, _] _)

protected theorem signWord (h : Working c₀ m₀ env e m g) (hw : s.widths.Holds g) :
    Runs W Q (signWord s x) e m fun d e' m' =>
      ∃ k v, Working c₀ m₀ ((d, k, v) :: env) e' m' g ∧ v >>> 31 = ofBool32 (signBit64 (g.guest x)) := by
  unfold Emit.signWord
  refine .ite (fun hs => ?_) fun _ => ?_
  · refine (h.inLow x).imp fun _ e m h => ⟨_, _, h, ?_⟩
    rw [shiftRight_sign, ← signBit64_sextWord, Site.sextWord_guest hw hs]
  · refine (h.inHigh x).imp fun _ e m h => ⟨_, _, h, ?_⟩
    rw [shiftRight_sign, signBit64_highWord]

end Working

namespace Emit

/-- The code of a test, which sets `t`. -/
def test (s : Site) (i : Recompiler.Instr) (t : HostReg) : BranchTest → EmitM Unit
  | .fpFlag value => do
    let control ← inWord Layout.fcr31
    const .and control 0x00800000 t
    if !value then const .sltu t 1 t
  | .equal => do
    differ s (rs i) (rt i) t
    const .sltu t 1 t
  | .different => differ s (rs i) (rt i) t
  | .atMostZero => lessThanOne s (rs i) t
  | .aboveZero => do
    lessThanOne s (rs i) t
    const .xor t 1 t
  | .negative => do
    let x ← signWord s (rs i)
    const .srl x 31 t
  | .notNegative => do
    let x ← signWord s (rs i)
    const .srl x 31 t
    const .xor t 1 t

theorem condition_eq (s : Site) (i : Recompiler.Instr) : condition s i = (do
    let t ← temp
    test s i t (branchTest i)
    return t) := by
  unfold condition
  refine congrArg (temp >>= ·) (funext fun t => ?_)
  cases branchTest i with
  | fpFlag value => cases value <;> simp only [test, bind_assoc] <;> rfl
  | _ => simp only [test, bind_assoc]

instance (s : Site) (i : Recompiler.Instr) (t : HostReg) (b : BranchTest) : Grows (test s i t b) := by
  cases b <;> unfold test <;> infer_instance

end Emit

namespace Working

variable {t : HostReg} {u : UInt32} {b : Bool}

theorem retest (h : Working c₀ m₀ [(t, .temp, u)] e m g) (op : ConstOp) {a : UInt32}
    (ha : op = .sll ∨ op = .srl ∨ op = .sra → a.toNat < 32)
    (hv : (Machine.evalConst op u a != 0) = b) :
    Runs W Q (const op t a t) e m fun _ e' m' => Tests c₀ m₀ g t b e' m' :=
  (h.setTemp 0 rfl rfl (perform_const op (h.valueAt 0 rfl) ha)).imp fun _ _ _ h => ⟨_, h, hv⟩

theorem flip (h : Working c₀ m₀ [(t, .temp, ofBool32 (!b))] e m g) :
    Runs W Q (const .xor t 1 t) e m fun _ e' m' => Tests c₀ m₀ g t b e' m' := by
  refine h.retest .xor (by simp) ?_
  change (ofBool32 (!b) ^^^ 1 != 0) = b
  rw [ofBool32_xor, ofBool32_ne_zero, Bool.not_not]

protected theorem test (h : Working c₀ m₀ [(t, .temp, u)] e m g) (hs : g.Stands c)
    (hw : s.widths.Holds g) (test : BranchTest) :
    Runs W Q (Emit.test s i t test) e m fun _ e' m' => Tests c₀ m₀ g t (test.holds c i) e' m' := by
  have hrs : g.guest (Emit.rs i) = c.reg i.rs := (hs.guest _).trans (Cpu.guest_ofReg _ _)
  have hrt : g.guest (Emit.rt i) = c.reg i.rt := (hs.guest _).trans (Cpu.guest_ofReg _ _)
  unfold BranchTest.holds
  cases test with
  | fpFlag value =>
    have hload : g.loadWord Layout.fcr31 = c.fcr31 := by
      obtain ⟨pc, delay, leave, f, rfl⟩ := hs
      exact Cpu.loadWord_of_field? _ (Cpu.field?_offset .fcr31)
    refine .bind (h.inWord (.inr (.inr rfl))) fun x e m h => ?_
    refine .bind (h.setTemp 1 rfl (i := .const .and x 0x00800000 t) rfl
      (perform_const .and (h.valueAt 0 rfl) nofun)) fun _ e m h => ?_
    have h := h.weaken (List.sublist_append_right [_] _)
    rw [hload] at h
    cases value with
    | true => exact .pure ⟨_, h, (beq_true _).symm⟩
    | false =>
      refine h.retest .sltu (by simp) ?_
      rw [evalConst_sltu_one, ofBool32_ne_zero]
      exact (beq_false _).symm
  | equal =>
    refine .bind (h.differ hw) fun _ e m ⟨v, h, hv⟩ => h.retest .sltu (by simp) ?_
    rw [evalConst_sltu_one, ofBool32_ne_zero, hv, hrs, hrt]
    exact Bool.not_not _
  | different =>
    rw [← hrs, ← hrt]
    exact h.differ hw
  | atMostZero =>
    rw [← hrs]
    exact (h.lessThanOne hw).imp fun _ e m h => ⟨_, h, ofBool32_ne_zero _⟩
  | aboveZero =>
    rw [← hrs]
    exact .bind (h.lessThanOne hw) fun _ e m h => h.flip
  | negative =>
    rw [← hrs]
    refine .bind (h.signWord hw) fun x e m ⟨k, v, h, hv⟩ => ?_
    refine (h.setTemp 1 rfl (i := .const .srl x 31 t) rfl
      (perform_const .srl (h.valueAt 0 rfl) (by decide))).imp fun _ e m h =>
        ⟨_, h.weaken (List.sublist_append_right [_] _), ?_⟩
    change (v >>> 31 != 0) = _
    rw [hv, ofBool32_ne_zero]
  | notNegative =>
    rw [← hrs]
    refine .bind (h.signWord hw) fun x e m ⟨k, v, h, hv⟩ => ?_
    refine .bind (h.setTemp 1 rfl (i := .const .srl x 31 t) rfl
      (perform_const .srl (h.valueAt 0 rfl) (by decide))) fun _ e m h => flip ?_
    have h := h.weaken (List.sublist_append_right [_] _)
    change Working c₀ m₀ [(t, .temp, v >>> 31)] e m g at h
    rwa [hv, ← Bool.not_not (signBit64 _)] at h

protected theorem condition (h : Working c₀ m₀ [] e m g) (hs : g.Stands c)
    (hw : s.widths.Holds g) : Runs W Q (condition s i) e m fun t e' m' =>
      Tests c₀ m₀ g t ((branchTest i).holds c i) e' m' := by
  rw [condition_eq]
  refine .bind h.temp fun t e m h => ?_
  exact .bind (h.test hs hw _) fun _ e m h => .pure h

end Working

/-- The states differ in the registers of the guest only. -/
structure HostCache.SameRest (c c' : HostCache) : Prop where
  builder : c'.builder = c.builder
  depth : c'.depth = c.depth
  fpSlots : c'.fpSlots = c.fpSlots

theorem HostCache.sameRest_retired (keep : HostReg) (xs : List HostReg) (c : HostCache) :
    c.SameRest (xs.foldl (fun c x => if x = keep then c else c.drop x) c) := by
  induction xs generalizing c with
  | nil => exact ⟨rfl, rfl, rfl⟩
  | cons x xs ih =>
    obtain ⟨hb, hd, hf⟩ : c.SameRest (c.drop x) := by
      unfold drop modifySlot
      split <;> exact ⟨rfl, rfl, rfl⟩
    rw [List.foldl_cons]
    split
    · exact ih c
    · obtain ⟨hb', hd', hf'⟩ := ih (c.drop x)
      exact ⟨hb'.trans hb, hd'.trans hd, hf'.trans hf⟩

def HostCache.keeping (r : Fin 9) : HostCache :=
  (HostCache.create Builder.empty).setSlot r (.fresh .temp false)

theorem HostCache.temp_create (b : Builder) (r : Fin 9) :
    ((HostCache.create b).slot r).content ≠ .temp := by
  rw [slot, create, Vector.get_replicate]
  exact Content.noConfusion

theorem HostCache.temp_keeping {r r' : Fin 9} (h : ((HostCache.keeping r).slot r').content = .temp) :
    r' = r := by
  by_contra hne
  rw [keeping, slot_setSlot_of_ne _ _ (Ne.symm hne)] at h
  exact temp_create _ _ h

namespace Working

theorem unkept (h : Working c₀ m₀ env e m g) (b : Builder) (m₁ : Machine Cpu) :
    Working (.create b) m₁ [] e m g :=
  ⟨h.agrees, h.proper, ⟨fun r hr => absurd hr (HostCache.temp_create b r),
    fun r hr => absurd hr (HostCache.temp_create b r)⟩, nofun, nofun, .nil⟩

theorem keep {t : HostReg} {v : UInt32} (h : Working c₀ m₀ [(t, .temp, v)] e m g) :
    ∃ r, t = .ofSlot r ∧ ((HostCache.keeping r).slot r).content = .temp ∧
      Working (.keeping r) m [] e m g ∧ m.get (.ofSlot r) = v := by
  obtain ⟨r, rfl, -, ht, -⟩ := h.temps _ _ List.mem_cons_self
  refine ⟨r, rfl, by rw [HostCache.keeping, HostCache.slot_setSlot_self]; rfl, ⟨h.agrees, h.proper, ⟨fun r' hr' => ?_, fun _ _ => rfl⟩, nofun, nofun, .nil⟩,
    h.valueAt 0 rfl⟩
  rwa [HostCache.temp_keeping hr']

protected theorem writeLink (h : Working c₀ m₀ [] e m g) (hb : i.isBranch = true) :
    Runs W Q (writeLink s i) e m fun _ e' m' => Working c₀ m₀ [] e' m' (effect g i s.pc) := by
  rw [effect_of_isBranch hb]
  unfold Emit.writeLink
  cases i.link? with
  | none => exact .pure h
  | some r =>
    change Runs W Q _ e m fun _ e' m' => Working c₀ m₀ [] e' m' (g.setReg r (sextWord (s.pc + 8)))
    refine .ite (fun _ => ?_) fun hr => .pure ?_
    · refine .bind (h.outSigned _) fun d e m hd => ?_
      rw [← Cpu.setGuest_ofReg]
      exact hd.writeConst _
    · rw [Cpu.setReg, if_pos (Classical.not_not.mp hr)]
      exact h

protected theorem unpinAll (h : Working c₀ m₀ [] e m g) :
    Runs W Q (modifyCache unpinAll) e m fun _ e' m' => Working c₀ m₀ [] e' m' g := by
  have hslot (r : Fin 9) : (e.cache.slot r).Same ((unpinAll e.cache).slot r) := by
    rw [HostCache.slot, HostCache.slot, unpinAll, Vector.get_map]
    unfold unpinned
    split
    · exact .refl _
    · exact ⟨rfl, rfl, rfl, rfl⟩
  refine .modifyCache (.refl _ _) ⟨h.agrees.of_slots hslot rfl, fun r off hr => ?_,
    h.kept.trans (.of_slots (fun r => (hslot r).content) fun _ => rfl), fun _ _ _ h => ?_,
    fun _ _ h => ?_, .nil⟩
  · exact h.proper r off ((hslot r).content ▸ hr)
  · cases h
  · cases h

/-- Temporaries that need not be kept are given up. -/
protected theorem retire {x : HostReg} (h : Working c₀ m₀ [] e m g)
    (hx : ∀ r, (c₀.slot r).content = .temp → .ofSlot r = x) :
    Runs W Q (retire x) e m fun _ e' m' =>
      Working c₀ m₀ [] e' m' g ∧ e'.cache.depth = e.cache.depth := by
  obtain ⟨hbuilder, hdepth, hfp⟩ := HostCache.sameRest_retired x e.cache.temps e.cache
  have hslot := slot_retired x e.cache
  unfold Emit.retire
  generalize hc : e.cache.temps.foldl (fun c y => if y = x then c else c.drop y) e.cache = c' at *
  have hkeep (r : Fin 9) (hr : (c₀.slot r).content = .temp) : c'.slot r = e.cache.slot r := by
    rw [hslot, if_neg fun h => h.2 (hx r hr)]
  have hempty (r : Fin 9) : c'.slot r = e.cache.slot r ∨
      (e.cache.slot r).content = .temp ∧ c'.slot r = .empty := by
    rw [hslot]
    split
    · exact .inr ⟨‹_ ∧ _›.1, rfl⟩
    · exact .inl rfl
  have ha : Agrees c' m g := by
    refine h.agrees.relax hfp fun r => ?_
    rcases hempty r with hs | ⟨ht, hs⟩ <;> rw [hs]
    · exact .inl (.refl _)
    · exact .inr ⟨rfl, rfl, fun _ => by rw [ht]; rfl⟩
  have hw : Working c₀ m₀ [] { e with cache := c' } m g := by
    refine ⟨ha, fun r off hr => ?_, ⟨fun r hr => ?_, h.kept.regs⟩, nofun, nofun, .nil⟩
    · rcases hempty r with hs | ⟨-, hs⟩
      · exact h.proper r off (hs ▸ hr)
      · change (c'.slot r).content = _ at hr
        rw [hs] at hr
        cases hr
    · exact (congrArg Slot.content (hkeep r hr)).trans (h.kept.content r hr)
  have he : Emitted e.cache.builder m c'.builder m := by
    rw [hbuilder]
    exact .refl _ _
  subst hc
  exact .modifyCache he ⟨hw, hdepth⟩

end Working

end Recompiler
