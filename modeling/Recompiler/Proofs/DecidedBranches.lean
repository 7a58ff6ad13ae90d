import Recompiler.Proofs.DelaySlots
import Recompiler.Trace.Widths

/-!
Branches that are rewritten into something else. Whatever stands for a branch sends control where
the branch does; if it is no branch, it is the no-operation, and the branch goes through its delay
slot to the instruction after it.
-/

namespace Recompiler

open Interp

/-- Where control goes at a branch. -/
inductive Flow where
  /-- Through the delay slot to the instruction after it. -/
  | through
  /-- To the instruction after the delay slot, past it. -/
  | skip
  /-- Through the delay slot to another instruction. -/
  | jump (target : UInt32)
  deriving DecidableEq, Repr

namespace Interp

def Branch.flow (b : Branch) (pc : UInt32) : Flow :=
  if b.taken then (if b.target = pc + 8 then .through else .jump b.target)
  else if b.likely then .skip else .through

def flow (c : Cpu) (i : Instr) (pc : UInt32) : Flow :=
  match branch? c i pc with
  | some b => b.flow pc
  | none => .through

end Interp

def EqCond.test : EqCond → UInt64 → UInt64 → Bool
  | .eq, x, y => x == y
  | .ne, x, y => x != y

def ZeroCond.test : ZeroCond → UInt64 → Bool
  | .lez, x => !slt64 0 x
  | .gtz, x => slt64 0 x

def SignCond.test : SignCond → UInt64 → Bool
  | .ltz, x => signBit64 x
  | .gez, x => !signBit64 x

namespace Instr

variable {c : Cpu} {b i j : Instr} {k : Constants} {pc : UInt32}

/-- The instruction `j` may stand for `i` in the state `c`: it sends control to the same place and
has the same effect. It is a branch, or nothing at all. -/
structure StandsFor (c : Cpu) (pc : UInt32) (i j : Instr) : Prop where
  branch_or_nop : j.isBranch = true ∨ j = nop
  flow : Interp.flow c j pc = Interp.flow c i pc
  effect : Interp.effect c j pc = Interp.effect c i pc

namespace StandsFor

theorem refl (h : i.isBranch = true) : StandsFor c pc i i := ⟨.inl h, rfl, rfl⟩

theorem trans (h : StandsFor c pc b i) (h' : StandsFor c pc i j) : StandsFor c pc b j :=
  ⟨h'.branch_or_nop, h'.flow.trans h.flow, h'.effect.trans h.effect⟩

end StandsFor

theorem flow_nop : flow c nop pc = .through := rfl

theorem branchTarget_of_imm (h : i.imm = j.imm) : i.branchTarget pc = j.branchTarget pc := by
  unfold branchTarget simm
  rw [h]

theorem branchTarget_of_skip (h : i.imm = 1) : i.branchTarget pc = pc + 8 := by
  unfold branchTarget simm
  rw [h, UInt32.add_assoc]
  rfl

theorem flow_of_taken {t : UInt32} (likely : Bool) :
    (⟨true, likely, t⟩ : Branch).flow pc = if t = pc + 8 then .through else .jump t := rfl

theorem flow_relative_of_skip (h : i.imm = 1) (hl : i.isLikely = false) (taken : Bool) :
    (relative i pc taken).flow pc = .through := by
  unfold relative
  rw [hl, branchTarget_of_skip h]
  cases taken with
  | true => rw [flow_of_taken, if_pos rfl]
  | false => rfl

/-- A branch that does nothing else may be dropped if it goes to the instruction after its delay
slot. -/
theorem standsFor_dropSkip {taken : Bool} (hb : i.isBranch = true) (hl : i.isLikely = false)
    (h : branch? c i pc = some (relative i pc taken)) (he : effect c i pc = c) :
    StandsFor c pc i i.dropSkip := by
  unfold dropSkip
  split
  · rename_i him
    refine ⟨.inr rfl, ?_, effect_nop.trans he.symm⟩
    have hf : flow c i pc = (relative i pc taken).flow pc := by
      unfold flow
      rw [h]
    rw [hf, flow_relative_of_skip him hl, flow_nop]
  · exact .refl hb

theorem branch?_branchEq {cond : EqCond} {likely : Bool} (hk : i.kind = .branchEq cond likely) :
    branch? c i pc = some (relative i pc (cond.test (c.reg i.rs) (c.reg i.rt))) := by
  unfold branch?
  cases cond <;> simp only [hk] <;> rfl

theorem branch?_branchZero {cond : ZeroCond} {likely : Bool}
    (hk : i.kind = .branchZero cond likely) :
    branch? c i pc = some (relative i pc (cond.test (c.reg i.rs))) := by
  unfold branch?
  cases cond <;> simp only [hk] <;> rfl

theorem branch?_branchSign {cond : SignCond} {link likely : Bool}
    (hk : i.kind = .branchSign cond link likely) :
    branch? c i pc = some (relative i pc (cond.test (c.reg i.rs))) := by
  unfold branch?
  cases cond <;> simp only [hk] <;> rfl

theorem isLikely_of_branchEq {cond : EqCond} {likely : Bool}
    (hk : i.kind = .branchEq cond likely) : i.isLikely = likely := by
  unfold isLikely
  rw [hk]

theorem isLikely_of_branchZero {cond : ZeroCond} {likely : Bool}
    (hk : i.kind = .branchZero cond likely) : i.isLikely = likely := by
  unfold isLikely
  rw [hk]

theorem isLikely_of_branchSign {cond : SignCond} {link likely : Bool}
    (hk : i.kind = .branchSign cond link likely) : i.isLikely = likely := by
  unfold isLikely
  rw [hk]

theorem isBranch_of_kind {κ : Kind} (hk : i.kind = κ) (h : κ.isBranch = true) :
    i.isBranch = true := by
  unfold isBranch
  rw [hk]
  exact h

theorem relative_congr (hk : j.kind = i.kind) (hf : i.kind ≠ .branchFp) (himm : j.imm = i.imm)
    (pc : UInt32) (taken : Bool) : relative j pc taken = relative i pc taken := by
  have hl : j.isLikely = i.isLikely := by
    unfold isLikely
    rw [hk]
    cases hi : i.kind <;> first | rfl | exact absurd hi hf
  unfold relative
  rw [hl, branchTarget_of_imm himm]

theorem standsFor_simplestAlways (h : branch? c i pc = some (relative i pc true))
    (he : effect c i pc = c) : StandsFor c pc i (simplestAlways i.imm) := by
  have hk := kind_always i.imm
  have hbr : branch? c (always i.imm) pc = some (relative (always i.imm) pc true) := by
    rw [branch?_branchEq hk]
    have hrs : (always i.imm).rs = (always i.imm).rt := by
      unfold always branch
      rw [rs_ofOpcode, rt_ofOpcode]
    rw [hrs]
    simp only [EqCond.test, beq_self_eq_true]
  have heff : effect c (always i.imm) pc = c := effect_branchEq hk
  refine .trans ⟨.inl (isBranch_of_kind hk rfl), ?_, heff.trans he.symm⟩
    (standsFor_dropSkip (isBranch_of_kind hk rfl) (isLikely_of_branchEq hk) hbr heff)
  unfold flow
  rw [hbr, h]
  have himm : (always i.imm).imm = i.imm := imm_ofOpcode ..
  unfold relative
  rw [branchTarget_of_imm himm]
  rfl

theorem standsFor_nop (h : branch? c i pc = some (relative i pc false)) (hl : i.isLikely = false)
    (he : effect c i pc = c) : StandsFor c pc i nop := by
  refine ⟨.inr rfl, ?_, effect_nop.trans he.symm⟩
  rw [flow_nop]
  unfold flow
  rw [h]
  unfold relative
  rw [hl]
  rfl

theorem standsFor_swap {cond : EqCond} {likely : Bool} (hk : i.kind = .branchEq cond likely) :
    StandsFor c pc i (branch i.opcode i.rt i.rs i.imm) := by
  have hj := (kind_branch hk i.rt i.rs i.imm).trans hk
  refine ⟨.inl (isBranch_of_kind hj rfl), ?_, (effect_branchEq hj).trans (effect_branchEq hk).symm⟩
  have hrs : (branch i.opcode i.rt i.rs i.imm).rs = i.rt := rs_ofOpcode ..
  have hrt : (branch i.opcode i.rt i.rs i.imm).rt = i.rs := rt_ofOpcode ..
  have hrel := relative_congr (hj.trans hk.symm) (by rw [hk]; nofun) (imm_ofOpcode ..)
  unfold flow
  rw [branch?_branchEq hj, branch?_branchEq hk, hrs, hrt, hrel]
  cases cond with
  | eq => simp only [EqCond.test, BEq.comm]
  | ne => simp only [EqCond.test, bne_comm]

theorem standsFor_simplifyBranchEq {cond : EqCond} {likely : Bool}
    (hk : i.kind = .branchEq cond likely) :
    StandsFor c pc i (i.simplifyBranchEq cond likely) := by
  have hb : i.isBranch = true := isBranch_of_kind hk rfl
  have he : effect c i pc = c := effect_branchEq hk
  have hbr : branch? c i pc = _ := branch?_branchEq hk
  have hl := isLikely_of_branchEq hk
  unfold simplifyBranchEq
  split
  · rename_i hrs
    rw [hrs] at hbr
    cases cond with
    | eq =>
      simp only [EqCond.test, beq_self_eq_true] at hbr
      cases likely with
      | false =>
        dsimp only
        split
        · exact standsFor_dropSkip hb hl hbr he
        · exact standsFor_simplestAlways hbr he
      | true => exact standsFor_simplestAlways hbr he
    | ne =>
      simp only [EqCond.test, bne_self_eq_false] at hbr
      cases likely with
      | false => exact standsFor_nop hbr hl he
      | true => exact .refl hb
  · have hj : StandsFor c pc i (if i.rs = .zero then branch i.opcode i.rt i.rs i.imm else i) := by
      split
      · exact standsFor_swap hk
      · exact .refl hb
    have hkj : (if i.rs = .zero then branch i.opcode i.rt i.rs i.imm else i).kind
        = .branchEq cond likely := by
      split
      · exact (kind_branch hk ..).trans hk
      · exact hk
    dsimp only
    cases likely with
    | true => exact hj
    | false =>
      exact hj.trans (standsFor_dropSkip (isBranch_of_kind hkj rfl) (isLikely_of_branchEq hkj)
        (branch?_branchEq hkj) (effect_branchEq hkj))

theorem standsFor_simplifyBranchZero {cond : ZeroCond} {likely : Bool} (h0 : c.reg .zero = 0)
    (hk : i.kind = .branchZero cond likely) :
    StandsFor c pc i (i.simplifyBranchZero cond likely) := by
  have hb : i.isBranch = true := isBranch_of_kind hk rfl
  have he : effect c i pc = c := effect_branchZero hk
  have hbr : branch? c i pc = _ := branch?_branchZero hk
  have hl := isLikely_of_branchZero hk
  unfold simplifyBranchZero
  split
  · rename_i hrs
    rw [hrs, h0] at hbr
    cases cond with
    | lez => exact standsFor_simplestAlways hbr he
    | gtz =>
      cases likely with
      | false => exact standsFor_nop hbr hl he
      | true => exact .refl hb
  · cases likely with
    | false => exact standsFor_dropSkip hb hl hbr he
    | true => exact .refl hb

theorem standsFor_simplifyBranchSign {cond : SignCond} {link likely : Bool} (h0 : c.reg .zero = 0)
    (hk : i.kind = .branchSign cond link likely) :
    StandsFor c pc i (i.simplifyBranchSign cond link likely) := by
  have hb : i.isBranch = true := isBranch_of_kind hk rfl
  have hbr : branch? c i pc = _ := branch?_branchSign hk
  have hl := isLikely_of_branchSign hk
  cases link with
  | true =>
    have hi : i.simplifyBranchSign cond true likely = i := by
      cases cond <;> cases likely <;> rfl
    rw [hi]
    exact .refl hb
  | false =>
    have he : effect c i pc = c := effect_branchSign hk
    cases cond with
    | ltz =>
      cases likely with
      | false =>
        simp only [simplifyBranchSign]
        split
        · rename_i hrs
          rw [hrs, h0] at hbr
          exact standsFor_nop hbr hl he
        · exact standsFor_dropSkip hb hl hbr he
      | true => exact .refl hb
    | gez =>
      cases likely with
      | false =>
        simp only [simplifyBranchSign]
        split
        · rename_i hrs
          rw [hrs, h0] at hbr
          exact standsFor_simplestAlways hbr he
        · exact standsFor_dropSkip hb hl hbr he
      | true =>
        simp only [simplifyBranchSign]
        split
        · rename_i hrs
          rw [hrs, h0] at hbr
          exact standsFor_simplestAlways hbr he
        · exact .refl hb

theorem dest?_of_isBranch (h : i.isBranch = true) : i.dest? = none := by
  unfold isBranch at h
  unfold dest?
  cases hk : i.kind <;> rw [hk] at h <;> first | rfl | cases h

theorem not_zeroWrite_of_isBranch (h : i.isBranch = true) :
    ¬(i.dest? = some .zero ∧ i.isPure = true) := by
  rw [dest?_of_isBranch h]
  rintro ⟨he, -⟩
  cases he

theorem standsFor_simplify (h0 : c.reg .zero = 0) (h : i.isBranch = true) :
    StandsFor c pc i i.simplify := by
  unfold simplify
  rw [if_neg (not_zeroWrite_of_isBranch h)]
  cases hk : i.kind with
  | branchEq cond likely => exact standsFor_simplifyBranchEq hk
  | branchZero cond likely => exact standsFor_simplifyBranchZero h0 hk
  | branchSign cond link likely => exact standsFor_simplifyBranchSign h0 hk
  | j | jal | jr | jalr | branchFp => exact .refl h
  | _ =>
    unfold isBranch at h
    rw [hk] at h
    cases h

theorem standsFor_dropZeroWrite (h : i.isBranch = true) : StandsFor c pc i i.dropZeroWrite := by
  have he : effect c i.dropZeroWrite pc = effect c i pc := effect_dropZeroWrite
  unfold dropZeroWrite at he ⊢
  split
  · rename_i hj
    rw [if_pos hj] at he
    refine ⟨.inl (isBranch_of_kind (kind_jr i.rs) rfl), ?_, he⟩
    have hrs : (jr i.rs).rs = i.rs := rs_ofFunct ..
    unfold flow branch?
    rw [kind_jr, hj.1, hrs]
  · rw [if_neg (not_zeroWrite_of_isBranch h)]
    exact .refl h

namespace StandsFor

theorem simplify (h0 : c.reg .zero = 0) (h : StandsFor c pc i j) :
    StandsFor c pc i j.simplify := by
  rcases h.branch_or_nop with hb | rfl
  · exact h.trans (standsFor_simplify h0 hb)
  · exact h

end StandsFor

theorem standsFor_clearRs (h : i.isBranch = true) (hs : i.kind.sources.rs = true)
    (hz : c.reg i.rs = c.reg .zero) : StandsFor c pc i i.clearRs := by
  have hk := kind_clearRs hs
  have hrel (hf : i.kind ≠ .branchFp) := relative_congr hk hf (imm_clearRs i)
  refine ⟨.inl (isBranch_of_kind hk h), ?_, effect_clearRs hs hz⟩
  unfold isBranch at h
  unfold flow
  cases hi : i.kind with
  | j | jal | branchFp =>
    rw [hi] at hs
    cases hs
  | jr | jalr =>
    unfold branch?
    rw [hk, hi, rs_clearRs, hz]
  | branchEq cond likely =>
    rw [branch?_branchEq (hk.trans hi), branch?_branchEq hi, rs_clearRs, rt_clearRs, hz,
      hrel (by rw [hi]; nofun)]
  | branchZero cond likely =>
    rw [branch?_branchZero (hk.trans hi), branch?_branchZero hi, rs_clearRs, hz,
      hrel (by rw [hi]; nofun)]
  | branchSign cond link likely =>
    rw [branch?_branchSign (hk.trans hi), branch?_branchSign hi, rs_clearRs, hz,
      hrel (by rw [hi]; nofun)]
  | _ =>
    rw [hi] at h
    cases h

theorem standsFor_clearRt (h : i.isBranch = true) (hs : i.kind.sources.rt = true)
    (hz : c.reg i.rt = c.reg .zero) : StandsFor c pc i i.clearRt := by
  have hk := kind_clearRt hs
  refine ⟨.inl (isBranch_of_kind hk h), ?_, effect_clearRt hs hz⟩
  unfold isBranch at h
  cases hi : i.kind with
  | branchEq cond likely =>
    have hrel := relative_congr hk (by rw [hi]; nofun) (imm_clearRt i)
    unfold flow
    rw [branch?_branchEq (hk.trans hi), branch?_branchEq hi, rs_clearRt, rt_clearRt, hz, hrel]
  | j | jal | jr | jalr | branchZero | branchSign | branchFp =>
    rw [hi] at hs
    cases hs
  | _ =>
    rw [hi] at h
    cases h

namespace StandsFor

theorem substitute (h0 : c.reg .zero = 0) (hk : k.Holds c) (h : StandsFor c pc i j) :
    StandsFor c pc i (k.substitute j) := by
  rcases h.branch_or_nop with hb | rfl
  · have hrs : StandsFor c pc j (if j.kind.sources.rs && k.isZero j.rs then j.clearRs else j) := by
      split
      · rename_i hz
        rw [Bool.and_eq_true] at hz
        exact standsFor_clearRs hb hz.1 ((hk.isZero hz.2).trans h0.symm)
      · exact .refl hb
    have hkind : (if j.kind.sources.rs && k.isZero j.rs then j.clearRs else j).kind = j.kind := by
      split
      · rename_i hz
        rw [Bool.and_eq_true] at hz
        exact kind_clearRs hz.1
      · rfl
    have hrt : (if j.kind.sources.rs && k.isZero j.rs then j.clearRs else j).rt = j.rt := by
      split
      · exact rt_clearRs j
      · rfl
    refine h.trans ?_
    rw [Constants.substitute_eq]
    dsimp only
    split
    · rename_i hz
      rw [Bool.and_eq_true] at hz
      refine hrs.trans (standsFor_clearRt (isBranch_of_kind hkind hb) ?_ ?_)
      · rw [hkind]
        exact hz.1
      · rw [hrt, h0]
        exact hk.isZero hz.2
    · exact hrs
  · have hn : k.substitute Instr.nop = Instr.nop := by
      rw [Constants.substitute_eq]
      dsimp only
      split <;> split <;> rfl
    rw [hn]
    exact h

theorem constants_step (h0 : c.reg .zero = 0) (hk : k.Holds c) (h : StandsFor c pc i j) :
    StandsFor c pc i (k.step j).2 := by
  unfold Constants.step
  split
  · exact h
  · have hs := (h.substitute h0 hk).simplify h0
    dsimp only
    split
    · exact hs
    · rename_i rd hd
      split
      · exact hs
      · rename_i hne
        rcases hs.branch_or_nop with hb | hn
        · rw [dest?_of_isBranch hb] at hd
          cases hd
        · rw [hn] at hd
          exact absurd (Option.some.inj hd).symm hne

theorem widths_step (w : Widths) (h : StandsFor c pc i j) : StandsFor c pc i (w.step k j).2 := by
  have hd : w.dropExtension j = j := by
    rcases h.branch_or_nop with hb | rfl
    · unfold isBranch at hb
      unfold Widths.dropExtension
      cases hk : j.kind <;> rw [hk] at hb <;> first | rfl | cases hb
    · unfold Widths.dropExtension
      rw [kind_nop]
      dsimp only
      split <;> rfl
  unfold Widths.step
  split
  · exact h
  · dsimp only
    rw [hd]
    exact h

theorem eq_nop (h : StandsFor c pc i j) (hn : j.isBranch = false) : j = Instr.nop := by
  rcases h.branch_or_nop with hb | hnop
  · rw [hb] at hn
    cases hn
  · exact hnop

theorem through (h : StandsFor c pc i Instr.nop) :
    Interp.flow c i pc = .through ∧ Interp.effect c i pc = c :=
  ⟨h.flow.symm.trans flow_nop, h.effect.symm.trans effect_nop⟩

end StandsFor

end Instr

namespace Interp

variable {c d : Cpu} {b i : Instr} {pc : UInt32}

theorem isSome_branch? : (branch? c i pc).isSome = i.isBranch := by
  unfold branch? Instr.isBranch
  cases i.kind with
  | branchEq cond likely => cases cond <;> rfl
  | branchZero cond likely => cases cond <;> rfl
  | branchSign cond link likely => cases cond <;> rfl
  | _ => rfl

theorem leave_effect_of_isBranch (h : i.isBranch = true) : (effect c i pc).leave = c.leave := by
  unfold Instr.isBranch at h
  unfold effect
  cases hk : i.kind with
  | j | jr | branchEq | branchZero | branchFp => rfl
  | jal | jalr => exact Cpu.setReg_leave c _ _
  | branchSign cond link likely =>
    cases link with
    | true => exact Cpu.setReg_leave c _ _
    | false => rfl
  | _ => exact absurd h (by rw [hk]; exact Bool.false_ne_true)

theorem ite_leave (y : Cpu) (n : Nat) (z : Cpu) :
    (if (y.leave != 0) = true then (n, y) else (n, z)) = (n, if y.leave = 0 then z else y) := by
  by_cases hy : y.leave = 0
  · rw [if_pos hy, hy]
    rfl
  · rw [if_neg hy, if_pos (bne_iff_ne.2 hy)]

theorem finishBranch_of_through {t : Branch} (h : t.flow pc = .through) {d : Instr} {e : Cpu}
    (hf : (c.goto (pc + 4)).fetch (pc + 4) = (some d, e)) :
    finishBranch c pc t = (2, if (effect e.slot d (pc + 4)).leave = 0
      then { effect e.slot d (pc + 4) with delay := 0, pc := pc + 8 }
      else effect e.slot d (pc + 4)) := by
  have hslot : { c with pc := pc + 4, delay := 1 }.fetch (pc + 4) = (some d, e.slot) :=
    (Cpu.fetch_slot hf).1
  have hskip : (!t.taken && t.likely) = false := by
    unfold Branch.flow at h
    cases ht : t.taken <;> cases hl : t.likely <;> simp_all
  have htarget : (if t.taken then t.target else pc + 8) = pc + 8 := by
    unfold Branch.flow at h
    split
    · rename_i ht
      rw [if_pos ht] at h
      split at h
      · assumption
      · cases h
    · rfl
  unfold finishBranch
  simp only [hskip, htarget, hslot, Bool.false_eq_true, if_false]
  exact ite_leave _ _ _

theorem step_of_not_isBranch {e : Cpu} (hf : c.cleared.fetch c.pc = (some i, e))
    (h : i.isBranch = false) :
    step c = (1, if (effect e i c.pc).leave = 0 then (effect e i c.pc).goto (c.pc + 4)
      else effect e i c.pc) := by
  have hf' : { c with leave := 0, delay := 0 }.fetch c.pc = (some i, e) := hf
  have hb : branch? e i c.pc = none := by
    rw [← Option.isNone_iff_eq_none, ← Option.not_isSome, isSome_branch?, h]
    rfl
  unfold step
  dsimp only
  rw [hf']
  dsimp only
  rw [hb]
  exact ite_leave _ _ _

theorem step_of_isBranch {e : Cpu} (hf : c.cleared.fetch c.pc = (some i, e))
    (h : i.isBranch = true) :
    ∃ t, branch? e i c.pc = some t ∧ step c = finishBranch (effect e i c.pc) c.pc t := by
  have hf' : { c with leave := 0, delay := 0 }.fetch c.pc = (some i, e) := hf
  have hsome : (branch? e i c.pc).isSome = true := isSome_branch?.trans h
  obtain ⟨t, ht⟩ := Option.isSome_iff_exists.1 hsome
  have hleave : (effect e i c.pc).leave = 0 :=
    (leave_effect_of_isBranch h).trans (Cpu.fetch_slot hf).2.leave
  refine ⟨t, ht, ?_⟩
  unfold step
  dsimp only
  rw [hf']
  dsimp only
  rw [ht, hleave]
  rfl

theorem cleared_eq (hl : c.leave = 0) (hd : c.delay = 0) : c.cleared = c := by
  cases c
  cases hl
  cases hd
  rfl

theorem clear_slot (hd : c.delay = 0) (pc : UInt32) :
    { c.slot with delay := 0, pc := pc } = c.goto pc := by
  cases c
  cases hd
  rfl

section Through

variable {d : Instr} {e₁ e : Cpu} (hb : b.isBranch = true)
  (hf : c.cleared.fetch c.pc = (some b, e₁))
  (hd : (e₁.goto (c.pc + 4)).fetch (c.pc + 4) = (some d, e))

include hb hf hd

theorem step_of_through (hflow : flow e₁ b c.pc = .through) (heff : effect e₁ b c.pc = e₁) :
    step c = (2, if (effect e d (c.pc + 4)).leave = 0 then (effect e d (c.pc + 4)).goto (c.pc + 8)
      else if d.isReturn then (effect e d (c.pc + 4)).slot
      else if c.isHandling then effect e d (c.pc + 4)
      else (effect e d (c.pc + 4)).atBranch c.pc) := by
  obtain ⟨t, ht, hs⟩ := step_of_isBranch hf hb
  unfold flow at hflow
  rw [ht] at hflow
  rw [hs, heff, finishBranch_of_through hflow hd]
  have hq₁ := (Cpu.fetch_slot hf).2
  have hq := (Cpu.fetch_slot hd).2
  have hleave : e.leave = 0 := hq.leave.trans hq₁.leave
  have hdelay : e.delay = 0 := hq.delay.trans hq₁.delay
  have hpc : e.pc - 4 = c.pc := by
    rw [hq.pc]
    exact UInt32.add_sub_cancel c.pc 4
  have hhandling : e.isHandling = c.isHandling := by
    unfold Cpu.isHandling
    rw [hq.status]
    exact congrArg (fun s => s &&& StatusBit.exl != 0) hq₁.status
  have hslot := effect_slot e hleave hdelay d (c.pc + 4)
  rw [hpc, hhandling] at hslot
  have hkeep : (effect e d (c.pc + 4)).leave = 0 → (effect e d (c.pc + 4)).delay = 0 :=
    fun h => (delay_effect e h).trans hdelay
  generalize effect e.slot d (c.pc + 4) = z at hslot
  generalize effect e d (c.pc + 4) = y at hslot hkeep
  by_cases hy : y.leave = 0
  · rw [if_pos (.inl hy)] at hslot
    subst hslot
    rw [if_pos hy, if_pos (c := y.slot.leave = 0) hy, clear_slot (hkeep hy)]
  · rw [if_neg hy]
    by_cases hr : d.isReturn = true
    · rw [if_pos (.inr hr)] at hslot
      subst hslot
      rw [if_pos hr, if_neg (c := y.slot.leave = 0) hy]
    · rw [if_neg (not_or.2 ⟨hy, hr⟩)] at hslot
      rw [if_neg hr]
      by_cases hh : c.isHandling = true
      · rw [if_pos hh] at hslot ⊢
        rw [hslot, if_neg hy]
      · rw [if_neg hh] at hslot ⊢
        subst hslot
        rw [if_neg (c := (y.atBranch c.pc).leave = 0) hy]

omit hb in
theorem fetch_slot_cleared :
    (e₁.goto (c.pc + 4)).cleared.fetch (e₁.goto (c.pc + 4)).pc = (some d, e) := by
  have hq₁ := (Cpu.fetch_slot hf).2
  rw [cleared_eq (c := e₁.goto (c.pc + 4)) hq₁.leave hq₁.delay]
  exact hd

omit hb in
theorem step_slot (hdb : d.isBranch = false) :
    step (e₁.goto (c.pc + 4)) = (1, if (effect e d (c.pc + 4)).leave = 0
      then (effect e d (c.pc + 4)).goto (c.pc + 8) else effect e d (c.pc + 4)) := by
  have hnext : c.pc + 4 + 4 = c.pc + 8 := UInt32.add_assoc ..
  have hpc : (e₁.goto (c.pc + 4)).pc = c.pc + 4 := rfl
  rw [step_of_not_isBranch (fetch_slot_cleared hf hd) hdb, hpc, hnext]

omit hb in
theorem step_branch_slot (hdb : d.isBranch = true) :
    ∃ t, branch? e d (c.pc + 4) = some t
      ∧ step (e₁.goto (c.pc + 4)) = finishBranch (effect e d (c.pc + 4)) (c.pc + 4) t := by
  have hpc : (e₁.goto (c.pc + 4)).pc = c.pc + 4 := rfl
  have h := step_of_isBranch (fetch_slot_cleared hf hd) hdb
  rw [hpc] at h
  exact h

end Through

/-- A branch that is rewritten into something else than a branch. The rewritten instruction does
nothing, and the branch with its delay slot ends as the slot does as an instruction of its own,
with these differences. An exception in the slot is one of the branch, unless one is being handled.
A return from an exception leaves the mark of the slot behind. A branch in the slot only links. -/
theorem step_of_decided_branch {k : Constants} {w : Widths} {d : Instr} {e₁ e : Cpu}
    (h0 : c.reg .zero = 0) (hk : k.Holds c) (hb : b.isBranch = true)
    (hi : i = b.dropZeroWrite ∨ i = b.simplify
      ∨ i = (w.step (k.step b.dropZeroWrite.simplify).1 (k.step b.dropZeroWrite.simplify).2).2)
    (hn : i.isBranch = false) (hf : c.cleared.fetch c.pc = (some b, e₁))
    (hd : (e₁.goto (c.pc + 4)).fetch (c.pc + 4) = (some d, e)) :
    let slot := step (e₁.goto (c.pc + 4))
    exec c i = (true, { c with leave := 0 })
      ∧ (d.isBranch = false → step c = (2,
          if slot.2.leave = 0 then slot.2
          else if d.isReturn then slot.2.slot
          else if c.isHandling then slot.2
          else slot.2.atBranch c.pc))
      ∧ (d.isBranch = true → step c = (2, (effect e d (c.pc + 4)).goto (c.pc + 8))
          ∧ ∃ t, branch? e d (c.pc + 4) = some t
            ∧ slot = finishBranch (effect e d (c.pc + 4)) (c.pc + 4) t) := by
  have hstands {c : Cpu} (h0 : c.reg .zero = 0) (hk : k.Holds c) (pc : UInt32) :
      Instr.StandsFor c pc b i := by
    rcases hi with rfl | rfl | rfl
    · exact Instr.standsFor_dropZeroWrite hb
    · exact Instr.standsFor_simplify h0 hb
    · exact (((Instr.standsFor_dropZeroWrite hb).simplify h0).constants_step h0 hk).widths_step w
  obtain rfl : i = Instr.nop := (hstands h0 hk c.pc).eq_nop hn
  have hq₁ := (Cpu.fetch_slot hf).2
  have hreg (r : Reg) : e₁.reg r = c.reg r := by
    unfold Cpu.reg
    rw [hq₁.gpr]
    rfl
  have hk₁ : k.Holds e₁ := fun r => by
    rw [hreg]
    exact hk r
  have hthrough := (hstands ((hreg .zero).trans h0) hk₁ c.pc).through
  have hstep := step_of_through hb hf hd hthrough.1 hthrough.2
  refine ⟨?_, fun hdb => ?_, fun hdb => ?_⟩
  · unfold exec
    rw [Instr.effect_nop]
    rfl
  · rw [hstep, step_slot hf hd hdb]
    dsimp only
    generalize effect e d (c.pc + 4) = y
    by_cases hy : y.leave = 0
    · have hgo : (y.goto (c.pc + 8)).leave = 0 := hy
      rw [if_pos hy, if_pos hy, if_pos hgo]
    · rw [if_neg hy, if_neg hy, if_neg hy]
  · have hy : (effect e d (c.pc + 4)).leave = 0 := by
      rw [leave_effect_of_isBranch hdb, (Cpu.fetch_slot hd).2.leave]
      exact hq₁.leave
    rw [if_pos hy] at hstep
    exact ⟨hstep, step_branch_slot hf hd hdb⟩

/-- A branch that is never taken, with a system call in its delay slot. -/
def neverTaken : Cpu :=
  (Cpu.powerOn ⟨#[0x14000004, 0x0000000c], #[false], []⟩ none).goto 0x80000000

/-- The branch is dropped, and the system call then returns to itself, not to the branch. -/
theorem step_neverTaken :
    let slot := step (neverTaken.goto (neverTaken.pc + 4))
    exec neverTaken .nop = (true, { neverTaken with leave := 0 })
      ∧ step neverTaken = (2, slot.2.atBranch neverTaken.pc)
      ∧ slot.2.sysReg Cop0.epc = 0xffffffff80000004
      ∧ (step neverTaken).2.sysReg Cop0.epc = 0xffffffff80000000 := by
  have hf : neverTaken.cleared.fetch neverTaken.pc = (some ⟨0x14000004⟩, neverTaken) := rfl
  have hd : (neverTaken.goto (neverTaken.pc + 4)).fetch (neverTaken.pc + 4)
      = (some ⟨0x0000000c⟩, neverTaken.goto (neverTaken.pc + 4)) := rfl
  have h := step_of_decided_branch (w := .fresh) (i := .nop) (by decide)
    (Constants.holds_fresh (by decide)) (by decide) (.inr (.inl (by decide +kernel))) (by decide)
    hf hd
  have hs := h.2.1 (by decide)
  rw [if_neg (by decide +kernel), if_neg (by decide), if_neg (by decide)] at hs
  exact ⟨h.1, hs, by decide +kernel, by decide +kernel⟩

end Interp

end Recompiler
