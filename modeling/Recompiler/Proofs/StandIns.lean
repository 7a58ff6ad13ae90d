import Recompiler.Proofs.Analyses
import Recompiler.Proofs.DecidedBranches

/-!
The instruction that stands for a word in a trace. It has the effect of the word, and sends control
where the word does; it is of the same kind unless it is a branch, does nothing, or computes a
general register.
-/

namespace Recompiler

/-- The operations that compute a general register from others. -/
def Kind.computes : Kind → Bool
  | .shift .. | .alu _ | .imm _ => true
  | _ => false

theorem Kind.isBranch_of_computes {k : Kind} (h : k.computes = true) : k.isBranch = false := by
  cases k <;> first | rfl | cases h

namespace Instr

variable {i j : Instr}

theorem computes_nop : nop.kind.computes = true := by
  rw [kind_nop]
  rfl

theorem computes_move (rd rs : Reg) : (move rd rs).kind.computes = true := by
  rw [kind_move]
  rfl

theorem computes_simplestMove (rd rs : Reg) : (simplestMove rd rs).kind.computes = true := by
  unfold simplestMove
  split
  · exact computes_nop
  · exact computes_move rd rs

theorem computes_simplestExtend (rd rs : Reg) : (simplestExtend rd rs).kind.computes = true := by
  unfold simplestExtend
  split
  · exact computes_nop
  · split
    · exact computes_move rd .zero
    · rw [kind_extendWord]
      rfl

theorem computes_extendShift (rd rt : Reg) : (extendShift rd rt).kind.computes = true := by
  rw [kind_extendShift]
  rfl

theorem computes_addiu (rt rs : Reg) (imm : UInt16) : (addiu rt rs imm).kind.computes = true := by
  rw [kind_addiu]
  rfl

theorem computes_ori (rt rs : Reg) (imm : UInt16) : (ori rt rs imm).kind.computes = true := by
  rw [kind_ori]
  rfl

theorem computes_load {rd : Reg} {v : UInt64} (h : Constants.load? rd v = some j) :
    j.kind.computes = true := by
  unfold Constants.load? at h
  split at h
  · cases h
    exact computes_addiu ..
  · split at h
    · cases h
      exact computes_ori ..
    · split at h <;> cases h
      rw [kind_lui]
      rfl

/-- The instruction `j` is of the kind of `i`, or computes a general register. -/
def Derives (i j : Instr) : Prop := j.kind = i.kind ∨ j.kind.computes = true

namespace Derives

theorem refl (i : Instr) : Derives i i := .inl rfl

theorem trans {l : Instr} (h : Derives i j) (h' : Derives j l) : Derives i l := by
  rcases h' with hk | hc
  · unfold Derives
    rw [hk]
    exact h
  · exact .inr hc

theorem isBranch (h : Derives i j) (hi : i.isBranch = false) : j.isBranch = false := by
  rcases h with hk | hc
  · exact (congrArg Kind.isBranch hk).trans hi
  · exact Kind.isBranch_of_computes hc

theorem ite {p : Prop} [Decidable p] {l : Instr} (hj : Derives i j) (hl : Derives i l) :
    Derives i (if p then j else l) := by
  split
  · exact hj
  · exact hl

theorem computed (h : j.kind.computes = true) : Derives i j := .inr h

theorem simplifyAlu (i : Instr) (op : AluOp) : Derives i (i.simplifyAlu op) := by
  unfold Instr.simplifyAlu
  cases op <;> dsimp only
  all_goals repeat' split
  all_goals with_reducible first
    | exact .refl i
    | exact .computed computes_nop
    | exact .computed (computes_move ..)
    | exact .computed (computes_simplestMove ..)
    | exact .computed (computes_simplestExtend ..)

theorem simplifyShift (i : Instr) (op : ShiftOp) (amount : ShiftAmount) (width : Width) :
    Derives i (i.simplifyShift op amount width) := by
  unfold Instr.simplifyShift
  repeat' split
  all_goals with_reducible first
    | exact .refl i
    | exact .computed (computes_move ..)
    | exact .computed (computes_extendShift ..)
    | exact .computed (computes_simplestMove ..)

theorem simplifyImm (i : Instr) (op : ImmOp) : Derives i (i.simplifyImm op) := by
  unfold Instr.simplifyImm
  cases op <;> dsimp only
  all_goals repeat' split
  all_goals with_reducible first
    | exact .refl i
    | exact .computed (computes_move ..)
    | exact .computed (computes_addiu ..)
    | exact .computed (computes_ori ..)
    | exact .computed (computes_simplestMove ..)

theorem simplify (h : i.isBranch = false) : Derives i i.simplify := by
  unfold Instr.simplify
  refine ite (.inr computes_nop) ?_
  unfold Instr.isBranch at h
  cases hk : i.kind with
  | alu op => exact simplifyAlu i op
  | shift op amount width => exact simplifyShift i op amount width
  | imm op => exact simplifyImm i op
  | branchEq | branchZero | branchSign =>
    rw [hk] at h
    cases h
  | trap cond =>
    dsimp only
    unfold simplifyTrap
    split
    all_goals first
      | exact .refl i
      | exact ite (.inr computes_nop) (.refl i)
  | trapImm cond =>
    dsimp only
    unfold simplifyTrapImm
    split
    all_goals first
      | exact .refl i
      | exact ite (.inr computes_nop) (.refl i)
  | _ => exact .refl i

theorem dropZeroWrite (h : i.isBranch = false) : Derives i i.dropZeroWrite := by
  unfold Instr.dropZeroWrite
  split
  · rename_i hj
    unfold Instr.isBranch at h
    rw [hj.1] at h
    cases h
  · exact ite (.inr computes_nop) (.refl i)

end Derives

theorem kind_substitute (k : Constants) (i : Instr) : (k.substitute i).kind = i.kind := by
  have hrs : (if i.kind.sources.rs && k.isZero i.rs then i.clearRs else i).kind = i.kind := by
    split
    · rename_i hz
      rw [Bool.and_eq_true] at hz
      exact kind_clearRs hz.1
    · rfl
  rw [Constants.substitute_eq]
  dsimp only
  split
  · rename_i hz
    rw [Bool.and_eq_true] at hz
    refine (kind_clearRt ?_).trans hrs
    rw [hrs]
    exact hz.1
  · exact hrs

namespace Derives

theorem reduce (rd : Reg) (old new : KnownBits) (safe : Bool) :
    Derives i (Constants.reduce i rd old new safe) := by
  unfold Constants.reduce
  refine ite (ite (.inr computes_nop) ?_) (.refl i)
  cases hl : Constants.load? rd new.bits with
  | none => exact .refl i
  | some j => exact .inr (computes_load hl)

theorem constants (k : Constants) (h : i.isBranch = false) : Derives i (k.step i).2 := by
  have hs : Derives i (k.substitute i) := .inl (kind_substitute k i)
  have hsimplify := hs.trans (simplify (hs.isBranch h))
  unfold Constants.step
  split
  · exact .refl i
  · dsimp only
    split
    · exact hsimplify
    · split
      · exact hsimplify
      · exact hsimplify.trans (reduce ..)

theorem widths (w : Widths) (k : Constants) (i : Instr) : Derives i (w.step k i).2 := by
  unfold Widths.step
  split
  · exact .refl i
  · change Derives i (w.dropExtension i)
    unfold Widths.dropExtension
    split
    all_goals first
      | exact .refl i
      | exact ite (.inr (computes_simplestMove ..)) (.refl i)

end Derives

end Instr

/-- What is known of the bits of registers after the word `r`. -/
def Constants.after (k : Constants) (r : Instr) : Constants := (k.step r.dropZeroWrite.simplify).1

/-- What is known of the widths of registers after the word `r`. -/
def Widths.after (w : Widths) (k : Constants) (r : Instr) : Widths :=
  (w.step (k.after r) (k.step r.dropZeroWrite.simplify).2).1

namespace Instr

variable {r : Instr} {k : Constants} {w : Widths}

/-- The instruction that stands for the word `r` where `k` and `w` are known. -/
def standIn (k : Constants) (w : Widths) (r : Instr) : Instr :=
  (w.step (k.after r) (k.step r.dropZeroWrite.simplify).2).2

theorem derives_standIn (h : r.isBranch = false) : Derives r (standIn k w r) := by
  have hdrop := Derives.dropZeroWrite h
  have hsimplify := hdrop.trans (.simplify (hdrop.isBranch h))
  exact (hsimplify.trans (.constants k (hsimplify.isBranch h))).trans (.widths w _ _)

theorem isBranch_of_standIn (h : (standIn k w r).isBranch = true) : r.isBranch = true := by
  by_contra hr
  rw [Bool.not_eq_true] at hr
  rw [(derives_standIn hr).isBranch hr] at h
  cases h

end Instr

namespace Knowledge

variable {k : Constants} {w : Widths} {c : Cpu} {r : Instr} {pc : UInt32}

theorem effect_standIn (h : Knowledge k w c) :
    Interp.effect c (r.standIn k w) pc = Interp.effect c r pc := h.effect_instr

theorem standsFor (h : Knowledge k w c) (hr : r.isBranch = true) :
    Instr.StandsFor c pc r (r.standIn k w) :=
  (((Instr.standsFor_dropZeroWrite hr).simplify h.zero).constants_step h.zero h.constants).widths_step w

theorem noArithmetic (h : Knowledge k w c) (hr : ∀ format op, r.kind ≠ .fp format op)
    (format : FpFormat) (op : FpOp) : (r.standIn k w).kind ≠ .fp format op := by
  intro hk
  cases hb : r.isBranch with
  | false =>
    rcases Instr.derives_standIn (k := k) (w := w) hb with hd | hd
    · exact hr format op (hd.symm.trans hk)
    · rw [hk] at hd
      cases hd
  | true =>
    have hstand : Instr.StandsFor c 0 r (r.standIn k w) := h.standsFor hb
    rcases hstand.branch_or_nop with hj | hj
    · unfold Instr.isBranch at hj
      rw [hk] at hj
      cases hj
    · rw [hj, Instr.kind_nop] at hk
      cases hk

end Knowledge

end Recompiler
