import Recompiler.Proofs.MultiplyUnit
import Recompiler.Proofs.UnalignedPairs

/-!
Normal forms of the peephole rules. The rules for single instructions ask for one another, at most
one deep; after two passes they have nothing left to do; and an instruction that they leave alone
writes register zero only if it does something else as well, with one exception.
-/

namespace Recompiler.Instr

open Interp

section

variable (again : Instr → Option Instr) (i : Instr)

def ruleAlu (op : AluOp) : Option Instr :=
  let rd := i.rd
  let rs := i.rs
  let rt := i.rt
  match op with
  | .or =>
    if rt = .zero then (if rs = rd then some nop else some i)
    else if rs = .zero then again (move rd rt)
    else if rs = rt then again (move rd rs)
    else some i
  | .and =>
    if rs = .zero ∨ rt = .zero then some (move rd .zero)
    else if rs = rt then again (move rd rs)
    else some i
  | .xor =>
    if rs = rt then some (move rd .zero)
    else if rt = .zero then again (move rd rs)
    else if rs = .zero then again (move rd rt)
    else some i
  | .subu | .sub =>
    if rs = rt then some (move rd .zero)
    else if rt = .zero then again (extendWord rd rs)
    else some i
  | .add =>
    if rt = .zero then again (extendWord rd rs)
    else if rs = .zero then again (extendWord rd rt)
    else some i
  | .addu =>
    if rs = .zero then (if rt = .zero then some (move rd .zero) else again (extendWord rd rt))
    else some i
  | .daddu | .dadd =>
    if rt = .zero then again (move rd rs)
    else if rs = .zero then again (move rd rt)
    else some i
  | .dsubu | .dsub =>
    if rs = rt then some (move rd .zero)
    else if rt = .zero then again (move rd rs)
    else some i
  | .slt => if rs = rt then some (move rd .zero) else some i
  | .sltu => if rs = rt ∨ rt = .zero then some (move rd .zero) else some i
  | .nor => some i

def ruleShift (op : ShiftOp) (amount : ShiftAmount) (width : Width) : Option Instr :=
  if i.rt = .zero then some (move i.rd .zero)
  else
    match width, amount, op with
    | .word, .field, .left => some i
    | .word, .field, _ => if i.sa = 0 then some (extendShift i.rd i.rt) else some i
    | .word, .register, _ => if i.rs = .zero then some (extendShift i.rd i.rt) else some i
    | .double, .field, _ => if i.sa = 0 then again (move i.rd i.rt) else some i
    | .double, .register, _ => if i.rs = .zero then again (move i.rd i.rt) else some i
    | _, .fieldPlus32, _ => some i

def ruleImm (op : ImmOp) : Option Instr :=
  let rt := i.rt
  let rs := i.rs
  match op with
  | .addi => if rs = .zero then some (addiu rt .zero i.imm) else some i
  | .daddi | .daddiu =>
    if i.imm = 0 then again (move rt rs)
    else if rs = .zero then some (addiu rt .zero i.imm)
    else some i
  | .ori => if i.imm = 0 then again (move rt rs) else some i
  | .xori =>
    if i.imm = 0 then again (move rt rs)
    else if rs = .zero then some (ori rt .zero i.imm)
    else some i
  | .andi => if rs = .zero ∨ i.imm = 0 then some (move rt .zero) else some i
  | .lui => if i.imm = 0 then some (move rt .zero) else some i
  | .sltiu =>
    if rs = .zero then (if i.imm = 0 then some (move rt .zero) else some (ori rt .zero 1))
    else some i
  | .addiu | .slti => some i

def ruleBranchEq (cond : EqCond) (likely : Bool) : Option Instr :=
  if i.rs = i.rt then
    match cond, likely with
    | .eq, false => if i.rs = .zero then some i.dropSkip else again (always i.imm)
    | .eq, true => again (always i.imm)
    | .ne, false => some nop
    | .ne, true => some i
  else if i.rs = .zero then again (branch i.opcode i.rt i.rs i.imm)
  else some (if likely then i else i.dropSkip)

def ruleBranchZero (cond : ZeroCond) (likely : Bool) : Option Instr :=
  if i.rs = .zero then
    match cond, likely with
    | .lez, _ => again (always i.imm)
    | .gtz, false => some nop
    | .gtz, true => some i
  else some (if likely then i else i.dropSkip)

def ruleBranchSign (cond : SignCond) (link likely : Bool) : Option Instr :=
  match cond, link, likely with
  | .ltz, false, false => some (if i.rs = .zero then nop else i.dropSkip)
  | .gez, false, false => if i.rs = .zero then again (always i.imm) else some i.dropSkip
  | .gez, false, true => if i.rs = .zero then again (always i.imm) else some i
  | _, _, _ => some i

def ruleOf : Kind → Option Instr
  | .alu op => ruleAlu again i op
  | .shift op amount width => ruleShift again i op amount width
  | .imm op => ruleImm again i op
  | .branchEq cond likely => ruleBranchEq again i cond likely
  | .branchZero cond likely => ruleBranchZero again i cond likely
  | .branchSign cond link likely => ruleBranchSign again i cond link likely
  | .trap cond => some (i.simplifyTrap cond)
  | .trapImm cond => some (i.simplifyTrapImm cond)
  | _ => some i

/-- One pass, which asks `again` where a rule ends in another pass. -/
def rule : Option Instr :=
  if i.dest? = some .zero ∧ i.isPure then some nop else ruleOf again i i.kind

end

def simplifyWithin : Nat → Instr → Option Instr
  | 0, _ => none
  | n + 1, i => rule (simplifyWithin n) i

def Settles (i : Instr) : Prop := i.simplify.simplify = i.simplify

/-- The instruction writes register zero and has no effect, whatever the state. -/
def IsIdleWrite (i : Instr) : Prop :=
  i.dest? = some .zero ∧ ∀ (c : Cpu) (pc : UInt32), c.reg .zero = 0 → effect c i pc = c

section

variable (again : Instr → Option Instr)

theorem rule_of_zeroWrite {i : Instr} (hd : i.dest? = some .zero) (hp : i.isPure = true) :
    rule again i = some nop := if_pos ⟨hd, hp⟩

theorem rule_of_kind {i : Instr} {k : Kind} (hk : i.kind = k) (hd : i.dest? ≠ some .zero) :
    rule again i = ruleOf again i k := by
  rw [← hk]
  exact if_neg fun h => hd h.1

theorem rule_move (rd rs : Reg) : rule again (move rd rs) = some (simplestMove rd rs) := by
  have hrd : (move rd rs).rd = rd := rd_ofFunct ..
  have hrs : (move rd rs).rs = rs := rs_ofFunct ..
  have hrt : (move rd rs).rt = .zero := rt_ofFunct ..
  have hdest : (move rd rs).dest? = some rd := by rw [dest?, kind_move, hrd]
  by_cases hzero : rd = .zero
  · rw [simplestMove, if_pos (.inl hzero)]
    apply rule_of_zeroWrite
    · rw [hdest, hzero]
    · rw [isPure, kind_move]
      rfl
  · rw [rule_of_kind again (kind_move rd rs) (by simp [hdest, hzero])]
    simp only [ruleOf, ruleAlu, simplestMove, hrd, hrs, hrt, hzero, if_true, false_or]
    split <;> rfl

theorem rule_extendWord (rd rs : Reg) :
    rule again (extendWord rd rs) = some (simplestExtend rd rs) := by
  have hrd : (extendWord rd rs).rd = rd := rd_ofFunct ..
  have hrs : (extendWord rd rs).rs = rs := rs_ofFunct ..
  have hrt : (extendWord rd rs).rt = .zero := rt_ofFunct ..
  have hdest : (extendWord rd rs).dest? = some rd := by rw [dest?, kind_extendWord, hrd]
  by_cases hzero : rd = .zero
  · rw [simplestExtend, if_pos hzero]
    apply rule_of_zeroWrite
    · rw [hdest, hzero]
    · rw [isPure, kind_extendWord]
      rfl
  · rw [rule_of_kind again (kind_extendWord rd rs) (by simp [hdest, hzero])]
    simp only [ruleOf, ruleAlu, simplestExtend, hrd, hrs, hrt, hzero, if_true, if_false]
    split <;> rfl

theorem rule_always (off : UInt16) : rule again (always off) = some (simplestAlways off) := by
  have hrs : (always off).rs = .zero := rs_ofOpcode ..
  have hrt : (always off).rt = .zero := rt_ofOpcode ..
  have hdest : (always off).dest? = none := by rw [dest?, kind_always]
  rw [rule_of_kind again (kind_always off) (by simp [hdest])]
  simp only [ruleOf, ruleBranchEq, hrs, hrt, if_true]
  rfl

theorem rule_branch {i : Instr} {cond : EqCond} {likely : Bool}
    (hk : i.kind = .branchEq cond likely) {rs : Reg} (hrs : rs ≠ .zero) (off : UInt16) :
    rule again (branch i.opcode rs .zero off) =
      some (if likely then branch i.opcode rs .zero off
        else (branch i.opcode rs .zero off).dropSkip) := by
  have hkind := (kind_branch hk rs .zero off).trans hk
  have hrs' : (branch i.opcode rs .zero off).rs = rs := rs_ofOpcode ..
  have hrt : (branch i.opcode rs .zero off).rt = .zero := rt_ofOpcode ..
  have hdest : (branch i.opcode rs .zero off).dest? = none := by rw [dest?, hkind]
  rw [rule_of_kind again hkind (by simp [hdest])]
  simp only [ruleOf, ruleBranchEq, hrs', hrt, hrs, if_false]

end

section

variable {i : Instr} (again : Instr → Option Instr)

theorem ruleAlu_rule (i : Instr) (op : AluOp) :
    ruleAlu (rule again) i op = some (i.simplifyAlu op) := by
  cases op <;> simp only [ruleAlu, simplifyAlu, rule_move, rule_extendWord, apply_ite some]

theorem ruleShift_rule (i : Instr) (op : ShiftOp) (amount : ShiftAmount) (width : Width) :
    ruleShift (rule again) i op amount width = some (i.simplifyShift op amount width) := by
  cases width <;> cases amount <;> cases op <;>
    simp only [ruleShift, simplifyShift, rule_move, apply_ite some]

theorem ruleImm_rule (i : Instr) (op : ImmOp) :
    ruleImm (rule again) i op = some (i.simplifyImm op) := by
  cases op <;> simp only [ruleImm, simplifyImm, rule_move, apply_ite some]

theorem ruleBranchEq_rule {cond : EqCond} {likely : Bool} (hk : i.kind = .branchEq cond likely) :
    ruleBranchEq (rule again) i cond likely = some (i.simplifyBranchEq cond likely) := by
  unfold ruleBranchEq simplifyBranchEq
  by_cases hsame : i.rs = i.rt
  · rw [if_pos hsame, if_pos hsame]
    cases cond <;> cases likely <;> simp only [rule_always, apply_ite some]
  · rw [if_neg hsame, if_neg hsame]
    by_cases hzero : i.rs = .zero
    · have hrt : i.rt ≠ .zero := fun h => hsame (hzero.trans h.symm)
      rw [if_pos hzero, if_pos hzero, hzero, rule_branch again hk hrt]
    · rw [if_neg hzero, if_neg hzero]

theorem ruleBranchZero_rule (i : Instr) (cond : ZeroCond) (likely : Bool) :
    ruleBranchZero (rule again) i cond likely = some (i.simplifyBranchZero cond likely) := by
  cases cond <;> cases likely <;>
    simp only [ruleBranchZero, simplifyBranchZero, rule_always, apply_ite some]

theorem ruleBranchSign_rule (i : Instr) (cond : SignCond) (link likely : Bool) :
    ruleBranchSign (rule again) i cond link likely =
      some (i.simplifyBranchSign cond link likely) := by
  cases cond <;> cases link <;> cases likely <;>
    simp only [ruleBranchSign, simplifyBranchSign, rule_always, apply_ite some]

theorem rule_rule (i : Instr) : rule (rule again) i = some i.simplify := by
  by_cases hw : i.dest? = some .zero ∧ i.isPure = true
  · rw [rule_of_zeroWrite _ hw.1 hw.2, simplify, if_pos hw]
  · have hrule : rule (rule again) i = ruleOf (rule again) i i.kind := if_neg hw
    rw [hrule, simplify, if_neg hw]
    cases hk : i.kind with
    | alu op => exact ruleAlu_rule again i op
    | shift op amount width => exact ruleShift_rule again i op amount width
    | imm op => exact ruleImm_rule again i op
    | branchEq cond likely => exact ruleBranchEq_rule again hk
    | branchZero cond likely => exact ruleBranchZero_rule again i cond likely
    | branchSign cond link likely => exact ruleBranchSign_rule again i cond link likely
    | _ => rfl

end

theorem simplifyWithin_two (n : Nat) (i : Instr) : simplifyWithin (n + 2) i = some i.simplify :=
  rule_rule (simplifyWithin n) i

theorem simplify_of_rule {i j : Instr} (h : ∀ again, rule again i = some j) : i.simplify = j := by
  have hrule := rule_rule (fun _ => none) i
  rw [h] at hrule
  exact (Option.some.inj hrule).symm

theorem simplify_nop : nop.simplify = nop := by decide

theorem simplify_move (rd rs : Reg) : (move rd rs).simplify = simplestMove rd rs :=
  simplify_of_rule fun again => rule_move again rd rs

theorem simplify_extendWord (rd rs : Reg) : (extendWord rd rs).simplify = simplestExtend rd rs :=
  simplify_of_rule fun again => rule_extendWord again rd rs

theorem simplify_always (off : UInt16) : (always off).simplify = simplestAlways off :=
  simplify_of_rule fun again => rule_always again off

theorem simplify_simplestMove (rd rs : Reg) : (simplestMove rd rs).simplify = simplestMove rd rs := by
  unfold simplestMove
  split
  · exact simplify_nop
  · rename_i h
    rw [simplify_move, simplestMove, if_neg h]

theorem simplify_simplestExtend (rd rs : Reg) :
    (simplestExtend rd rs).simplify = simplestExtend rd rs := by
  by_cases hrd : rd = .zero
  · rw [simplestExtend, if_pos hrd, simplify_nop]
  · by_cases hrs : rs = .zero
    · have hmove : simplestMove rd .zero = move rd .zero := if_neg (by simp [hrd, eq_comm])
      rw [simplestExtend, if_neg hrd, if_pos hrs, simplify_move, hmove]
    · have hextend : simplestExtend rd rs = extendWord rd rs := by
        rw [simplestExtend, if_neg hrd, if_neg hrs]
      rw [hextend, simplify_extendWord, hextend]

theorem simplify_simplestAlways (off : UInt16) :
    (simplestAlways off).simplify = simplestAlways off := by
  have himm : (always off).imm = off := imm_ofOpcode ..
  by_cases hoff : off = 1
  · rw [simplestAlways, dropSkip, if_pos (himm.trans hoff), simplify_nop]
  · have halways : simplestAlways off = always off := if_neg fun h => hoff (himm.symm.trans h)
    rw [halways, simplify_always, halways]

theorem settles_of_simplify {i j : Instr} (h : i.simplify = j) (hj : j.simplify = j) : i.Settles := by
  rw [Settles, h, hj]

theorem settles_nop : nop.Settles := settles_of_simplify simplify_nop simplify_nop

theorem settles_move (rd rs : Reg) : (move rd rs).Settles :=
  settles_of_simplify (simplify_move rd rs) (simplify_simplestMove rd rs)

theorem settles_simplestMove (rd rs : Reg) : (simplestMove rd rs).Settles :=
  settles_of_simplify (simplify_simplestMove rd rs) (simplify_simplestMove rd rs)

theorem settles_simplestExtend (rd rs : Reg) : (simplestExtend rd rs).Settles :=
  settles_of_simplify (simplify_simplestExtend rd rs) (simplify_simplestExtend rd rs)

theorem settles_simplestAlways (off : UInt16) : (simplestAlways off).Settles :=
  settles_of_simplify (simplify_simplestAlways off) (simplify_simplestAlways off)

theorem settles_of_rule {i : Instr} {k : Kind} (hk : i.kind = k)
    (hj : ∀ again, ruleOf again i k = some i) : i.Settles := by
  by_cases hw : i.dest? = some .zero ∧ i.isPure = true
  · exact settles_of_simplify (if_pos hw) simplify_nop
  · have hi : i.simplify = i := by
      apply simplify_of_rule
      intro again
      have hrule : rule again i = ruleOf again i i.kind := if_neg hw
      rw [hrule, hk, hj]
    exact settles_of_simplify hi hi

theorem settles_addiu (rt rs : Reg) (v : UInt16) : (addiu rt rs v).Settles :=
  settles_of_rule (kind_addiu rt rs v) fun _ => rfl

theorem settles_ori {v : UInt16} (hv : v ≠ 0) (rt rs : Reg) : (ori rt rs v).Settles := by
  apply settles_of_rule (kind_ori rt rs v)
  intro again
  have himm : (ori rt rs v).imm ≠ 0 := by
    rw [show (ori rt rs v).imm = v from imm_ofOpcode ..]
    exact hv
  exact if_neg himm

theorem settles_extendShift {rt : Reg} (hrt : rt ≠ .zero) (rd : Reg) :
    (extendShift rd rt).Settles := by
  apply settles_of_rule (kind_extendShift rd rt)
  intro again
  have hrt' : (extendShift rd rt).rt ≠ .zero := by
    rw [show (extendShift rd rt).rt = rt from rt_ofFunct ..]
    exact hrt
  exact if_neg hrt'

/-- A rule leaves a word alone, or makes one of it that settles. -/
def Rests (i j : Instr) : Prop := j = i ∨ j.Settles

theorem rests_self (i : Instr) : i.Rests i := .inl rfl

theorem rests_of_settles {i j : Instr} (h : j.Settles) : i.Rests j := .inr h

theorem rests_dropSkip (i : Instr) : i.Rests i.dropSkip := by
  unfold dropSkip
  split
  · exact rests_of_settles settles_nop
  · exact rests_self i

theorem rests_simplifyAlu (i : Instr) (op : AluOp) : i.Rests (i.simplifyAlu op) := by
  cases op <;> simp only [simplifyAlu] <;> repeat' split
  all_goals with_reducible first
    | exact rests_self i
    | exact rests_of_settles settles_nop
    | exact rests_of_settles (settles_move ..)
    | exact rests_of_settles (settles_simplestMove ..)
    | exact rests_of_settles (settles_simplestExtend ..)

theorem rests_simplifyShift (i : Instr) (op : ShiftOp) (amount : ShiftAmount) (width : Width) :
    i.Rests (i.simplifyShift op amount width) := by
  unfold simplifyShift
  by_cases hrt : i.rt = .zero
  · rw [if_pos hrt]
    exact rests_of_settles (settles_move ..)
  · have hshift : i.Rests (extendShift i.rd i.rt) :=
      rests_of_settles (settles_extendShift hrt i.rd)
    rw [if_neg hrt]
    repeat' split
    all_goals with_reducible first
      | exact rests_self i
      | exact hshift
      | exact rests_of_settles (settles_simplestMove ..)

theorem rests_simplifyImm (i : Instr) (op : ImmOp) : i.Rests (i.simplifyImm op) := by
  cases op with
  | xori =>
    simp only [simplifyImm]
    split
    · exact rests_of_settles (settles_simplestMove ..)
    · rename_i himm
      split
      · exact rests_of_settles (settles_ori himm ..)
      · exact rests_self i
  | sltiu =>
    simp only [simplifyImm]
    repeat' split
    · exact rests_of_settles (settles_move ..)
    · exact rests_of_settles (settles_ori (by decide) ..)
    · exact rests_self i
  | _ =>
    simp only [simplifyImm]
    repeat' split
    all_goals with_reducible first
      | exact rests_self i
      | exact rests_of_settles (settles_move ..)
      | exact rests_of_settles (settles_simplestMove ..)
      | exact rests_of_settles (settles_addiu ..)

theorem settles_branch {i : Instr} {cond : EqCond} {likely : Bool}
    (hk : i.kind = .branchEq cond likely) {rs : Reg} (hrs : rs ≠ .zero) (off : UInt16) :
    (if likely then branch i.opcode rs .zero off
      else (branch i.opcode rs .zero off).dropSkip).Settles := by
  have hbranch := simplify_of_rule fun again => rule_branch again hk hrs off
  cases likely with
  | true => exact settles_of_simplify hbranch hbranch
  | false =>
    change (branch i.opcode rs .zero off).simplify = (branch i.opcode rs .zero off).dropSkip
      at hbranch
    change (branch i.opcode rs .zero off).dropSkip.Settles
    unfold dropSkip at hbranch ⊢
    split
    · exact settles_nop
    · rename_i himm
      rw [if_neg himm] at hbranch
      exact settles_of_simplify hbranch hbranch

theorem rests_simplifyBranchEq {i : Instr} {cond : EqCond} {likely : Bool}
    (hk : i.kind = .branchEq cond likely) : i.Rests (i.simplifyBranchEq cond likely) := by
  unfold simplifyBranchEq
  by_cases hsame : i.rs = i.rt
  · rw [if_pos hsame]
    cases cond <;> cases likely
    · dsimp only
      split
      · exact rests_dropSkip i
      · exact rests_of_settles (settles_simplestAlways _)
    · exact rests_of_settles (settles_simplestAlways _)
    · exact rests_of_settles settles_nop
    · exact rests_self i
  · rw [if_neg hsame]
    by_cases hzero : i.rs = .zero
    · have hrt : i.rt ≠ .zero := fun h => hsame (hzero.trans h.symm)
      rw [if_pos hzero, hzero]
      exact rests_of_settles (settles_branch hk hrt i.imm)
    · rw [if_neg hzero]
      cases likely with
      | true => exact rests_self i
      | false => exact rests_dropSkip i

theorem rests_simplifyBranchZero (i : Instr) (cond : ZeroCond) (likely : Bool) :
    i.Rests (i.simplifyBranchZero cond likely) := by
  cases cond <;> cases likely <;> simp only [simplifyBranchZero] <;> repeat' split
  all_goals with_reducible first
    | exact rests_self i
    | exact rests_dropSkip i
    | exact rests_of_settles settles_nop
    | exact rests_of_settles (settles_simplestAlways _)

theorem rests_simplifyBranchSign (i : Instr) (cond : SignCond) (link likely : Bool) :
    i.Rests (i.simplifyBranchSign cond link likely) := by
  cases cond <;> cases link <;> cases likely <;> simp only [simplifyBranchSign] <;> repeat' split
  all_goals with_reducible first
    | exact rests_self i
    | exact rests_dropSkip i
    | exact rests_of_settles settles_nop
    | exact rests_of_settles (settles_simplestAlways _)

theorem rests_simplifyTrap (i : Instr) (cond : TrapCond) : i.Rests (i.simplifyTrap cond) := by
  cases cond <;> simp only [simplifyTrap] <;> repeat' split
  all_goals with_reducible first
    | exact rests_self i
    | exact rests_of_settles settles_nop

theorem rests_simplifyTrapImm (i : Instr) (cond : TrapCond) : i.Rests (i.simplifyTrapImm cond) := by
  cases cond <;> simp only [simplifyTrapImm] <;> repeat' split
  all_goals with_reducible first
    | exact rests_self i
    | exact rests_of_settles settles_nop

theorem rests_simplify (i : Instr) : i.Rests i.simplify := by
  unfold simplify
  split
  · exact rests_of_settles settles_nop
  · cases hk : i.kind with
    | alu op => exact rests_simplifyAlu i op
    | shift op amount width => exact rests_simplifyShift i op amount width
    | imm op => exact rests_simplifyImm i op
    | branchEq cond likely => exact rests_simplifyBranchEq hk
    | branchZero cond likely => exact rests_simplifyBranchZero i cond likely
    | branchSign cond link likely => exact rests_simplifyBranchSign i cond link likely
    | trap cond => exact rests_simplifyTrap i cond
    | trapImm cond => exact rests_simplifyTrapImm i cond
    | _ => exact rests_self i

theorem settles_simplify (i : Instr) : i.simplify.Settles := by
  obtain h | h := rests_simplify i
  · exact settles_of_simplify (by rw [h]) (by rw [h, h])
  · exact h

theorem dropZeroWrite_dropZeroWrite (i : Instr) :
    i.dropZeroWrite.dropZeroWrite = i.dropZeroWrite := by
  by_cases hjump : i.kind = .jalr ∧ i.rd = .zero
  · have hjr : i.dropZeroWrite = jr i.rs := if_pos hjump
    have hkind : (jr i.rs).kind = .jr := kind_jr i.rs
    have hdest : (jr i.rs).dest? = none := by rw [dest?, hkind]
    rw [hjr, dropZeroWrite, hkind, hdest]
    simp
  · by_cases hwrite : i.dest? = some .zero ∧ i.isPure = true
    · have hnop : i.dropZeroWrite = nop := (if_neg hjump).trans (if_pos hwrite)
      rw [hnop]
      decide
    · have hkeep : i.dropZeroWrite = i := (if_neg hjump).trans (if_neg hwrite)
      rw [hkeep, hkeep]

/-- A machine without memory, whose registers are zero and which maps no address. -/
def blank : Cpu := .powerOn ⟨#[], #[], []⟩ none

theorem reg_blank (r : Reg) : blank.reg r = 0 := by
  change (Vector.replicate 32 (0 : UInt64)).get r = 0
  simp [Vector.get]

theorem toNat_of_fits {k : Nat} {v : UInt64} (hk : k < 63) (h : Fits (k + 1) v) :
    v.toNat < 2 ^ k ∨ 2 ^ 64 - 2 ^ k ≤ v.toNat := by
  obtain ⟨hlo, hhi⟩ := (fits_iff_toInt (by omega)).mp h
  have hpow : (2 : Int) ^ k ≤ 2 ^ 62 := pow_le_pow_right₀ (by decide) (by omega)
  have hcast : ((2 ^ k : Nat) : Int) = 2 ^ k := by norm_cast
  have hlt := v.toNat_lt
  rw [BitVec.toInt_eq_toNat_cond, UInt64.toNat_toBitVec] at hlo hhi
  split at hlo <;> omega

theorem addOverflows32_iff (x y : UInt64) :
    addOverflows32 x y = true ↔ ¬ Fits 32 (sext32 x + sext32 y) := by
  rw [addOverflows32, bne_iff_ne]
  constructor
  · intro h hf
    exact h (sext32_eq_of_fits hf (Int.le_refl 32)).symm
  · intro h he
    apply h
    rw [he]
    exact fits_sext32 _

theorem exists_addOverflows32 {s : UInt64} (hs : Fits 16 s) (h : s ≠ 0) :
    ∃ x, addOverflows32 x s = true := by
  have hself : sext32 s = s := sext32_eq_of_fits hs (by decide)
  have hne : s.toNat ≠ 0 := fun he => h (UInt64.toNat_inj.mp he)
  obtain hpos | hneg := toNat_of_fits (k := 15) (by decide) hs
  · refine ⟨0x7fffffff, (addOverflows32_iff _ _).mpr fun hf => ?_⟩
    have hsum : (sext32 0x7fffffff + sext32 s).toNat = (2 ^ 31 - 1 + s.toNat) % 2 ^ 64 := by
      rw [hself]
      rfl
    have hcases := toNat_of_fits (k := 31) (by decide) hf
    omega
  · refine ⟨0x80000000, (addOverflows32_iff _ _).mpr fun hf => ?_⟩
    have hsum : (sext32 0x80000000 + sext32 s).toNat = (2 ^ 64 - 2 ^ 31 + s.toNat) % 2 ^ 64 := by
      rw [hself]
      rfl
    have hlt := s.toNat_lt
    have hcases := toNat_of_fits (k := 31) (by decide) hf
    omega

theorem exists_addOverflows64 {s : UInt64} (hs : Fits 16 s) (h : s ≠ 0) :
    ∃ x, addOverflows64 x s = true := by
  have hne : s.toNat ≠ 0 := fun he => h (UInt64.toNat_inj.mp he)
  have hsign (v : UInt64) : signBit64 v = decide (2 ^ 63 ≤ v.toNat) := by
    rw [signBit64_eq_msb, BitVec.msb_eq_decide]
    rfl
  have hxor (v w : UInt64) : signBit64 (v ^^^ w) = (signBit64 v ^^ signBit64 w) := by
    rw [signBit64_eq_msb, signBit64_eq_msb, signBit64_eq_msb, UInt64.toBitVec_xor, BitVec.msb_xor]
  obtain hpos | hneg := toNat_of_fits (k := 15) (by decide) hs
  · refine ⟨0x7fffffffffffffff, ?_⟩
    have hsum : (0x7fffffffffffffff + s).toNat = (2 ^ 63 - 1 + s.toNat) % 2 ^ 64 := rfl
    simp only [addOverflows64, hxor, hsign, hsum, UInt64.reduceToNat]
    rw [decide_eq_false (show ¬ 2 ^ 63 ≤ s.toNat by omega),
      decide_eq_true (show 2 ^ 63 ≤ (2 ^ 63 - 1 + s.toNat) % 2 ^ 64 by omega)]
    rfl
  · refine ⟨0x8000000000000000, ?_⟩
    have hsum : (0x8000000000000000 + s).toNat = (2 ^ 63 + s.toNat) % 2 ^ 64 := rfl
    have hlt := s.toNat_lt
    simp only [addOverflows64, hxor, hsign, hsum, UInt64.reduceToNat]
    rw [decide_eq_true (show 2 ^ 63 ≤ s.toNat by omega),
      decide_eq_false (show ¬ 2 ^ 63 ≤ (2 ^ 63 + s.toNat) % 2 ^ 64 by omega)]
    rfl

theorem isUnmapped_simm (i : Instr) : isUnmapped i.simm.toUInt32 = false := by
  have hcases := toNat_of_fits (k := 15) (by decide) (fits_simm i)
  have hlow : i.simm.toUInt32.toNat = i.simm.toNat % 2 ^ 32 := UInt64.toNat_toUInt32 _
  have hlt := i.simm.toNat_lt
  rw [← Bool.not_eq_true, Memory.isUnmapped_iff]
  omega

theorem isUnmapped_container {addr : UInt32} (h : isUnmapped addr = false) (width : Width) :
    isUnmapped (container addr width) = false := by
  rw [← Bool.not_eq_true, Memory.isUnmapped_iff] at h ⊢
  rw [toNat_container]
  cases width <;> simp only [Width.bytes] <;> omega

section

variable {c : Cpu} {vaddr : UInt32}

def MapsNothing (c : Cpu) : Prop := c.window = none ∧ ∀ i, c.tlb.get i = ⟨0, 0, 0, 0⟩

theorem toPhysical_of_mapsNothing (h : MapsNothing c) (hv : isUnmapped vaddr = false)
    (write : Bool) : ∃ c', c.toPhysical vaddr write = (none, c') := by
  have hwindow : c.windowAddress? vaddr = none := by
    rw [Cpu.windowAddress?, h.1]
  have hlookup : c.lookup vaddr write = .miss ∨ c.lookup vaddr write = .invalid := by
    rw [Cpu.lookup, hwindow, hv, Cpu.lookupTlb]
    dsimp only
    cases c.tlbIndex? vaddr c.asid with
    | none => exact .inl rfl
    | some i =>
      right
      have hpage : (c.tlb.get i).page vaddr = 0 := by
        rw [h.2 i, TlbEntry.page, ite_self]
      dsimp only
      rw [hpage]
      rfl
  obtain hl | hl := hlookup <;> rw [Cpu.toPhysical, hl] <;> exact ⟨_, rfl⟩

theorem load_of_mapsNothing (h : MapsNothing c) (hv : isUnmapped vaddr = false) (size : Size) :
    ∃ c', c.load vaddr size = (none, c') ∧ c'.leave = 1 := by
  obtain ⟨c', hc⟩ := toPhysical_of_mapsNothing h hv false
  unfold Cpu.load
  split
  · rw [hc]
    exact ⟨c', rfl, Cpu.toPhysical_none hc⟩
  · exact ⟨_, rfl, rfl⟩

theorem store_of_mapsNothing (h : MapsNothing c) (hv : isUnmapped vaddr = false) (size : Size)
    (v : UInt64) : ∃ c', c.store vaddr size v = (false, c') ∧ c'.leave = 1 := by
  obtain ⟨c', hc⟩ := toPhysical_of_mapsNothing h hv true
  unfold Cpu.store
  split
  · rw [hc]
    exact ⟨c', rfl, Cpu.toPhysical_none hc⟩
  · exact ⟨_, rfl, rfl⟩

end

theorem mapsNothing_blank : MapsNothing blank := by
  constructor
  · rfl
  · intro i
    change (Vector.replicate 32 (⟨0, 0, 0, 0⟩ : TlbEntry)).get i = _
    simp [Vector.get]

theorem effective_blank (i : Instr) : effective blank i = i.simm.toUInt32 := by
  rw [effective, reg_blank]
  exact UInt32.zero_add _

section

variable {i : Instr}

theorem execLoad_blank (i : Instr) (op : LoadOp) : (execLoad blank i op).leave = 1 := by
  obtain ⟨c', hload, hleave⟩ := load_of_mapsNothing mapsNothing_blank
    (effective_blank i ▸ isUnmapped_simm i) (loadSize op)
  rw [execLoad, hload]
  exact hleave

theorem execLoadPart_blank (i : Instr) (side : Side) (width : Width) :
    (execLoadPart blank i side width).leave = 1 := by
  have hunmapped : isUnmapped (container (effective blank i) width) = false :=
    isUnmapped_container (effective_blank i ▸ isUnmapped_simm i) width
  obtain ⟨c', hload, hleave⟩ := load_of_mapsNothing mapsNothing_blank hunmapped (widthSize width)
  rw [execLoadPart]
  dsimp only
  rw [hload]
  exact hleave

theorem execLoadLinked_blank (i : Instr) (width : Width) :
    (execLoadLinked blank i width).leave = 1 := by
  obtain ⟨c', hload, hleave⟩ := load_of_mapsNothing mapsNothing_blank
    (effective_blank i ▸ isUnmapped_simm i) (widthSize width)
  rw [execLoadLinked]
  dsimp only
  rw [hload]
  exact hleave

theorem execStoreConditional_blank (i : Instr) (width : Width) :
    (execStoreConditional { blank with llBit := 1 } i width).leave = 1 := by
  obtain ⟨c', hstore, hleave⟩ := store_of_mapsNothing (c := { blank with llBit := 1 })
    mapsNothing_blank (effective_blank i ▸ isUnmapped_simm i) (widthSize width)
    (Cpu.reg { blank with llBit := 1 } i.rt)
  have hlink : ({ blank with llBit := 1 } : Cpu).llBit ≠ 0 := by decide
  have haddr : effective { blank with llBit := 1 } i = effective blank i := rfl
  rw [execStoreConditional, if_neg hlink, haddr, hstore]
  exact hleave

theorem exists_reg {r : Reg} (hr : r ≠ .zero) (x : UInt64) :
    ∃ c : Cpu, c.reg .zero = 0 ∧ c.leave = 0 ∧ c.reg r = x ∧ ∀ s, s ≠ r → c.reg s = 0 := by
  refine ⟨blank.setReg r x, ?_, ?_, Cpu.reg_setReg_self hr, ?_⟩
  · rw [Cpu.reg_setReg_of_ne hr, reg_blank]
  · exact Cpu.setReg_leave blank r x
  · intro s hs
    rw [Cpu.reg_setReg_of_ne hs.symm, reg_blank]

theorem exists_regs {r s : Reg} (hr : r ≠ .zero) (hs : s ≠ .zero) (x : UInt64) :
    ∃ c : Cpu, c.reg .zero = 0 ∧ c.leave = 0 ∧ c.reg r = x ∧ c.reg s = x := by
  obtain ⟨c, h0, hleave, hx, -⟩ := exists_reg hr x
  refine ⟨c.setReg s x, ?_, ?_, ?_, Cpu.reg_setReg_self hs⟩
  · rw [Cpu.reg_setReg_of_ne hs, h0]
  · rw [Cpu.setReg_leave, hleave]
  · by_cases he : s = r
    · rw [he, Cpu.reg_setReg_self hr]
    · rw [Cpu.reg_setReg_of_ne he, hx]

/-- Arithmetic that is kept although it writes register zero overflows somewhere. -/
theorem exists_aluTraps {op : AluOp} (hk : i.kind = .alu op) (hp : i.isPure = false)
    (hrd : i.rd = .zero) (hfix : i.simplify = i) (hne : i ≠ nop) :
    ∃ c : Cpu, c.reg .zero = 0 ∧ c.leave = 0 ∧ aluTraps op (c.reg i.rs) (c.reg i.rt) = true := by
  have hrule : i.simplifyAlu op = i := by
    rw [simplify, if_neg (by simp [hp]), hk] at hfix
    exact hfix
  have hextend : ∀ rs, simplestExtend i.rd rs ≠ i := by
    intro rs h
    rw [simplestExtend, if_pos hrd] at h
    exact hne h.symm
  have hmove : ∀ rs, simplestMove i.rd rs ≠ i := by
    intro rs h
    rw [simplestMove, if_pos (.inl hrd)] at h
    exact hne h.symm
  have hor : op ≠ .or → move i.rd .zero ≠ i := by
    intro hop h
    have hkind := congrArg kind h
    rw [kind_move, hk] at hkind
    exact hop (Kind.alu.inj hkind).symm
  cases op with
  | add =>
    simp only [simplifyAlu] at hrule
    split at hrule
    · exact absurd hrule (hextend _)
    split at hrule
    · exact absurd hrule (hextend _)
    rename_i hrt hrs
    obtain ⟨c, h0, hleave, hx, hy⟩ := exists_regs hrs hrt 0x7fffffff
    refine ⟨c, h0, hleave, ?_⟩
    rw [hx, hy]
    decide
  | dadd =>
    simp only [simplifyAlu] at hrule
    split at hrule
    · exact absurd hrule (hmove _)
    split at hrule
    · exact absurd hrule (hmove _)
    rename_i hrt hrs
    obtain ⟨c, h0, hleave, hx, hy⟩ := exists_regs hrs hrt 0x7fffffffffffffff
    refine ⟨c, h0, hleave, ?_⟩
    rw [hx, hy]
    decide
  | sub =>
    simp only [simplifyAlu] at hrule
    split at hrule
    · exact absurd hrule (hor (by decide))
    split at hrule
    · exact absurd hrule (hextend _)
    rename_i hsame hrt
    obtain ⟨c, h0, hleave, hy, hother⟩ := exists_reg hrt 0x80000000
    refine ⟨c, h0, hleave, ?_⟩
    rw [hother _ hsame, hy]
    decide
  | dsub =>
    simp only [simplifyAlu] at hrule
    split at hrule
    · exact absurd hrule (hor (by decide))
    split at hrule
    · exact absurd hrule (hmove _)
    rename_i hsame hrt
    obtain ⟨c, h0, hleave, hy, hother⟩ := exists_reg hrt 0x8000000000000000
    refine ⟨c, h0, hleave, ?_⟩
    rw [hother _ hsame, hy]
    decide
  | _ =>
    rw [isPure, hk] at hp
    exact absurd hp (by decide)

/-- So does an immediate, unless it is zero. -/
theorem exists_immTraps {op : ImmOp} (hk : i.kind = .imm op) (hp : i.isPure = false)
    (hrt : i.rt = .zero) (hfix : i.simplify = i) (hne : i ≠ nop)
    (hzero : ¬ (op = .addi ∧ i.imm = 0)) :
    ∃ c : Cpu, c.reg .zero = 0 ∧ c.leave = 0 ∧ immTraps i op (c.reg i.rs) = true := by
  have hrule : i.simplifyImm op = i := by
    rw [simplify, if_neg (by simp [hp]), hk] at hfix
    exact hfix
  have hother : op ≠ .addiu → addiu i.rt .zero i.imm ≠ i := by
    intro hop h
    have hkind := congrArg kind h
    rw [kind_addiu, hk] at hkind
    exact hop (Kind.imm.inj hkind).symm
  cases op with
  | addi =>
    simp only [simplifyImm] at hrule
    split at hrule
    · exact absurd hrule (hother (by decide))
    rename_i hrs
    have hsimm : i.simm ≠ 0 := fun h => hzero ⟨rfl, imm_of_simm_zero h⟩
    obtain ⟨x, hx⟩ := exists_addOverflows32 (fits_simm i) hsimm
    obtain ⟨c, h0, hleave, hreg, -⟩ := exists_reg hrs x
    exact ⟨c, h0, hleave, hreg ▸ hx⟩
  | daddi =>
    simp only [simplifyImm] at hrule
    split at hrule
    · rw [simplestMove, if_pos (.inl hrt)] at hrule
      exact absurd hrule.symm hne
    split at hrule
    · exact absurd hrule (hother (by decide))
    rename_i himm hrs
    have hsimm : i.simm ≠ 0 := fun h => himm (imm_of_simm_zero h)
    obtain ⟨x, hx⟩ := exists_addOverflows64 (fits_simm i) hsimm
    obtain ⟨c, h0, hleave, hreg, -⟩ := exists_reg hrs x
    exact ⟨c, h0, hleave, hreg ▸ hx⟩
  | _ =>
    rw [isPure, hk] at hp
    exact absurd hp (by decide)

/-- A write of register zero that is kept can be told from none, with one exception. -/
theorem exists_leave (hd : i.dest? = some .zero) (hfix : i.simplify = i) (hne : i ≠ nop)
    (hzero : ¬ (i.kind = .imm .addi ∧ i.imm = 0)) :
    ∃ c : Cpu, c.reg .zero = 0 ∧ c.leave = 0 ∧ ∀ pc, (effect c i pc).leave = 1 := by
  have hp : i.isPure = false := by
    rw [← Bool.not_eq_true]
    intro hp
    rw [simplify, if_pos ⟨hd, hp⟩] at hfix
    exact hne hfix.symm
  cases hk : i.kind with
  | alu op =>
    have hrd : i.rd = .zero := by
      rw [dest?, hk] at hd
      exact Option.some.inj hd
    obtain ⟨c, h0, hleave, htraps⟩ := exists_aluTraps hk hp hrd hfix hne
    refine ⟨c, h0, hleave, fun pc => ?_⟩
    rw [effect_alu hk, execAlu_eq, htraps]
    rfl
  | imm op =>
    have hrt : i.rt = .zero := by
      rw [dest?, hk] at hd
      exact Option.some.inj hd
    have hzero' : ¬ (op = .addi ∧ i.imm = 0) := fun h => hzero ⟨hk.trans (by rw [h.1]), h.2⟩
    obtain ⟨c, h0, hleave, htraps⟩ := exists_immTraps hk hp hrt hfix hne hzero'
    refine ⟨c, h0, hleave, fun pc => ?_⟩
    rw [effect_imm hk, execImm_eq, htraps]
    rfl
  | load op =>
    refine ⟨blank, reg_blank _, rfl, fun pc => ?_⟩
    simp only [effect, hk]
    exact execLoad_blank i op
  | loadPart side width =>
    refine ⟨blank, reg_blank _, rfl, fun pc => ?_⟩
    simp only [effect, hk]
    exact execLoadPart_blank i side width
  | loadLinked width =>
    refine ⟨blank, reg_blank _, rfl, fun pc => ?_⟩
    simp only [effect, hk]
    exact execLoadLinked_blank i width
  | storeConditional width =>
    refine ⟨{ blank with llBit := 1 }, reg_blank _, rfl, fun pc => ?_⟩
    simp only [effect, hk]
    exact execStoreConditional_blank i width
  | shift op amount width | mfhi | mflo | mfc0 width | mfc1 width | cfc1 =>
    rw [isPure, hk] at hp
    cases hp
  | _ =>
    rw [dest?, hk] at hd
    cases hd

theorem isIdleWrite_nop : nop.IsIdleWrite := ⟨by decide, fun _ _ _ => effect_nop⟩

theorem isIdleWrite_addi (hk : i.kind = .imm .addi) (hrt : i.rt = .zero) (himm : i.imm = 0) :
    i.IsIdleWrite := by
  constructor
  · rw [dest?, hk, hrt]
  · intro c pc h0
    rw [effect_imm hk, execImm_eq, hrt, immTraps, simm_of_imm_zero himm, addOverflows32_zero]
    rfl

/-- A word that is kept writes register zero idly only if it is the canonical no-operation, or the
addition of an immediate zero with a check for overflow. -/
theorem isIdleWrite_iff (hfix : i.simplify = i) :
    i.IsIdleWrite ↔ i = nop ∨ i.kind = .imm .addi ∧ i.rt = .zero ∧ i.imm = 0 := by
  constructor
  · intro h
    by_contra hne
    rw [not_or] at hne
    have hzero : ¬ (i.kind = .imm .addi ∧ i.imm = 0) := by
      intro ha
      have hrt : i.rt = .zero := by
        have hd := h.1
        rw [dest?, ha.1] at hd
        exact Option.some.inj hd
      exact hne.2 ⟨ha.1, hrt, ha.2⟩
    obtain ⟨c, h0, hleave, hone⟩ := exists_leave h.1 hfix hne.1 hzero
    have hsame := congrArg Cpu.leave (h.2 c 0 h0)
    rw [hone, hleave] at hsame
    exact absurd hsame (by decide)
  · rintro (rfl | ⟨hk, hrt, himm⟩)
    · exact isIdleWrite_nop
    · exact isIdleWrite_addi hk hrt himm

end

/-- The normal forms. Removing writes of register zero twice is removing them once. Two passes
inside one another are enough for every rule, and two after one another for every word. A word that
is kept writes register zero idly only if it is the canonical no-operation or adds an immediate zero
with a check for overflow, which the rules miss. -/
theorem simplify_normal (i : Instr) :
    i.dropZeroWrite.dropZeroWrite = i.dropZeroWrite ∧
    (∀ n, simplifyWithin (n + 2) i = some i.simplify) ∧
    i.simplify.simplify.simplify = i.simplify.simplify ∧
    (i.simplify = i →
      (i.IsIdleWrite ↔ i = nop ∨ i.kind = .imm .addi ∧ i.rt = .zero ∧ i.imm = 0)) :=
  ⟨dropZeroWrite_dropZeroWrite i, fun n => simplifyWithin_two n i, settles_simplify i,
    isIdleWrite_iff⟩

/-- The exception: the word is kept, and has no effect. -/
theorem simplify_normal_addi :
    (⟨0x20200000⟩ : Instr).simplify = ⟨0x20200000⟩ ∧ (⟨0x20200000⟩ : Instr) ≠ nop ∧
      IsIdleWrite ⟨0x20200000⟩ := by
  have hfix : (⟨0x20200000⟩ : Instr).simplify = ⟨0x20200000⟩ := by decide
  have hidle := (simplify_normal ⟨0x20200000⟩).2.2.2 hfix
  exact ⟨hfix, by decide, hidle.mpr (.inr ⟨by decide, by decide, by decide⟩)⟩

end Recompiler.Instr
