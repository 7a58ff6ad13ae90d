import Mathlib
import Recompiler.Instr.Tables
import Recompiler.Proofs.Fields

/-!
The decoding tables agree with the operation of a word: the handler of every word performs it, and
the words that the tables do not define are the reserved ones. So a trace is cut wherever the
interpreter finds nothing to execute, although the two look at different tables.
-/

namespace Recompiler

namespace Instr

theorem opcode_lt (i : Instr) : i.opcode.toNat < 64 := by
  have hw := i.word.toNat_lt
  rw [opcode, UInt32.toNat_shiftRight]
  simp only [UInt32.reduceToNat, Nat.reduceMod, Nat.shiftRight_eq_div_pow]
  omega

theorem funct_lt (i : Instr) : i.funct.toNat < 64 := by
  rw [funct, UInt32.toNat_and]
  exact Nat.lt_succ_of_le Nat.and_le_right

theorem fmt_lt (i : Instr) : i.fmt.toNat < 32 := by
  rw [fmt, UInt32.toNat_and]
  exact Nat.lt_succ_of_le Nat.and_le_right

/-- The likely bit of a floating-point branch is the second bit of its `rt` field. -/
theorem likely_bit (i : Instr) : (i.rt.val &&& 2 != 0) = (i.word &&& 0x00020000 != 0) := by
  have hrt : i.rt.val = (i.word.toNat >>> 16) &&& 31 := by
    change ((i.word >>> 16) &&& 31).toNat = _
    simp only [UInt32.toNat_and, UInt32.toNat_shiftRight, UInt32.reduceToNat, Nat.reduceMod]
  have hbit (n k : Nat) : (n &&& 2 ^ k != 0) = n.testBit k := by
    rw [Nat.and_two_pow]
    cases n.testBit k <;> simp
  have hword : (i.word &&& 0x00020000 != 0) = (i.word.toNat &&& 2 ^ 17 != 0) := by
    rw [Bool.eq_iff_iff, bne_iff_ne, bne_iff_ne, ne_eq, ne_eq, ← UInt32.toNat_inj,
      UInt32.toNat_and]
    rfl
  calc (i.rt.val &&& 2 != 0)
    _ = i.rt.val.testBit 1 := hbit _ 1
    _ = i.word.toNat.testBit 17 := by
      rw [hrt, Nat.testBit_and, Nat.testBit_shiftRight]
      exact Bool.and_true _
    _ = (i.word.toNat &&& 2 ^ 17 != 0) := (hbit _ 17).symm
    _ = (i.word &&& 0x00020000 != 0) := hword.symm

end Instr

namespace Tables

variable {n : Nat} {w op : UInt32} {i : Instr}

/-- A field holds one of finitely many codes. -/
theorem exists_code (h : w.toNat < n) : ∃ k : Fin n, w = .ofNat k :=
  ⟨⟨w.toNat, h⟩, UInt32.ofNat_toNat.symm⟩

/-- The tables and the operation say the same of a word. -/
def Agree (i : Instr) : Prop :=
  isReserved i = i.isReserved ∧ isBranch i = i.isBranch ∧ isLikely i = i.isLikely ∧
    boundary i = i.boundary

theorem agree_special (h : i.opcode = 0x00) : Agree i := by
  obtain ⟨f, hf⟩ := exists_code i.funct_lt
  unfold Agree boundary isReserved isBranch isLikely Instr.boundary Instr.isReserved Instr.isBranch
    Instr.isLikely
  rw [Instr.kind_of_opcode_zero h, h, hf]
  fin_cases f <;> exact ⟨rfl, rfl, rfl, rfl⟩

theorem agree_regimm (h : i.opcode = 0x01) : Agree i := by
  unfold Agree boundary isReserved isBranch isLikely Instr.boundary Instr.isReserved Instr.isBranch
    Instr.isLikely
  rw [Instr.kind_of_opcode_one h, h]
  generalize i.rt = r
  fin_cases r <;> exact ⟨rfl, rfl, rfl, rfl⟩

theorem agree_cop0 (h : i.opcode = 0x10) : Agree i := by
  obtain ⟨m, hm⟩ := exists_code i.fmt_lt
  obtain ⟨f, hf⟩ := exists_code i.funct_lt
  unfold Agree boundary isReserved isBranch isLikely Instr.boundary Instr.isReserved Instr.isBranch
    Instr.isLikely
  rw [Instr.kind_of_opcode_cop0 h, h, hm]
  fin_cases m
  case «16» =>
    rw [hf]
    fin_cases f <;> exact ⟨rfl, rfl, rfl, rfl⟩
  all_goals exact ⟨rfl, rfl, rfl, rfl⟩

theorem agree_cop1 (h : i.opcode = 0x11) : Agree i := by
  obtain ⟨m, hm⟩ := exists_code i.fmt_lt
  unfold Agree boundary isReserved isBranch isLikely Instr.boundary Instr.isReserved Instr.isBranch
    Instr.isLikely
  rw [Instr.kind_of_opcode_cop1 h, h, hm]
  fin_cases m
  case «8» => exact ⟨rfl, rfl, i.likely_bit, rfl⟩
  all_goals exact ⟨rfl, rfl, rfl, rfl⟩

/-- What the tables say of a word follows from its operation. -/
theorem classes_eq (i : Instr) : isReserved i = i.isReserved ∧ isBranch i = i.isBranch ∧
    isLikely i = i.isLikely ∧ boundary i = i.boundary := by
  obtain ⟨k, hk⟩ := exists_code i.opcode_lt
  fin_cases k
  case «0» => exact agree_special hk
  case «1» => exact agree_regimm hk
  case «16» => exact agree_cop0 hk
  case «17» => exact agree_cop1 hk
  -- The other opcodes decide on their own.
  all_goals
    unfold boundary isReserved isBranch isLikely Instr.boundary Instr.isReserved Instr.isBranch
      Instr.isLikely Instr.kind
    rw [hk]
    exact ⟨rfl, rfl, rfl, rfl⟩

theorem dispatchSpecial_eq (i : Instr) : dispatchSpecial i = .ofSpecial i.funct := by
  obtain ⟨f, hf⟩ := exists_code i.funct_lt
  unfold dispatchSpecial
  rw [hf]
  fin_cases f <;> rfl

theorem dispatchRegimm_eq (i : Instr) : dispatchRegimm i = .ofRegimm i.rt := by
  unfold dispatchRegimm
  generalize i.rt = r
  fin_cases r <;> rfl

theorem isLikely_of_opcode (h : i.opcode = op) {b : Bool}
    (hb : op ≠ 0x01 ∧ op ≠ 0x11 ∧ likely.contains op = b) : isLikely i = b := by
  obtain ⟨hregimm, hcop1, rfl⟩ := hb
  unfold isLikely
  rw [h]
  split <;> first | contradiction | rfl

theorem branchEq_eq (h : i.opcode = op) {b : Bool} (cond : EqCond)
    (hb : op ≠ 0x01 ∧ op ≠ 0x11 ∧ likely.contains op = b) :
    Handler.branchEq cond i = .branchEq cond b :=
  congrArg (Kind.branchEq cond) (isLikely_of_opcode h hb)

theorem branchZero_eq (h : i.opcode = op) {b : Bool} (cond : ZeroCond)
    (hb : op ≠ 0x01 ∧ op ≠ 0x11 ∧ likely.contains op = b) :
    Handler.branchZero cond i = .branchZero cond b :=
  congrArg (Kind.branchZero cond) (isLikely_of_opcode h hb)

theorem load_eq (h : i.opcode = op) {l : LoadOp} (hl : Handler.loadOps.lookup op = some l) :
    Handler.load i = .load l := by
  rw [Handler.load, h, hl]
  rfl

theorem store_eq (h : i.opcode = op) {size : Size}
    (hs : Handler.storeSizes.lookup op = some size) : Handler.store i = .store size := by
  rw [Handler.store, h, hs]
  rfl

/-- The handler of a word performs the operation of the word. -/
theorem dispatch_eq_kind (i : Instr) : dispatch i = i.kind := by
  obtain ⟨k, hk⟩ := exists_code i.opcode_lt
  unfold dispatch Instr.kind
  rw [hk]
  fin_cases k
  all_goals first
    | rfl
    | exact dispatchSpecial_eq i
    | exact dispatchRegimm_eq i
    | exact branchEq_eq hk _ (by decide)
    | exact branchZero_eq hk _ (by decide)
    | exact load_eq hk rfl
    | exact store_eq hk rfl

/-- The words that a trace may not contain are those that have no handler. -/
theorem isReserved_eq_dispatch (i : Instr) : isReserved i = (dispatch i).isReserved := by
  rw [dispatch_eq_kind]
  exact (classes_eq i).1

end Tables

end Recompiler
