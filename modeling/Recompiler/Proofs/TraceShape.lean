import Recompiler.Proofs.Budgets

/-!
The shape of traces: which words they cover, where they end, and what more words change.
-/

namespace Recompiler

open Ir

/-- The errors of a trace that is not formed as the builder forms it. -/
def Emit.EmitError.isUnsupported : EmitError → Bool
  | .emptyTrace _ | .strayDelaySlot _ | .missingDelaySlot _ => true
  | _ => false

/-- The operation without the mark of a delay slot that was left out. -/
def TraceOp.unflagged (op : TraceOp) : TraceOp :=
  { op with delaySlotOmitted := false }

namespace Trace

/-- The operations of a trace of the first `limit` words of `raw`. -/
structure Shape (raw : List Instr) (limit : Nat) (ops : List TraceOp) : Prop where
  length_le : ops.length ≤ min raw.length limit
  length_pos : 0 < raw.length → 0 < limit → 0 < ops.length
  raw_eq : ∀ k (h : k < ops.length), raw[k]? = some ops[k].raw
  inner : ∀ k (h : k + 1 < ops.length), ops[k].boundary ≠ .endNow ∧ ops[k].inDelaySlot = false ∧
    ops[k].delaySlotOmitted = false
  slot : ∀ k (h : k + 1 < ops.length), ops[k].boundary = .endDelay →
    ops.length = k + 2 ∧ ops[k + 1].inDelaySlot = true
  omitted : ∀ k (h : k < ops.length), ops[k].delaySlotOmitted = true ↔
    ops[k].boundary = .endDelay ∧ k + 1 = min raw.length limit

/-- The second trace starts with the first, but for the mark of an omitted delay slot at the end
of the first. -/
def Extends (ops more : List TraceOp) : Prop :=
  ops.dropLast <+: more ∧ ops.map TraceOp.unflagged <+: more.map TraceOp.unflagged

namespace Extends

theorem nil (more : List TraceOp) : Extends [] more :=
  ⟨List.nil_prefix, List.nil_prefix⟩

theorem single {op op' : TraceOp} (h : op.unflagged = op'.unflagged) (more : List TraceOp) :
    Extends [op] (op' :: more) := by
  refine ⟨List.nil_prefix, ?_⟩
  rw [List.map_cons, List.map_cons, h]
  exact List.cons_prefix_cons.mpr ⟨rfl, List.nil_prefix⟩

theorem cons {ops more : List TraceOp} (h : Extends ops more) (op : TraceOp) :
    Extends (op :: ops) (op :: more) := by
  obtain ⟨hinit, hall⟩ := h
  refine ⟨?_, List.cons_prefix_cons.mpr ⟨rfl, hall⟩⟩
  cases ops with
  | nil => exact List.nil_prefix
  | cons op' ops =>
    rw [List.dropLast_cons_of_ne_nil (List.cons_ne_nil op' ops)]
    exact List.cons_prefix_cons.mpr ⟨rfl, hinit⟩

end Extends

theorem buildFrom_ne_nil (c : Constants) (w : Widths) (slot : Bool) (r : Instr)
    (rest : List Instr) : buildFrom c w slot (r :: rest) ≠ [] := by
  obtain ⟨c', w', i, hcons⟩ := buildFrom_cons c w slot r
  rw [hcons]
  dsimp only
  split
  · exact List.cons_ne_nil _ _
  · exact List.cons_ne_nil _ _

theorem raw_buildFrom (c : Constants) (w : Widths) (slot : Bool) (words : List Instr) :
    (buildFrom c w slot words).map (·.raw) <+: words := by
  induction words generalizing c w slot with
  | nil => exact List.nil_prefix
  | cons r rest ih =>
    obtain ⟨c', w', i, hcons⟩ := buildFrom_cons c w slot r
    rw [hcons]
    dsimp only
    split
    · exact List.cons_prefix_cons.mpr ⟨rfl, List.nil_prefix⟩
    · exact List.cons_prefix_cons.mpr ⟨rfl, ih c' w' _⟩

theorem omitted_buildFrom (c : Constants) (w : Widths) (slot : Bool) (words : List Instr) (k : Nat)
    (h : k < (buildFrom c w slot words).length) :
    (buildFrom c w slot words)[k].delaySlotOmitted = true ↔
      (buildFrom c w slot words)[k].boundary = .endDelay ∧ k + 1 = words.length := by
  induction words generalizing c w slot k with
  | nil => cases h
  | cons r rest ih =>
    obtain ⟨c', w', i, hcons⟩ := buildFrom_cons c w slot r
    have hfirst : (i.boundary == .endDelay && rest.isEmpty) = true ↔
        i.boundary = .endDelay ∧ 0 + 1 = (r :: rest).length := by
      rw [Bool.and_eq_true, beq_iff_eq, List.isEmpty_iff, List.length_cons, Nat.add_right_cancel_iff,
        eq_comm (a := 0), List.length_eq_zero_iff]
    revert h
    rw [hcons]
    dsimp only
    split
    · intro h
      obtain rfl : k = 0 := Nat.lt_one_iff.mp h
      exact hfirst
    · intro h
      cases k with
      | zero => exact hfirst
      | succ k =>
        have hlater := ih c' w' _ k (Nat.lt_of_succ_lt_succ h)
        rw [← Nat.add_right_cancel_iff (n := 1)] at hlater
        exact hlater

/-- More words change nothing before the last operation, and only the mark there. -/
theorem extends_buildFrom (c : Constants) (w : Widths) (slot : Bool) {words more : List Instr}
    (h : words <+: more) : Extends (buildFrom c w slot words) (buildFrom c w slot more) := by
  induction words generalizing c w slot more with
  | nil => exact .nil _
  | cons r rest ih =>
    obtain ⟨after, rfl⟩ := h
    obtain ⟨c', w', i, hcons⟩ := buildFrom_cons c w slot r
    rw [List.cons_append, hcons, hcons]
    dsimp only
    by_cases hstop : (slot || i.boundary == .endNow) = true
    · rw [if_pos (by rw [hstop, Bool.true_or]), if_pos (by rw [hstop, Bool.true_or])]
      exact .single (by rfl) []
    · rw [Bool.not_eq_true] at hstop
      rw [hstop, Bool.false_or, Bool.false_or]
      cases rest with
      | nil =>
        -- The shorter trace ends here, also where it goes on with no words.
        split
        · split
          · exact .single (by rfl) _
          · exact .single (by rfl) _
        · rw [buildFrom]
          split
          · exact .single (by rfl) _
          · exact .single (by rfl) _
      | cons s rest =>
        rw [List.cons_append, List.isEmpty_cons, List.isEmpty_cons, Bool.and_false,
          if_neg Bool.false_ne_true, if_neg Bool.false_ne_true]
        exact (ih c' w' _ (List.prefix_append _ _)).cons _

theorem Shaped.inner {ops : List TraceOp} (h : Shaped ops) (k : Nat) (hk : k + 1 < ops.length) :
    ops[k].boundary ≠ .endNow ∧ ops[k].inDelaySlot = false ∧ (ops[k].boundary = .endDelay →
      ops.length = k + 2 ∧ ops[k + 1].inDelaySlot = true) := by
  induction h generalizing k with
  | nil => cases hk
  | last => exact absurd hk (by simp)
  | cut => exact absurd hk (by simp)
  | branch hslot hb hin =>
    obtain rfl : k = 0 := by
      simp only [List.length_cons, List.length_nil] at hk
      omega
    refine ⟨fun hnow => ?_, hslot, fun _ => ⟨rfl, hin⟩⟩
    cases hb.symm.trans hnow
  | @cons op rest hslot hb _ ih =>
    cases k with
    | zero =>
      refine ⟨fun hnow => ?_, hslot, fun hdelay => ?_⟩
      · cases hb.symm.trans hnow
      · cases hb.symm.trans hdelay
    | succ k =>
      obtain ⟨hnow, hout, hdelay⟩ := ih k (Nat.lt_of_succ_lt_succ hk)
      refine ⟨hnow, hout, fun hd => ?_⟩
      obtain ⟨hlength, hin⟩ := hdelay hd
      exact ⟨congrArg (· + 1) hlength, hin⟩

theorem shape_build (raw : List Instr) (limit : Nat) : Shape raw limit (build raw limit) := by
  have hraw := raw_buildFrom .fresh .fresh false (raw.take limit)
  have hlength : (raw.take limit).length = min raw.length limit := by
    rw [List.length_take, Nat.min_comm]
  have hle : (build raw limit).length ≤ min raw.length limit := by
    rw [← hlength, ← List.length_map (f := TraceOp.raw)]
    exact hraw.length_le
  have homitted (k : Nat) (h : k < (build raw limit).length) :
      (build raw limit)[k].delaySlotOmitted = true ↔
        (build raw limit)[k].boundary = .endDelay ∧ k + 1 = min raw.length limit := by
    rw [← hlength]
    exact omitted_buildFrom .fresh .fresh false (raw.take limit) k h
  refine ⟨hle, fun hpos hlimit => ?_, fun k h => ?_, fun k h => ?_, fun k h hdelay => ?_, homitted⟩
  · refine List.length_pos_iff.mpr ?_
    cases htake : raw.take limit with
    | nil =>
      rw [htake, List.length_nil] at hlength
      omega
    | cons r rest =>
      rw [build, htake]
      exact buildFrom_ne_nil _ _ _ r rest
  · have hword := hraw.getElem (i := k) (by rwa [List.length_map])
    rw [List.getElem_map, List.getElem_take] at hword
    rw [List.getElem?_eq_getElem (by omega)]
    exact congrArg some hword.symm
  · obtain ⟨hnow, hout, -⟩ := (shaped_build raw limit).inner k h
    refine ⟨hnow, hout, Bool.eq_false_iff.mpr fun hcut => ?_⟩
    obtain ⟨-, hend⟩ := (homitted k (by omega)).mp hcut
    omega
  · obtain ⟨-, -, hslot⟩ := (shaped_build raw limit).inner k h
    exact hslot hdelay

theorem extends_build {raw more : List Instr} {limit larger : Nat} (hraw : raw <+: more)
    (hlimit : limit ≤ larger) : Extends (build raw limit) (build more larger) := by
  refine extends_buildFrom .fresh .fresh false ?_
  calc raw.take limit <+: more.take limit := hraw.take limit
    _ <+: more.take larger := List.take_prefix_take_left hlimit

end Trace

open Emit

theorem TraceProgram.supported_of_shaped (cfg : Config) (cells : List Nat) (pc : UInt32)
    {ops : List TraceOp} (hshape : Trace.Shaped ops) (hne : ops ≠ []) {failure : EmitFailure}
    (hfail : ofTrace cfg cells pc ops = .error failure) : failure.error.isUnsupported = false := by
  by_cases hops : Crowded ops
  · obtain ⟨e, hcrowded⟩ := ofTrace_of_crowded cfg cells pc hops
    rw [hcrowded] at hfail
    cases hfail
    rfl
  · obtain ⟨e, hwhole, hpending⟩ := whole_of_shaped cfg cells pc hshape hops
    rw [ofTrace, if_neg (by rwa [List.isEmpty_iff]), hwhole] at hfail
    simp only [Emitter.finish, Builder.build, hpending] at hfail
    split at hfail <;> cases hfail
    rfl

/-- The trace of a list of words has the shape of a trace, a longer list or a larger limit only
extends it, and its program is never refused as malformed unless it is empty. -/
theorem Trace.build_stable (raw : List Instr) (limit : Nat) :
    Shape raw limit (build raw limit) ∧
      (∀ more larger, raw <+: more → limit ≤ larger →
        Extends (build raw limit) (build more larger)) ∧
      ∀ cfg cells pc, build raw limit ≠ [] → ¬ ∃ failure,
        TraceProgram.ofTrace cfg cells pc (build raw limit) = .error failure ∧
          failure.error.isUnsupported = true := by
  refine ⟨shape_build raw limit, fun more larger => extends_build, fun cfg cells pc hne => ?_⟩
  rintro ⟨failure, hfail, hunsupported⟩
  rw [TraceProgram.supported_of_shaped cfg cells pc (shaped_build raw limit) hne hfail]
    at hunsupported
  cases hunsupported

/-- A branch whose delay slot the limit cuts off. -/
theorem Trace.build_stable_branch :
    (build [⟨0x14220004⟩, ⟨0x24420001⟩] 1).map (·.delaySlotOmitted) = [true] ∧
      (build [⟨0x14220004⟩, ⟨0x24420001⟩] 2).map (·.delaySlotOmitted) = [false, false] ∧
      0 < (build [⟨0x14220004⟩, ⟨0x24420001⟩] 1).length ∧
      Extends (build [⟨0x14220004⟩, ⟨0x24420001⟩] 1) (build [⟨0x14220004⟩, ⟨0x24420001⟩] 2) ∧
      (build [⟨0x14220004⟩, ⟨0x24420001⟩] 2).length = 0 + 2 ∧
      ∀ cfg cells pc, ¬ ∃ failure,
        TraceProgram.ofTrace cfg cells pc (build [⟨0x14220004⟩, ⟨0x24420001⟩] 1) =
          .error failure ∧ failure.error.isUnsupported = true := by
  obtain ⟨hshape, hextends, hsupported⟩ := build_stable [⟨0x14220004⟩, ⟨0x24420001⟩] 1
  obtain ⟨hshape₂, -, -⟩ := build_stable [⟨0x14220004⟩, ⟨0x24420001⟩] 2
  exact ⟨by decide, by decide, hshape.length_pos (by decide) (by decide),
    hextends _ 2 (List.prefix_refl _) (by decide),
    (hshape₂.slot 0 (by decide) (by decide)).1, fun cfg cells pc => hsupported cfg cells pc (by decide)⟩

end Recompiler
