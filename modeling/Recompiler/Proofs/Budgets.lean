import Recompiler.Proofs.BudgetEmission

/-!
The budget law of traces: with a budget the program of a trace is the one without, or does not
fit, and then the link cells are free again.
-/

namespace Recompiler

open Ir

/-- A branch at the end of the trace has its delay slot after it, or is known to lack it. -/
inductive Trace.Shaped : List TraceOp → Prop
  | nil : Shaped []
  | last {op : TraceOp} (hslot : op.inDelaySlot = false) (hb : op.boundary = .endNow) : Shaped [op]
  | cut {op : TraceOp} (hslot : op.inDelaySlot = false) (hb : op.boundary = .endDelay)
      (homit : op.delaySlotOmitted = true) : Shaped [op]
  | branch {op slot : TraceOp} (hslot : op.inDelaySlot = false) (hb : op.boundary = .endDelay)
      (hin : slot.inDelaySlot = true) : Shaped [op, slot]
  | cons {op : TraceOp} {rest : List TraceOp} (hslot : op.inDelaySlot = false)
      (hb : op.boundary = .continue) (hrest : Shaped rest) : Shaped (op :: rest)

namespace Trace

theorem buildFrom_cons (c : Constants) (w : Widths) (slot : Bool) (r : Instr) :
    ∃ c' w' i, ∀ rest, buildFrom c w slot (r :: rest) =
      let omitted := Instr.boundary i == .endDelay && rest.isEmpty
      let op : TraceOp := ⟨r, i, i.boundary, c, w, slot, omitted⟩
      if slot || i.boundary == .endNow || omitted then [op]
      else op :: buildFrom c' w' (i.boundary == .endDelay) rest :=
  ⟨_, _, _, fun _ => rfl⟩

theorem shaped_buildFrom (c : Constants) (w : Widths) (raw : List Instr) :
    Shaped (buildFrom c w false raw) := by
  induction raw generalizing c w with
  | nil => exact .nil
  | cons r rest ih =>
    obtain ⟨c', w', i, hcons⟩ := buildFrom_cons c w false r
    rw [hcons]
    dsimp only
    cases i.boundary with
    | endNow => exact .last rfl rfl
    | «continue» => exact .cons rfl rfl (ih c' w')
    | endDelay =>
      cases rest with
      | nil => exact .cut rfl rfl rfl
      | cons s rest =>
        obtain ⟨_, _, j, hslot⟩ := buildFrom_cons c' w' true s
        have hone : buildFrom c' w' true (s :: rest) =
            [⟨s, j, j.boundary, c', w', true, j.boundary == .endDelay && rest.isEmpty⟩] := hslot rest
        simp only [List.isEmpty_cons, Bool.and_false, Bool.or_false, BEq.rfl]
        rw [if_neg (by decide), hone]
        exact .branch rfl rfl rfl

theorem shaped_build (raw : List Instr) (most : Nat) : Shaped (build raw most) :=
  shaped_buildFrom _ _ _

end Trace

namespace Emit

/-- The body of a trace as it is built is emitted, unless the trace is crowded. -/
theorem emits_body (cfg : Config) (base : UInt32) {R : List String} {ops : List TraceOp}
    (hshape : Trace.Shaped ops) (k : Nat) (hops : ¬ Crowded ops) :
    Emits (Ready R [] [] 0 [] 0) (body cfg base k ops) fun _ => Settled R 0 := by
  have hexit (target : UInt32) (n : Nat) (linkable : Bool) :
      Emits (Ready R [] [] 0 [] 0) (exitDirect cfg target n linkable) fun _ => Settled R 0 :=
    emits_exitDirect cfg _ _ _ (by decide) (by simp) (by simp)
  induction hshape generalizing k with
  | nil => exact hexit _ _ _
  | last hslot hb =>
    simp only [body, hslot, hb, Bool.false_eq_true, if_false]
    exact .bind (emits_instrAlone cfg _ _) fun _ => hexit _ _ _
  | cut hslot hb homit =>
    simp only [body, branch, hslot, hb, homit, Bool.false_eq_true, if_false, if_true]
    exact emits_branchServed cfg
  | @branch op slot hslot hb hin =>
    simp only [body, branch, hslot, hb, hin, Bool.false_eq_true, if_false, if_true]
    refine .ite (fun _ => emits_branchServed cfg) fun hinline => emits_branchAndSlot cfg slot ?_
    simp only [Bool.or_eq_true, decide_eq_true_eq, not_or, Bool.not_eq_true, ne_eq,
      Decidable.not_not] at hinline
    by_cases hi : IsDirect op.instr
    · exact .inl hi
    · exact .inr fun hg => hops ⟨[], op, slot, [], rfl, by simp, hb, hslot, hinline.1, hinline.2,
        hin, hi, hg⟩
  | cons hslot hb _ ih =>
    simp only [body, hslot, hb, Bool.false_eq_true, if_false]
    exact .bind (emits_instrAlone cfg _ _) fun _ => ih (k + 1) fun h => hops (h.cons hb hslot)

theorem whole_of_shaped (cfg : Config) (cells : List Nat) (pc : UInt32) {ops : List TraceOp}
    (hshape : Trace.Shaped ops) (hops : ¬ Crowded ops) :
    ∃ e, whole cfg pc ops (.create cfg cells) = .ok () e ∧ e.cache.builder.pending = [] := by
  obtain ⟨_, e₁, h₁, he₁⟩ := emits_body cfg pc hshape 0 hops _ (ready_create cfg cells)
  exact whole_of_body h₁ he₁

theorem instr_budget (cfg : Config) (budget : Option Nat) (s : Site) (i : Recompiler.Instr) :
    instr { cfg with budget } s i = instr cfg s i := rfl

theorem branch_budget (cfg : Config) (budget : Option Nat) (s : Site) (op : TraceOp)
    (rest : List TraceOp) : branch { cfg with budget } s op rest = branch cfg s op rest := rfl

theorem body_budget (cfg : Config) (budget : Option Nat) (base : UInt32) (index : Nat)
    (ops : List TraceOp) : body { cfg with budget } base index ops = body cfg base index ops := by
  induction ops generalizing index with
  | nil => rfl
  | cons op rest ih =>
    simp only [body, instr_budget, branch_budget, ih]
    rfl

theorem whole_budget (cfg : Config) (budget : Option Nat) (base : UInt32) (ops : List TraceOp) :
    whole { cfg with budget } base ops = whole cfg base ops := by
  unfold whole
  rw [body_budget]

end Emit

open Emit

namespace Emitter

theorem within_create (cfg : Config) (cells : List Nat) (limit : Nat) :
    Within limit cells (create { cfg with budget := none } cells)
      (create { cfg with budget := some limit } cells) :=
  ⟨rfl, _, ⟨_, Builder.Within.empty limit, rfl⟩, rfl⟩

theorem Within.finish {limit : Nat} {cells : List Nat} {e e' : Emitter}
    (h : Within limit cells e e') (hpending : e.cache.builder.pending = []) (count : Nat) :
    ∃ t, e.finish count = .ok t ∧ t.exits = e.exits.toList ∧
      e'.finish count = if t.program.size ≤ limit then .ok t else .error .bufferFull := by
  obtain ⟨-, _, ⟨b, hb, rfl⟩, rfl⟩ := h
  unfold Emitter.finish Builder.build
  simp only [hb.dropped, hpending, Bool.false_eq_true, if_false]
  refine ⟨_, rfl, rfl, ?_⟩
  by_cases hfit : e.cache.builder.bytes ≤ limit
  · rw [hb.fits hfit]
    simp only [hb.dropped, hpending, hfit, Bool.false_eq_true, if_false, if_true]
  · rw [hb.full (Nat.not_le.mp hfit), if_pos rfl, if_neg hfit]

end Emitter

/-- A budget either changes nothing about the program of a trace, or the program does not fit it.
The cells that have been taken are then given back, in the order in which they were taken. -/
theorem TraceProgram.ofTrace_budget (cfg : Config) (cells : List Nat) (pc : UInt32)
    (raw : List Instr) (most limit : Nat) (hne : Trace.build raw most ≠ [])
    (hfail : ∀ failure,
      ofTrace { cfg with budget := none } cells pc (Trace.build raw most) = .error failure →
        failure.error.isRecoverable = true) :
    ∃ t e, ofTrace { cfg with budget := none } cells pc (Trace.build raw most) = .ok t ∧
      whole { cfg with budget := some limit } pc (Trace.build raw most)
        (.create { cfg with budget := some limit } cells) = .ok () e ∧
      t.exits.map (·.cell) ++ e.cells = cells ∧
      ofTrace { cfg with budget := some limit } cells pc (Trace.build raw most) =
        if t.program.size ≤ limit then .ok t
        else .error ⟨.bufferFull, t.exits.map (·.cell)⟩ := by
  have hops : ¬ Crowded (Trace.build raw most) := by
    intro hcrowded
    obtain ⟨e, he⟩ := ofTrace_of_crowded { cfg with budget := none } cells pc hcrowded
    cases hfail _ he
  obtain ⟨e, he, hpending⟩ := whole_of_shaped { cfg with budget := none } cells pc
    (Trace.shaped_build raw most) hops
  have hempty := List.isEmpty_eq_false_iff.mpr hne
  have hmirror := blind_whole { cfg with budget := none } pc (Trace.build raw most) _ _
    (Emitter.within_create cfg cells limit)
  rw [he] at hmirror
  generalize hwhole' : whole _ _ _ (Emitter.create { cfg with budget := some limit } cells) = x
    at hmirror
  cases hmirror with
  | @ok _ _ e' hw =>
    rw [whole_budget, ← whole_budget cfg (some limit)] at hwhole'
    obtain ⟨t, ht, hexits, ht'⟩ := hw.finish hpending (Trace.build raw most).length
    have hcells : e'.exits = e.exits ∧ e'.cells = e.cells := by
      obtain ⟨-, _, -, rfl⟩ := hw
      exact ⟨rfl, rfl⟩
    refine ⟨t, e', ?_, hwhole', ?_, ?_⟩
    · simp only [ofTrace, hempty, Bool.false_eq_true, if_false, he, ht]
      rfl
    · rw [hexits, hcells.2]
      exact hw.1
    · simp only [ofTrace, hempty, Bool.false_eq_true, if_false, hwhole', ht']
      split
      · rfl
      · rw [hexits, ← hcells.1]
        rfl

/-- A branch on two registers has two exits and takes 441 bytes. With one byte less both cells
are given back. -/
theorem TraceProgram.ofTrace_budget_branch :
    (∃ t, ofTrace ⟨2, 0x400000, true, none⟩ [3, 7, 9] 0x80000000
        (Trace.build [⟨0x10220004⟩, ⟨0x24630001⟩] 2) = .ok t ∧
      ofTrace ⟨2, 0x400000, true, some 441⟩ [3, 7, 9] 0x80000000
        (Trace.build [⟨0x10220004⟩, ⟨0x24630001⟩] 2) = .ok t) ∧
      ofTrace ⟨2, 0x400000, true, some 440⟩ [3, 7, 9] 0x80000000
        (Trace.build [⟨0x10220004⟩, ⟨0x24630001⟩] 2) = .error ⟨.bufferFull, [3, 7]⟩ := by
  have hsize : (ofTrace ⟨2, 0x400000, true, none⟩ [3, 7, 9] 0x80000000
      (Trace.build [⟨0x10220004⟩, ⟨0x24630001⟩] 2)).toOption.map
        (fun t => (t.program.size, t.exits.map (·.cell))) = some (441, [3, 7]) := by
    decide +kernel
  have hlaw (limit : Nat) := ofTrace_budget ⟨2, 0x400000, true, none⟩ [3, 7, 9] 0x80000000
    [⟨0x10220004⟩, ⟨0x24630001⟩] 2 limit (by decide) fun failure hfail => by
      rw [hfail] at hsize
      cases hsize
  obtain ⟨t, -, ht, -, -, hfit⟩ := hlaw 441
  obtain ⟨u, -, hu, -, -, hfull⟩ := hlaw 440
  cases ht.symm.trans hu
  rw [ht] at hsize
  simp only [Except.toOption, Option.map_some, Option.some.injEq, Prod.mk.injEq] at hsize
  rw [hsize.1] at hfit
  rw [hsize.1, hsize.2] at hfull
  exact ⟨⟨t, ht, hfit⟩, hfull⟩

end Recompiler
