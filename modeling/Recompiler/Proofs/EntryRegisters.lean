import Recompiler.Proofs.SlowPaths

/-!
The registers where a program is entered, and after each service, do not matter to its owner. So
a program may be entered from another one through a link cell as well as by its owner, when the
other one has returned.
-/

namespace Recompiler

open Ir Emit

namespace Ir

namespace Links

def LeadsTo (links : Links) (cell : Int) (p : Program) : Prop :=
  links.cell cell ≠ 0 ∧ ∃ resolve, links.resolve = some resolve ∧ resolve (links.cell cell) = some p

def without (links : Links) (cell : Int) : Links :=
  { links with cell := fun c => if c = cell then 0 else links.cell c }

end Links

namespace Machine

variable {links : Links} {m : Machine Cpu} {cell : Int} {p : Program}

theorem step_of_leadsTo (hlink : m.program.code[m.pc]? = some (.link cell))
    (hp : links.LeadsTo cell p) :
    m.step links = .inl (.enter p ⟨m.regs, m.fregs⟩ m.ctx) := by
  obtain ⟨h0, resolve, hr, hres⟩ := hp
  refine step_follow hlink ?_
  simp only [follow, h0, hr, hres, if_false]
  rfl

theorem run_without {T : Nat → Set Loc} (hsheet : m.program.Sheet T)
    (hlink : m.program.code[m.pc]? = some (.link cell)) :
    m.run (links.without cell) = some (.ok 0, m.halted) := by
  have hnext : m.step (links.without cell) = .inl { m with pc := m.pc + 1 } :=
    step_follow hlink (by simp [follow, Links.without])
  have hexit := hsheet.link m.pc cell hlink
  have hstop : ({ m with pc := m.pc + 1 } : Machine Cpu).step (links.without cell) =
      .inr (.ok 0, m.halted) := by
    simp only [step, hexit]
    rfl
  rw [run_eq_step, hnext, Sum.elim_inl, run_eq_step, hstop, Sum.elim_inr]

theorem alike_enter (hp : p.IsTrace) (hlinks : links.ToTraces) (k : Nat) (R R' : Registers)
    (c : Cpu) (s : Vector UInt32 9) : Alike k links (.enter p R c) (.enter p R' (c.saving s)) := by
  obtain ⟨T, hT⟩ := hp.sheet
  have hlevel : Level (.enter p R c) (.enter p R' (c.saving s)) := rfl
  exact (InStep.enter hT hlevel).alike (fun q hq => hq.sheet) k hlinks hT

end Machine

end Ir

namespace Owner

variable {η : Type} (o : Owner η)

theorem observe_of_step (fill : Nat → Registers) (n : Nat) {h : η} {m m' : Machine Cpu}
    (hm : m.step (o.links h) = .inl m') : o.observe fill n h m = o.observe fill n h m' := by
  have hrun : m.run (o.links h) = m'.run (o.links h) := by
    rw [Machine.run_eq_step, hm, Sum.elim_inl]
  unfold observe
  rw [hrun]

/-- The owner of a trace cannot tell what its registers hold where it is entered and after each
service, nor what its save area holds where it is entered. At a link cell that leads to a trace the
program goes on as if it had found the cell empty, and its owner had entered that trace when the
program returned. -/
theorem observe_enter {p : Program} (hp : p.IsTrace) (fill fill' : Nat → Registers) (n : Nat)
    (h : η) :
    (∀ (R R' : Registers) (c : Cpu) (s : Vector UInt32 9),
      o.observe fill n h (.enter p R c) = o.observe fill' n h (.enter p R' (c.saving s))) ∧
    ∀ (m : Machine Cpu) (cell : Int) (q : Program), m.program = p →
      p.code[m.pc]? = some (.link cell) → (o.links h).LeadsTo cell q →
        ∃ m', m.run ((o.links h).without cell) = some (.ok 0, m') ∧ m'.ctx = m.ctx ∧
          ∀ R, o.observe fill n h m = o.observe fill' n h (.enter q R m'.ctx) := by
  have hlinks := o.toTraces h
  refine ⟨fun R R' c s => ?_, fun m cell q hm hlink hq => ?_⟩
  · exact o.observe_eq_of_alike fill fill' n fun k => Machine.alike_enter hp hlinks k R R' c s
  · subst hm
    obtain ⟨T, hT⟩ := hp.sheet
    have htrace : q.IsTrace := by
      obtain ⟨-, resolve, hr, hres⟩ := hq
      exact hlinks resolve _ q hr hres
    refine ⟨m.halted, Machine.run_without hT hlink, rfl, fun R => ?_⟩
    rw [o.observe_of_step fill n (Machine.step_of_leadsTo hlink hq)]
    exact o.observe_eq_of_alike fill fill' n fun k =>
      Machine.alike_enter htrace hlinks k ⟨m.regs, m.fregs⟩ R m.ctx m.ctx.saved

/-- A load that takes its slow path, in a trace whose link cell leads back to it. The slow path
saves a register that nothing has been written to. -/
theorem observe_enter_load : ∃ (t : TraceProgram) (links : Links) (hl : links.ToTraces),
    TraceProgram.ofTrace ⟨2, 0x4000, true, none⟩ [0] 0x80000000
      (Trace.build [⟨0x8c220004⟩] 1) = .ok t ∧
    t.program.code[20]? = some (.link 0) ∧ links.LeadsTo 0 t.program ∧
    (interpreter links hl).observe (fun _ => ⟨.replicate 16 0, .replicate 8 0⟩) 3 ()
        (.enter t.program ⟨.replicate 16 0, .replicate 8 0⟩ (.powerOn ⟨#[], #[], []⟩ none)) =
      (interpreter links hl).observe (fun _ => ⟨.replicate 16 1, .replicate 8 1⟩) 3 ()
        (.enter t.program ⟨.replicate 16 1, .replicate 8 1⟩
          ((Cpu.powerOn ⟨#[], #[], []⟩ none).saving (.replicate 9 1))) ∧
    ∃ m', (⟨t.program, 20, .replicate 16 1, .replicate 8 1, .powerOn ⟨#[], #[], []⟩ none⟩ :
        Machine Cpu).run (links.without 0) = some (.ok 0, m') ∧
      (interpreter links hl).observe (fun _ => ⟨.replicate 16 0, .replicate 8 0⟩) 3 ()
          ⟨t.program, 20, .replicate 16 1, .replicate 8 1, .powerOn ⟨#[], #[], []⟩ none⟩ =
        (interpreter links hl).observe (fun _ => ⟨.replicate 16 0, .replicate 8 0⟩) 3 ()
          (.enter t.program ⟨.replicate 16 0, .replicate 8 0⟩ m'.ctx) := by
  have hcode : (TraceProgram.ofTrace ⟨2, 0x4000, true, none⟩ [0] 0x80000000
      (Trace.build [⟨0x8c220004⟩] 1)).toOption.map (fun t => t.program.code[20]?) =
        some (some (.link 0)) := by
    decide +kernel
  cases ht : TraceProgram.ofTrace ⟨2, 0x4000, true, none⟩ [0] 0x80000000
    (Trace.build [⟨0x8c220004⟩] 1) with
  | error failure =>
    rw [ht] at hcode
    cases hcode
  | ok t =>
    rw [ht] at hcode
    have hlink : t.program.code[20]? = some (.link 0) := Option.some.inj hcode
    have htrace : t.program.IsTrace := ⟨_, _, _, _, t, ht, rfl⟩
    have hl : (⟨fun _ => 1, some fun _ => some t.program⟩ : Links).ToTraces := by
      rintro resolve entry p ⟨⟩ ⟨⟩
      exact htrace
    have hleads : (⟨fun _ => 1, some fun _ => some t.program⟩ : Links).LeadsTo 0 t.program :=
      ⟨Nat.one_ne_zero, _, rfl, rfl⟩
    obtain ⟨henter, -⟩ := (interpreter _ hl).observe_enter htrace
      (fun _ => ⟨.replicate 16 0, .replicate 8 0⟩) (fun _ => ⟨.replicate 16 1, .replicate 8 1⟩) 3 ()
    obtain ⟨-, hsame⟩ := (interpreter _ hl).observe_enter htrace
      (fun _ => ⟨.replicate 16 0, .replicate 8 0⟩) (fun _ => ⟨.replicate 16 0, .replicate 8 0⟩) 3 ()
    obtain ⟨m', hrun, -, hm'⟩ := hsame
      ⟨t.program, 20, .replicate 16 1, .replicate 8 1, .powerOn ⟨#[], #[], []⟩ none⟩ 0 t.program
      rfl hlink hleads
    exact ⟨t, _, hl, rfl, hlink, hleads, henter _ _ _ _, m', hrun, hm' _⟩

/-- The save area does show what registers hold where a trace is entered: the slow path of the load
keeps a register that the trace has not written to. -/
theorem saved_of_enter_load : ∃ (t : TraceProgram) (n n' : Machine Cpu),
    TraceProgram.ofTrace ⟨2, 0x4000, true, none⟩ [] 0x80000000
      (Trace.build [⟨0x8c220004⟩] 1) = .ok t ∧
    (Machine.enter t.program ⟨.replicate 16 0, .replicate 8 0⟩ (.powerOn ⟨#[], #[], []⟩ none)).run
      .none = some (.ok exitCall, n) ∧
    (Machine.enter t.program ⟨.replicate 16 1, .replicate 8 0⟩ (.powerOn ⟨#[], #[], []⟩ none)).run
      .none = some (.ok exitCall, n') ∧
    n.ctx.saved.get 3 = 0 ∧ n'.ctx.saved.get 3 = 1 := by
  have hsaved (v : UInt32) (hv : v = 0 ∨ v = 1) : ((TraceProgram.ofTrace ⟨2, 0x4000, true, none⟩ []
      0x80000000 (Trace.build [⟨0x8c220004⟩] 1)).toOption.bind fun t =>
        ((Machine.enter t.program ⟨.replicate 16 v, .replicate 8 0⟩
          (.powerOn ⟨#[], #[], []⟩ none)).runWithin .none 20).map fun r =>
            (r.1.toOption, r.2.ctx.saved.get 3)) = some (some exitCall, v) := by
    rcases hv with rfl | rfl <;> decide +kernel
  cases ht : TraceProgram.ofTrace ⟨2, 0x4000, true, none⟩ [] 0x80000000
    (Trace.build [⟨0x8c220004⟩] 1) with
  | error failure =>
    have hnone := hsaved 0 (.inl rfl)
    rw [ht] at hnone
    cases hnone
  | ok t =>
    rw [ht] at hsaved
    have hrun (v : UInt32) (hv : v = 0 ∨ v = 1) : ∃ n, (Machine.enter t.program
        ⟨.replicate 16 v, .replicate 8 0⟩ (.powerOn ⟨#[], #[], []⟩ none)).run .none =
          some (.ok exitCall, n) ∧ n.ctx.saved.get 3 = v := by
      obtain ⟨⟨status, n⟩, hwithin, hend⟩ := Option.map_eq_some_iff.mp (hsaved v hv)
      obtain ⟨hstatus, hword⟩ := Prod.mk.inj hend
      cases status with
      | error e => cases hstatus
      | ok status =>
        cases hstatus
        exact ⟨n, Machine.run_of_within hwithin, hword⟩
    obtain ⟨n, hn, hsame⟩ := hrun 0 (.inl rfl)
    obtain ⟨n', hn', hsame'⟩ := hrun 1 (.inr rfl)
    exact ⟨t, n, n', rfl, hn, hn', hsame, hsame'⟩

end Owner

end Recompiler
