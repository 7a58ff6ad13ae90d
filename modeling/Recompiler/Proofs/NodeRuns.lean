import Recompiler.Ir.Emulator
import Recompiler.Proofs.NodeBuilders

/-!
Runs of lists. A built list runs as the sequence of all calls does, for as long as nobody takes its
nodes. The node behind its last instruction is not kept: jumps past the end go to a node that the
next builder takes.
-/

namespace Recompiler.Ir

open Heap

/-- A relation between systems that their steps keep makes histories equal. -/
theorem history_congr {σ S S' : Type} {R : S → S' → Prop}
    {step : S → S ⊕ (Except LinkError Int × S)} {step' : S' → S' ⊕ (Except LinkError Int × S')}
    {view : S → View σ} {view' : S' → View σ} {serve : S → S} {serve' : S' → S'}
    (hstep : ∀ s s', R s s' →
      Sum.LiftRel R (fun r r' => r.1 = r'.1 ∧ R r.2 r'.2) (step s) (step' s'))
    (hview : ∀ s s', R s s' → view s = view' s') (hserve : ∀ s s', R s s' → R (serve s) (serve' s'))
    (n : Nat) {s : S} {s' : S'} (h : R s s') :
    history step view serve n s = history step' view' serve' n s' := by
  induction n generalizing s s' with
  | zero => rfl
  | succ n ih =>
    unfold history
    have hlift := hstep s s' h
    generalize step s = t at hlift
    generalize step' s' = t' at hlift
    cases hlift with
    | inl ht =>
      simp only [Sum.elim_inl]
      rw [hview _ _ ht, ih ht]
    | inr ht =>
      obtain ⟨he, ht⟩ := ht
      simp only [Sum.elim_inr]
      rw [he, hview _ _ ht, ih (hserve _ _ ht)]

namespace Heap.Stored

variable {h g : Heap} {p : Program} {as : List Nat} {trail : Nat}

theorem map_fst_zip (hp : h.Stored p as trail) (f : Instr Nat → Option (Instr Nat)) :
    (as.zip (p.code.toList.map f)).map (·.1) = as := by
  apply List.map_fst_zip
  rw [List.length_map, Array.length_toList]
  exact Nat.le_of_eq hp.length

theorem follow (hp : h.Stored p as trail) : h.follow (as.headD 0) = some as := by
  have hfollow := follow_chain hp.chain (by rw [hp.map_fst_zip]; exact hp.ne_zero)
  rw [first_eq, hp.map_fst_zip] at hfollow
  exact hfollow

theorem node_eq (hp : h.Stored p as trail) {n a : Nat} (ha : as[n]? = some a) :
    ∃ i, p.code[n]? = some i ∧
      h.node a = ⟨some (i.mapTarget fun t => as[t]?.getD trail), (as.drop (n + 1)).headD 0⟩ := by
  obtain ⟨hn, -⟩ := List.getElem?_eq_some_iff.mp ha
  have hn' : n < p.code.size := hp.length ▸ hn
  refine ⟨p.code[n], Array.getElem?_eq_getElem hn', ?_⟩
  have hzip : (as.zip (p.code.toList.map fun i => some (i.mapTarget fun t => as[t]?.getD trail)))[n]? =
      some (a, some ((p.code[n]).mapTarget fun t => as[t]?.getD trail)) := by
    rw [List.getElem?_zip_eq_some]
    refine ⟨ha, ?_⟩
    rw [List.getElem?_map, Array.getElem?_toList, Array.getElem?_eq_getElem hn']
    rfl
  rw [hp.chain.node_getElem? hzip, first_eq, List.map_drop, hp.map_fst_zip]

theorem instrs (hp : h.Stored p as trail) :
    as.map (fun a => (h.node a).instr) =
      p.code.toList.map fun i => some (i.mapTarget fun t => as[t]?.getD trail) := by
  apply List.ext_getElem?
  intro n
  have hcode : p.code.toList[n]? = p.code[n]? := Array.getElem?_toList
  rw [List.getElem?_map, List.getElem?_map, hcode]
  cases ha : as[n]? with
  | none =>
    have hn : p.code.size ≤ n := hp.length ▸ List.getElem?_eq_none_iff.mp ha
    rw [Array.getElem?_eq_none hn]
    rfl
  | some a =>
    obtain ⟨i, hi, hnode⟩ := hp.node_eq ha
    rw [hi, Option.map_some, hnode]
    rfl

theorem congr (hp : h.Stored p as trail) (ha : ∀ a ∈ as, g.node a = h.node a)
    (ht : (∃ i ∈ p.code.toList, ∃ t, i.target? = some t ∧ p.code.size ≤ t) →
      g.node trail = h.node trail) : g.Stored p as trail where
  length := hp.length
  ne_zero := hp.ne_zero
  chain := by
    refine hp.chain.congr fun x hx => ha x.1 ?_
    have hm := List.mem_map_of_mem (f := Prod.fst) hx
    rwa [hp.map_fst_zip] at hm
  trail hj := (ht hj).trans (hp.trail hj)

end Heap.Stored

/-- The nodes of linked programs hold them. -/
structure Heap.Carries (h : Heap) (n : NodeLinks) (l : Links) : Prop where
  cell : n.cell = l.cell
  resolver : n.resolve.isSome = l.resolve.isSome
  entries : ∀ f, n.resolve = some f → ∀ g, l.resolve = some g → ∀ entry,
    (f entry = 0 ∧ g entry = none) ∨ ∃ p as trail, f entry = as.headD 0 ∧ as ≠ [] ∧
      g entry = some p ∧ h.Stored p as trail

namespace Emulator

variable {σ : Type}

def view (e : Emulator σ) : View σ := ⟨e.regs, e.fregs, e.ctx⟩

def ofView (h : Heap) (p : NodeProgram) (v : View σ) : Emulator σ :=
  ⟨h, p.head, v.regs, v.fregs, v.ctx⟩

def settle (e : Emulator σ) : Emulator σ :=
  if e.pc ≠ 0 ∧ (e.heap.node e.pc).instr.isNone then e.goto e.after else e

def serve (owner : View σ → View σ) (e : Emulator σ) : Emulator σ :=
  let v := owner e.view
  { e with regs := v.regs, fregs := v.fregs, ctx := v.ctx }

/-- The emulator is at the instruction of the machine, or both are past the last one. -/
def At (h : Heap) (p : Program) (n a : Nat) : Prop :=
  ∃ as trail, h.Stored p as trail ∧
    (as[n]? = some a ∨ as[n]? = none ∧ (a = 0 ∨ h.node a = .blank))

/-- The emulator has the state of the machine. -/
structure Follows (h : Heap) (e : Emulator σ) (m : Machine σ) : Prop where
  heap : e.heap = h
  view : e.view = m.view
  place : At h m.program m.pc e.pc

variable {h : Heap} {e : Emulator σ} {m : Machine σ} {links : Links} {nlinks : NodeLinks}

theorem Follows.settle (hf : Follows h e m) : Follows h e.settle m ∧
    (e.settle.pc ≠ 0 → ∃ as trail, h.Stored m.program as trail ∧ as[m.pc]? = some e.settle.pc) := by
  obtain ⟨as, trail, hp, hat⟩ := hf.place
  unfold Emulator.settle after
  rw [hf.heap]
  rcases hat with ha | ⟨hend, ha⟩
  · obtain ⟨i, -, hnode⟩ := hp.node_eq ha
    rw [hnode, if_neg (by simp)]
    exact ⟨hf, fun _ => ⟨as, trail, hp, ha⟩⟩
  · by_cases hz : e.pc = 0
    · rw [if_neg fun hc => hc.1 hz]
      exact ⟨hf, fun hne => absurd hz hne⟩
    · have hblank : h.node e.pc = .blank := ha.resolve_left hz
      rw [hblank, if_pos ⟨hz, rfl⟩]
      exact ⟨⟨hf.heap, hf.view, as, trail, hp, .inr ⟨hend, .inl rfl⟩⟩, fun hne => absurd rfl hne⟩

variable [Context σ]

def history (owner : View σ → View σ) (links : NodeLinks) : Nat → Emulator σ → List (Moment σ) :=
  Ir.history (fun e => e.settle.step links) view (serve owner)

theorem run_eq_step (links : NodeLinks) (e : Emulator σ) :
    e.run links = (e.step links).elim (·.run links) some := by
  rw [run]
  cases e.step links <;> rfl

theorem run_settle (links : NodeLinks) (e : Emulator σ) : e.settle.run links = e.run links := by
  unfold settle
  split
  · rename_i hc
    rw [run_eq_step links e]
    unfold step
    rw [if_neg hc.1, Option.isNone_iff_eq_none.mp hc.2]
    rfl
  · rfl

theorem at_next (as : List Nat) (n : Nat) :
    as[n + 1]? = some ((as.drop (n + 1)).headD 0) ∨ as[n + 1]? = none ∧
      ((as.drop (n + 1)).headD 0 = 0 ∨ h.node ((as.drop (n + 1)).headD 0) = .blank) := by
  rw [← List.head?_drop]
  cases as.drop (n + 1) with
  | nil => exact .inr ⟨rfl, .inl rfl⟩
  | cons a as => exact .inl rfl

omit [Context σ] in
/-- Link cells lead both to the same program. -/
theorem follow_follows (hl : h.Carries nlinks links) {as : List Nat} {trail : Nat}
    (hf : Follows h e m) (hp : h.Stored m.program as trail) (ha : as[m.pc]? = some e.pc)
    (cell : Int) :
    (∃ e' m', e.follow nlinks cell = .inl e' ∧ m.follow links cell = .ok m' ∧ Follows h e' m') ∨
    ∃ err, e.follow nlinks cell = .inr (.error err, e) ∧ m.follow links cell = .error err := by
  unfold Emulator.follow Machine.follow
  dsimp only
  rw [hl.cell]
  by_cases hentry : links.cell cell = 0
  · rw [if_pos hentry, if_pos hentry]
    refine .inl ⟨_, _, rfl, rfl, hf.heap, hf.view, as, trail, hp, ?_⟩
    obtain ⟨i, -, hnode⟩ := hp.node_eq ha
    unfold goto after
    rw [hf.heap, hnode]
    exact at_next as m.pc
  · rw [if_neg hentry, if_neg hentry]
    have hresolver := hl.resolver
    cases hn : nlinks.resolve with
    | none =>
      rw [hn] at hresolver
      rw [Option.isSome_eq_false_iff.mp hresolver.symm |> Option.isNone_iff_eq_none.mp]
      exact .inr ⟨_, rfl, rfl⟩
    | some f =>
      rw [hn] at hresolver
      obtain ⟨g, hg⟩ := Option.isSome_iff_exists.mp hresolver.symm
      rw [hg]
      dsimp only
      rcases hl.entries f hn g hg (links.cell cell) with ⟨hz, hnone⟩ | ⟨p, bs, t, hhead, hne, hsome, hstored⟩
      · rw [hz, hnone, if_pos rfl]
        exact .inr ⟨_, rfl, rfl⟩
      · rw [hsome]
        cases bs with
        | nil => exact absurd rfl hne
        | cons b bs =>
          have hb : f (links.cell cell) ≠ 0 := by
            rw [hhead]
            exact fun h0 => hstored.ne_zero (h0 ▸ List.mem_cons_self)
          rw [if_neg hb]
          refine .inl ⟨_, _, rfl, rfl, hf.heap, hf.view, b :: bs, t, hstored, .inl ?_⟩
          rw [goto, hhead]
          rfl

theorem target?_of_exec (m : Machine σ) (i : Instr Nat) (t : Nat)
    (h : (m.exec i).2 = .jump t ∨ (m.exec i).2 = .call t) : i.target? = some t := by
  cases i with
  | branch cond x y target =>
    simp only [Machine.exec] at h
    split at h <;> simp_all [Instr.target?]
  | branchConst cond x v target =>
    simp only [Machine.exec] at h
    split at h <;> simp_all [Instr.target?]
  | branchOverflow sub x y target =>
    simp only [Machine.exec] at h
    split at h <;> simp_all [Instr.target?]
  | jump target => simp_all [Machine.exec, Instr.target?]
  | callout id target => simp_all [Machine.exec, Instr.target?]
  | fld size off x => cases size <;> simp [Machine.exec] at h
  | fst size x off => cases size <;> simp [Machine.exec] at h
  | _ => simp [Machine.exec] at h

omit [Context σ] in
theorem at_jump {p : Program} {as : List Nat} {trail n t : Nat} {i : Instr Nat}
    (hp : h.Stored p as trail) (hi : p.code[n]? = some i) (ht : i.target? = some t) :
    as[t]? = some (as[t]?.getD trail) ∨ as[t]? = none ∧
      (as[t]?.getD trail = 0 ∨ h.node (as[t]?.getD trail) = .blank) := by
  cases hat : as[t]? with
  | some a => exact .inl rfl
  | none =>
    refine .inr ⟨rfl, .inr (hp.trail ⟨i, ?_, t, ht, ?_⟩)⟩
    · exact List.mem_of_getElem? (by rw [Array.getElem?_toList, hi])
    · exact hp.length ▸ List.getElem?_eq_none_iff.mp hat

theorem step_at_end (links : Links) (nlinks : NodeLinks) (hf : Follows h e m) (hz : e.pc = 0) :
    e.step nlinks = .inr (.ok 0, e) ∧ m.step links = .inr (.ok 0, m) := by
  obtain ⟨as, trail, hp, hat⟩ := hf.place
  have hend : as[m.pc]? = none := by
    rcases hat with ha | ha
    · rw [hz] at ha
      exact absurd (List.mem_of_getElem? ha) hp.ne_zero
    · exact ha.1
  have hcode : m.program.code[m.pc]? = none := by
    rw [Array.getElem?_eq_none_iff, ← hp.length]
    exact List.getElem?_eq_none_iff.mp hend
  unfold step Machine.step
  rw [if_pos hz, hcode]
  exact ⟨rfl, rfl⟩

/-- At an instruction and at the end, the machine takes the step of the emulator. -/
theorem step_follows (hl : h.Carries nlinks links) (hf : Follows h e m)
    (hs : e.pc ≠ 0 → ∃ as trail, h.Stored m.program as trail ∧ as[m.pc]? = some e.pc) :
    Sum.LiftRel (Follows h) (fun r r' => r.1 = r'.1 ∧ Follows h r.2 r'.2)
      (e.step nlinks) (m.step links) := by
  by_cases hz : e.pc = 0
  · obtain ⟨he, hm⟩ := step_at_end links nlinks hf hz
    rw [he, hm]
    exact .inr ⟨rfl, hf⟩
  · obtain ⟨as, trail, hp, ha⟩ := hs hz
    obtain ⟨i, hi, hnode⟩ := hp.node_eq ha
    have hnext : e.after = (as.drop (m.pc + 1)).headD 0 := by
      unfold after
      rw [hf.heap, hnode]
    unfold step Machine.step
    rw [if_neg hz, hi, hf.heap, hnode]
    dsimp only
    have hbare : e.bare.relocate m.program m.pc = m := by
      have hview := hf.view
      cases m
      cases hview
      rfl
    have hexec := Machine.exec_relocate e.bare m.program m.pc i
    rw [hbare] at hexec
    rw [Machine.exec_mapTarget, hexec]
    have htarget := target?_of_exec e.bare i
    generalize e.bare.exec i = r at htarget ⊢
    obtain ⟨m', next⟩ := r
    dsimp only at htarget ⊢
    have hput : Follows h (e.put m') (m'.relocate m.program m.pc) :=
      ⟨hf.heap, rfl, as, trail, hp, .inl ha⟩
    have hgoto (t : Nat) (ht : i.target? = some t) :
        Follows h ((e.put m').goto (as[t]?.getD trail))
          { m'.relocate m.program m.pc with pc := t } :=
      ⟨hf.heap, rfl, as, trail, hp, at_jump hp hi ht⟩
    cases next with
    | advance =>
      refine .inl ⟨hf.heap, rfl, as, trail, hp, ?_⟩
      rw [show (e.put m').after = _ from hnext]
      exact at_next as m.pc
    | jump target => exact .inl (hgoto target (htarget target (.inl rfl)))
    | call resume => exact .inr ⟨rfl, hgoto resume (htarget resume (.inr rfl))⟩
    | link cell =>
      simp only [Machine.Next.map]
      rcases follow_follows hl hput hp ha cell with ⟨e', m'', he, hm, hf'⟩ | ⟨err, he, hm⟩
      · rw [he, hm]
        exact .inl hf'
      · rw [he, hm]
        exact .inr ⟨rfl, hput⟩
    | exit status =>
      refine .inr ⟨rfl, hf.heap, rfl, as, trail, hp, .inr ⟨?_, .inl rfl⟩⟩
      rw [List.getElem?_eq_none_iff, hp.length]
      exact Nat.le_refl _

theorem settle_step (hl : h.Carries nlinks links) (hf : Follows h e m) :
    Sum.LiftRel (Follows h) (fun r r' => r.1 = r'.1 ∧ Follows h r.2 r'.2)
      (e.settle.step nlinks) (m.step links) :=
  step_follows hl hf.settle.1 hf.settle.2

theorem history_follows (hl : h.Carries nlinks links) (owner : View σ → View σ) (n : Nat)
    (hf : Follows h e m) : e.history owner nlinks n = m.history owner links n := by
  have hserve (e : Emulator σ) (m : Machine σ) (hf : Follows h e m) :
      Follows h (e.serve owner) (m.serve owner) := by
    refine ⟨hf.heap, ?_, hf.place⟩
    unfold serve Machine.serve
    rw [hf.view]
    rfl
  exact history_congr (fun _ _ => settle_step hl) (fun _ _ hf => hf.view) hserve n hf

theorem machine_run_of_run (hl : h.Carries nlinks links) {r : Except LinkError Int × Emulator σ}
    (hr : e.run nlinks = some r) :
    ∀ m : Machine σ, Follows h e m →
      ∃ r', m.run links = some r' ∧ r.1 = r'.1 ∧ Follows h r.2 r'.2 := by
  refine Emulator.run.partial_correctness nlinks (fun e r => ∀ m : Machine σ, Follows h e m →
    ∃ r', m.run links = some r' ∧ r.1 = r'.1 ∧ Follows h r.2 r'.2) ?_ e r hr
  intro run ih e r hrun m hf
  by_cases hn : e.pc ≠ 0 ∧ (e.heap.node e.pc).instr.isNone
  · have hsettle : e.settle = e.goto e.after := if_pos hn
    have hstep : e.step nlinks = .inl (e.goto e.after) := by
      unfold step
      rw [if_neg hn.1, Option.isNone_iff_eq_none.mp hn.2]
    rw [hstep] at hrun
    exact ih _ r hrun m (hsettle ▸ hf.settle.1)
  · have hsettle : e.settle = e := if_neg hn
    have hstep := settle_step hl hf
    rw [hsettle] at hstep
    rw [Machine.run_eq_step]
    generalize e.step nlinks = t at hstep hrun
    generalize m.step links = t' at hstep ⊢
    cases hstep with
    | inl ht => exact ih _ r hrun _ ht
    | inr ht =>
      cases hrun
      exact ⟨_, rfl, ht⟩

theorem run_of_machine_run (hl : h.Carries nlinks links) {x : Except LinkError Int × Machine σ}
    (hx : m.run links = some x) :
    ∀ e : Emulator σ, Follows h e m → ∃ r, e.run nlinks = some r := by
  refine Machine.run_induction (motive := fun m _ => ∀ e : Emulator σ, Follows h e m →
    ∃ r, e.run nlinks = some r) ?_ ?_ hx
  · intro m n r hs ih e hf
    have hstep := settle_step hl hf
    rw [hs] at hstep
    rw [← run_settle, run_eq_step]
    generalize e.settle.step nlinks = t at hstep ⊢
    cases hstep with
    | inl ht => exact ih _ ht
  · intro m r hs e hf
    have hstep := settle_step hl hf
    rw [hs] at hstep
    rw [← run_settle, run_eq_step]
    generalize e.settle.step nlinks = t at hstep ⊢
    cases hstep with
    | inr ht => exact ⟨_, rfl⟩

theorem run_follows (hl : h.Carries nlinks links) (hf : Follows h e m) :
    (e.run nlinks).map (Prod.map id view) = (m.run links).map (Prod.map id Machine.view) := by
  cases hr : e.run nlinks with
  | some r =>
    obtain ⟨r', hm, he, hf'⟩ := machine_run_of_run hl hr m hf
    rw [hm]
    exact congrArg some (Prod.ext he hf'.view)
  | none =>
    cases hm : m.run links with
    | none => rfl
    | some x =>
      obtain ⟨r, hr'⟩ := run_of_machine_run hl hm e hf
      rw [hr] at hr'
      cases hr'

end Emulator

/-- What a call does to a builder of a list. -/
def Call.performNode (b : NodeBuilder) : Call → Except BuildError NodeBuilder
  | .instr i => .ok (b.add i)
  | .nop => .ok b.nop.2
  | .label name => b.label name
  | .mark => .ok b.mark

namespace NodeBuilder

/-- The program that calls build, and the memory that they leave. -/
def ofCalls (h : Heap) (cs : List Call) : Option (Except BuildError (NodeProgram × Heap)) :=
  match cs.foldlM Call.performNode (create h) with
  | .error e => some (.error e)
  | .ok b => b.build

theorem Mirrors.calls {h₀ : Heap} {xs : Entries} {b : Builder} {nb : NodeBuilder} (cs : List Call)
    (hm : Mirrors h₀ xs b nb) :
    (∃ e, cs.foldlM Call.perform b = .error e ∧ cs.foldlM Call.performNode nb = .error e) ∨
    ∃ ys b' nb', cs.foldlM Call.perform b = .ok b' ∧ cs.foldlM Call.performNode nb = .ok nb' ∧
      Mirrors h₀ ys b' nb' := by
  induction cs generalizing xs b nb with
  | nil => exact .inr ⟨xs, b, nb, rfl, rfl, hm⟩
  | cons c cs ih =>
    cases c with
    | instr i =>
      obtain ⟨ys, hm'⟩ := hm.add i
      exact ih hm'
    | nop => exact ih hm.nop.1
    | mark => exact ih hm.mark
    | label name =>
      rw [List.foldlM_cons, List.foldlM_cons, Call.perform, Call.performNode]
      rcases hm.label name with ⟨e, hb, hnb⟩ | ⟨ys, b', nb', hb, hnb, hm'⟩
      · rw [hb, hnb]
        exact .inl ⟨e, rfl, rfl⟩
      · rw [hb, hnb]
        exact ih hm'

theorem ofCalls_built {h : Heap} (hs : h.Sound) (cs : List Call) :
    (∃ e, Program.ofCalls cs = .error e ∧ ofCalls h cs = some (.error e)) ∨
    ∃ p r g as trail, Program.ofCalls cs = .ok p ∧ ofCalls h cs = some (.ok (r, g)) ∧
      Built h p r g as trail := by
  unfold Program.ofCalls ofCalls
  rcases (Mirrors.create hs).calls cs with ⟨e, hb, hnb⟩ | ⟨ys, b, nb, hb, hnb, hm⟩
  · rw [hb, hnb]
    exact .inl ⟨e, rfl, rfl⟩
  · rw [hb, hnb]
    exact hm.build

end NodeBuilder

open Entry

def Entry.Trails (es : List Entry) : Prop :=
  ∃ name, Names es name ∧ place es name = (es.filterMap instr?).length

theorem Entry.trails_iff (es : List Entry) :
    (∃ i ∈ (es.filterMap instr?).map (·.mapTarget (place es)), ∃ t, i.target? = some t ∧
      (es.filterMap instr?).length ≤ t) ↔ Trails es := by
  constructor
  · rintro ⟨j, hj, t, ht, hle⟩
    obtain ⟨i, hi, rfl⟩ := List.mem_map.mp hj
    rw [Instr.target?_mapTarget, Option.map_eq_some_iff] at ht
    obtain ⟨name, hn, rfl⟩ := ht
    obtain ⟨e, he, hei⟩ := List.mem_filterMap.mp hi
    have hplace : place es name ≤ (es.filterMap instr?).length :=
      ((List.take_sublist _ es).filterMap instr?).length_le
    cases e with
    | instr i' =>
      cases hei
      exact ⟨name, ⟨i, he, hn⟩, Nat.le_antisymm hplace hle⟩
    | nop => cases hei
    | label => cases hei
  · rintro ⟨name, ⟨i, hi, hn⟩, hplace⟩
    refine ⟨i.mapTarget (place es), List.mem_map_of_mem (List.mem_filterMap.mpr ⟨_, hi, rfl⟩),
      place es name, ?_, hplace.ge⟩
    rw [Instr.target?_mapTarget, hn]
    rfl

/-- The law of labels. Calls in which every label that a jump names is defined once build a
program, unless another label is put twice. Its list has each instruction once and in order. It runs
as the sequence with labels does, and goes through the same contents of registers and context,
whatever the owner does at services. What is in use stays so for good, but the node behind the last
instruction has been given back: if jumps go there, the program has to run before it is taken. -/
theorem NodeBuilder.ofCalls_labels {h : Heap} (hs : h.Sound) (cs : List Call)
    (hr : Resolved (Call.entries 0 cs)) :
    (∃ name, ofCalls h cs = some (.error (.duplicateLabel name)) ∧
      1 < (Call.entries 0 cs).count (.label name)) ∨
    ∃ r g as trail, ofCalls h cs = some (.ok (r, g)) ∧ g.Sound ∧ h.Keeps g ∧
      g.follow r.head = some as ∧
      as.map (fun a => (g.node a).instr) = ((Call.entries 0 cs).filterMap instr?).map (fun i =>
        some (i.mapTarget fun name => as[place (Call.entries 0 cs) name]?.getD trail)) ∧
      (Trails (Call.entries 0 cs) → trail ∈ g.pool) ∧
      ∀ g' : Heap, g.Keeps g' → (Trails (Call.entries 0 cs) → g'.node trail = g.node trail) →
        ∀ (σ : Type) [Context σ] (links : Links) (nlinks : NodeLinks), g'.Carries nlinks links →
          ∀ v : View σ,
            ((Emulator.ofView g' r v).run nlinks).map (Prod.map id Emulator.view) =
              ((Walker.start (.ofEntries (Call.entries 0 cs)) v).run links).map
                (Prod.map id Walker.view) ∧
            ∀ owner n, (Emulator.ofView g' r v).history owner nlinks n =
              (Walker.start (.ofEntries (Call.entries 0 cs)) v).history owner links n := by
  rcases Program.ofCalls_walks cs hr with ⟨name, he, hcount⟩ | ⟨p, hp, hcode, hruns⟩
  · rcases ofCalls_built hs cs with ⟨e, he', hnode⟩ | ⟨p, r, g, as, trail, hp, -⟩
    · rw [he] at he'
      cases he'
      exact .inl ⟨name, hnode, hcount⟩
    · rw [he] at hp
      cases hp
  · rcases ofCalls_built hs cs with ⟨e, he', -⟩ | ⟨p', r, g, as, trail, hp', hnode, hbuilt⟩
    · rw [hp] at he'
      cases he'
    · rw [hp] at hp'
      cases hp'
      have hsize : p.code.size = ((Call.entries 0 cs).filterMap instr?).length := by
        rw [← Array.length_toList, hcode, List.length_map]
      have htrails : (∃ i ∈ p.code.toList, ∃ t, i.target? = some t ∧ p.code.size ≤ t) ↔
          Trails (Call.entries 0 cs) := by
        rw [hcode, hsize]
        exact trails_iff _
      refine .inr ⟨r, g, as, trail, hnode, hbuilt.sound, hbuilt.keeps, ?_, ?_, ?_, ?_⟩
      · rw [hbuilt.head]
        exact hbuilt.stored.follow
      · rw [hbuilt.stored.instrs, hcode, List.map_map]
        refine List.map_congr_left fun i _ => ?_
        rw [Function.comp_apply, Instr.mapTarget_mapTarget]
        rfl
      · exact fun ht => hbuilt.freed (htrails.mpr ht)
      · intro g' hk htrail σ _ links nlinks hl v
        have hstored : g'.Stored p as trail :=
          hbuilt.stored.congr (fun a ha => hk.node a (hbuilt.used a ha)) fun hj => htrail (htrails.mp hj)
        have hfollows : Emulator.Follows g' (Emulator.ofView g' r v) (Machine.ofView p v) := by
          refine ⟨rfl, rfl, as, trail, hstored, ?_⟩
          change as[0]? = some r.head ∨ as[0]? = none ∧ (r.head = 0 ∨ _)
          rw [hbuilt.head]
          cases as with
          | nil => exact .inr ⟨rfl, .inl rfl⟩
          | cons a as => exact .inl rfl
        obtain ⟨hrun, hhistory⟩ := hruns σ links v
        exact ⟨(Emulator.run_follows hl hfollows).trans hrun, fun owner n =>
          (Emulator.history_follows hl owner n hfollows).trans (hhistory owner n)⟩

/-- A loop that is left through the last of three labels in a row. -/
def Call.countdown : List Call :=
  [.label "top\x7bn\x7d", .instr (.branchConst .eq ⟨0⟩ 0 "end"),
    .instr (.const .add ⟨0⟩ 0xffffffff ⟨0⟩), .nop, .instr (.jump "top\x7bn\x7d"), .mark,
    .label "x", .label "y\x7bn\x7d", .label "end"]

theorem NodeBuilder.ofCalls_labels_countdown : ∃ r g as trail,
    ofCalls .empty Call.countdown = some (.ok (r, g)) ∧ g.follow r.head = some as ∧
      as.length = 3 ∧ trail ∈ g.pool ∧
      ∀ (σ : Type) [Context σ] (v : View σ),
        ((Emulator.ofView g r v).run ⟨fun _ => 0, none⟩).map (Prod.map id Emulator.view) =
          ((Walker.start (.ofEntries (Call.entries 0 Call.countdown)) v).run .none).map
            (Prod.map id Walker.view) := by
  have hentries : Call.entries 0 Call.countdown =
      [.label "top0", .instr (.branchConst .eq ⟨0⟩ 0 "end"),
        .instr (.const .add ⟨0⟩ 0xffffffff ⟨0⟩), .nop, .instr (.jump "top0"), .label "x",
        .label "y1", .label "end"] := by decide
  have hresolved : Resolved (Call.entries 0 Call.countdown) := by
    rw [hentries]
    rintro name ⟨i, hi, ht⟩
    simp only [List.mem_cons, reduceCtorEq, Entry.instr.injEq, List.not_mem_nil, or_false,
      false_or] at hi
    rcases hi with rfl | rfl | rfl
    · cases ht
      decide
    · cases ht
    · cases ht
      decide
  have htrails : Trails (Call.entries 0 Call.countdown) := by
    rw [hentries]
    exact ⟨"end", ⟨_, .tail _ (.head _), rfl⟩, by decide⟩
  have hcarries (g : Heap) : g.Carries ⟨fun _ => 0, none⟩ .none :=
    ⟨rfl, rfl, fun f hf => by cases hf⟩
  rcases NodeBuilder.ofCalls_labels sound_empty Call.countdown hresolved with
    ⟨name, -, hc⟩ | ⟨r, g, as, trail, hg, -, -, has, hcode, hfreed, hruns⟩
  · rw [hentries] at hc
    exact absurd (List.nodup_iff_count_le_one.mp (by decide) _) (Nat.not_le.mpr hc)
  · refine ⟨r, g, as, trail, hg, has, ?_, hfreed htrails, fun σ _ v =>
      (hruns g (.refl g) (fun _ => rfl) σ _ _ (hcarries g) v).1⟩
    have hlength := congrArg List.length hcode
    rw [List.length_map, List.length_map, hentries] at hlength
    exact hlength

def Call.leaving : List Call :=
  [.instr (.li 1 ⟨0⟩), .instr (.jump "end"), .label "end"]

/-- Memory with the list of these calls. Its jump goes to the last node. -/
def Heap.leaving (behind : Nat) (last : Node) (pool : List Nat) : Heap :=
  ⟨#[.blank, ⟨some (.li 1 ⟨0⟩), 2⟩, ⟨some (.jump 3), behind⟩, last], pool⟩

theorem NodeBuilder.ofCalls_leaving :
    ofCalls .empty Call.leaving = some (.ok (⟨1, 11⟩, .leaving 0 .blank [3])) := by
  have hb : Call.leaving.foldlM Call.performNode (create .empty) = .ok
      ⟨.leaving 3 .blank [], 1, 3, 11, none, false, 0, [("end", 3)], []⟩ := by rfl
  have hretarget : (Heap.leaving 3 .blank []).retarget 1 = some (.leaving 3 .blank []) := by
    rw [Heap.retarget]
    change (Heap.leaving 3 .blank []).retarget 2 = _
    rw [Heap.retarget]
    change ((Heap.leaving 3 .blank []).skip 3).bind _ = _
    rw [Heap.skip]
    change Heap.retarget _ 3 = _
    rw [Heap.retarget]
    change Heap.retarget _ 0 = _
    rw [Heap.retarget]
    rfl
  have hlist : NodeProgram.ofList (.leaving 3 .blank []) 1 11 =
      some (⟨1, 11⟩, .leaving 0 .blank [3]) := by
    unfold NodeProgram.ofList
    rw [Heap.skipFront]
    change ((Heap.leaving 3 .blank []).strip 1).bind _ = _
    rw [Heap.strip, Heap.cutBehind]
    change ((Heap.leaving 3 .blank []).strip 2).bind _ = _
    rw [Heap.strip, Heap.cutBehind]
    change ((Heap.cutBehind (.leaving 0 .blank [3]) 2).bind _).bind _ = _
    rw [Heap.cutBehind]
    change (Heap.strip (.leaving 0 .blank [3]) 0).bind _ = _
    rw [Heap.strip]
    rfl
  unfold ofCalls
  rw [hb]
  change ((Heap.retarget _ 1).bind _) = _
  rw [hretarget]
  change ((NodeProgram.ofList _ 1 11).bind _) = _
  rw [hlist]
  rfl

theorem NodeBuilder.ofCalls_exit : ofCalls (.leaving 0 .blank [3]) [.instr (.exit 7)] =
    some (.ok (⟨3, 6⟩, .leaving 0 ⟨some (.exit 7), 0⟩ [])) := by
  have hb : [Call.instr (.exit 7)].foldlM Call.performNode (create (.leaving 0 .blank [3])) = .ok
      ⟨.leaving 0 ⟨some (.exit 7), 0⟩ [], 3, 3, 6, none, false, 0, [], []⟩ := by rfl
  have hretarget : (Heap.leaving 0 ⟨some (.exit 7), 0⟩ []).retarget 3 =
      some (.leaving 0 ⟨some (.exit 7), 0⟩ []) := by
    rw [Heap.retarget]
    change Heap.retarget _ 0 = _
    rw [Heap.retarget]
    rfl
  have hlist : NodeProgram.ofList (.leaving 0 ⟨some (.exit 7), 0⟩ []) 3 6 =
      some (⟨3, 6⟩, .leaving 0 ⟨some (.exit 7), 0⟩ []) := by
    unfold NodeProgram.ofList
    rw [Heap.skipFront]
    change ((Heap.strip _ 3).bind _) = _
    rw [Heap.strip, Heap.cutBehind]
    change ((Heap.strip _ 0).bind _) = _
    rw [Heap.strip]
    rfl
  unfold ofCalls
  rw [hb]
  change ((Heap.retarget _ 3).bind _) = _
  rw [hretarget]
  change ((NodeProgram.ofList _ 3 6).bind _) = _
  rw [hlist]
  rfl

/-- The jump goes to a node that the next program takes: the program that has ended there before
then runs what the other one begins with. -/
theorem NodeBuilder.trailing_taken :
    ofCalls .empty Call.leaving = some (.ok (⟨1, 11⟩, .leaving 0 .blank [3])) ∧
      ofCalls (.leaving 0 .blank [3]) [.instr (.exit 7)] =
        some (.ok (⟨3, 6⟩, .leaving 0 ⟨some (.exit 7), 0⟩ [])) ∧
      ∀ (σ : Type) [Context σ] (v : View σ) (links : NodeLinks),
        ((Emulator.ofView (.leaving 0 .blank [3]) ⟨1, 11⟩ v).run links).map (·.1) =
          some (.ok 0) ∧
        ((Emulator.ofView (.leaving 0 ⟨some (.exit 7), 0⟩ []) ⟨1, 11⟩ v).run links).map (·.1) =
          some (.ok 7) := by
  refine ⟨ofCalls_leaving, ofCalls_exit, fun σ _ v links => ⟨?_, ?_⟩⟩
  · rw [Emulator.run_eq_step]
    change (Emulator.run links (Emulator.goto _ 2)).map _ = _
    rw [Emulator.run_eq_step]
    change (Emulator.run links (Emulator.goto _ 3)).map _ = _
    rw [Emulator.run_eq_step]
    change (Emulator.run links (Emulator.goto _ 0)).map _ = _
    rw [Emulator.run_eq_step]
    rfl
  · rw [Emulator.run_eq_step]
    change (Emulator.run links (Emulator.goto _ 2)).map _ = _
    rw [Emulator.run_eq_step]
    change (Emulator.run links (Emulator.goto _ 3)).map _ = _
    rw [Emulator.run_eq_step]
    rfl

end Recompiler.Ir
