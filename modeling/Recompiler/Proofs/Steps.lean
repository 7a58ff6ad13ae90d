import Recompiler.Proofs.Running

/-!
Runs step by step. A run is a sequence of steps, and its history shows the registers and the
context after each of them, with the services that the program asks for.
-/

namespace Recompiler.Ir

namespace Machine

variable {σ : Type} [Context σ]

/-- The next state of a run, or its end. -/
def step (links : Links) (m : Machine σ) : Machine σ ⊕ (Except LinkError Int × Machine σ) :=
  match m.program.code[m.pc]? with
  | none => .inr (.ok 0, m)
  | some i =>
    let (m, next) := m.exec i
    match next with
    | .advance => .inl m.next
    | .jump target => .inl { m with pc := target }
    | .call resume => .inr (.ok exitCall, { m with pc := resume })
    | .link cell =>
      match m.follow links cell with
      | .ok m => .inl m
      | .error e => .inr (.error e, m)
    | .exit status => .inr (.ok status, m.halted)

theorem run_eq_step (links : Links) (m : Machine σ) :
    m.run links = (m.step links).elim (·.run links) some := by
  rw [run, step]
  cases m.program.code[m.pc]? with
  | none => rfl
  | some i =>
    dsimp only
    cases (m.exec i).2 with
    | link cell =>
      dsimp only
      cases (m.exec i).1.follow links cell <;> rfl
    | _ => rfl

/-- What holds of a step to the end, and of a step before a run, holds of a run that ends. -/
theorem run_induction {links : Links}
    {motive : Machine σ → Except LinkError Int × Machine σ → Prop}
    (move : ∀ m n r, m.step links = .inl n → motive n r → motive m r)
    (stop : ∀ m r, m.step links = .inr r → motive m r) {m : Machine σ}
    {r : Except LinkError Int × Machine σ} (h : m.run links = some r) : motive m r := by
  refine Machine.run.partial_correctness links motive ?_ m r h
  intro run ih m r hrun
  have hstep : (m.step links).elim run some = some r := by
    rw [← hrun, step]
    cases m.program.code[m.pc]? with
    | none => rfl
    | some i =>
      dsimp only
      cases (m.exec i).2 with
      | link cell =>
        dsimp only
        cases (m.exec i).1.follow links cell <;> rfl
      | _ => rfl
  cases hs : m.step links with
  | inl n =>
    rw [hs] at hstep
    exact move m n r hs (ih n r hstep)
  | inr r' =>
    rw [hs] at hstep
    cases hstep
    exact stop m r hs

def runWithin (links : Links) : Nat → Machine σ → Option (Except LinkError Int × Machine σ)
  | 0, _ => none
  | fuel + 1, m => (m.step links).elim (runWithin links fuel) some

theorem run_of_within {links : Links} {fuel : Nat} {m : Machine σ}
    {r : Except LinkError Int × Machine σ} (h : m.runWithin links fuel = some r) :
    m.run links = some r := by
  induction fuel generalizing m with
  | zero => cases h
  | succ fuel ih =>
    rw [runWithin] at h
    rw [run_eq_step]
    cases hs : m.step links with
    | inl n =>
      rw [hs] at h
      exact ih h
    | inr r' =>
      rw [hs] at h
      exact h

end Machine

/-- What a program and its owner see of a state. -/
structure View (σ : Type) where
  regs : Vector UInt32 16
  fregs : Vector UInt64 8
  ctx : σ

def isCall (r : Except LinkError Int) : Bool := r.toOption == some exitCall

/-- A step of a history: the end of a run, if the step ends one, and the state after it. -/
structure Moment (σ : Type) where
  ending : Option (Except LinkError Int)
  view : View σ

section History

variable {σ S S' : Type}

/-- The first `n` steps from a state. The owner changes the state before the program goes on after
a service. -/
def history (step : S → S ⊕ (Except LinkError Int × S)) (view : S → View σ) (serve : S → S) :
    Nat → S → List (Moment σ)
  | 0, _ => []
  | n + 1, s => (step s).elim
      (fun s => ⟨none, view s⟩ :: history step view serve n s)
      (fun r => ⟨some r.1, view r.2⟩ ::
        if isCall r.1 then history step view serve n (serve r.2) else [])

theorem history_map {step : S → S ⊕ (Except LinkError Int × S)}
    {step' : S' → S' ⊕ (Except LinkError Int × S')} {view : S → View σ} {view' : S' → View σ}
    {serve : S → S} {serve' : S' → S'} {f : S → S'}
    (hstep : ∀ s, step' (f s) = (step s).map f (Prod.map id f)) (hview : ∀ s, view' (f s) = view s)
    (hserve : ∀ s, serve' (f s) = f (serve s)) (n : Nat) (s : S) :
    history step' view' serve' n (f s) = history step view serve n s := by
  induction n generalizing s with
  | zero => rfl
  | succ n ih =>
    unfold history
    rw [hstep]
    cases step s with
    | inl s => simp only [Sum.map_inl, Sum.elim_inl, hview, ih]
    | inr r =>
      simp only [Sum.map_inr, Sum.elim_inr, Prod.map_fst, Prod.map_snd, id, hview, hserve, ih]

end History

namespace Machine

variable {σ : Type} [Context σ]

def view (m : Machine σ) : View σ := ⟨m.regs, m.fregs, m.ctx⟩

def ofView (p : Program) (v : View σ) : Machine σ := ⟨p, 0, v.regs, v.fregs, v.ctx⟩

def serve (owner : View σ → View σ) (m : Machine σ) : Machine σ :=
  let v := owner m.view
  { m with regs := v.regs, fregs := v.fregs, ctx := v.ctx }

def history (owner : View σ → View σ) (links : Links) : Nat → Machine σ → List (Moment σ) :=
  Ir.history (step links) view (serve owner)

end Machine

end Recompiler.Ir
