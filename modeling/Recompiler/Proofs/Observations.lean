import Recompiler.Proofs.Steps
import Recompiler.Proofs.Twins

/-!
What the owner of a program sees of its runs: the services that it is asked for, and how and in
which state the run ends, apart from the save area. Machines are alike if their owner cannot tell
them apart, whatever it does to the state and to the registers while it serves them.
-/

namespace Recompiler

open Ir Emit

namespace Ir

/-- The contents of the register files. -/
structure Registers where
  regs : Vector UInt32 16
  fregs : Vector UInt64 8

def Program.IsTrace (p : Program) : Prop :=
  ∃ cfg cells pc ops t, TraceProgram.ofTrace cfg cells pc ops = .ok t ∧ t.program = p

def Links.ToTraces (links : Links) : Prop :=
  ∀ resolve entry p, links.resolve = some resolve → resolve entry = some p → p.IsTrace

namespace Machine

def enter (p : Program) (R : Registers) (c : Cpu) : Machine Cpu := ⟨p, 0, R.regs, R.fregs, c⟩

def refill (m : Machine Cpu) (R : Registers) (c : Cpu) : Machine Cpu :=
  { m with regs := R.regs, fregs := R.fregs, ctx := c }

end Machine

end Ir

/-- No one can tell the machines apart within `k` steps, not even with new link cells, registers
and states after each service. -/
inductive Alike : Nat → Links → Machine Cpu → Machine Cpu → Prop
  | rest {links : Links} {m m' : Machine Cpu} : Alike 0 links m m'
  | move {k : Nat} {links : Links} {m m' n n' : Machine Cpu} (h : m.step links = .inl n)
      (h' : m'.step links = .inl n') (hn : Alike k links n n') : Alike (k + 1) links m m'
  | stop {k : Nat} {links : Links} {m m' n n' : Machine Cpu} {r : Except LinkError Int}
      (h : m.step links = .inr (r, n)) (h' : m'.step links = .inr (r, n'))
      (hlevel : Machine.Level n n')
      (hback : r = .ok exitCall → ∀ links' : Links, links'.ToTraces →
        ∀ (c : Cpu) (R R' : Registers), Alike k links' (n.refill R (c.saving n.ctx.saved))
          (n'.refill R' (c.saving n'.ctx.saved))) :
      Alike (k + 1) links m m'

namespace Alike

variable {j k : Nat} {links : Links} {m m' n : Machine Cpu} {r : Except LinkError Int}

theorem symm (h : Alike k links m m') : Alike k links m' m := by
  induction h with
  | rest => exact .rest
  | move h h' hn ih => exact .move h' h ih
  | stop h h' hlevel hback ih =>
    exact .stop h' h hlevel.symm fun hr links' hl c R R' => ih hr links' hl c R' R

def Back (n n' : Machine Cpu) : Prop :=
  ∀ (k : Nat) (links : Links), links.ToTraces → ∀ (c : Cpu) (R R' : Registers),
    Alike k links (n.refill R (c.saving n.ctx.saved)) (n'.refill R' (c.saving n'.ctx.saved))

theorem step_inl (h : ∀ k, Alike k links m m') (hn : m.step links = .inl n) :
    ∃ n', m'.step links = .inl n' ∧ ∀ k, Alike k links n n' := by
  cases h 1 with
  | stop h₁ => rw [hn] at h₁; cases h₁
  | @move _ _ _ _ n₁ n' h₁ h₁' =>
    rw [hn] at h₁
    cases h₁
    refine ⟨n', h₁', fun k => ?_⟩
    cases h (k + 1) with
    | stop h₂ => rw [hn] at h₂; cases h₂
    | move h₂ h₂' hk =>
      rw [hn] at h₂
      rw [h₁'] at h₂'
      cases h₂
      cases h₂'
      exact hk

theorem step_inr (h : ∀ k, Alike k links m m') (hn : m.step links = .inr (r, n)) :
    ∃ n', m'.step links = .inr (r, n') ∧ n.Level n' ∧ (r = .ok exitCall → Back n n') := by
  cases h 1 with
  | move h₁ => rw [hn] at h₁; cases h₁
  | @stop _ _ _ _ n₁ n' r₁ h₁ h₁' hlevel =>
    rw [hn] at h₁
    cases h₁
    refine ⟨n', h₁', hlevel, fun hr k links' hl c R R' => ?_⟩
    cases h (k + 1) with
    | move h₂ => rw [hn] at h₂; cases h₂
    | stop h₂ h₂' _ hback =>
      rw [hn] at h₂
      rw [h₁'] at h₂'
      cases h₂
      cases h₂'
      exact hback hr links' hl c R R'

theorem run (h : ∀ k, Alike k links m m') (hn : m.run links = some (r, n)) :
    ∃ n', m'.run links = some (r, n') ∧ n.Level n' ∧ (r = .ok exitCall → Back n n') := by
  refine Machine.run_induction
    (motive := fun m rn => ∀ m', (∀ k, Alike k links m m') → ∃ n', m'.run links = some (rn.1, n') ∧
      rn.2.Level n' ∧ (rn.1 = .ok exitCall → Back rn.2 n')) ?_ ?_ hn m' h
  · intro m n rn hs ih m' h
    obtain ⟨n', hn', hk⟩ := step_inl h hs
    rw [Machine.run_eq_step, hn']
    exact ih n' hk
  · intro m rn hs m' h
    obtain ⟨n', hn', hlevel, hback⟩ := step_inr h hs
    exact ⟨n', by rw [Machine.run_eq_step, hn']; rfl, hlevel, hback⟩

theorem run_none (h : ∀ k, Alike k links m m') (hn : m.run links = none) : m'.run links = none := by
  cases hr : m'.run links with
  | none => rfl
  | some rn =>
    obtain ⟨n', hn', -⟩ := run (fun k => (h k).symm) hr
    rw [hn] at hn'
    cases hn'

end Alike

/-- The owner of programs serves them one at a time. From its own state and that of the CPU it
says whether the program goes on, and with which states. It leaves the save area alone, and the
link cells lead to traces. -/
structure Owner (η : Type) where
  links : η → Links
  serve : η → Cpu → Bool × η × Cpu
  toTraces : ∀ h, (links h).ToTraces
  blind : ∀ h c s, serve h (c.saving s) = ((serve h c).1, (serve h c).2.1, (serve h c).2.2.saving s)

/-- How a run ends. -/
inductive Ending where
  | exited (status : Int)
  | failed (e : LinkError)
  /-- The owner gives the program up after a service. -/
  | abandoned
  /-- The run goes on after the last service that is observed. -/
  | open
  | endless
  deriving DecidableEq, Repr

/-- What an owner sees of a run. -/
structure RunView (η : Type) where
  /-- The states in which the program asks for a service, first one first. -/
  calls : List Cpu
  ending : Ending
  owner : η
  /-- The state at the end, if there is one. -/
  cpu : Option Cpu

def RunView.after {η : Type} (c : Cpu) (x : RunView η) : RunView η :=
  { x with calls := c :: x.calls }

/-- The state without what the program keeps in the save area. -/
def Cpu.unsaved (c : Cpu) : Cpu := c.saving (Vector.replicate 9 0)

namespace Owner

variable {η : Type} (o : Owner η)

/-- Observes a run until it has been served `n` times. Before it goes on after a service, the
registers are filled anew. -/
def observe (fill : Nat → Registers) : Nat → η → Machine Cpu → RunView η
  | n, h, m =>
    match m.run (o.links h) with
    | none => ⟨[], .endless, h, none⟩
    | some (.error e, m) => ⟨[], .failed e, h, some m.ctx.unsaved⟩
    | some (.ok status, m) =>
      if status = exitCall then
        match o.serve h m.ctx with
        | (false, h, cpu) => ⟨[m.ctx.unsaved], .abandoned, h, some cpu.unsaved⟩
        | (true, h, cpu) =>
          match n with
          | 0 => ⟨[m.ctx.unsaved], .open, h, some cpu.unsaved⟩
          | n + 1 => (observe fill n h (m.refill (fill n) cpu)).after m.ctx.unsaved
      else ⟨[], .exited status, h, some m.ctx.unsaved⟩

/-- Machines that are alike are seen alike. -/
theorem observe_eq_of_alike (fill fill' : Nat → Registers) (n : Nat) {h : η} {m m' : Machine Cpu}
    (hm : ∀ k, Alike k (o.links h) m m') : o.observe fill n h m = o.observe fill' n h m' := by
  induction n using Nat.strongRecOn generalizing h m m' with
  | _ n ih =>
    unfold observe
    cases hr : m.run (o.links h) with
    | none => rw [Alike.run_none hm hr]
    | some rn =>
      obtain ⟨r, m₁⟩ := rn
      obtain ⟨m₁', hr', hlevel, hback⟩ := Alike.run hm hr
      have hctx : m₁'.ctx = m₁.ctx.saving m₁'.ctx.saved := hlevel
      have hun : m₁'.ctx.unsaved = m₁.ctx.unsaved := by
        rw [hctx]
        rfl
      rw [hr']
      cases r with
      | error e =>
        dsimp only
        rw [hun]
      | ok status =>
        dsimp only
        rw [hun]
        split
        · rename_i hs
          have hself := o.blind h m₁.ctx m₁.ctx.saved
          have hother := o.blind h m₁.ctx m₁'.ctx.saved
          rw [Cpu.saving_saved] at hself
          rw [← hctx] at hother
          rw [hother]
          rcases hserve : o.serve h m₁.ctx with ⟨_ | _, h', cpu⟩
          · rfl
          · rw [hserve] at hself
            have hcpu : cpu = cpu.saving m₁.ctx.saved := (Prod.mk.inj (Prod.mk.inj hself).2).2
            cases n with
            | zero => rfl
            | succ n =>
              have hk (k : Nat) := hback (by rw [hs]) k (o.links h') (o.toTraces h') cpu (fill n)
                (fill' n)
              rw [← hcpu] at hk
              exact congrArg (RunView.after _) (ih n (Nat.lt_succ_self n) hk)
        · rfl

/-- An owner that interprets what it is asked for, with link cells that never change. -/
def interpreter (links : Links) (hl : links.ToTraces) : Owner Unit where
  links _ := links
  serve _ c :=
    match c.requested? with
    | none => (false, (), c)
    | some service => ((c.serve service).leave == 0, (), c.serve service)
  toTraces _ := hl
  blind _ c s := by
    rw [show (c.saving s).requested? = c.requested? from rfl]
    cases c.requested? with
    | none => rfl
    | some service => simp [Cpu.serve_saving]

end Owner

end Recompiler
