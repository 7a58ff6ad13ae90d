import Recompiler.Proofs.BuilderLabels
import Recompiler.Proofs.Context
import Recompiler.Proofs.Ledgers

/-!
Charts of programs. A chart says for each instruction what holds before it of the counter, as a
function of what the counter was when the program was entered. A program with a chart leaves the
counter alone until it counts the instructions that ran at one of its exits, and follows a link
cell only if the next event is still ahead.
-/

namespace Recompiler

open Ir Emit

/-- The counter, and the cycle of the next event. -/
structure Clock where
  cycle : UInt32
  nextEvent : UInt32
  deriving DecidableEq, Repr

namespace Clock

def after (k : Clock) (d : UInt32) : Clock := { k with cycle := k.cycle + d }

def isAhead (k : Clock) : Bool := signBit32 (k.cycle - k.nextEvent)

theorem after_zero (k : Clock) : k.after 0 = k := by
  rw [after, UInt32.add_zero]

end Clock

namespace Cpu

def clock (c : Cpu) : Clock := ⟨c.cycle, c.nextEvent⟩

/-- The state tells which service is asked for, and for which instruction. -/
structure Asks (c : Cpu) (service : Service) (s : Site) (op : Instr) : Prop where
  requested : c.requested? = some service
  pc : c.pc = s.pc
  delay : c.delay = ofBool32 s.inDelaySlot
  op : c.frame.callOp = op.word
  count : c.frame.callCount = UInt32.ofNat (s.index + 1)

def IsOffClock (off : Int) : Prop := off ≠ Layout.cycle ∧ off ≠ Layout.nextEvent

instance (off : Int) : Decidable (IsOffClock off) := inferInstanceAs (Decidable (_ ∧ _))

theorem clock_storeWord (c : Cpu) {off : Int} (v : UInt32) (h : IsOffClock off) :
    (c.storeWord off v).clock = c.clock := by
  have hcycle : (c.storeWord off v).cycle = c.cycle := loadWord_storeWord_of_ne c v h.1
  have hnext : (c.storeWord off v).nextEvent = c.nextEvent := loadWord_storeWord_of_ne c v h.2
  rw [clock, hcycle, hnext, clock]

end Cpu

namespace Emit

/-- What a program may count and ask for. -/
structure Terms where
  /-- The cycles that each instruction takes. -/
  cost : UInt32
  /-- The most instructions that an exit counts. -/
  limit : Nat
  /-- The instructions for which services may be asked. -/
  served : Service → Site → Recompiler.Instr → Prop

end Emit

/-- What holds of the registers and the state of a machine that entered its program when the clock
was at `k`. -/
abbrev Assertion := (k : Clock) → (HostReg → UInt32) → Cpu → Prop

namespace Assertion

def unmoved : Assertion := fun k _ c => c.clock = k

def counted (T : Terms) : Assertion :=
  fun k _ c => ∃ n ≤ T.limit, c.clock = k.after (UInt32.ofNat n * T.cost)

def calls (T : Terms) : Assertion :=
  fun k _ c => c.clock = k ∧ ∃ service s op, T.served service s op ∧ c.Asks service s op

theorem counted_of_unmoved (T : Terms) {k : Clock} {get : HostReg → UInt32} {c : Cpu}
    (h : unmoved k get c) : counted T k get c := by
  refine ⟨0, Nat.zero_le _, ?_⟩
  rw [show UInt32.ofNat 0 * T.cost = 0 from UInt32.zero_mul, Clock.after_zero]
  exact h

end Assertion

open Assertion

namespace Ir

/-- From machines with `K`, an instruction goes on with `fall` at the next instruction and with
`land` at its target, and keeps to the terms where it leaves the program. -/
def Upholds {L : Type} (T : Terms) (K : Assertion) (i : Instr L) (fall : Assertion)
    (land : L → Assertion) : Prop :=
  ∀ k (m : Machine Cpu), K k m.get m.ctx →
    match m.exec (i.mapTarget fun _ => 0) with
    | (n, .advance) => fall k n.get n.ctx
    | (n, .jump _) => ∀ t, i.target? = some t → land t k n.get n.ctx
    | (n, .call _) => calls T k n.get n.ctx ∧
        ∀ t, i.target? = some t → ∀ get c, c.clock = k → land t k get c
    | (n, .link _) => n.ctx.clock.isAhead = true ∧ counted T k n.get n.ctx ∧ fall k n.get n.ctx
    | (n, .exit status) => status ≠ exitCall ∧ counted T k n.get n.ctx

/-- What holds before each instruction of a program. -/
structure Program.Charted (p : Program) (T : Terms) (A : Nat → Assertion) : Prop where
  enter : ∀ k get c, unmoved k get c → A 0 k get c
  pass : ∀ pos i, p.code[pos]? = some i → Upholds T (A pos) i (A (pos + 1)) A
  ends : ∀ pos, p.code[pos]? = none → ∀ k get c, A pos k get c → counted T k get c

def Program.Keeps (p : Program) (T : Terms) : Prop := ∃ A, p.Charted T A

namespace Machine

variable {T : Terms} {A : Nat → Assertion} {links : Links} {m n : Machine Cpu} {k : Clock}

/-- The machine is somewhere in a program with a chart. -/
structure On (T : Terms) (A : Nat → Assertion) (k : Clock) (m : Machine Cpu) : Prop where
  charted : m.program.Charted T A
  holds : A m.pc k m.get m.ctx

theorem on_enter (h : m.program.Charted T A) (hpc : m.pc = 0) : On T A m.ctx.clock m :=
  ⟨h, hpc ▸ h.enter _ _ _ rfl⟩

def Follows (links : Links) (m : Machine Cpu) : Prop :=
  ∃ cell, m.program.code[m.pc]? = some (.link cell) ∧ links.cell cell ≠ 0

/-- Jumps go to the target of the instruction, and only a link leads to a link cell. -/
theorem next_of_exec {i : Ir.Instr Nat} {next : Next} (h : m.exec i = (n, next)) :
    n.program = m.program ∧ n.pc = m.pc ∧ match next with
      | .jump t | .call t => i.target? = some t
      | .link cell => i = .link cell ∧ n = m
      | _ => True := by
  obtain ⟨hprog, hpc⟩ := exec_place m i
  rw [h] at hprog hpc
  refine ⟨hprog, hpc, ?_⟩
  cases i with
  | branch | branchConst | branchOverflow =>
    simp only [exec] at h
    split at h <;> cases h
    · rfl
    · trivial
  | fld size off x => cases size <;> cases h <;> trivial
  | fst size x off => cases size <;> cases h <;> trivial
  | jump | callout =>
    cases h
    rfl
  | link =>
    cases h
    exact ⟨rfl, rfl⟩
  | _ =>
    cases h
    trivial

theorem On.exec (h : On T A k m) {i : Ir.Instr Nat} {next : Next}
    (hc : m.program.code[m.pc]? = some i) (hx : m.exec i = (n, next)) : match next with
      | .advance => A (m.pc + 1) k n.get n.ctx
      | .jump t => A t k n.get n.ctx
      | .call t => calls T k n.get n.ctx ∧ ∀ get c, c.clock = k → A t k get c
      | .link _ => n.ctx.clock.isAhead = true ∧ counted T k n.get n.ctx ∧
          A (m.pc + 1) k n.get n.ctx
      | .exit status => status ≠ exitCall ∧ counted T k n.get n.ctx := by
  have hup := h.charted.pass _ _ hc k m h.holds
  have ht := (next_of_exec hx).2.2
  rw [exec_mapTarget, hx] at hup
  cases next with
  | jump t => exact hup t ht
  | call t => exact ⟨hup.1, hup.2 t ht⟩
  | _ => exact hup

/-- A step within a program. -/
theorem On.step (h : On T A k m) (hn : m.step links = .inl n) (hf : ¬ m.Follows links) :
    On T A k n := by
  unfold Machine.step at hn
  cases hc : m.program.code[m.pc]? with
  | none => simp [hc] at hn
  | some i =>
    rcases hx : m.exec i with ⟨m', next⟩
    have hup := h.exec hc hx
    obtain ⟨hprog, hpc, hlink⟩ := next_of_exec hx
    simp only [hc, hx] at hn
    cases next with
    | advance =>
      cases hn
      refine ⟨hprog ▸ h.charted, ?_⟩
      rw [← hpc] at hup
      exact hup
    | jump t =>
      cases hn
      exact ⟨hprog ▸ h.charted, hup⟩
    | call t => cases hn
    | exit status => cases hn
    | link cell =>
      obtain ⟨rfl, rfl⟩ := hlink
      have h0 : links.cell cell = 0 := Decidable.byContradiction fun h0 => hf ⟨cell, hc, h0⟩
      simp only [Machine.follow, if_pos h0] at hn
      cases hn
      exact ⟨h.charted, hup.2.2⟩

theorem On.follow (h : On T A k m) (hn : m.step links = .inl n) (hf : m.Follows links) :
    m.ctx.clock.isAhead = true ∧ counted T k m.get m.ctx ∧
      ∃ entry resolve, links.resolve = some resolve ∧ resolve entry = some n.program ∧
        n = { m with program := n.program, pc := 0 } := by
  obtain ⟨cell, hc, hcell⟩ := hf
  obtain ⟨hahead, hcounted, -⟩ := h.exec hc (show m.exec (.link cell) = (m, .link cell) from rfl)
  refine ⟨hahead, hcounted, links.cell cell, ?_⟩
  have hx : m.exec (.link cell) = (m, .link cell) := rfl
  simp only [Machine.step, hc, hx, Machine.follow, if_neg hcell] at hn
  cases hr : links.resolve with
  | none => simp [hr] at hn
  | some resolve =>
    cases hp : resolve (links.cell cell) with
    | none => simp [hr, hp] at hn
    | some p =>
      simp only [hr, hp] at hn
      cases hn
      exact ⟨resolve, rfl, hp, rfl⟩

/-- A step to the end of a run. -/
theorem On.stop (h : On T A k m) {status : Int} (hn : m.step links = .inr (.ok status, n)) :
    if status = exitCall then calls T k n.get n.ctx ∧
        ∀ (get : HostReg → UInt32) c, c.clock = k → A n.pc k get c
      else counted T k n.get n.ctx := by
  unfold Machine.step at hn
  cases hc : m.program.code[m.pc]? with
  | none =>
    simp only [hc] at hn
    cases hn
    exact h.charted.ends _ hc _ _ _ h.holds
  | some i =>
    rcases hx : m.exec i with ⟨m', next⟩
    have hup := h.exec hc hx
    simp only [hc, hx] at hn
    cases next with
    | advance => cases hn
    | jump t => cases hn
    | call t =>
      cases hn
      exact hup
    | exit status =>
      cases hn
      rw [if_neg hup.1]
      exact hup.2
    | link cell =>
      dsimp only at hn
      split at hn <;> cases hn

/-- The machine goes on after a service that has left the clock where it was. -/
theorem On.resume (h : On T A k m) (hn : m.step links = .inr (.ok exitCall, n)) {c : Cpu}
    (hk : c.clock = k) : On T A k { n with ctx := c } := by
  have hstop := h.stop hn
  rw [if_pos rfl] at hstop
  refine ⟨?_, hstop.2 _ c hk⟩
  unfold Machine.step at hn
  cases hc : m.program.code[m.pc]? with
  | none => simp [hc, exitCall] at hn
  | some i =>
    rcases hx : m.exec i with ⟨m', next⟩
    obtain ⟨hprog, -⟩ := next_of_exec hx
    simp only [hc, hx] at hn
    cases next with
    | call t =>
      cases hn
      exact hprog ▸ h.charted
    | exit status =>
      cases hn
      exact hprog ▸ h.charted
    | link cell =>
      dsimp only at hn
      split at hn <;> cases hn
    | _ => cases hn

end Machine

end Ir

end Recompiler
