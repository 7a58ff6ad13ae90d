import Recompiler.Proofs.Observations

/-!
Sheets of programs. A sheet says for each instruction on which registers and words of the save
area two machines agree before it, if they run the program on the same state. Where an instruction
reads only what the sheet lists, no one can tell the machines apart.
-/

namespace Recompiler

open Ir Emit

namespace Cpu

theorem storeWord_save (c : Cpu) (r : Fin 9) (v : UInt32) :
    c.storeWord (Layout.save r) v = c.saving (c.saved.put r v) := by
  unfold storeWord
  rw [show Layout.save r = (Field.save r).offset from rfl, field?_offset]
  rfl

end Cpu

namespace Ir

def Instr.falls {L : Type} : Instr L → Bool
  | .jump _ | .callout .. | .exit _ => false
  | _ => true

/-- Machines that agree on `K` agree on `K'` after an instruction. A register may be saved and
restored whether or not they agree on it. -/
inductive Passes {L : Type} (K : Set Loc) : Instr L → Set Loc → Prop
  | plain {i : Instr L} {K' : Set Loc} (hs : ∀ l ∈ i.sources, l ∈ K) (hb : i.IsBlind)
      (hk : ∀ l ∈ K', l ∈ K ∨ l ∈ i.results) : Passes K i K'
  | save {x : HostReg} {r : Fin 9} {K' : Set Loc}
      (hk : ∀ l ∈ K', l ∈ K ∧ l ≠ .save r ∨ l = .save r ∧ .reg x ∈ K) :
      Passes K (.stc x (Layout.save r)) K'
  | restore {x : HostReg} {r : Fin 9} {K' : Set Loc}
      (hk : ∀ l ∈ K', l ∈ K ∧ l ≠ .reg x ∨ l = .reg x ∧ .save r ∈ K) :
      Passes K (.ldc (Layout.save r) x) K'

/-- What machines that agree on `K` agree on where an instruction jumps to. Registers do not
survive a service. -/
def Carried {L : Type} (K : Set Loc) : Instr L → Set Loc
  | .callout .. => { l | l = .reg .rz ∨ ∃ r, l = .save r ∧ l ∈ K }
  | _ => K

namespace Machine

variable {m m' : Machine Cpu}

theorem share_saving {s s' : Vector UInt32 9} {c c' : Cpu} {l : Loc} (h : Share m m' l)
    (hs : ∀ r, l = .save r → s.get r = s'.get r) :
    Share { m with ctx := c.saving s } { m' with ctx := c'.saving s' } l := by
  cases l with
  | reg x => exact h
  | fp x => exact h
  | save r => exact hs r rfl

theorem share_set_of_ne {x : HostReg} {v v' : UInt32} {l : Loc} (h : Share m m' l)
    (hl : l ≠ .reg x) : Share (m.set x v) (m'.set x v') l := by
  unfold set
  split
  · exact h
  · cases l with
    | fp y => exact h
    | save r => exact h
    | reg y =>
      have hne : x.num ≠ y.num := fun he => hl (congrArg (Loc.reg ⟨·⟩) he.symm)
      simp only [Share, get] at h ⊢
      simp only [Array.getD_eq_getD_getElem?] at h ⊢
      rwa [Vector.toArray_setIfInBounds, Vector.toArray_setIfInBounds,
        Array.getElem?_setIfInBounds_ne hne, Array.getElem?_setIfInBounds_ne hne]

theorem level_save (h : Level m m') (x : HostReg) (r : Fin 9) :
    Level (m.exec (.stc x (Layout.save r))).1 (m'.exec (.stc x (Layout.save r))).1 := by
  have hctx (n : Machine Cpu) : (n.exec (.stc x (Layout.save r))).1.ctx =
      n.ctx.saving (n.ctx.saved.put r (n.get x)) := Cpu.storeWord_save _ _ _
  unfold Level at h ⊢
  rw [hctx, hctx, Cpu.saving_saving, Cpu.saved_saving]
  generalize m'.ctx.saved.put r (m'.get x) = s
  rw [h, Cpu.saving_saving]

theorem share_save {x : HostReg} {r : Fin 9} {l : Loc}
    (h : Share m m' l ∧ l ≠ .save r ∨ l = .save r ∧ Share m m' (.reg x)) :
    Share (m.exec (.stc x (Layout.save r))).1 (m'.exec (.stc x (Layout.save r))).1 l := by
  change Share { m with ctx := Cpu.storeWord m.ctx _ _ }
    { m' with ctx := Cpu.storeWord m'.ctx _ _ } l
  rw [Cpu.storeWord_save, Cpu.storeWord_save]
  rcases h with ⟨h, hl⟩ | ⟨rfl, h⟩
  · refine share_saving h fun r' hr' => ?_
    subst hr'
    have hne : r ≠ r' := fun he => hl (he ▸ rfl)
    rw [Vector.get_put_of_ne _ _ hne, Vector.get_put_of_ne _ _ hne]
    exact h
  · change (m.ctx.saved.put r (m.get x)).get r = (m'.ctx.saved.put r (m'.get x)).get r
    rw [Vector.get_put_self, Vector.get_put_self]
    exact h

theorem share_restore {x : HostReg} {r : Fin 9} {l : Loc}
    (h : Share m m' l ∧ l ≠ .reg x ∨ l = .reg x ∧ Share m m' (.save r)) :
    Share (m.exec (.ldc (Layout.save r) x)).1 (m'.exec (.ldc (Layout.save r) x)).1 l := by
  change Share (m.set x (Cpu.loadWord m.ctx _)) (m'.set x (Cpu.loadWord m'.ctx _)) l
  rw [Cpu.loadWord_save, Cpu.loadWord_save]
  rcases h with ⟨h, hl⟩ | ⟨rfl, h⟩
  · exact share_set_of_ne h hl
  · rw [show m.ctx.saved.get r = m'.ctx.saved.get r from h]
    exact share_set x _ (.inr rfl)

end Machine

theorem Passes.exec {m m' : Machine Cpu} {K K' : Set Loc} {i : Instr Nat} (h : Passes K i K')
    (hl : m.Level m') (hk : ∀ l ∈ K, m.Share m' l) :
    (m'.exec i).2 = (m.exec i).2 ∧ (m.exec i).1.Level (m'.exec i).1 ∧
      ∀ l ∈ K', (m.exec i).1.Share (m'.exec i).1 l := by
  cases h with
  | plain hs hb hk' =>
    have ha := Machine.abreast hl (fun l hm => hk l (hs l hm)) hb
    exact ⟨ha.next, ha.level, fun l hm => ha.share l ((hk' l hm).imp_left (hk l))⟩
  | save hk' =>
    exact ⟨rfl, Machine.level_save hl _ _, fun l hm => Machine.share_save
      ((hk' l hm).imp (And.imp_left (hk l)) (And.imp_right (hk _)))⟩
  | restore hk' =>
    refine ⟨rfl, ?_, fun l hm => Machine.share_restore
      ((hk' l hm).imp (And.imp_left (hk l)) (And.imp_right (hk _)))⟩
    simpa [Machine.Level, Machine.exec] using hl

/-- What machines that run the program on the same state agree on before each instruction. -/
structure Program.Sheet (p : Program) (T : Nat → Set Loc) : Prop where
  entry : ∀ l ∈ T 0, l = .reg .rz
  pass : ∀ k i, p.code[k]? = some i → i.falls = true → Passes (T k) i (T (k + 1))
  jump : ∀ k i target, p.code[k]? = some i → i.target? = some target → T target ⊆ Carried (T k) i
  exit : ∀ (k : Nat) (status : Int), p.code[k]? = some (Instr.exit status) → status = 0
  /-- A program returns where a link cell is empty. -/
  link : ∀ (k : Nat) (cell : Int), p.code[k]? = some (Instr.link cell) →
    p.code[k + 1]? = some (Instr.exit 0)

namespace Machine

variable {m m' : Machine Cpu}

theorem exec_of_target (m : Machine Cpu) {i : Instr Nat} {target : Nat} (hf : i.falls = true)
    (ht : i.target? = some target) : (m.exec i).1 = m ∧ ∀ K, Carried K i = K := by
  cases i with
  | branch | branchConst | branchOverflow => exact ⟨rfl, fun _ => rfl⟩
  | jump | callout => cases hf
  | _ => cases ht

theorem next_cases (m : Machine Cpu) {i : Instr Nat} (hf : i.falls = true) :
    (m.exec i).2 = .advance ∨ (∃ target, i.target? = some target ∧ (m.exec i).2 = .jump target) ∨
      ∃ cell, i = .link cell := by
  cases i with
  | branch | branchConst | branchOverflow =>
    simp only [exec, Instr.target?]
    split
    · exact .inr (.inl ⟨_, rfl, rfl⟩)
    · exact .inl rfl
  | link cell => exact .inr (.inr ⟨cell, rfl⟩)
  | fld size off x => cases size <;> exact .inl rfl
  | fst size x off => cases size <;> exact .inl rfl
  | jump | callout | exit => cases hf
  | _ => exact .inl rfl

theorem step_advance {links : Links} {i : Instr Nat} (hc : m.program.code[m.pc]? = some i)
    (hn : (m.exec i).2 = .advance) : m.step links = .inl (m.exec i).1.next := by
  simp only [step, hc, hn]

theorem step_jump {links : Links} {i : Instr Nat} {target : Nat}
    (hc : m.program.code[m.pc]? = some i) (hn : (m.exec i).2 = .jump target) :
    m.step links = .inl { (m.exec i).1 with pc := target } := by
  simp only [step, hc, hn]

theorem step_follow {links : Links} {cell : Int} {n : Machine Cpu}
    (hc : m.program.code[m.pc]? = some (.link cell)) (hn : m.follow links cell = .ok n) :
    m.step links = .inl n := by
  have hx : m.exec (.link cell) = (m, .link cell) := rfl
  simp only [step, hc, hx, hn]

theorem step_lost {links : Links} {cell : Int} {err : LinkError}
    (hc : m.program.code[m.pc]? = some (.link cell)) (hn : m.follow links cell = .error err) :
    m.step links = .inr (.error err, m) := by
  have hx : m.exec (.link cell) = (m, .link cell) := rfl
  simp only [step, hc, hx, hn]

/-- Machines in the same place of a program that differ at most where its sheet does not promise
that they agree. -/
structure InStep (T : Nat → Set Loc) (m m' : Machine Cpu) : Prop where
  program : m'.program = m.program
  pc : m'.pc = m.pc
  level : m.Level m'
  share : ∀ l ∈ T m.pc, m.Share m' l

namespace InStep

variable {T : Nat → Set Loc} {i : Instr Nat}

theorem goto (h : InStep T m m') {n n' : Machine Cpu} (hn : n.program = m.program)
    (hn' : n'.program = m'.program) (hl : n.Level n') {k : Nat}
    (hs : ∀ l ∈ T k, n.Share n' l) : InStep T { n with pc := k } { n' with pc := k } :=
  ⟨hn'.trans (h.program.trans hn.symm), rfl, hl, fun l hm => by cases l <;> exact hs _ hm⟩

theorem back (hp : m'.program = m.program) {k : Nat}
    (hs : ∀ l ∈ T k, l = .reg .rz ∨ ∃ r, l = .save r ∧ m.Share m' l) (c : Cpu)
    (R R' : Registers) :
    InStep T ({ m with pc := k }.refill R (c.saving m.ctx.saved))
      ({ m' with pc := k }.refill R' (c.saving m'.ctx.saved)) := by
  refine ⟨hp, rfl, rfl, fun l hm => ?_⟩
  rcases hs l hm with rfl | ⟨r, rfl, hr⟩
  · exact share_rz _ _
  · exact hr

theorem enter {p : Program} (hp : p.Sheet T) (hl : m.Level m') :
    InStep T { m with program := p, pc := 0 } { m' with program := p, pc := 0 } := by
  refine ⟨rfl, rfl, hl, fun l hm => ?_⟩
  rw [hp.entry l hm]
  exact share_rz _ _

theorem follow_cases (links : Links) (cell : Int) :
    (∀ n : Machine Cpu, n.follow links cell = .ok { n with pc := n.pc + 1 }) ∨
      (∃ entry resolve p, links.resolve = some resolve ∧ resolve entry = some p ∧
        ∀ n : Machine Cpu, n.follow links cell = .ok { n with program := p, pc := 0 }) ∨
      ∃ err, ∀ n : Machine Cpu, n.follow links cell = .error err := by
  unfold follow
  by_cases h0 : links.cell cell = 0
  · simp [h0]
  · simp only [h0, if_false]
    cases hr : links.resolve with
    | none => exact .inr (.inr ⟨_, fun _ => rfl⟩)
    | some resolve =>
      dsimp only
      cases hp : resolve (links.cell cell) with
      | none => exact .inr (.inr ⟨_, fun _ => rfl⟩)
      | some p => exact .inr (.inl ⟨_, resolve, p, rfl, hp, fun _ => rfl⟩)

/-- Links lead to programs with sheets. -/
theorem alike (hall : ∀ p : Program, p.IsTrace → ∃ T, p.Sheet T) (k : Nat) {links : Links}
    (hlinks : links.ToTraces) (hp : m.program.Sheet T) (h : InStep T m m') :
    Alike k links m m' := by
  induction k generalizing links m m' T with
  | zero => exact .rest
  | succ k ih =>
    have hcode' : m'.program.code[m'.pc]? = m.program.code[m.pc]? := by rw [h.program, h.pc]
    cases hcode : m.program.code[m.pc]? with
    | none =>
      rw [hcode] at hcode'
      have hstep : m.step links = .inr (.ok 0, m) := by simp only [step, hcode]
      have hstep' : m'.step links = .inr (.ok 0, m') := by simp only [step, hcode']
      refine .stop hstep hstep' h.level fun hr => ?_
      cases hr
    | some i =>
      rw [hcode] at hcode'
      obtain ⟨hprog, hpc⟩ := exec_place m i
      obtain ⟨hprog', hpc'⟩ := exec_place m' i
      cases hf : i.falls with
      | true =>
        obtain ⟨hnext, hlevel, hshare⟩ := (hp.pass _ _ hcode hf).exec h.level h.share
        rcases next_cases m hf with hn | ⟨target, ht, hn⟩ | ⟨cell, rfl⟩
        · refine .move (step_advance hcode hn) (step_advance hcode' (hnext.trans hn)) ?_
          rw [next, next, hpc', hpc, h.pc]
          exact ih hlinks (hprog ▸ hp) (h.goto hprog hprog' hlevel hshare)
        · obtain ⟨hsame, hcarry⟩ := exec_of_target m hf ht
          have hsame' := (exec_of_target m' hf ht).1
          refine .move (step_jump hcode hn) (step_jump hcode' (hnext.trans hn)) ?_
          rw [hsame, hsame']
          have hsub := hp.jump _ _ _ hcode ht
          rw [hcarry] at hsub
          exact ih hlinks hp (h.goto rfl rfl h.level fun l hm => h.share l (hsub hm))
        · rcases follow_cases links cell with ho | ⟨entry, resolve, p, hr, hres, ho⟩ | ⟨err, ho⟩
          · refine .move (step_follow hcode (ho m)) (step_follow hcode' (ho m')) ?_
            rw [h.pc]
            exact ih hlinks hp (h.goto rfl rfl h.level hshare)
          · obtain ⟨T', hT'⟩ := hall p (hlinks resolve entry p hr hres)
            exact .move (step_follow hcode (ho m)) (step_follow hcode' (ho m'))
              (ih hlinks hT' (enter hT' h.level))
          · refine .stop (step_lost hcode (ho m)) (step_lost hcode' (ho m')) h.level fun hr => ?_
            cases hr
      | false =>
        cases i with
        | jump target =>
          refine .move (step_jump hcode rfl) (step_jump hcode' rfl) ?_
          exact ih hlinks hp (h.goto rfl rfl h.level fun l hm =>
            h.share l (hp.jump _ _ _ hcode rfl hm))
        | exit status =>
          have h0 := hp.exit _ _ hcode
          subst h0
          have hstep : m.step links = .inr (.ok 0, m.halted) := by
            simp only [step, hcode]
            rfl
          have hstep' : m'.step links = .inr (.ok 0, m'.halted) := by
            simp only [step, hcode']
            rfl
          refine .stop hstep hstep' h.level fun hr => ?_
          cases hr
        | callout id target =>
          have ha := share_callout h.level id target
          have hstep : m.step links =
              .inr (.ok exitCall, { (m.exec (.callout id target)).1 with pc := target }) := by
            simp only [step, hcode]
            rfl
          have hstep' : m'.step links =
              .inr (.ok exitCall, { (m'.exec (.callout id target)).1 with pc := target }) := by
            simp only [step, hcode']
            rfl
          refine .stop hstep hstep' ha.level fun _ links' hl c R R' => ?_
          refine ih hl (hprog ▸ hp) (back (hprog'.trans (h.program.trans hprog.symm))
            (fun l hm => ?_) c R R')
          rcases hp.jump _ _ _ hcode rfl hm with hz | ⟨r, hr, hm'⟩
          · exact .inl hz
          · exact .inr ⟨r, hr, ha.share l (.inl (h.share l hm'))⟩
        | _ => cases hf

end InStep

end Machine

end Ir

end Recompiler
