import Recompiler.Proofs.Charts
import Recompiler.Proofs.Emission

/-!
Charts of programs that are being built. A jump back to the fast path, and any other jump within the
body of a program, finds the clock where it was; only the check for a due event jumps to a label
behind which the instructions have been counted.
-/

namespace Recompiler

open Ir Emit

open Assertion

namespace Ir

namespace Instr

variable {L M : Type}

/-- The instruction stays in the program and leaves the clock alone. -/
def IsQuiet : Instr L → Prop
  | .stc _ off | .stci _ off | .stcx _ off | .fst .single _ off => Cpu.IsOffClock off
  | .fst .double _ off => Cpu.IsOffClock off ∧ Cpu.IsOffClock (off + 4)
  | .callout .. | .link _ | .exit _ => False
  | _ => True

theorem isQuiet_clip {i : Instr String} (h : i.IsQuiet) : (Builder.clip i).IsQuiet := by
  unfold Builder.clip
  split <;> exact h

theorem isQuiet_mapTarget {i : Instr L} (h : i.IsQuiet) (f : L → M) : (i.mapTarget f).IsQuiet := by
  cases i with
  | fst size x off => cases size <;> exact h
  | _ => exact h

end Instr

namespace Machine

/-- What a quiet instruction leaves as it was. -/
theorem exec_of_quiet (m : Machine Cpu) {i : Ir.Instr Nat} (h : i.IsQuiet) :
    (m.exec i).1.ctx.clock = m.ctx.clock ∧
      (∀ x, Loc.reg x ∉ i.results → (m.exec i).1.get x = m.get x) ∧
      ((m.exec i).2 = .advance ∨ ∃ t, (m.exec i).2 = .jump t) := by
  have hset (n : Machine Cpu) (y : HostReg) (v : UInt32) : (n.set y v).ctx.clock = n.ctx.clock ∧
      ∀ x, x ≠ y → (n.set y v).get x = n.get x :=
    ⟨by rw [ctx_set], fun x hx => get_set_of_ne n v (Ne.symm hx)⟩
  have hone (y : HostReg) (v : UInt32) : (m.set y v).ctx.clock = m.ctx.clock ∧
      (∀ x, Loc.reg x ∉ [Loc.reg y] → (m.set y v).get x = m.get x) :=
    ⟨(hset m y v).1, fun x hx => (hset m y v).2 x fun he => hx (he ▸ List.mem_singleton_self _)⟩
  cases i with
  | li v y | ldc off y | mov z y | ltab off z y | load op z off y | bin op z w y | const op z v y
  | fcmp size z w cond y => exact ⟨(hone y _).1, (hone y _).2, .inl rfl⟩
  | mul signed z w lo hi =>
    refine ⟨((hset _ hi _).1.trans (hset m lo _).1), fun x hx => ?_, .inl rfl⟩
    simp only [Instr.results, List.mem_cons, Loc.reg.injEq, List.not_mem_nil, or_false,
      not_or] at hx
    exact ((hset _ hi _).2 x hx.2).trans ((hset m lo _).2 x hx.1)
  | stc y off | stci v off | stcx y off =>
    exact ⟨Cpu.clock_storeWord _ _ h, fun _ _ => rfl, .inl rfl⟩
  | fst size y off =>
    cases size with
    | single => exact ⟨Cpu.clock_storeWord _ _ h, fun _ _ => rfl, .inl rfl⟩
    | double =>
      refine ⟨?_, fun _ _ => rfl, .inl rfl⟩
      exact (Cpu.clock_storeWord _ _ h.2).trans (Cpu.clock_storeWord _ _ h.1)
  | store op y x off => exact ⟨rfl, fun _ _ => rfl, .inl rfl⟩
  | fld size off x => cases size <;> exact ⟨rfl, fun _ _ => rfl, .inl rfl⟩
  | fbin | funary => exact ⟨rfl, fun _ _ => rfl, .inl rfl⟩
  | branch | branchConst | branchOverflow =>
    refine ⟨rfl, fun _ _ => rfl, ?_⟩
    simp only [exec]
    split
    · exact .inr ⟨_, rfl⟩
    · exact .inl rfl
  | jump t => exact ⟨rfl, fun _ _ => rfl, .inr ⟨t, rfl⟩⟩
  | callout | link | exit => exact absurd h id

end Machine

namespace Upholds

variable {L : Type} {T : Terms} {K K' fall : Assertion} {i : Instr L} {land : L → Assertion}

theorem mapTarget {M : Type} (h : Upholds T K i fall land) (f : L → M) {land' : M → Assertion}
    {fall' : Assertion} (hf : ∀ k get c, fall k get c → fall' k get c)
    (hl : ∀ t k get c, land t k get c → land' (f t) k get c) :
    Upholds T K (i.mapTarget f) fall' land' := by
  intro k m hm
  have hup := h k m hm
  rw [Instr.mapTarget_mapTarget, Instr.target?_mapTarget,
    show ((fun _ => 0 : M → Nat) ∘ f) = fun _ => 0 from rfl]
  generalize m.exec (i.mapTarget fun _ => 0) = r at hup ⊢
  obtain ⟨n, next⟩ := r
  cases next with
  | advance => exact hf _ _ _ hup
  | jump _ =>
    intro t ht
    obtain ⟨t', ht', rfl⟩ := Option.map_eq_some_iff.mp ht
    exact hl t' _ _ _ (hup t' ht')
  | call _ =>
    refine ⟨hup.1, fun t ht get c hc => ?_⟩
    obtain ⟨t', ht', rfl⟩ := Option.map_eq_some_iff.mp ht
    exact hl t' _ _ _ (hup.2 t' ht' get c hc)
  | link cell => exact ⟨hup.1, hup.2.1, hf _ _ _ hup.2.2⟩
  | exit status => exact hup

/-- A quiet instruction keeps what is known of the clock and of registers that it does not
write. -/
theorem of_quiet {P : Clock → (HostReg → UInt32) → Clock → Prop} (hi : i.IsQuiet)
    (hp : ∀ k get get' c, (∀ x, Loc.reg x ∉ i.results → get' x = get x) → P k get c → P k get' c)
    (hl : ∀ t, i.target? = some t → ∀ k get c, P k get c.clock → land t k get c) :
    Upholds T (fun k get c => P k get c.clock) i (fun k get c => P k get c.clock) land := by
  intro k m hm
  obtain ⟨hclock, hget, hnext⟩ := m.exec_of_quiet (Instr.isQuiet_mapTarget hi fun _ => 0)
  rw [Instr.results_mapTarget] at hget
  have hafter : P k (m.exec (i.mapTarget fun _ => 0)).1.get
      (m.exec (i.mapTarget fun _ => 0)).1.ctx.clock := by
    rw [hclock]
    exact hp k m.get _ _ hget hm
  generalize m.exec (i.mapTarget fun _ => 0) = r at hafter hnext
  obtain ⟨n, next⟩ := r
  rcases hnext with rfl | ⟨t, rfl⟩
  · exact hafter
  · exact fun t' ht => hl t' ht _ _ _ hafter

theorem unmoved_of_quiet (hi : i.IsQuiet) (hl : ∀ t, i.target? = some t → land t = unmoved) :
    Upholds T unmoved i unmoved land := by
  refine of_quiet (P := fun k _ c => c = k) hi (fun _ _ _ _ _ h => h) fun t ht k get c h => ?_
  rw [hl t ht]
  exact h

end Upholds

end Ir

namespace Emit

def IsDue (name : String) : Prop := ∃ n, name = tag "due" n

open Classical in
noncomputable def awaited (T : Terms) (name : String) : Assertion :=
  if IsDue name then counted T else unmoved

theorem awaited_due (T : Terms) (n : Nat) : awaited T (tag "due" n) = counted T :=
  if_pos ⟨n, rfl⟩

theorem awaited_tag (T : Terms) {kind : String} (hk : kind ∈ labelKinds) (hd : kind ≠ "due")
    (n : Nat) : awaited T (tag kind n) = unmoved :=
  if_neg fun ⟨_, h⟩ => hd (tag_inj hk (by decide) h).1

theorem counted_of_awaited {T : Terms} {name : String} {k : Clock} {get : HostReg → UInt32}
    {c : Cpu} (h : awaited T name k get c) : counted T k get c := by
  unfold awaited at h
  split at h
  · exact h
  · exact counted_of_unmoved T h

/-- What holds before each instruction that has been added. -/
structure Draft (T : Terms) (A : Nat → Assertion) (b : Builder) : Prop where
  enter : ∀ k get c, unmoved k get c → A 0 k get c
  pass : ∀ pos i, b.code[pos]? = some i → Upholds T (A pos) i (A (pos + 1)) (awaited T)
  label : ∀ name pos, b.labels.lookup name = some pos → pos ≤ b.code.size ∧
    ∀ k get c, awaited T name k get c → A pos k get c

/-- The program so far is in order, and `K` holds at its end. Once an instruction has been dropped
there is nothing to say. -/
def Drafted (T : Terms) (K : Assertion) (b : Builder) : Prop :=
  b.exhausted = true ∨ ∃ A, Draft T A b ∧ A b.code.size = K

namespace Drafted

variable {T : Terms} {K K' : Assertion} {b b' : Builder} {i : Ir.Instr String} {name : String}

theorem create (T : Terms) (limit : Option Nat) :
    Drafted T unmoved (Builder.empty.setBudget limit) := by
  refine .inr ⟨fun _ => unmoved, ⟨fun _ _ _ h => h, fun pos i hi => ?_, fun name pos hpos => ?_⟩,
    rfl⟩
  · simp [Builder.setBudget, Builder.empty] at hi
  · simp [Builder.setBudget, Builder.empty] at hpos

/-- Less is known at the end. -/
theorem mono (h : Drafted T K b) (hk : ∀ k get c, K k get c → K' k get c) : Drafted T K' b := by
  refine h.imp_right fun ⟨A, hA, hK⟩ => ?_
  have hle (pos : Nat) (k : Clock) (get : HostReg → UInt32) (c : Cpu) (hc : A pos k get c) :
      Function.update A b.code.size K' pos k get c := by
    by_cases he : pos = b.code.size
    · subst he
      rw [Function.update_self]
      exact hk _ _ _ (hK ▸ hc)
    · rwa [Function.update_of_ne he]
  refine ⟨Function.update A b.code.size K', ⟨fun k get c hc => hle _ _ _ _ (hA.enter k get c hc),
    fun pos i hi => ?_, fun name pos hpos => ?_⟩, Function.update_self ..⟩
  · have hlt := (Array.getElem?_eq_some_iff.mp hi).1
    rw [Function.update_of_ne (Nat.ne_of_lt hlt)]
    intro k m hm
    have hp := hA.pass pos i hi k m hm
    generalize m.exec (i.mapTarget fun _ => 0) = r at hp ⊢
    obtain ⟨n, next⟩ := r
    cases next with
    | advance => exact hle _ _ _ _ hp
    | link cell => exact ⟨hp.1, hp.2.1, hle _ _ _ _ hp.2.2⟩
    | _ => exact hp
  · obtain ⟨hsize, hl⟩ := hA.label name pos hpos
    exact ⟨hsize, fun k get c hc => hle _ _ _ _ (hl k get c hc)⟩

theorem add (h : Drafted T K b)
    (hi : Upholds T K ((Builder.clip i).mapTarget b.scopedName) K' (awaited T)) :
    Drafted T K' (b.add i) := by
  cases hx : (b.add i).exhausted with
  | true => exact .inl hx
  | false =>
    have hcode := Builder.code_add hx
    rcases h with h | ⟨A, hA, hK⟩
    · rw [(Builder.Precedes.add b i).exhausted h] at hx
      cases hx
    have hold {pos : Nat} (hp : pos ≤ b.code.size) :
        Function.update A (b.code.size + 1) K' pos = A pos :=
      Function.update_of_ne (by omega) ..
    refine .inr ⟨Function.update A (b.code.size + 1) K', ⟨?_, fun pos j hj => ?_,
      fun name pos hpos => ?_⟩, ?_⟩
    · rw [hold (Nat.zero_le _)]
      exact hA.enter
    · rw [hcode, Array.getElem?_push] at hj
      split at hj
      · cases hj
        subst pos
        rw [hold (Nat.le_refl _), Function.update_self, hK]
        exact hi
      · have hlt := (Array.getElem?_eq_some_iff.mp hj).1
        rw [hold (Nat.le_of_lt hlt), hold hlt]
        exact hA.pass pos j hj
    · rw [Builder.labels_add] at hpos
      obtain ⟨hsize, hl⟩ := hA.label name pos hpos
      rw [hcode, Array.size_push, hold hsize]
      exact ⟨Nat.le_succ_of_le hsize, hl⟩
    · rw [hcode, Array.size_push, Function.update_self]

theorem label (h : Drafted T K b) (hl : b.label name = .ok b')
    (hk : ∀ k get c, awaited T (b.scopedName name) k get c → K k get c) : Drafted T K b' := by
  unfold Builder.label at hl
  dsimp only at hl
  split at hl
  · cases hl
  · cases hl
    refine h.imp_right fun ⟨A, hA, hK⟩ => ⟨A, ⟨hA.enter, hA.pass, fun other pos hpos => ?_⟩, hK⟩
    rw [List.lookup_cons] at hpos
    split at hpos
    · rename_i he
      cases hpos
      rw [beq_iff_eq.mp he]
      exact ⟨Nat.le_refl _, fun k get c hc => hK ▸ hk k get c hc⟩
    · exact hA.label other pos hpos

/-- A program that has been built keeps to the terms. -/
theorem keeps (h : Drafted T (counted T) b) (hx : b.exhausted = false) {p : Program}
    (hp : b.build = .ok p) : p.Keeps T := by
  rcases h with h | ⟨A, hA, hK⟩
  · rw [h] at hx
    cases hx
  have hcode := Builder.build_ok hp
  let position (name : String) : Nat := (b.labels.lookup name).getD b.code.size
  have hland (name : String) (k : Clock) (get : HostReg → UInt32) (c : Cpu)
      (hc : awaited T name k get c) : A (position name) k get c := by
    cases hl : b.labels.lookup name with
    | none =>
      rw [show position name = b.code.size by simp only [position, hl, Option.getD_none], hK]
      exact counted_of_awaited hc
    | some pos =>
      rw [show position name = pos by simp only [position, hl, Option.getD_some]]
      exact (hA.label name pos hl).2 k get c hc
  have hbound (name : String) : position name ≤ b.code.size := by
    cases hl : b.labels.lookup name with
    | none => simp only [position, hl, Option.getD_none, Nat.le_refl]
    | some pos =>
      simp only [position, hl, Option.getD_some]
      exact (hA.label name pos hl).1
  refine ⟨fun pos => if pos ≤ b.code.size then A pos else counted T, ?_, fun pos i hi => ?_,
    fun pos hpos => ?_⟩
  · rw [if_pos (Nat.zero_le _)]
    exact hA.enter
  · rw [hcode, Array.getElem?_map, Option.map_eq_some_iff] at hi
    obtain ⟨j, hj, rfl⟩ := hi
    have hlt := (Array.getElem?_eq_some_iff.mp hj).1
    rw [if_pos (Nat.le_of_lt hlt), if_pos (Nat.succ_le_of_lt hlt)]
    refine (hA.pass pos j hj).mapTarget position (fun _ _ _ h => h) fun name k get c hc => ?_
    rw [if_pos (hbound name)]
    exact hland name k get c hc
  · rw [hcode, Array.getElem?_map, Option.map_eq_none_iff, Array.getElem?_eq_none_iff] at hpos
    intro k get c hc
    split at hc
    · rename_i hle
      rw [Nat.le_antisymm hle hpos, hK] at hc
      exact hc
    · exact hc

end Drafted

end Emit

end Recompiler
