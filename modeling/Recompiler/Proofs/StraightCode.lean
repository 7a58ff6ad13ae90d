import Recompiler.Proofs.Agreement

/-!
Programs without jumps, while they are being built. The machine goes through the code so far, and
in the end through all of it.
-/

namespace Recompiler

open Ir

namespace Ir

namespace Instr

/-- The registers that the instruction computes, if it does nothing else. -/
def results? {L : Type} : Instr L → Option (List HostReg)
  | .li _ x | .ldc _ x | .mov _ x | .ltab _ _ x | .const _ _ _ x | .load _ _ _ x => some [x]
  | .bin _ _ _ x | .fcmp _ _ _ _ x => some [x]
  | .mul _ _ _ lo hi => some [lo, hi]
  | _ => none

theorem isPlain_of_results {L : Type} {i : Instr L} {xs : List HostReg} (h : i.results? = some xs) :
    i.isPlain = true := by
  cases i <;> first | rfl | cases h

end Instr

namespace Machine

theorem perform_results (m : Machine Cpu) {i : Instr String} {xs : List HostReg}
    (h : i.results? = some xs) :
    (m.perform i).ctx = m.ctx ∧ ∀ y ∉ xs, (m.perform i).get y = m.get y := by
  have hset (x : HostReg) (v : UInt32) : (m.set x v).next.ctx = m.ctx ∧
      ∀ y ∉ [x], (m.set x v).next.get y = m.get y := by
    refine ⟨ctx_set m x v, fun y hy => get_set_of_ne m v ?_⟩
    rintro rfl
    exact hy (List.mem_singleton_self _)
  cases i with
  | li v x | ldc off x | mov y x | ltab off y x | load op y off x | bin op y z x
  | fcmp size y z cond x =>
    cases h
    exact hset _ _
  | const op y v x =>
    cases h
    cases op <;> exact hset _ _
  | mul signed x y lo hi =>
    cases h
    refine ⟨(ctx_set _ _ _).trans (ctx_set _ _ _), fun y hy => ?_⟩
    rw [List.mem_cons, List.mem_singleton, not_or] at hy
    exact (get_set_of_ne _ _ (Ne.symm hy.2)).trans (get_set_of_ne _ _ (Ne.symm hy.1))
  | _ => cases h

def load (p : Program) (m : Machine Cpu) : Machine Cpu := { m with program := p }

theorem set_load (p : Program) (m : Machine Cpu) (x : HostReg) (v : UInt32) :
    (m.load p).set x v = (m.set x v).load p := by
  unfold set
  split <;> rfl

theorem perform_load (p : Program) (m : Machine Cpu) (i : Instr String) :
    (m.load p).perform i = (m.perform i).load p := by
  have hset (x : HostReg) (v : UInt32) : ((m.load p).set x v).next = (m.set x v).next.load p := by
    rw [set_load]
    rfl
  cases i with
  | li v x | ldc off x | mov y x | ltab off y x | load op y off x | bin op y z x
  | fcmp size y z cond x => exact hset _ _
  | const op y v x => cases op <;> exact hset _ _
  | mul signed x y lo hi =>
    change ((((m.load p).set lo _).set hi _)).next = _
    rw [set_load, set_load]
    rfl
  | fld size off x | fst size x off => cases size <;> rfl
  | _ => rfl

end Machine

namespace Builder

/-- The machine after the code so far, from a machine before it. -/
def play (b : Builder) (m : Machine Cpu) : Machine Cpu := b.code.foldl Machine.perform m

/-- A builder without limit, jumps and labels. -/
structure Straight (b : Builder) : Prop where
  limit : b.limit = none
  exhausted : b.exhausted = false
  pending : b.pending = []

theorem straight_empty : empty.Straight := ⟨rfl, rfl, rfl⟩

theorem clip_clip (i : Instr String) (f : String → String) :
    clip ((clip i).mapTarget f) = (clip i).mapTarget f := by
  cases i with
  | const op x v y => cases op <;> simp [clip, Instr.mapTarget, UInt32.and_assoc]
  | fcmp size x y cond z => simp [clip, Instr.mapTarget]
  | _ => rfl

theorem perform_clip (m : Machine Cpu) (i : Instr String) (f : String → String) :
    m.perform ((clip i).mapTarget f) = m.perform i := by
  unfold Machine.perform
  rw [clip_clip, Instr.mapTarget_mapTarget]
  rfl

theorem target?_clip {i : Instr String} (h : i.isPlain = true) (f : String → String) :
    ((clip i).mapTarget f).target? = none := by
  cases i with
  | const op x v y => cases op <;> rfl
  | branch | branchConst | branchOverflow | jump | callout | link | exit => cases h
  | _ => rfl

theorem Straight.push {b : Builder} (h : b.Straight) (i : Instr String) :
    (b.push i).Straight ∧ (b.push i).code = b.code.push i := by
  have hfits : b.fits i.maxBytes = true := by
    unfold fits
    rw [h.limit]
  unfold Builder.push
  rw [if_pos hfits]
  exact ⟨⟨h.limit, h.exhausted, h.pending⟩, rfl⟩

theorem Straight.add {b : Builder} (h : b.Straight) {i : Instr String} (hi : i.isPlain = true) :
    (b.add i).Straight ∧ ∀ m, (b.add i).play m = (b.play m).perform i := by
  have hadd : b.add i = b.push ((clip i).mapTarget b.scopedName) := by
    unfold Builder.add
    dsimp only
    rw [target?_clip hi]
  obtain ⟨hs, hc⟩ := h.push ((clip i).mapTarget b.scopedName)
  rw [hadd]
  refine ⟨hs, fun m => ?_⟩
  unfold play
  rw [hc, Array.foldl_push, perform_clip]

end Builder

end Ir

theorem Emitted.play {b b' : Builder} {m₀ m m' : Machine Cpu} (h : Emitted b m b' m')
    (hb : b.Straight) (hm : b.play m₀ = m) : b'.Straight ∧ b'.play m₀ = m' := by
  obtain ⟨is, hi, rfl, rfl⟩ := h
  induction is generalizing b m with
  | nil => exact ⟨hb, hm⟩
  | cons i is ih =>
    obtain ⟨hs, hp⟩ := hb.add (hi i List.mem_cons_self)
    exact ih hs (by rw [hp, hm]) fun j hj => hi j (List.mem_cons_of_mem _ hj)

theorem Emitted.load {b b' : Builder} {m m' : Machine Cpu} (h : Emitted b m b' m') (p : Program) :
    Emitted b (m.load p) b' (m'.load p) := by
  obtain ⟨is, hi, hb, rfl⟩ := h
  refine ⟨is, hi, hb, ?_⟩
  clear hi hb
  induction is generalizing m with
  | nil => rfl
  | cons i is ih =>
    rw [List.foldl_cons, List.foldl_cons, Machine.perform_load]
    exact ih

theorem Emitted.run {c : HostCache} {m m' : Machine Cpu} (he : Emitted .empty m c.builder m')
    (hpc : m.pc = 0) : ∃ p, (c.emit (.exit 0)).builder.build = .ok p ∧
      ∀ links, (m.load p).run links = some (.ok 0, (m'.load p).halted) := by
  obtain ⟨hstraight, -⟩ := he.play Builder.straight_empty rfl
  obtain ⟨hfinal, -⟩ := hstraight.push (.exit 0)
  have hbuild : ∃ p, (c.emit (.exit 0)).builder.build = .ok p := by
    change ∃ p, (c.builder.push (.exit 0)).build = .ok p
    unfold Builder.build
    rw [hfinal.pending]
    exact ⟨_, rfl⟩
  obtain ⟨p, hp⟩ := hbuild
  refine ⟨p, hp, fun links => ?_⟩
  let W : Finished := ⟨{ (default : Emitter) with cache := c.emit (.exit 0) }, p, hfinal.exhausted, hp⟩
  have hprec : (c.builder.add (.exit 0)).Precedes W.builder := .refl _
  have hat : W.At .empty (m.load p) := ⟨rfl, hpc⟩
  obtain ⟨hat', hrun⟩ := (he.load p).run_eq ((Builder.Precedes.add _ _).trans hprec) hat links
  have hexit : (m'.load p).program.code[(m'.load p).pc]? = some (.exit 0) :=
    Finished.code_at (i := .exit 0) hprec hat'
  rw [hrun, Machine.run, hexit]
  rfl

end Recompiler
