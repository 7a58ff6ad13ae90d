import Recompiler.Proofs.Agreement
import Recompiler.Proofs.SaveArea

/-!
Two machines in the same place of the same program, on states that differ at most in the save
area. They stay together as long as each instruction reads registers on which they agree.
-/

namespace Recompiler

open Ir Emit

namespace Ir

/-- Where a program keeps values of its own: a register of either kind, or a word of the save
area. -/
inductive Loc where
  | reg (x : HostReg)
  | fp (x : FpReg)
  | save (r : Fin 9)
  deriving DecidableEq, Repr

namespace Instr

variable {L : Type}

/-- The registers that an instruction reads. -/
def sources : Instr L → List Loc
  | .mov x _ | .stc x _ | .stcx x _ | .ltab _ x _ | .const _ x _ _ | .load _ x _ _ => [.reg x]
  | .branchConst _ x _ _ => [.reg x]
  | .bin _ x y _ | .mul _ x y _ _ | .store _ x y _ | .branch _ x y _ => [.reg x, .reg y]
  | .branchOverflow _ x y _ => [.reg x, .reg y]
  | .fst _ x _ | .funary _ _ x _ => [.fp x]
  | .fbin _ _ x y _ | .fcmp _ x y _ _ => [.fp x, .fp y]
  | .li .. | .ldc .. | .stci .. | .jump _ | .callout .. | .link _ | .exit _ | .fld .. => []

/-- The registers that an instruction writes. -/
def results : Instr L → List Loc
  | .li _ x | .ldc _ x | .mov _ x | .ltab _ _ x | .const _ _ _ x | .load _ _ _ x => [.reg x]
  | .bin _ _ _ x | .fcmp _ _ _ _ x => [.reg x]
  | .mul _ _ _ lo hi => [.reg lo, .reg hi]
  | .fld _ _ x | .fbin _ _ _ _ x | .funary _ _ _ x => [.fp x]
  | _ => []

def IsBlind : Instr L → Prop
  | .ldc off _ | .fld _ off _ => 64 ≤ off
  | _ => True

end Instr

namespace Machine

variable {m m' : Machine Cpu}

def Share (m m' : Machine Cpu) : Loc → Prop
  | .reg x => m.get x = m'.get x
  | .fp x => m.getFp x = m'.getFp x
  | .save r => m.ctx.saved.get r = m'.ctx.saved.get r

theorem share_rz (m m' : Machine Cpu) : Share m m' (.reg .rz) := by
  simp [Share, get]

def Level (m m' : Machine Cpu) : Prop := m'.ctx = m.ctx.saving m'.ctx.saved

theorem share_set (x : HostReg) (v : UInt32) {l : Loc} (h : Share m m' l ∨ l = .reg x) :
    Share (m.set x v) (m'.set x v) l := by
  unfold set
  split
  · rename_i hx
    exact h.elim id fun hl => hl ▸ hx ▸ share_rz m m'
  · cases l with
    | fp y => exact h.resolve_right (by simp)
    | save r => exact h.resolve_right (by simp)
    | reg y =>
      simp only [Share, get] at h ⊢
      split
      · rfl
      · rename_i hy
        rw [if_neg hy, if_neg hy, Loc.reg.injEq] at h
        simp only [Array.getD_eq_getD_getElem?] at h ⊢
        rw [Vector.toArray_setIfInBounds, Vector.toArray_setIfInBounds,
          Array.getElem?_setIfInBounds,
          Array.getElem?_setIfInBounds, m.regs.size_toArray, m'.regs.size_toArray]
        split
        · rfl
        · rename_i hne
          exact h.resolve_right fun he => hne (he ▸ rfl)

theorem share_setFp (x : FpReg) (v : UInt64) {l : Loc} (h : Share m m' l ∨ l = .fp x) :
    Share (m.setFp x v) (m'.setFp x v) l := by
  cases l with
  | reg y => exact h.resolve_right (by simp)
  | save r => exact h.resolve_right (by simp)
  | fp y =>
    simp only [Share, getFp, setFp, Loc.fp.injEq] at h ⊢
    simp only [Array.getD_eq_getD_getElem?] at h ⊢
    rw [Vector.toArray_setIfInBounds, Vector.toArray_setIfInBounds, Array.getElem?_setIfInBounds,
      Array.getElem?_setIfInBounds, m.fregs.size_toArray, m'.fregs.size_toArray]
    split
    · rfl
    · rename_i hne
      exact h.resolve_right fun he => hne (he ▸ rfl)

theorem share_ctx {c c' : Cpu} (hs : ∀ r, Share m m' (.save r) → c.saved.get r = c'.saved.get r)
    {l : Loc} (h : Share m m' l) : Share { m with ctx := c } { m' with ctx := c' } l := by
  cases l with
  | reg x => exact h
  | fp x => exact h
  | save r => exact hs r h

theorem share_storeWord (off : Int) (v : UInt32) {r : Fin 9} {c c' : Cpu}
    (h : c.saved.get r = c'.saved.get r) :
    (c.storeWord off v).saved.get r = (c'.storeWord off v).saved.get r := by
  rw [Cpu.saved_storeWord, Cpu.saved_storeWord]
  unfold Cpu.savedAfter
  split
  · rename_i slot _
    by_cases hr : slot = r
    · rw [hr, Vector.get_put_self, Vector.get_put_self]
    · rw [Vector.get_put_of_ne _ _ hr, Vector.get_put_of_ne _ _ hr, h]
  · exact h

namespace Level

theorem symm (h : Level m m') : Level m' m := by
  unfold Level
  rw [h]
  rfl

theorem loadWord (h : Level m m') {off : Int} (ho : 64 ≤ off) :
    Context.loadWord m'.ctx off = Context.loadWord m.ctx off := by
  rw [h]
  exact Cpu.loadWord_saving _ _ ho

theorem storeWord (h : Level m m') (off : Int) (v : UInt32) :
    Level { m with ctx := Context.storeWord m.ctx off v }
      { m' with ctx := Context.storeWord m'.ctx off v } := by
  change Cpu.storeWord m'.ctx off v = (m.ctx.storeWord off v).saving (m'.ctx.storeWord off v).saved
  rw [h, Cpu.storeWord_saving]
  rfl

theorem mapRam (h : Level m m') (f : Array UInt32 → Array UInt32) :
    Level { m with ctx := Context.mapRam f m.ctx } { m' with ctx := Context.mapRam f m'.ctx } := by
  unfold Level
  rw [h]
  rfl

end Level

/-- After an instruction the machines go on in the same way, and agree on its results and on all
that they agreed on before. -/
structure Abreast (m m' : Machine Cpu) (i : Ir.Instr Nat) : Prop where
  next : (m'.exec i).2 = (m.exec i).2
  level : Level (m.exec i).1 (m'.exec i).1
  share : ∀ l, Share m m' l ∨ l ∈ i.results → Share (m.exec i).1 (m'.exec i).1 l

namespace Abreast

theorem set (h : Level m m') {i : Ir.Instr Nat} {x : HostReg} {v v' : UInt32} {n : Next}
    (hx : m.exec i = (m.set x v, n)) (hx' : m'.exec i = (m'.set x v', n)) (hv : v' = v)
    (hr : i.results = [.reg x]) : Abreast m m' i := by
  subst hv
  refine ⟨by rw [hx, hx'], ?_, fun l hl => ?_⟩
  · rw [hx, hx']
    simpa [Level] using h
  · rw [hx, hx']
    rw [hr, List.mem_singleton] at hl
    exact share_set x _ hl

theorem setFp (h : Level m m') {i : Ir.Instr Nat} {x : FpReg} {v v' : UInt64} {n : Next}
    (hx : m.exec i = (m.setFp x v, n)) (hx' : m'.exec i = (m'.setFp x v', n)) (hv : v' = v)
    (hr : i.results = [.fp x]) : Abreast m m' i := by
  subst hv
  refine ⟨by rw [hx, hx'], ?_, fun l hl => ?_⟩
  · rw [hx, hx']
    exact h
  · rw [hx, hx']
    rw [hr, List.mem_singleton] at hl
    exact share_setFp x _ hl

theorem context {i : Ir.Instr Nat} {c c' : Cpu} {n n' : Next}
    (hx : m.exec i = ({ m with ctx := c }, n)) (hx' : m'.exec i = ({ m' with ctx := c' }, n'))
    (hn : n' = n) (h : c' = c.saving c'.saved)
    (hs : ∀ r, Share m m' (.save r) → c.saved.get r = c'.saved.get r) (hr : i.results = []) :
    Abreast m m' i := by
  subst hn
  refine ⟨by rw [hx, hx'], ?_, fun l hl => ?_⟩
  · rw [hx, hx']
    exact h
  · rw [hx, hx']
    rw [hr] at hl
    exact share_ctx hs (hl.resolve_right List.not_mem_nil)

end Abreast

theorem share_callout (h : Level m m') (id : Int) (target : Nat) :
    Abreast m m' (.callout id target) := by
  refine ⟨rfl, h.storeWord 16 (UInt32.ofInt id), fun l hl => ?_⟩
  replace hl : Share m m' l := hl.resolve_right List.not_mem_nil
  cases l with
  | fp x => exact hl
  | save r => exact share_storeWord 16 _ hl
  | reg x =>
    simp only [Share, get, exec] at hl ⊢
    split
    · rfl
    · rename_i hx
      rw [if_neg hx, if_neg hx] at hl
      simp only [Array.getD_eq_getD_getElem?, Vector.toArray_ofFn] at hl ⊢
      by_cases hn : x.num < 16
      · have hl' : m.regs[x.num] = m'.regs[x.num] := by simpa [hn] using hl
        simp only [hn, Array.getElem?_ofFn, dite_true, Option.getD_some]
        split
        · rfl
        · exact hl'
      · simp [hn]

/-- An instruction that reads only what the machines agree on. -/
theorem abreast (h : Level m m') {i : Ir.Instr Nat} (hs : ∀ l ∈ i.sources, Share m m' l)
    (hb : i.IsBlind) : Abreast m m' i := by
  have hreg (x : HostReg) (hx : Loc.reg x ∈ i.sources) : m'.get x = m.get x := (hs _ hx).symm
  have hfp (x : FpReg) (hx : Loc.fp x ∈ i.sources) : m'.getFp x = m.getFp x := (hs _ hx).symm
  have hram : Context.ram m'.ctx = Context.ram m.ctx := by rw [h]; rfl
  have htable (off : Int) (v : UInt32) :
      Context.tableByte m'.ctx off v = Context.tableByte m.ctx off v := by rw [h]; rfl
  cases i with
  | li v x => exact .set h rfl rfl rfl rfl
  | mov x y => exact .set h rfl rfl (hreg x (by simp [Instr.sources])) rfl
  | ldc off x => exact .set h rfl rfl (h.loadWord hb) rfl
  | ltab off x y =>
    refine .set h rfl rfl ?_ rfl
    rw [hreg x (by simp [Instr.sources]), htable]
  | bin op x y z =>
    refine .set h rfl rfl ?_ rfl
    rw [hreg x (by simp [Instr.sources]), hreg y (by simp [Instr.sources])]
  | const op x v y =>
    refine .set h rfl rfl ?_ rfl
    rw [hreg x (by simp [Instr.sources])]
  | load op x off y =>
    refine .set h rfl rfl ?_ rfl
    rw [address, address, hreg x (by simp [Instr.sources]), hram]
  | fcmp size x y cond z =>
    refine .set h rfl rfl ?_ rfl
    rw [hfp x (by simp [Instr.sources]), hfp y (by simp [Instr.sources])]
  | mul signed x y lo hi =>
    have hv : product signed (m'.get x) (m'.get y) = product signed (m.get x) (m.get y) := by
      rw [hreg x (by simp [Instr.sources]), hreg y (by simp [Instr.sources])]
    refine ⟨rfl, ?_, fun l hl => ?_⟩
    · simpa [Level, exec] using h
    · simp only [exec, hv]
      simp only [Instr.results, List.mem_cons, List.not_mem_nil, or_false] at hl
      refine share_set hi _ ?_
      rcases hl with hl | hl | hl
      · exact .inl (share_set lo _ (.inl hl))
      · exact .inl (share_set lo _ (.inr hl))
      · exact .inr hl
  | stc x off =>
    refine .context rfl rfl rfl ?_ ?_ rfl
    · rw [hreg x (by simp [Instr.sources])]
      exact h.storeWord off _
    · rw [hreg x (by simp [Instr.sources])]
      exact fun r hr => share_storeWord off _ hr
  | stci v off =>
    exact .context rfl rfl rfl (h.storeWord off v) (fun r hr => share_storeWord off v hr) rfl
  | stcx x off =>
    refine .context rfl rfl rfl ?_ ?_ rfl
    · rw [hreg x (by simp [Instr.sources])]
      exact h.storeWord off _
    · rw [hreg x (by simp [Instr.sources])]
      exact fun r hr => share_storeWord off _ hr
  | store op y x off =>
    refine .context rfl rfl rfl ?_ (fun r hr => hr) rfl
    rw [address, address, hreg x (by simp [Instr.sources]), hreg y (by simp [Instr.sources])]
    exact h.mapRam _
  | branch cond x y target =>
    refine .context rfl rfl ?_ h (fun r hr => hr) rfl
    rw [hreg x (by simp [Instr.sources]), hreg y (by simp [Instr.sources])]
  | branchConst cond x v target =>
    refine .context rfl rfl ?_ h (fun r hr => hr) rfl
    rw [hreg x (by simp [Instr.sources])]
  | branchOverflow sub x y target =>
    refine .context rfl rfl ?_ h (fun r hr => hr) rfl
    rw [hreg x (by simp [Instr.sources]), hreg y (by simp [Instr.sources])]
  | jump | link | exit => exact .context rfl rfl rfl h (fun r hr => hr) rfl
  | callout id target => exact share_callout h id target
  | fld size off x =>
    cases size with
    | single => exact .setFp h rfl rfl (congrArg UInt32.toUInt64 (h.loadWord hb)) rfl
    | double =>
      have hb' : 64 ≤ off + 4 := Int.le_trans hb (by omega)
      refine .setFp h rfl rfl ?_ rfl
      rw [Context.loadDouble, Context.loadDouble, h.loadWord hb, h.loadWord hb']
  | fst size x off =>
    cases size with
    | single =>
      refine .context rfl rfl rfl ?_ ?_ rfl
      · rw [hfp x (by simp [Instr.sources])]
        exact h.storeWord off _
      · rw [hfp x (by simp [Instr.sources])]
        exact fun r hr => share_storeWord off _ hr
    | double =>
      refine .context rfl rfl rfl ?_ ?_ rfl
      · rw [hfp x (by simp [Instr.sources])]
        exact (h.storeWord off _).storeWord (off + 4) _
      · rw [hfp x (by simp [Instr.sources])]
        exact fun r hr => share_storeWord (off + 4) _ (share_storeWord off _ hr)
  | fbin op size x y z =>
    refine .setFp h rfl rfl ?_ rfl
    rw [hfp x (by simp [Instr.sources]), hfp y (by simp [Instr.sources])]
  | funary op size x y =>
    refine .setFp h rfl rfl ?_ rfl
    rw [hfp x (by simp [Instr.sources])]

end Machine

end Ir

end Recompiler
