import Recompiler.Proofs.Embodiment
import Recompiler.Proofs.Steps

/-!
Parts of runs and what they touch: the bytes of RAM and the code marks that instructions read or
write. Code with exits to labels goes on to its end or to one of them.
-/

namespace Recompiler

open Ir Emit

/-- Something outside the registers and the context. -/
inductive Touch where
  | ram (addr : Int) (bytes : Nat)
  | mark (page : Nat)
  deriving DecidableEq, Repr

namespace Touch

def isRam : Touch → Bool
  | .ram .. => true
  | .mark _ => false

def Inside (mem : Memory) : Touch → Prop
  | .ram addr bytes => 0 ≤ addr ∧ addr + bytes ≤ mem.size
  | .mark page => page < mem.codePages.size

end Touch

namespace Ir

def RamLoad.bytes : RamLoad → Nat
  | .lb | .lbu => 1
  | .lh | .lhu => 2
  | .lw => 4

def RamStore.bytes : RamStore → Nat
  | .sb => 1
  | .sh => 2
  | .sw => 4

namespace Machine

variable {σ : Type}

/-- What an instruction touches. -/
def touches (m : Machine σ) {L : Type} : Instr L → List Touch
  | .load op x off _ => [.ram ((m.get x).toNat + off) op.bytes]
  | .store op _ x off => [.ram ((m.get x).toNat + off) op.bytes]
  | .ltab _ x _ => [.mark (m.get x).toNat]
  | _ => []

theorem touches_clip (m : Machine σ) (i : Instr String) (f : String → Nat) :
    m.touches ((Builder.clip i).mapTarget f) = m.touches i := by
  cases i with
  | const op x v y => cases op <;> rfl
  | _ => rfl

theorem touches_of_isTransfer (m : Machine σ) {i : Instr String} (h : i.isTransfer = true) :
    m.touches i = [] := by
  cases i with
  | load | store | ltab => cases h
  | _ => rfl

variable [Context σ]

theorem step_of_plain (links : Links) (m : Machine σ) {i : Instr String} (hi : i.isPlain = true)
    {f : String → Nat} (hc : m.program.code[m.pc]? = some ((Builder.clip i).mapTarget f)) :
    m.step links = .inl (m.perform i) := by
  rw [step, hc]
  dsimp only
  rw [m.exec_plain hi]
  rfl

end Machine

end Ir

/-- The steps from one machine to another touch `ts`, in this order. -/
inductive Walk (links : Links) : Machine Cpu → List Touch → Machine Cpu → Prop
  | refl (m : Machine Cpu) : Walk links m [] m
  | step {m m' n : Machine Cpu} {i : Ir.Instr Nat} {ts : List Touch}
      (hc : m.program.code[m.pc]? = some i) (hs : m.step links = .inl m') (h : Walk links m' ts n) :
      Walk links m (m.touches i ++ ts) n

namespace Walk

variable {links : Links} {m m' m'' : Machine Cpu} {ts ts' : List Touch}

theorem trans (h : Walk links m ts m') (h' : Walk links m' ts' m'') :
    Walk links m (ts ++ ts') m'' := by
  induction h with
  | refl m => exact h'
  | step hc hs _ ih =>
    rw [List.append_assoc]
    exact .step hc hs (ih h')

theorem run_eq (h : Walk links m ts m') : m.run links = m'.run links := by
  induction h with
  | refl m => rfl
  | step hc hs _ ih =>
    rw [Machine.run_eq_step, hs]
    exact ih

theorem one {i : Ir.Instr Nat} (hc : m.program.code[m.pc]? = some i)
    (hs : m.step links = .inl m') : Walk links m (m.touches i) m' := by
  have h := Walk.step hc hs (.refl m')
  rwa [List.append_nil] at h

end Walk

/-- The code leads from one machine to another, and then on to its end or to a label. -/
inductive Passes : List (Ir.Instr String) → Machine Cpu → List Touch → Machine Cpu →
    Option String → Prop
  | nil (m : Machine Cpu) : Passes [] m [] m none
  | plain {i : Ir.Instr String} {is : List (Ir.Instr String)} {m m' : Machine Cpu}
      {ts : List Touch} {o : Option String} (hi : i.isPlain = true)
      (h : Passes is (m.perform i) ts m' o) : Passes (i :: is) m (m.touches i ++ ts) m' o
  | taken {cond : Cond} {x : HostReg} {v : UInt32} {target : String}
      {is : List (Ir.Instr String)} {m : Machine Cpu}
      (hc : Machine.evalCond cond (m.get x) v = true) :
      Passes (.branchConst cond x v target :: is) m [] m (some target)
  | passed {cond : Cond} {x : HostReg} {v : UInt32} {target : String}
      {is : List (Ir.Instr String)} {m m' : Machine Cpu} {ts : List Touch} {o : Option String}
      (hc : Machine.evalCond cond (m.get x) v = false) (h : Passes is m.next ts m' o) :
      Passes (.branchConst cond x v target :: is) m ts m' o

namespace Passes

variable {is : List (Ir.Instr String)} {m m' : Machine Cpu} {ts : List Touch} {o : Option String}

theorem transfers (h : ∀ i ∈ is, i.isTransfer = true) (m : Machine Cpu) :
    Passes is m [] (is.foldl Machine.perform m) none := by
  induction is generalizing m with
  | nil => exact .nil m
  | cons i is ih =>
    have hi := h i List.mem_cons_self
    have hrest := ih (fun j hj => h j (List.mem_cons_of_mem _ hj)) (m.perform i)
    have := Passes.plain (Instr.isPlain_of_isTransfer hi) hrest
    rwa [m.touches_of_isTransfer hi] at this

/-- In the program, the machine walks to the end of the code, or to the label. -/
theorem walk {W : Finished} {b : Builder} (links : Links) (h : Passes is m ts m' o)
    (hp : (is.foldl Builder.add b).Precedes W.builder) (hat : W.At b m) :
    (o = none → Walk links m ts m' ∧ W.At (is.foldl Builder.add b) m') ∧
      ∀ target, o = some target →
        Walk links m ts { m' with pc := W.position target } ∧ m'.program = W.program := by
  induction h generalizing b with
  | nil m => exact ⟨fun _ => ⟨.refl m, hat⟩, nofun⟩
  | @plain i is m m' ts o hi _ ih =>
    have hadd : (b.add i).Precedes W.builder := (Builder.Precedes.addAll _ is).trans hp
    have hcode := Finished.code_at hadd hat
    have hone := Walk.one hcode (m.step_of_plain links hi hcode)
    rw [m.touches_clip] at hone
    obtain ⟨hend, hexit⟩ := ih hp (Finished.at_add hadd hat (m.exec_place _))
    refine ⟨fun ho => ⟨hone.trans (hend ho).1, (hend ho).2⟩, fun target ho => ?_⟩
    exact ⟨hone.trans (hexit target ho).1, (hexit target ho).2⟩
  | @taken cond x v target is m hc =>
    have hadd : (b.add (.branchConst cond x v target)).Precedes W.builder :=
      (Builder.Precedes.addAll _ is).trans hp
    have hcode : m.program.code[m.pc]? = some (.branchConst cond x v (W.position target)) :=
      Finished.code_at hadd hat
    refine ⟨nofun, ?_⟩
    rintro _ ⟨⟩
    refine ⟨.one hcode ?_, hat.program⟩
    rw [Machine.step, hcode]
    simp only [Machine.exec, hc, reduceIte]
  | @passed cond x v target is m m' ts o hc _ ih =>
    have hadd : (b.add (.branchConst cond x v target)).Precedes W.builder :=
      (Builder.Precedes.addAll _ is).trans hp
    have hcode : m.program.code[m.pc]? = some (.branchConst cond x v (W.position target)) :=
      Finished.code_at hadd hat
    have hone : Walk links m [] m.next := by
      refine .one hcode ?_
      rw [Machine.step, hcode]
      simp only [Machine.exec, hc, Bool.false_eq_true, reduceIte]
    obtain ⟨hend, hexit⟩ := ih hp (Finished.at_add hadd hat ⟨rfl, rfl⟩)
    refine ⟨fun ho => ⟨hone.trans (hend ho).1, (hend ho).2⟩, fun target ho => ?_⟩
    exact ⟨hone.trans (hexit target ho).1, (hexit target ho).2⟩

end Passes

namespace Finished

/-- The machine has come from `m` to the end of a part of the program, and has touched `ts`. -/
structure Reaches (W : Finished) (links : Links) (m : Machine Cpu) (ts : List Touch) (b : Builder)
    (m' : Machine Cpu) : Prop where
  walk : Walk links m ts m'
  place : W.At b m'

namespace Reaches

variable {W : Finished} {links : Links} {m m' m'' : Machine Cpu} {ts ts' : List Touch}
  {b b' : Builder} {is : List (Ir.Instr String)}

theorem refl (h : W.At b m) : W.Reaches links m [] b m := ⟨.refl m, h⟩

theorem trans (h : W.Reaches links m ts b m') (h' : W.Reaches links m' ts' b' m'') :
    W.Reaches links m (ts ++ ts') b' m'' :=
  ⟨h.walk.trans h'.walk, h'.place⟩

theorem passes (h : W.At b m) (hi : Passes is m ts m' none)
    (hp : (is.foldl Builder.add b).Precedes W.builder) :
    W.Reaches links m ts (is.foldl Builder.add b) m' := by
  obtain ⟨hw, hat⟩ := (hi.walk links hp h).1 rfl
  exact ⟨hw, hat⟩

theorem appends {c c' : HostCache} (h : W.At c.builder m) (ha : Appends c c')
    (he : Emitted c.builder m c'.builder m') (hp : c'.builder.Precedes W.builder) :
    W.Reaches links m [] c'.builder m' := by
  obtain ⟨is, hi, hb⟩ := ha.code
  rw [he.eq_of_addAll (fits_of_precedes hp) hb, hb]
  exact passes h (.transfers hi m) (hb ▸ hp)

end Reaches

end Finished

end Recompiler
