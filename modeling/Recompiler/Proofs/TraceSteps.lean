import Recompiler.Proofs.Boundaries
import Recompiler.Proofs.BranchCode
import Recompiler.Proofs.Layouts
import Recompiler.Proofs.StandIns

/-!
Steps of the interpreter along a trace in RAM. Each word is fetched without side effects, what the
analyses know holds in front of it, and the configuration of the trace still suits the state after
it.
-/

namespace Recompiler

open Interp

variable {cfg : Emit.Config} {k : Constants} {w : Widths} {c d : Cpu} {mem : Memory}
  {b i r s : Instr} {rest : List Instr} {pc : UInt32}

/-- RAM has the words `raw` from the virtual address `pc` on. -/
def Memory.Contains (mem : Memory) : UInt32 → List Instr → Prop
  | _, [] => True
  | pc, r :: rest =>
    mem.inRam (physical pc) 4 = true ∧ mem.readRam (physical pc) .word = r.word.toUInt64 ∧
      mem.Contains (pc + 4) rest

/-- The place of a word in the cached direct segment. -/
structure Kseg0Word (pc : UInt32) : Prop where
  low : 0x80000000 ≤ pc
  high : pc < 0xa0000000
  aligned : pc.toNat % 4 = 0

namespace Kseg0Word

theorem direct (h : Kseg0Word pc) (hr : mem.inRam (physical pc) 4 = true) :
    Direct mem pc .word false :=
  ⟨h.low, UInt32.lt_trans h.high (by decide), h.aligned, of_decide_eq_true hr, nofun⟩

theorem next (h : Kseg0Word pc) (hr : mem.inRam (physical pc) 4 = true) (hc : mem.Created) :
    Kseg0Word (pc + 4) := by
  obtain ⟨n, -, hn, hsize, -⟩ := hc.pages
  have hfits : (physical pc).toNat + 4 ≤ mem.size := of_decide_eq_true hr
  have hlow : 2147483648 ≤ pc.toNat := UInt32.le_iff_toNat_le.mp h.low
  have hhigh : pc.toNat < 2684354560 := UInt32.lt_iff_toNat_lt.mp h.high
  have haligned := h.aligned
  rw [toNat_physical] at hfits
  have hadd : (pc + 4).toNat = pc.toNat + 4 := by
    rw [UInt32.toNat_add]
    exact Nat.mod_eq_of_lt (by change pc.toNat + 4 < _; omega)
  refine ⟨UInt32.le_iff_toNat_le.mpr ?_, UInt32.lt_iff_toNat_lt.mpr ?_, ?_⟩ <;> rw [hadd]
  · exact Nat.le_add_right_of_le hlow
  · change pc.toNat + 4 < 2684354560
    omega
  · omega

theorem fetch (h : Kseg0Word pc) (hr : c.mem.Contains pc (r :: rest))
    (hdev : ∀ p : UInt32, p.toNat < c.mem.size → c.mem.deviceAt? p = none) :
    c.fetch pc = (some r, c) := by
  rw [Cpu.fetch, (h.direct hr.1).load_eq hdev, hr.2.1]
  dsimp only
  rw [UInt32.toUInt32_toUInt64]

end Kseg0Word

theorem Emit.Config.Suits.of_layout (h : cfg.Suits c) (hl : c.SameLayout d)
    (hw : d.wideFpRegs = c.wideFpRegs) : cfg.Suits d := by
  have hsize : d.mem.size = c.mem.size := by
    rw [Memory.size, hl.ram, Memory.size]
  have hdev (p : UInt32) : d.mem.deviceAt? p = c.mem.deviceAt? p := by
    unfold Memory.deviceAt?
    rw [hl.devices]
  obtain ⟨n, fresh, hn, hram, hmarks⟩ := h.created
  refine ⟨⟨n, fresh, hn, hl.ram.trans hram, hl.marks.trans hmarks⟩, ?_, fun p hp => ?_, ?_,
    h.wideFp.trans hw.symm⟩
  · rw [hsize]
    exact h.ramSize
  · rw [hdev]
    exact h.noDevice p (hsize ▸ hp)
  · unfold Memory.DevicesFit
    rw [hl.devices]
    exact h.devices

namespace Interp

theorem wideFpRegs_effect (hb : i.boundary = .continue) (hl : (effect c i pc).leave = 0) :
    (effect c i pc).wideFpRegs = c.wideFpRegs := by
  rcases settles_effect (c := c) hb pc with ⟨-, hs⟩ | ⟨b, -, hf⟩
  · unfold Cpu.wideFpRegs Cpu.status
    rw [hs.sysReg Cop0.status List.mem_cons_self]
  · have hone : (effect c i pc).leave = 1 := by
      rw [hf.trapped.same]
    rw [hone] at hl
    cases hl

theorem sysReg_setReg (c : Cpu) (r q : Reg) (v : UInt64) : (c.setReg r v).sysReg q = c.sysReg q := by
  unfold Cpu.setReg
  split <;> rfl

theorem mem_setReg (c : Cpu) (r : Reg) (v : UInt64) : (c.setReg r v).mem = c.mem := by
  unfold Cpu.setReg
  split <;> rfl

theorem mem_effect_of_isBranch (hb : b.isBranch = true) : (effect c b pc).mem = c.mem := by
  rw [effect_of_isBranch hb]
  cases b.link? with
  | none => rfl
  | some r => exact mem_setReg c r _

theorem wideFpRegs_effect_of_isBranch (hb : b.isBranch = true) :
    (effect c b pc).wideFpRegs = c.wideFpRegs := by
  unfold Cpu.wideFpRegs Cpu.status
  rw [effect_of_isBranch hb]
  cases b.link? with
  | none => rfl
  | some r => rw [Option.elim_some, sysReg_setReg]

/-- What neither instructions and fetches nor the transfer of control change is kept by a step. -/
theorem step_keeps {α : Type} (f : Cpu → α)
    (hplace : ∀ (c : Cpu) (pc delay leave : UInt32), f { c with pc, delay, leave } = f c)
    (hwithin : ∀ {s : Scope} {c d : Cpu}, c.Within s d → f d = f c) (c : Cpu) :
    f (step c).2 = f c := by
  have heffect (c : Cpu) (i : Instr) (pc : UInt32) : f (effect c i pc) = f c :=
    hwithin (effect_within c i pc)
  have hfetch (c : Cpu) (vaddr : UInt32) : f (c.fetch vaddr).2 = f c := by
    have hload := hwithin (Cpu.Within.load (s := ⟨[], false, false, false⟩) c vaddr .word)
    unfold Cpu.fetch
    split <;> rename_i h <;> rw [h] at hload <;> exact hload
  have hfinish (c : Cpu) (pc : UInt32) (b : Branch) : f (finishBranch c pc b).2 = f c := by
    have hslot := (hfetch { c with pc := pc + 4, delay := 1 } (pc + 4)).trans
      (hplace c (pc + 4) 1 c.leave)
    unfold finishBranch
    split
    · exact hplace c (pc + 8) c.delay c.leave
    · dsimp only
      generalize Cpu.fetch _ _ = r at hslot ⊢
      obtain ⟨i, d⟩ := r
      cases i with
      | none =>
        dsimp only
        split
        · exact hslot
        · exact (hplace d _ 0 d.leave).trans hslot
      | some i =>
        have hrun := (heffect d i (pc + 4)).trans hslot
        dsimp only
        split
        · exact hrun
        · exact (hplace (effect d i (pc + 4)) _ 0 (effect d i (pc + 4)).leave).trans hrun
  have hstart := (hfetch { c with leave := 0, delay := 0 } c.pc).trans (hplace c c.pc 0 0)
  unfold step
  dsimp only
  generalize Cpu.fetch _ _ = r at hstart ⊢
  obtain ⟨i, d⟩ := r
  cases i with
  | none => exact hstart
  | some i =>
    have hrun := (heffect d i c.pc).trans hstart
    dsimp only
    split
    · exact hrun
    · split
      · exact (hplace (effect d i c.pc) (c.pc + 4) (effect d i c.pc).delay
          (effect d i c.pc).leave).trans hrun
      · exact (hfinish _ _ _).trans hrun

end Interp

theorem Cpu.begun_eq (h : c.leave = 0) : c.begun = c := by
  cases c
  cases h
  rfl

theorem Interp.slotted_eq (hl : c.leave = 0) (pc : UInt32) (i : Instr) :
    slotted c pc i = effect ((c.goto (pc + 4)).slot) i (pc + 4) := by
  have hbegun : ((c.goto (pc + 4)).slot).begun = (c.goto (pc + 4)).slot := Cpu.begun_eq hl
  change effect ((c.goto (pc + 4)).slot).begun i (pc + 4) = _
  rw [hbegun]

/-- The CPU is about to run an instruction of a trace, where `k` and `w` are known. -/
structure Poised (cfg : Emit.Config) (k : Constants) (w : Widths) (c : Cpu) : Prop where
  leave : c.leave = 0
  delay : c.delay = 0
  place : Kseg0Word c.pc
  known : Knowledge k w c
  suits : cfg.Suits c

namespace Poised

theorem fetch (h : Poised cfg k w c) (hr : c.mem.Contains c.pc (r :: rest)) :
    c.cleared.fetch c.pc = (some r, c) := by
  rw [cleared_eq h.leave h.delay]
  exact h.place.fetch hr h.suits.noDevice

theorem service (h : Poised cfg k w c) (i : Instr) : Interp.service c i .exec = effect c i c.pc := by
  change effect c.begun i c.pc = _
  rw [Cpu.begun_eq h.leave]

theorem step_plain (h : Poised cfg k w c) (hr : c.mem.Contains c.pc (r :: rest))
    (hb : r.isBranch = false) : (step c).2 = if (effect c r c.pc).leave = 0
      then (effect c r c.pc).goto (c.pc + 4) else effect c r c.pc := by
  rw [step_of_not_isBranch (h.fetch hr) hb]

theorem advance (h : Poised cfg k w c) (hr : c.mem.Contains c.pc (r :: rest))
    (hb : (r.standIn k w).boundary = .continue) (hl : (effect c r c.pc).leave = 0) :
    Poised cfg (k.after r) (w.after k r) ((effect c r c.pc).goto (c.pc + 4)) where
  leave := hl
  delay := (delay_effect c hl).trans h.delay
  place := h.place.next hr.1 h.suits.created
  known := (h.known.step hl).of_sameRegs ⟨rfl, rfl, rfl, rfl⟩
  suits := by
    have heffect : effect c (r.standIn k w) c.pc = effect c r c.pc := h.known.effect_standIn
    rw [← heffect] at hl ⊢
    exact (h.suits.of_layout (layout_effect c _ _) (wideFpRegs_effect hb hl)).of_layout (.of_mem rfl) rfl

section Branch

variable (h : Poised cfg k w c) (hb : b.isBranch = true)
include h hb

theorem leave_branch : (effect c b c.pc).leave = 0 := (leave_effect_of_isBranch hb).trans h.leave

theorem known_slot : Knowledge (k.after b) (w.after k b)
    (((effect c b c.pc).goto (c.pc + 4)).slot) :=
  (h.known.step (h.leave_branch hb)).of_sameRegs ⟨rfl, rfl, rfl, rfl⟩

theorem suits_branch : cfg.Suits (effect c b c.pc) :=
  h.suits.of_layout (layout_effect c b c.pc) (wideFpRegs_effect_of_isBranch hb)

theorem slotted_standIn : slotted (effect c b c.pc) c.pc (s.standIn (k.after b) (w.after k b)) =
    slotted (effect c b c.pc) c.pc s := by
  rw [slotted_eq (h.leave_branch hb), slotted_eq (h.leave_branch hb)]
  exact (h.known_slot hb).effect_standIn

theorem fetch_slot (hr : c.mem.Contains c.pc (b :: s :: rest)) :
    (((effect c b c.pc).goto (c.pc + 4)).slot).fetch (c.pc + 4) =
      (some s, ((effect c b c.pc).goto (c.pc + 4)).slot) := by
  have hmem : (((effect c b c.pc).goto (c.pc + 4)).slot).mem = c.mem := mem_effect_of_isBranch hb
  have hslot : c.mem.Contains (c.pc + 4) (s :: rest) := hr.2.2
  apply (h.place.next hr.1 h.suits.created).fetch
  · rw [hmem]
    exact hslot
  · rw [hmem]
    exact h.suits.noDevice

theorem step_branch (hr : c.mem.Contains c.pc (b :: s :: rest))
    (hi : (b.standIn k w).isBranch = true) :
    ∃ t, branch? c (b.standIn k w) c.pc = some t ∧ (step c).2 = match t.next? c.pc with
      | none => (effect c b c.pc).goto (c.pc + 8)
      | some target =>
        if (slotted (effect c b c.pc) c.pc s).leave = 0 then
          { slotted (effect c b c.pc) c.pc s with delay := 0, pc := target }
        else slotted (effect c b c.pc) c.pc s := by
  obtain ⟨t', ht', hstep⟩ := step_of_isBranch (h.fetch hr) hb
  have hsome : (branch? c (b.standIn k w) c.pc).isSome = (b.standIn k w).isBranch := isSome_branch?
  obtain ⟨t, ht⟩ := Option.isSome_iff_exists.mp (hsome.trans hi)
  have hflow : t.flow c.pc = t'.flow c.pc := by
    have hstand : Instr.StandsFor c c.pc b (b.standIn k w) := h.known.standsFor hb
    have hf := hstand.flow
    unfold flow at hf
    rw [ht, ht'] at hf
    exact hf
  refine ⟨t, ht, ?_⟩
  rw [Branch.next?_of_flow hflow, slotted_eq (h.leave_branch hb)]
  exact (congrArg Prod.snd hstep).trans (finishBranch_eq (h.fetch_slot hb hr))

end Branch

end Poised

namespace Trace

/-- Steps once for each instruction of a trace that is not in a delay slot, up to the first
exception. -/
def stepAll : List TraceOp → Cpu → Cpu
  | [], c => c
  | op :: ops, c =>
    if op.inDelaySlot then stepAll ops c
    else if (step c).2.leave = 0 then stepAll ops (step c).2
    else (step c).2

end Trace

end Recompiler
