import Recompiler.Proofs.Widths
import Recompiler.Trace.Basic

/-!
What a trace claims about the registers holds whenever its instructions are executed in order,
and each instruction of a trace does what the word it stands for does.
-/

namespace Recompiler

open Interp

/-- Everything that is known at a point of a trace holds, in a state whose register zero is zero
and whose devices keep to their sizes. -/
structure Knowledge (k : Constants) (w : Widths) (c : Cpu) : Prop where
  zero : c.reg .zero = 0
  devices : c.mem.DevicesFit
  constants : k.Holds c
  range : w.InRange
  widths : w.Holds c

namespace Knowledge

variable {k : Constants} {w : Widths} {c : Cpu} {i : Instr} {pc : UInt32}

theorem fresh (h0 : c.reg .zero = 0) (hm : c.mem.DevicesFit) : Knowledge .fresh .fresh c :=
  ⟨h0, hm, Constants.holds_fresh h0, Widths.inRange_fresh, Widths.holds_fresh h0⟩

theorem of_sameRegs {d : Cpu} (h : Knowledge k w c) (hs : c.SameRegs d) : Knowledge k w d where
  zero := (hs.reg .zero).trans h.zero
  devices := by
    unfold Memory.DevicesFit
    rw [hs.devices]
    exact h.devices
  constants := h.constants.of_sameRegs hs
  range := h.range
  widths := h.widths.of_sameRegs hs

theorem effect_keeps (h0 : c.reg .zero = 0) (hleave : (effect c i pc).leave = 0) :
    (effect c i pc).reg .zero = 0 ∧ (effect c i pc).mem.devices = c.mem.devices := by
  have hset (r : Reg) (v : UInt64) :
      (c.setReg r v).reg .zero = 0 ∧ (c.setReg r v).mem.devices = c.mem.devices := by
    by_cases hr : r = .zero
    · subst hr
      exact ⟨h0, rfl⟩
    · rw [Cpu.reg_setReg_of_ne hr, Cpu.setReg_of_ne hr]
      exact ⟨h0, rfl⟩
  cases hd : i.dest? with
  | some rd =>
    obtain ⟨v, hs, -⟩ := effect_dest hd hleave
    exact ⟨(hs.reg .zero).trans (hset rd v).1, hs.devices.trans (hset rd v).2⟩
  | none =>
    cases hl : i.link? with
    | some r =>
      rw [effect_link c pc hl]
      exact hset r _
    | none =>
      have hs := effect_other c pc hd hl
      exact ⟨(hs.reg .zero).trans h0, hs.devices⟩

theorem effect_instr (h : Knowledge k w c) {r : Instr} :
    effect c (w.step (k.step r.dropZeroWrite.simplify).1 (k.step r.dropZeroWrite.simplify).2).2 pc
      = effect c r pc := by
  rw [h.widths.effect_step h.zero, h.constants.effect_step h.zero, Instr.effect_simplify h.zero,
    Instr.effect_dropZeroWrite]

theorem step (h : Knowledge k w c) {r : Instr} (hleave : (effect c r pc).leave = 0) :
    Knowledge (k.step r.dropZeroWrite.simplify).1
      (w.step (k.step r.dropZeroWrite.simplify).1 (k.step r.dropZeroWrite.simplify).2).1
      (effect c r pc) := by
  have he : effect c r.dropZeroWrite.simplify pc = effect c r pc := by
    rw [Instr.effect_simplify h.zero, Instr.effect_dropZeroWrite]
  have hk : (k.step r.dropZeroWrite.simplify).1.Holds (effect c r pc) := by
    rw [← he] at hleave ⊢
    exact h.constants.step h.zero h.devices hleave
  have he' : effect c (k.step r.dropZeroWrite.simplify).2 pc = effect c r pc := by
    rw [h.constants.effect_step h.zero, he]
  obtain ⟨hz, hd⟩ := effect_keeps h.zero hleave
  refine ⟨hz, ?_, hk, h.range.step, ?_⟩
  · unfold Memory.DevicesFit
    rw [hd]
    exact h.devices
  · rw [← he'] at hleave hk ⊢
    exact h.widths.step h.range h.zero h.devices hleave hk

end Knowledge

namespace Trace

/-- Executes the instructions of a trace in order, up to the first exception. -/
def execAll : List TraceOp → Cpu → Option Cpu
  | [], c => some c
  | op :: ops, c =>
    match exec c op.instr with
    | (true, c') => execAll ops c'
    | (false, _) => none

theorem exec_true {c c' : Cpu} {i : Instr} (h : exec c i = (true, c')) :
    c' = effect { c with leave := 0 } i c.pc ∧ c'.leave = 0 := by
  unfold exec at h
  rw [Prod.mk.injEq, beq_iff_eq] at h
  obtain ⟨hl, rfl⟩ := h
  exact ⟨rfl, hl⟩

/-- Along a trace everything known holds, and each instruction does what its word does. -/
theorem knowledge_buildFrom {k : Constants} {w : Widths} {slot : Bool} {raw : List Instr}
    {pre post : List TraceOp} {op : TraceOp} {c s : Cpu} (h : Knowledge k w c)
    (hb : buildFrom k w slot raw = pre ++ op :: post) (hr : execAll pre c = some s) :
    Knowledge op.constants op.widths s
      ∧ ∀ d pc, s.SameRegs d → effect d op.instr pc = effect d op.raw pc := by
  induction raw generalizing k w slot c pre with
  | nil =>
    cases pre <;> cases hb
  | cons r rest ih =>
    unfold buildFrom at hb
    dsimp only at hb
    cases pre with
    | nil =>
      cases hr
      have hop : op.constants = k ∧ op.widths = w ∧ op.raw = r ∧ op.instr
          = (w.step (k.step r.dropZeroWrite.simplify).1 (k.step r.dropZeroWrite.simplify).2).2 := by
        split at hb
        · cases hb
          exact ⟨rfl, rfl, rfl, rfl⟩
        · cases hb
          exact ⟨rfl, rfl, rfl, rfl⟩
      obtain ⟨hk, hw, hraw, hi⟩ := hop
      rw [hk, hw, hraw, hi]
      exact ⟨h, fun d pc hs => (h.of_sameRegs hs).effect_instr⟩
    | cons o pre =>
      split at hb
      · cases pre <;> cases hb
      · rw [List.cons_append, List.cons.injEq] at hb
        obtain ⟨ho, hb⟩ := hb
        unfold execAll at hr
        split at hr
        · rename_i c' he
          obtain ⟨hc', hleave⟩ := exec_true he
          have h' : Knowledge k w { c with leave := 0 } := h.of_sameRegs ⟨rfl, rfl, rfl, rfl⟩
          rw [← ho] at hc'
          rw [show c' = _ from hc'.trans h'.effect_instr] at hleave hr
          exact ih (h'.step hleave) hb hr
        · cases hr

theorem extendFrom_of_fits {n : Int} {v : UInt64} (hn : 1 ≤ n ∧ n ≤ 64) (h : Fits n v) :
    extendFrom n.toNat v = v := by
  have hcast : (n.toNat : Int) = n := Int.toNat_of_nonneg (by omega)
  apply (extendFrom_eq_iff_fits (by omega) (by omega)).2
  rw [hcast]
  exact h

/-- Before each instruction of a trace that is reached, every register has the bits that are
known of it and is the sign extension of as many low bits as its width says. From there the
instruction and the word it stands for give the same flag and the same state. -/
theorem analyses_hold {raw : List Instr} {limit : Nat} {c : Cpu} (h0 : c.reg .zero = 0)
    (hm : c.mem.DevicesFit) {pre post : List TraceOp} {op : TraceOp} {s : Cpu}
    (hb : build raw limit = pre ++ op :: post) (hr : execAll pre c = some s) :
    (∀ r, s.reg r &&& (op.constants.get r).mask = (op.constants.get r).bits)
      ∧ (∀ r, extendFrom (op.widths.get r).toNat (s.reg r) = s.reg r)
      ∧ extendFrom op.widths.hi.toNat s.hi = s.hi
      ∧ extendFrom op.widths.lo.toNat s.lo = s.lo
      ∧ exec s op.instr = exec s op.raw := by
  obtain ⟨h, he⟩ := knowledge_buildFrom (.fresh h0 hm) hb hr
  refine ⟨h.constants, fun r => ?_, ?_, ?_, ?_⟩
  · exact extendFrom_of_fits (h.range.reg r) (h.widths.reg r)
  · exact extendFrom_of_fits h.range.hi h.widths.hi
  · exact extendFrom_of_fits h.range.lo h.widths.lo
  · unfold exec
    rw [he { s with leave := 0 } s.pc ⟨rfl, rfl, rfl, rfl⟩]

def byteShift : List Instr := [⟨0x90410000⟩, ⟨0x00012202⟩]

/-- A machine without RAM, whose register 2 points to a device with the given contents. -/
def deviceCpu (v : UInt64) : Cpu :=
  (Cpu.powerOn ⟨#[], #[], [⟨0x441, 0x441, fun _ _ => v⟩]⟩ none).setReg 2 0xffffffffa4410000

theorem build_byteShift :
    build byteShift 2
      = [(build byteShift 2).getD 0 default] ++ (build byteShift 2).getD 1 default :: [] := by
  decide +kernel

theorem execAll_singleton {op : TraceOp} {c : Cpu} (h : (exec c op.instr).1 = true) :
    execAll [op] c = some (exec c op.instr).2 := by
  unfold execAll
  split
  · rename_i c' he
    rw [he]
    rfl
  · rename_i c' he
    rw [he] at h
    cases h

theorem analyses_hold_byteShift :
    let load := (build byteShift 2).getD 0 default
    let shift := (build byteShift 2).getD 1 default
    let s := (exec (deviceCpu 0x41) load.instr).2
    s.reg 1 &&& (shift.constants.get 1).mask = (shift.constants.get 1).bits
      ∧ exec s shift.instr = exec s shift.raw := by
  have hm : (deviceCpu 0x41).mem.DevicesFit := by
    intro d hd paddr size
    cases hd with
    | head =>
      change (0x41 : UInt64).toNat < _
      cases size <;> decide
    | tail _ hd => cases hd
  have h := analyses_hold (by decide) hm build_byteShift (execAll_singleton (by decide +kernel))
  exact ⟨h.1 1, h.2.2.2.2⟩

/-- A device that returns more than the byte it is asked for breaks the analyses: the byte is
known to be below 256, and its shift by eight becomes a constant. -/
theorem analyses_fail_on_wide_read :
    (deviceCpu 0x4100).reg .zero = 0
      ∧ ∃ load shift s, build byteShift 2 = [load, shift]
        ∧ execAll [load] (deviceCpu 0x4100) = some s
        ∧ s.reg 1 &&& (shift.constants.get 1).mask ≠ (shift.constants.get 1).bits
        ∧ exec s shift.instr ≠ exec s shift.raw := by
  refine ⟨by decide, _, _, _, build_byteShift, execAll_singleton (by decide +kernel),
    by decide +kernel, ?_⟩
  intro h
  have h4 := congrArg (fun p => p.2.reg 4) h
  exact absurd h4 (by decide +kernel)

end Trace

end Recompiler
