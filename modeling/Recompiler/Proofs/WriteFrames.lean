import Recompiler.Proofs.Analyses
import Recompiler.Proofs.PreciseExceptions

/-!
What an instruction may write. The scope of an instruction names the general registers, the
multiply unit, the floating-point registers and the counter; whatever lies outside of it is after
the instruction what it was before, also when the instruction raises an exception.
-/

namespace Recompiler

open Interp

/-- The part of the state that an instruction may write, coprocessor 0, control and memory
apart. -/
structure Scope where
  general : List Reg
  multiply : Bool
  float : Bool
  counter : Bool
  deriving DecidableEq, Repr

namespace Kind

def writesMultiply : Kind → Bool
  | .mthi | .mtlo | .mulDiv _ => true
  | _ => false

/-- The loads of and moves to floating-point registers, and the arithmetic on them. -/
def writesFloat : Kind → Bool
  | .loadFp _ | .mtc1 _ | .fp .. => true
  | _ => false

end Kind

namespace Instr

def writesCounter (i : Instr) : Bool :=
  match i.kind with
  | .mtc0 _ => i.rd == Cop0.count
  | _ => false

def scope (i : Instr) : Scope where
  general := i.dest?.toList ++ i.link?.toList
  multiply := i.kind.writesMultiply
  float := i.kind.writesFloat
  counter := i.writesCounter

theorem mem_scope_dest {i : Instr} {r : Reg} (h : i.dest? = some r) : r ∈ i.scope.general := by
  apply List.mem_append_left
  rw [h]
  exact List.mem_singleton_self r

theorem mem_scope_link {i : Instr} {r : Reg} (h : i.link? = some r) : r ∈ i.scope.general := by
  apply List.mem_append_right
  rw [h]
  exact List.mem_singleton_self r

theorem named_of_mem_scope {i : Instr} {r : Reg} (h : r ∈ i.scope.general) :
    i.dest? = some r ∨ i.link? = some r := by
  obtain h | h := List.mem_append.mp h
  · exact .inl (Option.mem_toList.mp h)
  · exact .inr (Option.mem_toList.mp h)

end Instr

namespace Cpu

/-- Nothing outside of the scope is different in `d`, and register zero is the same. -/
structure Within (s : Scope) (c d : Cpu) : Prop where
  general : ∀ r, r ∉ s.general → d.reg r = c.reg r
  zero : d.reg .zero = c.reg .zero
  multiply : s.multiply = false → d.hi = c.hi ∧ d.lo = c.lo
  float : s.float = false → d.fpr = c.fpr
  counter : s.counter = false → d.cycle = c.cycle
  nextEvent : d.nextEvent = c.nextEvent
  frame : d.frame = c.frame

variable {s : Scope} {b c d : Cpu} {r : Reg}

namespace Within

theorem refl (c : Cpu) : Within s c c :=
  ⟨fun _ _ => rfl, rfl, fun _ => ⟨rfl, rfl⟩, fun _ => rfl, fun _ => rfl, rfl, rfl⟩

theorem trans (h : Within s b c) (h' : Within s c d) : Within s b d where
  general r hr := (h'.general r hr).trans (h.general r hr)
  zero := h'.zero.trans h.zero
  multiply hm := ⟨(h'.multiply hm).1.trans (h.multiply hm).1,
    (h'.multiply hm).2.trans (h.multiply hm).2⟩
  float hf := (h'.float hf).trans (h.float hf)
  counter hc := (h'.counter hc).trans (h.counter hc)
  nextEvent := h'.nextEvent.trans h.nextEvent
  frame := h'.frame.trans h.frame

theorem same (h : d = { c with
    pc := d.pc, delay := d.delay, leave := d.leave, fcr31 := d.fcr31, llBit := d.llBit,
    cop0 := d.cop0, tlb := d.tlb, mem := d.mem, effects := d.effects }) : Within s c d := by
  rw [h]
  exact ⟨fun _ _ => rfl, rfl, fun _ => ⟨rfl, rfl⟩, fun _ => rfl, fun _ => rfl, rfl, rfl⟩

theorem fault (h : Fault c d) : Within s c d := by
  apply same
  rw [h.trapped.same]

theorem setReg (h : r ∈ s.general) (c : Cpu) (v : UInt64) : Within s c (c.setReg r v) := by
  by_cases hr : r = .zero
  · rw [hr]
    exact refl c
  · have hgeneral (q : Reg) (hq : q ∉ s.general) : (c.setReg r v).reg q = c.reg q := by
      apply reg_setReg_of_ne
      intro hrq
      rw [hrq] at h
      exact hq h
    have hzero : (c.setReg r v).reg .zero = c.reg .zero := reg_setReg_of_ne hr
    rw [setReg_of_ne hr] at hgeneral hzero ⊢
    exact ⟨hgeneral, hzero, fun _ => ⟨rfl, rfl⟩, fun _ => rfl, fun _ => rfl, rfl, rfl⟩

theorem setSysReg (c : Cpu) (r : Reg) (v : UInt64) : Within s c (c.setSysReg r v) := same rfl

theorem emit (c : Cpu) (e : Effect) : Within s c (c.emit e) := same rfl

theorem fpr (h : s.float = true) (c : Cpu) (v : Vector UInt64 32) :
    Within s c { c with fpr := v } := by
  refine ⟨fun _ _ => rfl, rfl, fun _ => ⟨rfl, rfl⟩, fun hf => ?_, fun _ => rfl, rfl, rfl⟩
  rw [h] at hf
  cases hf

theorem hiLo (h : s.multiply = true) (c : Cpu) (hi lo : UInt64) :
    Within s c { c with hi := hi, lo := lo } := by
  refine ⟨fun _ _ => rfl, rfl, fun hm => ?_, fun _ => rfl, fun _ => rfl, rfl, rfl⟩
  rw [h] at hm
  cases hm

theorem writeCount (h : s.counter = true) (c : Cpu) (v : UInt32) :
    Within s c (c.writeCount v) := by
  refine ⟨fun _ _ => rfl, rfl, fun _ => ⟨rfl, rfl⟩, fun _ => rfl, fun hc => ?_, rfl, rfl⟩
  rw [h] at hc
  cases hc

theorem readPhys (c : Cpu) (paddr : UInt32) (size : Size) :
    Within s c (c.readPhys paddr size).2 := by
  rw [Cpu.readPhys]
  split
  · exact emit c _
  · exact refl c

theorem writePhys (c : Cpu) (paddr : UInt32) (size : Size) (v : UInt64) :
    Within s c (c.writePhys paddr size v) := by
  rw [Cpu.writePhys]
  split
  · exact emit c _
  · split
    · have hram : Within s c { c with mem := c.mem.writeRam paddr size v } := same rfl
      dsimp only
      split
      · exact hram.trans (emit _ _)
      · exact hram
    · exact refl c

theorem load (c : Cpu) (vaddr : UInt32) (size : Size) : Within s c (c.load vaddr size).2 := by
  rw [Cpu.load]
  split
  · obtain ⟨paddr, h⟩ | ⟨d, h, hf⟩ := toPhysical_cases c vaddr false
    · rw [h]
      exact readPhys c paddr size
    · rw [h]
      exact fault hf
  · exact fault (.address vaddr false)

theorem store (c : Cpu) (vaddr : UInt32) (size : Size) (v : UInt64) :
    Within s c (c.store vaddr size v).2 := by
  rw [Cpu.store]
  split
  · obtain ⟨paddr, h⟩ | ⟨d, h, hf⟩ := toPhysical_cases c vaddr true
    · rw [h]
      exact writePhys c paddr size v
    · rw [h]
      exact fault hf
  · exact fault (.address vaddr true)

theorem writeCop0 (h : r = Cop0.count → s.counter = true) (c : Cpu) (v : UInt64) :
    Within s c (c.writeCop0 r v) := by
  rw [Cpu.writeCop0]
  repeat' split
  all_goals first
    | exact refl c
    | exact setSysReg c _ _
    | exact writeCount (h ‹_›) c _
    | exact same rfl
    | skip
  unfold writeStatus
  dsimp only
  split
  · exact setSysReg c _ _
  · exact same rfl

theorem eret (c : Cpu) : Within s c c.eret := by
  unfold Cpu.eret
  dsimp only
  split
  · exact same rfl
  · exact same rfl

end Within

end Cpu

namespace Interp

open Cpu

variable {s : Scope} (c : Cpu) (i : Instr)

theorem within_writeUnless {r : Reg} (h : r ∈ s.general) (overflow : Bool) (v : UInt64) :
    Within s c (writeUnless c r overflow v) := by
  cases overflow with
  | true => exact .fault (.plain .overflow (by decide))
  | false => exact .setReg h c v

theorem within_execTrap (cond : TrapCond) (x y : UInt64) : Within s c (execTrap c cond x y) := by
  rw [execTrap]
  split
  · exact .fault (.plain .trap (by decide))
  · exact .refl c

theorem within_execLoad (h : i.rt ∈ s.general) (op : LoadOp) : Within s c (execLoad c i op) := by
  have hload := Within.load (s := s) c (effective c i) (loadSize op)
  rw [execLoad]
  split <;> rename_i heq <;> rw [heq] at hload
  · exact hload.trans (.setReg h _ _)
  · exact hload

theorem within_execLoadPart (h : i.rt ∈ s.general) (side : Side) (width : Width) :
    Within s c (execLoadPart c i side width) := by
  have hload := Within.load (s := s) c (container (effective c i) width) (widthSize width)
  rw [execLoadPart]
  dsimp only
  split <;> rename_i heq <;> rw [heq] at hload
  · cases width with
    | word => exact hload.trans (.setReg h _ _)
    | double => exact hload.trans (.setReg h _ _)
  · exact hload

theorem within_execStorePart (side : Side) (width : Width) :
    Within s c (execStorePart c i side width) := by
  have hload := Within.load (s := s) c (container (effective c i) width) (widthSize width)
  rw [execStorePart]
  dsimp only
  split <;> rename_i heq <;> rw [heq] at hload
  · exact hload.trans (.store _ _ _ _)
  · exact hload

theorem within_execLoadLinked (h : i.rt ∈ s.general) (width : Width) :
    Within s c (execLoadLinked c i width) := by
  have hload := Within.load (s := s) c (effective c i) (widthSize width)
  rw [execLoadLinked]
  dsimp only
  split <;> rename_i heq <;> rw [heq] at hload
  · exact (hload.trans (.setReg h _ _)).trans (.same rfl)
  · exact hload

theorem within_execStoreConditional (h : i.rt ∈ s.general) (width : Width) :
    Within s c (execStoreConditional c i width) := by
  have hstore := Within.store (s := s) c (effective c i) (widthSize width) (c.reg i.rt)
  rw [execStoreConditional]
  split
  · exact .setReg h c _
  · split <;> rename_i heq <;> rw [heq] at hstore
    · have hlink (d : Cpu) : Within s d { d with llBit := 0 } := .same rfl
      exact (hstore.trans (hlink _)).trans (.setReg h _ _)
    · exact hstore

theorem within_execLoadFp (h : s.float = true) (width : Width) :
    Within s c (execLoadFp c i width) := by
  have hload := Within.load (s := s) c (effective c i) (widthSize width)
  rw [execLoadFp]
  split <;> rename_i heq <;> rw [heq] at hload
  · cases width with
    | word => exact hload.trans (.fpr h _ _)
    | double => exact hload.trans (.fpr h _ _)
  · exact hload

theorem within_execConvert (h : s.float = true) (op : FpOp) (v : Nat) :
    Within s c (execConvert c i op v) := by
  unfold execConvert
  dsimp only
  split
  all_goals first
    | exact .fpr h c _
    | exact .fault (.plain .reserved (by decide))

theorem within_execInteger (h : s.float = true) (op : FpOp) (n : Int) :
    Within s c (execInteger c i op n) := by
  unfold execInteger
  split
  · exact within_execConvert c i h _ _
  · exact within_execConvert c i h _ _
  · exact .fault (.plain .reserved (by decide))

theorem within_execFp (h : s.float = true) (format : FpFormat) (op : FpOp) :
    Within s c (execFp c i format op) := by
  have hcond (on : Bool) : Within s c (setCondition c on) := .same rfl
  cases format with
  | single =>
    rw [execFp]
    unfold execSingle
    dsimp only
    split
    all_goals first
      | exact hcond _
      | exact .fpr h c _
      | exact within_execConvert c i h _ _
  | double =>
    rw [execFp]
    unfold execDouble
    dsimp only
    split
    all_goals first
      | exact hcond _
      | exact .fpr h c _
      | exact within_execConvert c i h _ _
  | word => exact within_execInteger c i h op _
  | long => exact within_execInteger c i h op _

theorem within_execSystem (op : SystemOp) : Within s c (execSystem c op) := by
  cases op with
  | tlbr => exact .same rfl
  | tlbwi => exact .same rfl
  | tlbwr => exact .same rfl
  | tlbp =>
    rw [execSystem, tlbProbe]
    split
    · exact .setSysReg c _ _
    · exact .setSysReg c _ _
  | eret => exact .eret c

theorem within_writeControl (r : Reg) (v : UInt32) : Within s c (writeControl c r v) := by
  rw [writeControl]
  split
  · exact .same rfl
  · exact .refl c

/-- An instruction keeps to its scope, by its kind. -/
theorem effect_within (c : Cpu) (i : Instr) (pc : UInt32) : Within i.scope c (effect c i pc) := by
  have hdest {r : Reg} (h : i.dest? = some r) : r ∈ i.scope.general := i.mem_scope_dest h
  have hlink {r : Reg} (h : i.link? = some r) : r ∈ i.scope.general := i.mem_scope_link h
  have hfloat (h : i.kind.writesFloat = true) : i.scope.float = true := h
  have hmultiply (h : i.kind.writesMultiply = true) : i.scope.multiply = true := h
  have hcounter (h : i.writesCounter = true) : i.scope.counter = true := h
  generalize i.scope = s at hdest hlink hfloat hmultiply hcounter
  unfold Instr.dest? at hdest
  unfold Instr.link? at hlink
  unfold Instr.writesCounter at hcounter
  unfold effect
  dsimp only
  cases hk : i.kind with
  | shift op amount width =>
    rw [hk] at hdest
    exact .setReg (hdest rfl) c _
  | alu op =>
    rw [hk] at hdest
    dsimp only
    rw [execAlu_eq]
    exact within_writeUnless c (hdest rfl) _ _
  | imm op =>
    rw [hk] at hdest
    dsimp only
    rw [execImm_eq]
    exact within_writeUnless c (hdest rfl) _ _
  | mfhi =>
    rw [hk] at hdest
    exact .setReg (hdest rfl) c _
  | mflo =>
    rw [hk] at hdest
    exact .setReg (hdest rfl) c _
  | cfc1 =>
    rw [hk] at hdest
    exact .setReg (hdest rfl) c _
  | mfc0 width =>
    rw [hk] at hdest
    cases width with
    | word => exact .setReg (hdest rfl) c _
    | double => exact .setReg (hdest rfl) c _
  | mfc1 width =>
    rw [hk] at hdest
    cases width with
    | word => exact .setReg (hdest rfl) c _
    | double => exact .setReg (hdest rfl) c _
  | load op =>
    rw [hk] at hdest
    exact within_execLoad c i (hdest rfl) op
  | loadPart side width =>
    rw [hk] at hdest
    exact within_execLoadPart c i (hdest rfl) side width
  | loadLinked width =>
    rw [hk] at hdest
    exact within_execLoadLinked c i (hdest rfl) width
  | storeConditional width =>
    rw [hk] at hdest
    exact within_execStoreConditional c i (hdest rfl) width
  | jal =>
    rw [hk] at hlink
    exact .setReg (hlink rfl) c _
  | jalr =>
    rw [hk] at hlink
    exact .setReg (hlink rfl) c _
  | branchSign cond link likely =>
    rw [hk] at hlink
    cases link with
    | true => exact .setReg (hlink rfl) c _
    | false => exact .refl c
  | mulDiv op =>
    rw [hk] at hmultiply
    exact .hiLo (hmultiply rfl) c _ _
  | mthi =>
    rw [hk] at hmultiply
    exact .hiLo (hmultiply rfl) c _ c.lo
  | mtlo =>
    rw [hk] at hmultiply
    exact .hiLo (hmultiply rfl) c c.hi _
  | loadFp width =>
    rw [hk] at hfloat
    exact within_execLoadFp c i (hfloat rfl) width
  | mtc1 width =>
    rw [hk] at hfloat
    cases width with
    | word => exact .fpr (hfloat rfl) c _
    | double => exact .fpr (hfloat rfl) c _
  | fp format op =>
    rw [hk] at hfloat
    exact within_execFp c i (hfloat rfl) format op
  | mtc0 width =>
    rw [hk] at hcounter
    have hc (h : i.rd = Cop0.count) : s.counter = true := hcounter (beq_iff_eq.mpr h)
    cases width with
    | word => exact .writeCop0 hc c _
    | double => exact .writeCop0 hc c _
  | syscall => exact .fault (.plain .syscall (by decide))
  | breakpoint => exact .fault (.plain .breakpoint (by decide))
  | reserved => exact .fault (.plain .reserved (by decide))
  | trap cond => exact within_execTrap c cond _ _
  | trapImm cond => exact within_execTrap c cond _ _
  | store size => exact .store c _ _ _
  | storeFp width => exact .store c _ _ _
  | storePart side width => exact within_execStorePart c i side width
  | system op => exact within_execSystem c op
  | systemAlias op =>
    cases op with
    | none => exact .refl c
    | some op => exact within_execSystem c op
  | ctc1 => exact within_writeControl c _ _
  | j | jr | branchEq | branchZero | branchFp | sync | cache => exact .refl c

theorem exec_within (c : Cpu) (i : Instr) : Within i.scope c (exec c i).2 :=
  Within.trans (c := { c with leave := 0 }) (.same rfl) (effect_within _ i c.pc)

theorem named_of_exec_ne {c : Cpu} {i : Instr} {r : Reg} (h : (exec c i).2.reg r ≠ c.reg r) :
    i.dest? = some r ∨ i.link? = some r := by
  apply Instr.named_of_mem_scope
  by_contra hr
  exact h ((exec_within c i).general r hr)

/-- Every word writes the general registers that its destination and its link name, the multiply
unit and the floating-point registers by its kind, and nothing else of these. The instruction that
the analyses put in its place, and that emission sees, names the same writes. -/
theorem exec_writes (c : Cpu) (w : UInt32) (h0 : c.reg .zero = 0) :
    let i : Instr := ⟨w⟩
    let d := (exec c i).2
    (∀ r, i.dest? ≠ some r → i.link? ≠ some r → d.reg r = c.reg r) ∧
      (i.kind.writesMultiply = false → d.hi = c.hi ∧ d.lo = c.lo) ∧
      (i.kind.writesFloat = false → d.fpr = c.fpr) ∧
      d.reg .zero = 0 ∧
      ∀ k ws, Knowledge k ws c →
        let s := k.step i.dropZeroWrite.simplify
        let j := (ws.step s.1 s.2).2
        ∀ r, d.reg r ≠ c.reg r → j.dest? = some r ∨ j.link? = some r := by
  intro i d
  have hw := exec_within c i
  refine ⟨fun r hd hl => ?_, hw.multiply, hw.float, hw.zero.trans h0, ?_⟩
  · by_contra hr
    obtain h | h := named_of_exec_ne hr
    · exact hd h
    · exact hl h
  · intro k ws hk s j r hr
    have hk' : Knowledge k ws { c with leave := 0 } := hk.of_sameRegs ⟨rfl, rfl, rfl, rfl⟩
    have hj : exec c j = exec c i := by
      unfold exec
      rw [hk'.effect_instr]
    apply named_of_exec_ne (c := c)
    rw [hj]
    exact hr

/-- A call through register 2 that returns to register 31. -/
theorem exec_writes_call :
    (Cpu.powerOn ⟨#[], #[], []⟩ none).reg .zero = 0 ∧
      (exec (Cpu.powerOn ⟨#[], #[], []⟩ none) ⟨0x0040f809⟩).2.reg 31 = 0xffffffffbfc00008 ∧
      (exec (Cpu.powerOn ⟨#[], #[], []⟩ none) ⟨0x0040f809⟩).2.reg 2 = 0 := by
  obtain ⟨hreg, -⟩ := exec_writes (Cpu.powerOn ⟨#[], #[], []⟩ none) 0x0040f809 (by decide)
  exact ⟨by decide, by decide, hreg 2 (by decide) (by decide)⟩

end Interp

end Recompiler
