import Recompiler.Proofs.PreciseExceptions
import Recompiler.Trace.Boundary

/-!
Where traces end, against the interpreter: an instruction after which a trace goes on leaves
alone what decides about interrupts, the timer and the mapping, and the instructions with a delay
slot are those for which the interpreter asks where to go.
-/

namespace Recompiler

open Interp

/-- Does an effect tell the host of a change of the timer, the interrupts or the mapping? -/
def Effect.isHook : Effect → Bool
  | .countWritten .. | .compareWritten _ | .statusWritten .. | .tlbWritten .. => true
  | _ => false

namespace Cpu

/-- What a trace takes to be the same from one of its instructions to the next. -/
structure Steady (c d : Cpu) : Prop where
  pc : d.pc = c.pc
  cycle : d.cycle = c.cycle
  tlb : d.tlb = c.tlb
  sysReg : ∀ r ∈ [Cop0.status, Cop0.cause, Cop0.compare, Cop0.count], d.sysReg r = c.sysReg r
  rounding : FpControl.roundMode d.fcr31 = FpControl.roundMode c.fcr31
  hooks : d.effects.filter Effect.isHook = c.effects.filter Effect.isHook

/-- An instruction completes and leaves the state steady, or raises an exception in a state that
is still steady. -/
def Settles (c d : Cpu) : Prop :=
  d.leave = c.leave ∧ Steady c d ∨ ∃ b, Steady c b ∧ Fault b d

variable {b c d : Cpu} {r : Reg}

namespace Steady

theorem refl (c : Cpu) : Steady c c := ⟨rfl, rfl, rfl, fun _ _ => rfl, rfl, rfl⟩

theorem trans (h : Steady b c) (h' : Steady c d) : Steady b d where
  pc := h'.pc.trans h.pc
  cycle := h'.cycle.trans h.cycle
  tlb := h'.tlb.trans h.tlb
  sysReg r hr := (h'.sysReg r hr).trans (h.sysReg r hr)
  rounding := h'.rounding.trans h.rounding
  hooks := h'.hooks.trans h.hooks

theorem setReg (c : Cpu) (r : Reg) (v : UInt64) : Steady c (c.setReg r v) := by
  rw [Cpu.setReg]
  split
  · exact refl c
  · exact ⟨rfl, rfl, rfl, fun _ _ => rfl, rfl, rfl⟩

theorem setSysReg (h : r ∉ [Cop0.status, Cop0.cause, Cop0.compare, Cop0.count]) (c : Cpu)
    (v : UInt64) : Steady c (c.setSysReg r v) := by
  refine ⟨rfl, rfl, rfl, fun s hs => sysReg_setSysReg_of_ne ?_ c v, rfl, rfl⟩
  intro hrs
  rw [hrs] at h
  exact h hs

theorem emit {e : Effect} (h : e.isHook = false) (c : Cpu) : Steady c (c.emit e) := by
  refine ⟨rfl, rfl, rfl, fun _ _ => rfl, rfl, ?_⟩
  rw [Cpu.emit, Array.filter_push, h]
  rfl

theorem setSingle (c : Cpu) (r : Reg) (v : UInt32) : Steady c (c.setSingle r v) :=
  ⟨rfl, rfl, rfl, fun _ _ => rfl, rfl, rfl⟩

theorem setDouble (c : Cpu) (r : Reg) (v : UInt64) : Steady c (c.setDouble r v) :=
  ⟨rfl, rfl, rfl, fun _ _ => rfl, rfl, rfl⟩

theorem setCondition (c : Cpu) (on : Bool) : Steady c (setCondition c on) := by
  have hbits : (Interp.setCondition c on).fcr31 &&& 3 = c.fcr31 &&& 3 := by
    cases on with
    | true =>
      apply UInt32.eq_of_toBitVec_eq
      exact BitVec.and_or_distrib_right.trans BitVec.or_zero
    | false => exact UInt32.and_assoc ..
  refine ⟨rfl, rfl, rfl, fun _ _ => rfl, ?_, rfl⟩
  rw [FpControl.roundMode, hbits, FpControl.roundMode]

theorem readPhys (c : Cpu) (paddr : UInt32) (size : Size) :
    Steady c (c.readPhys paddr size).2 := by
  rw [Cpu.readPhys]
  split
  · exact emit rfl c
  · exact refl c

theorem writePhys (c : Cpu) (paddr : UInt32) (size : Size) (v : UInt64) :
    Steady c (c.writePhys paddr size v) := by
  rw [Cpu.writePhys]
  split
  · exact emit rfl c
  · split
    · have hram : Steady c { c with mem := c.mem.writeRam paddr size v } :=
        ⟨rfl, rfl, rfl, fun _ _ => rfl, rfl, rfl⟩
      dsimp only
      split
      · exact hram.trans (emit rfl _)
      · exact hram
    · exact refl c

end Steady

namespace Settles

theorem steady (hleave : d.leave = c.leave) (h : Steady c d) : Settles c d := .inl ⟨hleave, h⟩

theorem fault (h : Fault c d) : Settles c d := .inr ⟨c, .refl c, h⟩

theorem after (hleave : c.leave = b.leave) (h : Steady b c) (h' : Settles c d) : Settles b d := by
  obtain ⟨hl, hs⟩ | ⟨a, hs, hf⟩ := h'
  · exact .inl ⟨hl.trans hleave, h.trans hs⟩
  · exact .inr ⟨a, h.trans hs, hf⟩

theorem setReg (c : Cpu) (r : Reg) (v : UInt64) : Settles c (c.setReg r v) :=
  steady (setReg_leave c r v) (.setReg c r v)

theorem setSingle (c : Cpu) (r : Reg) (v : UInt32) : Settles c (c.setSingle r v) :=
  steady rfl (.setSingle c r v)

theorem setDouble (c : Cpu) (r : Reg) (v : UInt64) : Settles c (c.setDouble r v) :=
  steady rfl (.setDouble c r v)

theorem setSysReg (h : r ∉ [Cop0.status, Cop0.cause, Cop0.compare, Cop0.count]) (c : Cpu)
    (v : UInt64) : Settles c (c.setSysReg r v) :=
  steady rfl (.setSysReg h c v)

theorem reserved (c : Cpu) : Settles c (c.raise .reserved) :=
  fault (.plain .reserved (by decide))

end Settles

theorem load_settles (c : Cpu) (vaddr : UInt32) (size : Size) :
    (∃ v d, c.load vaddr size = (some v, d) ∧ d.leave = c.leave ∧ Steady c d) ∨
      ∃ d, c.load vaddr size = (none, d) ∧ Fault c d := by
  rw [load]
  split
  · obtain ⟨paddr, h⟩ | ⟨d, h, hf⟩ := toPhysical_cases c vaddr false
    · refine .inl ⟨(c.readPhys paddr size).1, (c.readPhys paddr size).2, ?_, ?_,
        .readPhys c paddr size⟩
      · rw [h]
      · rw [readPhys]
        split
        · rfl
        · rfl
    · rw [h]
      exact .inr ⟨d, rfl, hf⟩
  · exact .inr ⟨_, rfl, .address vaddr false⟩

theorem store_settles (c : Cpu) (vaddr : UInt32) (size : Size) (v : UInt64) :
    (∃ d, c.store vaddr size v = (true, d) ∧ d.leave = c.leave ∧ Steady c d) ∨
      ∃ d, c.store vaddr size v = (false, d) ∧ Fault c d := by
  rw [store]
  split
  · obtain ⟨paddr, h⟩ | ⟨d, h, hf⟩ := toPhysical_cases c vaddr true
    · rw [h]
      exact .inl ⟨_, rfl, writePhys_leave c paddr size v, .writePhys c paddr size v⟩
    · rw [h]
      exact .inr ⟨d, rfl, hf⟩
  · exact .inr ⟨_, rfl, .address vaddr true⟩

theorem Settles.store (c : Cpu) (vaddr : UInt32) (size : Size) (v : UInt64) :
    Settles c (c.store vaddr size v).2 := by
  obtain ⟨d, h, hl, hs⟩ | ⟨d, h, hf⟩ := store_settles c vaddr size v
  · rw [h]
    exact steady hl hs
  · rw [h]
    exact fault hf

theorem Settles.writeCop0 (h : isVolatileCop0 r = false) (c : Cpu) (v : UInt64) :
    Settles c (c.writeCop0 r v) := by
  have hr : r ∉ [Cop0.status, Cop0.cause, Cop0.compare, Cop0.count] := by
    revert r
    decide
  have hne (s : Reg) (hs : s ∈ [Cop0.status, Cop0.cause, Cop0.compare, Cop0.count]) : r ≠ s := by
    intro hrs
    rw [hrs] at hr
    exact hr hs
  rw [Cpu.writeCop0, if_neg (hne Cop0.count (by decide)), if_neg (hne Cop0.compare (by decide)),
    if_neg (hne Cop0.status (by decide)), if_neg (hne Cop0.cause (by decide))]
  repeat' split
  all_goals first
    | exact setSysReg hr c _
    | exact steady rfl (.refl c)

end Cpu

namespace Interp

open Cpu

variable {c : Cpu} (i : Instr)

theorem settles_writeUnless (c : Cpu) (r : Reg) (overflow : Bool) (v : UInt64) :
    Settles c (writeUnless c r overflow v) := by
  cases overflow with
  | true => exact .fault (.plain .overflow (by decide))
  | false => exact .setReg c r v

theorem settles_execLoad (c : Cpu) (op : LoadOp) : Settles c (execLoad c i op) := by
  rw [execLoad]
  obtain ⟨v, d, h, hl, hs⟩ | ⟨d, h, hf⟩ := load_settles c (effective c i) (loadSize op)
  · rw [h]
    exact .after hl hs (.setReg d _ _)
  · rw [h]
    exact .fault hf

theorem settles_execLoadPart (c : Cpu) (side : Side) (width : Width) :
    Settles c (execLoadPart c i side width) := by
  rw [execLoadPart]
  obtain ⟨v, d, h, hl, hs⟩ | ⟨d, h, hf⟩ :=
    load_settles c (container (effective c i) width) (widthSize width)
  · rw [h]
    cases width with
    | word => exact .after hl hs (.setReg d _ _)
    | double => exact .after hl hs (.setReg d _ _)
  · rw [h]
    exact .fault hf

theorem settles_execStorePart (c : Cpu) (side : Side) (width : Width) :
    Settles c (execStorePart c i side width) := by
  rw [execStorePart]
  obtain ⟨v, d, h, hl, hs⟩ | ⟨d, h, hf⟩ :=
    load_settles c (container (effective c i) width) (widthSize width)
  · rw [h]
    exact .after hl hs (.store d _ _ _)
  · rw [h]
    exact .fault hf

theorem settles_execLoadLinked (c : Cpu) (width : Width) :
    Settles c (execLoadLinked c i width) := by
  rw [execLoadLinked]
  obtain ⟨v, d, h, hl, hs⟩ | ⟨d, h, hf⟩ := load_settles c (effective c i) (widthSize width)
  · rw [h]
    have hlink (e : Cpu) (v : UInt64) : Settles e { e.setSysReg Cop0.llAddr v with llBit := 1 } := by
      obtain ⟨hpc, hcycle, htlb, hsys, hround, hhooks⟩ :=
        Steady.setSysReg (r := Cop0.llAddr) (by decide) e v
      exact .steady rfl ⟨hpc, hcycle, htlb, hsys, hround, hhooks⟩
    exact .after hl hs (.after (setReg_leave d _ _) (.setReg d _ _) (hlink _ _))
  · rw [h]
    exact .fault hf

theorem settles_execStoreConditional (c : Cpu) (width : Width) :
    Settles c (execStoreConditional c i width) := by
  rw [execStoreConditional]
  split
  · exact .setReg c _ _
  · obtain ⟨d, h, hl, hs⟩ | ⟨d, h, hf⟩ :=
      store_settles c (effective c i) (widthSize width) (c.reg i.rt)
    · rw [h]
      have hlink : Steady d { d with llBit := 0 } := ⟨rfl, rfl, rfl, fun _ _ => rfl, rfl, rfl⟩
      exact .after hl hs (.after (c := { d with llBit := 0 }) rfl hlink (.setReg _ _ _))
    · rw [h]
      exact .fault hf

theorem settles_execLoadFp (c : Cpu) (width : Width) : Settles c (execLoadFp c i width) := by
  rw [execLoadFp]
  obtain ⟨v, d, h, hl, hs⟩ | ⟨d, h, hf⟩ := load_settles c (effective c i) (widthSize width)
  · rw [h]
    cases width with
    | word => exact .after hl hs (.setSingle d _ _)
    | double => exact .after hl hs (.setDouble d _ _)
  · rw [h]
    exact .fault hf

theorem settles_execConvert (c : Cpu) (op : FpOp) (v : Nat) :
    Settles c (execConvert c i op v) := by
  unfold execConvert
  dsimp only
  split
  all_goals first
    | exact .setSingle c _ _
    | exact .setDouble c _ _
    | exact .reserved c

theorem settles_execFp (c : Cpu) (format : FpFormat) (op : FpOp) :
    Settles c (execFp c i format op) := by
  have hcond (on : Bool) : Settles c (setCondition c on) := .steady rfl (.setCondition c on)
  have hinteger (n : Int) : Settles c (execInteger c i op n) := by
    unfold execInteger
    split
    · exact settles_execConvert i c _ _
    · exact settles_execConvert i c _ _
    · exact .reserved c
  cases format with
  | single =>
    rw [execFp]
    unfold execSingle
    dsimp only
    split
    all_goals first
      | exact hcond _
      | exact .setSingle c _ _
      | exact settles_execConvert i c _ _
  | double =>
    rw [execFp]
    unfold execDouble
    dsimp only
    split
    all_goals first
      | exact hcond _
      | exact .setDouble c _ _
      | exact settles_execConvert i c _ _
  | word => exact hinteger _
  | long => exact hinteger _

theorem settles_tlbRead (c : Cpu) : Settles c c.tlbRead := by
  have hkeep {r : Reg} (h : r ∉ [Cop0.status, Cop0.cause, Cop0.compare, Cop0.count]) {b : Cpu}
      (hb : b.leave = c.leave ∧ Steady c b) (v : UInt64) :
      (b.setSysReg r v).leave = c.leave ∧ Steady c (b.setSysReg r v) :=
    ⟨hb.1, hb.2.trans (.setSysReg h b v)⟩
  have hmask := hkeep (r := Cop0.pageMask) (by decide) ⟨rfl, .refl c⟩
  exact .inl (hkeep (by decide) (hkeep (by decide) (hkeep (by decide) (hmask _) _) _) _)

theorem settles_tlbProbe (c : Cpu) : Settles c c.tlbProbe := by
  unfold tlbProbe
  dsimp only
  split
  · exact .setSysReg (by decide) c _
  · exact .setSysReg (by decide) c _

variable {i}

/-- An instruction after which a trace goes on, by its kind. -/
theorem settles_effect (h : i.boundary = .continue) (pc : UInt32) : Settles c (effect c i pc) := by
  unfold Instr.boundary at h
  unfold effect
  dsimp only
  cases hk : i.kind with
  | shift op amount width => exact .setReg c _ _
  | alu op =>
    dsimp only
    rw [execAlu_eq]
    exact settles_writeUnless c _ _ _
  | imm op =>
    dsimp only
    rw [execImm_eq]
    exact settles_writeUnless c _ _ _
  | mulDiv op => exact .steady rfl ⟨rfl, rfl, rfl, fun _ _ => rfl, rfl, rfl⟩
  | mfhi => exact .setReg c _ _
  | mflo => exact .setReg c _ _
  | mthi => exact .steady rfl ⟨rfl, rfl, rfl, fun _ _ => rfl, rfl, rfl⟩
  | mtlo => exact .steady rfl ⟨rfl, rfl, rfl, fun _ _ => rfl, rfl, rfl⟩
  | sync => exact .steady rfl (.refl c)
  | load op => exact settles_execLoad i c op
  | store size => exact .store c _ _ _
  | loadPart side width => exact settles_execLoadPart i c side width
  | storePart side width => exact settles_execStorePart i c side width
  | loadLinked width => exact settles_execLoadLinked i c width
  | storeConditional width => exact settles_execStoreConditional i c width
  | loadFp width => exact settles_execLoadFp i c width
  | storeFp width => exact .store c _ _ _
  | mfc0 width =>
    cases width with
    | word => exact .setReg c _ _
    | double => exact .setReg c _ _
  | mtc0 width =>
    have hvolatile : isVolatileCop0 i.rd = false := by
      cases hv : isVolatileCop0 i.rd with
      | false => rfl
      | true =>
        rw [hk] at h
        simp only [hv, if_true] at h
        cases h
    cases width with
    | word => exact .writeCop0 hvolatile c _
    | double => exact .writeCop0 hvolatile c _
  | system op =>
    rw [hk] at h
    cases op with
    | tlbr => exact settles_tlbRead c
    | tlbp => exact settles_tlbProbe c
    | tlbwi => cases h
    | tlbwr => cases h
    | eret => cases h
  | mfc1 width =>
    cases width with
    | word => exact .setReg c _ _
    | double => exact .setReg c _ _
  | mtc1 width =>
    cases width with
    | word => exact .setSingle c _ _
    | double => exact .setDouble c _ _
  | cfc1 => exact .setReg c _ _
  | fp format op => exact settles_execFp i c format op
  | jal | jalr | j | jr | branchEq | branchZero | branchSign | branchFp | syscall | breakpoint
  | cache | trap | trapImm | systemAlias | ctc1 | reserved =>
    rw [hk] at h
    cases h

theorem boundary_eq_endDelay_iff (c : Cpu) (i : Instr) (pc : UInt32) :
    i.boundary = .endDelay ↔ (branch? c i pc).isSome = true := by
  unfold Instr.boundary branch?
  dsimp only
  cases i.kind with
  | branchEq cond likely => cases cond <;> exact ⟨fun _ => rfl, fun _ => rfl⟩
  | branchZero cond likely => cases cond <;> exact ⟨fun _ => rfl, fun _ => rfl⟩
  | branchSign cond link likely => cases cond <;> exact ⟨fun _ => rfl, fun _ => rfl⟩
  | j | jal | jr | jalr | branchFp => exact ⟨fun _ => rfl, fun _ => rfl⟩
  | mtc0 width =>
    dsimp only
    split
    · exact ⟨nofun, nofun⟩
    · exact ⟨nofun, nofun⟩
  | system op => cases op <;> exact ⟨nofun, nofun⟩
  | _ => exact ⟨nofun, nofun⟩

theorem branch?_flags {b : Branch} {pc : UInt32} (h : branch? c i pc = some b) :
    b.likely = i.isLikely ∧ (i.isJump = true → b.taken = true) := by
  unfold branch? at h
  dsimp only at h
  have hjump (k : Kind) (hk : i.kind = k) (hj : k.isJump = false) (P : Prop) :
      i.isJump = true → P := by
    intro hi
    rw [Instr.isJump, hk, hj] at hi
    cases hi
  split at h <;> rename_i hk
  all_goals cases h
  case _ | _ | _ | _ =>
    refine ⟨?_, fun _ => rfl⟩
    rw [Instr.isLikely, hk]
  all_goals exact ⟨rfl, hjump _ hk rfl _⟩

/-- The places where traces end are those that the interpreter gives reason for. An instruction
after which a trace goes on keeps the state steady or raises an exception, and the ends with a
delay slot are the branches, with their flags. -/
theorem exec_boundary (c : Cpu) (i : Instr) :
    (i.boundary = .continue →
      (exec c i).1 = true ∧ Steady c (exec c i).2 ∨
        (exec c i).1 = false ∧ ∃ b, Steady c b ∧ Fault b (exec c i).2) ∧
      ∀ pc, (i.boundary = .endDelay ↔ (branch? c i pc).isSome = true) ∧
        ∀ b, branch? c i pc = some b →
          b.likely = i.isLikely ∧ (i.isJump = true → b.taken = true) := by
  refine ⟨fun h => ?_, fun pc => ⟨boundary_eq_endDelay_iff c i pc, fun b => branch?_flags⟩⟩
  obtain ⟨hleave, hs⟩ | ⟨b, hs, hf⟩ := settles_effect (c := { c with leave := 0 }) h c.pc
  · refine .inl ⟨beq_iff_eq.mpr hleave, ?_⟩
    exact ⟨hs.pc, hs.cycle, hs.tlb, hs.sysReg, hs.rounding, hs.hooks⟩
  · refine .inr ⟨?_, b, ⟨hs.pc, hs.cycle, hs.tlb, hs.sysReg, hs.rounding, hs.hooks⟩, hf⟩
    have hone : (effect { c with leave := 0 } i c.pc).leave = 1 := by
      rw [hf.trapped.same]
    exact beq_eq_false_iff_ne.mpr (by rw [hone]; decide)

/-- A sum that keeps the state steady, and a jump. -/
theorem exec_boundary_sum : (⟨0x24420001⟩ : Instr).boundary = .continue ∧
    ((exec (powerOn ⟨#[], #[], []⟩ none) ⟨0x24420001⟩).1 = true ∧
        Steady (powerOn ⟨#[], #[], []⟩ none)
          (exec (powerOn ⟨#[], #[], []⟩ none) ⟨0x24420001⟩).2 ∨
      (exec (powerOn ⟨#[], #[], []⟩ none) ⟨0x24420001⟩).1 = false ∧
        ∃ b, Steady (powerOn ⟨#[], #[], []⟩ none) b ∧
          Fault b (exec (powerOn ⟨#[], #[], []⟩ none) ⟨0x24420001⟩).2) ∧
    ∃ b, branch? (powerOn ⟨#[], #[], []⟩ none) ⟨0x08000040⟩ 0 = some b ∧ b.taken = true := by
  obtain ⟨hsum, -⟩ := exec_boundary (powerOn ⟨#[], #[], []⟩ none) ⟨0x24420001⟩
  obtain ⟨-, hjump⟩ := exec_boundary (powerOn ⟨#[], #[], []⟩ none) ⟨0x08000040⟩
  exact ⟨by decide, hsum (by decide), _, rfl, ((hjump 0).2 _ rfl).2 (by decide)⟩

end Interp

end Recompiler
