import Recompiler.Proofs.DelaySlots

/-!
Precise exceptions. An instruction that does not complete, and is no return from an exception,
has raised one before it wrote anything: the state is the one before it, but for the registers in
which the exception is recorded and for where control goes.
-/

namespace Recompiler

open Interp

def Cop0.recording : List Reg :=
  [Cop0.epc, Cop0.cause, Cop0.status, Cop0.badVAddr, Cop0.context, Cop0.entryHi]

namespace Cpu

variable {c d : Cpu} {vaddr : UInt32} {write : Bool}

def causeCode (c : Cpu) : UInt32 := (c.cause &&& CauseBit.code) >>> 2

def badAddress (c : Cpu) : UInt32 := (c.sysReg Cop0.badVAddr).toUInt32

/-- Is the exception recorded in `d` one of an access that no entry matches in `c`? -/
def missed (c d : Cpu) : Bool :=
  d.causeCode == Exception.tlbLoad.code && c.lookup d.badAddress false == .miss
    || d.causeCode == Exception.tlbStore.code && c.lookup d.badAddress true == .miss

def resumeAddress (c : Cpu) : UInt32 := if c.delay != 0 then c.pc - 4 else c.pc

/-- An exception in `c` has led to `d`, and nothing else has happened. -/
structure Trapped (c d : Cpu) : Prop where
  /-- All but coprocessor 0 and the place of control is as it was. -/
  same : d = { c with cop0 := d.cop0, pc := d.pc, delay := 0, leave := 1 }
  sysReg : ∀ r, r ∉ Cop0.recording → d.sysReg r = c.sysReg r
  status : d.sysReg Cop0.status = c.sysReg Cop0.status ||| StatusBit.exl.toUInt64
  pc : d.pc = vector c.status (missed c d)
  epc : c.isHandling = false → d.sysReg Cop0.epc = sextWord c.resumeAddress

/-- An exception of an instruction. -/
inductive Fault (c : Cpu) : Cpu → Prop
  | plain (e : Exception) : e.code ∉ [Exception.tlbLoad.code, Exception.tlbStore.code] →
    Fault c (c.raise e)
  | address (vaddr : UInt32) (write : Bool) : Fault c (c.raiseAddressError vaddr write)
  | refill (vaddr : UInt32) (write : Bool) : c.lookup vaddr write = .miss →
    Fault c (c.raiseRefill vaddr write)
  | invalid (vaddr : UInt32) (write : Bool) : c.lookup vaddr write = .invalid →
    Fault c (c.raiseTlb vaddr (.tlb write))
  | modified (vaddr : UInt32) : Fault c (c.raiseTlb vaddr .tlbModified)

/-- The return address is written unless an exception is being handled. -/
def keepReturn (c : Cpu) : Cpu :=
  if c.isHandling then c else c.setSysReg Cop0.epc (sextWord c.resumeAddress)

theorem sysReg_keepReturn {r : Reg} (h : r ≠ Cop0.epc) (c : Cpu) :
    c.keepReturn.sysReg r = c.sysReg r := by
  unfold keepReturn
  split
  · rfl
  · exact sysReg_setSysReg_of_ne h.symm c _

theorem enter_eq (c : Cpu) (code : UInt32) (refill : Bool) :
    ∃ old, c.enter code refill =
      { (c.keepReturn.setSysReg Cop0.cause
          (sextWord ((old &&& ~~~CauseBit.code) ||| ((code <<< 2) &&& CauseBit.code)))).setSysReg
            Cop0.status (c.sysReg Cop0.status ||| StatusBit.exl.toUInt64) with
        pc := vector c.status refill, delay := 0, leave := 1 } := by
  have hk : c.keepReturn = if c.status &&& StatusBit.exl != 0 then c
      else c.setSysReg Cop0.epc (sextWord (if c.delay != 0 then c.pc - 4 else c.pc)) := rfl
  unfold enter
  dsimp only
  rw [← hk, sysReg_setSysReg_of_ne (by decide), sysReg_keepReturn (by decide)]
  exact ⟨_, rfl⟩

theorem same_keepReturn (c : Cpu) : c.keepReturn = { c with cop0 := c.keepReturn.cop0 } := by
  unfold keepReturn
  split
  · rfl
  · rfl

theorem same_enter (c : Cpu) (code : UInt32) (refill : Bool) :
    c.enter code refill = { c with
      cop0 := (c.enter code refill).cop0
      pc := vector c.status refill
      delay := 0
      leave := 1 } := by
  obtain ⟨old, he⟩ := enter_eq c code refill
  rw [he, same_keepReturn]
  rfl

theorem sysReg_enter (c : Cpu) (code : UInt32) (refill : Bool) {r : Reg} (hc : r ≠ Cop0.cause)
    (hs : r ≠ Cop0.status) : (c.enter code refill).sysReg r = c.keepReturn.sysReg r := by
  obtain ⟨old, he⟩ := enter_eq c code refill
  rw [he]
  change (setSysReg _ Cop0.status _).sysReg r = _
  rw [sysReg_setSysReg_of_ne hs.symm, sysReg_setSysReg_of_ne hc.symm]

theorem sysReg_enter_status (c : Cpu) (code : UInt32) (refill : Bool) :
    (c.enter code refill).sysReg Cop0.status
      = c.sysReg Cop0.status ||| StatusBit.exl.toUInt64 := by
  obtain ⟨old, he⟩ := enter_eq c code refill
  rw [he]
  exact sysReg_setSysReg_self _ _ _

theorem causeCode_enter (c : Cpu) (e : Exception) (refill : Bool) :
    (c.enter e.code refill).causeCode = e.code := by
  obtain ⟨old, he⟩ := enter_eq c e.code refill
  have hcause : (c.enter e.code refill).cause
      = (old &&& ~~~CauseBit.code) ||| ((e.code <<< 2) &&& CauseBit.code) := by
    rw [he]
    change UInt64.toUInt32 (sysReg (setSysReg _ Cop0.status _) Cop0.cause) = _
    rw [sysReg_setSysReg_of_ne (by decide), sysReg_setSysReg_self, toUInt32_sextWord]
  have hclear : ((old &&& ~~~CauseBit.code) ||| ((e.code <<< 2) &&& CauseBit.code))
      &&& CauseBit.code = (e.code <<< 2) &&& CauseBit.code := by
    apply UInt32.eq_of_toBitVec_eq
    ext n hn
    simp only [UInt32.toBitVec_or, UInt32.toBitVec_and, UInt32.toBitVec_not, BitVec.getElem_or,
      BitVec.getElem_and, BitVec.getElem_not]
    grind
  unfold causeCode
  rw [hcause, hclear]
  cases e <;> rfl

theorem badAddress_enter (c : Cpu) (code : UInt32) (refill : Bool) :
    (c.enter code refill).badAddress = c.badAddress := by
  unfold badAddress
  rw [sysReg_enter c code refill (by decide) (by decide), sysReg_keepReturn (by decide)]

theorem badAddress_setBadAddress (c : Cpu) (vaddr : UInt32) :
    (c.setBadAddress vaddr).badAddress = vaddr := by
  unfold setBadAddress badAddress
  dsimp only
  rw [sysReg_setSysReg_of_ne (by decide), sysReg_setSysReg_of_ne (by decide),
    sysReg_setSysReg_self, toUInt32_sextWord]

theorem sysReg_setBadAddress {r : Reg} (h : r ∉ [Cop0.badVAddr, Cop0.context, Cop0.entryHi])
    (c : Cpu) (vaddr : UInt32) : (c.setBadAddress vaddr).sysReg r = c.sysReg r := by
  simp only [List.mem_cons, List.not_mem_nil, or_false, not_or] at h
  obtain ⟨hb, hc, he⟩ := h
  unfold setBadAddress
  dsimp only
  rw [sysReg_setSysReg_of_ne (Ne.symm he), sysReg_setSysReg_of_ne (Ne.symm hc),
    sysReg_setSysReg_of_ne (Ne.symm hb)]

/-- What may be written before the handler is entered: the address of a failed access, in the
registers that hold one. -/
structure Recorded (c d : Cpu) : Prop where
  same : d = { c with cop0 := d.cop0 }
  sysReg : ∀ r, r ∉ [Cop0.badVAddr, Cop0.context, Cop0.entryHi] → d.sysReg r = c.sysReg r

theorem recorded_setBadAddress (c : Cpu) (vaddr : UInt32) : Recorded c (c.setBadAddress vaddr) :=
  ⟨rfl, fun _ h => sysReg_setBadAddress h c vaddr⟩

theorem recorded_badVAddr (c : Cpu) (v : UInt64) : Recorded c (c.setSysReg Cop0.badVAddr v) := by
  refine ⟨rfl, fun r h => sysReg_setSysReg_of_ne ?_ c v⟩
  rintro rfl
  exact h (by decide)

theorem trapped_enter (h : Recorded c d) (code : UInt32) (refill : Bool)
    (hm : missed c (d.enter code refill) = refill) : Trapped c (d.enter code refill) := by
  have hstatus : d.status = c.status := congrArg UInt64.toUInt32 (h.sysReg _ (by decide))
  obtain ⟨v, rfl⟩ : ∃ v, d = { c with cop0 := v } := ⟨_, h.same⟩
  refine ⟨same_enter _ code refill, ?_, ?_, ?_, ?_⟩
  · intro r hr
    simp only [Cop0.recording, List.mem_cons, List.not_mem_nil, or_false, not_or] at hr
    obtain ⟨he, hc, hs, hb, hx, hh⟩ := hr
    rw [sysReg_enter _ code refill hc hs, sysReg_keepReturn he]
    refine h.sysReg r ?_
    simp only [List.mem_cons, List.not_mem_nil, or_false, not_or]
    exact ⟨hb, hx, hh⟩
  · rw [sysReg_enter_status, h.sysReg _ (by decide)]
  · rw [hm, same_enter]
    exact congrArg (vector · refill) hstatus
  · intro hh
    have hn : { c with cop0 := v }.isHandling = false := by
      unfold isHandling
      rw [hstatus]
      exact hh
    rw [sysReg_enter _ code refill (by decide) (by decide), keepReturn, hn]
    exact sysReg_setSysReg_self _ _ _

theorem missed_eq_false {e : Exception} {refill : Bool}
    (h : e.code ∉ [Exception.tlbLoad.code, Exception.tlbStore.code]) :
    missed c (d.enter e.code refill) = false := by
  simp only [List.mem_cons, List.not_mem_nil, or_false, not_or] at h
  unfold missed
  rw [causeCode_enter, beq_eq_false_iff_ne.mpr h.1, beq_eq_false_iff_ne.mpr h.2]
  rfl

theorem missed_tlb (refill : Bool) :
    missed c ((c.setBadAddress vaddr).enter (Exception.tlb write).code refill)
      = (c.lookup vaddr write == .miss) := by
  unfold missed
  rw [causeCode_enter, badAddress_enter, badAddress_setBadAddress]
  cases write
  · exact Bool.or_false _
  · rfl

theorem Fault.trapped (h : Fault c d) : Trapped c d := by
  cases h with
  | plain e he => exact trapped_enter ⟨rfl, fun _ _ => rfl⟩ _ _ (missed_eq_false he)
  | address vaddr write =>
    refine trapped_enter (recorded_badVAddr c _) _ _ (missed_eq_false ?_)
    cases write <;> decide
  | refill vaddr write h =>
    refine trapped_enter (recorded_setBadAddress c vaddr) _ _ ?_
    rw [missed_tlb, h]
    rfl
  | invalid vaddr write h =>
    refine trapped_enter (recorded_setBadAddress c vaddr) _ _ ?_
    rw [missed_tlb, h]
    rfl
  | modified vaddr =>
    exact trapped_enter (recorded_setBadAddress c vaddr) _ _ (missed_eq_false (by decide))

/-- An instruction completes, or raises an exception and does nothing else. -/
def Ends (c d : Cpu) : Prop := d.leave = c.leave ∨ Fault c d

theorem ends_same (h : d.leave = c.leave) : Ends c d := .inl h

theorem ends_raise {e : Exception}
    (h : e.code ∉ [Exception.tlbLoad.code, Exception.tlbStore.code]) : Ends c (c.raise e) :=
  .inr (.plain e h)

theorem ends_setReg (c : Cpu) (r : Reg) (v : UInt64) : Ends c (c.setReg r v) :=
  .inl (setReg_leave c r v)

theorem toPhysical_cases (c : Cpu) (vaddr : UInt32) (write : Bool) :
    (∃ paddr, c.toPhysical vaddr write = (some paddr, c)) ∨
    ∃ d, c.toPhysical vaddr write = (none, d) ∧ Fault c d := by
  unfold toPhysical
  cases h : c.lookup vaddr write with
  | found paddr => exact .inl ⟨paddr, rfl⟩
  | miss => exact .inr ⟨_, rfl, .refill vaddr write h⟩
  | invalid => exact .inr ⟨_, rfl, .invalid vaddr write h⟩
  | modified => exact .inr ⟨_, rfl, .modified vaddr⟩

theorem load_faults (hdev : c.mem.devices = []) (vaddr : UInt32) (size : Size) :
    (∃ v, c.load vaddr size = (some v, c)) ∨ ∃ d, c.load vaddr size = (none, d) ∧ Fault c d := by
  unfold load
  split
  · rcases toPhysical_cases c vaddr false with ⟨paddr, h⟩ | ⟨d, h, hf⟩
    · have hnone : c.mem.deviceAt? paddr = none := by
        unfold Memory.deviceAt?
        rw [hdev]
        rfl
      rw [h]
      simp only [readPhys, hnone]
      exact .inl ⟨_, rfl⟩
    · rw [h]
      exact .inr ⟨d, rfl, hf⟩
  · exact .inr ⟨_, rfl, .address vaddr false⟩

theorem store_faults (c : Cpu) (vaddr : UInt32) (size : Size) (v : UInt64) :
    (∃ d, c.store vaddr size v = (true, d) ∧ d.leave = c.leave) ∨
    ∃ d, c.store vaddr size v = (false, d) ∧ Fault c d := by
  unfold store
  split
  · rcases toPhysical_cases c vaddr true with ⟨paddr, h⟩ | ⟨d, h, hf⟩
    · rw [h]
      exact .inl ⟨_, rfl, writePhys_leave c paddr size v⟩
    · rw [h]
      exact .inr ⟨d, rfl, hf⟩
  · exact .inr ⟨_, rfl, .address vaddr true⟩

theorem ends_store (c : Cpu) (vaddr : UInt32) (size : Size) (v : UInt64) :
    Ends c (c.store vaddr size v).2 := by
  rcases store_faults c vaddr size v with ⟨d, h, hl⟩ | ⟨d, h, hf⟩
  · rw [h]
    exact .inl hl
  · rw [h]
    exact .inr hf

theorem ends_writeCop0 (c : Cpu) (r : Reg) (v : UInt64) : Ends c (c.writeCop0 r v) := by
  unfold writeCop0
  dsimp only
  repeat' split
  all_goals first
    | exact ends_same rfl
    | skip
  unfold writeStatus
  dsimp only
  split
  · exact ends_same rfl
  · exact ends_same rfl

end Cpu

namespace Interp

open Cpu

variable {c : Cpu} (i : Instr)

theorem ends_writeUnless (c : Cpu) (r : Reg) (overflow : Bool) (v : UInt64) :
    Ends c (writeUnless c r overflow v) := by
  cases overflow with
  | true => exact ends_raise (by decide)
  | false => exact ends_setReg c r v

theorem ends_execTrap (c : Cpu) (cond : TrapCond) (x y : UInt64) :
    Ends c (execTrap c cond x y) := by
  unfold execTrap
  split
  · exact ends_raise (by decide)
  · exact ends_same rfl

theorem ends_execLoad (hdev : c.mem.devices = []) (op : LoadOp) : Ends c (execLoad c i op) := by
  unfold execLoad
  rcases load_faults hdev (effective c i) (loadSize op) with ⟨v, h⟩ | ⟨d, h, hf⟩
  · rw [h]
    exact ends_setReg c _ _
  · rw [h]
    exact .inr hf

theorem ends_execLoadPart (hdev : c.mem.devices = []) (side : Side) (width : Width) :
    Ends c (execLoadPart c i side width) := by
  unfold execLoadPart
  dsimp only
  rcases load_faults hdev (container (effective c i) width) (widthSize width) with
    ⟨v, h⟩ | ⟨d, h, hf⟩
  · rw [h]
    cases width with
    | word => exact ends_setReg c _ _
    | double => exact ends_setReg c _ _
  · rw [h]
    exact .inr hf

theorem ends_execStorePart (hdev : c.mem.devices = []) (side : Side) (width : Width) :
    Ends c (execStorePart c i side width) := by
  unfold execStorePart
  dsimp only
  rcases load_faults hdev (container (effective c i) width) (widthSize width) with
    ⟨v, h⟩ | ⟨d, h, hf⟩
  · rw [h]
    exact ends_store c _ _ _
  · rw [h]
    exact .inr hf

theorem ends_execLoadLinked (hdev : c.mem.devices = []) (width : Width) :
    Ends c (execLoadLinked c i width) := by
  unfold execLoadLinked
  dsimp only
  rcases load_faults hdev (effective c i) (widthSize width) with ⟨v, h⟩ | ⟨d, h, hf⟩
  · rw [h]
    exact ends_same (setReg_leave c _ _)
  · rw [h]
    exact .inr hf

theorem ends_execStoreConditional (c : Cpu) (width : Width) :
    Ends c (execStoreConditional c i width) := by
  unfold execStoreConditional
  split
  · exact ends_setReg c _ _
  · rcases store_faults c (effective c i) (widthSize width) (c.reg i.rt) with
      ⟨d, h, hl⟩ | ⟨d, h, hf⟩
    · rw [h]
      exact ends_same ((setReg_leave _ _ _).trans hl)
    · rw [h]
      exact .inr hf

theorem ends_execLoadFp (hdev : c.mem.devices = []) (width : Width) :
    Ends c (execLoadFp c i width) := by
  unfold execLoadFp
  rcases load_faults hdev (effective c i) (widthSize width) with ⟨v, h⟩ | ⟨d, h, hf⟩
  · rw [h]
    cases width with
    | word => exact ends_same rfl
    | double => exact ends_same rfl
  · rw [h]
    exact .inr hf

theorem ends_execConvert (c : Cpu) (op : FpOp) (v : Nat) : Ends c (execConvert c i op v) := by
  unfold execConvert
  dsimp only
  split
  all_goals first
    | exact ends_same rfl
    | exact ends_raise (by decide)

theorem ends_execInteger (c : Cpu) (op : FpOp) (n : Int) : Ends c (execInteger c i op n) := by
  unfold execInteger
  split
  all_goals first
    | exact ends_execConvert i c _ _
    | exact ends_raise (by decide)

theorem ends_execFp (c : Cpu) (format : FpFormat) (op : FpOp) :
    Ends c (execFp c i format op) := by
  cases format with
  | single =>
    change Ends c (execSingle c i op)
    unfold execSingle
    dsimp only
    split
    all_goals first
      | exact ends_same rfl
      | exact ends_execConvert i c _ _
  | double =>
    change Ends c (execDouble c i op)
    unfold execDouble
    dsimp only
    split
    all_goals first
      | exact ends_same rfl
      | exact ends_execConvert i c _ _
  | word => exact ends_execInteger i c op _
  | long => exact ends_execInteger i c op _

theorem ends_execSystem (c : Cpu) {op : SystemOp} (h : op ≠ .eret) : Ends c (execSystem c op) := by
  cases op with
  | tlbr => exact ends_same rfl
  | tlbwi => exact ends_same rfl
  | tlbwr => exact ends_same rfl
  | tlbp =>
    change Ends c c.tlbProbe
    unfold tlbProbe
    dsimp only
    split
    · exact ends_same rfl
    · exact ends_same rfl
  | eret => contradiction

theorem ends_writeControl (c : Cpu) (r : Reg) (v : UInt32) : Ends c (writeControl c r v) := by
  unfold writeControl
  split
  · exact ends_same rfl
  · exact ends_same rfl

variable {i}

/-- Every instruction but a return from an exception completes, or has only raised an
exception. -/
theorem ends_effect (hdev : c.mem.devices = []) (h : i.isReturn = false) (pc : UInt32) :
    Ends c (effect c i pc) := by
  unfold Instr.isReturn at h
  unfold effect
  dsimp only
  cases hk : i.kind with
  | shift op amount width => exact ends_setReg c _ _
  | alu op =>
    dsimp only
    rw [execAlu_eq]
    exact ends_writeUnless c _ _ _
  | imm op =>
    dsimp only
    rw [execImm_eq]
    exact ends_writeUnless c _ _ _
  | mulDiv op => exact ends_same rfl
  | mfhi => exact ends_setReg c _ _
  | mflo => exact ends_setReg c _ _
  | mthi => exact ends_same rfl
  | mtlo => exact ends_same rfl
  | jal => exact ends_setReg c _ _
  | jalr => exact ends_setReg c _ _
  | j => exact ends_same rfl
  | jr => exact ends_same rfl
  | branchEq op likely => exact ends_same rfl
  | branchZero op likely => exact ends_same rfl
  | branchSign op link likely =>
    cases link with
    | true => exact ends_setReg c _ _
    | false => exact ends_same rfl
  | branchFp => exact ends_same rfl
  | syscall => exact ends_raise (by decide)
  | breakpoint => exact ends_raise (by decide)
  | sync => exact ends_same rfl
  | cache => exact ends_same rfl
  | trap cond => exact ends_execTrap c cond _ _
  | trapImm cond => exact ends_execTrap c cond _ _
  | load op => exact ends_execLoad i hdev op
  | store size => exact ends_store c _ _ _
  | loadPart side width => exact ends_execLoadPart i hdev side width
  | storePart side width => exact ends_execStorePart i hdev side width
  | loadLinked width => exact ends_execLoadLinked i hdev width
  | storeConditional width => exact ends_execStoreConditional i c width
  | loadFp width => exact ends_execLoadFp i hdev width
  | storeFp width => exact ends_store c _ _ _
  | mfc0 width =>
    cases width with
    | word => exact ends_setReg c _ _
    | double => exact ends_setReg c _ _
  | mtc0 width =>
    cases width with
    | word => exact ends_writeCop0 c _ _
    | double => exact ends_writeCop0 c _ _
  | system op =>
    refine ends_execSystem c fun he => ?_
    simp only [hk, he, Bool.true_eq_false] at h
  | systemAlias op =>
    cases op with
    | none => exact ends_same rfl
    | some op =>
      refine ends_execSystem c fun he => ?_
      simp only [hk, he, Bool.true_eq_false] at h
  | mfc1 width =>
    cases width with
    | word => exact ends_setReg c _ _
    | double => exact ends_setReg c _ _
  | mtc1 width =>
    cases width with
    | word => exact ends_same rfl
    | double => exact ends_same rfl
  | cfc1 => exact ends_setReg c _ _
  | ctc1 => exact ends_writeControl c _ _
  | fp format op => exact ends_execFp i c format op
  | reserved => exact ends_raise (by decide)

theorem exec_trapped (hdev : c.mem.devices = []) (hr : i.isReturn = false)
    (h : (exec c i).1 = false) : Trapped c (exec c i).2 := by
  have hends : Ends { c with leave := 0 } (exec c i).2 :=
    ends_effect (c := { c with leave := 0 }) hdev hr c.pc
  rcases hends with hl | hf
  · have hone : (exec c i).2.leave ≠ 0 := beq_eq_false_iff_ne.mp h
    exact absurd hl hone
  · -- the flag that execution clears is set again by the exception
    obtain ⟨hsame, hregs, hstatus, hpc, hepc⟩ := hf.trapped
    exact ⟨hsame, hregs, hstatus, hpc, hepc⟩

end Interp

theorem and_toUInt64 (s : UInt64) (m : UInt32) :
    s &&& m.toUInt64 = (s.toUInt32 &&& m).toUInt64 := by
  apply UInt64.eq_of_toBitVec_eq
  ext n hn
  simp only [UInt64.toBitVec_and, UInt32.toBitVec_toUInt64, UInt32.toBitVec_and,
    UInt64.toBitVec_toUInt32, BitVec.getElem_and, BitVec.getElem_setWidth, BitVec.getLsbD_and,
    BitVec.getLsbD_setWidth]
  rw [← BitVec.getLsbD_eq_getElem]
  by_cases hlow : n < 32
  · simp [hlow]
  · rw [BitVec.getLsbD_of_ge m.toBitVec n (by omega)]
    simp

theorem or_and_not {s m : UInt64} (h : s &&& m = 0) : (s ||| m) &&& ~~~m = s := by
  apply UInt64.eq_of_toBitVec_eq
  ext n hn
  have hbit : (s.toBitVec[n] && m.toBitVec[n]) = false := by
    rw [← BitVec.getElem_and, ← UInt64.toBitVec_and, h]
    simp
  simp only [UInt64.toBitVec_or, UInt64.toBitVec_and, UInt64.toBitVec_not, BitVec.getElem_or,
    BitVec.getElem_and, BitVec.getElem_not]
  grind

theorem or_and_of_and_eq_zero {m k : UInt32} (h : m &&& k = 0) (s : UInt32) :
    (s ||| m) &&& k = s &&& k := by
  apply UInt32.eq_of_toBitVec_eq
  ext n hn
  have hbit : (m.toBitVec[n] && k.toBitVec[n]) = false := by
    rw [← BitVec.getElem_and, ← UInt32.toBitVec_and, h]
    simp
  simp only [UInt32.toBitVec_or, UInt32.toBitVec_and, BitVec.getElem_or, BitVec.getElem_and]
  grind

namespace Cpu

variable {c d : Cpu}

theorem Trapped.erl (h : Trapped c d) (herl : c.status &&& StatusBit.erl = 0) :
    d.status &&& StatusBit.erl = 0 := by
  change (d.sysReg Cop0.status).toUInt32 &&& StatusBit.erl = 0
  rw [h.status, UInt64.toUInt32_or, UInt32.toUInt32_toUInt64, or_and_of_and_eq_zero (by decide)]
  exact herl

theorem eret_of_erl (h : c.status &&& StatusBit.erl = 0) :
    c.eret = { c.setSysReg Cop0.status (c.sysReg Cop0.status &&& ~~~StatusBit.exl.toUInt64) with
      pc := (c.sysReg Cop0.epc).toUInt32, llBit := 0, leave := 1 } := by
  have hclear : (c.status &&& StatusBit.erl != 0) = false := bne_eq_false_iff_eq.mpr h
  unfold eret
  dsimp only
  rw [hclear]
  rfl

theorem Trapped.eret (h : Trapped c d) (hexl : c.isHandling = false)
    (herl : c.status &&& StatusBit.erl = 0) :
    d.eret.sysReg Cop0.status = c.sysReg Cop0.status ∧ d.eret.pc = c.resumeAddress := by
  rw [eret_of_erl (h.erl herl)]
  constructor
  · refine (sysReg_setSysReg_self _ _ _).trans ?_
    rw [h.status]
    apply or_and_not
    rw [and_toUInt64]
    exact congrArg UInt32.toUInt64 (bne_eq_false_iff_eq.mp hexl)
  · dsimp only
    rw [h.epc hexl, toUInt32_sextWord]

end Cpu

namespace Interp

open Cpu

variable {c : Cpu} {i j : Instr}

theorem kind_of_isReturn (h : j.isReturn = true) :
    j.kind = .system .eret ∨ j.kind = .systemAlias (some .eret) := by
  unfold Instr.isReturn at h
  split at h
  · exact .inl ‹_›
  · exact .inr ‹_›
  · contradiction

theorem exec_of_isReturn (h : j.isReturn = true) (d : Cpu) : (exec d j).2 = d.eret := by
  have hleave : { d with leave := 0 }.eret = d.eret := by
    have hs : { d with leave := 0 }.status = d.status := rfl
    unfold eret
    rw [hs]
    split
    · rfl
    · rfl
  rw [← hleave]
  unfold exec effect
  rcases kind_of_isReturn h with hk | hk
  · rw [hk]
    rfl
  · rw [hk]
    rfl

/-- Exceptions are precise. An instruction that does not complete, and is no return from an
exception, has changed nothing but the registers of the exception and the place of control; and
if no exception or error was being handled, a return gives back the status register and resumes
at the instruction, or at the branch before it in a delay slot. -/
theorem exec_precise (hdev : c.mem.devices = []) (hr : i.isReturn = false)
    (h : (exec c i).1 = false) :
    Trapped c (exec c i).2 ∧
      (c.isHandling = false → c.status &&& StatusBit.erl = 0 → ∀ j : Instr, j.isReturn = true →
        (exec (exec c i).2 j).2.sysReg Cop0.status = c.sysReg Cop0.status ∧
          (exec (exec c i).2 j).2.pc = c.resumeAddress) := by
  have ht := exec_trapped hdev hr h
  refine ⟨ht, fun hexl herl j hj => ?_⟩
  rw [exec_of_isReturn hj]
  exact ht.eret hexl herl

/-- A load from an odd address in a delay slot, in the state after power on. -/
theorem exec_precise_odd_load :
    Trapped (powerOn ⟨#[], #[], []⟩ none).slot
        (exec (powerOn ⟨#[], #[], []⟩ none).slot ⟨0x8c010001⟩).2 ∧
      (exec (exec (powerOn ⟨#[], #[], []⟩ none).slot ⟨0x8c010001⟩).2 ⟨0x42000018⟩).2.pc
        = resetVector - 4 := by
  have h := exec_precise (c := (powerOn ⟨#[], #[], []⟩ none).slot) (i := ⟨0x8c010001⟩)
    rfl (by decide) (by decide)
  exact ⟨h.1, (h.2 (by decide) (by decide) ⟨0x42000018⟩ (by decide)).2⟩

end Interp

end Recompiler
