import Recompiler.Proofs.Constants

/-!
What the mark of a delay slot changes. An instruction in a delay slot does what it does elsewhere;
only if it raises an exception, and none is being handled, the return address is that of the
branch and the cause register says so.
-/

namespace Recompiler

open Interp

def Instr.isReturn (i : Instr) : Bool :=
  match i.kind with
  | .system .eret | .systemAlias (some .eret) => true
  | _ => false

namespace Cpu

variable {c d : Cpu} {i : Instr} {pc : UInt32}

def slot (c : Cpu) : Cpu := { c with delay := 1 }

def cleared (c : Cpu) : Cpu := { c with leave := 0, delay := 0 }

def goto (c : Cpu) (pc : UInt32) : Cpu := { c with pc := pc }

def isHandling (c : Cpu) : Bool := c.status &&& StatusBit.exl != 0

/-- The state after an exception in the delay slot of a branch at `pc`, from the one after the
same exception elsewhere. -/
def atBranch (c : Cpu) (pc : UInt32) : Cpu :=
  (c.setSysReg Cop0.epc (sextWord pc)).setSysReg Cop0.cause
    (sextWord (c.cause ||| CauseBit.branchDelay))

theorem setSysReg_setSysReg (c : Cpu) (r : Reg) (v w : UInt64) :
    (c.setSysReg r v).setSysReg r w = c.setSysReg r w := by
  unfold setSysReg Vector.put
  rw [Vector.set_set]

theorem setSysReg_comm {r s : Reg} (h : r ≠ s) (c : Cpu) (v w : UInt64) :
    (c.setSysReg r v).setSysReg s w = (c.setSysReg s w).setSysReg r v := by
  unfold setSysReg Vector.put
  rw [Vector.set_comm _ _ fun he => h (Fin.ext he)]

theorem sysReg_setSysReg_self (c : Cpu) (r : Reg) (v : UInt64) : (c.setSysReg r v).sysReg r = v :=
  Vector.get_put_self _ _ _

theorem sysReg_setSysReg_of_ne {r s : Reg} (h : r ≠ s) (c : Cpu) (v : UInt64) :
    (c.setSysReg r v).sysReg s = c.sysReg s := Vector.get_put_of_ne _ _ h

end Cpu

theorem toUInt32_sextWord (w : UInt32) : (sextWord w).toUInt32 = w := by
  have h : sextWord w = sext32 w.toUInt64 := by
    rw [sext32_eq_sextWord, UInt32.toUInt32_toUInt64]
  rw [h, toUInt32_sext32, UInt32.toUInt32_toUInt64]

theorem or_mark {mark field : UInt32} (h : mark &&& field = 0) (a v : UInt32) :
    ((a &&& ~~~mark) &&& ~~~field ||| v &&& field) ||| mark
      = (a ||| mark) &&& ~~~field ||| v &&& field := by
  apply UInt32.eq_of_toBitVec_eq
  apply BitVec.eq_of_getLsbD_eq
  intro j hj
  have hbit : (mark.toBitVec.getLsbD j && field.toBitVec.getLsbD j) = false := by
    rw [← BitVec.getLsbD_and, ← UInt32.toBitVec_and, h]
    simp
  simp only [UInt32.toBitVec_and, BitVec.getLsbD_and, UInt32.toBitVec_or, BitVec.getLsbD_or,
    UInt32.toBitVec_not, BitVec.getLsbD_not]
  cases hm : mark.toBitVec.getLsbD j <;> cases hf : field.toBitVec.getLsbD j <;> simp_all

namespace Cpu

variable {c d : Cpu} {i : Instr} {pc : UInt32}

theorem leave_enter (c : Cpu) (code : UInt32) (refill : Bool) :
    (c.enter code refill).leave = 1 := rfl

theorem enter_slot_of_handling (h : c.isHandling = true) (code : UInt32) (refill : Bool) :
    c.slot.enter code refill = c.enter code refill := by
  have hs : c.slot.status = c.status := rfl
  unfold isHandling at h
  unfold enter
  simp only [hs, h, if_true]
  rfl

theorem setSysReg_status (c : Cpu) (epc cause v : UInt64) (target : UInt32) :
    ({ ((c.setSysReg Cop0.epc epc).setSysReg Cop0.cause cause).setSysReg Cop0.status
        (((c.setSysReg Cop0.epc epc).setSysReg Cop0.cause cause).sysReg Cop0.status ||| v) with
      pc := target, delay := 0, leave := 1 } : Cpu)
    = ((({ c with pc := target, delay := 0, leave := 1 }).setSysReg Cop0.epc epc).setSysReg
        Cop0.cause cause).setSysReg Cop0.status (c.sysReg Cop0.status ||| v) := by
  rw [sysReg_setSysReg_of_ne (by decide), sysReg_setSysReg_of_ne (by decide)]
  rfl

def entered (c : Cpu) (epc cause : UInt32) (refill : Bool) : Cpu :=
  ((({ c with pc := vector c.status refill, delay := 0, leave := 1 }).setSysReg Cop0.epc
    (sextWord epc)).setSysReg Cop0.cause (sextWord cause)).setSysReg Cop0.status
      (c.sysReg Cop0.status ||| StatusBit.exl.toUInt64)

theorem enter_of_not_handling (h : c.isHandling = false) (code : UInt32) (refill : Bool) :
    c.enter code refill = c.entered (if c.delay != 0 then c.pc - 4 else c.pc)
      (((if c.delay != 0 then c.cause ||| CauseBit.branchDelay
        else c.cause &&& ~~~CauseBit.branchDelay) &&& ~~~CauseBit.code)
          ||| ((code <<< 2) &&& CauseBit.code)) refill := by
  unfold isHandling at h
  unfold enter entered
  simp only [h, Bool.false_eq_true, if_false]
  exact setSysReg_status c _ _ _ _

theorem atBranch_entered (c : Cpu) (epc epc' cause : UInt32) (refill : Bool) :
    (c.entered epc cause refill).atBranch epc'
      = c.entered epc' (cause ||| CauseBit.branchDelay) refill := by
  have hcause : (c.entered epc cause refill).cause = cause := by
    change UInt64.toUInt32 (sysReg (setSysReg _ Cop0.status _) Cop0.cause) = cause
    rw [sysReg_setSysReg_of_ne (by decide), sysReg_setSysReg_self, toUInt32_sextWord]
  unfold atBranch
  rw [hcause]
  unfold entered
  rw [setSysReg_comm (r := Cop0.status) (s := Cop0.epc) (by decide),
    setSysReg_comm (r := Cop0.status) (s := Cop0.cause) (by decide),
    setSysReg_comm (r := Cop0.cause) (s := Cop0.epc) (by decide), setSysReg_setSysReg,
    setSysReg_setSysReg]

theorem enter_slot (h : c.isHandling = false) (hd : c.delay = 0) (code : UInt32) (refill : Bool) :
    c.slot.enter code refill = (c.enter code refill).atBranch (c.pc - 4) := by
  rw [enter_of_not_handling h, enter_of_not_handling (c := c.slot) h, atBranch_entered]
  have hzero : (c.delay != 0) = false := by rw [hd]; rfl
  have hone : (c.slot.delay != 0) = true := rfl
  have hcause : c.slot.cause = c.cause := rfl
  simp only [hzero, hone, hcause, Bool.false_eq_true, if_false, if_true]
  rw [or_mark (by decide)]
  rfl

/-- How an instruction ends from a state, and how from the same state with the mark: it
completes, or it raises an exception. -/
inductive Slotted (c : Cpu) : Cpu → Cpu → Prop
  | done {d : Cpu} : d.leave = c.leave → d.delay = c.delay → Slotted c d d.slot
  | raised {d : Cpu} (code : UInt32) (refill : Bool) : d.pc = c.pc → d.status = c.status →
    d.delay = c.delay → Slotted c (d.enter code refill) (d.slot.enter code refill)

/-- What an access that succeeds leaves alone. -/
structure Quiet (c d : Cpu) : Prop where
  gpr : d.gpr = c.gpr
  pc : d.pc = c.pc
  status : d.status = c.status
  delay : d.delay = c.delay
  leave : d.leave = c.leave

theorem Slotted.of_quiet {d e f : Cpu} (h : Slotted d e f) (hq : Quiet c d) : Slotted c e f := by
  cases h with
  | done hl hd => exact .done (hl.trans hq.leave) (hd.trans hq.delay)
  | raised code refill h1 h2 h3 =>
    exact .raised code refill (h1.trans hq.pc) (h2.trans hq.status) (h3.trans hq.delay)

theorem slot_setReg (c : Cpu) (r : Reg) (v : UInt64) :
    c.slot.setReg r v = (c.setReg r v).slot := by
  unfold setReg
  split
  · rfl
  · rfl

theorem setReg_delay (c : Cpu) (r : Reg) (v : UInt64) : (c.setReg r v).delay = c.delay := by
  unfold setReg
  split
  · rfl
  · rfl

theorem slotted_setReg (c : Cpu) (r : Reg) (v : UInt64) :
    Slotted c (c.setReg r v) (c.slot.setReg r v) := by
  rw [slot_setReg]
  exact .done (setReg_leave c r v) (setReg_delay c r v)

theorem slotted_raise (c : Cpu) (e : Exception) : Slotted c (c.raise e) (c.slot.raise e) :=
  .raised e.code false rfl rfl rfl

theorem status_setSysReg {r : Reg} (h : r ≠ Cop0.status) (c : Cpu) (v : UInt64) :
    (c.setSysReg r v).status = c.status := by
  unfold status
  rw [sysReg_setSysReg_of_ne h]

theorem slotted_raiseAddressError (c : Cpu) (vaddr : UInt32) (write : Bool) :
    Slotted c (c.raiseAddressError vaddr write) (c.slot.raiseAddressError vaddr write) :=
  .raised _ false rfl (status_setSysReg (by decide) _ _) rfl

theorem status_setBadAddress (c : Cpu) (vaddr : UInt32) :
    (c.setBadAddress vaddr).status = c.status := by
  unfold setBadAddress
  dsimp only
  rw [status_setSysReg (by decide), status_setSysReg (by decide), status_setSysReg (by decide)]

theorem toPhysical_slot (c : Cpu) (vaddr : UInt32) (write : Bool) :
    (∃ paddr, c.toPhysical vaddr write = (some paddr, c) ∧
      c.slot.toPhysical vaddr write = (some paddr, c.slot)) ∨
    ∃ d e, c.toPhysical vaddr write = (none, d) ∧ c.slot.toPhysical vaddr write = (none, e) ∧
      Slotted c d e := by
  have hl : c.slot.lookup vaddr write = c.lookup vaddr write := rfl
  unfold toPhysical
  rw [hl]
  cases c.lookup vaddr write with
  | found paddr => exact .inl ⟨paddr, rfl, rfl⟩
  | miss => exact .inr ⟨_, _, rfl, rfl, .raised _ true rfl (status_setBadAddress c vaddr) rfl⟩
  | invalid => exact .inr ⟨_, _, rfl, rfl, .raised _ false rfl (status_setBadAddress c vaddr) rfl⟩
  | modified => exact .inr ⟨_, _, rfl, rfl, .raised _ false rfl (status_setBadAddress c vaddr) rfl⟩

theorem load_slot (c : Cpu) (vaddr : UInt32) (size : Size) :
    (∃ v d, c.load vaddr size = (some v, d) ∧ c.slot.load vaddr size = (some v, d.slot) ∧
      Quiet c d) ∨
    ∃ d e, c.load vaddr size = (none, d) ∧ c.slot.load vaddr size = (none, e) ∧ Slotted c d e := by
  unfold load
  split
  · rcases toPhysical_slot c vaddr false with ⟨paddr, h, h'⟩ | ⟨d, e, h, h', hs⟩
    · rw [h, h']
      left
      have hdev : c.slot.mem.deviceAt? paddr = c.mem.deviceAt? paddr := rfl
      simp only [readPhys, hdev]
      cases c.mem.deviceAt? paddr with
      | some dev => exact ⟨_, _, rfl, rfl, rfl, rfl, rfl, rfl, rfl⟩
      | none => exact ⟨_, _, rfl, rfl, rfl, rfl, rfl, rfl, rfl⟩
    · rw [h, h']
      exact .inr ⟨d, e, rfl, rfl, hs⟩
  · exact .inr ⟨_, _, rfl, rfl, slotted_raiseAddressError c vaddr false⟩

theorem fetch_slot {i : Instr} {vaddr : UInt32} (h : c.fetch vaddr = (some i, d)) :
    c.slot.fetch vaddr = (some i, d.slot) ∧ Quiet c d := by
  unfold fetch at h ⊢
  rcases load_slot c vaddr .word with ⟨v, e, hl, hl', hq⟩ | ⟨e, f, hl, -, -⟩
  · rw [hl] at h
    rw [hl']
    cases h
    exact ⟨rfl, hq⟩
  · rw [hl] at h
    cases h

theorem slot_writePhys (c : Cpu) (paddr : UInt32) (size : Size) (v : UInt64) :
    c.slot.writePhys paddr size v = (c.writePhys paddr size v).slot := by
  have hmem : c.slot.mem = c.mem := rfl
  unfold writePhys
  rw [hmem]
  split
  · rfl
  · split
    · dsimp only
      split <;> rfl
    · rfl

theorem writePhys_delay (c : Cpu) (paddr : UInt32) (size : Size) (v : UInt64) :
    (c.writePhys paddr size v).delay = c.delay := by
  unfold writePhys
  split
  · rfl
  · split
    · dsimp only
      split <;> rfl
    · rfl

theorem store_slot (c : Cpu) (vaddr : UInt32) (size : Size) (v : UInt64) :
    (∃ d, c.store vaddr size v = (true, d) ∧ c.slot.store vaddr size v = (true, d.slot) ∧
      d.leave = c.leave ∧ d.delay = c.delay) ∨
    ∃ d e, c.store vaddr size v = (false, d) ∧ c.slot.store vaddr size v = (false, e) ∧
      Slotted c d e := by
  unfold store
  split
  · rcases toPhysical_slot c vaddr true with ⟨paddr, h, h'⟩ | ⟨d, e, h, h', hs⟩
    · rw [h, h']
      dsimp only
      rw [slot_writePhys]
      exact .inl ⟨_, rfl, rfl, writePhys_leave c paddr size v, writePhys_delay c paddr size v⟩
    · rw [h, h']
      exact .inr ⟨d, e, rfl, rfl, hs⟩
  · exact .inr ⟨_, _, rfl, rfl, slotted_raiseAddressError c vaddr true⟩

theorem slotted_store (c : Cpu) (vaddr : UInt32) (size : Size) (v : UInt64) :
    Slotted c (c.store vaddr size v).2 (c.slot.store vaddr size v).2 := by
  rcases store_slot c vaddr size v with ⟨d, h, h', hl, hd⟩ | ⟨d, e, h, h', hs⟩
  · rw [h, h']
    exact .done hl hd
  · rw [h, h']
    exact hs

theorem Slotted.ite {p : Prop} [Decidable p] {d d' e e' : Cpu} (hp : Slotted c d d')
    (hn : Slotted c e e') : Slotted c (if p then d else e) (if p then d' else e') := by
  split
  · exact hp
  · exact hn

theorem slotted_writeStatus (c : Cpu) (v : UInt32) :
    Slotted c (c.writeStatus v) (c.slot.writeStatus v) :=
  .ite (.done rfl rfl) (.done rfl rfl)

theorem slotted_linked (c : Cpu) (r s : Reg) (v w : UInt64) :
    Slotted c { (c.setReg r v).setSysReg s w with llBit := 1 }
      { (c.slot.setReg r v).setSysReg s w with llBit := 1 } := by
  rw [slot_setReg]
  exact .done (setReg_leave c r v) (setReg_delay c r v)

theorem slotted_stored (hl : d.leave = c.leave) (hd : d.delay = c.delay) (r : Reg) :
    Slotted c ({ d with llBit := 0 }.setReg r 1) ({ d.slot with llBit := 0 }.setReg r 1) := by
  have hs := slot_setReg { d with llBit := 0 } r 1
  change Slotted c _ ({ d with llBit := 0 }.slot.setReg r 1)
  rw [hs]
  exact .done ((setReg_leave _ r 1).trans hl) ((setReg_delay _ r 1).trans hd)

theorem slotted_writeCop0 (c : Cpu) (r : Reg) (v : UInt64) :
    Slotted c (c.writeCop0 r v) (c.slot.writeCop0 r v) := by
  unfold writeCop0
  dsimp only
  refine .ite (.done rfl rfl) (.ite (.done rfl rfl) (.ite (.done rfl rfl) (.ite (.done rfl rfl) (.ite (.done rfl rfl)
    (.ite (.done rfl rfl) (.ite (.done rfl rfl) (.ite ?_ (.ite (.done rfl rfl) (.ite (.done rfl rfl)
      (.done rfl rfl))))))))))
  exact slotted_writeStatus c v.toUInt32

theorem slotted_tlbProbe (c : Cpu) : Slotted c c.tlbProbe c.slot.tlbProbe := by
  have hs : c.slot.tlbIndex? = c.tlbIndex? := rfl
  have hhi : c.slot.sysReg Cop0.entryHi = c.sysReg Cop0.entryHi := rfl
  unfold tlbProbe
  rw [hs, hhi]
  dsimp only
  split
  · exact .done rfl rfl
  · exact .done rfl rfl

theorem slot_eret (c : Cpu) : c.slot.eret = c.eret.slot := by
  have hs : c.slot.status = c.status := rfl
  unfold eret
  rw [hs]
  dsimp only
  split
  · rfl
  · rfl

end Cpu

namespace Interp

open Cpu

variable (c : Cpu) (i : Instr)

theorem slotted_writeUnless (r : Reg) (overflow : Bool) (v : UInt64) :
    Slotted c (writeUnless c r overflow v) (writeUnless c.slot r overflow v) := by
  unfold writeUnless
  split
  · exact slotted_raise c _
  · exact slotted_setReg c r v

theorem slotted_execAlu (op : AluOp) : Slotted c (execAlu c i op) (execAlu c.slot i op) := by
  cases op
  case add | sub | dadd | dsub => exact slotted_writeUnless c _ _ _
  all_goals exact slotted_setReg c _ _

theorem slotted_execImm (op : ImmOp) : Slotted c (execImm c i op) (execImm c.slot i op) := by
  cases op
  case addi | daddi => exact slotted_writeUnless c _ _ _
  all_goals exact slotted_setReg c _ _

theorem slotted_execTrap (cond : TrapCond) (x y : UInt64) :
    Slotted c (execTrap c cond x y) (execTrap c.slot cond x y) := by
  unfold execTrap
  split
  · exact slotted_raise c _
  · exact .done rfl rfl

theorem slotted_execLoad (op : LoadOp) : Slotted c (execLoad c i op) (execLoad c.slot i op) := by
  have haddr : effective c.slot i = effective c i := rfl
  unfold execLoad
  rw [haddr]
  rcases load_slot c (effective c i) (loadSize op) with ⟨v, d, h, h', hq⟩ | ⟨d, e, h, h', hs⟩
  · rw [h, h']
    exact (slotted_setReg d _ _).of_quiet hq
  · rw [h, h']
    exact hs

theorem slotted_execLoadPart (side : Side) (width : Width) :
    Slotted c (execLoadPart c i side width) (execLoadPart c.slot i side width) := by
  have haddr : effective c.slot i = effective c i := rfl
  unfold execLoadPart
  rw [haddr]
  dsimp only
  rcases load_slot c (container (effective c i) width) (widthSize width) with
    ⟨v, d, h, h', hq⟩ | ⟨d, e, h, h', hs⟩
  · rw [h, h']
    cases width with
    | word => exact (slotted_setReg d _ _).of_quiet hq
    | double => exact (slotted_setReg d _ _).of_quiet hq
  · rw [h, h']
    exact hs

theorem slotted_execStorePart (side : Side) (width : Width) :
    Slotted c (execStorePart c i side width) (execStorePart c.slot i side width) := by
  have haddr : effective c.slot i = effective c i := rfl
  unfold execStorePart
  rw [haddr]
  dsimp only
  rcases load_slot c (container (effective c i) width) (widthSize width) with
    ⟨v, d, h, h', hq⟩ | ⟨d, e, h, h', hs⟩
  · rw [h, h']
    exact (slotted_store d _ _ _).of_quiet hq
  · rw [h, h']
    exact hs

theorem slotted_execLoadLinked (width : Width) :
    Slotted c (execLoadLinked c i width) (execLoadLinked c.slot i width) := by
  have haddr : effective c.slot i = effective c i := rfl
  unfold execLoadLinked
  rw [haddr]
  dsimp only
  rcases load_slot c (effective c i) (widthSize width) with ⟨v, d, h, h', hq⟩ | ⟨d, e, h, h', hs⟩
  · rw [h, h']
    refine .of_quiet ?_ hq
    cases width with
    | word => exact slotted_linked d _ _ _ _
    | double => exact slotted_linked d _ _ _ _
  · rw [h, h']
    exact hs

theorem slotted_execStoreConditional (width : Width) :
    Slotted c (execStoreConditional c i width) (execStoreConditional c.slot i width) := by
  have haddr : effective c.slot i = effective c i := rfl
  have hbit : c.slot.llBit = c.llBit := rfl
  have hreg : c.slot.reg i.rt = c.reg i.rt := rfl
  unfold execStoreConditional
  rw [haddr, hbit, hreg]
  split
  · exact slotted_setReg c _ _
  · rcases store_slot c (effective c i) (widthSize width) (c.reg i.rt) with
      ⟨d, h, h', hl, hd⟩ | ⟨d, e, h, h', hs⟩
    · rw [h, h']
      exact slotted_stored hl hd _
    · rw [h, h']
      exact hs

theorem slotted_execLoadFp (width : Width) :
    Slotted c (execLoadFp c i width) (execLoadFp c.slot i width) := by
  have haddr : effective c.slot i = effective c i := rfl
  unfold execLoadFp
  rw [haddr]
  rcases load_slot c (effective c i) (widthSize width) with ⟨v, d, h, h', hq⟩ | ⟨d, e, h, h', hs⟩
  · rw [h, h']
    cases width with
    | word => exact .done hq.leave hq.delay
    | double => exact .done hq.leave hq.delay
  · rw [h, h']
    exact hs

theorem slotted_execConvert (op : FpOp) (v : Nat) :
    Slotted c (execConvert c i op v) (execConvert c.slot i op v) := by
  unfold execConvert
  dsimp only
  split
  all_goals first
    | exact .done rfl rfl
    | exact slotted_raise c _

theorem slotted_execFp (format : FpFormat) (op : FpOp) :
    Slotted c (execFp c i format op) (execFp c.slot i format op) := by
  cases format with
  | single =>
    change Slotted c (execSingle c i op) (execSingle c.slot i op)
    unfold execSingle
    dsimp only
    split
    all_goals first
      | exact .done rfl rfl
      | exact slotted_execConvert c i op _
  | double =>
    change Slotted c (execDouble c i op) (execDouble c.slot i op)
    unfold execDouble
    dsimp only
    split
    all_goals first
      | exact .done rfl rfl
      | exact slotted_execConvert c i op _
  | word =>
    change Slotted c (execInteger c i op _) (execInteger c.slot i op _)
    unfold execInteger
    split
    all_goals first
      | exact slotted_execConvert c i _ _
      | exact slotted_raise c _
  | long =>
    change Slotted c (execInteger c i op _) (execInteger c.slot i op _)
    unfold execInteger
    split
    all_goals first
      | exact slotted_execConvert c i _ _
      | exact slotted_raise c _

theorem slotted_execSystem {op : SystemOp} (h : op ≠ .eret) :
    Slotted c (execSystem c op) (execSystem c.slot op) := by
  cases op with
  | tlbr => exact .done rfl rfl
  | tlbwi => exact .done rfl rfl
  | tlbwr => exact .done rfl rfl
  | tlbp => exact slotted_tlbProbe c
  | eret => contradiction

theorem slotted_writeControl (r : Reg) (v : UInt32) :
    Slotted c (writeControl c r v) (writeControl c.slot r v) :=
  .ite (.done rfl rfl) (.done rfl rfl)

variable {i}

/-- An instruction that does not return from an exception, in a delay slot and elsewhere. -/
theorem slotted_effect (h : i.isReturn = false) (pc : UInt32) :
    Slotted c (effect c i pc) (effect c.slot i pc) := by
  have hreg : c.slot.reg = c.reg := rfl
  unfold Instr.isReturn at h
  unfold effect
  rw [hreg]
  dsimp only
  cases hk : i.kind with
  | shift op amount width => exact slotted_setReg c _ _
  | alu op => exact slotted_execAlu c i op
  | imm op => exact slotted_execImm c i op
  | mulDiv op => exact .done rfl rfl
  | mfhi => exact slotted_setReg c _ _
  | mflo => exact slotted_setReg c _ _
  | mthi => exact .done rfl rfl
  | mtlo => exact .done rfl rfl
  | jal => exact slotted_setReg c _ _
  | jalr => exact slotted_setReg c _ _
  | j => exact .done rfl rfl
  | jr => exact .done rfl rfl
  | branchEq op likely => exact .done rfl rfl
  | branchZero op likely => exact .done rfl rfl
  | branchSign op link likely =>
    cases link with
    | true => exact slotted_setReg c _ _
    | false => exact .done rfl rfl
  | branchFp => exact .done rfl rfl
  | syscall => exact slotted_raise c _
  | breakpoint => exact slotted_raise c _
  | sync => exact .done rfl rfl
  | cache => exact .done rfl rfl
  | trap cond => exact slotted_execTrap c cond _ _
  | trapImm cond => exact slotted_execTrap c cond _ _
  | load op => exact slotted_execLoad c i op
  | store size => exact slotted_store c _ _ _
  | loadPart side width => exact slotted_execLoadPart c i side width
  | storePart side width => exact slotted_execStorePart c i side width
  | loadLinked width => exact slotted_execLoadLinked c i width
  | storeConditional width => exact slotted_execStoreConditional c i width
  | loadFp width => exact slotted_execLoadFp c i width
  | storeFp width => exact slotted_store c _ _ _
  | mfc0 width =>
    cases width with
    | word => exact slotted_setReg c _ _
    | double => exact slotted_setReg c _ _
  | mtc0 width =>
    cases width with
    | word => exact slotted_writeCop0 c _ _
    | double => exact slotted_writeCop0 c _ _
  | system op =>
    refine slotted_execSystem c fun he => ?_
    simp only [hk, he, Bool.true_eq_false] at h
  | systemAlias op =>
    cases op with
    | none => exact .done rfl rfl
    | some op =>
      refine slotted_execSystem c fun he => ?_
      simp only [hk, he, Bool.true_eq_false] at h
  | mfc1 width =>
    cases width with
    | word => exact slotted_setReg c _ _
    | double => exact slotted_setReg c _ _
  | mtc1 width =>
    cases width with
    | word => exact .done rfl rfl
    | double => exact .done rfl rfl
  | cfc1 => exact slotted_setReg c _ _
  | ctc1 => exact slotted_writeControl c _ _
  | fp format op => exact slotted_execFp c i format op
  | reserved => exact slotted_raise c _

theorem effect_slot_of_isReturn (h : i.isReturn = true) (pc : UInt32) :
    effect c.slot i pc = (effect c i pc).slot ∧ (effect c i pc).leave = 1 := by
  unfold Instr.isReturn at h
  have hk : i.kind = .system .eret ∨ i.kind = .systemAlias (some .eret) := by
    split at h
    · exact .inl ‹_›
    · exact .inr ‹_›
    · contradiction
  unfold effect
  rcases hk with hk | hk
  · rw [hk]
    exact ⟨slot_eret c, rfl⟩
  · rw [hk]
    exact ⟨slot_eret c, rfl⟩

/-- What the mark of a delay slot changes: nothing if the instruction completes, or if an
exception is being handled; the mark stays at a return from an exception; and the exception is
one of the branch before the slot otherwise. -/
theorem effect_slot (hleave : c.leave = 0) (hdelay : c.delay = 0) (i : Instr) (pc : UInt32) :
    effect c.slot i pc =
      if (effect c i pc).leave = 0 ∨ i.isReturn = true then (effect c i pc).slot
      else if c.isHandling then effect c i pc
      else (effect c i pc).atBranch (c.pc - 4) := by
  by_cases hr : i.isReturn = true
  · rw [if_pos (.inr hr)]
    exact (effect_slot_of_isReturn c hr pc).1
  · have hs := slotted_effect c (Bool.not_eq_true _ ▸ hr) pc
    generalize effect c i pc = y at hs ⊢
    generalize effect c.slot i pc = z at hs ⊢
    cases hs with
    | done hl hd => rw [if_pos (.inl (hl.trans hleave))]
    | @raised d code refill hpc hstatus hd =>
      have hone : ¬((d.enter code refill).leave = 0 ∨ i.isReturn = true) := by
        rintro (h | h)
        · rw [leave_enter] at h
          exact absurd h (by decide)
        · exact hr h
      have hhandling : d.isHandling = c.isHandling := by
        unfold isHandling
        rw [hstatus]
      rw [if_neg hone]
      by_cases hh : c.isHandling = true
      · rw [if_pos hh]
        exact enter_slot_of_handling (hhandling.trans hh) code refill
      · rw [if_neg hh, ← hpc]
        rw [Bool.not_eq_true, ← hhandling] at hh
        exact enter_slot hh (hd.trans hdelay) code refill

theorem delay_effect {pc : UInt32} (h : (effect c i pc).leave = 0) :
    (effect c i pc).delay = c.delay := by
  by_cases hr : i.isReturn = true
  · rw [(effect_slot_of_isReturn c hr pc).2] at h
    exact absurd h (by decide)
  · have hs := slotted_effect c (Bool.not_eq_true _ ▸ hr) pc
    generalize effect c i pc = y at hs h ⊢
    generalize effect c.slot i pc = z at hs
    cases hs with
    | done hl hd => exact hd
    | raised code refill hpc hstatus hd =>
      rw [leave_enter] at h
      exact absurd h (by decide)

end Interp

end Recompiler
