import Recompiler.Proofs.BudgetCaches

/-!
Emission does not look at the program that it emits. An emission with a budget takes the same
labels, registers and link cells as one without, whatever it has dropped before.
-/

namespace Recompiler

open Ir

/-- The emissions differ in their builders, of which the second has a budget. The cells of the
exits were taken from the front of `cells`. -/
def Emitter.Within (limit : Nat) (cells : List Nat) (e e' : Emitter) : Prop :=
  e.exits.toList.map (·.cell) ++ e.cells = cells ∧
    ∃ c, e.cache.Within limit c ∧ e' = { e with cache := c }

namespace Emit

open Emitter (Within)

variable {α : Type} {limit : Nat} {cells : List Nat}

theorem blind_onCache {m : CacheM α} (hm : Blind (HostCache.Within limit) m) :
    Blind (Within limit cells) (onCache m) := by
  rintro ⟨c, labels, stubs, exits, rest⟩ _ ⟨htaken, c', hc, rfl⟩
  have hs := hm c c' hc
  simp only [onCache]
  generalize m c = x at hs
  generalize m c' = x' at hs
  cases hs with
  | ok a ht => exact .ok a ⟨htaken, _, ht, rfl⟩
  | error e ht => exact .error _ ⟨htaken, _, ht, rfl⟩

theorem blind_modifyCache {f : HostCache → HostCache}
    (hf : ∀ c c', c.Within limit c' → (f c).Within limit (f c')) :
    Blind (Within limit cells) (modifyCache f) := by
  rintro ⟨c, labels, stubs, exits, rest⟩ _ ⟨htaken, c', hc, rfl⟩
  exact .ok _ ⟨htaken, _, hf c c' hc, rfl⟩

theorem blind_emit (i : Ir.Instr String) : Blind (Within limit cells) (emit i) :=
  blind_modifyCache fun _ _ h => h.emit i

theorem blind_putLabel (name : String) : Blind (Within limit cells) (putLabel name) := by
  rintro ⟨⟨b, clock, depth, slots, fpSlots⟩, labels, stubs, exits, rest⟩ _
    ⟨htaken, _, ⟨b', hb, rfl⟩, rfl⟩
  simp only [putLabel]
  obtain ⟨d, d', hd, hd', hw⟩ | ⟨e, he, he'⟩ := hb.label name
  · rw [hd, hd']
    exact .ok _ ⟨htaken, _, ⟨_, hw, rfl⟩, rfl⟩
  · rw [he, he']
    exact .error _ ⟨htaken, _, ⟨_, hb, rfl⟩, rfl⟩

theorem blind_read {k : Emitter → EmitM α}
    (hread : ∀ e b, k { e with cache := { e.cache with builder := b } } = k e)
    (hk : ∀ e, Blind (Within limit cells) (k e)) : Blind (Within limit cells) (get >>= k) := by
  refine .get ?_ hk
  rintro e _ ⟨-, _, ⟨b, -, rfl⟩, rfl⟩
  exact hread e b

theorem blind_freshId : Blind (Within limit cells) freshId := by
  refine .bind (.modify ?_) fun _ => blind_read (fun _ _ => rfl) fun _ => .pure _
  rintro e _ ⟨htaken, c, hc, rfl⟩
  exact ⟨htaken, c, hc, rfl⟩

theorem blind_freshLabel (name : String) : Blind (Within limit cells) (freshLabel name) :=
  .bind blind_freshId fun _ => .pure _

theorem blind_inLow (r : GuestReg) : Blind (Within limit cells) (inLow r) :=
  blind_onCache (HostCache.blind_allocInLow r)

theorem blind_inHigh (r : GuestReg) : Blind (Within limit cells) (inHigh r) :=
  blind_onCache (HostCache.blind_allocInHigh r)

theorem blind_outLow (r : GuestReg) : Blind (Within limit cells) (outLow r) :=
  blind_onCache (HostCache.blind_allocOutLow r)

theorem blind_outHigh (r : GuestReg) : Blind (Within limit cells) (outHigh r) :=
  blind_onCache (HostCache.blind_allocOutHigh r)

theorem blind_outSigned (r : GuestReg) : Blind (Within limit cells) (outSigned r) :=
  blind_onCache (HostCache.blind_allocOutExt r .sign)

theorem blind_outUnsigned (r : GuestReg) : Blind (Within limit cells) (outUnsigned r) :=
  blind_onCache (HostCache.blind_allocOutExt r .zero)

theorem blind_inWord (off : Int) : Blind (Within limit cells) (inWord off) :=
  blind_onCache (HostCache.blind_allocIn32 off)

theorem blind_outWord (off : Int) : Blind (Within limit cells) (outWord off) :=
  blind_onCache (HostCache.blind_allocOut32 off)

theorem blind_temp : Blind (Within limit cells) temp := blind_onCache HostCache.blind_allocTemp

theorem blind_constant (v : UInt32) : Blind (Within limit cells) (constant v) :=
  blind_onCache (HostCache.blind_allocConst v)

theorem blind_startOp : Blind (Within limit cells) (modifyCache (·.startOp)) :=
  blind_modifyCache fun _ _ h => h.startOp

theorem blind_endOp : Blind (Within limit cells) (onCache HostCache.endOp) :=
  blind_onCache HostCache.blind_endOp

theorem blind_describe (s : Site) (op : Recompiler.Instr) :
    Blind (Within limit cells) (describe s op) :=
  .bind (blind_emit _) fun _ => .bind (blind_emit _) fun _ => .bind (blind_emit _) fun _ =>
    blind_emit _

theorem blind_spill : Blind (Within limit cells) spill :=
  .bind (blind_modifyCache fun _ _ h => h.flushAll) fun _ =>
    blind_read (fun _ _ => rfl) fun _ =>
      .bind (.forIn _ fun _ => blind_emit _) fun _ => .pure _

theorem blind_request (service : Service) (s : Site) (op : Recompiler.Instr) :
    Blind (Within limit cells) (request service s op) :=
  .bind (blind_freshLabel _) fun _ => .bind blind_spill fun _ =>
    .bind (blind_describe s op) fun _ => .bind (blind_emit _) fun _ =>
    .bind (blind_putLabel _) fun _ => .bind (.forIn _ fun _ => blind_emit _) fun _ =>
    blind_modifyCache fun _ _ h => h.dropAll

theorem blind_branchOff (s : Site) (op : Recompiler.Instr) (addr : HostReg) :
    Blind (Within limit cells) (branchOff s op addr) :=
  .bind blind_freshId fun _ => blind_read (fun _ _ => rfl) fun _ => .pure _

theorem blind_join (stub : Stub) : Blind (Within limit cells) (join stub) := by
  refine .bind (.modify ?_) fun _ => blind_putLabel _
  rintro e _ ⟨htaken, _, ⟨b, hb, rfl⟩, rfl⟩
  exact ⟨htaken, _, ⟨b, hb, rfl⟩, rfl⟩

theorem blind_reload (temps : List HostReg) (r : HostReg) (s : Slot) :
    Blind (Within limit cells) (reload temps r s) := by
  unfold reload
  split
  · exact .pure _
  · exact .ite (blind_emit _) (.pure _)
  · exact blind_emit _

theorem blind_reloadFp (r : FpReg) (s : FpSlot) : Blind (Within limit cells) (reloadFp r s) := by
  unfold reloadFp
  split
  · exact .pure _
  · exact blind_emit _

theorem blind_emitStub (stub : Stub) : Blind (Within limit cells) (emitStub stub) :=
  .bind (blind_putLabel _) fun _ => .bind (blind_modifyCache fun _ _ h => h.restore _) fun _ =>
    .bind blind_spill fun _ => .bind (blind_emit _) fun _ => .bind (blind_describe _ _) fun _ =>
    .bind (blind_emit _) fun _ => .bind (blind_putLabel _) fun _ =>
    .bind (.forIn _ fun _ => blind_reload _ _ _) fun _ =>
    .bind (.forIn _ fun _ => blind_reloadFp _ _) fun _ => blind_emit _

theorem blind_account (cfg : Config) (n : Nat) : Blind (Within limit cells) (account cfg n) :=
  .bind blind_startOp fun _ =>
    have hrest := .bind blind_endOp fun _ => blind_modifyCache fun _ _ h => h.flushAll
    .ite (.bind (blind_inWord _) fun _ => .bind (blind_outWord _) fun _ =>
      .bind (blind_emit _) fun _ => hrest) hrest

theorem blind_takeCell (target : UInt32) : Blind (Within limit cells) (takeCell target) := by
  refine .getSet ?_
  rintro ⟨c, labels, stubs, exits, rest⟩ _ ⟨htaken, c', hc, rfl⟩
  cases rest with
  | nil => exact .ok _ ⟨htaken, c', hc, rfl⟩
  | cons cell rest =>
    refine .ok _ ⟨?_, c', hc, rfl⟩
    simpa using htaken

theorem blind_exitUnlinked : Blind (Within limit cells) exitUnlinked :=
  .bind (blind_emit _) fun _ => blind_emit _

theorem blind_exitLinked (cell : Nat) : Blind (Within limit cells) (exitLinked cell) :=
  .bind (blind_freshLabel _) fun _ => .bind (blind_emit _) fun _ => .bind blind_startOp fun _ =>
    .bind (blind_inWord _) fun _ => .bind (blind_inWord _) fun _ => .bind blind_temp fun _ =>
    .bind (blind_emit _) fun _ => .bind (blind_emit _) fun _ => .bind (blind_emit _) fun _ =>
    .bind (blind_putLabel _) fun _ => .bind blind_endOp fun _ => blind_emit _

theorem blind_exitDirect (cfg : Config) (target : UInt32) (n : Nat) (linkable : Bool) :
    Blind (Within limit cells) (exitDirect cfg target n linkable) := by
  refine .bind (blind_account cfg n) fun _ => .bind (blind_emit _) fun _ =>
    .ite (.bind (blind_takeCell target) fun cell => ?_) blind_exitUnlinked
  cases cell with
  | some cell => exact blind_exitLinked cell
  | none => exact blind_exitUnlinked

theorem blind_exitReg (cfg : Config) (r : HostReg) (n : Nat) :
    Blind (Within limit cells) (exitReg cfg r n) :=
  .bind (blind_account cfg n) fun _ => .bind (blind_emit _) fun _ => blind_exitUnlinked

theorem blind_exitServed (cfg : Config) (n : Nat) : Blind (Within limit cells) (exitServed cfg n) :=
  .bind (blind_account cfg n) fun _ => blind_exitUnlinked

theorem blind_writeBoth (g : GuestReg) (high low : HostReg) :
    Blind (Within limit cells) (writeBoth g high low) :=
  .bind (blind_outHigh g) fun _ => .bind (blind_emit _) fun _ => .bind (blind_outLow g) fun _ =>
    blind_emit _

theorem blind_move (s : Site) (dst src : GuestReg) :
    Blind (Within limit cells) (move s dst src) :=
  .ite (.bind (blind_inLow _) fun _ => .bind (blind_outSigned _) fun _ => blind_emit _)
    (.bind (blind_inHigh _) fun _ => .bind (blind_inLow _) fun _ => blind_writeBoth _ _ _)

theorem blind_shiftWord (op : ShiftOp) (i : Recompiler.Instr) :
    Blind (Within limit cells) (shiftWord op i) :=
  .bind (blind_inLow _) fun _ => .bind (blind_outSigned _) fun _ => blind_emit _

theorem blind_shiftWordVar (op : ShiftOp) (i : Recompiler.Instr) :
    Blind (Within limit cells) (shiftWordVar op i) :=
  .bind (blind_inLow _) fun _ => .bind (blind_inLow _) fun _ => .bind (blind_outSigned _) fun _ =>
    blind_emit _

theorem blind_shiftDouble32 (op : ShiftOp) (i : Recompiler.Instr) :
    Blind (Within limit cells) (shiftDouble32 op i) := by
  cases op with
  | left =>
    exact .bind (blind_inLow _) fun _ => .bind (blind_outHigh _) fun _ =>
      .bind (blind_emit _) fun _ => .bind (blind_outLow _) fun _ => blind_emit _
  | right =>
    exact .bind (blind_inHigh _) fun _ => .bind (blind_outUnsigned _) fun _ => blind_emit _
  | arith => exact .bind (blind_inHigh _) fun _ => .bind (blind_outSigned _) fun _ => blind_emit _

theorem blind_shiftDouble (s : Site) (op : ShiftOp) (i : Recompiler.Instr) :
    Blind (Within limit cells) (shiftDouble s op i) := by
  refine .ite (blind_move _ _ _) (.bind (blind_inHigh _) fun _ => .bind (blind_inLow _) fun _ =>
    .bind blind_temp fun _ => .bind blind_temp fun _ => .bind blind_temp fun _ => ?_)
  cases op with
  | left | right | arith =>
    exact .bind (blind_emit _) fun _ => .bind (blind_emit _) fun _ => .bind (blind_emit _) fun _ =>
      .bind (blind_emit _) fun _ => blind_writeBoth _ _ _

theorem blind_multiply (signed : Bool) (i : Recompiler.Instr) :
    Blind (Within limit cells) (multiply signed i) :=
  .bind (blind_inLow _) fun _ => .bind (blind_inLow _) fun _ => .bind (blind_outSigned _) fun _ =>
    .bind (blind_outSigned _) fun _ => blind_emit _

theorem blind_addTrapping (s : Site) (sub : Bool) (i : Recompiler.Instr) :
    Blind (Within limit cells) (addTrapping s sub i) :=
  .bind (blind_inLow _) fun _ => .bind (blind_inLow _) fun _ =>
    .bind (blind_branchOff _ _ _) fun _ => .bind (blind_emit _) fun _ =>
    .bind (blind_outSigned _) fun _ => .bind (blind_emit _) fun _ => blind_join _

theorem blind_addWord (op : BinOp) (i : Recompiler.Instr) :
    Blind (Within limit cells) (addWord op i) :=
  .bind (blind_inLow _) fun _ => .bind (blind_inLow _) fun _ => .bind (blind_outSigned _) fun _ =>
    blind_emit _

theorem blind_logic (s : Site) (op : BinOp) (i : Recompiler.Instr) :
    Blind (Within limit cells) (logic s op i) :=
  .ite (blind_addWord op i)
    (.bind (blind_inHigh _) fun _ => .bind (blind_inHigh _) fun _ => .bind (blind_inLow _) fun _ =>
      .bind (blind_inLow _) fun _ => .bind (blind_outHigh _) fun _ => .bind (blind_emit _) fun _ =>
      .bind (blind_outLow _) fun _ => blind_emit _)

theorem blind_compareBoth (signed : Bool) (xh xl yh yl t : HostReg) :
    Blind (Within limit cells) (compareBoth signed xh xl yh yl t) :=
  .bind (blind_freshLabel _) fun _ => .bind (blind_emit _) fun _ => .bind (blind_emit _) fun _ =>
    .bind (blind_emit _) fun _ => blind_putLabel _

theorem blind_setLess (s : Site) (signed : Bool) (i : Recompiler.Instr) :
    Blind (Within limit cells) (setLess s signed i) :=
  .ite (.bind (blind_inLow _) fun _ => .bind (blind_inLow _) fun _ =>
      .bind (blind_outUnsigned _) fun _ => blind_emit _)
    (.bind (blind_inHigh _) fun _ => .bind (blind_inLow _) fun _ => .bind (blind_inHigh _) fun _ =>
      .bind (blind_inLow _) fun _ => .bind blind_temp fun _ =>
      .bind (blind_compareBoth _ _ _ _ _ _) fun _ => .bind (blind_outUnsigned _) fun _ =>
      blind_emit _)

theorem blind_addDouble (sub : Bool) (i : Recompiler.Instr) :
    Blind (Within limit cells) (addDouble sub i) :=
  .bind (blind_inHigh _) fun _ => .bind (blind_inLow _) fun _ =>
    .bind (blind_inHigh _) fun _ => .bind (blind_inLow _) fun _ => .bind blind_temp fun _ =>
    .bind blind_temp fun _ => .bind blind_temp fun _ =>
    .ite (.bind (blind_emit _) fun _ => .bind (blind_emit _) fun _ => .bind (blind_emit _) fun _ =>
      .bind (blind_emit _) fun _ => blind_writeBoth _ _ _)
    (.bind (blind_emit _) fun _ => .bind (blind_emit _) fun _ => .bind (blind_emit _) fun _ =>
      .bind (blind_emit _) fun _ => blind_writeBoth _ _ _)

theorem blind_addImmTrapping (s : Site) (i : Recompiler.Instr) :
    Blind (Within limit cells) (addImmTrapping s i) :=
  .bind (blind_inLow _) fun _ => .bind (blind_constant _) fun _ =>
    .bind (blind_branchOff _ _ _) fun _ => .bind (blind_emit _) fun _ =>
    .bind (blind_outSigned _) fun _ => .bind (blind_emit _) fun _ => blind_join _

theorem blind_addImm (i : Recompiler.Instr) : Blind (Within limit cells) (addImm i) :=
  .bind (blind_inLow _) fun _ => .bind (blind_outSigned _) fun _ => blind_emit _

theorem blind_addImmDouble (i : Recompiler.Instr) : Blind (Within limit cells) (addImmDouble i) :=
  .bind (blind_inHigh _) fun _ => .bind (blind_inLow _) fun _ => .bind blind_temp fun _ =>
    .bind blind_temp fun _ => .bind blind_temp fun _ => .bind (blind_emit _) fun _ =>
    .bind (blind_emit _) fun _ => .bind (blind_emit _) fun _ => .bind (blind_emit _) fun _ =>
    blind_writeBoth _ _ _

theorem blind_setLessImm (s : Site) (signed : Bool) (i : Recompiler.Instr) :
    Blind (Within limit cells) (setLessImm s signed i) :=
  .ite (.bind (blind_inLow _) fun _ => .bind (blind_outUnsigned _) fun _ => blind_emit _)
    (.bind (blind_inHigh _) fun _ => .bind (blind_inLow _) fun _ => .bind blind_temp fun _ =>
      .bind (blind_freshLabel _) fun _ => .bind (blind_emit _) fun _ =>
      .bind (blind_emit _) fun _ => .bind (blind_emit _) fun _ => .bind (blind_putLabel _) fun _ =>
      .bind (blind_outUnsigned _) fun _ => blind_emit _)

theorem blind_andImm (i : Recompiler.Instr) : Blind (Within limit cells) (andImm i) :=
  .bind (blind_inLow _) fun _ => .bind (blind_outUnsigned _) fun _ => blind_emit _

theorem blind_orImm (s : Site) (op : ConstOp) (i : Recompiler.Instr) :
    Blind (Within limit cells) (orImm s op i) :=
  .ite (.bind (blind_inLow _) fun _ => .bind (blind_outSigned _) fun _ => blind_emit _)
    (.bind (blind_inHigh _) fun _ => .bind (blind_inLow _) fun _ => .bind (blind_outHigh _) fun _ =>
      .bind (blind_emit _) fun _ => .bind (blind_outLow _) fun _ => blind_emit _)

theorem blind_loadUpper (i : Recompiler.Instr) : Blind (Within limit cells) (loadUpper i) :=
  .bind (blind_outSigned _) fun _ => .bind (blind_emit _) fun _ =>
    blind_modifyCache fun _ _ h => HostCache.Parallel.setConst h _ _

theorem blind_access (size : Size) (i : Recompiler.Instr) :
    Blind (Within limit cells) (access size i) :=
  .bind (blind_inLow _) fun _ => .bind blind_temp fun _ => .bind blind_temp fun _ =>
    .bind blind_temp fun _ => .pure _

theorem blind_guard (cfg : Config) (i : Recompiler.Instr) (a : Access) (slow : String)
    (isStore : Bool) : Blind (Within limit cells) (guard cfg i a slow isStore) := by
  have hstore : Blind (Within limit cells) (do
      emit (.branchConst .geu a.offset (cfg.ramSize - a.size + 1) slow)
      if isStore then
        const .srl a.offset 12 a.scratch
        emit (.ltab Layout.codePages a.scratch a.scratch)
        emit (.branchConst .ne a.scratch 0 slow)) :=
    .bind (blind_emit _) fun _ =>
      .ite (.bind (blind_emit _) fun _ => .bind (blind_emit _) fun _ => blind_emit _) (.pure _)
  exact .bind (blind_emit _) fun _ => .ite (blind_emit _)
    (.bind (blind_emit _) fun _ => .bind (blind_emit _) fun _ => .bind (blind_emit _) fun _ =>
      .ite (.bind (blind_emit _) fun _ => .bind (blind_emit _) fun _ => hstore) hstore)

theorem blind_swizzle (size : Size) (a : Access) : Blind (Within limit cells) (swizzle size a) := by
  cases size with
  | byte | half => exact blind_emit _
  | word | double => exact .pure _

theorem blind_load (cfg : Config) (s : Site) (op : LoadOp) (i : Recompiler.Instr) :
    Blind (Within limit cells) (load cfg s op i) := by
  refine .bind (blind_access _ _) fun _ => .bind (blind_branchOff _ _ _) fun stub =>
    .bind (blind_guard _ _ _ _ _) fun _ => .bind (blind_swizzle _ _) fun _ => ?_
  cases op with
  | ld =>
    exact .bind (blind_outHigh _) fun _ => .bind (blind_outLow _) fun _ =>
      .bind (blind_emit _) fun _ => .bind (blind_emit _) fun _ => blind_join _
  | lb | lh | lw =>
    exact .bind (blind_outSigned _) fun _ => .bind (blind_emit _) fun _ => blind_join _
  | lbu | lhu | lwu =>
    exact .bind (blind_outUnsigned _) fun _ => .bind (blind_emit _) fun _ => blind_join _

theorem blind_store (cfg : Config) (s : Site) (size : Size) (i : Recompiler.Instr) :
    Blind (Within limit cells) (store cfg s size i) := by
  refine .ite (.bind (blind_inHigh _) fun _ => ?_) (.bind (.pure _) fun _ => ?_)
  all_goals
    refine .bind (blind_inLow _) fun _ => .bind (blind_access _ _) fun _ =>
      .bind (blind_branchOff _ _ _) fun stub => .bind (blind_guard _ _ _ _ _) fun _ =>
      .bind (blind_swizzle _ _) fun _ => ?_
    cases size with
    | byte | half | word => exact .bind (blind_emit _) fun _ => blind_join _
    | double => exact .bind (blind_emit _) fun _ => .bind (blind_emit _) fun _ => blind_join _

theorem blind_clobber (words : List (Int × Int)) : Blind (Within limit cells) (clobber words) := by
  refine blind_modifyCache fun c c' h => ?_
  refine .foldl (fun c c' w h => ?_) words h
  exact h.clobberFp w.2 4

theorem blind_loadFp (cfg : Config) (s : Site) (width : Width) (i : Recompiler.Instr) :
    Blind (Within limit cells) (loadFp cfg s width i) :=
  .bind (blind_clobber _) fun _ => .bind (blind_access _ _) fun _ => .bind blind_temp fun _ =>
    .bind (blind_branchOff _ _ _) fun _ => .bind (blind_guard _ _ _ _ _) fun _ =>
    .bind (.forIn _ fun _ => .bind (blind_emit _) fun _ => blind_emit _) fun _ => blind_join _

theorem blind_storeFp (cfg : Config) (s : Site) (width : Width) (i : Recompiler.Instr) :
    Blind (Within limit cells) (storeFp cfg s width i) :=
  .bind (blind_clobber _) fun _ => .bind (blind_access _ _) fun _ => .bind blind_temp fun _ =>
    .bind (blind_branchOff _ _ _) fun _ => .bind (blind_guard _ _ _ _ _) fun _ =>
    .bind (.forIn _ fun _ => .bind (blind_emit _) fun _ => blind_emit _) fun _ => blind_join _

theorem blind_inFp (cfg : Config) (size : FpSize) (r : Reg) :
    Blind (Within limit cells) (inFp cfg size r) :=
  blind_onCache (HostCache.blind_allocInFp _ _)

theorem blind_outFp (cfg : Config) (size : FpSize) (r : Reg) :
    Blind (Within limit cells) (outFp cfg size r) :=
  blind_onCache (HostCache.blind_allocOutFp _ _)

theorem blind_fpBinary (cfg : Config) (size : FpSize) (op : FpBinOp) (i : Recompiler.Instr) :
    Blind (Within limit cells) (fpBinary cfg size op i) :=
  .bind (blind_inFp _ _ _) fun _ => .bind (blind_inFp _ _ _) fun _ =>
    .bind (blind_outFp _ _ _) fun _ => blind_emit _

theorem blind_fpUnary (cfg : Config) (size : FpSize) (op : FpUnOp) (i : Recompiler.Instr) :
    Blind (Within limit cells) (fpUnary cfg size op i) :=
  .bind (blind_inFp _ _ _) fun _ => .bind (blind_outFp _ _ _) fun _ => blind_emit _

theorem blind_fpCompare (cfg : Config) (size : FpSize) (i : Recompiler.Instr) :
    Blind (Within limit cells) (fpCompare cfg size i) :=
  .bind (blind_inFp _ _ _) fun _ => .bind (blind_inFp _ _ _) fun _ => .bind blind_temp fun _ =>
    .bind (blind_emit _) fun _ => .bind (blind_inWord _) fun _ => .bind (blind_outWord _) fun _ =>
    .bind (blind_emit _) fun _ => .bind (blind_emit _) fun _ => blind_emit _

theorem blind_storeContext (r : HostReg) (off : Int) :
    Blind (Within limit cells) (storeContext r off) :=
  .ite (blind_emit _) (blind_emit _)

theorem blind_clobberFp (off size : Int) :
    Blind (Within limit cells) (modifyCache (·.clobberFp off size)) :=
  blind_modifyCache fun _ _ h => h.clobberFp off size

theorem blind_moveFromFp (cfg : Config) (width : Width) (i : Recompiler.Instr) :
    Blind (Within limit cells) (moveFromFp cfg width i) := by
  cases width with
  | word =>
    exact .bind (blind_clobberFp _ _) fun _ => .bind (blind_outSigned _) fun _ => blind_emit _
  | double =>
    exact .bind (blind_clobberFp _ _) fun _ => .bind (blind_outHigh _) fun _ =>
      .bind (blind_outLow _) fun _ => .bind (blind_emit _) fun _ => blind_emit _

theorem blind_moveToFp (cfg : Config) (width : Width) (i : Recompiler.Instr) :
    Blind (Within limit cells) (moveToFp cfg width i) := by
  cases width with
  | word =>
    exact .bind (blind_clobberFp _ _) fun _ => .bind (blind_inLow _) fun _ =>
      blind_storeContext _ _
  | double =>
    exact .bind (blind_clobberFp _ _) fun _ => .bind (blind_inHigh _) fun _ =>
      .bind (blind_storeContext _ _) fun _ => .bind (blind_inLow _) fun _ => blind_storeContext _ _

theorem blind_moveFromControl (i : Recompiler.Instr) :
    Blind (Within limit cells) (moveFromControl i) :=
  .bind (blind_inWord _) fun _ => .bind (blind_outSigned _) fun _ => blind_emit _

theorem blind_inlineShift {s : Site} {op : ShiftOp} {amount : ShiftAmount} {width : Width}
    {i : Recompiler.Instr} {m : EmitM Unit} (h : inlineShift? s op amount width i = some m) :
    Blind (Within limit cells) m := by
  unfold inlineShift? at h
  split at h
  all_goals cases h
  · exact blind_shiftWord op i
  · exact blind_shiftWordVar op i
  · exact blind_shiftDouble s op i
  · exact blind_shiftDouble32 op i

theorem blind_inlineAlu {s : Site} {op : AluOp} {i : Recompiler.Instr} {m : EmitM Unit}
    (h : inlineAlu? s op i = some m) : Blind (Within limit cells) m := by
  cases op with
  | add | sub => cases h; exact blind_addTrapping s _ i
  | addu | subu => cases h; exact blind_addWord _ i
  | and | or | xor | nor => cases h; exact blind_logic s _ i
  | slt | sltu => cases h; exact blind_setLess s _ i
  | daddu | dsubu => cases h; exact blind_addDouble _ i
  | dadd | dsub => cases h

theorem blind_inlineImm {s : Site} {op : ImmOp} {i : Recompiler.Instr} {m : EmitM Unit}
    (h : inlineImm? s op i = some m) : Blind (Within limit cells) m := by
  cases op with
  | addi => cases h; exact blind_addImmTrapping s i
  | addiu => cases h; exact blind_addImm i
  | slti | sltiu => cases h; exact blind_setLessImm s _ i
  | andi => cases h; exact blind_andImm i
  | ori | xori => cases h; exact blind_orImm s _ i
  | lui => cases h; exact blind_loadUpper i
  | daddiu => cases h; exact blind_addImmDouble i
  | daddi => cases h

theorem blind_inlineFp {cfg : Config} {size : FpSize} {op : FpOp} {i : Recompiler.Instr}
    {m : EmitM Unit} (h : inlineFp? cfg size op i = some m) : Blind (Within limit cells) m := by
  cases op with
  | add | sub | mul | div => cases h; exact blind_fpBinary cfg size _ i
  | sqrt | abs | mov | neg => cases h; exact blind_fpUnary cfg size _ i
  | compare => cases h; exact blind_fpCompare cfg size i
  | round | convert | undefined => cases h

theorem blind_inline {cfg : Config} {s : Site} {i : Recompiler.Instr} {m : EmitM Unit}
    (h : inline? cfg s i = some m) : Blind (Within limit cells) m := by
  unfold inline? at h
  split at h
  case h_1 => exact blind_inlineShift h
  case h_2 => exact blind_inlineAlu h
  case h_3 => exact blind_inlineImm h
  case h_17 =>
    split at h
    · cases h
      exact blind_moveFromControl i
    · cases h
  case h_18 =>
    obtain ⟨size, -, h⟩ := Option.bind_eq_some_iff.mp h
    exact blind_inlineFp h
  all_goals cases h
  · exact blind_multiply true i
  · exact blind_multiply false i
  · exact blind_move s _ _
  · exact blind_move s _ _
  · exact blind_move s _ _
  · exact blind_move s _ _
  · exact .pure _
  · exact blind_load cfg s _ i
  · exact blind_store cfg s _ i
  · exact blind_loadFp cfg s _ i
  · exact blind_storeFp cfg s _ i
  · exact blind_moveFromFp cfg _ i
  · exact blind_moveToFp cfg _ i

theorem blind_instr (cfg : Config) (s : Site) (i : Recompiler.Instr) :
    Blind (Within limit cells) (instr cfg s i) := by
  have hrun : Blind (Within limit cells) ((inline? cfg s i).getD (request .exec s i)) := by
    cases h : inline? cfg s i with
    | some m => exact blind_inline h
    | none => exact blind_request _ _ _
  exact .ite (.bind blind_startOp fun _ => .bind hrun fun _ => blind_endOp) (.pure _)

theorem blind_signWord (s : Site) (g : GuestReg) : Blind (Within limit cells) (signWord s g) :=
  .ite (blind_inLow g) (blind_inHigh g)

theorem blind_differ (s : Site) (x y : GuestReg) (t : HostReg) :
    Blind (Within limit cells) (differ s x y t) :=
  .bind (blind_inLow _) fun _ => .bind (blind_inLow _) fun _ => .bind (blind_emit _) fun _ =>
    .ite (.bind blind_temp fun _ => .bind (blind_inHigh _) fun _ => .bind (blind_inHigh _) fun _ =>
      .bind (blind_emit _) fun _ => blind_emit _) (.pure _)

theorem blind_lessThanOne (s : Site) (g : GuestReg) (t : HostReg) :
    Blind (Within limit cells) (lessThanOne s g t) :=
  .ite (.bind (blind_inLow _) fun _ => blind_emit _)
    (.bind (blind_inHigh _) fun _ => .bind (blind_inLow _) fun _ =>
      .bind (blind_constant _) fun _ => blind_compareBoth _ _ _ _ _ _)

theorem blind_condition (s : Site) (i : Recompiler.Instr) :
    Blind (Within limit cells) (condition s i) := by
  refine .bind blind_temp fun t => ?_
  cases branchTest i with
  | fpFlag value =>
    exact .bind (blind_inWord _) fun _ => .bind (blind_emit _) fun _ =>
      .ite (.bind (blind_emit _) fun _ => .pure t) (.pure t)
  | equal => exact .bind (blind_differ _ _ _ t) fun _ => .bind (blind_emit _) fun _ => .pure t
  | different => exact .bind (blind_differ _ _ _ t) fun _ => .pure t
  | atMostZero => exact .bind (blind_lessThanOne _ _ t) fun _ => .pure t
  | aboveZero =>
    exact .bind (blind_lessThanOne _ _ t) fun _ => .bind (blind_emit _) fun _ => .pure t
  | negative => exact .bind (blind_signWord _ _) fun _ => .bind (blind_emit _) fun _ => .pure t
  | notNegative =>
    exact .bind (blind_signWord _ _) fun _ => .bind (blind_emit _) fun _ =>
      .bind (blind_emit _) fun _ => .pure t

theorem blind_evaluate (s : Site) (i : Recompiler.Instr) :
    Blind (Within limit cells) (evaluate s i) :=
  .ite (.bind blind_temp fun _ => .bind (blind_inLow _) fun _ => .bind (blind_emit _) fun _ =>
      .pure _)
    (.ite (.pure _) (.bind (blind_condition s i) fun _ => .pure _))

theorem blind_writeLink (s : Site) (i : Recompiler.Instr) :
    Blind (Within limit cells) (writeLink s i) := by
  unfold writeLink
  split
  · exact .ite (.bind (blind_outSigned _) fun _ => .bind (blind_emit _) fun _ =>
      blind_modifyCache fun _ _ h => HostCache.Parallel.setConst h _ _) (.pure _)
  · exact .pure _

theorem blind_unpinAll : Blind (Within limit cells) (modifyCache unpinAll) :=
  blind_modifyCache fun _ _ h => h.quiet (f := unpinAll) fun _ _ => rfl

theorem blind_restore (saved : Snapshot) :
    Blind (Within limit cells) (modifyCache (·.restore saved)) :=
  blind_modifyCache fun _ _ h => h.restore saved

theorem blind_retire (keep : HostReg) : Blind (Within limit cells) (retire keep) := by
  refine blind_modifyCache fun c c' h => ?_
  have htemps : c'.temps = c.temps := by
    obtain ⟨b, -, rfl⟩ := h
    rfl
  rw [htemps]
  refine .foldl (fun c c' r h => ?_) c.temps h
  split
  · exact h
  · exact HostCache.Parallel.modifySlot h r _

theorem blind_branchAndSlot (cfg : Config) (s : Site) (i : Recompiler.Instr) (slot : TraceOp) :
    Blind (Within limit cells) (branchAndSlot cfg s i slot) := by
  refine .bind blind_startOp fun _ => .bind (blind_evaluate s i) fun out =>
    .bind (blind_writeLink s i) fun _ => .bind blind_unpinAll fun _ => .ite ?_ (.ite ?_ ?_)
  · exact .bind (blind_instr _ _ _) fun _ => .bind (blind_retire _) fun _ =>
      .ite (.bind (blind_exitReg _ _ _) fun _ => blind_endOp)
        (.bind (blind_exitDirect _ _ _ _) fun _ => blind_endOp)
  · exact .bind (blind_freshLabel _) fun _ => .bind (blind_emit _) fun _ =>
      blind_read (fun _ _ => rfl) fun _ => .bind (blind_instr _ _ _) fun _ =>
      .bind (blind_retire _) fun _ => .bind (blind_exitDirect _ _ _ _) fun _ =>
      .bind (blind_restore _) fun _ => .bind (blind_putLabel _) fun _ =>
      .bind (blind_exitDirect _ _ _ _) fun _ => blind_endOp
  · exact .bind (blind_freshLabel _) fun _ => .bind (blind_instr _ _ _) fun _ =>
      .bind (blind_retire _) fun _ => .bind (blind_emit _) fun _ =>
      blind_read (fun _ _ => rfl) fun _ => .bind (blind_exitDirect _ _ _ _) fun _ =>
      .bind (blind_restore _) fun _ => .bind (blind_putLabel _) fun _ =>
      .bind (blind_exitDirect _ _ _ _) fun _ => blind_endOp

theorem blind_branchServed (cfg : Config) (s : Site) (i : Recompiler.Instr) :
    Blind (Within limit cells) (branchServed cfg s i) :=
  .bind blind_startOp fun _ => .bind (blind_request _ _ _) fun _ => .bind blind_endOp fun _ =>
    blind_exitServed _ _

theorem blind_branch (cfg : Config) (s : Site) (op : TraceOp) (rest : List TraceOp) :
    Blind (Within limit cells) (branch cfg s op rest) := by
  cases rest with
  | nil => exact .ite (blind_branchServed _ _ _) (.throw _)
  | cons slot rest =>
    exact .ite (blind_branchServed _ _ _) (.ite (blind_branchAndSlot _ _ _ _) (.throw _))

theorem blind_body (cfg : Config) (base : UInt32) (index : Nat) (ops : List TraceOp) :
    Blind (Within limit cells) (body cfg base index ops) := by
  induction ops generalizing index with
  | nil => exact blind_exitDirect _ _ _ _
  | cons op rest ih =>
    rw [body]
    refine .ite (.throwBind _ _) ?_
    cases op.boundary with
    | endDelay => exact blind_branch _ _ _ _
    | endNow => exact .bind (blind_instr _ _ _) fun _ => blind_exitDirect _ _ _ _
    | «continue» => exact .bind (blind_instr _ _ _) fun _ => ih _

theorem blind_whole (cfg : Config) (base : UInt32) (ops : List TraceOp) :
    Blind (Within limit cells) (whole cfg base ops) := by
  refine .bind (blind_body cfg base 0 ops) fun _ => blind_read (fun _ _ => rfl) fun e => ?_
  rw [← Array.forIn_toList]
  exact .bind (.forIn _ blind_emitStub) fun _ => .pure _

end Emit

end Recompiler
