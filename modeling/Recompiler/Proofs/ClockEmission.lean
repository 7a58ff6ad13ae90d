import Recompiler.Proofs.Stillness

/-!
The code of instructions leaves the clock alone, and exits count the instructions that ran.
-/

namespace Recompiler

open Ir Emit Assertion

namespace Emit

variable {T : Terms} {cfg : Config} {s : Site} {i : Recompiler.Instr}

instance (g : GuestReg) (high low : HostReg) : Stills T (writeBoth g high low) := by
  unfold writeBoth
  infer_instance

instance (dst src : GuestReg) : Stills T (move s dst src) := by
  unfold move
  infer_instance

instance (op : ShiftOp) : Stills T (shiftWord op i) := by
  unfold shiftWord
  infer_instance

instance (op : ShiftOp) : Stills T (shiftWordVar op i) := by
  unfold shiftWordVar
  infer_instance

instance (op : ShiftOp) : Stills T (shiftDouble32 op i) := by
  cases op <;> unfold shiftDouble32 <;> infer_instance

instance (op : ShiftOp) : Stills T (shiftDouble s op i) := by
  cases op <;> unfold shiftDouble <;> infer_instance

instance (signed : Bool) : Stills T (multiply signed i) := by
  unfold multiply
  infer_instance

instance (sub : Bool) [Served T .exec s i] : Stills T (addTrapping s sub i) := by
  refine .bind inferInstance fun _ => .bind inferInstance fun _ => .branchOff fun stub _ => ?_
  infer_instance

instance (op : BinOp) : Stills T (addWord op i) := by
  unfold addWord
  infer_instance

instance (op : BinOp) : Stills T (logic s op i) := by
  unfold logic
  infer_instance

instance (signed : Bool) (xh xl yh yl t : HostReg) :
    Stills T (compareBoth signed xh xl yh yl t) := by
  exact .freshLabel fun done _ => inferInstance

instance (signed : Bool) : Stills T (setLess s signed i) := by
  unfold setLess
  infer_instance

instance (sub : Bool) : Stills T (addDouble sub i) := by
  unfold addDouble
  infer_instance

instance [Served T .exec s i] : Stills T (addImmTrapping s i) := by
  refine .bind inferInstance fun _ => .bind inferInstance fun _ => .branchOff fun stub _ => ?_
  infer_instance

instance : Stills T (addImm i) := by
  unfold addImm
  infer_instance

instance : Stills T (addImmDouble i) := by
  unfold addImmDouble
  infer_instance

instance (signed : Bool) : Stills T (setLessImm s signed i) := by
  have hwide : Stills T (do
      let xh ← inHigh (rs i)
      let xl ← inLow (rs i)
      let t ← temp
      let done ← freshLabel "cmp"
      const (lessConst signed) xh (simmHigh i) t
      emit (.branchConst .ne xh (simmHigh i) done)
      const .sltu xl (simm i) t
      putLabel done
      mov t (← outUnsigned (rt i))) := by
    refine .bind inferInstance fun _ => .bind inferInstance fun _ => .bind inferInstance fun _ => ?_
    exact .freshLabel fun done _ => inferInstance
  unfold setLessImm
  infer_instance

instance : Stills T (andImm i) := by
  unfold andImm
  infer_instance

instance (op : ConstOp) : Stills T (orImm s op i) := by
  unfold orImm
  infer_instance

instance : Stills T (loadUpper i) := by
  unfold loadUpper
  infer_instance

instance (size : Size) : Stills T (access size i) := by
  unfold access
  infer_instance

instance (size : Size) (a : Access) : Stills T (swizzle size a) := by
  cases size <;> unfold swizzle <;> infer_instance

instance (a : Access) (slow : String) [IsInner slow] (isStore : Bool) :
    Stills T (guard cfg i a slow isStore) := by
  have hlast : Stills T (do
      emit (.branchConst .geu a.offset (cfg.ramSize - a.size + 1) slow)
      if isStore then
        const .srl a.offset 12 a.scratch
        emit (.ltab Layout.codePages a.scratch a.scratch)
        emit (.branchConst .ne a.scratch 0 slow)) :=
    .bind inferInstance fun _ => inferInstance
  refine .bind inferInstance fun _ => ?_
  split
  · infer_instance
  · refine .bind inferInstance fun _ => .bind inferInstance fun _ => .bind inferInstance fun _ => ?_
    dsimp only
    split
    · exact .bind inferInstance fun _ => .bind inferInstance fun _ => hlast
    · exact hlast

instance (op : RamLoad) (a : Access) (off : Int) (d : HostReg) : Stills T (loadWord op a off d) :=
  inferInstanceAs (Stills T (emit _))

instance (op : RamStore) (a : Access) (off : Int) (x : HostReg) :
    Stills T (storeWord op a off x) :=
  inferInstanceAs (Stills T (emit _))

instance (op : LoadOp) [Served T .exec s i] : Stills T (load cfg s op i) := by
  refine .bind inferInstance fun a => .branchOff fun stub _ => .bind inferInstance fun _ =>
    .bind inferInstance fun _ => ?_
  cases op <;> dsimp only <;> infer_instance

instance (size : Size) [Served T .exec s i] : Stills T (store cfg s size i) := by
  have hrest (high : HostReg) : Stills T (do
      let low ← inLow (rt i)
      let a ← access size i
      let stub ← branchOff s i a.addr
      guard cfg i a (Stub.entryLabel stub.id) true
      swizzle size a
      match size with
      | .byte => storeWord .sb a 0 low
      | .half => storeWord .sh a 0 low
      | .word => storeWord .sw a 0 low
      | .double =>
        storeWord .sw a 0 high
        storeWord .sw a 4 low
      join stub) := by
    refine .bind inferInstance fun _ => .bind inferInstance fun a => .branchOff fun stub _ =>
      .bind inferInstance fun _ => .bind inferInstance fun _ => ?_
    cases size <;> dsimp only <;> infer_instance
  unfold store
  infer_instance

theorem fpWords_isOffClock {width : Width} {r : Reg} {w : Int × Int}
    (h : w ∈ fpWords cfg width r) : Cpu.IsOffClock w.2 := by
  have hsingle := Layout.single_lt cfg.wideFp r
  have hdouble := Layout.double_lt cfg.wideFp r
  refine Cpu.isOffClock_fp ?_
  cases width with
  | word =>
    rw [List.mem_singleton.mp h]
    exact hsingle
  | double =>
    simp only [fpWords, List.mem_cons, List.not_mem_nil, or_false] at h
    rcases h with rfl | rfl
    · exact hdouble
    · change Layout.double cfg.wideFp r < 592
      omega

instance (words : List (Int × Int)) : Stills T (clobber words) :=
  stills_modifyCache <| HostCache.Assigns.foldl
    (fun (c : HostCache) (w : Int × Int) => HostCache.Assigns.clobberFp c w.2 4) words

instance (width : Width) [Served T .exec s i] : Stills T (loadFp cfg s width i) := by
  refine .bind inferInstance fun _ => .bind inferInstance fun a => .bind inferInstance fun v =>
    .branchOff fun stub _ => .bind inferInstance fun _ => ?_
  refine .bind (.forIn _ fun w hw => ?_) fun _ => inferInstance
  have := stills_store (T := T) (fpWords_isOffClock hw) v
  dsimp only
  infer_instance

instance (width : Width) [Served T .exec s i] : Stills T (storeFp cfg s width i) := by
  refine .bind inferInstance fun _ => .bind inferInstance fun a => .bind inferInstance fun v =>
    .branchOff fun stub _ => .bind inferInstance fun _ => ?_
  refine .bind (.forIn _ fun w hw => ?_) fun _ => inferInstance
  dsimp only
  infer_instance

instance (size : FpSize) (op : FpBinOp) : Stills T (fpBinary cfg size op i) := by
  unfold fpBinary
  infer_instance

instance (size : FpSize) (op : FpUnOp) : Stills T (fpUnary cfg size op i) := by
  unfold fpUnary
  infer_instance

instance (size : FpSize) : Stills T (fpCompare cfg size i) := by
  unfold fpCompare
  infer_instance

theorem stills_storeContext {off : Int} (h : Cpu.IsOffClock off) (x : HostReg) :
    Stills T (storeContext x off) := by
  have := stills_store (T := T) h x
  have := stills_storeConst (T := T) h 0
  unfold storeContext
  infer_instance

instance (width : Width) : Stills T (moveFromFp cfg width i) := by
  cases width <;> unfold moveFromFp <;> infer_instance

instance (width : Width) : Stills T (moveToFp cfg width i) := by
  have hsingle := Layout.single_lt cfg.wideFp i.fs
  have hdouble := Layout.double_lt cfg.wideFp i.fs
  cases width with
  | word =>
    exact .bind inferInstance fun _ => .bind inferInstance fun x =>
      stills_storeContext (Cpu.isOffClock_fp hsingle) x
  | double =>
    refine .bind inferInstance fun _ => .bind inferInstance fun x => .bind ?_ fun _ =>
      .bind inferInstance fun y => ?_
    · exact stills_storeContext (Cpu.isOffClock_fp hdouble) x
    · refine stills_storeContext (Cpu.isOffClock_fp ?_) y
      change Layout.double cfg.wideFp i.fs < 592
      omega

instance : Stills T (moveFromControl i) := by
  unfold moveFromControl
  infer_instance

theorem stills_inline {f : EmitM Unit} [Served T .exec s i] (h : inline? cfg s i = some f) :
    Stills T f := by
  unfold inline? at h
  cases hk : i.kind with
  | shift op amount width =>
    simp only [hk, inlineShift?] at h
    split at h <;> cases h <;> infer_instance
  | alu op =>
    simp only [hk, inlineAlu?] at h
    split at h <;> cases h <;> infer_instance
  | imm op =>
    simp only [hk, inlineImm?] at h
    split at h <;> cases h <;> infer_instance
  | fp format op =>
    simp only [hk] at h
    obtain ⟨size, -, h⟩ := Option.bind_eq_some_iff.mp h
    unfold inlineFp? at h
    split at h <;> cases h <;> infer_instance
  | cfc1 =>
    simp only [hk] at h
    split at h <;> cases h
    infer_instance
  | mulDiv op =>
    cases op <;> simp only [hk] at h <;> cases h <;> infer_instance
  | _ =>
    simp only [hk] at h
    cases h <;> infer_instance

instance [Served T .exec s i] : Stills T (instr cfg s i) := by
  have hcode : Stills T ((inline? cfg s i).getD (request .exec s i)) := by
    cases h : inline? cfg s i with
    | none => exact inferInstanceAs (Stills T (request .exec s i))
    | some f => exact stills_inline h
  unfold instr
  infer_instance

instance (g : GuestReg) : Stills T (signWord s g) := by
  unfold signWord
  infer_instance

instance (x y : GuestReg) (t : HostReg) : Stills T (differ s x y t) := by
  unfold differ
  infer_instance

instance (g : GuestReg) (t : HostReg) : Stills T (lessThanOne s g t) := by
  unfold lessThanOne
  infer_instance

instance : Stills T (condition s i) := by
  refine .bind inferInstance fun t => ?_
  dsimp only
  split <;> infer_instance

instance : Stills T (evaluate s i) := by
  unfold evaluate
  infer_instance

instance : Stills T (writeLink s i) := by
  unfold writeLink
  split <;> infer_instance

instance : Stills T (modifyCache unpinAll) := by
  refine stills_modifyCache fun c => .shed rfl (fun r => .inr ?_) fun _ => .inr rfl
  change ((c.slots.map unpinned).get r).content = _
  rw [Vector.get_map, unpinned]
  split <;> rfl

instance (keep : HostReg) : Stills T (retire keep) := by
  refine stills_modifyCache fun c => HostCache.Assigns.foldl (fun (c : HostCache) (x : HostReg) => ?_)
    c.temps c
  split
  · exact .refl c
  · unfold HostCache.drop HostCache.modifySlot
    split
    · exact .setSlot c _ _ (by rintro _ ⟨⟩)
    · exact .refl c

end Emit

end Recompiler
