import Recompiler.Proofs.Holdings
import Recompiler.Proofs.InlineTransfers

/-!
Scopes of the register assignment. The code of an instruction opens no scope that it does not
close, so that the scope of a branch is still open after its delay slot.
-/

namespace Recompiler

open Ir

theorem HostCache.Assigns.precedes {P : Int → Prop} {F : FpSize → Int → Prop} {c c' : HostCache}
    (h : HostCache.Assigns P F c c') : c.builder.Precedes c'.builder := by
  induction h with
  | refl => exact .refl _
  | trans _ _ h h' => exact h.trans h'
  | recast hb => exact hb ▸ .refl _
  | fill c => exact .add _ _
  | writeback c r => exact (Extends.writeback c r).precedes
  | fpWriteback c r => exact (Appends.fpWriteback c r).precedes

namespace Emit

/-- Code is added, and every scope that is opened is closed. -/
class Nests {α : Type} (f : EmitM α) : Prop where
  precedes : ∀ {e e' : Emitter} {a : α}, f e = .ok a e' → e.Precedes e'
  depth : ∀ {e e' : Emitter} {a : α}, f e = .ok a e' → e'.cache.depth = e.cache.depth

section

variable {α β γ : Type} {f : EmitM α} {g : α → EmitM β}

instance (priority := low) [h : Nests f] : Grows f where
  precedes := h.precedes

theorem nests [h : Grows f]
    (hd : ∀ {e e' : Emitter} {a : α}, f e = .ok a e' → e'.cache.depth = e.cache.depth) : Nests f :=
  ⟨h.precedes, hd⟩

theorem nests_modifyCache {f : HostCache → HostCache} [Grows (modifyCache f)]
    (h : ∀ c : HostCache, (f c).depth = c.depth) : Nests (modifyCache f) :=
  nests fun he => by
    cases he
    exact h _

theorem nests_onCache {f : CacheM α} (h : ∀ {c a c'}, f c = .ok a c' → Appends c c') :
    Nests (onCache f) where
  precedes := (grows_onCache fun _ _ _ hc => (h hc).precedes).precedes
  depth he := by
    obtain ⟨c, hc, rfl⟩ := onCache_ok he
    exact (h hc).depth

instance (a : α) : Nests (pure a : EmitM α) :=
  nests fun h => by
    cases h
    rfl

theorem Nests.bind (hf : Nests f) (hg : ∀ a, Nests (g a)) : Nests (f >>= g) where
  precedes := (Grows.bind inferInstance inferInstance).precedes
  depth h := by
    obtain ⟨a, e', hfa, hga⟩ := bind_ok h
    exact ((hg a).depth hga).trans (hf.depth hfa)

instance [Nests f] [∀ a, Nests (g a)] : Nests (f >>= g) := .bind ‹_› ‹_›

instance {p : Prop} [Decidable p] {f g : EmitM α} [Nests f] [Nests g] :
    Nests (if p then f else g) := by
  split <;> infer_instance

instance {f : γ → EmitM Unit} [∀ x, Nests (f x)] (xs : List γ) :
    Nests (forIn xs PUnit.unit fun x (_ : PUnit) => do
      f x
      pure (ForInStep.yield PUnit.unit)) := by
  induction xs with
  | nil =>
    rw [List.forIn_nil]
    infer_instance
  | cons x xs ih =>
    rw [List.forIn_cons]
    refine .bind inferInstance fun s => ?_
    cases s with
    | done b => exact inferInstanceAs (Nests (pure b))
    | yield b => exact ih

instance : Nests (get : EmitM Emitter) :=
  nests fun h => by
    cases h
    rfl

end

section

variable (g : GuestReg) (off : Int) (v : UInt32) (x y z : HostReg)

instance : Nests (inLow g) := nests_onCache fun h => (Extends.allocInLow h).toAppends

instance : Nests (inHigh g) := nests_onCache fun h => (Extends.allocInHigh h).toAppends

instance : Nests (outLow g) := nests_onCache fun h => (Extends.allocOutLow h).toAppends

instance : Nests (outHigh g) := nests_onCache fun h => (Extends.allocOutHigh h).toAppends

instance (ext : Extension) : Nests (onCache (HostCache.allocOutExt g ext)) :=
  nests_onCache fun h => (Extends.allocOutExt h).toAppends

instance : Nests (outSigned g) := nests_onCache fun h => (Extends.allocOutExt h).toAppends

instance : Nests (outUnsigned g) := nests_onCache fun h => (Extends.allocOutExt h).toAppends

instance : Nests (inWord off) := nests_onCache fun h => (Extends.allocIn32 h).toAppends

instance : Nests (outWord off) := nests_onCache fun h => (Extends.allocOut32 h).toAppends

instance : Nests temp := nests_onCache fun h => (Extends.allocTemp h).toAppends

instance : Nests (constant v) := nests_onCache fun h => (Extends.allocConst h).toAppends

instance (i : Ir.Instr String) : Nests (emit i) :=
  nests fun h => by
    cases h
    rfl

instance (op : BinOp) : Nests (bin op x y z) := inferInstanceAs (Nests (emit _))

instance (op : ConstOp) : Nests (const op x v y) := inferInstanceAs (Nests (emit _))

instance : Nests (mov x y) := inferInstanceAs (Nests (emit _))

instance : Nests (modifyCache (·.setConst x v)) := nests_modifyCache fun _ => (Extends.setConst _ x v).depth

instance (size : Int) : Nests (modifyCache (·.clobberFp off size)) :=
  nests_modifyCache fun _ => (Appends.clobberFp _ off size).depth

instance : Nests (modifyCache (·.flushAll)) := nests_modifyCache fun _ => (Appends.flushAll _).depth

instance : Nests (modifyCache (·.dropAll)) := nests_modifyCache fun _ => rfl

instance : Nests (modifyCache unpinAll) := nests_modifyCache fun _ => rfl

instance (name : String) : Nests (putLabel name) :=
  nests fun h => by
    obtain ⟨b, -, rfl⟩ := putLabel_ok h
    rfl

instance (kind : String) : Nests (freshLabel kind) :=
  nests fun h => by
    cases h
    rfl

instance (s : Site) (op : Recompiler.Instr) : Nests (branchOff s op x) :=
  nests fun h => by
    cases h
    rfl

instance (stub : Stub) : Nests (join stub) :=
  nests fun h => by
    obtain ⟨_, e₁, h₁, h₂⟩ := bind_ok h
    cases h₁
    obtain ⟨b, -, rfl⟩ := putLabel_ok h₂
    rfl

end

instance (s : Site) (op : Recompiler.Instr) : Nests (describe s op) := by
  unfold describe
  infer_instance

instance : Nests spill := by
  unfold spill
  infer_instance

instance (service : Service) (s : Site) (op : Recompiler.Instr) : Nests (request service s op) := by
  unfold request
  infer_instance

section

variable (s : Site) (i : Recompiler.Instr)

instance (g : GuestReg) (high low : HostReg) : Nests (writeBoth g high low) := by
  unfold writeBoth
  infer_instance

instance (dst src : GuestReg) : Nests (move s dst src) := by
  unfold move
  infer_instance

instance (op : ShiftOp) : Nests (shiftWord op i) := by
  unfold shiftWord
  infer_instance

instance (op : ShiftOp) : Nests (shiftWordVar op i) := by
  unfold shiftWordVar
  infer_instance

instance (op : ShiftOp) : Nests (shiftDouble32 op i) := by
  unfold shiftDouble32
  cases op <;> infer_instance

instance (op : ShiftOp) : Nests (shiftDouble s op i) := by
  unfold shiftDouble
  cases op <;> infer_instance

instance (signed : Bool) : Nests (multiply signed i) := by
  unfold multiply
  infer_instance

instance (sub : Bool) : Nests (addTrapping s sub i) := by
  unfold addTrapping
  infer_instance

instance (op : BinOp) : Nests (addWord op i) := by
  unfold addWord
  infer_instance

instance (op : BinOp) : Nests (logic s op i) := by
  unfold logic
  infer_instance

instance (signed : Bool) (xh xl yh yl t : HostReg) : Nests (compareBoth signed xh xl yh yl t) := by
  unfold compareBoth
  infer_instance

instance (signed : Bool) : Nests (setLess s signed i) := by
  unfold setLess
  infer_instance

instance (sub : Bool) : Nests (addDouble sub i) := by
  unfold addDouble
  infer_instance

instance : Nests (addImmTrapping s i) := by
  unfold addImmTrapping
  infer_instance

instance : Nests (addImm i) := by
  unfold addImm
  infer_instance

instance : Nests (addImmDouble i) := by
  unfold addImmDouble
  infer_instance

instance (signed : Bool) : Nests (setLessImm s signed i) := by
  unfold setLessImm
  infer_instance

instance : Nests (andImm i) := by
  unfold andImm
  infer_instance

instance (op : ConstOp) : Nests (orImm s op i) := by
  unfold orImm
  infer_instance

instance : Nests (loadUpper i) := by
  unfold loadUpper
  infer_instance

end

section

variable (cfg : Config) (s : Site) (i : Recompiler.Instr) (a : Access)

instance (size : Size) : Nests (access size i) := by
  unfold access
  infer_instance

instance (slow : String) (isStore : Bool) : Nests (guard cfg i a slow isStore) := by
  unfold guard
  refine .bind inferInstance fun _ => ?_
  split
  · infer_instance
  · refine .bind inferInstance fun _ => .bind inferInstance fun _ => .bind inferInstance fun _ => ?_
    dsimp only
    infer_instance

instance (size : Size) : Nests (swizzle size a) := by
  cases size with
  | byte => exact inferInstanceAs (Nests (const .xor a.offset 3 a.offset))
  | half => exact inferInstanceAs (Nests (const .xor a.offset 2 a.offset))
  | word | double => exact inferInstanceAs (Nests (pure ()))

instance (op : RamLoad) (off : Int) (d : HostReg) : Nests (loadWord op a off d) :=
  inferInstanceAs (Nests (emit _))

instance (op : RamStore) (off : Int) (x : HostReg) : Nests (storeWord op a off x) :=
  inferInstanceAs (Nests (emit _))

instance (size : Size) (isStore : Bool) (rest : EmitM Unit) [Nests rest] :
    Nests (accessed cfg s i size isStore a rest) := by
  unfold accessed
  infer_instance

instance (op : LoadOp) : Nests (load cfg s op i) := by
  unfold load
  cases op <;> infer_instance

instance (size : Size) : Nests (store cfg s size i) := by
  unfold store
  cases size with
  | double =>
    dsimp only
    rw [if_pos rfl]
    infer_instance
  | byte | half | word =>
    dsimp only
    infer_instance

instance (ws : List (Int × Int)) : Nests (clobber ws) where
  precedes h := by
    cases h
    exact ⟨(HostCache.appends_clobbered _ ws).precedes, fun _ hs => hs⟩
  depth h := by
    cases h
    exact (HostCache.appends_clobbered _ ws).depth

instance (width : Width) : Nests (loadFp cfg s width i) := by
  rw [loadFp_eq]
  infer_instance

instance (width : Width) : Nests (storeFp cfg s width i) := by
  rw [storeFp_eq]
  infer_instance

end

section

variable (cfg : Config) (size : FpSize) (i : Recompiler.Instr)

instance (r : Reg) : Nests (inFp cfg size r) where
  precedes := (grows_onCache fun _ _ _ h => (HostCache.Assigns.allocInFp (P := fun _ => True)
    (F := fun _ _ => True) h trivial).precedes).precedes
  depth h := by
    obtain ⟨c, hc, rfl⟩ := onCache_ok h
    exact HostCache.depth_allocInFp hc

instance (r : Reg) : Nests (outFp cfg size r) where
  precedes := (grows_onCache fun _ _ _ h => (HostCache.Assigns.allocOutFp (P := fun _ => True)
    (F := fun _ _ => True) h trivial).precedes).precedes
  depth h := by
    obtain ⟨c, hc, rfl⟩ := onCache_ok h
    exact HostCache.depth_allocOutFp hc

instance (op : FpBinOp) : Nests (fpBinary cfg size op i) := by
  unfold fpBinary
  infer_instance

instance (op : FpUnOp) : Nests (fpUnary cfg size op i) := by
  unfold fpUnary
  infer_instance

instance : Nests (fpCompare cfg size i) := by
  unfold fpCompare
  infer_instance

instance (r : HostReg) (off : Int) : Nests (storeContext r off) := by
  unfold storeContext
  infer_instance

instance (width : Width) : Nests (moveFromFp cfg width i) := by
  unfold moveFromFp
  cases width <;> infer_instance

instance (width : Width) : Nests (moveToFp cfg width i) := by
  unfold moveToFp
  cases width <;> infer_instance

instance : Nests (moveFromControl i) := by
  unfold moveFromControl
  infer_instance

end

section

variable (cfg : Config) (s : Site) (i : Recompiler.Instr) {f : EmitM Unit}

theorem nests_inlineShift {op : ShiftOp} {amount : ShiftAmount} {width : Width}
    (h : inlineShift? s op amount width i = some f) : Nests f := by
  unfold inlineShift? at h
  split at h <;> cases h <;> infer_instance

theorem nests_inlineAlu {op : AluOp} (h : inlineAlu? s op i = some f) : Nests f := by
  unfold inlineAlu? at h
  split at h <;> cases h <;> infer_instance

theorem nests_inlineImm {op : ImmOp} (h : inlineImm? s op i = some f) : Nests f := by
  unfold inlineImm? at h
  split at h <;> cases h <;> infer_instance

theorem nests_inlineFp {size : FpSize} {op : FpOp} (h : inlineFp? cfg size op i = some f) :
    Nests f := by
  unfold inlineFp? at h
  split at h <;> cases h <;> infer_instance

theorem nests_inline (h : inline? cfg s i = some f) : Nests f := by
  unfold inline? at h
  split at h
  · exact nests_inlineShift s i h
  · exact nests_inlineAlu s i h
  · exact nests_inlineImm s i h
  case h_17 =>
    split at h <;> cases h
    infer_instance
  case h_18 =>
    obtain ⟨size, -, h⟩ := Option.bind_eq_some_iff.mp h
    exact nests_inlineFp cfg i h
  all_goals
    cases h
    try infer_instance

instance : Nests ((inline? cfg s i).getD (request .exec s i)) := by
  cases h : inline? cfg s i with
  | none => exact inferInstanceAs (Nests (request .exec s i))
  | some f => exact nests_inline cfg s i h

theorem depth_ended (c : HostCache) : c.ended.depth = c.depth - 1 := by
  unfold HostCache.ended
  split <;> rfl

theorem nests_scope {f : EmitM Unit} [Nests f] : Nests (do
    modifyCache (·.startOp)
    f
    onCache HostCache.endOp) :=
  nests fun h => by
    obtain ⟨_, e₁, hstart, h⟩ := bind_ok h
    obtain ⟨_, e₂, hf, hend⟩ := bind_ok h
    cases hstart
    obtain ⟨c, hc, rfl⟩ := onCache_ok hend
    rw [endOp_ok hc, depth_ended, Nests.depth hf]
    exact Int.add_sub_cancel _ _

instance : Nests (instr cfg s i) := by
  have := nests_scope (f := (inline? cfg s i).getD (request .exec s i))
  unfold instr
  infer_instance

end

section

variable (cfg : Config) (s : Site) (i : Recompiler.Instr) (g : GuestReg) (t : HostReg)

instance : Nests (signWord s g) := by
  unfold signWord
  infer_instance

instance (x y : GuestReg) : Nests (differ s x y t) := by
  unfold differ
  infer_instance

instance : Nests (lessThanOne s g t) := by
  unfold lessThanOne
  infer_instance

instance : Nests (condition s i) := by
  unfold condition
  cases branchTest i <;> infer_instance

instance : Nests (evaluate s i) := by
  unfold evaluate
  infer_instance

instance : Nests (writeLink s i) := by
  unfold writeLink
  cases i.link? <;> infer_instance

theorem precedes_drop (c : HostCache) (x : HostReg) : c.builder.Precedes (c.drop x).builder := by
  unfold HostCache.drop HostCache.modifySlot
  split <;> exact .refl _

instance (keep : HostReg) : Grows (retire keep) :=
  grows_modifyCache fun c => by
    refine List.foldlRecOn (motive := fun c' : HostCache => c.builder.Precedes c'.builder) _ _ (.refl _)
      fun c' hc x _ => ?_
    split
    · exact hc
    · exact hc.trans (precedes_drop c' x)

instance (slot : TraceOp) : Grows (branchAndSlot cfg s i slot) := by
  unfold branchAndSlot
  dsimp only
  refine .bind inferInstance fun _ => .bind inferInstance fun out => .bind inferInstance fun _ =>
    .bind inferInstance fun _ => ?_
  split
  · infer_instance
  · split
    · refine .bind inferInstance fun _ => .bind inferInstance fun _ => .bind inferInstance fun _ =>
        .bind inferInstance fun _ => .bind inferInstance fun _ => ?_
      infer_instance
    · refine .bind inferInstance fun _ => .bind inferInstance fun _ => .bind inferInstance fun _ => ?_
      infer_instance

instance : Grows (branchServed cfg s i) := by
  unfold branchServed
  infer_instance

instance (op : TraceOp) (rest : List TraceOp) : Grows (branch cfg s op rest) := by
  unfold branch
  cases rest <;> infer_instance

instance (base : UInt32) (index : Nat) (ops : List TraceOp) : Grows (body cfg base index ops) := by
  induction ops generalizing index with
  | nil => exact inferInstanceAs (Grows (exitDirect _ _ _ _))
  | cons op ops ih =>
    unfold body
    dsimp only
    cases op.boundary <;> infer_instance

end

end Emit

end Recompiler
