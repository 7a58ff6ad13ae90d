import Recompiler.Proofs.Assignments
import Recompiler.Proofs.Drafts

/-!
While the body of a program is being emitted, its code leaves the clock alone: no register holds a
word of the clock, so that none is stored there, and what a program writes by itself lies elsewhere.
-/

namespace Recompiler

open Ir Emit Assertion

namespace Cpu

theorem isOffClock_guest (g : GuestReg) :
    IsOffClock (Layout.lowWord g) ∧ IsOffClock (Layout.highWord g) := by
  have := g.isLt
  unfold IsOffClock Layout.lowWord Layout.highWord Layout.cycle Layout.nextEvent
  omega

theorem isOffClock_save {r : HostReg} (h : r.num < 9) : IsOffClock (saveSlot r) := by
  unfold IsOffClock saveSlot Layout.cycle Layout.nextEvent
  omega

theorem isOffClock_fp {off : Int} (h : off < 592) : IsOffClock off := by
  unfold IsOffClock Layout.cycle Layout.nextEvent
  omega

end Cpu

namespace Layout

theorem double_lt (wide : Bool) (r : Reg) : double wide r + 4 < 592 := by
  have := (Cpu.doubleSlot wide r).isLt
  unfold double
  omega

theorem single_lt (wide : Bool) (r : Reg) : single wide r < 592 := by
  have := double_lt wide r
  unfold single doubleHigh doubleLow
  split <;> omega

end Layout

def Ir.FpSize.IsOffClock (_ : FpSize) (off : Int) : Prop := off + 4 < 600

namespace Emit

theorem fpOffset_isOffClock (cfg : Config) (size : FpSize) (r : Reg) :
    size.IsOffClock (fpOffset cfg size r) := by
  have := Layout.single_lt cfg.wideFp r
  have := Layout.double_lt cfg.wideFp r
  unfold FpSize.IsOffClock fpOffset
  cases size <;> dsimp only <;> omega

end Emit

/-- No register holds a word of the clock. -/
structure Snapshot.OffClock (s : Snapshot) : Prop where
  word : ∀ r off, (s.slots.get r).content = .word off → Cpu.IsOffClock off
  fp : ∀ r size off, (s.fpSlots.get r).content = some (size, off) → size.IsOffClock off

theorem Snapshot.OffClock.absent {c : HostCache} (h : c.snapshot.OffClock) {off : Int}
    (ho : ¬ Cpu.IsOffClock off) (r : Fin 9) : (c.slot r).content ≠ .word off :=
  fun hr => ho (h.word r off hr)

namespace Emit.Drafted

variable {T : Terms} {P : Clock → (HostReg → UInt32) → Clock → Prop} {b b' : Builder}
  {i : Ir.Instr String}

theorem quiet (h : Drafted T (fun k get c => P k get c.clock) b) (hi : i.IsQuiet)
    (ht : i.target? = none)
    (hp : ∀ k get get' c, (∀ x, Loc.reg x ∉ i.results → get' x = get x) →
      P k get c → P k get' c) :
    Drafted T (fun k get c => P k get c.clock) (b.add i) := by
  refine h.add (.of_quiet (Instr.isQuiet_mapTarget (Instr.isQuiet_clip hi) _) ?_ fun t ht' => ?_)
  · rwa [Instr.results_mapTarget, Instr.results_clip]
  · rw [Instr.target?_mapTarget, Instr.target?_clip, ht] at ht'
    cases ht'

theorem store (h : Drafted T (fun k get c => P k get c.clock) b) (hi : i.IsQuiet)
    (ht : i.target? = none) (hr : i.results = []) :
    Drafted T (fun k get c => P k get c.clock) (b.add i) := by
  refine h.quiet hi ht fun k get get' c hget hc => ?_
  rwa [show get' = get from funext fun x => hget x (by rw [hr]; exact List.not_mem_nil)]

theorem stores {is : List (Ir.Instr String)}
    (hi : ∀ i ∈ is, i.IsQuiet ∧ i.target? = none ∧ i.results = [])
    (h : Drafted T (fun k get c => P k get c.clock) b) :
    Drafted T (fun k get c => P k get c.clock) (is.foldl Builder.add b) := by
  induction is generalizing b with
  | nil => exact h
  | cons i is ih =>
    obtain ⟨hq, ht, hr⟩ := hi i List.mem_cons_self
    exact ih (fun j hj => hi j (List.mem_cons_of_mem _ hj)) (h.store hq ht hr)

end Emit.Drafted

namespace HostCache

variable {T : Terms} {P : Clock → (HostReg → UInt32) → Clock → Prop} {c c' : HostCache}
  {r : Fin 9}

theorem slots_snapshot (c : HostCache) (r : Fin 9) : c.snapshot.slots.get r = c.slot r := rfl

theorem fpSlots_snapshot (c : HostCache) : c.snapshot.fpSlots = c.fpSlots := rfl

/-- Storing a register that holds no word of the clock. -/
theorem writebackCode_quiet {s : Slot}
    (hs : ∀ off, s.content = .word off → Cpu.IsOffClock off) :
    ∀ i ∈ writebackCode r s, i.IsQuiet ∧ i.target? = none ∧ i.results = [] := by
  intro i hi
  unfold writebackCode at hi
  split at hi
  · cases hc : s.content with
    | unused => simp [hc] at hi
    | temp => simp [hc] at hi
    | high g =>
      simp only [hc, List.mem_singleton] at hi
      subst hi
      exact ⟨(Cpu.isOffClock_guest g).2, rfl, rfl⟩
    | word off =>
      simp only [hc, List.mem_singleton] at hi
      subst hi
      exact ⟨hs off hc, rfl, rfl⟩
    | low g ext =>
      cases ext with
      | none =>
        simp only [hc, List.mem_singleton] at hi
        subst hi
        exact ⟨(Cpu.isOffClock_guest g).1, rfl, rfl⟩
      | some ext =>
        simp only [hc, List.mem_cons, List.not_mem_nil, or_false] at hi
        rcases hi with rfl | rfl
        · exact ⟨(Cpu.isOffClock_guest g).1, rfl, rfl⟩
        · cases ext <;> exact ⟨(Cpu.isOffClock_guest g).2, rfl, rfl⟩
  · cases hi

theorem builder_emitAll (c : HostCache) (is : List (Ir.Instr String)) :
    (c.emitAll is).builder = is.foldl Builder.add c.builder := by
  induction is generalizing c with
  | nil => rfl
  | cons i is ih => exact ih (c.emit i)

theorem drafted_writeback (hs : ∀ off, (c.slot r).content = .word off → Cpu.IsOffClock off)
    (h : Drafted T (fun k get c => P k get c.clock) c.builder) :
    Drafted T (fun k get c => P k get c.clock) (c.writeback r).builder := by
  rw [writeback_eq]
  change Drafted T _ (c.emitAll _).builder
  rw [builder_emitAll]
  exact .stores (writebackCode_quiet hs) h

theorem drafted_fpWriteback {r : Fin 8}
    (hs : ∀ size off, (c.fpSlots.get r).content = some (size, off) → size.IsOffClock off)
    (h : Drafted T (fun k get c => P k get c.clock) c.builder) :
    Drafted T (fun k get c => P k get c.clock) (c.fpWriteback r).builder := by
  unfold fpWriteback
  dsimp only
  split
  · split
    · rename_i size off hc
      have hoff : off + 4 < 600 := hs size off hc
      refine h.store (i := .fst size (.ofSlot r) off) ?_ rfl rfl
      cases size with
      | single =>
        change Cpu.IsOffClock off
        unfold Cpu.IsOffClock Layout.cycle Layout.nextEvent
        omega
      | double =>
        change Cpu.IsOffClock off ∧ Cpu.IsOffClock (off + 4)
        unfold Cpu.IsOffClock Layout.cycle Layout.nextEvent
        omega
    · exact h
  · exact h

theorem offClock_assigns (h : c.snapshot.OffClock)
    (ha : Assigns Cpu.IsOffClock FpSize.IsOffClock c c') : c'.snapshot.OffClock := by
  obtain ⟨hw, hf⟩ := ha.contents
  refine ⟨fun r off hr => ?_, fun r size off hr => ?_⟩
  · rcases hw r off hr with ⟨r', hr'⟩ | ho
    · exact h.word r' off hr'
    · exact ho
  · rcases hf r size off hr with ⟨r', hr'⟩ | ho
    · exact h.fp r' size off hr'
    · exact ho

/-- The code so far leaves the clock alone, and no register holds a word of it. -/
structure IsStill (T : Terms) (c : HostCache) : Prop where
  draft : Drafted T unmoved c.builder
  clear : c.snapshot.OffClock

theorem IsStill.assigns (h : IsStill T c)
    (ha : Assigns Cpu.IsOffClock FpSize.IsOffClock c c') : IsStill T c' := by
  refine ⟨?_, offClock_assigns h.clear ha⟩
  induction ha with
  | refl c => exact h.draft
  | trans hfirst _ ih ih' => exact ih' ⟨ih h, offClock_assigns h.clear hfirst⟩
  | recast hb => exact hb ▸ h.draft
  | fill c hi =>
    rename_i i
    refine Drafted.quiet (P := fun k _ c => c = k) h.draft ?_ ?_ fun _ _ _ _ _ hp => hp
    · cases i <;> first | exact trivial | cases hi
    · cases i <;> first | rfl | cases hi
  | writeback c r => exact drafted_writeback (P := fun k _ c => c = k) (h.clear.word r) h.draft
  | fpWriteback c r => exact drafted_fpWriteback (P := fun k _ c => c = k) (h.clear.fp r) h.draft

end HostCache

namespace Emit

/-- The label is not the one behind the check for a due event. -/
class IsInner (name : String) : Prop where
  eq : ∃ kind ∈ labelKinds, kind ≠ "due" ∧ ∃ n, name = tag kind n

class IsInnerKind (kind : String) : Prop where
  mem : kind ∈ labelKinds
  ne : kind ≠ "due"

instance : IsInnerKind "resume" := ⟨by decide, by decide⟩

instance : IsInnerKind "cmp" := ⟨by decide, by decide⟩

instance : IsInnerKind "skip" := ⟨by decide, by decide⟩

instance : IsInnerKind "nt" := ⟨by decide, by decide⟩

instance (kind : String) [h : IsInnerKind kind] (n : Nat) : IsInner (tag kind n) :=
  ⟨kind, h.mem, h.ne, n, rfl⟩

instance (id : Nat) : IsInner (Stub.entryLabel id) := ⟨"slow", by decide, by decide, id, rfl⟩

instance (id : Nat) : IsInner (Stub.resumeLabel id) := ⟨"resume", by decide, by decide, id, rfl⟩

instance (id : Nat) : IsInner (Stub.joinLabel id) := ⟨"join", by decide, by decide, id, rfl⟩

theorem awaited_inner (T : Terms) (b : Builder) (name : String) [h : IsInner name] :
    awaited T (b.scopedName name) = unmoved := by
  obtain ⟨kind, hk, hd, n, rfl⟩ := h.eq
  rw [scopedName_tag b hk]
  exact awaited_tag T hk hd n

/-- The instruction leaves the clock alone and jumps only within the body. -/
class Rests (i : Ir.Instr String) : Prop where
  quiet : i.IsQuiet
  inner : ∀ name, i.target? = some name → IsInner name

/-- The service may be asked for. -/
class Served (T : Terms) (service : Service) (s : Site) (op : Recompiler.Instr) : Prop where
  served : T.served service s op

/-- The slow path may start where it does. -/
class Stub.Fair (T : Terms) (stub : Stub) : Prop where
  clear : stub.enter.OffClock
  served : T.served .exec stub.site stub.op

/-- The code so far leaves the clock alone, and its slow paths will as well. -/
structure Still (T : Terms) (e : Emitter) : Prop where
  cache : e.cache.IsStill T
  stubs : ∀ stub ∈ e.stubs, stub.Fair T

/-- The clock is left alone. -/
class Stills (T : Terms) {α : Type} (f : EmitM α) : Prop where
  keeps : ∀ {e e' : Emitter} {a : α}, f e = .ok a e' → Still T e → Still T e'

section

variable {T : Terms} {α β : Type} {f : EmitM α} {g : α → EmitM β}

theorem Still.after [h : Stills T f] {e e' : Emitter} {a : α} (hs : Still T e)
    (he : f e = .ok a e') : Still T e' :=
  h.keeps he hs

instance (a : α) : Stills T (pure a : EmitM α) where
  keeps h he := by
    cases h
    exact he

theorem Stills.bind (hf : Stills T f) (hg : ∀ a, Stills T (g a)) : Stills T (f >>= g) where
  keeps h he := by
    obtain ⟨a, e', hfa, hga⟩ := bind_ok h
    exact (hg a).keeps hga (hf.keeps hfa he)

instance [Stills T f] [∀ a, Stills T (g a)] : Stills T (f >>= g) := .bind ‹_› ‹_›

instance {p : Prop} [Decidable p] {f g : EmitM α} [Stills T f] [Stills T g] :
    Stills T (if p then f else g) := by
  split <;> infer_instance

instance : Stills T (get : EmitM Emitter) where
  keeps h he := by
    cases h
    exact he

instance (err : EmitError) : Stills T (throw err : EmitM α) where
  keeps h := by cases h

theorem Stills.forIn {γ : Type} {f : γ → PUnit → EmitM (ForInStep PUnit)} (xs : List γ)
    (hf : ∀ x ∈ xs, Stills T (f x PUnit.unit)) : Stills T (forIn xs PUnit.unit f) := by
  induction xs with
  | nil =>
    rw [List.forIn_nil]
    infer_instance
  | cons x xs ih =>
    rw [List.forIn_cons]
    refine .bind (hf x List.mem_cons_self) fun s => ?_
    cases s with
    | done b => exact inferInstanceAs (Stills T (pure b))
    | yield b => exact ih fun y hy => hf y (List.mem_cons_of_mem _ hy)

instance {γ : Type} {f : γ → PUnit → EmitM (ForInStep PUnit)} [∀ x, Stills T (f x PUnit.unit)]
    (xs : List γ) : Stills T (forIn xs PUnit.unit f) :=
  .forIn xs fun _ _ => inferInstance

theorem stills_modifyCache {f : HostCache → HostCache}
    (h : ∀ c, HostCache.Assigns Cpu.IsOffClock FpSize.IsOffClock c (f c)) :
    Stills T (modifyCache f) where
  keeps := by
    intro e e' a he hs
    cases he
    exact ⟨hs.cache.assigns (h e.cache), hs.stubs⟩

theorem stills_onCache {f : CacheM α}
    (h : ∀ c a c', f c = .ok a c' → HostCache.Assigns Cpu.IsOffClock FpSize.IsOffClock c c') :
    Stills T (onCache f) where
  keeps := by
    intro e e' a he hs
    obtain ⟨c, hc, rfl⟩ := onCache_ok he
    exact ⟨hs.cache.assigns (h _ _ _ hc), hs.stubs⟩

end

variable {T : Terms}

section

variable (g : GuestReg) (v : UInt32) (cfg : Config) (size : FpSize) (r : Reg)

instance : Stills T (inLow g) := stills_onCache fun _ _ _ h => .allocInLow h

instance : Stills T (inHigh g) := stills_onCache fun _ _ _ h => .allocInHigh h

instance : Stills T (outLow g) := stills_onCache fun _ _ _ h => .allocOutLow h

instance : Stills T (outHigh g) := stills_onCache fun _ _ _ h => .allocOutHigh h

instance : Stills T (outSigned g) := stills_onCache fun _ _ _ h => .allocOutExt h

instance : Stills T (outUnsigned g) := stills_onCache fun _ _ _ h => .allocOutExt h

instance : Stills T (inWord Layout.fcr31) :=
  stills_onCache fun _ _ _ h => .allocIn32 h (by decide)

instance : Stills T (outWord Layout.fcr31) :=
  stills_onCache fun _ _ _ h => .allocOut32 h (by decide)

instance : Stills T temp := stills_onCache fun _ _ _ h => .allocTemp h

instance : Stills T (constant v) := stills_onCache fun _ _ _ h => .allocConst h

instance : Stills T (inFp cfg size r) :=
  stills_onCache fun _ _ _ h => .allocInFp h (fpOffset_isOffClock cfg size r)

instance : Stills T (outFp cfg size r) :=
  stills_onCache fun _ _ _ h => .allocOutFp h (fpOffset_isOffClock cfg size r)

instance : Stills T (onCache HostCache.endOp) :=
  stills_onCache fun c _ _ h => endOp_ok h ▸ .ended c

instance : Stills T (modifyCache (·.startOp)) :=
  stills_modifyCache fun _ => .shed rfl (fun _ => .inr rfl) fun _ => .inr rfl

instance : Stills T (modifyCache (·.flushAll)) := stills_modifyCache .flushAll

instance : Stills T (modifyCache (·.dropAll)) := stills_modifyCache .dropAll

instance (x : HostReg) : Stills T (modifyCache (·.setConst x v)) :=
  stills_modifyCache fun c => .setConst c x v

instance (off size : Int) : Stills T (modifyCache (·.clobberFp off size)) :=
  stills_modifyCache fun c => .clobberFp c off size

end

instance (v : UInt32) (x : HostReg) : Rests (.li v x) := ⟨trivial, nofun⟩

instance (off : Int) (x : HostReg) : Rests (.ldc off x) := ⟨trivial, nofun⟩

instance (x y : HostReg) : Rests (.mov x y) := ⟨trivial, nofun⟩

instance (op : BinOp) (x y z : HostReg) : Rests (.bin op x y z) := ⟨trivial, nofun⟩

instance (op : ConstOp) (x : HostReg) (v : UInt32) (y : HostReg) : Rests (.const op x v y) :=
  ⟨trivial, nofun⟩

instance (signed : Bool) (x y lo hi : HostReg) : Rests (.mul signed x y lo hi) := ⟨trivial, nofun⟩

instance (off : Int) (x y : HostReg) : Rests (.ltab off x y) := ⟨trivial, nofun⟩

instance (op : RamLoad) (x : HostReg) (off : Int) (y : HostReg) : Rests (.load op x off y) :=
  ⟨trivial, nofun⟩

instance (op : RamStore) (x y : HostReg) (off : Int) : Rests (.store op x y off) := ⟨trivial, nofun⟩

instance (size : FpSize) (off : Int) (x : FpReg) : Rests (.fld size off x) := ⟨trivial, nofun⟩

instance (op : FpBinOp) (size : FpSize) (x y z : FpReg) : Rests (.fbin op size x y z) :=
  ⟨trivial, nofun⟩

instance (op : FpUnOp) (size : FpSize) (x z : FpReg) : Rests (.funary op size x z) :=
  ⟨trivial, nofun⟩

instance (size : FpSize) (x y : FpReg) (cond : Nat) (t : HostReg) :
    Rests (.fcmp size x y cond t) := ⟨trivial, nofun⟩

instance (cond : Cond) (x y : HostReg) (name : String) [h : IsInner name] :
    Rests (.branch cond x y name) := ⟨trivial, by rintro _ ⟨⟩; exact h⟩

instance (cond : Cond) (x : HostReg) (v : UInt32) (name : String) [h : IsInner name] :
    Rests (.branchConst cond x v name) := ⟨trivial, by rintro _ ⟨⟩; exact h⟩

instance (sub : Bool) (x y : HostReg) (name : String) [h : IsInner name] :
    Rests (.branchOverflow sub x y name) := ⟨trivial, by rintro _ ⟨⟩; exact h⟩

instance (name : String) [h : IsInner name] : Rests (.jump name) :=
  ⟨trivial, by rintro _ ⟨⟩; exact h⟩

instance (i : Ir.Instr String) [hi : Rests i] : Stills T (emit i) where
  keeps := by
    intro e e' a he hs
    cases he
    refine ⟨⟨hs.cache.draft.add (.unmoved_of_quiet ?_ fun t ht => ?_), hs.cache.clear⟩, hs.stubs⟩
    · exact Instr.isQuiet_mapTarget (Instr.isQuiet_clip hi.quiet) _
    · rw [Instr.target?_mapTarget, Instr.target?_clip] at ht
      obtain ⟨name, hname, rfl⟩ := Option.map_eq_some_iff.mp ht
      have := hi.inner name hname
      exact awaited_inner T _ name

instance (op : BinOp) (x y z : HostReg) : Stills T (bin op x y z) :=
  inferInstanceAs (Stills T (emit _))

instance (op : ConstOp) (x : HostReg) (v : UInt32) (y : HostReg) : Stills T (const op x v y) :=
  inferInstanceAs (Stills T (emit _))

instance (x y : HostReg) : Stills T (mov x y) := inferInstanceAs (Stills T (emit _))

theorem stills_store {off : Int} (h : Cpu.IsOffClock off) (x : HostReg) :
    Stills T (emit (.stc x off)) :=
  have : Rests (.stc x off) := ⟨h, nofun⟩
  inferInstance

theorem stills_storeConst {off : Int} (h : Cpu.IsOffClock off) (v : UInt32) :
    Stills T (emit (.stci v off)) :=
  have : Rests (.stci v off) := ⟨h, nofun⟩
  inferInstance

instance (name : String) [IsInner name] : Stills T (putLabel name) where
  keeps h hs := by
    obtain ⟨b, hb, rfl⟩ := putLabel_ok h
    refine ⟨⟨hs.cache.draft.label hb fun k get c hc => ?_, hs.cache.clear⟩, hs.stubs⟩
    rwa [awaited_inner] at hc

theorem freshLabel_ok {kind name : String} {e e' : Emitter}
    (h : freshLabel kind e = .ok name e') :
    name = tag kind (e.labels + 1) ∧ e' = { e with labels := e.labels + 1 } := by
  cases h
  exact ⟨rfl, rfl⟩

theorem Stills.freshLabel {β : Type} {kind : String} [IsInnerKind kind] {g : String → EmitM β}
    (hg : ∀ name [IsInner name], Stills T (g name)) : Stills T (freshLabel kind >>= g) where
  keeps h hs := by
    obtain ⟨name, e₁, hname, hrest⟩ := bind_ok h
    obtain ⟨rfl, rfl⟩ := freshLabel_ok hname
    exact (hg (tag kind _)).keeps hrest ⟨hs.cache, hs.stubs⟩

theorem branchOff_ok {s : Site} {op : Recompiler.Instr} {addr : HostReg} {stub : Stub}
    {e e' : Emitter} (h : branchOff s op addr e = .ok stub e') :
    stub.site = s ∧ stub.op = op ∧ stub.enter = e.cache.snapshot ∧
      e' = { e with labels := e.labels + 1 } := by
  cases h
  exact ⟨rfl, rfl, rfl, rfl⟩

theorem Stills.branchOff {β : Type} {s : Site} {op : Recompiler.Instr} {addr : HostReg}
    [h : Served T .exec s op] {g : Stub → EmitM β}
    (hg : ∀ stub [Stub.Fair T stub], Stills T (g stub)) :
    Stills T (branchOff s op addr >>= g) where
  keeps he hs := by
    obtain ⟨stub, e₁, hstub, hrest⟩ := bind_ok he
    obtain ⟨rfl, rfl, henter, rfl⟩ := branchOff_ok hstub
    have hfair : Stub.Fair T stub := ⟨henter ▸ hs.cache.clear, h.served⟩
    exact (hg stub).keeps hrest ⟨hs.cache, hs.stubs⟩

instance (stub : Stub) [h : Stub.Fair T stub] : Stills T (join stub) where
  keeps he hs := by
    obtain ⟨u, e₁, h₁, h₂⟩ := bind_ok he
    cases h₁
    have hput : Stills T (putLabel (Stub.joinLabel stub.id)) := inferInstance
    refine hput.keeps h₂ ⟨hs.cache, fun stub' hm => ?_⟩
    rcases Array.mem_push.mp hm with hm | rfl
    · exact hs.stubs stub' hm
    · exact ⟨h.clear, h.served⟩

/-- The state tells where the instruction is, besides the service. -/
def told (s : Site) (op : Recompiler.Instr) : Assertion := fun k _ c =>
  c.clock = k ∧ c.pc = s.pc ∧ c.delay = ofBool32 s.inDelaySlot ∧ c.frame.callOp = op.word ∧
    c.frame.callCount = UInt32.ofNat (s.index + 1)

theorem upholds_stci {L : Type} {K K' : Assertion} {v : UInt32} {off : Int} {land : L → Assertion}
    (h : ∀ k get c, K k get c → K' k get (c.storeWord off v)) :
    Upholds T K (.stci v off) K' land :=
  fun k m hm => h k m.get m.ctx hm

theorem drafted_describe {b : Builder} (s : Site) (op : Recompiler.Instr)
    (h : Drafted T unmoved b) :
    Drafted T (told s op) ((((b.add (.stci s.pc Layout.pc)).add
      (.stci (ofBool32 s.inDelaySlot) Layout.delay)).add (.stci op.word Layout.callOp)).add
        (.stci (UInt32.ofNat (s.index + 1)) Layout.callCount)) := by
  have hpc : Drafted T (fun k _ c => c.clock = k ∧ c.pc = s.pc) _ :=
    h.add (i := .stci s.pc Layout.pc) (upholds_stci fun _ _ _ hc => ⟨hc, rfl⟩)
  have hdelay : Drafted T (fun k _ c => c.clock = k ∧ c.pc = s.pc ∧
      c.delay = ofBool32 s.inDelaySlot) _ :=
    hpc.add (i := .stci (ofBool32 s.inDelaySlot) Layout.delay)
      (upholds_stci fun _ _ _ hc => ⟨hc.1, hc.2, rfl⟩)
  have hop : Drafted T (fun k _ c => c.clock = k ∧ c.pc = s.pc ∧
      c.delay = ofBool32 s.inDelaySlot ∧ c.frame.callOp = op.word) _ :=
    hdelay.add (i := .stci op.word Layout.callOp)
      (upholds_stci fun _ _ _ hc => ⟨hc.1, hc.2.1, hc.2.2, rfl⟩)
  exact hop.add (upholds_stci fun _ _ _ hc => ⟨hc.1, hc.2.1, hc.2.2.1, hc.2.2.2, rfl⟩)

theorem upholds_callout {L : Type} {service : Service} {s : Site} {op : Recompiler.Instr}
    (hs : T.served service s op) {resume : L} {land : L → Assertion}
    (hl : land resume = unmoved) {fall : Assertion} :
    Upholds T (told s op) (.callout service.id resume) fall land := by
  intro k m hm
  obtain ⟨hclock, hpc, hdelay, hop, hcount⟩ := hm
  refine ⟨⟨hclock, service, s, op, hs, ?_, hpc, hdelay, hop, hcount⟩, ?_⟩
  · cases service <;> rfl
  · rintro t ⟨⟩ get c hc
    rw [hl]
    exact hc

theorem mem_temps {c : HostCache} {x : HostReg} (h : x ∈ c.temps) : x.num < 9 := by
  obtain ⟨r, -, rfl⟩ := List.mem_map.mp h
  exact r.isLt

instance : Stills T spill := by
  refine .bind inferInstance fun _ => .bind inferInstance fun e => ?_
  have hsave : Stills T (forIn e.cache.temps PUnit.unit fun x (_ : PUnit) => do
      emit (.stc x (saveSlot x))
      pure (ForInStep.yield PUnit.unit)) :=
    .forIn _ fun x hx => .bind (stills_store (Cpu.isOffClock_save (mem_temps hx)) x) inferInstance
  exact .bind hsave fun _ => inferInstance

theorem stills_ask {service : Service} {s : Site} {op : Recompiler.Instr} {α : Type}
    (hs : T.served service s op) (resume : String) [IsInner resume] {f : EmitM α}
    (hf : Stills T f) : Stills T (do
      describe s op
      emit (.callout service.id resume)
      f) where
  keeps he h := by
    obtain ⟨u, e₁, h₁, he⟩ := bind_ok he
    obtain ⟨u', e₂, h₂, he⟩ := bind_ok he
    cases h₁
    cases h₂
    refine hf.keeps he ⟨⟨(drafted_describe s op h.cache.draft).add ?_, h.cache.clear⟩, h.stubs⟩
    exact upholds_callout hs (awaited_inner T _ resume)

instance (service : Service) (s : Site) (op : Recompiler.Instr) [h : Served T service s op] :
    Stills T (request service s op) := by
  refine .freshLabel fun resume _ => ?_
  exact .bind inferInstance fun temps => stills_ask h.served resume inferInstance

instance (temps : List HostReg) (x : HostReg) (s : Slot) : Stills T (reload temps x s) := by
  unfold reload
  split <;> infer_instance

instance (x : FpReg) (s : FpSlot) : Stills T (reloadFp x s) := by
  unfold reloadFp
  split <;> infer_instance

end Emit

end Recompiler
