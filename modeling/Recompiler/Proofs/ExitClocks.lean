import Recompiler.Proofs.ClockEmission
import Recompiler.Proofs.Releases

/-!
Exits. An exit counts the instructions that ran, once, and then stores the counter with every
other register. A link cell is followed only if the next event is still ahead.
-/

namespace Recompiler

open Ir Emit Assertion

namespace Emit

variable {T : Terms} {d : UInt32} {r : Fin 9} {c c' : HostCache}

def moved (d : UInt32) : Assertion := fun k _ c => c.clock = k.after d

def loaded (r : Fin 9) (k : Clock) (get : HostReg → UInt32) (c : Clock) : Prop :=
  get (.ofSlot r) = k.cycle ∧ c = k

/-- The register has the counter from `d` cycles further, which is still to be stored. -/
def summed (d : UInt32) (r : Fin 9) (k : Clock) (get : HostReg → UInt32) (c : Clock) : Prop :=
  get (.ofSlot r) = k.cycle + d ∧ c = k

/-- The register has the counter from `d` cycles further, and is stored unless it is dirty. -/
structure Counting (T : Terms) (d : UInt32) (r : Fin 9) (c : HostCache) : Prop where
  content : (c.slot r).content = .word Layout.cycle
  plain : (c.slot r).isConst = false
  others : ∀ r', r' ≠ r → ∀ off, (c.slot r').content = .word off → Cpu.IsOffClock off
  fp : ∀ r size off, (c.fpSlots.get r).content = some (size, off) → size.IsOffClock off
  draft : Drafted T (if (c.slot r).dirty = true then fun k get c => summed d r k get c.clock
    else moved d) c.builder

namespace Counting

theorem stored (h : Counting T d r c) (hd : (c.slot r).dirty = false) :
    Drafted T (moved d) c.builder := by
  have := h.draft
  rwa [if_neg (by rw [hd]; exact Bool.false_ne_true)] at this

theorem of_drafted (h : Counting T d r c) (hr : c'.slot r = c.slot r)
    (hw : ∀ r', (c'.slot r').content = (c.slot r').content)
    (hf : ∀ r size off, (c'.fpSlots.get r).content = some (size, off) → size.IsOffClock off)
    (hb : ∀ P : Clock → (HostReg → UInt32) → Clock → Prop,
      Drafted T (fun k get c => P k get c.clock) c.builder →
        Drafted T (fun k get c => P k get c.clock) c'.builder) : Counting T d r c' := by
  refine ⟨hr ▸ h.content, hr ▸ h.plain, fun r' hne off hoff => ?_, hf, ?_⟩
  · rw [hw] at hoff
    exact h.others r' hne off hoff
  · have hdraft := h.draft
    rw [hr]
    split
    · rename_i hd
      rw [if_pos hd] at hdraft
      exact hb (summed d r) hdraft
    · rename_i hd
      rw [if_neg hd] at hdraft
      exact hb (fun k _ c => c = k.after d) hdraft

theorem writeback_self (h : Counting T d r c) : Counting T d r (c.writeback r) := by
  have hslot := HostCache.slot_writeback_self c r
  have hfp : (c.writeback r).fpSlots = c.fpSlots := (Extends.writeback c r).fpSlots
  refine ⟨hslot ▸ h.content, hslot ▸ h.plain, fun r' hne off hoff => ?_,
    fun r' size off hoff => h.fp r' size off (hfp ▸ hoff), ?_⟩
  · rw [HostCache.slot_writeback_of_ne _ (Ne.symm hne)] at hoff
    exact h.others r' hne off hoff
  · rw [hslot, if_neg Bool.false_ne_true]
    by_cases hd : (c.slot r).dirty = true
    · have hdraft := h.draft
      rw [if_pos hd] at hdraft
      have hcode : HostCache.writebackCode r (c.slot r) = [.stc (.ofSlot r) Layout.cycle] := by
        rw [HostCache.writebackCode, if_pos hd, h.content]
        rfl
      rw [HostCache.writeback_eq, hcode]
      refine hdraft.add (i := .stc (.ofSlot r) Layout.cycle) fun k m hm => ?_
      obtain ⟨hget, hclock⟩ := hm
      change Cpu.clock (Cpu.storeWord m.ctx Layout.cycle (m.get (.ofSlot r))) = k.after d
      rw [hget, ← hclock]
      rfl
    · rw [HostCache.writeback, if_neg hd]
      exact h.stored (Bool.not_eq_true _ ▸ hd)

theorem writeback (h : Counting T d r c) (r' : Fin 9) : Counting T d r (c.writeback r') := by
  by_cases he : r' = r
  · exact he ▸ h.writeback_self
  · have hfp : (c.writeback r').fpSlots = c.fpSlots := (Extends.writeback c r').fpSlots
    refine h.of_drafted (HostCache.slot_writeback_of_ne _ he) (fun r'' => ?_) (hfp ▸ h.fp)
      fun P => HostCache.drafted_writeback (h.others r' he)
    by_cases he' : r' = r''
    · subst he'
      rw [HostCache.slot_writeback_self]
    · rw [HostCache.slot_writeback_of_ne _ he']

theorem fpFree (h : Counting T d r c) (r' : Fin 8) : Counting T d r (c.fpFree r') := by
  have hslots : (c.fpFree r').slots = c.slots := HostCache.slots_fpWriteback c r'
  have hslot (r'' : Fin 9) : (c.fpFree r').slot r'' = c.slot r'' := by
    rw [HostCache.slot, hslots, HostCache.slot]
  refine h.of_drafted (hslot r) (fun r'' => by rw [hslot]) (fun r'' size off hoff => ?_)
    fun P => HostCache.drafted_fpWriteback (h.fp r')
  rw [HostCache.fpSlots_fpFree] at hoff
  by_cases he : r' = r''
  · subst he
    rw [Vector.get_put_self] at hoff
    cases hoff
  · rw [Vector.get_put_of_ne _ _ he] at hoff
    exact h.fp r'' size off hoff

theorem flushPass (h : Counting T d r c) (mask : UInt32) (extended : Bool) :
    Counting T d r (c.flushPass mask extended) := by
  refine List.foldlRecOn _ _ h fun c hc r' _ => ?_
  split
  · exact hc.writeback r'
  · exact hc

theorem flushFp (h : Counting T d r c) : Counting T d r c.flushFp :=
  List.foldlRecOn _ _ h fun _ hc r' _ => hc.fpFree r'

/-- With every register stored the clock is further. -/
theorem flushAll (h : Counting T d r c) :
    Drafted T (moved d) c.flushAll.builder ∧ c.flushAll.snapshot.OffClock := by
  have hstored : Counting T d r ((c.flushPass 0 false).flushPass 0 true).flushFp :=
    ((h.flushPass 0 false).flushPass 0 true).flushFp
  have hclean : (((c.flushPass 0 false).flushPass 0 true).flushFp.slot r).dirty = false := by
    rw [HostCache.slot_stored, HostCache.outside_zero, if_pos rfl]
  generalize hc₁ : ((c.flushPass 0 false).flushPass 0 true).flushFp = c₁ at hstored hclean
  obtain ⟨hbuilder, hfp⟩ := Releases.builder_releaseIdle c₁ 0
  have hflush : c.flushAll = c₁.releaseIdle 0 := by
    rw [← hc₁]
    rfl
  refine ⟨?_, ⟨fun r' off hr' => ?_, fun r' size off hr' => ?_⟩⟩
  · rw [hflush, hbuilder]
    exact hstored.stored hclean
  · rw [HostCache.slots_snapshot, HostCache.slot_flushAll] at hr'
    split at hr'
    · cases hr'
    · rename_i hkeep
      by_cases he : r' = r
      · subst he
        rw [h.content, h.plain] at hkeep
        exact absurd rfl hkeep
      · exact h.others r' he off hr'
  · rw [HostCache.fpSlots_snapshot, hflush, hfp] at hr'
    exact hstored.fp r' size off hr'

end Counting

theorem load_absent {off : Int} {x : HostReg} (hc : ∀ r, (c.slot r).content ≠ .word off)
    (h : HostCache.allocIn32 off c = .ok x c') :
    ∃ r, ¬ (c.slot r).Pinned ∧ x = .ofSlot r ∧
      c' = (c.replace r (.fresh (.word off) false)).emit (.ldc off x) := by
  rw [HostCache.allocIn32_eq] at h
  cases hf : c.findWord? off with
  | some r => exact absurd (Content.base_eq_word (HostCache.findWord?_some hf)) (hc r)
  | none =>
    rw [hf] at h
    exact HostCache.claimLoaded_ok h

theorem upholds_set {L : Type} {P P' : Clock → (HostReg → UInt32) → Clock → Prop}
    {i : Ir.Instr L} {land : L → Assertion} (r : Fin 9) (v : Machine Cpu → UInt32)
    (hi : ∀ m : Machine Cpu, m.exec (i.mapTarget fun _ => 0) = (m.set (.ofSlot r) (v m), .advance))
    (h : ∀ k (m : Machine Cpu), P k m.get m.ctx.clock → P' k (m.set (.ofSlot r) (v m)).get m.ctx.clock) :
    Upholds T (fun k get c => P k get c.clock) i (fun k get c => P' k get c.clock) land := by
  intro k m hm
  rw [hi m]
  change P' k _ (m.set (.ofSlot r) (v m)).ctx.clock
  rw [Machine.ctx_set]
  exact h k m hm

theorem drafted_load_cycle {b : Builder} (h : Drafted T unmoved b) (r : Fin 9) :
    Drafted T (fun k get c => loaded r k get c.clock) (b.add (.ldc Layout.cycle (.ofSlot r))) := by
  refine h.add (upholds_set (P := fun k _ c => c = k) r (fun m => Cpu.cycle m.ctx) (fun _ => rfl)
    fun k m hm => ⟨?_, hm⟩)
  rw [Machine.get_set_self, ← hm]
  rfl

theorem drafted_sum {b : Builder} {r : Fin 9}
    (h : Drafted T (fun k get c => loaded r k get c.clock) b) :
    Drafted T (fun k get c => summed d r k get c.clock)
      (b.add (.const .add (.ofSlot r) d (.ofSlot r))) := by
  refine h.add (upholds_set r (fun m => m.get (.ofSlot r) + d) (fun _ => rfl)
    fun k m hm => ⟨?_, hm.2⟩)
  rw [Machine.get_set_self, hm.1]

/-- The counter is read, its register is to be written, and the sum is written there. -/
theorem counting_summed (hs : c.IsStill T) {x y : HostReg} {c₁ c₂ : HostCache}
    (h₁ : HostCache.allocIn32 Layout.cycle c = .ok x c₁)
    (h₂ : HostCache.allocOut32 Layout.cycle c₁ = .ok y c₂) :
    ∃ r, Counting T d r (c₂.emit (.const .add x d x)) := by
  obtain ⟨r, -, rfl, rfl⟩ := load_absent (hs.clear.absent (by decide)) h₁
  have hself : ((c.replace r (.fresh (.word Layout.cycle) false)).slot r).content =
      .word Layout.cycle := by
    rw [HostCache.replace, HostCache.slot_touch_self, HostCache.slot_setSlot_self]
    rfl
  have hne (r' : Fin 9) (h : r' ≠ r) :
      (c.replace r (.fresh (.word Layout.cycle) false)).slot r' = c.slot r' :=
    HostCache.slot_replace_of_ne _ _ (Ne.symm h)
  have hfp : (c.replace r (.fresh (.word Layout.cycle) false)).fpSlots = c.fpSlots :=
    (Extends.replace c r _).fpSlots
  have hbuilder : (c.replace r (.fresh (.word Layout.cycle) false)).builder =
      (c.writeback r).builder := rfl
  generalize c.replace r (.fresh (.word Layout.cycle) false) = c₁ at hself hne hfp hbuilder h₂
  have hfind : (c₁.emit (.ldc Layout.cycle (.ofSlot r))).findWord? Layout.cycle = some r := by
    cases hf : (c₁.emit (.ldc Layout.cycle (.ofSlot r))).findWord? Layout.cycle with
    | none =>
      refine absurd ?_ (HostCache.findWord?_none hf r)
      rw [HostCache.slot_emit, hself]
      rfl
    | some r' =>
      have hr' := Content.base_eq_word (HostCache.findWord?_some hf)
      refine congrArg some (Decidable.byContradiction fun he => ?_)
      rw [HostCache.slot_emit, hne r' he] at hr'
      exact absurd (hs.clear.word r' _ hr') (by decide)
  rw [HostCache.allocOut32_eq, hfind] at h₂
  cases h₂
  refine ⟨r, ?_, ?_, fun r' he off hoff => ?_, fun r' size off hoff => ?_, ?_⟩
  · rw [HostCache.slot_emit, HostCache.slot_touch_self, HostCache.slot_setSlot_self]
  · rw [HostCache.slot_emit, HostCache.slot_touch_self, HostCache.slot_setSlot_self]
  · rw [HostCache.slot_emit, HostCache.slot_touch_of_ne _ (Ne.symm he),
      HostCache.slot_setSlot_of_ne _ _ (Ne.symm he), HostCache.slot_emit, hne r' he] at hoff
    exact hs.clear.word r' off hoff
  · change (c₁.fpSlots.get r').content = _ at hoff
    rw [hfp] at hoff
    exact hs.clear.fp r' size off hoff
  · rw [if_pos (by rw [HostCache.slot_emit, HostCache.slot_touch_self,
      HostCache.slot_setSlot_self])]
    change Drafted T _ ((c₁.builder.add (.ldc Layout.cycle (.ofSlot r))).add _)
    rw [hbuilder]
    exact drafted_sum (drafted_load_cycle (HostCache.drafted_writeback (P := fun k _ c => c = k)
      (hs.clear.word r) hs.draft) r)

theorem Counting.ended (h : Counting T d r c) : Counting T d r c.ended := by
  have hslot (r' : Fin 9) (hr : (c.slot r').content ≠ .temp) :
      (c.ended.slot r').content = (c.slot r').content ∧
        (c.ended.slot r').isConst = (c.slot r').isConst ∧
        (c.ended.slot r').dirty = (c.slot r').dirty := by
    rw [Releases.slot_ended]
    split
    · rw [HostCache.endSlot, if_neg (by simpa using hr)]
      exact ⟨rfl, rfl, rfl⟩
    · exact ⟨rfl, rfl, rfl⟩
  obtain ⟨hcontent, hplain, hdirty⟩ := hslot r (by rw [h.content]; rintro ⟨⟩)
  have hassigns : HostCache.Assigns (fun _ => False) (fun _ _ => False) c c.ended := .ended c
  have hbuilder : c.ended.builder = c.builder := by
    unfold HostCache.ended
    dsimp only
    split <;> rfl
  refine ⟨hcontent.trans h.content, hplain.trans h.plain, fun r' he off hoff => ?_,
    fun r' size off hoff => ?_, ?_⟩
  · by_cases ht : (c.slot r').content = .temp
    · rw [Releases.slot_ended] at hoff
      split at hoff
      · rw [HostCache.endSlot, if_pos (by rw [ht]; rfl)] at hoff
        cases hoff
      · rw [ht] at hoff
        cases hoff
    · rw [(hslot r' ht).1] at hoff
      exact h.others r' he off hoff
  · obtain ⟨r'', hr''⟩ := (hassigns.contents.2 r' size off hoff).resolve_right id
    exact h.fp r'' size off hr''
  · rw [hdirty, hbuilder]
    exact h.draft

/-- The clock is `d` cycles further, in the state. -/
structure Moved (T : Terms) (d : UInt32) (e : Emitter) : Prop where
  draft : Drafted T (moved d) e.cache.builder
  clear : e.cache.snapshot.OffClock
  stubs : ∀ stub ∈ e.stubs, stub.Fair T

/-- The code so far leaves the program wherever it does not leave the clock alone. -/
structure Left (T : Terms) (e : Emitter) : Prop where
  draft : Drafted T unmoved e.cache.builder
  stubs : ∀ stub ∈ e.stubs, stub.Fair T

theorem Still.left {e : Emitter} (h : Still T e) : Left T e := ⟨h.cache.draft, h.stubs⟩

/-- The instructions are counted. -/
theorem moved_account {cfg : Config} {n : Nat} {e e' : Emitter} (hs : Still T e)
    (h : account cfg n e = .ok () e') : Moved T (UInt32.ofNat n * cfg.countPerOp) e' := by
  have hstart : Stills T (modifyCache (·.startOp)) := inferInstance
  obtain ⟨u, e₁, h₁, h⟩ := bind_ok h
  have hs₁ := hstart.keeps h₁ hs
  dsimp only at h
  split at h
  · obtain ⟨x, e₂, h₂, h⟩ := bind_ok h
    obtain ⟨y, e₃, h₃, h⟩ := bind_ok h
    obtain ⟨u, e₄, h₄, h⟩ := bind_ok h
    obtain ⟨u, e₅, h₅, h₆⟩ := bind_ok h
    obtain ⟨c₂, hc₂, rfl⟩ := onCache_ok h₂
    obtain ⟨c₃, hc₃, rfl⟩ := onCache_ok h₃
    obtain ⟨r, hr⟩ := counting_summed (d := UInt32.ofNat n * cfg.countPerOp) hs₁.cache hc₂ hc₃
    cases h₄
    obtain ⟨c₅, hc₅, rfl⟩ := onCache_ok h₅
    have hended := hr.ended
    rw [← endOp_ok hc₅] at hended
    obtain ⟨hdraft, hclear⟩ := hended.flushAll
    generalize hc₆ : c₅.flushAll = c₆ at hdraft hclear
    rw [modifyCache_eq, hc₆] at h₆
    cases h₆
    exact ⟨hdraft, hclear, hs₁.stubs⟩
  · rename_i hd
    have hrest : Stills T (do
        onCache HostCache.endOp
        modifyCache (·.flushAll)) := inferInstance
    have hs₂ := hrest.keeps h hs₁
    refine ⟨?_, hs₂.cache.clear, hs₂.stubs⟩
    rw [Classical.not_not.mp hd]
    exact hs₂.cache.draft.mono fun k get c hc => by rw [moved, Clock.after_zero]; exact hc

namespace Moved

variable {e e' : Emitter}

theorem store (h : Moved T d e) {i : Ir.Instr String} (hi : i.IsQuiet) (ht : i.target? = none)
    (hr : i.results = []) : Moved T d { e with cache := e.cache.emit i } :=
  ⟨Drafted.store (P := fun k _ c => c = k.after d) h.draft hi ht hr, h.clear, h.stubs⟩

theorem startOp (h : Moved T d e) : Moved T d { e with cache := e.cache.startOp } :=
  ⟨h.draft, h.clear, h.stubs⟩

theorem exit (h : Moved T (UInt32.ofNat n * T.cost) e) (hn : n ≤ T.limit)
    (he : emit (.exit 0) e = .ok () e') : Left T e' := by
  cases he
  refine ⟨h.draft.add (i := .exit 0) fun k m hm => ⟨by decide, n, hn, hm⟩, h.stubs⟩

end Moved

theorem left_exitUnlinked {e e' : Emitter} {n : Nat} (h : Moved T (UInt32.ofNat n * T.cost) e)
    (hn : n ≤ T.limit) (he : exitUnlinked e = .ok () e') : Left T e' := by
  obtain ⟨u, e₁, h₁, h₂⟩ := bind_ok he
  cases h₁
  have hoff : Cpu.IsOffClock Layout.lastCell := by decide
  exact (h.store (i := .stci 0 Layout.lastCell) hoff rfl rfl).exit hn h₂

/-- The registers of `rs` are in use, and no other one holds a word of the clock. -/
structure Reading (rs : List (Fin 9)) (c : HostCache) : Prop where
  pinned : ∀ r ∈ rs, (c.slot r).Pinned
  others : ∀ r, r ∉ rs → ∀ off, (c.slot r).content = .word off → Cpu.IsOffClock off

theorem Reading.replace {rs : List (Fin 9)} (h : Reading rs c) (hr : ¬ (c.slot r).Pinned) {s : Slot}
    (hs : s.content ≠ .unused) : r ∉ rs ∧ Reading (r :: rs) (c.replace r s) ∧
      ∀ P : Clock → (HostReg → UInt32) → Clock → Prop,
        Drafted T (fun k get c => P k get c.clock) c.builder →
          Drafted T (fun k get c => P k get c.clock) (c.replace r s).builder := by
  have hnot : r ∉ rs := fun hm => hr (h.pinned r hm)
  have hself : ((c.replace r s).slot r).Pinned := by
    rw [HostCache.replace, HostCache.slot_touch_self, HostCache.slot_setSlot_self]
    exact ⟨hs, .inl rfl⟩
  refine ⟨hnot, ⟨fun r' hm => ?_, fun r' hm off hoff => ?_⟩,
    fun P => HostCache.drafted_writeback (h.others r hnot)⟩
  · rcases List.mem_cons.mp hm with rfl | hm
    · exact hself
    · exact (Kept.replace hr r' (h.pinned r' hm)).1
  · obtain ⟨hne, hm⟩ := not_or.mp fun h => hm (List.mem_cons.mpr h)
    rw [HostCache.slot_replace_of_ne _ _ (Ne.symm hne)] at hoff
    exact h.others r' hm off hoff

def readCycle (d : UInt32) (r : Fin 9) (k : Clock) (get : HostReg → UInt32) (c : Clock) : Prop :=
  c = k.after d ∧ get (.ofSlot r) = c.cycle

def readBoth (d : UInt32) (r r' : Fin 9) (k : Clock) (get : HostReg → UInt32) (c : Clock) : Prop :=
  readCycle d r k get c ∧ get (.ofSlot r') = c.nextEvent

def readAhead (d : UInt32) (t : Fin 9) (k : Clock) (get : HostReg → UInt32) (c : Clock) : Prop :=
  c = k.after d ∧ get (.ofSlot t) = c.cycle - c.nextEvent

theorem drafted_read_cycle {b : Builder} (h : Drafted T (moved d) b) (r : Fin 9) :
    Drafted T (fun k get c => readCycle d r k get c.clock)
      (b.add (.ldc Layout.cycle (.ofSlot r))) :=
  h.add (upholds_set (P := fun k _ c => c = k.after d) r (fun m => Cpu.cycle m.ctx) (fun _ => rfl)
    fun _ m hm => ⟨hm, Machine.get_set_self m r _⟩)

theorem drafted_read_next {b : Builder} {r r' : Fin 9} (hne : r' ≠ r)
    (h : Drafted T (fun k get c => readCycle d r k get c.clock) b) :
    Drafted T (fun k get c => readBoth d r r' k get c.clock)
      (b.add (.ldc Layout.nextEvent (.ofSlot r'))) := by
  refine h.add (upholds_set r' (fun m => Cpu.nextEvent m.ctx) (fun _ => rfl)
    fun k m hm => ⟨⟨hm.1, ?_⟩, Machine.get_set_self m r' _⟩)
  rw [Machine.get_set_of_ne _ _ fun he => hne (Machine.ofSlot_inj he)]
  exact hm.2

theorem drafted_diff {b : Builder} {r r' : Fin 9} (t : Fin 9)
    (h : Drafted T (fun k get c => readBoth d r r' k get c.clock) b) :
    Drafted T (fun k get c => readAhead d t k get c.clock)
      (b.add (.bin .sub (.ofSlot r) (.ofSlot r') (.ofSlot t))) := by
  refine h.add (upholds_set t (fun m => m.get (.ofSlot r) - m.get (.ofSlot r')) (fun _ => rfl)
    fun k m hm => ⟨hm.1.1, ?_⟩)
  rw [Machine.get_set_self, hm.1.2, hm.2]

theorem slt32_zero (v : UInt32) : slt32 v 0 = signBit32 v := by
  rw [slt32_eq_decide, signBit32_eq_msb, BitVec.msb_eq_toInt]
  rfl

theorem upholds_branch {L : Type} {K fall : Assertion} {i : Ir.Instr L} {land : L → Assertion}
    (b : Machine Cpu → Bool)
    (hi : ∀ m : Machine Cpu, m.exec (i.mapTarget fun _ => 0) =
      (m, if b m then .jump 0 else .advance))
    (hf : ∀ k (m : Machine Cpu), K k m.get m.ctx → b m = false → fall k m.get m.ctx)
    (hl : ∀ t, i.target? = some t → ∀ k (m : Machine Cpu), K k m.get m.ctx → b m = true →
      land t k m.get m.ctx) : Upholds T K i fall land := by
  intro k m hm
  rw [hi m]
  cases hb : b m with
  | false => exact hf k m hm hb
  | true => exact fun t ht => hl t ht k m hm hb

theorem drafted_check {b : Builder} {t : Fin 9} {n m : Nat} (hn : n ≤ T.limit)
    (h : Drafted T (fun k get c => readAhead (UInt32.ofNat n * T.cost) t k get c.clock) b) :
    Drafted T (fun k _ c => c.clock = k.after (UInt32.ofNat n * T.cost) ∧ c.clock.isAhead = true)
      (b.add (.branchConst .ge (.ofSlot t) 0 (tag "due" m))) := by
  refine h.add (i := .branchConst .ge (.ofSlot t) 0 (tag "due" m)) (upholds_branch
    (fun m => !slt32 (m.get (.ofSlot t)) 0) (fun _ => rfl) (fun k m hm hb => ⟨hm.1, ?_⟩)
    fun name hname k m hm _ => ?_)
  · rw [Bool.not_eq_false', slt32_zero, hm.2] at hb
    exact hb
  · cases hname
    rw [scopedName_tag b (by decide), awaited_due]
    exact ⟨n, hn, hm.1⟩

/-- The counter and the cycle of the next event are read, and compared. -/
theorem drafted_compare {c₁ c₂ c₃ : HostCache} {x y z : HostReg}
    (hd : Drafted T (moved d) c.builder) (hc : c.snapshot.OffClock)
    (h₁ : HostCache.allocIn32 Layout.cycle c = .ok x c₁)
    (h₂ : HostCache.allocIn32 Layout.nextEvent c₁ = .ok y c₂)
    (h₃ : HostCache.allocTemp c₂ = .ok z c₃) :
    ∃ t, z = .ofSlot t ∧
      Drafted T (fun k get c => readAhead d t k get c.clock) (c₃.builder.add (.bin .sub x y z)) := by
  have hnone : Reading [] c := ⟨fun _ hm => absurd hm List.not_mem_nil, fun r _ => hc.word r⟩
  obtain ⟨r, hr, rfl, rfl⟩ := load_absent (hc.absent (by decide)) h₁
  obtain ⟨-, hone, hkeep⟩ :=
    hnone.replace (T := T) hr (s := .fresh (.word Layout.cycle) false) (by rintro ⟨⟩)
  have hread := drafted_read_cycle (hkeep (fun k _ c => c = k.after d) hd) r
  have hself : ((c.replace r (.fresh (.word Layout.cycle) false)).slot r).content =
      .word Layout.cycle := by
    rw [HostCache.replace, HostCache.slot_touch_self, HostCache.slot_setSlot_self]
    rfl
  generalize c.replace r (.fresh (.word Layout.cycle) false) = c' at *
  have habsent (r' : Fin 9) : ((c'.emit (.ldc Layout.cycle (.ofSlot r))).slot r').content ≠
      .word Layout.nextEvent := by
    intro hr'
    rw [HostCache.slot_emit] at hr'
    by_cases he : r' = r
    · subst he
      rw [hself] at hr'
      cases hr'
    · exact absurd (hone.others r' (by simpa using he) _ hr') (by decide)
  have hone' : Reading [r] (c'.emit (.ldc Layout.cycle (.ofSlot r))) := ⟨hone.pinned, hone.others⟩
  obtain ⟨r', hr', rfl, rfl⟩ := load_absent habsent h₂
  obtain ⟨hne, htwo, hkeep⟩ := hone'.replace (T := T) hr'
    (s := .fresh (.word Layout.nextEvent) false) (by rintro ⟨⟩)
  have hboth := drafted_read_next (fun he => hne (List.mem_singleton.mpr he))
    (hkeep (readCycle d r) hread)
  generalize (c'.emit (.ldc Layout.cycle (.ofSlot r))).replace r'
    (.fresh (.word Layout.nextEvent) false) = c'' at *
  have htwo' : Reading [r', r] (c''.emit (.ldc Layout.nextEvent (.ofSlot r'))) :=
    ⟨htwo.pinned, htwo.others⟩
  obtain ⟨t, ht, rfl, rfl⟩ := HostCache.claimReg_ok h₃
  obtain ⟨-, -, hkeep⟩ := htwo'.replace (T := T) ht (s := .fresh .temp false) (by rintro ⟨⟩)
  exact ⟨t, rfl, drafted_diff t (hkeep (readBoth d r r') hboth)⟩

/-- A link cell is followed only if the next event is ahead. -/
theorem left_exitLinked {e e' : Emitter} {n cell : Nat}
    (h : Moved T (UInt32.ofNat n * T.cost) e) (hn : n ≤ T.limit)
    (he : exitLinked cell e = .ok () e') : Left T e' := by
  obtain ⟨due, e₁, h₁, he⟩ := bind_ok he
  obtain ⟨u, e₂, h₂, he⟩ := bind_ok he
  obtain ⟨u, e₃, h₃, he⟩ := bind_ok he
  obtain ⟨x, e₄, h₄, he⟩ := bind_ok he
  obtain ⟨y, e₅, h₅, he⟩ := bind_ok he
  obtain ⟨z, e₆, h₆, he⟩ := bind_ok he
  obtain ⟨u, e₇, h₇, he⟩ := bind_ok he
  obtain ⟨u, e₈, h₈, he⟩ := bind_ok he
  obtain ⟨u, e₉, h₉, he⟩ := bind_ok he
  obtain ⟨u, e₁₀, h₁₀, he⟩ := bind_ok he
  obtain ⟨u, e₁₁, h₁₁, h₁₂⟩ := bind_ok he
  obtain ⟨rfl, rfl⟩ := freshLabel_ok h₁
  cases h₂
  have hcell : Cpu.IsOffClock Layout.lastCell := by decide
  have hm := (h.store (i := .stci (UInt32.ofNat (cell + 1)) Layout.lastCell) hcell rfl rfl).startOp
  cases h₃
  obtain ⟨c₄, hc₄, rfl⟩ := onCache_ok h₄
  obtain ⟨c₅, hc₅, rfl⟩ := onCache_ok h₅
  obtain ⟨c₆, hc₆, rfl⟩ := onCache_ok h₆
  obtain ⟨t, rfl, hahead⟩ := drafted_compare hm.draft hm.clear hc₄ hc₅ hc₆
  cases h₇
  cases h₈
  have hcheck := drafted_check (m := e.labels + 1) hn hahead
  cases h₉
  have hlink : Drafted T (counted T) (_ : Builder) :=
    hcheck.add (i := .link cell) fun k m hm => ⟨hm.2, ⟨n, hn, hm.1⟩, n, hn, hm.1⟩
  obtain ⟨b, hb, rfl⟩ := putLabel_ok h₁₀
  have hdue := hlink.label hb fun k get c hc => by
    rwa [scopedName_tag _ (by decide), awaited_due] at hc
  obtain ⟨c₁₁, hc₁₁, rfl⟩ := onCache_ok h₁₁
  have hended : c₁₁.builder = b := by
    rw [endOp_ok hc₁₁, HostCache.ended]
    split <;> rfl
  cases h₁₂
  exact ⟨(hended ▸ hdue).add (i := .exit 0) fun k m hm => ⟨by decide, hm⟩, h.stubs⟩

theorem takeCell_ok {e e' : Emitter} {target : UInt32} {cell : Option Nat}
    (h : takeCell target e = .ok cell e') : e'.cache = e.cache ∧ e'.stubs = e.stubs := by
  simp only [takeCell, bind, EStateM.bind, get, getThe, MonadStateOf.get, EStateM.get] at h
  cases hc : e.cells with
  | nil =>
    simp only [hc] at h
    cases h
    exact ⟨rfl, rfl⟩
  | cons cell rest =>
    simp only [hc] at h
    cases h
    exact ⟨rfl, rfl⟩

variable {cfg : Config} {e e' : Emitter} {n : Nat}

theorem left_exitDirect {target : UInt32} {linkable : Bool} (hc : T.cost = cfg.countPerOp)
    (hs : Still T e) (hn : n ≤ T.limit)
    (he : exitDirect cfg target n linkable e = .ok () e') : Left T e' := by
  obtain ⟨u, e₁, h₁, he⟩ := bind_ok he
  obtain ⟨u, e₂, h₂, he⟩ := bind_ok he
  have hm := moved_account hs h₁
  rw [← hc] at hm
  cases h₂
  have hoff : Cpu.IsOffClock Layout.pc := by decide
  have hpc := hm.store (i := .stci target Layout.pc) hoff rfl rfl
  dsimp only at he
  split at he
  · obtain ⟨cell, e₃, h₃, he⟩ := bind_ok he
    obtain ⟨hcache, hstubs⟩ := takeCell_ok h₃
    have hm₃ : Moved T (UInt32.ofNat n * T.cost) e₃ :=
      ⟨hcache ▸ hpc.draft, hcache ▸ hpc.clear, hstubs ▸ hpc.stubs⟩
    cases cell with
    | some cell => exact left_exitLinked hm₃ hn he
    | none => exact left_exitUnlinked hm₃ hn he
  · exact left_exitUnlinked hpc hn he

theorem left_exitReg {x : HostReg} (hc : T.cost = cfg.countPerOp) (hs : Still T e)
    (hn : n ≤ T.limit) (he : exitReg cfg x n e = .ok () e') : Left T e' := by
  obtain ⟨u, e₁, h₁, he⟩ := bind_ok he
  obtain ⟨u, e₂, h₂, he⟩ := bind_ok he
  have hm := moved_account hs h₁
  rw [← hc] at hm
  cases h₂
  have hoff : Cpu.IsOffClock Layout.pc := by decide
  exact left_exitUnlinked (hm.store (i := .stc x Layout.pc) hoff rfl rfl) hn he

theorem left_exitServed (hc : T.cost = cfg.countPerOp) (hs : Still T e) (hn : n ≤ T.limit)
    (he : exitServed cfg n e = .ok () e') : Left T e' := by
  obtain ⟨u, e₁, h₁, he⟩ := bind_ok he
  have hm := moved_account hs h₁
  rw [← hc] at hm
  exact left_exitUnlinked hm hn he

theorem Left.restore (h : Left T e) {s : Snapshot} (hs : s.OffClock)
    (he : modifyCache (·.restore s) e = .ok () e') : Still T e' := by
  cases he
  exact ⟨⟨h.draft, hs⟩, h.stubs⟩

theorem Left.endOp (h : Left T e) (he : onCache HostCache.endOp e = .ok () e') : Left T e' := by
  obtain ⟨c, hc, rfl⟩ := onCache_ok he
  have hbuilder : c.builder = e.cache.builder := by
    rw [endOp_ok hc, HostCache.ended]
    split <;> rfl
  exact ⟨hbuilder ▸ h.draft, h.stubs⟩

/-- A branch leaves through its exits, on both ways out of it. -/
theorem left_branchAndSlot {s : Site} {i : Recompiler.Instr} {slot : TraceOp}
    (hc : T.cost = cfg.countPerOp) (hs : Still T e) (hn : s.index + 2 ≤ T.limit)
    (hslot : T.served .exec ⟨s.pc + 4, s.index + 1, true, slot.widths⟩ slot.instr)
    (he : branchAndSlot cfg s i slot e = .ok () e') : Left T e' := by
  have : Served T .exec ⟨s.pc + 4, s.index + 1, true, slot.widths⟩ slot.instr := ⟨hslot⟩
  have hlabel (kind : String) [IsInnerKind kind] {name : String} {e e' : Emitter}
      (h : freshLabel kind e = .ok name e') (hs : Still T e) : IsInner name ∧ Still T e' := by
    obtain ⟨rfl, rfl⟩ := freshLabel_ok h
    exact ⟨inferInstance, hs.cache, hs.stubs⟩
  obtain ⟨u, e₁, h₁, he⟩ := bind_ok he
  obtain ⟨out, e₂, h₂, he⟩ := bind_ok he
  obtain ⟨u, e₃, h₃, he⟩ := bind_ok he
  obtain ⟨u, e₄, h₄, he⟩ := bind_ok he
  have hs₄ := (((hs.after h₁).after h₂).after h₃).after h₄
  dsimp only at he
  split at he
  · obtain ⟨u, e₅, h₅, he⟩ := bind_ok he
    obtain ⟨u, e₆, h₆, he⟩ := bind_ok he
    have hs₆ := (hs₄.after h₅).after h₆
    split at he
    · obtain ⟨u, e₇, h₇, he⟩ := bind_ok he
      exact (left_exitReg hc hs₆ hn h₇).endOp he
    · obtain ⟨u, e₇, h₇, he⟩ := bind_ok he
      exact (left_exitDirect hc hs₆ hn h₇).endOp he
  split at he
  · obtain ⟨skip, e₅, h₅, he⟩ := bind_ok he
    obtain ⟨hskip, hs₅⟩ := hlabel "skip" h₅ hs₄
    obtain ⟨u, e₆, h₆, he⟩ := bind_ok he
    have hs₆ := hs₅.after h₆
    obtain ⟨saved, e₇, h₇, he⟩ := bind_ok he
    cases h₇
    obtain ⟨u, e₈, h₈, he⟩ := bind_ok he
    obtain ⟨u, e₉, h₉, he⟩ := bind_ok he
    obtain ⟨u, e₁₀, h₁₀, he⟩ := bind_ok he
    obtain ⟨u, e₁₁, h₁₁, he⟩ := bind_ok he
    obtain ⟨u, e₁₂, h₁₂, he⟩ := bind_ok he
    obtain ⟨u, e₁₃, h₁₃, he⟩ := bind_ok he
    have htaken := left_exitDirect hc ((hs₆.after h₈).after h₉) hn h₁₀
    have hs₁₂ := (htaken.restore hs₆.cache.clear h₁₁).after h₁₂
    exact (left_exitDirect hc hs₁₂ (by omega) h₁₃).endOp he
  · obtain ⟨notTaken, e₅, h₅, he⟩ := bind_ok he
    obtain ⟨hnot, hs₅⟩ := hlabel "nt" h₅ hs₄
    obtain ⟨u, e₆, h₆, he⟩ := bind_ok he
    obtain ⟨u, e₇, h₇, he⟩ := bind_ok he
    obtain ⟨u, e₈, h₈, he⟩ := bind_ok he
    have hs₈ := ((hs₅.after h₆).after h₇).after h₈
    obtain ⟨saved, e₉, h₉, he⟩ := bind_ok he
    cases h₉
    obtain ⟨u, e₁₀, h₁₀, he⟩ := bind_ok he
    obtain ⟨u, e₁₁, h₁₁, he⟩ := bind_ok he
    obtain ⟨u, e₁₂, h₁₂, he⟩ := bind_ok he
    obtain ⟨u, e₁₃, h₁₃, he⟩ := bind_ok he
    have htaken := left_exitDirect hc hs₈ hn h₁₀
    have hs₁₂ := (htaken.restore hs₈.cache.clear h₁₁).after h₁₂
    exact (left_exitDirect hc hs₁₂ hn h₁₃).endOp he

theorem left_branchServed {s : Site} {i : Recompiler.Instr} (hc : T.cost = cfg.countPerOp)
    (hs : Still T e) (hn : s.index + 2 ≤ T.limit) (hserved : T.served .step s i)
    (he : branchServed cfg s i e = .ok () e') : Left T e' := by
  have : Served T .step s i := ⟨hserved⟩
  obtain ⟨u, e₁, h₁, he⟩ := bind_ok he
  obtain ⟨u, e₂, h₂, he⟩ := bind_ok he
  obtain ⟨u, e₃, h₃, he⟩ := bind_ok he
  exact left_exitServed hc (((hs.after h₁).after h₂).after h₃) hn he

/-- What the program of a trace may count and ask for: each instruction once, and one more where a
branch runs with a delay slot that is not in the trace. -/
def terms (cfg : Config) (pc : UInt32) (ops : List TraceOp) : Terms where
  cost := cfg.countPerOp
  limit := ops.length + 1
  served _ s op := ∃ o, ops[s.index]? = some o ∧ o.instr = op ∧
    s.pc = pc + 4 * UInt32.ofNat s.index ∧ s.inDelaySlot = o.inDelaySlot

theorem next_site (base : UInt32) (index : Nat) :
    base + 4 * UInt32.ofNat index + 4 = base + 4 * UInt32.ofNat (index + 1) := by
  apply UInt32.toNat_inj.mp
  simp only [UInt32.toNat_add, UInt32.toNat_mul, UInt32.toNat_ofNat', UInt32.reduceToNat]
  omega

variable {base : UInt32} {all : List TraceOp} {index : Nat} {op : TraceOp} {rest : List TraceOp}

theorem left_branch (hdrop : all.drop index = op :: rest) (hop : op.inDelaySlot = false)
    (hs : Still (terms cfg base all) e)
    (he : branch cfg ⟨base + 4 * UInt32.ofNat index, index, false, op.widths⟩ op rest e =
      .ok () e') : Left (terms cfg base all) e' := by
  have hget (k : Nat) : all[index + k]? = (op :: rest)[k]? := by
    rw [← hdrop, List.getElem?_drop]
  have hlen : all.length = index + (rest.length + 1) := by
    have hlt := (List.getElem?_eq_some_iff.mp (hget 0)).1
    have := congrArg List.length hdrop
    rw [List.length_drop, List.length_cons] at this
    omega
  have hserved (he : branchServed cfg ⟨base + 4 * UInt32.ofNat index, index, false, op.widths⟩
      op.instr e = .ok () e') : Left (terms cfg base all) e' := by
    refine left_branchServed rfl hs ?_ ⟨op, hget 0, rfl, rfl, hop.symm⟩ he
    change index + 2 ≤ all.length + 1
    omega
  cases rest with
  | nil =>
    unfold branch at he
    dsimp only at he
    split at he
    · exact hserved he
    · cases he
  | cons slot rest =>
    unfold branch at he
    dsimp only at he
    split at he
    · exact hserved he
    · split at he
      · rename_i hslot
        refine left_branchAndSlot rfl hs ?_ ⟨slot, hget 1, rfl, next_site base index, hslot.symm⟩ he
        change index + 2 ≤ all.length + 1
        omega
      · cases he

/-- The rest of a trace. -/
theorem left_body {ops : List TraceOp} (hdrop : all.drop index = ops) (hle : index ≤ all.length)
    (hs : Still (terms cfg base all) e) (he : body cfg base index ops e = .ok () e') :
    Left (terms cfg base all) e' := by
  induction ops generalizing index e with
  | nil => exact left_exitDirect rfl hs (Nat.le_succ_of_le hle) he
  | cons op rest ih =>
    have hget : all[index]? = some op := by
      have h : (all.drop index)[0]? = all[index + 0]? := List.getElem?_drop
      rwa [hdrop, List.getElem?_cons_zero, Nat.add_zero, eq_comm] at h
    have hlt := (List.getElem?_eq_some_iff.mp hget).1
    have hrest : all.drop (index + 1) = rest := by
      rw [← List.drop_drop, hdrop, List.drop_one, List.tail_cons]
    unfold body at he
    dsimp only at he
    split at he
    · cases he
    · rename_i hop
      have hop := Bool.not_eq_true _ ▸ hop
      have hserved : Served (terms cfg base all) .exec
          ⟨base + 4 * UInt32.ofNat index, index, false, op.widths⟩ op.instr :=
        ⟨op, hget, rfl, rfl, hop.symm⟩
      cases hb : op.boundary with
      | endDelay =>
        rw [hb] at he
        exact left_branch hdrop hop hs he
      | endNow =>
        rw [hb] at he
        obtain ⟨u, e₁, h₁, he⟩ := bind_ok he
        refine left_exitDirect rfl (hs.after h₁) ?_ he
        change index + 1 ≤ all.length + 1
        omega
      | «continue» =>
        rw [hb] at he
        obtain ⟨u, e₁, h₁, he⟩ := bind_ok he
        exact ih hrest hlt (hs.after h₁) he

theorem left_emitStub {stub : Stub} (hf : stub.Fair T) (hs : Left T e)
    (he : emitStub stub e = .ok () e') : Left T e' := by
  obtain ⟨u, e₁, h₁, he⟩ := bind_ok he
  obtain ⟨b, hb, rfl⟩ := putLabel_ok h₁
  have hs₁ : Left T { e with cache := { e.cache with builder := b } } :=
    ⟨hs.draft.label hb fun k get c hc => by rwa [awaited_inner] at hc, hs.stubs⟩
  obtain ⟨u, e₂, h₂, he⟩ := bind_ok he
  have hs₂ := hs₁.restore hf.clear h₂
  have hrest : Stills T (do
      let temps ← spill
      emit (.stc stub.addr Layout.callAddr)
      describe stub.site stub.op
      emit (.callout Service.exec.id (Stub.resumeLabel stub.id))
      putLabel (Stub.resumeLabel stub.id)
      for r in List.finRange 9 do
        reload temps (.ofSlot r) (stub.leave.slots.get r)
      for r in List.finRange 8 do
        reloadFp (.ofSlot r) (stub.leave.fpSlots.get r)
      emit (.jump (Stub.joinLabel stub.id))) := by
    refine .bind inferInstance fun temps => .bind (stills_store (by decide) stub.addr) fun _ => ?_
    exact stills_ask hf.served (Stub.resumeLabel stub.id) inferInstance
  exact (hrest.keeps he hs₂).left

theorem left_stubs {stubs : List Stub} (hf : ∀ stub ∈ stubs, stub.Fair T) (hs : Left T e)
    (he : (forIn stubs PUnit.unit fun stub (_ : PUnit) => do
      emitStub stub
      pure (ForInStep.yield PUnit.unit)) e = .ok () e') : Left T e' := by
  induction stubs generalizing e with
  | nil =>
    cases he
    exact hs
  | cons stub stubs ih =>
    rw [List.forIn_cons] at he
    obtain ⟨s, e₁, h₁, he⟩ := bind_ok he
    obtain ⟨u, e₂, h₂, h₃⟩ := bind_ok h₁
    cases h₃
    exact ih (fun stub' hm => hf stub' (List.mem_cons_of_mem _ hm))
      (left_emitStub (hf stub List.mem_cons_self) hs h₂) he

end Emit

namespace TraceProgram

/-- The program of a trace keeps to its terms. -/
theorem keeps {cfg : Config} {cells : List Nat} {pc : UInt32} {ops : List TraceOp}
    {t : TraceProgram} (h : ofTrace cfg cells pc ops = .ok t) :
    t.program.Keeps (terms cfg pc ops) := by
  obtain ⟨W, hwhole, hprogram⟩ := ofTrace_ok h
  obtain ⟨u, e₁, hbody, hstubs⟩ := bind_ok hwhole
  obtain ⟨e₂, e₃, hget, hstubs⟩ := bind_ok hstubs
  cases hget
  rw [← Array.forIn_toList] at hstubs
  obtain ⟨u, e₄, hstubs, hunit⟩ := bind_ok hstubs
  cases hunit
  have hempty : (Emitter.create cfg cells).cache.snapshot.OffClock := by
    refine ⟨fun r off hr => ?_, fun r size off hr => ?_⟩
    · change ((Vector.replicate 9 Slot.empty).get r).content = _ at hr
      rw [Vector.get_replicate] at hr
      cases hr
    · change ((Vector.replicate 8 FpSlot.empty).get r).content = _ at hr
      rw [Vector.get_replicate] at hr
      cases hr
  have hstart : Still (terms cfg pc ops) (.create cfg cells) :=
    ⟨⟨.create _ _, hempty⟩, fun stub hm => absurd hm (Array.not_mem_empty stub)⟩
  have hleft := left_body List.drop_zero (Nat.zero_le _) hstart hbody
  have hend := left_stubs (fun stub hm => hleft.stubs stub (Array.mem_toList_iff.mp hm)) hleft hstubs
  rw [← hprogram]
  exact (hend.draft.mono fun k get c hc => counted_of_unmoved _ hc).keeps W.fits W.built

end TraceProgram

end Recompiler
