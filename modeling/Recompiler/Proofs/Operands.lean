import Recompiler.Proofs.Agreement

/-!
Operands of emitted code. Each allocation leads to a register with the word that was asked for,
and keeps the registers of the other operands.
-/

namespace Recompiler

open Ir

/-- Pinned registers stay so, and keep their values. -/
structure Stable (c : HostCache) (m : Machine Cpu) (c' : HostCache) (m' : Machine Cpu) : Prop where
  kept : Kept c c'
  regs : ∀ r, (c.slot r).Pinned → m'.get (.ofSlot r) = m.get (.ofSlot r)
  dirty : ∀ r, (c.slot r).Pinned → (c.slot r).dirty = true → (c'.slot r).dirty = true
  const : ∀ r, (c.slot r).Pinned → (c.slot r).isConst = false → (c'.slot r).isConst = false

/-- An operand with the value `v`: a pinned register with the content `k`, or zero. -/
def Reads (c : HostCache) (m : Machine Cpu) (x : HostReg) (k : Content) (v : UInt32) : Prop :=
  (x = .rz ∧ v = 0) ∨
    ∃ r, x = .ofSlot r ∧ (c.slot r).Pinned ∧ (c.slot r).content.base = k ∧ m.get x = v

/-- An operand with the value `v`: a pinned register that is known to hold it, or zero. -/
def Knows (c : HostCache) (m : Machine Cpu) (x : HostReg) (v : UInt32) : Prop :=
  (x = .rz ∧ v = 0) ∨
    ∃ r, x = .ofSlot r ∧ (c.slot r).Pinned ∧ (c.slot r).isConst = true ∧ m.get x = v

section

variable {c c' c'' : HostCache} {m m' m'' : Machine Cpu} {g : Cpu} {r : Fin 9} {x y : HostReg}
  {k : Content} {v : UInt32} {gr : GuestReg}

theorem Reads.get (h : Reads c m x k v) : m.get x = v := by
  rcases h with ⟨rfl, rfl⟩ | ⟨r, -, -, -, h⟩
  · rfl
  · exact h

theorem Reads.ne (h : Reads c m x k v) (hr : ¬ (c.slot r).Pinned ∨ (c.slot r).content.base ≠ k) :
    x ≠ .ofSlot r := by
  rcases h with ⟨rfl, -⟩ | ⟨r', rfl, hp, hk, -⟩
  · exact (Machine.ofSlot_ne_rz r).symm
  · intro he
    cases Machine.ofSlot_inj he
    exact hr.elim (fun hn => hn hp) fun hn => hn hk

namespace Stable

theorem refl (c : HostCache) (m : Machine Cpu) : Stable c m c m :=
  ⟨.refl c, fun _ _ => rfl, fun _ _ h => h, fun _ _ h => h⟩

theorem trans (h : Stable c m c' m') (h' : Stable c' m' c'' m'') : Stable c m c'' m'' where
  kept := h.kept.trans h'.kept
  regs := fun r hr => (h'.regs r (h.kept r hr).1).trans (h.regs r hr)
  dirty := fun r hr hd => h'.dirty r (h.kept r hr).1 (h.dirty r hr hd)
  const := fun r hr hc => h'.const r (h.kept r hr).1 (h.const r hr hc)

theorem reads (h : Stable c m c' m') (hx : Reads c m x k v) : Reads c' m' x k v := by
  rcases hx with hz | ⟨r, rfl, hp, hk, hv⟩
  · exact .inl hz
  · obtain ⟨hp', hk'⟩ := h.kept r hp
    exact .inr ⟨r, rfl, hp', hk'.trans hk, (h.regs r hp).trans hv⟩

theorem of_same (hk : Kept c c') (hs : ∀ r, (c.slot r).Pinned → (c.slot r).Same (c'.slot r))
    (hm : ∀ r, (c.slot r).Pinned → m'.get (.ofSlot r) = m.get (.ofSlot r)) : Stable c m c' m' where
  kept := hk
  regs := hm
  dirty := fun r hr hd => (hs r hr).dirty.trans hd
  const := fun r hr hc => (hs r hr).isConst.trans hc

theorem touch (c : HostCache) (m : Machine Cpu) (r : Fin 9) : Stable c m (c.touch r) m := by
  refine of_same (.touch c r) (fun r' _ => ?_) fun _ _ => rfl
  by_cases he : r = r'
  · subst he
    rw [HostCache.slot_touch_self]
    exact ⟨rfl, rfl, rfl, rfl⟩
  · rw [HostCache.slot_touch_of_ne _ he]
    exact .refl _

theorem replace {s : Slot} (hr : ¬ (c.slot r).Pinned)
    (hm : ∀ r', r' ≠ r → m'.get (.ofSlot r') = m.get (.ofSlot r')) :
    Stable c m (c.replace r s) m' := by
  have hne {r' : Fin 9} (hp : (c.slot r').Pinned) : r ≠ r' := fun he => hr (he ▸ hp)
  refine of_same (.replace hr) (fun r' hp => ?_) fun r' hp => hm r' (hne hp).symm
  rw [HostCache.slot_replace_of_ne _ _ (hne hp)]
  exact .refl _

theorem recast {s : Slot} (hs : s.content.base = (c.slot r).content.base)
    (hb : (c.slot r).busy = true → s.busy = true)
    (hd : (c.slot r).dirty = true → s.dirty = true)
    (hc : (c.slot r).isConst = false → s.isConst = false) : Stable c m (c.setSlot r s) m := by
  refine ⟨.recast hs hb, fun _ _ => rfl, fun r' _ => ?_, fun r' _ => ?_⟩
  · by_cases he : r = r'
    · subst he
      rw [HostCache.slot_setSlot_self]
      exact hd
    · rw [HostCache.slot_setSlot_of_ne _ _ he]
      exact id
  · by_cases he : r = r'
    · subst he
      rw [HostCache.slot_setSlot_self]
      exact hc
    · rw [HostCache.slot_setSlot_of_ne _ _ he]
      exact id

theorem emit (c : HostCache) (m : Machine Cpu) (i : Ir.Instr String) : Stable c m (c.emit i) m :=
  of_same (.emit c i) (fun _ _ => .refl _) fun _ _ => rfl

end Stable

/-- Code for operands: it leads to the state `g`, and the operands that there are keep. -/
structure Allocates (c : HostCache) (m : Machine Cpu) (c' : HostCache) (m' : Machine Cpu)
    (g : Cpu) : Prop where
  emitted : Emitted c.builder m c'.builder m'
  agrees : Agrees c' m' g
  stable : Stable c m c' m'

namespace Agrees

open HostCache

theorem touched (h : Agrees c m g) (r : Fin 9) : Allocates c m (c.touch r) m g :=
  ⟨.refl _ _, h.touch r, .touch c m r⟩

theorem replace (h : Agrees c m g) {s : Slot} (hr : ¬ (c.slot r).Pinned) (hc : s.isConst = false)
    (hd : s.dirty = true ∨ s.content.offsets = []) (hvalid : s.content.Valid)
    (hwritable : s.content.Writable)
    (hfree : ∀ off ∈ s.content.offsets, ∀ r', off ∉ (c.slot r').content.offsets) :
    ∃ m', Allocates c m (c.replace r s) m'
      (g.storeWords (s.content.words (m'.get (.ofSlot r)))) ∧ ∀ y, m'.get y = m.get y := by
  obtain ⟨m', he, ha, hget⟩ := h.writeback r
  refine ⟨m', ⟨he, (ha.put (r := r) (s := s) hc hd ?_ hvalid hwritable ?_).touch r,
    .replace hr fun _ _ => hget _⟩, hget⟩
  · rw [slot_writeback_self]
    exact fun hf => nomatch hf
  · intro off ho r' hne
    rw [slot_writeback_of_ne _ hne.symm]
    exact hfree off ho r'

theorem claimReg {content : Content} {dirty : Bool} (h : Agrees c m g)
    (hx : HostCache.claimReg content dirty c = .ok x c')
    (hd : dirty = true ∨ content.offsets = []) (hvalid : content.Valid)
    (hwritable : content.Writable)
    (hfree : ∀ off ∈ content.offsets, ∀ r', off ∉ (c.slot r').content.offsets) :
    ∃ r m', x = .ofSlot r ∧ ¬ (c.slot r).Pinned ∧ (Slot.fresh content dirty).Same (c'.slot r) ∧
      (c'.slot r).busy = true ∧ Allocates c m c' m' (g.storeWords (content.words (m'.get x))) ∧
      ∀ y, m'.get y = m.get y := by
  obtain ⟨r, hr, rfl, rfl⟩ := claimReg_ok hx
  obtain ⟨m', ha, hget⟩ := h.replace (s := .fresh content dirty) hr rfl hd hvalid hwritable hfree
  refine ⟨r, m', rfl, hr, ?_, ?_, ha, hget⟩
  · rw [slot_replace_self]
    exact ⟨rfl, rfl, rfl, rfl⟩
  · rw [slot_replace_self]

theorem claimLoaded {content : Content} (h : Agrees c m g)
    (hx : HostCache.claimLoaded content c = .ok x c')
    (hw : ∀ v, content.words v = [(content.offset, v)]) (hvalid : content.Valid)
    (hfree : ∀ r', content.offset ∉ (c.slot r').content.offsets) :
    ∃ m', Allocates c m c' m' g ∧ Reads c' m' x content.base (g.loadWord content.offset) := by
  obtain ⟨r, hr, rfl, rfl⟩ := claimLoaded_ok hx
  obtain ⟨m₁, he, ha, hget⟩ := h.writeback r
  let m' := m₁.perform (.ldc content.offset (.ofSlot r))
  have hm' : m' = (m₁.set (.ofSlot r) (m₁.ctx.loadWord content.offset)).next := rfl
  have hfill : Agrees ((c.writeback r).setSlot r (.fresh content false))
      (m₁.set (.ofSlot r) (m₁.ctx.loadWord content.offset)) g := by
    refine ha.fill rfl rfl hw ?_ hvalid ?_
    · rw [slot_writeback_self]
      exact fun hf => nomatch hf
    · intro r' hne
      rw [slot_writeback_of_ne _ hne.symm]
      exact hfree r'
  have hagrees : Agrees ((c.replace r (.fresh content false)).emit
      (.ldc content.offset (.ofSlot r))) m' g :=
    ((hfill.touch r).emit _).of_machine (fun _ => rfl) rfl
  have hstable : Stable c m ((c.replace r (.fresh content false)).emit
      (.ldc content.offset (.ofSlot r))) m' := by
    refine (Stable.replace hr fun r' hne => ?_).trans (.emit _ _ _)
    rw [hm', Machine.get_next, Machine.get_set_of_ne _ _ fun heq => hne (Machine.ofSlot_inj heq).symm]
    exact hget _
  have hload := Emitted.add (c.writeback r).builder m₁ (i := .ldc content.offset (.ofSlot r)) rfl
  refine ⟨m', ⟨he.trans hload, hagrees, hstable⟩, .inr ⟨r, rfl, ?_, ?_, ?_⟩⟩
  · rw [slot_emit, slot_replace_self]
    refine ⟨?_, .inl rfl⟩
    change content ≠ .unused
    rintro rfl
    cases hw 0
  · rw [slot_emit, slot_replace_self]
    rfl
  · have hslot : ((c.replace r (.fresh content false)).emit
        (.ldc content.offset (.ofSlot r))).slot r = _ := slot_emit _ _ r
    refine (hagrees.held r (content.offset, m'.get (.ofSlot r)) ?_).symm
    rw [hslot, slot_replace_self]
    change _ ∈ content.words _
    rw [hw]
    exact List.mem_singleton_self _

theorem reads_touch (h : Agrees c m g) {off : Int} (hk : (c.slot r).content.base = k)
    (hp : (off, m.get (.ofSlot r)) ∈ (c.slot r).content.words (m.get (.ofSlot r))) :
    Reads (c.touch r) m (.ofSlot r) k (g.loadWord off) := by
  refine .inr ⟨r, rfl, ⟨?_, .inl ?_⟩, ?_, (h.held r _ hp).symm⟩
  · rw [slot_touch_self]
    intro hu
    change (c.slot r).content = .unused at hu
    rw [hu] at hp
    cases hp
  · rw [slot_touch_self]
  · rw [slot_touch_self]
    exact hk

theorem guest_zero (h : Agrees c m g) (hz : gr.val = 0) : g.guest gr = 0 := by
  have : gr = .ofReg .zero := Fin.ext hz
  rw [this]
  exact h.zero

theorem allocInLow (h : Agrees c m g) (hx : HostCache.allocInLow gr c = .ok x c') :
    ∃ m', Allocates c m c' m' g ∧ Reads c' m' x (.low gr none) (lowWord (g.guest gr)) := by
  by_cases hz : gr.val = 0
  · rw [HostCache.allocInLow, if_pos hz] at hx
    cases hx
    exact ⟨m, ⟨.refl _ _, h, .refl c m⟩, .inl ⟨rfl, by rw [h.guest_zero hz]; rfl⟩⟩
  rw [allocInLow_eq c hz] at hx
  rw [← Cpu.loadWord_lowWord]
  split at hx
  · rename_i r hf
    cases hx
    have hk := findLow?_some hf
    refine ⟨m, h.touched r, h.reads_touch hk ?_⟩
    obtain ⟨ext, he⟩ := Content.base_eq_low hk
    rw [he]
    cases ext <;> simp [Content.words]
  · rename_i hf
    refine h.claimLoaded hx (fun _ => rfl) hz fun r' hm => ?_
    exact findLow?_none hf r' ((h.valid r').lowWord_mem.mp hm)

/-- A register no longer stands for one of its words, whose value in the guest becomes the one in
the context. -/
theorem uncover (h : Agrees c m g) {s : Slot} {off : Int} (hw : Cpu.IsWord off)
    (ho : off ∈ (c.slot r).content.offsets) (hns : off ∉ s.content.offsets)
    (hwords : ∀ v p, p ∈ s.content.words v → p ∈ (c.slot r).content.words v)
    (hkeep : ∀ off' ∈ (c.slot r).content.offsets, off' ≠ off →
      off' ∈ s.content.offsets ∧ s.dirty = (c.slot r).dirty)
    (hconst : s.isConst = true →
      s.content ≠ .unused ∧ (c.slot r).isConst = true ∧ s.value = (c.slot r).value)
    (hvalid : s.content.Valid) (hwritable : s.content.Writable) :
    Agrees (c.setSlot r s) m (g.storeWord off (m.ctx.loadWord off)) := by
  have hslot : (c.setSlot r s).slot r = s := slot_setSlot_self c r s
  have hoffsets (off' : Int) (h' : off' ∈ s.content.offsets) :
      off' ∈ (c.slot r).content.offsets := by
    obtain ⟨w, hp⟩ := Content.mem_words_of_offsets (v := 0) h'
    exact Content.mem_offsets_of_words (hwords 0 _ hp)
  have hother {off' : Int} (hne : off' ≠ off) :
      (g.storeWord off (m.ctx.loadWord off)).loadWord off' = g.loadWord off' :=
    Cpu.loadWord_storeWord_of_ne g _ hne.symm
  apply h.update r
  · intro r' he
    rw [slot_setSlot_of_ne _ _ he.symm]
    exact .refl _
  · exact fun _ _ => rfl
  · rfl
  · rw [hslot]
    intro hc
    obtain ⟨hu, hc', hv⟩ := hconst hc
    rw [hv]
    exact ⟨hu, (h.const r hc').2⟩
  · rw [hslot]
    exact hvalid
  · rw [hslot]
    exact fun _ => hwritable
  · rw [hslot]
    exact fun off' h' r' he ho' => he (h.apart r' r off' ho' (hoffsets off' h'))
  · rw [hslot]
    intro p hp
    have hne : p.1 ≠ off := fun he => hns (he ▸ Content.mem_offsets_of_words hp)
    rw [hother hne]
    exact h.held r p (hwords _ p hp)
  · rintro off' (hzero | ⟨r', he, hoff⟩)
    · exact hother fun heq => (h.valid r).not_isZeroWord ho (heq ▸ hzero)
    · exact hother fun heq => he (h.apart r' r off (heq ▸ hoff) ho)
  · rw [hslot]
    intro off' hclean hs
    by_cases heq : off' = off
    · subst heq
      exact (Cpu.loadWord_storeWord_self g _ hw).symm
    · rw [hother heq]
      refine h.synced off' fun r' hd => ?_
      by_cases he : r' = r
      · subst he
        intro hm
        obtain ⟨hm', hd'⟩ := hkeep off' hm heq
        exact hs (hd'.trans hd) hm'
      · exact hclean r' he hd
  · exact h.rest.trans (Cpu.sameRest_storeWord g _ _).symm

theorem setConst_ofSlot (c : HostCache) (r : Fin 9) (v : UInt32) :
    c.setConst (.ofSlot r) v = c.setSlot r { c.slot r with isConst := true, value := v } := by
  rw [HostCache.setConst, modifySlot_ofSlot]

/-- The code for an implied high word. -/
theorem emitImplied_eq (c : HostCache) (m : Machine Cpu) (lo r : Fin 9) (ext : Extension) :
    ∃ m', Emitted c.builder m (c.emitImplied lo r ext).builder m' ∧
      m' = (m.set (.ofSlot r) (ext.word (m.get (.ofSlot lo)))).next ∧
      ((c.emitImplied lo r ext).slot r).content = (c.slot r).content ∧
      ((c.emitImplied lo r ext).slot r).dirty = (c.slot r).dirty ∧
      (((c.emitImplied lo r ext).slot r).isConst = true → (c.slot r).isConst = true ∨
        ((c.emitImplied lo r ext).slot r).value = ext.word (m.get (.ofSlot lo))) ∧
      (c.emitImplied lo r ext).fpSlots = c.fpSlots := by
  cases ext with
  | sign =>
    exact ⟨_, .add _ _ (i := .const .sra (.ofSlot lo) 31 (.ofSlot r)) rfl, rfl, rfl, rfl, .inl, rfl⟩
  | zero =>
    simp only [HostCache.emitImplied, setConst_ofSlot]
    refine ⟨_, .add _ _ (i := .li 0 (.ofSlot r)) rfl, rfl, ?_, ?_, fun _ => ?_, rfl⟩
    · rw [slot_setSlot_self, slot_emit]
    · rw [slot_setSlot_self, slot_emit]
    · rw [slot_setSlot_self]
      exact .inr rfl
  | one =>
    simp only [HostCache.emitImplied, setConst_ofSlot]
    refine ⟨_, .add _ _ (i := .li 0xffffffff (.ofSlot r)) rfl, rfl, ?_, ?_, fun _ => ?_, rfl⟩
    · rw [slot_setSlot_self, slot_emit]
    · rw [slot_setSlot_self, slot_emit]
    · rw [slot_setSlot_self]
      exact .inr rfl

section

variable {lo : Fin 9} {ext : Extension}

theorem slot_materialized_lo (c : HostCache) (gr : GuestReg) (ext : Extension) (hne : r ≠ lo) :
    (c.materialized gr lo r ext).slot lo
      = { (c.touch lo).slot lo with content := .low gr none } := by
  change (HostCache.setSlot _ lo _).slot lo = _
  rw [slot_setSlot_self, slot_emitImplied_of_ne _ _ _ hne, slot_replace_of_ne _ _ hne]

theorem slot_materialized_self (c : HostCache) (gr : GuestReg) (ext : Extension) (hne : r ≠ lo) :
    (c.materialized gr lo r ext).slot r =
      (((c.touch lo).replace r (.fresh (.high gr) (c.slot lo).dirty)).emitImplied lo r ext).slot r :=
  slot_setSlot_of_ne _ _ hne.symm

theorem slot_materialized_of_ne (c : HostCache) (gr : GuestReg) (ext : Extension) {r' : Fin 9}
    (hl : r' ≠ lo) (hr : r' ≠ r) : (c.materialized gr lo r ext).slot r' = c.slot r' := by
  change (HostCache.setSlot _ lo _).slot r' = _
  rw [slot_setSlot_of_ne _ _ hl.symm, slot_emitImplied_of_ne _ _ _ hr.symm,
    slot_replace_of_ne _ _ hr.symm, slot_touch_of_ne _ hl.symm]

/-- The register that has got the implied high word has it, and the other one no longer implies
it. -/
theorem materialized (ha : Agrees ((c.touch lo).writeback r) m g) (hz : gr.val ≠ 0)
    (hlo : (c.slot lo).content = .low gr (some ext)) (hne : r ≠ lo) :
    Agrees (c.materialized gr lo r ext)
      (m.set (.ofSlot r) (ext.word (m.get (.ofSlot lo)))).next g := by
  let c₁ := (c.touch lo).writeback r
  let s : Slot := { c₁.slot lo with content := .low gr none }
  have hlo₁ : c₁.slot lo = (c.touch lo).slot lo := slot_writeback_of_ne _ hne
  have hcontent : (c₁.slot lo).content = .low gr (some ext) := by
    rw [hlo₁, slot_touch_self]
    exact hlo
  have hdirty : (c₁.slot lo).dirty = (c.slot lo).dirty := by
    rw [hlo₁, slot_touch_self]
  have hhigh : Layout.highWord gr ∈ (c₁.slot lo).content.offsets := by
    rw [hcontent]
    simp [Content.offsets]
  have hheld : g.loadWord (Layout.highWord gr) = ext.word (m.get (.ofSlot lo)) := by
    refine ha.held lo (Layout.highWord gr, _) ?_
    rw [hcontent]
    exact .tail _ (.head _)
  -- First the low word stops to imply the high one, then the new register stands for it.
  have hsplit := ha.uncover (r := lo) (s := s) (Cpu.isWord_highWord gr) hhigh
    (by simp [s, Content.offsets, (Cpu.lowWord_ne_highWord gr gr).symm])
    (by
      rw [hcontent]
      simp [s, Content.words])
    (by
      rw [hcontent]
      intro off ho hoff
      rcases List.mem_cons.mp ho with rfl | ho
      · exact ⟨List.mem_singleton_self _, rfl⟩
      · exact absurd (List.mem_singleton.mp ho) hoff)
    (fun hc => ⟨by simp [s], hc, rfl⟩) hz trivial
  have hfree (r' : Fin 9) : Layout.highWord gr ∉ ((c₁.setSlot lo s).slot r').content.offsets := by
    intro ho
    by_cases hl : r' = lo
    · subst hl
      rw [slot_setSlot_self] at ho
      exact Cpu.lowWord_ne_highWord gr gr (List.mem_singleton.mp ho).symm
    · rw [slot_setSlot_of_ne _ _ fun he => hl he.symm] at ho
      exact hl (ha.apart r' lo _ ho hhigh)
  obtain ⟨-, -, -, hcr, hdr, hconst, hfp⟩ :=
    emitImplied_eq ((c.touch lo).replace r (.fresh (.high gr) (c.slot lo).dirty)) m lo r ext
  rw [slot_replace_self] at hcr hdr hconst
  apply hsplit.update r
  · intro r' hr'
    by_cases hl : r' = lo
    · subst hl
      rw [slot_materialized_lo c gr ext hne, slot_setSlot_self, ← hlo₁]
      exact .refl _
    · rw [slot_materialized_of_ne c gr ext hl hr', slot_setSlot_of_ne _ _ fun he => hl he.symm,
        slot_writeback_of_ne _ hr'.symm, slot_touch_of_ne _ fun he => hl he.symm]
      exact .refl _
  · intro r' hr'
    rw [Machine.get_next, Machine.get_set_of_ne _ _ fun heq => hr' (Machine.ofSlot_inj heq).symm]
  · exact hfp
  · rw [slot_materialized_self c gr ext hne, Machine.get_next, Machine.get_set_self]
    intro hc
    refine ⟨?_, ((hconst hc).resolve_left Bool.false_ne_true).symm⟩
    rw [hcr]
    exact fun hu => by cases hu
  · rw [slot_materialized_self c gr ext hne, hcr]
    exact hz
  · rw [slot_materialized_self c gr ext hne, hcr]
    exact fun _ => trivial
  · rw [slot_materialized_self c gr ext hne, hcr]
    intro off ho r' hr'
    rw [List.mem_singleton.mp ho]
    exact hfree r'
  · rw [slot_materialized_self c gr ext hne, hcr, Machine.get_next, Machine.get_set_self]
    intro p hp
    obtain rfl := List.mem_singleton.mp hp
    exact hheld
  · rintro off (hzero | ⟨r', hr', ho'⟩)
    · refine (Cpu.loadWord_storeWord_of_ne g _ fun heq => ?_).symm
      exact (ha.valid lo).not_isZeroWord hhigh (heq ▸ hzero)
    · refine (Cpu.loadWord_storeWord_of_ne g _ fun heq => ?_).symm
      subst heq
      exact hfree r' ho'
  · rw [slot_materialized_self c gr ext hne, hcr, hdr]
    intro off hclean hs
    rw [Machine.ctx_next, Machine.ctx_set]
    refine ha.synced off fun r' hd ho => ?_
    by_cases hl : r' = lo
    · subst hl
      rw [hcontent] at ho
      rw [hdirty] at hd
      rcases List.mem_cons.mp ho with rfl | ho
      · refine hclean r' hne.symm ?_ ?_
        · rw [slot_setSlot_self]
          exact hdirty.trans hd
        · rw [slot_setSlot_self]
          exact List.mem_singleton_self _
      · exact hs hd ho
    · have hrr : r' ≠ r := by
        rintro rfl
        rw [slot_writeback_self] at hd
        cases hd
      rw [← slot_setSlot_of_ne c₁ s fun he => hl he.symm] at hd ho
      exact hclean r' hrr hd ho
  · rw [Machine.ctx_next, Machine.ctx_set]
    exact ha.rest

/-- The pinned registers are not the one that gets the high word. -/
theorem stable_materialized {m₁ : Machine Cpu} (hkept : Kept c (c.materialized gr lo r ext))
    (hr : ¬ ((c.touch lo).slot r).Pinned) (hne : r ≠ lo) (hget : ∀ x, m₁.get x = m.get x)
    (v : UInt32) : Stable c m (c.materialized gr lo r ext) (m₁.set (.ofSlot r) v).next := by
  have hpinned (r' : Fin 9) (hp : (c.slot r').Pinned) : r' ≠ r := fun heq =>
    hr (heq ▸ ((Kept.touch c lo) r' hp).1)
  have hsame (r' : Fin 9) (hp : (c.slot r').Pinned) :
      ((c.materialized gr lo r ext).slot r').dirty = (c.slot r').dirty ∧
        ((c.materialized gr lo r ext).slot r').isConst = (c.slot r').isConst := by
    by_cases hl : r' = lo
    · subst hl
      rw [slot_materialized_lo c gr ext hne, slot_touch_self]
      exact ⟨rfl, rfl⟩
    · rw [slot_materialized_of_ne c gr ext hl (hpinned r' hp)]
      exact ⟨rfl, rfl⟩
  refine ⟨hkept, fun r' hp => ?_, fun r' hp hd => (hsame r' hp).1.trans hd,
    fun r' hp hc => (hsame r' hp).2.trans hc⟩
  rw [Machine.get_next, Machine.get_set_of_ne _ _ fun heq =>
    hpinned r' hp (Machine.ofSlot_inj heq).symm]
  exact hget _

/-- An implied high word gets a register of its own. -/
theorem materialize (h : Agrees c m g) (hz : gr.val ≠ 0)
    (hlo : (c.slot lo).content = .low gr (some ext))
    (hx : HostCache.materialize gr lo ext c = .ok x c') :
    ∃ m', Allocates c m c' m' g ∧ Reads c' m' x (.high gr) (highWord (g.guest gr)) ∧
      (c'.slot lo).content = .low gr none := by
  obtain ⟨hkept, hnew⟩ := Kept.materialize (by rw [hlo]; rfl) hx
  obtain ⟨r, hr, rfl, rfl⟩ := materialize_ok hx
  have hne : r ≠ lo := by
    rintro rfl
    refine hr ?_
    rw [slot_touch_self]
    refine ⟨?_, .inl rfl⟩
    rw [hlo]
    exact fun hu => by cases hu
  obtain ⟨m₁, he, ha, hget⟩ := (h.touch lo).writeback r
  obtain ⟨m', he', rfl, hcr, -, -, -⟩ :=
    emitImplied_eq ((c.touch lo).replace r (.fresh (.high gr) (c.slot lo).dirty)) m₁ lo r ext
  rw [slot_replace_self, ← slot_materialized_self c gr ext hne] at hcr
  have hword : ext.word (m.get (.ofSlot lo)) = highWord (g.guest gr) := by
    rw [← Cpu.loadWord_highWord]
    refine (h.held lo (Layout.highWord gr, _) ?_).symm
    rw [hlo]
    exact .tail _ (.head _)
  refine ⟨_, ⟨he.trans he', ha.materialized hz hlo hne, stable_materialized hkept hr hne hget _⟩,
    .inr ⟨r, rfl, ⟨?_, .inl ?_⟩, ?_, ?_⟩, ?_⟩
  · rw [hcr]
    exact fun hu => by cases hu
  · obtain ⟨r', hx', hb, -⟩ := hnew
    cases Machine.ofSlot_inj hx'
    exact hb
  · rw [hcr]
    rfl
  · rw [Machine.get_next, Machine.get_set_self, hget]
    exact hword
  · rw [slot_materialized_lo c gr ext hne]

end

/-- The high word of a guest register. -/
theorem allocInHigh (h : Agrees c m g) (hx : HostCache.allocInHigh gr c = .ok x c') :
    ∃ m', Allocates c m c' m' g ∧ Reads c' m' x (.high gr) (highWord (g.guest gr)) := by
  by_cases hz : gr.val = 0
  · rw [HostCache.allocInHigh, if_pos hz] at hx
    cases hx
    exact ⟨m, ⟨.refl _ _, h, .refl c m⟩, .inl ⟨rfl, by rw [h.guest_zero hz]; rfl⟩⟩
  have hload (hx : HostCache.claimLoaded (.high gr) c = .ok x c')
      (hfree : ∀ r', Layout.highWord gr ∉ (c.slot r').content.offsets) :
      ∃ m', Allocates c m c' m' g ∧ Reads c' m' x (.high gr) (highWord (g.guest gr)) := by
    rw [← Cpu.loadWord_highWord]
    exact h.claimLoaded hx (fun _ => rfl) hz hfree
  rw [allocInHigh_eq c hz] at hx
  split at hx
  · rename_i r hf
    cases hx
    rw [← Cpu.loadWord_highWord]
    have hk := findHigh?_some hf
    refine ⟨m, h.touched r, h.reads_touch hk ?_⟩
    rw [Content.base_eq_high hk]
    exact List.mem_singleton_self _
  · rename_i hnone
    have hnot (r' : Fin 9) : (c.slot r').content ≠ .high gr := fun he =>
      findHigh?_none hnone r' (by rw [he]; rfl)
    split at hx
    · rename_i lo hf
      obtain ⟨ext, hlo⟩ := Content.base_eq_low (findLow?_some hf)
      have huniq (r' : Fin 9) (ext' : Option Extension) (hr' : (c.slot r').content = .low gr ext') :
          r' = lo := by
        refine h.apart r' lo (Layout.lowWord gr) ?_ ?_
        · exact (h.valid r').lowWord_mem.mpr (by rw [hr']; rfl)
        · exact (h.valid lo).lowWord_mem.mpr (by rw [hlo]; rfl)
      cases ext with
      | some ext =>
        rw [hlo] at hx
        obtain ⟨m', ha, hr, -⟩ := h.materialize hz hlo hx
        exact ⟨m', ha, hr⟩
      | none =>
        rw [hlo] at hx
        refine hload hx fun r' hm => ?_
        rcases (h.valid r').highWord_mem.mp hm with he | ⟨ext', he⟩
        · exact hnot r' he
        · cases huniq r' _ he
          rw [hlo] at he
          cases he
    · rename_i hf
      refine hload hx fun r' hm => ?_
      rcases (h.valid r').highWord_mem.mp hm with he | ⟨ext', he⟩
      · exact hnot r' he
      · exact findLow?_none hf r' (by rw [he]; rfl)

theorem allocIn32 (h : Agrees c m g) {off : Int} (hoff : off < 64 ∨ 336 ≤ off)
    (hx : HostCache.allocIn32 off c = .ok x c') :
    ∃ m', Allocates c m c' m' g ∧ Reads c' m' x (.word off) (g.loadWord off) := by
  rw [allocIn32_eq] at hx
  split at hx
  · rename_i r hf
    cases hx
    have hk := findWord?_some hf
    refine ⟨m, h.touched r, h.reads_touch hk ?_⟩
    rw [Content.base_eq_word hk]
    exact List.mem_singleton_self _
  · rename_i hf
    refine h.claimLoaded hx (fun _ => rfl) hoff fun r' hm => ?_
    exact findWord?_none hf r' (by rw [(Content.word_mem hoff).mp hm]; rfl)

end Agrees

/-- A register for a result, whose content is one of the guest; none for register zero. -/
def Owns (c : HostCache) (d : HostReg) : Option Content → Prop
  | none => d = .rz
  | some content => ∃ r, d = .ofSlot r ∧ (c.slot r).content = content ∧ (c.slot r).dirty = true ∧
      (c.slot r).isConst = false ∧ (c.slot r).busy = true

def target (gr : GuestReg) (content : Content) : Option Content :=
  if gr.val = 0 then none else some content

def resultWords (o : Option Content) (v : UInt32) : List (Int × UInt32) := o.elim [] (·.words v)

theorem Owns.write {o : Option Content} {d : HostReg} (ho : Owns c d o) (h : Agrees c m g)
    (v : UInt32) : Agrees c (m.set d v) (g.storeWords (resultWords o v)) := by
  cases o with
  | none =>
    cases ho
    exact h
  | some content =>
    obtain ⟨r, rfl, rfl, hd, hc, -⟩ := ho
    exact h.write v hd hc

theorem Reads.set (hx : Reads c m x k v) {d : HostReg} (hd : x ≠ d) (w : UInt32) :
    Reads c (m.set d w) x k v := by
  rcases hx with hz | ⟨r, rfl, hp, hk, hv⟩
  · exact .inl hz
  · exact .inr ⟨r, rfl, hp, hk, (Machine.get_set_of_ne m w (Ne.symm hd)).trans hv⟩

theorem Owns.reads {o : Option Content} {d : HostReg} (ho : Owns c d o)
    (hk : ∀ content, o = some content → content.base ≠ k) (hx : Reads c m x k v) (w : UInt32) :
    Reads c (m.set d w) x k v := by
  cases o with
  | none =>
    cases ho
    exact hx
  | some content =>
    obtain ⟨r, rfl, rfl, -, -, -⟩ := ho
    exact hx.set (hx.ne (.inr (hk _ rfl))) w

namespace Agrees

open HostCache

theorem overwrite (h : Agrees c m g) (content : Content)
    (hcover : (c.slot r).dirty = true →
      ∀ off ∈ (c.slot r).content.offsets, off ∈ content.offsets)
    (hbase : (c.slot r).content.base = content.base) (hvalid : content.Valid)
    (hwritable : content.Writable)
    (hfree : ∀ off ∈ content.offsets, ∀ r', r' ≠ r → off ∉ (c.slot r').content.offsets)
    (hx : HostCache.overwrite r content c = .ok x c') :
    Allocates c m c' m (g.storeWords (content.words (m.get x))) ∧ Owns c' x (some content) := by
  rw [overwrite_eq] at hx
  cases hx
  have hput := h.put (r := r) (s := { c.slot r with content, dirty := true, isConst := false }) rfl
    (.inl rfl) hcover hvalid hwritable hfree
  have hstable := Stable.recast (c := c) (m := m) (r := r)
    (s := { c.slot r with content, dirty := true, isConst := false }) hbase.symm id (fun _ => rfl)
    fun _ => rfl
  refine ⟨⟨.refl _ _, hput.touch r, hstable.trans (.touch _ m r)⟩, r, rfl, ?_⟩
  rw [slot_touch_self, slot_setSlot_self]
  exact ⟨rfl, rfl, rfl, rfl⟩

theorem claimResult (h : Agrees c m g) (content : Content) (hvalid : content.Valid)
    (hwritable : content.Writable)
    (hfree : ∀ off ∈ content.offsets, ∀ r', off ∉ (c.slot r').content.offsets)
    (hx : HostCache.claimReg content true c = .ok x c') :
    ∃ m', Allocates c m c' m' (g.storeWords (content.words (m'.get x))) ∧
      Owns c' x (some content) ∧ ∀ y, m'.get y = m.get y := by
  obtain ⟨r, m', rfl, -, hs, hb, ha, hget⟩ := h.claimReg hx (.inl rfl) hvalid hwritable hfree
  exact ⟨m', ha, ⟨r, rfl, hs.content, hs.dirty, hs.isConst, hb⟩, hget⟩

theorem low_unique (h : Agrees c m g) {r r' : Fin 9} (hr : (c.slot r).content.base = .low gr none)
    (hr' : (c.slot r').content.base = .low gr none) : r = r' :=
  h.apart r r' (Layout.lowWord gr) ((h.valid r).lowWord_mem.mpr hr)
    ((h.valid r').lowWord_mem.mpr hr')

theorem overwriteLow (h : Agrees c m g) (hz : gr.val ≠ 0)
    (hbase : (c.slot r).content.base = .low gr none)
    (hcover : (c.slot r).dirty = true → (c.slot r).content = .low gr none)
    (hx : HostCache.overwrite r (.low gr none) c = .ok x c') :
    Allocates c m c' m (g.storeWords (Content.words (m.get x) (.low gr none))) ∧
      Owns c' x (some (.low gr none)) := by
  refine h.overwrite _ (fun hd off ho => ?_) hbase hz trivial (fun off ho r' hne hm => ?_) hx
  · rwa [hcover hd] at ho
  · obtain rfl := List.mem_singleton.mp ho
    exact hne (h.low_unique ((h.valid r').lowWord_mem.mp hm) hbase)

/-- The low word of a guest register is to be written. -/
theorem allocOutLow (h : Agrees c m g) (hx : HostCache.allocOutLow gr c = .ok x c') :
    ∃ m', Allocates c m c' m'
        (g.storeWords (resultWords (target gr (.low gr none)) (m'.get x))) ∧
      Owns c' x (target gr (.low gr none)) := by
  unfold target
  by_cases hz : gr.val = 0
  · rw [if_pos hz]
    rw [HostCache.allocOutLow, if_pos hz] at hx
    cases hx
    exact ⟨m, ⟨.refl _ _, h, .refl c m⟩, rfl⟩
  rw [if_neg hz]
  rw [allocOutLow_eq c hz] at hx
  split at hx
  · rename_i hf
    obtain ⟨m', ha, ho, -⟩ := h.claimResult (.low gr none) hz trivial (fun off ho r' hm => by
      obtain rfl := List.mem_singleton.mp ho
      exact findLow?_none hf r' ((h.valid r').lowWord_mem.mp hm)) hx
    exact ⟨m', ha, ho⟩
  · rename_i r hf
    have hbase := findLow?_some hf
    obtain ⟨ext, hlo⟩ := Content.base_eq_low hbase
    cases ext with
    | none =>
      rw [hlo] at hx
      obtain ⟨ha, ho⟩ := h.overwriteLow hz hbase (fun _ => hlo) hx
      exact ⟨m, ha, ho⟩
    | some ext =>
      rw [hlo] at hx
      dsimp only at hx
      split at hx
      · -- The high word moves to a register of its own first.
        cases hmat : HostCache.materialize gr r ext c with
        | error err c₁ =>
          rw [hmat] at hx
          cases hx
        | ok y c₁ =>
          rw [hmat] at hx
          obtain ⟨m₁, ha₁, -, hlo₁⟩ := h.materialize hz hlo hmat
          obtain ⟨ha, ho⟩ := ha₁.agrees.overwriteLow hz (by rw [hlo₁]; rfl) (fun _ => hlo₁) hx
          exact ⟨m₁, ⟨ha₁.emitted.trans ha.emitted, ha.agrees, ha₁.stable.trans ha.stable⟩, ho⟩
      · -- The context has the high word already.
        rename_i hno
        have hclean : (c.slot r).dirty = false := by
          cases hd : (c.slot r).dirty with
          | false => rfl
          | true =>
            refine absurd ?_ hno
            rw [hd, Bool.and_true, Option.isNone_iff_eq_none]
            cases hhi : c.findHigh? gr with
            | none => rfl
            | some r' =>
              have hk := findHigh?_some hhi
              have hcov : Layout.highWord gr ∈ (c.slot r').content.offsets :=
                (h.valid r').highWord_mem.mpr (.inl (Content.base_eq_high hk))
              have hcov' : Layout.highWord gr ∈ (c.slot r).content.offsets :=
                (h.valid r).highWord_mem.mpr (.inr ⟨ext, hlo⟩)
              cases h.apart r' r _ hcov hcov'
              rw [hlo] at hk
              cases hk
        have hnot : (c.slot r).dirty ≠ true := by
          rw [hclean]
          exact Bool.false_ne_true
        obtain ⟨ha, ho⟩ := h.overwriteLow hz hbase (fun hd => absurd hd hnot) hx
        exact ⟨m, ha, ho⟩

/-- The low word of `gr` no longer implies the high one, which may have changed. -/
theorem splitLow (h : Agrees c m g) (hz : gr.val ≠ 0) :
    (∃ w, Agrees (c.splitLow gr) m (g.storeWord (Layout.highWord gr) w)) ∧
      Stable c m (c.splitLow gr) m ∧ ∀ r ext, ((c.splitLow gr).slot r).content ≠ .low gr (some ext) := by
  have hsame : ∃ w, Agrees c m (g.storeWord (Layout.highWord gr) w) :=
    ⟨g.loadWord (Layout.highWord gr), by
      rw [Cpu.storeWord_loadWord g (Cpu.isWord_highWord gr)]
      exact h⟩
  unfold HostCache.splitLow
  cases hf : c.findLow? gr with
  | none =>
    exact ⟨hsame, .refl c m, fun r ext he => findLow?_none hf r (by rw [he]; rfl)⟩
  | some lo =>
    have hbase := findLow?_some hf
    have hnone (r : Fin 9) (ext : Extension) :
        ((c.setSlot lo { c.slot lo with content := .low gr none }).slot r).content ≠
          .low gr (some ext) := by
      intro he
      by_cases hl : lo = r
      · subst hl
        rw [slot_setSlot_self] at he
        cases he
      · rw [slot_setSlot_of_ne _ _ hl] at he
        exact hl (h.low_unique hbase (by rw [he]; rfl))
    obtain ⟨ext, hlo⟩ := Content.base_eq_low hbase
    refine ⟨?_, .recast hbase.symm id id id, hnone⟩
    cases ext with
    | none =>
      obtain ⟨w, hw⟩ := hsame
      refine ⟨w, ?_⟩
      have hslot : ({ c.slot lo with content := .low gr none } : Slot) = c.slot lo := by rw [← hlo]
      change Agrees (c.setSlot lo { c.slot lo with content := .low gr none }) m _
      rw [hslot, setSlot_slot]
      exact hw
    | some ext =>
      refine ⟨_, h.uncover (Cpu.isWord_highWord gr) ?_ ?_ ?_ ?_
        (fun hc => ⟨by simp, hc, rfl⟩) hz trivial⟩
      · rw [hlo]
        simp [Content.offsets]
      · simp [Content.offsets, (Cpu.lowWord_ne_highWord gr gr).symm]
      · rw [hlo]
        simp [Content.words]
      · rw [hlo]
        intro off ho hoff
        rcases List.mem_cons.mp ho with rfl | ho
        · exact ⟨List.mem_singleton_self _, rfl⟩
        · exact absurd (List.mem_singleton.mp ho) hoff

/-- The high word of `gr` leaves its register, and may have changed. -/
theorem dropHigh (h : Agrees c m g) (gr : GuestReg) :
    (∃ w, Agrees (c.dropHigh gr) m (g.storeWord (Layout.highWord gr) w)) ∧
      ∀ r, ((c.dropHigh gr).slot r).content ≠ .high gr := by
  unfold HostCache.dropHigh
  cases hf : c.findHigh? gr with
  | none =>
    refine ⟨⟨g.loadWord (Layout.highWord gr), ?_⟩,
      fun r he => findHigh?_none hf r (by rw [he]; rfl)⟩
    rw [Cpu.storeWord_loadWord g (Cpu.isWord_highWord gr)]
    exact h
  | some hi =>
    have hhi := Content.base_eq_high (findHigh?_some hf)
    have hcov : Layout.highWord gr ∈ (c.slot hi).content.offsets := by
      rw [hhi]
      exact List.mem_singleton_self _
    refine ⟨⟨_, h.uncover (s := .empty) (Cpu.isWord_highWord gr) hcov List.not_mem_nil ?_ ?_
      (fun hc => nomatch hc) trivial trivial⟩, ?_⟩
    · exact fun _ _ hp => absurd hp List.not_mem_nil
    · rw [hhi]
      exact fun off ho hoff => absurd (List.mem_singleton.mp ho) hoff
    · intro r he
      by_cases hl : hi = r
      · subst hl
        rw [slot_setSlot_self] at he
        cases he
      · rw [slot_setSlot_of_ne _ _ hl] at he
        refine hl (h.apart hi r _ hcov ?_)
        rw [he]
        exact List.mem_singleton_self _

/-- The high word of a guest register is to be written. -/
theorem allocOutHigh (h : Agrees c m g) (hx : HostCache.allocOutHigh gr c = .ok x c') :
    ∃ m', Allocates c m c' m' (g.storeWords (resultWords (target gr (.high gr)) (m'.get x))) ∧
      Owns c' x (target gr (.high gr)) := by
  unfold target
  by_cases hz : gr.val = 0
  · rw [if_pos hz]
    rw [HostCache.allocOutHigh, if_pos hz] at hx
    cases hx
    exact ⟨m, ⟨.refl _ _, h, .refl c m⟩, rfl⟩
  rw [if_neg hz]
  obtain ⟨⟨w, hsplit⟩, hkept, hnone⟩ := h.splitLow hz
  have hbuilder : (c.splitLow gr).builder = c.builder := by
    unfold HostCache.splitLow
    split <;> rfl
  have hghost (v : UInt32) : (g.storeWord (Layout.highWord gr) w).storeWords
      (Content.words v (.high gr)) = g.storeWords (Content.words v (.high gr)) :=
    Cpu.storeWord_storeWord_self g _ _ _
  have hwrap {m' : Machine Cpu} {v : UInt32} (ha : Allocates (c.splitLow gr) m c' m'
      ((g.storeWord (Layout.highWord gr) w).storeWords (Content.words v (.high gr)))) :
      Allocates c m c' m' (g.storeWords (Content.words v (.high gr))) := by
    rw [hghost] at ha
    exact ⟨hbuilder ▸ ha.emitted, ha.agrees, hkept.trans ha.stable⟩
  rw [allocOutHigh_eq c hz] at hx
  split at hx
  · rename_i r hf
    have hr := Content.base_eq_high (findHigh?_some hf)
    obtain ⟨ha, ho⟩ := hsplit.overwrite (.high gr) (fun _ => by rw [hr]; exact fun _ h => h)
      (by rw [hr]) hz trivial
      (fun off ho r' hne hm => hne (hsplit.apart r' r off hm (by rw [hr]; exact ho))) hx
    exact ⟨m, hwrap ha, ho⟩
  · rename_i hf
    obtain ⟨m', ha, ho, -⟩ := hsplit.claimResult (.high gr) hz trivial
      (fun off ho r' hm => by
        obtain rfl := List.mem_singleton.mp ho
        rcases (hsplit.valid r').highWord_mem.mp hm with he | ⟨ext, he⟩
        · exact findHigh?_none hf r' (by rw [he]; rfl)
        · exact hnone r' ext he) hx
    exact ⟨m', hwrap ha, ho⟩

/-- A guest register is to be written as a word that implies its high word. The other operands
keep their values, though perhaps not their registers. -/
theorem allocOutExt (h : Agrees c m g) {ext : Extension}
    (hx : HostCache.allocOutExt gr ext c = .ok x c') :
    ∃ m', Emitted c.builder m c'.builder m' ∧
      Agrees c' m' (g.storeWords (resultWords (target gr (.low gr (some ext))) (m'.get x))) ∧
      Owns c' x (target gr (.low gr (some ext))) ∧ (∀ y, m'.get y = m.get y) ∧
      ∀ r, (c.slot r).Pinned → (c.slot r).content.base ≠ .low gr none →
        (c.slot r).content.base ≠ .high gr → c'.slot r = c.slot r := by
  unfold target
  by_cases hz : gr.val = 0
  · rw [if_pos hz]
    rw [HostCache.allocOutExt, if_pos hz] at hx
    cases hx
    exact ⟨m, .refl _ _, h, rfl, fun _ => rfl, fun _ _ _ _ => rfl⟩
  rw [if_neg hz]
  obtain ⟨⟨w, hdrop⟩, hnone⟩ := h.dropHigh gr
  have hbuilder : (c.dropHigh gr).builder = c.builder := by
    unfold HostCache.dropHigh
    split <;> rfl
  have hslot (r : Fin 9) (hr : (c.slot r).content.base ≠ .high gr) :
      (c.dropHigh gr).slot r = c.slot r := by
    unfold HostCache.dropHigh
    split
    · rename_i hi hf
      exact slot_setSlot_of_ne _ _ fun he => hr (he ▸ findHigh?_some hf)
    · rfl
  have hghost (v : UInt32) : (g.storeWord (Layout.highWord gr) w).storeWords
      (Content.words v (.low gr (some ext))) = g.storeWords (Content.words v (.low gr (some ext))) := by
    change ((g.storeWord _ w).storeWord (Layout.lowWord gr) v).storeWord _ _ = _
    rw [Cpu.storeWord_comm g _ _ (Cpu.isWord_highWord gr) (Cpu.isWord_lowWord gr)
      (Cpu.lowWord_ne_highWord gr gr).symm, Cpu.storeWord_storeWord_self]
    rfl
  have hhigh (r : Fin 9) (hm : Layout.highWord gr ∈ ((c.dropHigh gr).slot r).content.offsets) :
      ((c.dropHigh gr).slot r).content.base = .low gr none := by
    rcases (hdrop.valid r).highWord_mem.mp hm with he | ⟨ext', he⟩
    · exact absurd he (hnone r)
    · rw [he]
      rfl
  have hmem {off : Int} (ho : off ∈ Content.offsets (.low gr (some ext))) (r : Fin 9)
      (hm : off ∈ ((c.dropHigh gr).slot r).content.offsets) :
      ((c.dropHigh gr).slot r).content.base = .low gr none := by
    rcases List.mem_cons.mp ho with rfl | ho
    · exact (hdrop.valid r).lowWord_mem.mp hm
    · obtain rfl := List.mem_singleton.mp ho
      exact hhigh r hm
  rw [allocOutExt_eq c ext hz] at hx
  split at hx
  · rename_i r hf
    have hbase := findLow?_some hf
    have hcover : ∀ off ∈ ((c.dropHigh gr).slot r).content.offsets,
        off ∈ Content.offsets (.low gr (some ext)) := by
      obtain ⟨ext', he⟩ := Content.base_eq_low hbase
      rw [he]
      cases ext' <;> simp [Content.offsets]
    obtain ⟨ha, ho⟩ := hdrop.overwrite (.low gr (some ext)) (fun _ => hcover) hbase hz trivial
      (fun off ho r' hne hm => hne (hdrop.low_unique (hmem ho r' hm) hbase)) hx
    rw [hghost] at ha
    refine ⟨m, hbuilder ▸ ha.emitted, ha.agrees, ho, fun _ => rfl, fun r' _ hl hh => ?_⟩
    rw [overwrite_eq] at hx
    cases hx
    have hne : r ≠ r' := by
      rintro rfl
      rw [hslot r hh] at hbase
      exact hl hbase
    rw [slot_touch_of_ne _ hne, slot_setSlot_of_ne _ _ hne, hslot r' hh]
  · rename_i hf
    obtain ⟨m', ha, ho, hget⟩ := hdrop.claimResult (.low gr (some ext)) hz trivial
      (fun off ho r' hm => findLow?_none hf r' (hmem ho r' hm)) hx
    rw [hghost] at ha
    refine ⟨m', hbuilder ▸ ha.emitted, ha.agrees, ho, hget, fun r' hp hl hh => ?_⟩
    obtain ⟨r, hr, -, rfl⟩ := claimReg_ok hx
    have hne : r ≠ r' := by
      rintro rfl
      rw [hslot r hh] at hr
      exact hr hp
    rw [slot_replace_of_ne _ _ hne, hslot r' hh]

theorem allocOut32 (h : Agrees c m g) {off : Int} (hw : Cpu.IsWord off) (hoff : off < 64 ∨ 336 ≤ off)
    (hx : HostCache.allocOut32 off c = .ok x c') :
    ∃ m', Allocates c m c' m' (g.storeWords (resultWords (some (.word off)) (m'.get x))) ∧
      Owns c' x (some (.word off)) := by
  rw [allocOut32_eq] at hx
  split at hx
  · rename_i r hf
    have hr := Content.base_eq_word (findWord?_some hf)
    obtain ⟨ha, ho⟩ := h.overwrite (.word off) (fun _ => by rw [hr]; exact fun _ h => h)
      (by rw [hr]) hoff hw
      (fun off ho r' hne hm => hne (h.apart r' r off hm (by rw [hr]; exact ho))) hx
    exact ⟨m, ha, ho⟩
  · rename_i hf
    obtain ⟨m', ha, ho, -⟩ := h.claimResult (.word off) hoff hw
      (fun off' ho r' hm => by
        obtain rfl := List.mem_singleton.mp ho
        exact findWord?_none hf r' (by rw [(Content.word_mem hoff).mp hm]; rfl)) hx
    exact ⟨m', ha, ho⟩

theorem allocTemp (h : Agrees c m g) (hx : HostCache.allocTemp c = .ok x c') :
    ∃ r m', x = .ofSlot r ∧ ¬ (c.slot r).Pinned ∧ (c'.slot r).content = .temp ∧
      (c'.slot r).isConst = false ∧ Allocates c m c' m' g := by
  obtain ⟨r, m', hr, hp, hs, -, ha, -⟩ := h.claimReg hx (.inr rfl) trivial trivial fun _ ho _ =>
    absurd ho List.not_mem_nil
  exact ⟨r, m', hr, hp, hs.content, hs.isConst, ha⟩

/-- A register is known to hold a value. -/
theorem setConst (h : Agrees c m g) (hu : (c.slot r).content ≠ .unused)
    (hv : m.get (.ofSlot r) = v) :
    Agrees (c.setConst (.ofSlot r) v) m g := by
  rw [setConst_ofSlot]
  have hslot (r' : Fin 9) :
      ((c.setSlot r { c.slot r with isConst := true, value := v }).slot r').content =
        (c.slot r').content ∧
      ((c.setSlot r { c.slot r with isConst := true, value := v }).slot r').dirty =
        (c.slot r').dirty := by
    by_cases he : r = r'
    · subst he
      rw [slot_setSlot_self]
      exact ⟨rfl, rfl⟩
    · rw [slot_setSlot_of_ne _ _ he]
      exact ⟨rfl, rfl⟩
  refine ⟨fun r' => ?_, fun r' hc => ?_, fun r₁ r₂ => ?_, fun r' => ?_, fun r' hd => ?_, ?_, h.rest,
    h.zero, h.fp⟩
  · rw [(hslot r').1]
    exact h.held r'
  · by_cases he : r = r'
    · subst he
      rw [slot_setSlot_self]
      exact ⟨hu, hv⟩
    · rw [slot_setSlot_of_ne _ _ he] at hc ⊢
      exact h.const r' hc
  · rw [(hslot r₁).1, (hslot r₂).1]
    exact h.apart r₁ r₂
  · rw [(hslot r').1]
    exact h.valid r'
  · rw [(hslot r').2] at hd
    rw [(hslot r').1]
    exact h.writable r' hd
  · intro off hclean
    refine h.synced off fun r' => ?_
    have := hclean r'
    rwa [(hslot r').1, (hslot r').2] at this

/-- A constant, in a register that is known to hold it. -/
theorem allocConst (h : Agrees c m g) (hx : HostCache.allocConst v c = .ok x c') :
    ∃ m', Allocates c m c' m' g ∧ Knows c' m' x v := by
  by_cases hz : v = 0
  · rw [HostCache.allocConst, if_pos hz] at hx
    cases hx
    exact ⟨m, ⟨.refl _ _, h, .refl c m⟩, .inl ⟨rfl, hz⟩⟩
  rw [allocConst_eq c hz] at hx
  split at hx
  · rename_i r hf
    cases hx
    have hconst := List.find?_some hf
    rw [Bool.and_eq_true, beq_iff_eq] at hconst
    obtain ⟨hu, hv⟩ := h.const r hconst.1
    refine ⟨m, h.touched r, .inr ⟨r, rfl, ?_, ?_, hv.trans hconst.2⟩⟩
    · rw [slot_touch_self]
      exact ⟨hu, .inl rfl⟩
    · rw [slot_touch_self]
      exact hconst.1
  · split at hx
    · rename_i y c₁ hy
      cases hx
      obtain ⟨r, m₁, rfl, hr, ht, hc, ha⟩ := h.allocTemp hy
      have hget : (m₁.perform (.li v (.ofSlot r))).get (.ofSlot r) = v := Machine.get_set_self m₁ r v
      have hagrees : Agrees (c₁.emit (.li v (.ofSlot r))) (m₁.perform (.li v (.ofSlot r))) g :=
        ((ha.agrees.writeTemp v (by rw [ht]; rfl) hc).emit _).of_machine (fun _ => rfl) rfl
      have hslot (r' : Fin 9) (hp : (c.slot r').Pinned) :
          ((c₁.emit (.li v (.ofSlot r))).setConst (.ofSlot r) v).slot r' = c₁.slot r' := by
        rw [setConst_ofSlot]
        exact slot_setSlot_of_ne _ _ fun he => hr (he ▸ hp)
      have hbuilder : ((c₁.emit (.li v (.ofSlot r))).setConst (.ofSlot r) v).builder =
          c₁.builder.add (.li v (.ofSlot r)) := by
        rw [setConst_ofSlot]
        rfl
      have hused : ((c₁.emit (.li v (.ofSlot r))).slot r).content ≠ .unused := by
        simp [ht]
      have hemitted := ha.emitted.trans (.add c₁.builder m₁ (i := .li v (.ofSlot r)) rfl)
      refine ⟨_, ⟨hbuilder ▸ hemitted, hagrees.setConst hused hget, ?_⟩, .inr ⟨r, rfl, ?_, ?_, hget⟩⟩
      · refine ⟨(ha.stable.kept.trans (.emit _ _)).trans (.setConst _ _ _), fun r' hp => ?_,
          fun r' hp hd => ?_, fun r' hp hc => ?_⟩
        · refine (Machine.get_set_of_ne m₁ v fun he => hr ?_).trans (ha.stable.regs r' hp)
          exact Machine.ofSlot_inj he ▸ hp
        · rw [hslot r' hp]
          exact ha.stable.dirty r' hp hd
        · rw [hslot r' hp]
          exact ha.stable.const r' hp hc
      · rw [setConst_ofSlot, slot_setSlot_self]
        exact ⟨hused, .inr ht⟩
      · rw [setConst_ofSlot, slot_setSlot_self]
    · cases hx

end Agrees

end

end Recompiler
