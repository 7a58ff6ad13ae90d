import Recompiler.Proofs.Slots

/-!
How many registers one instruction pins. Registers that hold values of the context are told apart
by these values, so that an allocation succeeds while the values and the temporaries in use are
fewer than the registers.
-/

namespace Recompiler

open Ir

def HostCache.HasHigh (c : HostCache) (g : GuestReg) : Prop :=
  ∃ r, (c.slot r).content = .high g

/-- The pinned registers hold values of `values` or temporaries, at most `temps` of these; those
with known constants hold values of `consts`. No value is in two registers. -/
structure Pins (values consts : List Content) (temps : Nat) (c : HostCache) : Prop where
  distinct : ∀ r r', (c.slot r).content.isValue = true →
    (c.slot r).content.base = (c.slot r').content.base → r = r'
  busy : ∀ r, (c.slot r).busy = true → (c.slot r).content.isValue = true →
    (c.slot r).content.base ∈ values
  consts : ∀ r, (c.slot r).busy = true → (c.slot r).content.isValue = true →
    (c.slot r).isConst = true → (c.slot r).content.base ∈ consts
  temps : ∃ rs : List (Fin 9), rs.length ≤ temps ∧ ∀ r, (c.slot r).content = .temp → r ∈ rs

namespace Pins

open HostCache

variable {S S' C C' : List Content} {n n' : Nat} {c c' : HostCache} {r : Fin 9} {s : Slot}
  {g : GuestReg}

theorem of_slots (h : Pins S C n c) (hs : ∀ r, c'.slot r = c.slot r) : Pins S C n c' := by
  constructor
  · simpa only [hs] using h.distinct
  · simpa only [hs] using h.busy
  · simpa only [hs] using h.consts
  · simpa only [hs] using h.temps

theorem mono (h : Pins S C n c) (hS : S ⊆ S') (hC : C ⊆ C') (hn : n ≤ n') : Pins S' C' n' c where
  distinct := h.distinct
  busy r hb hv := hS (h.busy r hb hv)
  consts r hb hv hk := hC (h.consts r hb hv hk)
  temps := by
    obtain ⟨rs, hl, hrs⟩ := h.temps
    exact ⟨rs, Nat.le_trans hl hn, hrs⟩

/-- Fewer than nine values and temporaries do not pin all registers. -/
theorem exists_free (h : Pins S C n c) (hn : S.length + n < 9) : ∃ r, ¬ (c.slot r).Pinned := by
  apply Classical.byContradiction
  intro hall
  have hall (r : Fin 9) : (c.slot r).Pinned :=
    Classical.byContradiction fun hr => hall ⟨r, hr⟩
  obtain ⟨rs, hl, hrs⟩ := h.temps
  let isTemp : Fin 9 → Bool := fun r => (c.slot r).content == .temp
  have htemps : ((List.finRange 9).filter isTemp).length ≤ rs.length := by
    refine List.Nodup.length_le_of_subset (List.Pairwise.filter _ (List.nodup_finRange 9)) ?_
    intro r hr
    exact hrs r (by simpa [isTemp] using (List.mem_filter.mp hr).2)
  have hvalue {r : Fin 9} (hr : r ∈ (List.finRange 9).filter fun r => !isTemp r) :
      (c.slot r).busy = true ∧ (c.slot r).content.isValue = true := by
    have ht : (c.slot r).content ≠ .temp := by
      simpa [isTemp] using (List.mem_filter.mp hr).2
    obtain ⟨hu, hb⟩ := hall r
    refine ⟨hb.resolve_right ht, ?_⟩
    cases hc : (c.slot r).content <;> simp_all [Content.isValue]
  have hvalues : ((List.finRange 9).filter fun r => !isTemp r).length ≤ S.length := by
    rw [← List.length_map (f := fun r => (c.slot r).content.base)]
    refine List.Nodup.length_le_of_subset ?_ ?_
    · rw [List.Nodup, List.pairwise_map]
      refine List.Pairwise.imp_of_mem ?_ (List.Pairwise.filter _ (List.nodup_finRange 9))
      intro r r' hr hr' hne he
      exact hne (h.distinct r r' (hvalue hr).2 he)
    · intro k hk
      obtain ⟨r, hr, rfl⟩ := List.mem_map.mp hk
      exact h.busy r (hvalue hr).1 (hvalue hr).2
  have hsum := List.length_eq_countP_add_countP isTemp (l := List.finRange 9)
  simp only [List.countP_eq_length_filter, List.length_finRange, Bool.not_eq_true,
    Bool.decide_eq_false] at hsum
  omega

theorem exists_free_of_absent (h : Pins S C n c) {k : Content} (hk : k ∈ S)
    (habsent : ∀ r, (c.slot r).content.base ≠ k) (hn : S.length + n ≤ 9) :
    ∃ r, ¬ (c.slot r).Pinned := by
  have h' : Pins (S.erase k) C n c :=
    { h with busy := fun r hb hv =>
        (List.mem_erase_of_ne (habsent r)).mpr (h.busy r hb hv) }
  refine h'.exists_free ?_
  rw [List.length_erase_of_mem hk]
  have := List.length_pos_of_mem hk
  omega

/-- One register changes, to a value that no other one holds or to nothing. -/
theorem update (h : Pins S C n c) (hs : ∀ r', r ≠ r' → c'.slot r' = c.slot r')
    (ht : (c'.slot r).content ≠ .temp)
    (hd : (c'.slot r).content.isValue = true → ∀ r', r ≠ r' →
      (c.slot r').content.base ≠ (c'.slot r).content.base)
    (hb : (c'.slot r).busy = true → (c'.slot r).content.isValue = true →
      (c'.slot r).content.base ∈ S)
    (hk : (c'.slot r).busy = true → (c'.slot r).content.isValue = true →
      (c'.slot r).isConst = true → (c'.slot r).content.base ∈ C) : Pins S C n c' where
  distinct r₁ r₂ hv he := by
    by_cases h₁ : r = r₁
    · subst h₁
      by_cases h₂ : r = r₂
      · exact h₂
      · rw [hs r₂ h₂] at he
        exact absurd he.symm (hd hv r₂ h₂)
    · rw [hs r₁ h₁] at hv he
      by_cases h₂ : r = r₂
      · subst h₂
        have hv' : (c'.slot r).content.isValue = true := by
          rw [← Content.isValue_base, ← he, Content.isValue_base]
          exact hv
        exact absurd he (hd hv' r₁ h₁)
      · rw [hs r₂ h₂] at he
        exact h.distinct r₁ r₂ hv he
  busy r₁ := by
    by_cases h₁ : r = r₁
    · subst h₁
      exact hb
    · rw [hs r₁ h₁]
      exact h.busy r₁
  consts r₁ := by
    by_cases h₁ : r = r₁
    · subst h₁
      exact hk
    · rw [hs r₁ h₁]
      exact h.consts r₁
  temps := by
    obtain ⟨rs, hl, hrs⟩ := h.temps
    refine ⟨rs, hl, fun r₁ h₁ => ?_⟩
    by_cases hr : r = r₁
    · subst hr
      exact absurd h₁ ht
    · rw [hs r₁ hr] at h₁
      exact hrs r₁ h₁

theorem emit (h : Pins S C n c) (i : Ir.Instr String) : Pins S C n (c.emit i) :=
  h.of_slots fun _ => rfl

theorem touch (h : Pins S C n c) (hS : (c.slot r).content.isValue = true →
      (c.slot r).content.base ∈ S ∧ (c.slot r).content.base ∈ C) : Pins S C n (c.touch r) where
  distinct r₁ r₂ := by
    have hc (r' : Fin 9) : ((c.touch r).slot r').content = (c.slot r').content := by
      by_cases hr : r = r'
      · subst hr
        rw [slot_touch_self]
      · rw [slot_touch_of_ne _ hr]
    simpa only [hc] using h.distinct r₁ r₂
  busy r₁ := by
    by_cases hr : r = r₁
    · subst hr
      rw [slot_touch_self]
      exact fun _ hv => (hS hv).1
    · rw [slot_touch_of_ne _ hr]
      exact h.busy r₁
  consts r₁ := by
    by_cases hr : r = r₁
    · subst hr
      rw [slot_touch_self]
      exact fun _ hv _ => (hS hv).2
    · rw [slot_touch_of_ne _ hr]
      exact h.consts r₁
  temps := by
    obtain ⟨rs, hl, hrs⟩ := h.temps
    refine ⟨rs, hl, fun r₁ h₁ => hrs r₁ ?_⟩
    by_cases hr : r = r₁
    · subst hr
      rwa [slot_touch_self] at h₁
    · rwa [slot_touch_of_ne _ hr] at h₁

theorem touch_of_base (h : Pins S C n c) {k : Content} (hr : (c.slot r).content.base = k)
    (hS : k ∈ S) (hC : k ∈ C) : Pins S C n (c.touch r) :=
  h.touch fun _ => by
    rw [hr]
    exact ⟨hS, hC⟩

theorem claim_value (h : Pins S C n c) (content : Content) (dirty : Bool)
    (hv : content.isValue = true) (hS : content.base ∈ S)
    (habsent : ∀ r, (c.slot r).content.base ≠ content.base) (hn : S.length + n ≤ 9) :
    ∃ r, claim (.fresh content dirty) c = .ok r (c.replace r (.fresh content dirty)) ∧
      ¬ (c.slot r).Pinned ∧ Pins S C n (c.replace r (.fresh content dirty)) := by
  obtain ⟨r₀, hr₀⟩ := h.exists_free_of_absent hS habsent hn
  rcases claim_cases c (.fresh content dirty) with ⟨r, hr, hc⟩ | ⟨hall, -⟩
  · refine ⟨r, hc, hr, h.update (r := r) (fun r' => slot_replace_of_ne _ _) ?_ ?_ ?_ ?_⟩
      <;> rw [slot_replace_self]
    · intro ht
      rw [show content = .temp from ht] at hv
      cases hv
    · exact fun _ r' _ => habsent r'
    · exact fun _ _ => hS
    · intro _ _ hk
      cases hk
  · exact absurd (hall r₀) hr₀

theorem claimLoaded (h : Pins S C n c) (content : Content)
    (hv : content.isValue = true) (hS : content.base ∈ S)
    (habsent : ∀ r, (c.slot r).content.base ≠ content.base) (hn : S.length + n ≤ 9) :
    ∃ x c', HostCache.claimLoaded content c = .ok x c' ∧ Pins S C n c' := by
  obtain ⟨r, hc, -, h'⟩ := h.claim_value content false hv hS habsent hn
  exact ⟨_, _, claimLoaded_eq hc, h'.emit _⟩

theorem claimReg (h : Pins S C n c) (content : Content)
    (hv : content.isValue = true) (hS : content.base ∈ S)
    (habsent : ∀ r, (c.slot r).content.base ≠ content.base) (hn : S.length + n ≤ 9) :
    ∃ r, HostCache.claimReg content true c = .ok (.ofSlot r) (c.replace r (.fresh content true)) ∧
      Pins S C n (c.replace r (.fresh content true)) := by
  obtain ⟨r, hc, -, h'⟩ := h.claim_value content true hv hS habsent hn
  exact ⟨r, claimReg_eq hc, h'⟩

theorem allocInLow (h : Pins S C n c)
    (hg : g.val ≠ 0 → .low g none ∈ S ∧ .low g none ∈ C) (hn : S.length + n ≤ 9) :
    ∃ x c', HostCache.allocInLow g c = .ok x c' ∧ Pins S C n c' := by
  by_cases h0 : g.val = 0
  · exact ⟨.rz, c, by rw [HostCache.allocInLow, if_pos h0]; rfl, h⟩
  · rw [allocInLow_eq c h0]
    cases hf : c.findLow? g with
    | some r =>
      exact ⟨_, _, rfl, h.touch_of_base (findLow?_some hf) (hg h0).1 (hg h0).2⟩
    | none => exact h.claimLoaded (.low g none) rfl (hg h0).1 (findLow?_none hf) hn

theorem allocIn32 (h : Pins S C n c) {off : Int} (hS : .word off ∈ S) (hC : .word off ∈ C)
    (hn : S.length + n ≤ 9) : ∃ x c', HostCache.allocIn32 off c = .ok x c' ∧ Pins S C n c' := by
  rw [allocIn32_eq]
  cases hf : c.findWord? off with
  | some r => exact ⟨_, _, rfl, h.touch_of_base (findWord?_some hf) hS hC⟩
  | none => exact h.claimLoaded (.word off) rfl hS (findWord?_none hf) hn

theorem setConst (h : Pins S C n c) {x : HostReg} (v : UInt32)
    (hC : ∀ r, slotOf? x = some r → (c.slot r).busy = true →
      (c.slot r).content.isValue = true → (c.slot r).content.base ∈ C) :
    Pins S C n (c.setConst x v) := by
  unfold HostCache.setConst modifySlot
  split
  · rename_i r hx
    dsimp only
    generalize hs : ({ c.slot r with isConst := true, value := v } : Slot) = s
    have hslot (r' : Fin 9) : ((c.setSlot r s).slot r').content = (c.slot r').content ∧
        ((c.setSlot r s).slot r').busy = (c.slot r').busy := by
      by_cases hr : r = r'
      · subst hr hs
        rw [slot_setSlot_self]
        exact ⟨rfl, rfl⟩
      · rw [slot_setSlot_of_ne _ _ hr]
        exact ⟨rfl, rfl⟩
    constructor
    · simpa only [hslot] using h.distinct
    · simpa only [hslot] using h.busy
    · intro r' hb hv hk
      by_cases hr : r = r'
      · subst hr hs
        rw [slot_setSlot_self] at hb hv ⊢
        exact hC r hx hb hv
      · rw [slot_setSlot_of_ne _ _ hr] at hb hv hk ⊢
        exact h.consts r' hb hv hk
    · simpa only [hslot] using h.temps
  · exact h

theorem emitImplied (h : Pins S C n c) (lo : Fin 9) (ext : Extension)
    (hC : (c.slot r).content.base ∈ C) : Pins S C n (c.emitImplied lo r ext) := by
  have hconst (i : Ir.Instr String) (v : UInt32) :
      Pins S C n ((c.emit i).setConst (.ofSlot r) v) := by
    refine (h.emit i).setConst v fun r' hr' _ _ => ?_
    rw [slotOf?_ofSlot] at hr'
    cases hr'
    exact hC
  cases ext with
  | sign => exact h.emit _
  | zero => exact hconst _ 0
  | one => exact hconst _ 0xffffffff

theorem recast (h : Pins S C n c) {s : Slot} (hv : (c.slot r).content.isValue = true)
    (hs : s.content.base = (c.slot r).content.base)
    (hb : s.busy = true → s.content.base ∈ S)
    (hk : s.busy = true → s.isConst = true → s.content.base ∈ C) : Pins S C n (c.setSlot r s) := by
  refine h.update (r := r) (fun r' => slot_setSlot_of_ne _ _) ?_ ?_ ?_ ?_ <;>
    rw [slot_setSlot_self]
  · intro ht
    rw [ht] at hs
    rw [← Content.isValue_base, ← hs] at hv
    cases hv
  · intro _ r' hr he
    exact hr (h.distinct r r' hv (by rw [he, hs]))
  · exact fun hb' _ => hb hb'
  · exact fun hb' _ hk' => hk hb' hk'

theorem overwrite (h : Pins S C n c) (content : Content)
    (hr : (c.slot r).content.base = content.base) (hv : content.isValue = true)
    (hS : content.base ∈ S) :
    ∃ x c', HostCache.overwrite r content c = .ok x c' ∧ Pins S C n c' := by
  refine ⟨_, _, overwrite_eq c r content, ?_⟩
  have hv' : (c.slot r).content.isValue = true := by
    rw [← Content.isValue_base, hr, Content.isValue_base]
    exact hv
  let s : Slot := ⟨content, true, false, (c.slot r).value, c.clock + 1, true⟩
  refine (h.recast (s := s) hv' hr.symm (fun _ => hS) (fun _ hk => nomatch hk)).of_slots ?_
  intro r'
  by_cases he : r = r'
  · subst he
    rw [slot_touch_self, slot_setSlot_self, slot_setSlot_self]
    rfl
  · rw [slot_touch_of_ne _ he, slot_setSlot_of_ne _ _ he, slot_setSlot_of_ne _ _ he]

theorem materialize (h : Pins S C n c) {lo : Fin 9} {ext : Extension}
    (hlo : (c.slot lo).content = .low g (some ext)) (habsent : c.findHigh? g = none)
    (hhS : .high g ∈ S) (hhC : .high g ∈ C) (hlS : .low g none ∈ S) (hlC : .low g none ∈ C)
    (hn : S.length + n ≤ 9) :
    ∃ x c', HostCache.materialize g lo ext c = .ok x c' ∧ Pins S C n c' := by
  have ht : Pins S C n (c.touch lo) := h.touch_of_base (by rw [hlo]; rfl) hlS hlC
  have habsent' (r : Fin 9) : ((c.touch lo).slot r).content.base ≠ .high g := by
    by_cases hr : lo = r
    · subst hr
      rw [slot_touch_self, hlo]
      exact fun he => nomatch he
    · rw [slot_touch_of_ne _ hr]
      exact findHigh?_none habsent r
  obtain ⟨r, hc, hpin, h'⟩ := ht.claim_value (.high g) (c.slot lo).dirty rfl hhS
    habsent' hn
  have hne : r ≠ lo := by
    rintro rfl
    refine hpin ⟨?_, .inl ?_⟩ <;> rw [slot_touch_self]
    rw [hlo]
    exact fun he => nomatch he
  have himp := h'.emitImplied (r := r) lo ext (by rw [slot_replace_self]; exact hhC)
  have hslot : (((c.touch lo).replace r (.fresh (.high g) (c.slot lo).dirty)).emitImplied lo r
      ext).slot lo = (c.touch lo).slot lo := by
    cases ext with
    | sign => exact slot_replace_of_ne _ _ hne
    | zero | one =>
      rw [HostCache.emitImplied, HostCache.setConst, modifySlot_ofSlot, slot_setSlot_of_ne _ _ hne]
      exact slot_replace_of_ne _ _ hne
  refine ⟨_, _, materialize_eq hc, himp.recast ?_ ?_ (fun _ => hlS) (fun _ _ => hlC)⟩ <;>
    rw [hslot, slot_touch_self, hlo] <;> rfl

theorem allocInHigh (h : Pins S C n c)
    (hg : g.val ≠ 0 → (.high g ∈ S ∧ .high g ∈ C) ∧ .low g none ∈ S ∧ .low g none ∈ C)
    (hn : S.length + n ≤ 9) : ∃ x c', HostCache.allocInHigh g c = .ok x c' ∧ Pins S C n c' := by
  by_cases h0 : g.val = 0
  · exact ⟨.rz, c, by rw [HostCache.allocInHigh, if_pos h0]; rfl, h⟩
  · obtain ⟨⟨hhS, hhC⟩, hlS, hlC⟩ := hg h0
    rw [allocInHigh_eq c h0]
    cases hf : c.findHigh? g with
    | some r => exact ⟨_, _, rfl, h.touch_of_base (findHigh?_some hf) hhS hhC⟩
    | none =>
      have hload := h.claimLoaded (.high g) rfl hhS (findHigh?_none hf) hn
      cases hl : c.findLow? g with
      | none => exact hload
      | some lo =>
        obtain ⟨ext, hext⟩ := Content.base_eq_low (findLow?_some hl)
        cases ext with
        | none => simpa only [hext] using hload
        | some ext => simpa only [hext] using h.materialize hext hf hhS hhC hlS hlC hn

theorem allocOutLow (h : Pins S C n c) (hg : g.val ≠ 0 → .low g none ∈ S ∧ c.HasHigh g)
    (hn : S.length + n ≤ 9) : ∃ x c', HostCache.allocOutLow g c = .ok x c' ∧ Pins S C n c' := by
  by_cases h0 : g.val = 0
  · exact ⟨.rz, c, by rw [HostCache.allocOutLow, if_pos h0]; rfl, h⟩
  · obtain ⟨hS, rh, hrh⟩ := hg h0
    have hhigh : (c.findHigh? g).isNone = false := by
      cases hf : c.findHigh? g with
      | some r => rfl
      | none => exact absurd (by rw [hrh]; rfl) (findHigh?_none hf rh)
    rw [allocOutLow_eq c h0]
    cases hf : c.findLow? g with
    | none =>
      obtain ⟨r, hc, h'⟩ := h.claimReg (.low g none) rfl hS (findLow?_none hf) hn
      exact ⟨_, _, hc, h'⟩
    | some r =>
      have hover := h.overwrite (.low g none) (findLow?_some hf) rfl hS
      obtain ⟨ext, hext⟩ := Content.base_eq_low (findLow?_some hf)
      cases ext with
      | none => simpa only [hext] using hover
      | some ext => simpa only [hext, hhigh, Bool.false_and, Bool.false_eq_true, if_false] using hover

theorem splitLow (h : Pins S C n c) (g : GuestReg) : Pins S C n (c.splitLow g) := by
  unfold HostCache.splitLow
  split
  · rename_i lo hf
    have hbase := findLow?_some hf
    have hv : (c.slot lo).content.isValue = true := by
      rw [← Content.isValue_base, hbase]
      rfl
    refine h.recast hv hbase.symm ?_ ?_
    · intro hb
      have := h.busy lo hb hv
      rwa [hbase] at this
    · intro hb hk
      have := h.consts lo hb hv hk
      rwa [hbase] at this
  · exact h

theorem allocOutHigh (h : Pins S C n c) (hg : g.val ≠ 0 → .high g ∈ S) (hn : S.length + n ≤ 9) :
    ∃ x c', HostCache.allocOutHigh g c = .ok x c' ∧ Pins S C n c' ∧
      (g.val ≠ 0 → c'.HasHigh g) := by
  by_cases h0 : g.val = 0
  · exact ⟨.rz, c, by rw [HostCache.allocOutHigh, if_pos h0]; rfl, h, fun hg => absurd h0 hg⟩
  · have h' := h.splitLow g
    rw [allocOutHigh_eq c h0]
    cases hf : (c.splitLow g).findHigh? g with
    | none =>
      obtain ⟨r, hc, h''⟩ := h'.claimReg (.high g) rfl (hg h0) (findHigh?_none hf) hn
      exact ⟨_, _, hc, h'', fun _ => ⟨r, by rw [slot_replace_self]; rfl⟩⟩
    | some r =>
      obtain ⟨x, c', hc, h''⟩ := h'.overwrite (.high g) (findHigh?_some hf) rfl (hg h0)
      refine ⟨x, c', hc, h'', fun _ => ⟨r, ?_⟩⟩
      cases hc
      rw [slot_touch_self, slot_setSlot_self]

theorem release (h : Pins S C n c) (r : Fin 9) : Pins S C n (c.setSlot r .empty) := by
  refine h.update (r := r) (fun r' => slot_setSlot_of_ne _ _) ?_ ?_ ?_ ?_ <;>
    rw [slot_setSlot_self]
  · exact fun ht => nomatch ht
  · exact fun hv => nomatch hv
  · exact fun hb => nomatch hb
  · exact fun hb => nomatch hb

theorem allocOutExt (h : Pins S C n c) {ext : Extension} (hg : g.val ≠ 0 → .low g none ∈ S)
    (hn : S.length + n ≤ 9) :
    ∃ x c', HostCache.allocOutExt g ext c = .ok x c' ∧ Pins S C n c' := by
  by_cases h0 : g.val = 0
  · exact ⟨.rz, c, by rw [HostCache.allocOutExt, if_pos h0]; rfl, h⟩
  · have h' : Pins S C n (c.dropHigh g) := by
      unfold HostCache.dropHigh
      split
      · exact h.release _
      · exact h
    rw [allocOutExt_eq c ext h0]
    cases hf : (c.dropHigh g).findLow? g with
    | none =>
      obtain ⟨r, hc, h''⟩ := h'.claimReg (.low g (some ext)) rfl (hg h0)
        (findLow?_none hf) hn
      exact ⟨_, _, hc, h''⟩
    | some r => exact h'.overwrite (.low g (some ext)) (findLow?_some hf) rfl (hg h0)

theorem allocOut32 (h : Pins S C n c) {off : Int} (hS : .word off ∈ S) (hn : S.length + n ≤ 9) :
    ∃ x c', HostCache.allocOut32 off c = .ok x c' ∧ Pins S C n c' := by
  rw [allocOut32_eq]
  cases hf : c.findWord? off with
  | none =>
    obtain ⟨r, hc, h'⟩ := h.claimReg (.word off) rfl hS (findWord?_none hf) hn
    exact ⟨_, _, hc, h'⟩
  | some r => exact h.overwrite (.word off) (findWord?_some hf) rfl hS

/-- A temporary takes one more register. -/
theorem claim_temp (h : Pins S C n c) (hn : S.length + n < 9) :
    ∃ r, claim (.fresh .temp false) c = .ok r (c.replace r (.fresh .temp false)) ∧
      Pins S C (n + 1) (c.replace r (.fresh .temp false)) := by
  obtain ⟨r₀, hr₀⟩ := h.exists_free hn
  rcases claim_cases c (.fresh .temp false) with ⟨r, hr, hc⟩ | ⟨hall, -⟩
  · refine ⟨r, hc, ?_⟩
    have hrest (r' : Fin 9) (hr' : r ≠ r') := slot_replace_of_ne c (.fresh .temp false) hr'
    have hself : ((c.replace r (.fresh .temp false)).slot r).content = .temp := by
      rw [slot_replace_self]
      rfl
    have hvalue {r' : Fin 9} (hv : ((c.replace r (.fresh .temp false)).slot r').content.isValue
        = true) : r ≠ r' := by
      rintro rfl
      rw [hself] at hv
      cases hv
    constructor
    · intro r₁ r₂ hv he
      have h₁ := hvalue hv
      have h₂ : r ≠ r₂ := by
        apply hvalue
        rw [← Content.isValue_base, ← he, Content.isValue_base]
        exact hv
      rw [hrest r₁ h₁, hrest r₂ h₂] at he
      rw [hrest r₁ h₁] at hv
      exact h.distinct r₁ r₂ hv he
    · intro r₁ hb hv
      have h₁ := hvalue hv
      rw [hrest r₁ h₁] at hb hv ⊢
      exact h.busy r₁ hb hv
    · intro r₁ hb hv hk
      have h₁ := hvalue hv
      rw [hrest r₁ h₁] at hb hv hk ⊢
      exact h.consts r₁ hb hv hk
    · obtain ⟨rs, hl, hrs⟩ := h.temps
      refine ⟨r :: rs, Nat.succ_le_succ hl, fun r₁ h₁ => ?_⟩
      by_cases he : r = r₁
      · exact List.mem_cons.mpr (.inl he.symm)
      · rw [hrest r₁ he] at h₁
        exact List.mem_cons_of_mem r (hrs r₁ h₁)
  · exact absurd (hall r₀) hr₀

theorem allocTemp (h : Pins S C n c) (hn : S.length + n < 9) :
    ∃ x c', HostCache.allocTemp c = .ok x c' ∧ Pins S C (n + 1) c' := by
  obtain ⟨r, hc, h'⟩ := h.claim_temp hn
  exact ⟨_, _, claimReg_eq hc, h'⟩

theorem allocConst (h : Pins S C n c) (v : UInt32) (hn : S.length + n < 9) :
    ∃ x c', HostCache.allocConst v c = .ok x c' ∧
      ((∃ k, Pins (k :: S) (k :: C) n c') ∨ Pins S C (n + 1) c') := by
  by_cases hv : v = 0
  · refine ⟨.rz, c, by rw [HostCache.allocConst, if_pos hv]; rfl, .inr ?_⟩
    exact h.mono (List.Subset.refl S) (List.Subset.refl C) (Nat.le_succ n)
  · rw [allocConst_eq c hv]
    cases hf : c.findConst? v with
    | some r =>
      refine ⟨_, _, rfl, .inl ⟨(c.slot r).content.base, ?_⟩⟩
      have h' := h.mono (List.subset_cons_self (c.slot r).content.base S)
        (List.subset_cons_self (c.slot r).content.base C) (Nat.le_refl n)
      exact h'.touch fun _ => ⟨List.mem_cons_self, List.mem_cons_self⟩
    | none =>
      obtain ⟨r, hc, h'⟩ := h.claim_temp hn
      rw [show HostCache.allocTemp c = _ from claimReg_eq hc]
      refine ⟨_, _, rfl, .inr ?_⟩
      refine (h'.emit _).setConst v fun r' hr' _ hv' => ?_
      rw [slotOf?_ofSlot] at hr'
      cases hr'
      rw [slot_emit, slot_replace_self] at hv'
      cases hv'

/-- Every register keeps its content, and is pinned and constant only if it was. -/
theorem relax (h : Pins S C n c)
    (hs : ∀ r, c'.slot r = .empty ∨ (c'.slot r).content = (c.slot r).content ∧
      ((c'.slot r).busy = true → (c.slot r).busy = true) ∧
      ((c'.slot r).isConst = true → (c.slot r).isConst = true)) : Pins S C n c' := by
  have hvalue {r : Fin 9} (hv : (c'.slot r).content.isValue = true) :
      (c'.slot r).content = (c.slot r).content ∧
        ((c'.slot r).busy = true → (c.slot r).busy = true) ∧
        ((c'.slot r).isConst = true → (c.slot r).isConst = true) := by
    rcases hs r with he | hr
    · rw [he] at hv
      cases hv
    · exact hr
  constructor
  · intro r r' hv he
    have hv' : (c'.slot r').content.isValue = true := by
      rw [← Content.isValue_base, ← he, Content.isValue_base]
      exact hv
    rw [(hvalue hv).1, (hvalue hv').1] at he
    rw [(hvalue hv).1] at hv
    exact h.distinct r r' hv he
  · intro r hb hv
    obtain ⟨hc, hb', -⟩ := hvalue hv
    rw [hc] at hv ⊢
    exact h.busy r (hb' hb) hv
  · intro r hb hv hk
    obtain ⟨hc, hb', hk'⟩ := hvalue hv
    rw [hc] at hv ⊢
    exact h.consts r (hb' hb) hv (hk' hk)
  · obtain ⟨rs, hl, hrs⟩ := h.temps
    refine ⟨rs, hl, fun r hr => hrs r ?_⟩
    rcases hs r with he | ⟨hc, -⟩
    · rw [he] at hr
      cases hr
    · rw [← hc]
      exact hr

/-- Storing all registers releases those without a constant. -/
theorem flushAll (h : Pins S C n c) : Pins C C n c.flushAll := by
  have hslot (r : Fin 9) : c.flushAll.slot r = .empty ∨
      c.flushAll.slot r = { c.slot r with dirty := false } ∧
        ((c.slot r).content = .temp ∨ (c.slot r).isConst = true) := by
    rw [slot_flushAll]
    split
    · exact .inl rfl
    · rename_i hr
      refine .inr ⟨rfl, ?_⟩
      cases hk : (c.slot r).isConst with
      | true => exact .inr rfl
      | false => exact .inl (by simpa [hk] using hr)
  have h' : Pins S C n c.flushAll := h.relax fun r => by
    rcases hslot r with he | ⟨he, -⟩
    · exact .inl he
    · rw [he]
      exact .inr ⟨rfl, id, id⟩
  refine { h' with busy := fun r hb hv => h'.consts r hb hv ?_ }
  rcases hslot r with he | ⟨he, hk⟩
  · rw [he] at hv
    cases hv
  · rw [he] at hv ⊢
    rcases hk with ht | hk
    · rw [ht] at hv
      cases hv
    · exact hk

/-- The registers of a finished instruction are not pinned. -/
theorem endSlots (h : Pins S C n c) (hs : ∀ r, c'.slot r = endSlot (c.slot r)) :
    Pins [] [] 0 c' := by
  have hslot (r : Fin 9) : c'.slot r = .empty ∨
      (c.slot r).content ≠ .temp ∧ c'.slot r = { c.slot r with busy := false } := by
    rw [hs r, endSlot]
    split
    · exact .inl rfl
    · rename_i ht
      exact .inr ⟨by simpa using ht, rfl⟩
  have hbusy (r : Fin 9) : (c'.slot r).busy = false := by
    rcases hslot r with he | ⟨-, he⟩
    · rw [he]
      rfl
    · rw [he]
  have h' : Pins S C n c' := h.relax fun r => by
    rcases hslot r with he | ⟨-, he⟩
    · exact .inl he
    · rw [he]
      exact .inr ⟨rfl, fun hb => (nomatch hb), id⟩
  refine ⟨h'.distinct, fun r hb => ?_, fun r hb => ?_, [], Nat.le_refl 0, fun r ht => ?_⟩
  · rw [hbusy r] at hb
    cases hb
  · rw [hbusy r] at hb
    cases hb
  · rcases hslot r with he | ⟨hne, he⟩ <;> rw [he] at ht
    · cases ht
    · exact absurd ht hne

end Pins

/-- The pinned floating-point registers hold values of `values`, and no value is in two
registers. -/
structure FpPins (values : List (FpSize × Int)) (c : HostCache) : Prop where
  distinct : ∀ r r' x, (c.fpSlots.get r).content = some x → (c.fpSlots.get r').content = some x →
    r = r'
  busy : ∀ r x, (c.fpSlots.get r).busy = true → (c.fpSlots.get r).content = some x → x ∈ values

/-- The value at `off` is one of `values`, or shares no bytes with them. -/
def FpApart (values : List (FpSize × Int)) (size : FpSize) (off : Int) : Prop :=
  ∀ x ∈ values, x = (size, off) ∨
    x.2 + FpSlot.sizeBytes x.1 ≤ off ∨ off + FpSlot.sizeBytes size ≤ x.2

namespace FpPins

open HostCache

variable {L : List (FpSize × Int)} {c c' : HostCache} {size : FpSize} {off : Int}

/-- One register changes, to a value that no other one holds or to nothing. -/
theorem update (h : FpPins L c) {r : Fin 8} {s : FpSlot} {f : HostCache}
    (hf : f.fpSlots = c.fpSlots.put r s)
    (hd : ∀ x r', r ≠ r' → s.content = some x → (c.fpSlots.get r').content ≠ some x)
    (hb : ∀ x, s.busy = true → s.content = some x → x ∈ L) : FpPins L f where
  distinct r₁ r₂ x h₁ h₂ := by
    rw [hf] at h₁ h₂
    by_cases e₁ : r = r₁
    · subst e₁
      by_cases e₂ : r = r₂
      · exact e₂
      · rw [Vector.get_put_self] at h₁
        rw [Vector.get_put_of_ne _ _ e₂] at h₂
        exact absurd h₂ (hd x r₂ e₂ h₁)
    · rw [Vector.get_put_of_ne _ _ e₁] at h₁
      by_cases e₂ : r = r₂
      · subst e₂
        rw [Vector.get_put_self] at h₂
        exact absurd h₁ (hd x r₁ e₁ h₂)
      · rw [Vector.get_put_of_ne _ _ e₂] at h₂
        exact h.distinct r₁ r₂ x h₁ h₂
  busy r₁ x := by
    rw [hf]
    by_cases e₁ : r = r₁
    · subst e₁
      rw [Vector.get_put_self]
      exact hb x
    · rw [Vector.get_put_of_ne _ _ e₁]
      exact h.busy r₁ x

theorem of_fpSlots (h : FpPins L c) (hf : c'.fpSlots = c.fpSlots) : FpPins L c' := by
  constructor
  · simpa only [hf] using h.distinct
  · simpa only [hf] using h.busy

theorem mono {L' : List (FpSize × Int)} (h : FpPins L c) (hL : L ⊆ L') : FpPins L' c :=
  ⟨h.distinct, fun r x hb hx => hL (h.busy r x hb hx)⟩

theorem fpWriteback (h : FpPins L c) (r : Fin 8) : FpPins L (c.fpWriteback r) := by
  refine h.update (fpSlots_fpWriteback c r) ?_ (fun x => h.busy r x)
  intro x r' hr hx hx'
  exact hr (h.distinct r r' x hx hx')

theorem fpFree (h : FpPins L c) (r : Fin 8) : FpPins L (c.fpFree r) :=
  (h.fpWriteback r).update rfl (fun _ _ _ hx => nomatch hx) (fun _ hb => nomatch hb)

theorem foldl {α : Type} {f : HostCache → α → HostCache}
    (hf : ∀ c a, FpPins L c → FpPins L (f c a)) (as : List α) (h : FpPins L c) :
    FpPins L (as.foldl f c) := by
  induction as generalizing c with
  | nil => exact h
  | cons a as ih => exact ih (hf c a h)

theorem flushAll (h : FpPins L c) : FpPins L c.flushAll := by
  have hpass (c : HostCache) (extended : Bool) (h : FpPins L c) :
      FpPins L (c.flushPass 0 extended) := by
    refine foldl (fun c r h => ?_) _ h
    split
    · exact h.of_fpSlots (Extends.writeback c r).fpSlots
    · exact h
  have hstored := foldl (fun _ r h => h.fpFree r) (List.finRange 8)
    (hpass _ true (hpass c false h))
  refine foldl (fun c r h => ?_) _ hstored
  dsimp only
  split
  · exact h.of_fpSlots rfl
  · exact h

theorem clobberFp (h : FpPins L c) (off size : Int) : FpPins L (c.clobberFp off size) := by
  refine foldl (fun c r h => ?_) _ h
  split
  · exact h.fpFree r
  · exact h

theorem endSlots (h : FpPins L c) (hs : c'.fpSlots = c.fpSlots.map endFpSlot) : FpPins [] c' := by
  constructor
  · intro r r' x hx hx'
    rw [hs, Vector.get_map] at hx hx'
    exact h.distinct r r' x hx hx'
  · intro r x hb
    rw [hs, Vector.get_map] at hb
    cases hb

theorem fpTouch (h : FpPins L c) {r : Fin 8} {x : FpSize × Int}
    (hr : (c.fpSlots.get r).content = some x) : FpPins (x :: L) (c.fpTouch r) := by
  refine (h.mono (List.subset_cons_self x L)).update rfl ?_ ?_
  · intro y r' hne hy hy'
    exact hne (h.distinct r r' y hy hy')
  · intro y _ hy
    have hxy : some y = some x := hy.symm.trans hr
    cases hxy
    exact List.mem_cons_self

theorem fpEvictPartial (h : FpPins L c) (ha : FpApart L size off) (r : Fin 8) :
    ∃ c', HostCache.fpEvictPartial size off r c = .ok () c' ∧ FpPins L c' ∧ Appends c c' ∧
      c'.slots = c.slots := by
  simp only [HostCache.fpEvictPartial, bind, EStateM.bind, get, getThe, MonadStateOf.get,
    EStateM.get]
  by_cases hp : (c.fpSlots.get r).content ≠ some (size, off) ∧
      (c.fpSlots.get r).overlaps off (FpSlot.sizeBytes size) = true
  · have hidle : ¬ (c.fpSlots.get r).busy = true := by
      intro hb
      obtain ⟨hne, ho⟩ := hp
      unfold FpSlot.overlaps at ho
      split at ho
      · rename_i size' off' hx
        rcases ha _ (h.busy r _ hb hx) with he | hapart
        · exact hne (by rw [hx, he])
        · simp only [Bool.and_eq_true, decide_eq_true_eq] at ho
          dsimp only at hapart
          omega
      · cases ho
    rw [if_pos hp, if_neg hidle]
    exact ⟨_, rfl, h.fpFree r, .fpFree c r, slots_fpWriteback c r⟩
  · rw [if_neg hp]
    exact ⟨_, rfl, h, .refl c, rfl⟩

theorem fpFind? (h : FpPins L c) (ha : FpApart L size off) :
    ∃ o c', HostCache.fpFind? size off c = .ok o c' ∧ FpPins L c' ∧ Appends c c' ∧
      c'.slots = c.slots ∧ (∀ r, o = some r → (c'.fpSlots.get r).content = some (size, off)) ∧
      (o = none → ∀ r, (c'.fpSlots.get r).content ≠ some (size, off)) := by
  have hloop (rs : List (Fin 8)) (c : HostCache) (h : FpPins L c) :
      ∃ c', (forIn rs PUnit.unit fun r (_ : PUnit) => do
        HostCache.fpEvictPartial size off r
        pure (ForInStep.yield PUnit.unit) : CacheM PUnit) c = .ok () c' ∧ FpPins L c' ∧
        Appends c c' ∧ c'.slots = c.slots := by
    induction rs generalizing c with
    | nil => exact ⟨c, rfl, h, .refl c, rfl⟩
    | cons r rs ih =>
      obtain ⟨c₁, hc₁, h₁, ha₁, hs₁⟩ := h.fpEvictPartial ha r
      obtain ⟨c₂, hc₂, h₂, ha₂, hs₂⟩ := ih c₁ h₁
      refine ⟨c₂, ?_, h₂, ha₁.trans ha₂, hs₂.trans hs₁⟩
      simp only [List.forIn_cons, bind, EStateM.bind, hc₁, pure, EStateM.pure]
      exact hc₂
  obtain ⟨c', hc', h', happ, hs⟩ := hloop (List.finRange 8) c h
  refine ⟨(List.finRange 8).find? fun r => (c'.fpSlots.get r).content == some (size, off), c', ?_,
    h', happ, hs, ?_, ?_⟩
  · simp only [HostCache.fpFind?, bind, EStateM.bind]
    simp only [bind] at hc'
    rw [hc']
    rfl
  · intro r hr
    simpa using List.find?_some hr
  · intro hr r
    simpa using List.find?_eq_none.mp hr r (List.mem_finRange r)

/-- The choice of a victim fails only if every register is in use. -/
theorem exists_victim (h : FpPins L c) (hL : L.length < 8)
    (hfull : ∀ r, (c.fpSlots.get r).content.isNone = false) : c.fpVictim? ≠ none := by
  intro hnone
  have hbusy := (fpVictimFrom_none hnone).2
  have hlen : ((List.finRange 8).map fun r => (c.fpSlots.get r).content).length ≤
      (L.map some).length := by
    refine List.Nodup.length_le_of_subset ?_ ?_
    · rw [List.Nodup, List.pairwise_map]
      refine List.Pairwise.imp ?_ (List.nodup_finRange 8)
      intro r r' hne he
      cases hx : (c.fpSlots.get r).content with
      | none =>
        have := hfull r
        rw [hx] at this
        cases this
      | some x => exact hne (h.distinct r r' x hx (he ▸ hx))
    · intro o ho
      obtain ⟨r, hr, rfl⟩ := List.mem_map.mp ho
      cases hx : (c.fpSlots.get r).content with
      | none =>
        have := hfull r
        rw [hx] at this
        cases this
      | some x => exact List.mem_map.mpr ⟨x, h.busy r x (hbusy r hr) hx, rfl⟩
  simp only [List.length_map, List.length_finRange] at hlen
  omega

/-- A value that no register holds gets one, while less than eight are in use. -/
theorem fpClaim (h : FpPins L c) (dirty : Bool) (hL : L.length < 8)
    (habsent : ∀ r, (c.fpSlots.get r).content ≠ some (size, off)) :
    ∃ x c', HostCache.fpClaim size off dirty c = .ok x c' ∧ FpPins ((size, off) :: L) c' ∧
      Appends c c' ∧ c'.slots = c.slots := by
  let s : FpSlot := { FpSlot.empty with content := some (size, off), dirty }
  have hput (c₀ : HostCache) (h₀ : FpPins L c₀) (r : Fin 8)
      (habsent : ∀ r, (c₀.fpSlots.get r).content ≠ some (size, off)) :
      FpPins ((size, off) :: L) ({ c₀ with fpSlots := c₀.fpSlots.put r s }.fpTouch r) := by
    refine fpTouch (x := (size, off)) (h₀.update (s := s) rfl ?_ (fun x hb => nomatch hb))
      (congrArg FpSlot.content (Vector.get_put_self _ _ _))
    intro x r' _ hx
    cases hx
    exact habsent r'
  simp only [HostCache.fpClaim, bind, EStateM.bind, get, getThe, MonadStateOf.get, EStateM.get]
  cases hf : (List.finRange 8).find? fun r => (c.fpSlots.get r).content.isNone with
  | some r => exact ⟨_, _, rfl, hput c h r habsent, .of_builder rfl rfl, rfl⟩
  | none =>
    have hfull (r : Fin 8) : (c.fpSlots.get r).content.isNone = false :=
      Bool.eq_false_iff.mpr (List.find?_eq_none.mp hf r (List.mem_finRange r))
    cases hv : c.fpVictim? with
    | none => exact absurd hv (h.exists_victim hL hfull)
    | some r =>
      refine ⟨_, _, rfl, hput _ (h.fpWriteback r) r ?_, ?_, ?_⟩
      · intro r'
        have hcontent : ((c.fpWriteback r).fpSlots.get r').content =
            (c.fpSlots.get r').content := by
          rw [fpSlots_fpWriteback]
          by_cases he : r = r'
          · subst he
            rw [Vector.get_put_self]
          · rw [Vector.get_put_of_ne _ _ he]
        rw [hcontent]
        exact habsent r'
      · exact (Appends.fpWriteback c r).trans (.of_builder rfl rfl)
      · exact slots_fpWriteback c r

theorem allocInFp (h : FpPins L c) (ha : FpApart L size off) (hL : L.length < 8) :
    ∃ x c', HostCache.allocInFp off size c = .ok x c' ∧ FpPins ((size, off) :: L) c' ∧
      Appends c c' ∧ c'.slots = c.slots := by
  obtain ⟨o, c₁, hc₁, h₁, ha₁, hs₁, hsome, hnone⟩ := h.fpFind? ha
  simp only [HostCache.allocInFp, bind, EStateM.bind, hc₁]
  cases o with
  | some r =>
    exact ⟨_, _, rfl, h₁.fpTouch (hsome r rfl), ha₁.trans (.of_builder rfl rfl), hs₁⟩
  | none =>
    obtain ⟨x, c₂, hc₂, h₂, ha₂, hs₂⟩ := h₁.fpClaim false hL (hnone rfl)
    simp only [EStateM.bind, hc₂]
    exact ⟨_, _, rfl, h₂.of_fpSlots rfl,
      (ha₁.trans ha₂).trans (.emit c₂ (i := .fld size off x) rfl), hs₂.trans hs₁⟩

theorem allocOutFp (h : FpPins L c) (ha : FpApart L size off) (hL : L.length < 8) :
    ∃ x c', HostCache.allocOutFp off size c = .ok x c' ∧ FpPins ((size, off) :: L) c' ∧
      Appends c c' ∧ c'.slots = c.slots := by
  obtain ⟨o, c₁, hc₁, h₁, ha₁, hs₁, hsome, hnone⟩ := h.fpFind? ha
  simp only [HostCache.allocOutFp, bind, EStateM.bind, hc₁]
  cases o with
  | some r =>
    have h' : FpPins L { c₁ with
        fpSlots := c₁.fpSlots.put r { (c₁.fpSlots.get r) with dirty := true } } := by
      refine h₁.update rfl ?_ (fun x => h₁.busy r x)
      exact fun x r' hne hx hx' => hne (h₁.distinct r r' x hx hx')
    refine ⟨_, _, rfl, h'.fpTouch ?_, ha₁.trans (.of_builder rfl rfl), hs₁⟩
    exact (congrArg FpSlot.content (Vector.get_put_self _ _ _)).trans (hsome r rfl)
  | none =>
    obtain ⟨x, c₂, hc₂, h₂, ha₂, hs₂⟩ := h₁.fpClaim true hL (hnone rfl)
    exact ⟨x, c₂, hc₂, h₂, ha₁.trans ha₂, hs₂.trans hs₁⟩

end FpPins

end Recompiler
