import Recompiler.Proofs.Assignments
import Recompiler.Proofs.Ledgers

/-!
Registers while code is being emitted. Machines that run the code so far agree on every register
that is in use, but for those that are still to be written: a request returns a register on which
they agree, or leaves one to be written, and what it stores to make room they agree on.
-/

namespace Recompiler

open Ir Emit

variable {G : Pledges} {K K' V V' : Set Loc} {temps temps' : List HostReg} {owed owed' : List Due}
  {c c' : HostCache} {r r' : Fin 9} {x : HostReg} {y : FpReg} {g : GuestReg} {w k : Content}
  {size : FpSize} {off : Int}

namespace Slot.Backs

variable {s : Slot}

theorem mono (h : s.Backs K temps owed r) (hk : ∀ x, .reg x ∈ K → .reg x ∈ K') :
    s.Backs K' temps owed r :=
  { h with
    known := fun hv => (h.known hv).imp_left (hk _)
    const := fun hc => ⟨hk _ (h.const hc).1, (h.const hc).2⟩ }

theorem owe (h : s.Backs K temps owed r) (hx : x ≠ .ofSlot r) :
    s.Backs K temps (.word x k :: owed) r :=
  { h with
    known := fun hv => (h.known hv).imp_right fun ⟨value, hm⟩ => ⟨value, List.mem_cons_of_mem _ hm⟩
    due := fun value hm => by
      rcases List.mem_cons.mp hm with he | hm
      · cases he
        exact absurd rfl hx
      · exact h.due value hm }

theorem settle {d : Due} (h : s.Backs K temps (d :: owed) r) (hd : d.loc ∈ K) :
    s.Backs K temps owed r :=
  { h with
    known := fun hv => by
      rcases h.known hv with hm | ⟨value, hm⟩
      · exact .inl hm
      · rcases List.mem_cons.mp hm with rfl | hm
        · exact .inl hd
        · exact .inr ⟨value, hm⟩
    due := fun value hm => h.due value (List.mem_cons_of_mem _ hm) }

theorem touch (h : s.Backs K temps owed r) (stamp : Nat) :
    ({ s with stamp := stamp, busy := true } : Slot).Backs K temps owed r :=
  { h with due := fun value hm => ⟨rfl, (h.due value hm).2⟩ }

theorem pinned_of_owed (h : s.Backs K temps owed r) (hm : .word (.ofSlot r) k ∈ owed) :
    s.Pinned := by
  obtain ⟨hb, hv, -⟩ := h.due k hm
  refine ⟨?_, .inl hb⟩
  rintro he
  rw [he] at hv
  cases hv

theorem pinned_of_temp (h : s.Backs K temps owed r) (hm : .ofSlot r ∈ temps) : s.Pinned := by
  have ht := h.temp hm
  exact ⟨by rw [ht]; rintro ⟨⟩, .inr ht⟩

theorem empty (ht : .ofSlot r ∉ temps) (hd : ∀ k, .word (.ofSlot r) k ∉ owed) :
    Slot.empty.Backs K temps owed r where
  known hv := by cases hv
  place hv := by cases hv
  const hc := by cases hc
  temp hm := absurd hm ht
  due k hm := absurd hm (hd k)

theorem recast (h : s.Backs K temps owed r) (hk : s.content.base = k)
    (hv : w.isValue = true) (hb : w.base = k) (hp : 64 ≤ w.offset) :
    ({ s with content := w } : Slot).Backs K temps owed r := by
  have hvs : s.content.isValue = true := by
    rw [← Content.isValue_base, hk, ← hb, Content.isValue_base]
    exact hv
  exact {
    known := fun _ => h.known hvs
    place := fun _ => hp
    const := fun hc => ⟨(h.const hc).1, .inl hv⟩
    temp := fun hm => by
      rw [h.temp hm] at hvs
      cases hvs
    due := fun value hm => ⟨(h.due value hm).1, hv, by rw [hb, ← hk]; exact (h.due value hm).2.2⟩ }

end Slot.Backs

namespace FpSlot.Backs

variable {s : FpSlot} {r : Fin 8}

theorem mono (h : s.Backs K owed r) (hk : ∀ y, .fp y ∈ K → .fp y ∈ K') : s.Backs K' owed r :=
  ⟨fun hc => (h.known hc).imp_left (hk _), h.place⟩

theorem owe (h : s.Backs K owed r) (d : Due) : s.Backs K (d :: owed) r :=
  ⟨fun hc => (h.known hc).imp_right fun hm => List.mem_cons_of_mem _ hm, h.place⟩

theorem settle {d : Due} (h : s.Backs K (d :: owed) r) (hd : d.loc ∈ K) : s.Backs K owed r := by
  refine ⟨fun hc => ?_, h.place⟩
  rcases h.known hc with hm | hm
  · exact .inl hm
  · rcases List.mem_cons.mp hm with rfl | hm
    · exact .inl hd
    · exact .inr hm

theorem empty : FpSlot.empty.Backs K owed r :=
  ⟨fun hc => absurd rfl hc, by rintro _ _ ⟨⟩⟩

end FpSlot.Backs

namespace Backs

variable {s : Snapshot}

theorem mono_regs (h : Backs K temps owed s) (hk : ∀ l ∈ K, (∀ r, l ≠ .save r) → l ∈ K') :
    Backs K' temps owed s where
  zero := hk _ h.zero fun _ => Loc.noConfusion
  held := h.held
  slot r := (h.slot r).mono fun _ hm => hk _ hm fun _ => Loc.noConfusion
  fpSlot r := (h.fpSlot r).mono fun _ hm => hk _ hm fun _ => Loc.noConfusion

theorem mono (h : Backs K temps owed s) (hk : K ⊆ K') : Backs K' temps owed s :=
  h.mono_regs fun _ hm _ => hk hm

end Backs

/-- The code so far keeps its pledges, and machines that get to its end agree at least on `V`, and
on all registers that are in use. -/
def Backed (G : Pledges) (V : Set Loc) (temps : List HostReg) (owed : List Due)
    (c : HostCache) : Prop :=
  ∃ K, V ⊆ K ∧ Emit.Page G K c.builder ∧ Backs K temps owed c.snapshot

namespace Backed

open HostCache

theorem mono (h : Backed G V temps owed c) (hV : V' ⊆ V) : Backed G V' temps owed c := by
  obtain ⟨K, hk, h⟩ := h
  exact ⟨K, hV.trans hk, h⟩

theorem zero (h : Backed G V temps owed c) : Backed G (insert (.reg .rz) V) temps owed c := by
  obtain ⟨K, hk, hp, hs⟩ := h
  exact ⟨K, Set.insert_subset hs.zero hk, hp, hs⟩

theorem settle {d : Due} (h : Backed G V temps (d :: owed) c) (hd : d.loc ∈ V) :
    Backed G V temps owed c := by
  obtain ⟨K, hk, hp, hs⟩ := h
  exact ⟨K, hk, hp, hs.zero, hs.held, fun r => (hs.slot r).settle (hk hd),
    fun r => (hs.fpSlot r).settle (hk hd)⟩

theorem change (h : Backed G V temps owed c) (hb : c'.builder = c.builder)
    (ht : ∀ x ∈ temps', ∃ r : Fin 9, x = .ofSlot r)
    (hs : ∀ K, V ⊆ K → ∀ r, (c.slot r).Backs K temps owed r → (c'.slot r).Backs K temps' owed' r)
    (hf : ∀ K, V ⊆ K → ∀ r, (c.fpSlots.get r).Backs K owed r →
      (c'.fpSlots.get r).Backs K owed' r) : Backed G V temps' owed' c' := by
  obtain ⟨K, hk, hp, h⟩ := h
  exact ⟨K, hk, hb ▸ hp, h.zero, ht, fun r => hs K hk r (h.slot r),
    fun r => hf K hk r (h.fpSlot r)⟩

theorem held (h : Backed G V temps owed c) : ∀ x ∈ temps, ∃ r : Fin 9, x = .ofSlot r := by
  obtain ⟨K, -, -, h⟩ := h
  exact h.held

theorem perm (h : Backed G V temps owed c) (ho : owed.Perm owed') : Backed G V temps owed' c := by
  refine h.change rfl h.held (fun K _ r hr => ?_) fun K _ q hq => ?_
  · exact { hr with
      known := fun hv => (hr.known hv).imp_right fun ⟨k, hm⟩ => ⟨k, ho.mem_iff.mp hm⟩
      due := fun k hm => hr.due k (ho.mem_iff.mpr hm) }
  · exact ⟨fun hc => (hq.known hc).imp_right ho.mem_iff.mp, hq.place⟩

theorem setSlot {s : Slot} (h : Backed G V temps owed c)
    (hs : ∀ K, V ⊆ K → (c.slot r).Backs K temps owed r → s.Backs K temps owed r) :
    Backed G V temps owed (c.setSlot r s) := by
  refine h.change rfl h.held (fun K hk r' hr' => ?_) fun _ _ _ hr' => hr'
  by_cases he : r = r'
  · subst he
    rw [slot_setSlot_self]
    exact hs K hk hr'
  · rw [slot_setSlot_of_ne _ _ he]
    exact hr'

theorem setSlot_owe {s : Slot} (h : Backed G V temps owed c)
    (hs : ∀ K, V ⊆ K → (c.slot r).Backs K temps owed r →
      s.Backs K temps (.word (.ofSlot r) k :: owed) r) :
    Backed G V temps (.word (.ofSlot r) k :: owed) (c.setSlot r s) := by
  refine h.change rfl h.held (fun K hk r' hr' => ?_) fun _ _ _ hr' => hr'.owe _
  by_cases he : r = r'
  · subst he
    rw [slot_setSlot_self]
    exact hs K hk hr'
  · rw [slot_setSlot_of_ne _ _ he]
    exact hr'.owe fun hx => he (Machine.ofSlot_inj hx)

theorem touch (h : Backed G V temps owed c) (r : Fin 9) : Backed G V temps owed (c.touch r) := by
  refine h.change rfl h.held (fun K hk r' hr' => ?_) fun _ _ _ hr' => hr'
  by_cases he : r = r'
  · subst he
    rw [slot_touch_self]
    exact hr'.touch _
  · rwa [slot_touch_of_ne _ he]

theorem found (h : Backed G V temps owed c) (hv : (c.slot r).content.isValue = true)
    (hd : ∀ k, .word (.ofSlot r) k ∉ owed) :
    Backed G (insert (.reg (.ofSlot r)) V) temps owed c := by
  obtain ⟨K, hk, hp, hs⟩ := h
  have hm : Loc.reg (.ofSlot r) ∈ K :=
    ((hs.slot r).known hv).resolve_right fun ⟨k, hm⟩ => hd k hm
  exact ⟨K, Set.insert_subset hm hk, hp, hs⟩

theorem notOwed (h : Backed G V temps owed c) (hr : (c.slot r).content.base = k)
    (hd : ∀ x, .word x k ∉ owed) (k' : Content) : .word (.ofSlot r) k' ∉ owed := by
  obtain ⟨K, -, -, hs⟩ := h
  intro hm
  have hk' : (c.slot r).content.base = k' := ((hs.slot r).due k' hm).2.2
  rw [hr] at hk'
  exact hd _ (hk' ▸ hm)

theorem notOwed_of_unpinned (h : Backed G V temps owed c) (hr : ¬ (c.slot r).Pinned)
    (k : Content) : .word (.ofSlot r) k ∉ owed := by
  obtain ⟨K, -, -, hs⟩ := h
  exact fun hm => hr ((hs.slot r).pinned_of_owed hm)

theorem emit {i : Ir.Instr String} (h : Backed G V temps owed c) (hi : i.isPlain = true)
    (hs : ∀ l ∈ i.sources, l = .reg .rz ∨ l ∈ V) (hb : i.IsBlind)
    (hV : ∀ l ∈ V', l ∈ V ∨ l ∈ i.results) : Backed G V' temps owed (c.emit i) := by
  obtain ⟨K, hk, hp, hc⟩ := h
  refine ⟨K ∪ { l | l ∈ i.results }, fun l hl => (hV l hl).imp_left fun hm => hk hm,
    hp.pass hi (.plain (fun l hl => ?_) hb fun l hl => hl), hc.mono Set.subset_union_left⟩
  rcases hs l hl with rfl | hm
  · exact hc.zero
  · exact hk hm

theorem store {i : Ir.Instr String} (h : Backed G V temps owed c) (hi : i.isPlain = true)
    (hs : ∀ l ∈ i.sources, l = .reg .rz ∨ l ∈ V) (hb : i.IsBlind) :
    Backed G V temps owed (c.emit i) := h.emit hi hs hb fun _ hl => .inl hl

theorem write {i : Ir.Instr String} {l : Loc} (h : Backed G V temps owed c)
    (hi : i.isPlain = true) (hr : i.results = [l])
    (hs : ∀ l ∈ i.sources, l = .reg .rz ∨ l ∈ V) (hb : i.IsBlind) :
    Backed G (insert l V) temps owed (c.emit i) :=
  h.emit hi hs hb fun l' hl' => by
    rw [hr, List.mem_singleton]
    exact hl'.symm

/-- Code that stores a register. -/
theorem stores_writebackCode {s : Slot} {i : Ir.Instr String} (hi : i ∈ writebackCode r s) :
    i.isPlain = true ∧ i.results = [] ∧ i.IsBlind ∧ s.content.isValue = true ∧
      ∀ l ∈ i.sources, l = .reg (.ofSlot r) := by
  unfold writebackCode at hi
  split at hi
  · cases hc : s.content with
    | unused | temp => simp [hc] at hi
    | high g | word off =>
      simp only [hc, List.mem_singleton] at hi
      subst hi
      exact ⟨rfl, rfl, trivial, rfl, fun l hl => List.mem_singleton.mp hl⟩
    | low g ext =>
      cases ext with
      | none =>
        simp only [hc, List.mem_singleton] at hi
        subst hi
        exact ⟨rfl, rfl, trivial, rfl, fun l hl => List.mem_singleton.mp hl⟩
      | some ext =>
        simp only [hc, List.mem_cons, List.not_mem_nil, or_false] at hi
        rcases hi with rfl | rfl
        · exact ⟨rfl, rfl, trivial, rfl, fun l hl => List.mem_singleton.mp hl⟩
        · cases ext with
          | sign => exact ⟨rfl, rfl, trivial, rfl, fun l hl => List.mem_singleton.mp hl⟩
          | zero | one => exact ⟨rfl, rfl, trivial, rfl, fun l hl => absurd hl List.not_mem_nil⟩
  · cases hi

theorem emitAll {is : List (Ir.Instr String)} (h : Backed G V temps owed c)
    (hi : ∀ i ∈ is, i.isPlain = true ∧ i.IsBlind ∧ ∀ l ∈ i.sources, l ∈ V) :
    Backed G V temps owed (c.emitAll is) := by
  induction is generalizing c with
  | nil => exact h
  | cons i is ih =>
    obtain ⟨hp, hb, hs⟩ := hi i List.mem_cons_self
    exact ih (h.store hp (fun l hl => .inr (hs l hl)) hb) fun j hj =>
      hi j (List.mem_cons_of_mem _ hj)

theorem writeback (h : Backed G V temps owed c) (hd : ∀ k, .word (.ofSlot r) k ∉ owed) :
    Backed G V temps owed (c.writeback r) := by
  rw [writeback_eq]
  have hstored : Backed G V temps owed (c.emitAll (writebackCode r (c.slot r))) := by
    by_cases hv : (c.slot r).content.isValue = true
    · refine ((h.found hv hd).emitAll fun i hi => ?_).mono (Set.subset_insert _ V)
      obtain ⟨hp, -, hb, -, hs⟩ := stores_writebackCode hi
      exact ⟨hp, hb, fun l hl => .inl (hs l hl)⟩
    · refine h.emitAll fun i hi => ?_
      exact absurd (stores_writebackCode hi).2.2.2.1 hv
  refine hstored.setSlot fun K _ hr => ?_
  rw [slot_emitAll] at hr
  exact { hr with }

theorem claim {b : Bool} (h : Backed G V temps owed c) (hr : ¬ (c.slot r).Pinned)
    (hv : w.isValue = true) (hp : 64 ≤ w.offset) :
    Backed G V temps (.word (.ofSlot r) w.base :: owed)
      (c.replace r (.fresh w b)) := by
  have hfree : ¬ ((c.writeback r).slot r).Pinned := by
    rw [slot_writeback_self]
    exact hr
  have hnew : Backed G V temps (.word (.ofSlot r) w.base :: owed)
      ((c.writeback r).setSlot r { Slot.fresh w b with busy := true }) := by
    refine (h.writeback (h.notOwed_of_unpinned hr)).setSlot_owe fun K _ hs => ?_
    exact {
      known := fun _ => .inr ⟨_, List.mem_cons_self⟩
      place := fun _ => hp
      const := fun hc => by cases hc
      temp := fun hm => absurd (hs.pinned_of_temp hm) hfree
      due := fun k hm => by
        rcases List.mem_cons.mp hm with he | hm
        · cases he
          exact ⟨rfl, hv, rfl⟩
        · exact absurd (hs.pinned_of_owed hm) hfree }
  refine (hnew.touch r).change rfl hnew.held (fun K _ r' hr' => ?_) fun _ _ _ hr' => hr'
  by_cases he : r = r'
  · subst he
    rw [slot_replace_self]
    rw [slot_touch_self, slot_setSlot_self] at hr'
    exact hr'.touch _
  · rw [slot_replace_of_ne _ _ he]
    rwa [slot_touch_of_ne _ he, slot_setSlot_of_ne _ _ he, slot_writeback_of_ne _ he] at hr'

/-- A new temporary may be kept with the others. -/
theorem claimTemp (h : Backed G V temps owed c) (hr : ¬ (c.slot r).Pinned)
    (ht : temps' = temps ∨ temps' = .ofSlot r :: temps) :
    Backed G V temps' owed (c.replace r (.fresh .temp false)) := by
  have hmem {r' : Fin 9} (hne : r ≠ r') (hm : HostReg.ofSlot r' ∈ temps') : .ofSlot r' ∈ temps := by
    rcases ht with rfl | rfl
    · exact hm
    · exact (List.mem_cons.mp hm).resolve_left fun he => hne (Machine.ofSlot_inj he).symm
  have hsub : temps ⊆ temps' := by
    rcases ht with rfl | rfl
    · exact List.Subset.refl _
    · exact List.subset_cons_self _ _
  have hw := h.writeback (h.notOwed_of_unpinned hr)
  refine hw.change rfl (fun x hx => ?_) (fun K _ r' hr' => ?_) fun _ _ _ hr' => hr'
  · rcases ht with rfl | rfl
    · exact h.held x hx
    · rcases List.mem_cons.mp hx with rfl | hx
      · exact ⟨r, rfl⟩
      · exact h.held x hx
  · by_cases he : r = r'
    · subst he
      rw [slot_replace_self]
      exact {
        known := fun hv => by cases hv
        place := fun hv => by cases hv
        const := fun hc => by cases hc
        temp := fun _ => rfl
        due := fun k hm => absurd hm (h.notOwed_of_unpinned hr k) }
    · rw [slot_replace_of_ne _ _ he]
      rw [slot_writeback_of_ne _ he] at hr'
      exact { hr' with
        const := fun hc => ⟨(hr'.const hc).1, (hr'.const hc).2.imp_right fun hm => hsub hm⟩
        temp := fun hm => hr'.temp (hmem he hm) }

theorem claimReg {b : Bool} (h : Backed G V temps owed c)
    (hx : HostCache.claimReg w b c = .ok x c') (hv : w.isValue = true)
    (hp : 64 ≤ w.offset) : Backed G V temps (.word x w.base :: owed) c' := by
  obtain ⟨r, hr, rfl, rfl⟩ := claimReg_ok hx
  exact h.claim hr hv hp

theorem claimLoaded (h : Backed G V temps owed c) (hx : HostCache.claimLoaded w c = .ok x c')
    (hv : w.isValue = true) (hp : 64 ≤ w.offset) :
    Backed G (insert (.reg x) V) temps owed c' := by
  obtain ⟨r, hr, rfl, rfl⟩ := claimLoaded_ok hx
  exact ((h.claim hr hv hp).write (i := .ldc w.offset (.ofSlot r)) rfl rfl
    (fun _ hl => absurd hl List.not_mem_nil) hp).settle (Set.mem_insert _ _)

theorem reuse (h : Backed G V temps owed c) (hr : (c.slot r).content.base = k)
    (hv : k.isValue = true) (hd : ∀ x, .word x k ∉ owed) :
    Backed G (insert (.reg (.ofSlot r)) V) temps owed (c.touch r) := by
  refine (h.found ?_ (h.notOwed hr hd)).touch r
  rw [← Content.isValue_base, hr, hv]

theorem overwrite (h : Backed G V temps owed c)
    (hx : HostCache.overwrite r w c = .ok x c')
    (hr : (c.slot r).content.base = w.base) (hv : w.isValue = true)
    (hp : 64 ≤ w.offset) : Backed G V temps (.word x w.base :: owed) c' := by
  cases hx
  have hvs : (c.slot r).content.isValue = true := by
    rw [← Content.isValue_base, hr, Content.isValue_base, hv]
  have hnew : Backed G V temps (.word (.ofSlot r) w.base :: owed)
      (c.setSlot r { c.slot r with content := w, dirty := true, isConst := false, busy := true }) := by
    refine h.setSlot_owe fun K _ hs => ?_
    exact {
      known := fun _ => .inr ⟨_, List.mem_cons_self⟩
      place := fun _ => hp
      const := fun hc => by cases hc
      temp := fun hm => by
        rw [hs.temp hm] at hvs
        cases hvs
      due := fun k hm => by
        refine ⟨rfl, hv, ?_⟩
        rcases List.mem_cons.mp hm with he | hm
        · cases he
          rfl
        · exact hr.symm.trans (hs.due k hm).2.2 }
  refine (hnew.touch r).change rfl hnew.held (fun K _ r' hr' => ?_) fun _ _ _ hr' => hr'
  by_cases he : r = r'
  · subst he
    rw [slot_touch_self, slot_setSlot_self]
    rw [slot_touch_self, slot_setSlot_self] at hr'
    exact hr'.touch _
  · rwa [slot_touch_of_ne _ he, slot_setSlot_of_ne _ _ he] at hr' ⊢

theorem setConst (h : Backed G V temps owed c) (hx : .reg x ∈ V)
    (hc : ∀ r, x = .ofSlot r → (c.slot r).content.isValue = true ∨ x ∈ temps) (v : UInt32) :
    Backed G V temps owed (c.setConst x v) := by
  unfold HostCache.setConst modifySlot
  split
  · rename_i r hr
    have hxr : x = .ofSlot r := by
      unfold slotOf? at hr
      split at hr
      · cases hr
        rfl
      · cases hr
    refine h.setSlot fun K hk hs => ?_
    exact { hs with const := fun _ => ⟨hxr ▸ hk hx, hxr ▸ hc r hxr⟩ }
  · exact h

theorem guestPlace (g : GuestReg) : 64 ≤ Layout.lowWord g ∧ 64 ≤ Layout.highWord g := by
  unfold Layout.lowWord Layout.highWord
  omega

theorem materialize {lo : Fin 9} {ext : Extension} (h : Backed G V temps owed c)
    (hx : HostCache.materialize g lo ext c = .ok x c')
    (hlo : (c.slot lo).content = .low g (some ext))
    (hd : ∀ x, .word x (.low g none) ∉ owed) : Backed G (insert (.reg x) V) temps owed c' := by
  obtain ⟨r, hr, rfl, rfl⟩ := materialize_ok hx
  have hbase : (c.slot lo).content.base = .low g none := by rw [hlo]; rfl
  have hne : r ≠ lo := by
    rintro rfl
    refine hr ⟨?_, .inl ?_⟩ <;> rw [slot_touch_self]
    rw [hlo]
    rintro ⟨⟩
  have hclaim := (h.reuse hbase rfl hd).claim (w := .high g) (b := (c.slot lo).dirty) hr
    rfl (guestPlace g).2
  have hconst (c₁ : HostCache) (v : UInt32)
      (hc₁ : Backed G (insert (.reg (.ofSlot lo)) V) temps (.word (.ofSlot r) (.high g) :: owed) c₁)
      (hself : (c₁.slot r).content = .high g) :
      Backed G (insert (.reg (.ofSlot r)) (insert (.reg (.ofSlot lo)) V)) temps owed
        ((c₁.emit (.li v (.ofSlot r))).setConst (.ofSlot r) v) := by
    refine ((hc₁.write (i := .li v (.ofSlot r)) rfl rfl
      (fun _ hl => absurd hl List.not_mem_nil) trivial).settle
      (Set.mem_insert _ _)).setConst (Set.mem_insert _ _) (fun r' he => .inl ?_) v
    cases Machine.ofSlot_inj he
    rw [slot_emit, hself]
    rfl
  have himplied : Backed G (insert (.reg (.ofSlot r)) (insert (.reg (.ofSlot lo)) V)) temps owed
      (((c.touch lo).replace r (.fresh (.high g) (c.slot lo).dirty)).emitImplied lo r ext) := by
    have hself : (((c.touch lo).replace r (.fresh (.high g) (c.slot lo).dirty)).slot r).content =
        .high g := by
      rw [slot_replace_self]
      rfl
    cases ext with
    | sign =>
      refine (hclaim.write (i := .const .sra (.ofSlot lo) 31 (.ofSlot r)) rfl rfl (fun l hl => ?_)
        trivial).settle (Set.mem_insert _ _)
      rw [List.mem_singleton.mp hl]
      exact .inr (Set.mem_insert _ _)
    | zero => exact hconst _ 0 hclaim hself
    | one => exact hconst _ 0xffffffff hclaim hself
  refine (himplied.setSlot (r := lo) fun K _ hs => ?_).mono
    (Set.insert_subset_insert (Set.subset_insert _ V))
  refine hs.recast (k := .low g none) ?_ rfl rfl (guestPlace g).1
  rw [slot_emitImplied_of_ne _ _ _ hne, slot_replace_of_ne _ _ hne, slot_touch_self, hlo]
  rfl

theorem allocInLow (h : Backed G V temps owed c) (hx : HostCache.allocInLow g c = .ok x c')
    (hd : ∀ x, .word x (.low g none) ∉ owed) : Backed G (insert (.reg x) V) temps owed c' := by
  by_cases h0 : g.val = 0
  · rw [HostCache.allocInLow, if_pos h0] at hx
    cases hx
    exact h.zero
  · rw [allocInLow_eq c h0] at hx
    split at hx
    · rename_i r hf
      cases hx
      exact h.reuse (findLow?_some hf) rfl hd
    · exact h.claimLoaded hx rfl (guestPlace g).1

theorem allocInHigh (h : Backed G V temps owed c) (hx : HostCache.allocInHigh g c = .ok x c')
    (hd : ∀ x, .word x (.high g) ∉ owed) (hl : ∀ x, .word x (.low g none) ∉ owed) :
    Backed G (insert (.reg x) V) temps owed c' := by
  by_cases h0 : g.val = 0
  · rw [HostCache.allocInHigh, if_pos h0] at hx
    cases hx
    exact h.zero
  · rw [allocInHigh_eq c h0] at hx
    split at hx
    · rename_i r hf
      cases hx
      exact h.reuse (findHigh?_some hf) rfl hd
    · split at hx
      · rename_i lo hf
        split at hx
        · rename_i g' ext hlo
          obtain ⟨ext', hlo'⟩ := Content.base_eq_low (findLow?_some hf)
          rw [hlo] at hlo'
          cases hlo'
          exact h.materialize hx hlo hl
        · exact h.claimLoaded hx rfl (guestPlace g).2
      · exact h.claimLoaded hx rfl (guestPlace g).2

theorem oweZero (h : Backed G V temps owed c) (k : Content) :
    Backed G V temps (.word .rz k :: owed) c :=
  h.change rfl h.held (fun _ _ r hr => hr.owe (Machine.ofSlot_ne_rz r).symm)
    fun _ _ _ hr => hr.owe _

theorem allocOutLow (h : Backed G V temps owed c) (hx : HostCache.allocOutLow g c = .ok x c')
    (hd : ∀ x, .word x (.low g none) ∉ owed) :
    Backed G V temps (.word x (.low g none) :: owed) c' := by
  by_cases h0 : g.val = 0
  · rw [HostCache.allocOutLow, if_pos h0] at hx
    cases hx
    exact h.oweZero _
  · rw [allocOutLow_eq c h0] at hx
    split at hx
    · exact h.claimReg (w := .low g none) hx rfl (guestPlace g).1
    · rename_i r hf
      have hbase := findLow?_some hf
      have hover {c₁ : HostCache} (h₁ : Backed G V temps owed c₁)
          (hr : (c₁.slot r).content.base = .low g none)
          (hx : HostCache.overwrite r (.low g none) c₁ = .ok x c') :
          Backed G V temps (.word x (.low g none) :: owed) c' :=
        h₁.overwrite (w := .low g none) hx hr rfl (guestPlace g).1
      split at hx
      · rename_i g' ext hlo
        obtain ⟨ext', hlo'⟩ := Content.base_eq_low hbase
        rw [hlo] at hlo'
        cases hlo'
        split at hx
        · split at hx
          · rename_i y c₁ hm
            refine hover ((h.materialize hm hlo hd).mono (Set.subset_insert _ V)) ?_ hx
            obtain ⟨r', -, -, rfl⟩ := materialize_ok hm
            rw [materialized, slot_setSlot_self]
            rfl
          · cases hx
        · exact hover h hbase hx
      · exact hover h hbase hx

theorem splitLow (h : Backed G V temps owed c) (g : GuestReg) :
    Backed G V temps owed (c.splitLow g) := by
  unfold HostCache.splitLow
  split
  · rename_i lo hf
    exact h.setSlot fun K _ hs => hs.recast (findLow?_some hf) rfl rfl (guestPlace g).1
  · exact h

theorem allocOutHigh (h : Backed G V temps owed c) (hx : HostCache.allocOutHigh g c = .ok x c') :
    Backed G V temps (.word x (.high g) :: owed) c' := by
  by_cases h0 : g.val = 0
  · rw [HostCache.allocOutHigh, if_pos h0] at hx
    cases hx
    exact h.oweZero _
  · rw [allocOutHigh_eq c h0] at hx
    split at hx
    · rename_i r hf
      exact (h.splitLow g).overwrite (w := .high g) hx (findHigh?_some hf) rfl
        (guestPlace g).2
    · exact (h.splitLow g).claimReg (w := .high g) hx rfl (guestPlace g).2

theorem dropHigh (h : Backed G V temps owed c) (hd : ∀ x, .word x (.high g) ∉ owed) :
    Backed G V temps owed (c.dropHigh g) := by
  unfold HostCache.dropHigh
  split
  · rename_i hi hf
    have hhigh := findHigh?_some hf
    refine h.setSlot fun K _ hs => .empty (fun hm => ?_) (h.notOwed hhigh hd)
    rw [hs.temp hm] at hhigh
    cases hhigh
  · exact h

theorem allocOutExt {ext : Extension} (h : Backed G V temps owed c)
    (hx : HostCache.allocOutExt g ext c = .ok x c') (hd : ∀ x, .word x (.high g) ∉ owed) :
    Backed G V temps (.word x (.low g none) :: owed) c' := by
  by_cases h0 : g.val = 0
  · rw [HostCache.allocOutExt, if_pos h0] at hx
    cases hx
    exact h.oweZero _
  · rw [allocOutExt_eq c ext h0] at hx
    split at hx
    · rename_i r hf
      exact (h.dropHigh hd).overwrite (w := .low g (some ext)) hx (findLow?_some hf) rfl
        (guestPlace g).1
    · exact (h.dropHigh hd).claimReg (w := .low g (some ext)) hx rfl (guestPlace g).1

theorem allocIn32 (h : Backed G V temps owed c) (hx : HostCache.allocIn32 off c = .ok x c')
    (hp : 64 ≤ off) (hd : ∀ x, .word x (.word off) ∉ owed) :
    Backed G (insert (.reg x) V) temps owed c' := by
  rw [allocIn32_eq] at hx
  split at hx
  · rename_i r hf
    cases hx
    exact h.reuse (findWord?_some hf) rfl hd
  · exact h.claimLoaded hx rfl hp

theorem allocOut32_of_read (h : Backed G V temps owed c)
    (hx : HostCache.allocOut32 off c = .ok x c') (hp : 64 ≤ off)
    (hd : ∀ x, .word x (.word off) ∉ owed) (hr : (c.findWord? off).isSome = true) :
    Backed G V temps owed c' := by
  obtain ⟨r, hf⟩ := Option.isSome_iff_exists.mp hr
  have hbase := findWord?_some hf
  rw [allocOut32_eq, hf] at hx
  have hread : Backed G (insert (.reg (.ofSlot r)) V) temps owed c :=
    h.found (by rw [← Content.isValue_base, hbase]; rfl) (h.notOwed hbase hd)
  have howed := hread.overwrite (w := .word off) hx hbase rfl hp
  cases hx
  exact (howed.settle (Set.mem_insert _ _)).mono (Set.subset_insert _ V)

theorem read_allocIn32 (hx : HostCache.allocIn32 off c = .ok x c') :
    (c'.findWord? off).isSome = true := by
  have hsome {r : Fin 9} (hr : (c'.slot r).content.base = .word off) :
      (c'.findWord? off).isSome = true := by
    cases hf : c'.findWord? off with
    | some r' => rfl
    | none => exact absurd hr (findWord?_none hf r)
  rw [allocIn32_eq] at hx
  split at hx
  · rename_i r hf
    cases hx
    refine hsome (r := r) ?_
    rw [slot_touch_self]
    exact findWord?_some hf
  · obtain ⟨r, -, rfl, rfl⟩ := claimLoaded_ok hx
    refine hsome (r := r) ?_
    rw [slot_emit, slot_replace_self]
    rfl

theorem allocTemp (h : Backed G V temps owed c) (hx : HostCache.allocTemp c = .ok x c')
    (ht : temps' = temps ∨ temps' = x :: temps) : Backed G V temps' owed c' := by
  obtain ⟨r, hr, rfl, rfl⟩ := claimReg_ok hx
  exact h.claimTemp hr ht

theorem allocConst {v : UInt32} (h : Backed G V temps owed c)
    (hx : HostCache.allocConst v c = .ok x c') :
    ∃ temps', (temps' = temps ∨ temps' = x :: temps) ∧
      Backed G (insert (.reg x) V) temps' owed c' := by
  by_cases hv : v = 0
  · rw [HostCache.allocConst, if_pos hv] at hx
    cases hx
    exact ⟨temps, .inl rfl, h.zero⟩
  · rw [allocConst_eq c hv] at hx
    split at hx
    · rename_i r hf
      cases hx
      have hconst : (c.slot r).isConst = true := by
        have := List.find?_some hf
        rw [Bool.and_eq_true] at this
        exact this.1
      obtain ⟨K, hk, hp, hs⟩ := h
      have hm := ((hs.slot r).const hconst).1
      exact ⟨temps, .inl rfl, Backed.touch ⟨K, Set.insert_subset hm hk, hp, hs⟩ r⟩
    · split at hx
      · rename_i y c₁ ht
        cases hx
        refine ⟨x :: temps, .inr rfl, ?_⟩
        refine ((h.allocTemp ht (.inr rfl)).write (i := .li v x) rfl rfl
          (fun _ hl => absurd hl List.not_mem_nil) trivial).setConst (Set.mem_insert _ _)
          (fun _ _ => .inr List.mem_cons_self) v
      · cases hx

theorem setConst_owed (h : Backed G V temps (.word x k :: owed) c) (hx : .reg x ∈ V) (v : UInt32) :
    Backed G V temps owed (c.setConst x v) := by
  refine (h.setConst hx (fun r hr => .inl ?_) v).settle hx
  obtain ⟨K, -, -, hs⟩ := h
  exact ((hs.slot r).due k (hr ▸ List.mem_cons_self)).2.1

theorem fpPut {s : FpSlot} {q : Fin 8} (h : Backed G V temps owed c) (clock : Nat)
    (hs : ∀ K, V ⊆ K → (c.fpSlots.get q).Backs K owed q → s.Backs K owed q) :
    Backed G V temps owed { c with clock := clock, fpSlots := c.fpSlots.put q s } := by
  refine h.change rfl h.held (fun _ _ _ hr' => hr') fun K hk q' hq' => ?_
  by_cases he : q = q'
  · subst he
    rw [Vector.get_put_self]
    exact hs K hk hq'
  · rw [Vector.get_put_of_ne _ _ he]
    exact hq'

theorem fpTouch (h : Backed G V temps owed c) (q : Fin 8) : Backed G V temps owed (c.fpTouch q) :=
  h.fpPut _ fun _ _ hq => ⟨hq.known, hq.place⟩

theorem fpFound {q : Fin 8} (h : Backed G V temps [] c) (hc : (c.fpSlots.get q).content ≠ none) :
    Backed G (insert (.fp (.ofSlot q)) V) temps [] c := by
  obtain ⟨K, hk, hp, hs⟩ := h
  have hm : Loc.fp (.ofSlot q) ∈ K := ((hs.fpSlot q).known hc).resolve_right List.not_mem_nil
  exact ⟨K, Set.insert_subset hm hk, hp, hs⟩

theorem fpWriteback (h : Backed G V temps [] c) (q : Fin 8) :
    Backed G V temps [] (c.fpWriteback q) := by
  unfold HostCache.fpWriteback
  dsimp only
  split
  · cases hc : (c.fpSlots.get q).content with
    | none => exact h.fpPut _ fun K _ hq => ⟨hc ▸ hq.known, hc ▸ hq.place⟩
    | some place =>
      have hfound := h.fpFound (q := q) (by rw [hc]; rintro ⟨⟩)
      have hstored := hfound.store (i := .fst place.1 (.ofSlot q) place.2) rfl (fun l hl => .inr ?_)
        trivial
      · refine (hstored.mono (Set.subset_insert _ V)).fpPut _ fun K _ hq => ?_
        exact ⟨hc ▸ hq.known, hc ▸ hq.place⟩
      · rw [List.mem_singleton.mp hl]
        exact Set.mem_insert _ _
  · exact h

theorem fpFree (h : Backed G V temps [] c) (q : Fin 8) : Backed G V temps [] (c.fpFree q) :=
  (h.fpWriteback q).fpPut _ fun _ _ _ => .empty

theorem freeWhere (h : Backed G V temps [] c) (p : FpSlot → Bool) (qs : List (Fin 8)) :
    Backed G V temps [] (c.freeWhere p qs) := by
  induction qs generalizing c with
  | nil => exact h
  | cons q qs ih =>
    have hstep : Backed G V temps [] (if p (c.fpSlots.get q) then c.fpFree q else c) := by
      split
      · exact h.fpFree q
      · exact h
    exact ih hstep

theorem oweFp (h : Backed G V temps [] c) (y : FpReg) : Backed G V temps [.fp y] c := by
  refine h.change rfl h.held (fun _ _ r hr => ⟨?_, hr.place, hr.const, hr.temp, ?_⟩)
    fun _ _ _ hr => hr.owe _
  · intro hv
    exact .inl ((hr.known hv).resolve_right fun ⟨_, hm⟩ => absurd hm List.not_mem_nil)
  · rintro _ hm
    cases List.mem_singleton.mp hm

theorem fpClaim {dirty : Bool} (h : Backed G V temps [] c)
    (hy : HostCache.fpClaim size off dirty c = .ok y c') (hp : 64 ≤ off) :
    Backed G V temps [.fp y] c' := by
  obtain ⟨q, rfl, -, rfl⟩ := fpClaim_ok hy
  refine ((h.fpWriteback q).oweFp (.ofSlot q)).change rfl h.held (fun _ _ _ hr => hr)
    fun K _ q' hq' => ?_
  rw [FpAgrees.get_fpReplace]
  split
  · rename_i he
    refine ⟨fun _ => .inr ?_, ?_⟩
    · rw [he]
      exact List.mem_singleton_self _
    · rintro _ _ ⟨⟩
      exact hp
  · rename_i hne
    rwa [fpSlots_fpWriteback, Vector.get_put_of_ne _ _ (Ne.symm hne)] at hq'

theorem allocInFp (h : Backed G V temps [] c) (hy : HostCache.allocInFp off size c = .ok y c')
    (hp : 64 ≤ off) : Backed G (insert (.fp y) V) temps [] c' := by
  have hsearch : Backed G V temps [] (c.fpSearched size off) := h.freeWhere _ _
  rcases allocInFp_state hy with ⟨q, rfl, hc, rfl⟩ | ⟨-, c₂, hc₂, rfl⟩
  · exact (hsearch.fpFound (by rw [hc]; rintro ⟨⟩)).fpTouch q
  · refine ((hsearch.fpClaim hc₂ hp).write (i := .fld size off y) rfl rfl
      (fun _ hl => absurd hl List.not_mem_nil) hp).settle (Set.mem_insert _ _)

theorem allocOutFp (h : Backed G V temps [] c) (hy : HostCache.allocOutFp off size c = .ok y c')
    (hp : 64 ≤ off) : Backed G V temps [.fp y] c' := by
  have hsearch : Backed G V temps [] (c.fpSearched size off) := h.freeWhere _ _
  have hstate := allocOutFp_state hy
  generalize c.fpSearched size off = c₁ at hsearch hstate
  rcases hstate with ⟨q, rfl, -, rfl⟩ | ⟨-, hclaim⟩
  · have hdirty : Backed G V temps []
        { c₁ with fpSlots := c₁.fpSlots.put q { (c₁.fpSlots.get q) with dirty := true } } :=
      hsearch.fpPut c₁.clock fun _ _ hq => ⟨hq.known, hq.place⟩
    exact (hdirty.fpTouch q).oweFp _
  · exact hsearch.fpClaim hclaim hp

theorem clobberFp (h : Backed G V temps [] c) (off size : Int) :
    Backed G V temps [] (c.clobberFp off size) := by
  rw [clobberFp_eq]
  exact h.freeWhere _ _

theorem flushPass (h : Backed G V temps [] c) (mask : UInt32) (extended : Bool) :
    Backed G V temps [] (c.flushPass mask extended) := by
  refine List.foldlRecOn _ _ h fun c hc r _ => ?_
  split
  · exact hc.writeback fun _ => List.not_mem_nil
  · exact hc

theorem releaseIdle (h : Backed G V temps [] c) (mask : UInt32) :
    Backed G V temps [] (c.releaseIdle mask) := by
  refine List.foldlRecOn _ _ h fun c hc r _ => ?_
  dsimp only
  split
  · rename_i hidle
    refine hc.setSlot fun K _ hs => .empty (fun hm => ?_) fun _ => List.not_mem_nil
    rw [hs.temp hm] at hidle
    simp at hidle
  · exact hc

theorem flushAll (h : Backed G V temps [] c) : Backed G V temps [] c.flushAll := by
  have hfp {c : HostCache} (hc : Backed G V temps [] c) : Backed G V temps [] c.flushFp := by
    rw [flushFp_eq]
    exact hc.freeWhere _ _
  exact (hfp ((h.flushPass 0 false).flushPass 0 true)).releaseIdle 0

theorem startOp (h : Backed G V temps owed c) : Backed G V temps owed c.startOp :=
  h.change rfl h.held (fun _ _ _ hr => hr) fun _ _ _ hr => hr

/-- Only the last scope releases the temporaries. -/
theorem ended (h : Backed G V temps [] c) :
    Backed G V (if c.depth = 1 then [] else temps) [] c.ended := by
  unfold HostCache.ended
  dsimp only
  split
  · refine h.change rfl (fun _ hx => absurd hx List.not_mem_nil) (fun K _ r hr => ?_)
      fun K _ q hq => ?_
    · change ((c.slots.map endSlot).get r).Backs K [] [] r
      change (c.slots.get r).Backs K temps [] r at hr
      rw [Vector.get_map, endSlot]
      split
      · exact .empty List.not_mem_nil fun _ => List.not_mem_nil
      · rename_i ht
        have ht : (c.slots.get r).content ≠ .temp := fun he => ht (beq_iff_eq.mpr he)
        exact {
          known := hr.known
          place := hr.place
          const := fun hc =>
            ⟨(hr.const hc).1, .inl ((hr.const hc).2.resolve_right fun hm => ht (hr.temp hm))⟩
          temp := fun hm => absurd hm List.not_mem_nil
          due := fun _ hm => absurd hm List.not_mem_nil }
    · rw [Vector.get_map]
      exact ⟨hq.known, hq.place⟩
  · exact h.change rfl h.held (fun _ _ _ hr => hr) fun _ _ _ hr => hr

theorem unpinAll (h : Backed G V temps [] c) : Backed G V temps [] (Emit.unpinAll c) := by
  refine h.change rfl h.held (fun K _ r hr => ?_) fun _ _ _ hr => hr
  change ((c.slots.map unpinned).get r).Backs K temps [] r
  change (c.slots.get r).Backs K temps [] r at hr
  rw [Vector.get_map, unpinned]
  split
  · exact hr
  · exact { hr with due := fun _ hm => absurd hm List.not_mem_nil }

/-- A register is released, also if it holds a temporary. -/
theorem drop (h : Backed G V temps [] c) (x : HostReg) :
    Backed G V (temps.filter (· ≠ x)) [] (c.drop x) := by
  have hsub {y : HostReg} (hy : y ∈ temps.filter (· ≠ x)) : y ∈ temps ∧ y ≠ x := by
    simpa using hy
  have hother {K : Set Loc} (r : Fin 9) (hne : x ≠ .ofSlot r) (hr : (c.slot r).Backs K temps [] r) :
      (c.slot r).Backs K (temps.filter (· ≠ x)) [] r :=
    { hr with
      const := fun hc => ⟨(hr.const hc).1, (hr.const hc).2.imp_right fun hm => by
        simpa using ⟨hm, hne.symm⟩⟩
      temp := fun hm => hr.temp (hsub hm).1 }
  unfold HostCache.drop modifySlot
  split
  · rename_i r hslot
    have hx : x = .ofSlot r := by
      unfold slotOf? at hslot
      split at hslot
      · cases hslot
        rfl
      · cases hslot
    refine h.change rfl (fun y hy => h.held y (hsub hy).1) (fun K _ r' hr' => ?_) fun _ _ _ hr => hr
    by_cases he : r = r'
    · subst he
      rw [slot_setSlot_self]
      exact .empty (fun hm => (hsub hm).2 hx.symm) fun _ => List.not_mem_nil
    · rw [slot_setSlot_of_ne _ _ he]
      exact hother r' (fun hx' => he (Machine.ofSlot_inj (hx ▸ hx'))) hr'
  · rename_i hslot
    refine h.change rfl (fun y hy => h.held y (hsub hy).1) (fun K _ r hr => ?_) fun _ _ _ hr => hr
    refine hother r ?_ hr
    rintro rfl
    simp [slotOf?, HostReg.ofSlot] at hslot

theorem retire (h : Backed G V temps [] c) (keep : HostReg) (xs : List HostReg) :
    ∃ temps', Backed G V temps' []
      (xs.foldl (fun c x => if x = keep then c else c.drop x) c) := by
  induction xs generalizing temps c with
  | nil => exact ⟨temps, h⟩
  | cons x xs ih =>
    rw [List.foldl_cons]
    split
    · exact ih h
    · exact ih (h.drop x)

end Backed

end Recompiler
