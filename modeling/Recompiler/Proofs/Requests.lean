import Recompiler.Proofs.Operands

/-!
Requests to the register assignment: values to read, and words to write. A request is granted
while it pins no more registers than there are. It leaves the registers alone that others have
pinned, but for those whose words it takes over.
-/

namespace Recompiler

open Ir

/-- A value to be read. -/
inductive Source where
  | low (g : GuestReg)
  | high (g : GuestReg)
  | word (off : Int)
  | const (v : UInt32)
  deriving DecidableEq

/-- A word to be written. -/
inductive Dest where
  | low (g : GuestReg)
  | high (g : GuestReg)
  /-- The low word, whose extension is the high word. -/
  | extended (g : GuestReg) (ext : Extension)
  | word (off : Int)
  | temp
  deriving DecidableEq

instance (s : Slot) : Decidable s.Pinned :=
  inferInstanceAs (Decidable (s.content ≠ .unused ∧ (s.busy = true ∨ s.content = .temp)))

namespace HostCache

def pins (c : HostCache) : Nat := (List.finRange 9).countP fun r => (c.slot r).Pinned

/-- How many registers are pinned once a register is used that has its content, or a new one. -/
def pinsWith (c : HostCache) : Option (Fin 9) → Nat
  | some r => (c.touch r).pins
  | none => c.pins + 1

def implying? (c : HostCache) (g : GuestReg) : Option (Fin 9) :=
  (c.findLow? g).filter fun lo => (c.slot lo).content.isExtended

end HostCache

namespace Source

def alloc : Source → CacheM HostReg
  | .low g => HostCache.allocInLow g
  | .high g => HostCache.allocInHigh g
  | .word off => HostCache.allocIn32 off
  | .const v => HostCache.allocConst v

/-- How many registers are pinned once the request is granted. -/
def pins (c : HostCache) : Source → Nat
  | .low g => if g.val = 0 then c.pins else c.pinsWith (c.findLow? g)
  | .high g =>
    if g.val = 0 then c.pins
    else
      match c.findHigh? g, c.implying? g with
      | none, some lo => (c.touch lo).pins + 1
      | r, _ => c.pinsWith r
  | .word off => c.pinsWith (c.findWord? off)
  | .const v => if v = 0 then c.pins else c.pinsWith (c.findConst? v)

/-- The words of the context that are asked for. -/
def offsets : Source → List Int
  | .low g => [Layout.lowWord g]
  | .high g => [Layout.highWord g]
  | .word off => [off]
  | .const _ => []

/-- The value in a state of the guest. -/
def value (g : Cpu) : Source → UInt32
  | .low gr => lowWord (g.guest gr)
  | .high gr => highWord (g.guest gr)
  | .word off => g.loadWord off
  | .const v => v

/-- Words of the context are asked for by their offsets, unless they belong to guest registers. -/
def Valid : Source → Prop
  | .word off => off < 64 ∨ 336 ≤ off
  | _ => True

instance (o : Source) : Decidable o.Valid :=
  match o with
  | .word off => inferInstanceAs (Decidable (off < 64 ∨ 336 ≤ off))
  | .low _ | .high _ | .const _ => .isTrue trivial

/-- What a register for the value holds, if it is a word of the context. -/
def content? : Source → Option Content
  | .low g => some (.low g none)
  | .high g => some (.high g)
  | .word off => some (.word off)
  | .const _ => none

def IsZero : Source → Prop
  | .low g | .high g => g.val = 0
  | .word _ => False
  | .const v => v = 0

/-- The register gets another content when the value is asked for. -/
def splits : Source → Content → Bool
  | .high g, .low g' (some _) => g = g'
  | _, _ => false

end Source

namespace Dest

def alloc : Dest → CacheM HostReg
  | .low g => HostCache.allocOutLow g
  | .high g => HostCache.allocOutHigh g
  | .extended g ext => HostCache.allocOutExt g ext
  | .word off => HostCache.allocOut32 off
  | .temp => HostCache.allocTemp

def pins (c : HostCache) : Dest → Nat
  | .low g =>
    if g.val = 0 then c.pins
    else
      match c.findHigh? g, (c.implying? g).filter fun lo => (c.slot lo).dirty with
      | none, some lo => (c.touch lo).pins + 1
      | _, _ => c.pinsWith (c.findLow? g)
  | .high g => if g.val = 0 then c.pins else c.pinsWith (c.findHigh? g)
  | .extended g _ =>
    if g.val = 0 then c.pins else (c.dropHigh g).pinsWith ((c.dropHigh g).findLow? g)
  | .word off => c.pinsWith (c.findWord? off)
  | .temp => c.pins + 1

/-- What the register stands for; there is none for register zero. -/
def content? : Dest → Option Content
  | .low g => target g (.low g none)
  | .high g => target g (.high g)
  | .extended g ext => target g (.low g (some ext))
  | .word off => some (.word off)
  | .temp => some .temp

def offsets (d : Dest) : List Int := d.content?.elim [] (·.offsets)

def Valid : Dest → Prop
  | .word off => Cpu.IsWord off ∧ (off < 64 ∨ 336 ≤ off)
  | _ => True

instance (d : Dest) : Decidable d.Valid :=
  match d with
  | .word off => inferInstanceAs (Decidable (Cpu.IsWord off ∧ (off < 64 ∨ 336 ≤ off)))
  | .low _ | .high _ | .extended _ _ | .temp => .isTrue trivial

/-- A register with the high word that an extension replaces is given up. -/
def drops : Dest → Content → Bool
  | .extended g _, k => k = .high g
  | _, _ => false

end Dest

section

variable {c c' c'' : HostCache} {m m' : Machine Cpu} {g : Cpu} {r : Fin 9} {x : HostReg}
  {gr : GuestReg}

namespace HostCache

theorem exists_unpinned (h : c.pins + 1 ≤ 9) : ∃ r, ¬ (c.slot r).Pinned := by
  apply Classical.byContradiction
  intro hall
  have hcount : c.pins = (List.finRange 9).length := by
    refine List.countP_eq_length.mpr fun r _ => ?_
    exact decide_eq_true (Classical.byContradiction fun hr => hall ⟨r, hr⟩)
  rw [List.length_finRange] at hcount
  omega

theorem claim_of_pins (s : Slot) (h : c.pins + 1 ≤ 9) :
    ∃ r, claim s c = .ok r (c.replace r s) := by
  obtain ⟨r, hr⟩ := exists_unpinned h
  rcases claim_cases c s with ⟨r', -, hc⟩ | ⟨hall, -⟩
  · exact ⟨r', hc⟩
  · exact absurd (hall r) hr

theorem claimReg_of_pins (content : Content) (dirty : Bool) (h : c.pins + 1 ≤ 9) :
    ∃ x c', claimReg content dirty c = .ok x c' := by
  obtain ⟨r, hc⟩ := claim_of_pins (.fresh content dirty) h
  exact ⟨_, _, claimReg_eq hc⟩

theorem claimLoaded_of_pins (content : Content) (h : c.pins + 1 ≤ 9) :
    ∃ x c', claimLoaded content c = .ok x c' := by
  obtain ⟨r, hc⟩ := claim_of_pins (.fresh content false) h
  exact ⟨_, _, claimLoaded_eq hc⟩

theorem materialize_of_pins (gr : GuestReg) {lo : Fin 9} (ext : Extension) (h : (c.touch lo).pins + 1 ≤ 9) :
    ∃ x c', materialize gr lo ext c = .ok x c' := by
  obtain ⟨r, hc⟩ := claim_of_pins (.fresh (.high gr) (c.slot lo).dirty) h
  exact ⟨_, _, materialize_eq hc⟩

theorem implying?_eq (hf : c.findLow? gr = some r) :
    c.implying? gr = if (c.slot r).content.isExtended then some r else none := by
  rw [implying?, hf]
  rfl

end HostCache

open HostCache

theorem Source.alloc_ok {o : Source} (h : o.pins c ≤ 9) : ∃ x c', o.alloc c = .ok x c' := by
  cases o with
  | low g =>
    by_cases hz : g.val = 0
    · exact ⟨.rz, c, by rw [Source.alloc, allocInLow, if_pos hz]; rfl⟩
    rw [Source.pins, if_neg hz] at h
    rw [Source.alloc, allocInLow_eq c hz]
    split
    · exact ⟨_, _, rfl⟩
    · rename_i hf
      rw [hf] at h
      exact claimLoaded_of_pins _ h
  | high g =>
    by_cases hz : g.val = 0
    · exact ⟨.rz, c, by rw [Source.alloc, allocInHigh, if_pos hz]; rfl⟩
    rw [Source.pins, if_neg hz] at h
    rw [Source.alloc, allocInHigh_eq c hz]
    split
    · exact ⟨_, _, rfl⟩
    · rename_i hh
      rw [hh] at h
      split
      · rename_i lo hf
        rw [implying?_eq hf] at h
        obtain ⟨ext, hlo⟩ := Content.base_eq_low (findLow?_some hf)
        rw [hlo] at h ⊢
        cases ext with
        | none => exact claimLoaded_of_pins _ h
        | some ext => exact materialize_of_pins g ext h
      · rename_i hf
        rw [implying?, hf] at h
        exact claimLoaded_of_pins _ h
  | word off =>
    rw [Source.pins] at h
    rw [Source.alloc, allocIn32_eq]
    split
    · exact ⟨_, _, rfl⟩
    · rename_i hf
      rw [hf] at h
      exact claimLoaded_of_pins _ h
  | const v =>
    by_cases hz : v = 0
    · exact ⟨.rz, c, by rw [Source.alloc, allocConst, if_pos hz]; rfl⟩
    rw [Source.pins, if_neg hz] at h
    rw [Source.alloc, allocConst_eq c hz]
    split
    · exact ⟨_, _, rfl⟩
    · rename_i hf
      rw [hf] at h
      obtain ⟨x, c', ht⟩ := claimReg_of_pins .temp false h
      rw [show allocTemp c = .ok x c' from ht]
      exact ⟨_, _, rfl⟩

theorem findHigh?_splitLow (c : HostCache) (g : GuestReg) :
    (c.splitLow g).findHigh? g = c.findHigh? g := by
  unfold HostCache.splitLow
  split
  · rename_i lo hf
    unfold findHigh? find?
    congr 1
    funext r
    by_cases he : lo = r
    · subst he
      rw [slot_setSlot_self]
      obtain ⟨ext, hlo⟩ := Content.base_eq_low (findLow?_some hf)
      rw [hlo]
      rfl
    · rw [slot_setSlot_of_ne _ _ he]
  · rfl

theorem pins_splitLow (c : HostCache) (g : GuestReg) : (c.splitLow g).pins = c.pins := by
  unfold HostCache.splitLow
  split
  · rename_i lo hf
    unfold HostCache.pins
    congr 1
    funext r
    by_cases he : lo = r
    · subst he
      rw [slot_setSlot_self]
      obtain ⟨ext, hlo⟩ := Content.base_eq_low (findLow?_some hf)
      simp [Slot.Pinned, hlo]
    · rw [slot_setSlot_of_ne _ _ he]
  · rfl

theorem Dest.alloc_ok {d : Dest} (h : d.pins c ≤ 9) : ∃ x c', d.alloc c = .ok x c' := by
  cases d with
  | low g =>
    by_cases hz : g.val = 0
    · exact ⟨.rz, c, by rw [Dest.alloc, allocOutLow, if_pos hz]; rfl⟩
    rw [Dest.pins, if_neg hz] at h
    rw [Dest.alloc, allocOutLow_eq c hz]
    split
    · rename_i hf
      have hi : c.implying? g = none := by
        rw [implying?, hf]
        rfl
      rw [hi, hf] at h
      cases hh : c.findHigh? g <;> rw [hh] at h <;> exact claimReg_of_pins _ _ h
    · rename_i r hf
      obtain ⟨ext, hlo⟩ := Content.base_eq_low (findLow?_some hf)
      rw [hlo]
      cases ext with
      | none => exact ⟨_, _, overwrite_eq c r _⟩
      | some ext =>
        dsimp only
        split
        · -- The high word needs a register of its own.
          rename_i hnew
          rw [Bool.and_eq_true, Option.isNone_iff_eq_none] at hnew
          have hi : ((c.implying? g).filter fun lo => (c.slot lo).dirty) = some r := by
            rw [implying?_eq hf, hlo]
            simp [Content.isExtended, hnew.2]
          rw [hnew.1, hi] at h
          obtain ⟨y, c', hm⟩ := materialize_of_pins g ext h
          rw [hm]
          exact ⟨_, _, overwrite_eq c' r _⟩
        · exact ⟨_, _, overwrite_eq c r _⟩
  | high g =>
    by_cases hz : g.val = 0
    · exact ⟨.rz, c, by rw [Dest.alloc, allocOutHigh, if_pos hz]; rfl⟩
    rw [Dest.pins, if_neg hz] at h
    rw [Dest.alloc, allocOutHigh_eq c hz, findHigh?_splitLow]
    split
    · exact ⟨_, _, overwrite_eq _ _ _⟩
    · rename_i hf
      rw [hf] at h
      refine claimReg_of_pins _ _ ?_
      rw [pins_splitLow]
      exact h
  | extended g ext =>
    by_cases hz : g.val = 0
    · exact ⟨.rz, c, by rw [Dest.alloc, allocOutExt, if_pos hz]; rfl⟩
    rw [Dest.pins, if_neg hz] at h
    rw [Dest.alloc, allocOutExt_eq c ext hz]
    split
    · exact ⟨_, _, overwrite_eq _ _ _⟩
    · rename_i hf
      rw [hf] at h
      exact claimReg_of_pins _ _ h
  | word off =>
    rw [Dest.pins] at h
    rw [Dest.alloc, allocOut32_eq]
    split
    · exact ⟨_, _, overwrite_eq _ _ _⟩
    · rename_i hf
      rw [hf] at h
      exact claimReg_of_pins _ _ h
  | temp => exact claimReg_of_pins _ _ h

def Spares (P : Content → Prop) (c c' : HostCache) : Prop :=
  ∀ r, (c.slot r).Pinned → P (c.slot r).content →
    (c'.slot r).Pinned ∧ (c.slot r).Same (c'.slot r)

namespace Spares

variable {P : Content → Prop}

theorem refl (c : HostCache) : Spares P c c := fun _ hp _ => ⟨hp, .refl _⟩

theorem trans (h : Spares P c c') (h' : Spares P c' c'') : Spares P c c'' := by
  intro r hp hP
  obtain ⟨hp₁, hs₁⟩ := h r hp hP
  obtain ⟨hp₂, hs₂⟩ := h' r hp₁ (hs₁.content ▸ hP)
  exact ⟨hp₂, hs₂.content.trans hs₁.content, hs₂.dirty.trans hs₁.dirty,
    hs₂.isConst.trans hs₁.isConst, hs₂.value.trans hs₁.value⟩

theorem change (hs : ∀ r', r ≠ r' → c'.slot r' = c.slot r')
    (hr : (c.slot r).Pinned → ¬ P (c.slot r).content) : Spares P c c' := by
  intro r' hp hP
  have hne : r ≠ r' := by
    rintro rfl
    exact hr hp hP
  rw [hs r' hne]
  exact ⟨hp, .refl _⟩

theorem touch (c : HostCache) (r : Fin 9) : Spares P c (c.touch r) := by
  intro r' hp hP
  by_cases he : r = r'
  · subst he
    rw [slot_touch_self]
    exact ⟨⟨hp.1, .inl rfl⟩, rfl, rfl, rfl, rfl⟩
  · rw [slot_touch_of_ne _ he]
    exact ⟨hp, .refl _⟩

theorem claimReg {content : Content} {dirty : Bool}
    (h : HostCache.claimReg content dirty c = .ok x c') : Spares P c c' := by
  obtain ⟨r, hr, -, rfl⟩ := claimReg_ok h
  exact change (fun r' hne => slot_replace_of_ne _ _ hne) fun hp => absurd hp hr

theorem claimLoaded {content : Content} (h : HostCache.claimLoaded content c = .ok x c') :
    Spares P c c' := by
  obtain ⟨r, hr, -, rfl⟩ := claimLoaded_ok h
  exact change (fun r' hne => slot_replace_of_ne _ _ hne) fun hp => absurd hp hr

theorem overwrite {content : Content} (hr : ¬ P (c.slot r).content)
    (h : HostCache.overwrite r content c = .ok x c') : Spares P c c' := by
  rw [overwrite_eq] at h
  cases h
  refine change (fun r' hne => ?_) fun _ => hr
  rw [slot_touch_of_ne _ hne, slot_setSlot_of_ne _ _ hne]

theorem materialize {lo : Fin 9} {ext : Extension} (hlo : ¬ P (c.slot lo).content)
    (h : HostCache.materialize gr lo ext c = .ok x c') : Spares P c c' := by
  obtain ⟨r, hr, -, rfl⟩ := materialize_ok h
  refine (touch c lo).trans ?_
  intro r' hp hP
  have hne : r ≠ r' := by
    rintro rfl
    exact hr hp
  have hne' : lo ≠ r' := by
    rintro rfl
    rw [slot_touch_self] at hP
    exact hlo hP
  have hslot : (c.materialized gr lo r ext).slot r' = (c.touch lo).slot r' := by
    change (HostCache.setSlot _ lo _).slot r' = _
    rw [slot_setSlot_of_ne _ _ hne', slot_emitImplied_of_ne _ _ _ hne, slot_replace_of_ne _ _ hne]
  rw [hslot]
  exact ⟨hp, .refl _⟩

end Spares

theorem Source.spares {o : Source} (h : o.alloc c = .ok x c') :
    Spares (fun k => o.splits k = false) c c' := by
  cases o with
  | low g =>
    by_cases hz : g.val = 0
    · rw [Source.alloc, allocInLow, if_pos hz] at h
      cases h
      exact .refl c
    rw [Source.alloc, allocInLow_eq c hz] at h
    split at h
    · cases h
      exact .touch c _
    · exact .claimLoaded h
  | high g =>
    by_cases hz : g.val = 0
    · rw [Source.alloc, allocInHigh, if_pos hz] at h
      cases h
      exact .refl c
    rw [Source.alloc, allocInHigh_eq c hz] at h
    split at h
    · cases h
      exact .touch c _
    · split at h
      · rename_i lo hf
        obtain ⟨ext, hlo⟩ := Content.base_eq_low (findLow?_some hf)
        rw [hlo] at h
        cases ext with
        | none => exact .claimLoaded h
        | some ext =>
          refine .materialize ?_ h
          rw [hlo]
          simp [Source.splits]
      · exact .claimLoaded h
  | word off =>
    rw [Source.alloc, allocIn32_eq] at h
    split at h
    · cases h
      exact .touch c _
    · exact .claimLoaded h
  | const v =>
    by_cases hz : v = 0
    · rw [Source.alloc, allocConst, if_pos hz] at h
      cases h
      exact .refl c
    rw [Source.alloc, allocConst_eq c hz] at h
    split at h
    · cases h
      exact .touch c _
    · split at h
      · rename_i y c₁ hy
        cases h
        obtain ⟨r, hr, rfl, rfl⟩ := claimReg_ok hy
        refine Spares.change (r := r) (fun r' hne => ?_) fun hp => absurd hp hr
        rw [HostCache.setConst, modifySlot_ofSlot, slot_setSlot_of_ne _ _ hne, slot_emit,
          slot_replace_of_ne _ _ hne]
      · cases h

def Dest.Apart (d : Dest) (k : Content) : Prop := ∀ off ∈ d.offsets, off ∉ k.offsets

theorem Dest.spares {d : Dest} (h : d.alloc c = .ok x c') : Spares d.Apart c c' := by
  cases d with
  | low g =>
    by_cases hz : g.val = 0
    · rw [Dest.alloc, allocOutLow, if_pos hz] at h
      cases h
      exact .refl c
    have hnot {k : Content} (hk : k.base = .low g none) : ¬ (Dest.low g).Apart k := by
      intro ha
      obtain ⟨ext, rfl⟩ := Content.base_eq_low hk
      refine ha (Layout.lowWord g) ?_ ?_
      · simp [Dest.offsets, Dest.content?, target, hz, Content.offsets]
      · cases ext <;> simp [Content.offsets]
    rw [Dest.alloc, allocOutLow_eq c hz] at h
    split at h
    · exact .claimReg h
    · rename_i r hf
      have hbase := findLow?_some hf
      obtain ⟨ext, hlo⟩ := Content.base_eq_low hbase
      rw [hlo] at h
      cases ext with
      | none => exact .overwrite (hnot hbase) h
      | some ext =>
        dsimp only at h
        split at h
        · split at h
          · rename_i y c₁ hm
            refine (Spares.materialize (hnot hbase) hm).trans (.overwrite (hnot ?_) h)
            obtain ⟨r₁, hr₁, -, rfl⟩ := materialize_ok hm
            change ((HostCache.setSlot _ r _).slot r).content.base = _
            rw [slot_setSlot_self]
            rfl
          · cases h
        · exact .overwrite (hnot hbase) h
  | high g =>
    by_cases hz : g.val = 0
    · rw [Dest.alloc, allocOutHigh, if_pos hz] at h
      cases h
      exact .refl c
    have hmem : Layout.highWord g ∈ (Dest.high g).offsets := by
      simp [Dest.offsets, Dest.content?, target, hz, Content.offsets]
    have hsplit : Spares (Dest.high g).Apart c (c.splitLow g) := by
      unfold HostCache.splitLow
      split
      · rename_i lo hf
        obtain ⟨ext, hlo⟩ := Content.base_eq_low (findLow?_some hf)
        cases ext with
        | none =>
          have hslot : ({ c.slot lo with content := .low g none } : Slot) = c.slot lo := by
            rw [← hlo]
          rw [hslot, setSlot_slot]
          exact .refl c
        | some ext =>
          refine Spares.change (fun r' hne => slot_setSlot_of_ne _ _ hne) fun _ ha => ?_
          refine ha _ hmem ?_
          rw [hlo]
          simp [Content.offsets]
      · exact .refl c
    rw [Dest.alloc, allocOutHigh_eq c hz] at h
    split at h
    · rename_i r hf
      refine hsplit.trans (.overwrite (fun ha => ha _ hmem ?_) h)
      rw [Content.base_eq_high (findHigh?_some hf)]
      exact List.mem_singleton_self _
    · exact hsplit.trans (.claimReg h)
  | extended g ext =>
    by_cases hz : g.val = 0
    · rw [Dest.alloc, allocOutExt, if_pos hz] at h
      cases h
      exact .refl c
    have hlow : Layout.lowWord g ∈ (Dest.extended g ext).offsets := by
      simp [Dest.offsets, Dest.content?, target, hz, Content.offsets]
    have hhigh : Layout.highWord g ∈ (Dest.extended g ext).offsets := by
      simp [Dest.offsets, Dest.content?, target, hz, Content.offsets]
    have hdrop : Spares (Dest.extended g ext).Apart c (c.dropHigh g) := by
      unfold HostCache.dropHigh
      split
      · rename_i hi hf
        refine Spares.change (fun r' hne => slot_setSlot_of_ne _ _ hne) fun _ ha => ?_
        refine ha _ hhigh ?_
        rw [Content.base_eq_high (findHigh?_some hf)]
        exact List.mem_singleton_self _
      · exact .refl c
    rw [Dest.alloc, allocOutExt_eq c ext hz] at h
    split at h
    · rename_i r hf
      refine hdrop.trans (.overwrite (fun ha => ha _ hlow ?_) h)
      obtain ⟨ext', hlo⟩ := Content.base_eq_low (findLow?_some hf)
      rw [hlo]
      cases ext' <;> simp [Content.offsets]
    · exact hdrop.trans (.claimReg h)
  | word off =>
    rw [Dest.alloc, allocOut32_eq] at h
    split at h
    · rename_i r hf
      refine .overwrite (fun ha => ha off ?_ ?_) h
      · exact List.mem_singleton_self _
      · rw [Content.base_eq_word (findWord?_some hf)]
        exact List.mem_singleton_self _
    · exact .claimReg h
  | temp => exact .claimReg h

def Source.At (o : Source) (c : HostCache) (x : HostReg) : Prop :=
  (x = .rz ∧ o.IsZero) ∨
    ∃ r, x = .ofSlot r ∧ (c.slot r).Pinned ∧ ∀ k, o.content? = some k → (c.slot r).content.base = k

theorem Kept.Gives.at {o : Source} {k : Content} (h : Kept.Gives c x k) (hk : k ≠ .unused)
    (ho : ∀ k', o.content? = some k' → k = k') : o.At c x := by
  obtain ⟨r, rfl, hb, hbase⟩ := h
  refine .inr ⟨r, rfl, ⟨fun hu => hk ?_, .inl hb⟩, fun k' hk' => hbase.trans (ho k' hk')⟩
  rw [← hbase, hu]
  rfl

/-- A value that is granted is in its register, which is known to hold it if it is a constant. -/
theorem Source.granted {o : Source} (h : Agrees c m g) (ho : o.Valid)
    (hx : o.alloc c = .ok x c') :
    ∃ m', Allocates c m c' m' g ∧ o.At c' x ∧ m'.get x = o.value g ∧
      (o.content? = none → ∀ r, x = .ofSlot r → (c'.slot r).isConst = true) := by
  cases o with
  | low gr =>
    obtain ⟨m', ha, hr⟩ := h.allocInLow hx
    refine ⟨m', ha, ?_, hr.get, fun hk => by cases hk⟩
    by_cases hz : gr.val = 0
    · rw [Source.alloc, HostCache.allocInLow, if_pos hz] at hx
      cases hx
      exact .inl ⟨rfl, hz⟩
    · exact (Kept.allocInLow hz hx).2.at (by simp) fun _ hk => Option.some.inj hk
  | high gr =>
    obtain ⟨m', ha, hr⟩ := h.allocInHigh hx
    refine ⟨m', ha, ?_, hr.get, fun hk => by cases hk⟩
    by_cases hz : gr.val = 0
    · rw [Source.alloc, HostCache.allocInHigh, if_pos hz] at hx
      cases hx
      exact .inl ⟨rfl, hz⟩
    · exact (Kept.allocInHigh hz hx).2.at (by simp) fun _ hk => Option.some.inj hk
  | word off =>
    obtain ⟨m', ha, hr⟩ := h.allocIn32 ho hx
    refine ⟨m', ha, ?_, hr.get, fun hk => by cases hk⟩
    have hgives : Kept.Gives c' x (.word off) := by
      rw [Source.alloc, allocIn32_eq] at hx
      split at hx
      · rename_i hf
        cases hx
        exact Kept.touch_gives c (findWord?_some hf)
      · exact (Kept.claimLoaded hx).2
    exact hgives.at (by simp) fun _ hk => Option.some.inj hk
  | const v =>
    obtain ⟨m', ha, hk⟩ := h.allocConst hx
    rcases hk with ⟨rfl, hv⟩ | ⟨r, rfl, hp, hc, hv⟩
    · exact ⟨m', ha, .inl ⟨rfl, hv⟩, hv.symm, fun _ r hr => absurd hr.symm (Machine.ofSlot_ne_rz r)⟩
    · refine ⟨m', ha, .inr ⟨r, rfl, hp, fun _ hk => by cases hk⟩, hv, fun _ r' hr => ?_⟩
      cases Machine.ofSlot_inj hr
      exact hc

/-- A register that is to be written as `k`. -/
structure Slot.Writing (s : Slot) (k : Content) : Prop where
  pinned : s.Pinned
  content : s.content = k
  isConst : s.isConst = false
  dirty : s.dirty = true ∨ k.offsets = []

def Dest.At (d : Dest) (c : HostCache) (x : HostReg) : Prop :=
  match d.content? with
  | none => x = .rz
  | some k => ∃ r, x = .ofSlot r ∧ (c.slot r).Writing k

theorem Owns.at {d : Dest} (h : Owns c x d.content?) (hd : d ≠ .temp) : d.At c x := by
  unfold Dest.At
  cases hk : d.content? with
  | none =>
    rw [hk] at h
    exact h
  | some k =>
    rw [hk] at h
    obtain ⟨r, rfl, hc, hdirty, hconst, hb⟩ := h
    refine ⟨r, rfl, ⟨fun hu => hd ?_, .inl hb⟩, hc, hconst, .inl hdirty⟩
    rw [hc] at hu
    subst hu
    cases d with
    | low gr | high gr | extended gr ext => simp [Dest.content?, target] at hk
    | word off => cases hk
    | temp => rfl

/-- A destination that is granted has a register, whose value counts from then on. Registers that
were pinned stay so with their values, but for the one that an extension replaces. -/
theorem Dest.granted {d : Dest} (h : Agrees c m g) (hd : d.Valid) (hx : d.alloc c = .ok x c') :
    ∃ m', Emitted c.builder m c'.builder m' ∧
      Agrees c' m' (g.storeWords (resultWords d.content? (m'.get x))) ∧ d.At c' x ∧
      ∀ r, (c.slot r).Pinned → d.drops (c.slot r).content = false →
        (c'.slot r).Pinned ∧ (c'.slot r).content.base = (c.slot r).content.base ∧
          m'.get (.ofSlot r) = m.get (.ofSlot r) := by
  have hstable {m' : Machine Cpu} {g' : Cpu} (ha : Allocates c m c' m' g') (r : Fin 9)
      (hp : (c.slot r).Pinned) : (c'.slot r).Pinned ∧
        (c'.slot r).content.base = (c.slot r).content.base ∧
        m'.get (.ofSlot r) = m.get (.ofSlot r) :=
    ⟨(ha.stable.kept r hp).1, (ha.stable.kept r hp).2, ha.stable.regs r hp⟩
  cases d with
  | low gr =>
    obtain ⟨m', ha, ho⟩ := h.allocOutLow hx
    exact ⟨m', ha.emitted, ha.agrees, Owns.at (d := .low gr) ho (by simp),
      fun r hp _ => hstable ha r hp⟩
  | high gr =>
    obtain ⟨m', ha, ho⟩ := h.allocOutHigh hx
    exact ⟨m', ha.emitted, ha.agrees, Owns.at (d := .high gr) ho (by simp),
      fun r hp _ => hstable ha r hp⟩
  | word off =>
    obtain ⟨m', ha, ho⟩ := h.allocOut32 hd.1 hd.2 hx
    exact ⟨m', ha.emitted, ha.agrees, Owns.at (d := .word off) ho (by simp),
      fun r hp _ => hstable ha r hp⟩
  | temp =>
    obtain ⟨r, m', rfl, -, ht, hc, ha⟩ := h.allocTemp hx
    refine ⟨m', ha.emitted, ha.agrees, ⟨r, rfl, ⟨?_, .inr ht⟩, ht, hc, .inr rfl⟩,
      fun r hp _ => hstable ha r hp⟩
    simp [ht]
  | extended gr ext =>
    obtain ⟨m', he, ha, ho, hget, -⟩ := h.allocOutExt hx
    refine ⟨m', he, ha, Owns.at (d := .extended gr ext) ho (by simp), fun r hp hdrop => ?_⟩
    have hne : (c.slot r).content ≠ .high gr := by simpa [Dest.drops] using hdrop
    refine and_assoc.mp ⟨?_, hget _⟩
    by_cases hz : gr.val = 0
    · rw [Dest.alloc, HostCache.allocOutExt, if_pos hz] at hx
      cases hx
      exact ⟨hp, rfl⟩
    have hslot : (c.dropHigh gr).slot r = c.slot r := by
      unfold HostCache.dropHigh
      split
      · rename_i hi hf
        refine slot_setSlot_of_ne _ _ fun he => hne ?_
        rw [← he]
        exact Content.base_eq_high (findHigh?_some hf)
      · rfl
    rw [← hslot] at hp ⊢
    rw [Dest.alloc, allocOutExt_eq c ext hz] at hx
    split at hx
    · rename_i r' hf
      have hbase : ((c.dropHigh gr).slot r').content.base = Content.base (.low gr (some ext)) :=
        findLow?_some hf
      exact (Kept.overwrite hbase hx).1 r hp
    · exact (Kept.claimReg hx).1 r hp

end

end Recompiler
