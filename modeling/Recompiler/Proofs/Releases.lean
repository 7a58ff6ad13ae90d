import Recompiler.Proofs.Operands

/-!
Registers that are given up. The code for it stores what the context lacks, so that the state of
the guest and the values of all registers stay what they are.
-/

namespace Recompiler

open Ir

variable {c c' c'' : HostCache} {m : Machine Cpu} {g : Cpu}

def Releases (c c' : HostCache) : Prop :=
  ∀ (m : Machine Cpu) (g : Cpu), Agrees c m g →
    ∃ m', Emitted c.builder m c'.builder m' ∧ Agrees c' m' g ∧ ∀ x, m'.get x = m.get x

namespace Releases

open HostCache

theorem refl (c : HostCache) : Releases c c := fun m _ h => ⟨m, .refl _ _, h, fun _ => rfl⟩

theorem trans (h : Releases c c') (h' : Releases c' c'') : Releases c c'' := by
  intro m g ha
  obtain ⟨m₁, he₁, ha₁, hget₁⟩ := h m g ha
  obtain ⟨m₂, he₂, ha₂, hget₂⟩ := h' m₁ g ha₁
  exact ⟨m₂, he₁.trans he₂, ha₂, fun x => (hget₂ x).trans (hget₁ x)⟩

theorem foldl {α : Type} {f : HostCache → α → HostCache} (hf : ∀ c a, Releases c (f c a))
    (as : List α) (c : HostCache) : Releases c (as.foldl f c) := by
  induction as generalizing c with
  | nil => exact refl c
  | cons a as ih => exact (hf c a).trans (ih (f c a))

theorem forget (hb : c'.builder = c.builder) (hfp : c'.fpSlots = c.fpSlots)
    (hslots : ∀ r, (c.slot r).Same (c'.slot r) ∨
      c'.slot r = .empty ∧ ((c.slot r).dirty = true → (c.slot r).content.offsets = [])) :
    Releases c c' := by
  intro m g ha
  refine ⟨m, hb ▸ .refl _ _, ha.relax hfp fun r => ?_, fun _ => rfl⟩
  rcases hslots r with hs | ⟨he, hd⟩
  · exact .inl hs
  · rw [he]
    exact .inr ⟨rfl, rfl, hd⟩

theorem writeback (c : HostCache) (r : Fin 9) : Releases c (c.writeback r) :=
  fun _ _ ha => ha.writeback r

theorem freeSlot (c : HostCache) (r : Fin 9) : Releases c (c.freeSlot r) := by
  refine (writeback c r).trans (forget rfl rfl fun r' => ?_)
  by_cases he : r = r'
  · subst he
    rw [slot_freeSlot_self, slot_writeback_self]
    exact .inr ⟨rfl, fun hf => nomatch hf⟩
  · rw [slot_freeSlot_of_ne _ he, slot_writeback_of_ne _ he]
    exact .inl (.refl _)

theorem free (c : HostCache) (x : HostReg) : Releases c (c.free x) := by
  unfold HostCache.free
  split
  · exact freeSlot c _
  · exact refl c

theorem freeFound (c : HostCache) (o : Option (Fin 9)) : Releases c (c.freeFound o) := by
  cases o with
  | none => exact refl c
  | some r => exact freeSlot c r

theorem invalidateGuest (c : HostCache) (gr : GuestReg) : Releases c (c.invalidateGuest gr) := by
  rw [invalidateGuest_eq]
  exact (freeFound c _).trans (freeFound _ _)

theorem flushPass (c : HostCache) (mask : UInt32) (extended : Bool) :
    Releases c (c.flushPass mask extended) := by
  refine foldl (fun c r => ?_) _ c
  split
  · exact writeback c r
  · exact refl c

theorem fpFree_of_empty (h : c.fpSlots = Vector.replicate 8 .empty) (r : Fin 8) :
    c.fpFree r = c := by
  have hget : c.fpSlots.get r = .empty := by
    rw [h, Vector.get_replicate]
  have hw : c.fpWriteback r = c := by
    unfold HostCache.fpWriteback
    rw [hget]
    rfl
  unfold HostCache.fpFree
  rw [hw, ← hget]
  dsimp only
  rw [Vector.put_get_self]

theorem flushFp (c : HostCache) : Releases c c.flushFp := by
  intro m g ha
  have hsame : c.flushFp = c := by
    unfold HostCache.flushFp
    induction List.finRange 8 with
    | nil => rfl
    | cons r rs ih => rw [List.foldl_cons, fpFree_of_empty ha.fp, ih]
  rw [hsame]
  exact refl c m g ha

theorem builder_releaseIdle (c : HostCache) (mask : UInt32) :
    (c.releaseIdle mask).builder = c.builder ∧ (c.releaseIdle mask).fpSlots = c.fpSlots := by
  unfold releaseIdle
  induction List.finRange 9 generalizing c with
  | nil => exact ⟨rfl, rfl⟩
  | cons r rs ih =>
    rw [List.foldl_cons]
    obtain ⟨hb, hf⟩ := ih _
    rw [hb, hf]
    dsimp only
    split <;> exact ⟨rfl, rfl⟩

theorem flushExcept (c : HostCache) (mask : UInt32) : Releases c (c.flushExcept mask) := by
  have hstored := ((flushPass c mask false).trans (flushPass _ mask true)).trans (flushFp _)
  refine hstored.trans ?_
  obtain ⟨hb, hf⟩ := builder_releaseIdle ((c.flushPass mask false).flushPass mask true).flushFp mask
  refine forget hb hf fun r => ?_
  rw [slot_flushExcept, slot_stored]
  split
  · split
    · exact .inr ⟨rfl, fun hf => nomatch hf⟩
    · exact .inl (.refl _)
  · exact .inl (.refl _)

theorem flushAll (c : HostCache) : Releases c c.flushAll := flushExcept c 0

theorem slot_ended (c : HostCache) (r : Fin 9) :
    c.ended.slot r = if c.depth = 1 then endSlot (c.slot r) else c.slot r := by
  unfold HostCache.ended
  dsimp only
  split
  · simp only [HostCache.slot, Vector.get_map]
  · rfl

theorem ended (c : HostCache) : Releases c c.ended := by
  intro m g ha
  have hbuilder : c.ended.builder = c.builder := by
    unfold HostCache.ended
    dsimp only
    split <;> rfl
  have hfp : c.ended.fpSlots = c.fpSlots := by
    unfold HostCache.ended
    dsimp only
    split
    · rw [ha.fp]
      exact Vector.map_replicate
    · rfl
  refine forget hbuilder hfp (fun r => ?_) m g ha
  rw [slot_ended]
  split
  · unfold endSlot
    split
    · rename_i ht
      refine .inr ⟨rfl, fun _ => ?_⟩
      rw [eq_of_beq ht]
      rfl
    · exact .inl ⟨rfl, rfl, rfl, rfl⟩
  · exact .inl (.refl _)

end Releases

namespace HostCache

theorem isClean_flushAll (c : HostCache) (hf : c.flushAll.fpSlots = Vector.replicate 8 .empty) :
    c.flushAll.isClean = true := by
  unfold isClean
  rw [hf, Bool.and_eq_true, List.all_eq_true, List.all_eq_true]
  constructor
  · intro s hs
    obtain ⟨i, hi, rfl⟩ := List.getElem_of_mem hs
    rw [Vector.length_toList] at hi
    have hslot : (c.flushAll.slot ⟨i, hi⟩).dirty = false := by
      rw [slot_flushAll]
      split <;> rfl
    simpa [HostCache.slot, Vector.get] using hslot
  · intro s hs
    rw [Vector.toList_replicate] at hs
    rw [List.eq_of_mem_replicate hs]
    rfl

end HostCache

/-- A register is given up or keeps its content, as a temporary or a constant without being to be
stored. -/
def Slot.Leaves (s s' : Slot) : Prop :=
  s' = .empty ∨ s'.content = s.content ∧ s'.busy = s.busy ∧ s'.isConst = s.isConst ∧
    (s'.dirty = s.dirty ∨ s.content = .temp ∨ s.isConst = true)

namespace Slot.Leaves

theorem refl (s : Slot) : Leaves s s := .inr ⟨rfl, rfl, rfl, .inl rfl⟩

theorem pinned {s s' : Slot} (h : Leaves s s') (hs : s.Pinned) (hu : s'.content ≠ .unused) :
    s'.Pinned ∧ s'.content = s.content := by
  rcases h with rfl | ⟨hc, hb, -, -⟩
  · exact absurd rfl hu
  · refine ⟨⟨hu, ?_⟩, hc⟩
    rw [hb, hc]
    exact hs.2

end Slot.Leaves

namespace HostCache

theorem leaves_freeSlot (c : HostCache) (r r' : Fin 9) :
    (c.slot r').Leaves ((c.freeSlot r).slot r') := by
  by_cases he : r = r'
  · subst he
    exact .inl (slot_freeSlot_self c r)
  · rw [slot_freeSlot_of_ne c he]
    exact .refl _

theorem leaves_free (c : HostCache) (x : HostReg) (r : Fin 9) :
    (c.slot r).Leaves ((c.free x).slot r) := by
  unfold free
  split
  · exact leaves_freeSlot c _ r
  · exact .refl _

theorem slot_freeFound (c : HostCache) (o : Option (Fin 9)) (r : Fin 9) :
    (c.freeFound o).slot r = .empty ∨ (c.freeFound o).slot r = c.slot r := by
  cases o with
  | none => exact .inr rfl
  | some r' =>
    by_cases he : r' = r
    · subst he
      exact .inl (slot_freeSlot_self c r')
    · exact .inr (slot_freeSlot_of_ne c he)

theorem leaves_invalidateGuest (c : HostCache) (gr : GuestReg) (r : Fin 9) :
    (c.slot r).Leaves ((c.invalidateGuest gr).slot r) := by
  rw [invalidateGuest_eq]
  rcases slot_freeFound (c.freeFound (c.findHigh? gr)) _ r with h | h
  · exact .inl h
  · rw [h]
    rcases slot_freeFound c (c.findHigh? gr) r with h' | h'
    · exact .inl h'
    · rw [h']
      exact .refl _

theorem leaves_flushExcept (c : HostCache) (mask : UInt32) (r : Fin 9) :
    (c.slot r).Leaves ((c.flushExcept mask).slot r) := by
  rw [slot_flushExcept]
  split
  · split
    · exact .inl rfl
    · rename_i hr
      refine .inr ⟨rfl, rfl, rfl, .inr ?_⟩
      by_cases ht : (c.slot r).content = .temp
      · exact .inl ht
      · right
        simpa [ht] using hr
  · exact .refl _

end HostCache

end Recompiler
