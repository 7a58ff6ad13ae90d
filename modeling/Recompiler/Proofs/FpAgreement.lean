import Recompiler.Proofs.Agreement
import Recompiler.Proofs.Pins

/-!
What the floating-point registers of a running program hold. A register stands for one word of the
context or for two; together with the context they make up one state of the guest.
-/

namespace Recompiler

open Ir

namespace Ir

namespace FpSize

/-- The words of the context that a value at `off` stands for. -/
def words (size : FpSize) (off : Int) (v : UInt64) : List (Int × UInt32) :=
  match size with
  | .single => [(off, lowWord v)]
  | .double => [(off, lowWord v), (off + 4, highWord v)]

def offsets (size : FpSize) (off : Int) : List Int :=
  match size with
  | .single => [off]
  | .double => [off, off + 4]

/-- The value lies among the floating-point registers, word by word. -/
structure Fits (size : FpSize) (off : Int) : Prop where
  aligned : off % 4 = 0
  low : 336 ≤ off
  high : off + FpSlot.sizeBytes size ≤ 592

variable {size : FpSize} {off w : Int}

theorem map_words (size : FpSize) (off : Int) (v : UInt64) :
    (size.words off v).map (·.1) = size.offsets off := by
  cases size <;> rfl

theorem nodup_offsets (size : FpSize) (off : Int) : (size.offsets off).Nodup := by
  cases size <;> simp [offsets]

theorem bounds_of_mem (h : w ∈ size.offsets off) :
    off ≤ w ∧ w + 4 ≤ off + FpSlot.sizeBytes size ∧ w % 4 = off % 4 := by
  cases size with
  | single =>
    obtain rfl := List.mem_singleton.mp h
    exact ⟨Int.le_refl _, Int.le_refl _, rfl⟩
  | double =>
    simp only [offsets, List.mem_cons, List.not_mem_nil, or_false] at h
    simp only [FpSlot.sizeBytes]
    omega

theorem Fits.isWord (h : Fits size off) (hw : w ∈ size.offsets off) : Cpu.IsWord w := by
  obtain ⟨ha, hl, hh⟩ := h
  obtain ⟨hle, hlt, hmod⟩ := bounds_of_mem hw
  refine ⟨.fpr ⟨(w - 336).toNat / 8, by omega⟩ (decide ((w - 336) % 8 = 4)), nofun, ?_⟩
  simp only [Cpu.Field.offset, decide_eq_true_eq]
  split <;> omega

theorem fits_single (wide : Bool) (r : Reg) : Fits .single (Layout.single wide r) := by
  constructor
  · revert wide r; decide
  · revert wide r; decide
  · revert wide r; decide

theorem fits_double (wide : Bool) (r : Reg) : Fits .double (Layout.double wide r) := by
  constructor
  · revert wide r; decide
  · revert wide r; decide
  · revert wide r; decide

end FpSize

namespace Machine

variable {σ : Type}

theorem fpSlot_inj {r r' : Fin 8} (h : FpReg.ofSlot r = .ofSlot r') : r = r' :=
  Fin.ext (congrArg FpReg.num h)

@[simp] theorem getFp_setFp_self (m : Machine σ) (r : Fin 8) (v : UInt64) :
    (m.setFp (.ofSlot r) v).getFp (.ofSlot r) = v := by
  simp [setFp, getFp, FpReg.ofSlot]

theorem getFp_setFp_of_ne (m : Machine σ) {x y : FpReg} (v : UInt64) (h : x ≠ y) :
    (m.setFp x v).getFp y = m.getFp y := by
  have hn : x.num ≠ y.num := fun he => h (by cases x; cases y; cases he; rfl)
  simp [setFp, getFp, Array.getD_eq_getD_getElem?, Array.getElem?_setIfInBounds_ne hn]

end Machine

end Ir

theorem Cpu.storeWords_of_held {g : Cpu} {ws : List (Int × UInt32)}
    (hw : ∀ p ∈ ws, IsWord p.1) (h : ∀ p ∈ ws, g.loadWord p.1 = p.2) : g.storeWords ws = g := by
  induction ws with
  | nil => rfl
  | cons p ws ih =>
    have hp : g.storeWord p.1 p.2 = g := by
      rw [← h p List.mem_cons_self]
      exact Cpu.storeWord_loadWord g (hw p List.mem_cons_self)
    change (g.storeWord p.1 p.2).storeWords ws = g
    rw [hp]
    exact ih (fun q hq => hw q (List.mem_cons_of_mem _ hq)) fun q hq => h q (List.mem_cons_of_mem _ hq)

namespace FpSlot

def words (s : FpSlot) (v : UInt64) : List (Int × UInt32) :=
  s.content.elim [] fun k => k.1.words k.2 v

def offsets (s : FpSlot) : List Int :=
  s.content.elim [] fun k => k.1.offsets k.2

variable {s : FpSlot} {w off size : Int}

theorem map_words (s : FpSlot) (v : UInt64) : (s.words v).map (·.1) = s.offsets := by
  unfold words offsets
  cases s.content with
  | none => rfl
  | some k => exact FpSize.map_words _ _ _

theorem nodup_offsets (s : FpSlot) : s.offsets.Nodup := by
  unfold offsets
  cases s.content with
  | none => exact List.nodup_nil
  | some k => exact FpSize.nodup_offsets _ _

theorem mem_offsets_of_words {v : UInt64} {p : Int × UInt32} (h : p ∈ s.words v) :
    p.1 ∈ s.offsets := by
  rw [← map_words s v]
  exact List.mem_map_of_mem h

theorem mem_words_of_offsets {v : UInt64} (h : w ∈ s.offsets) : ∃ x, (w, x) ∈ s.words v := by
  rw [← map_words s v] at h
  obtain ⟨⟨_, x⟩, hp, rfl⟩ := List.mem_map.mp h
  exact ⟨x, hp⟩

theorem exists_of_mem_offsets (h : w ∈ s.offsets) :
    ∃ k, s.content = some k ∧ w ∈ k.1.offsets k.2 := by
  unfold offsets at h
  cases hk : s.content with
  | none =>
    rw [hk] at h
    cases h
  | some k =>
    rw [hk] at h
    exact ⟨k, rfl, h⟩

theorem offsets_of_content {k : FpSize × Int} (h : s.content = some k) :
    s.offsets = k.1.offsets k.2 := by
  rw [offsets, h]
  rfl

theorem words_of_content {k : FpSize × Int} (h : s.content = some k) (v : UInt64) :
    s.words v = k.1.words k.2 v := by
  rw [words, h]
  rfl

theorem overlaps_of_mem (h : w ∈ s.offsets) (hlow : off ≤ w) (hhigh : w + 4 ≤ off + size) :
    s.overlaps off size = true := by
  obtain ⟨⟨sz, o⟩, hk, hw⟩ := exists_of_mem_offsets h
  obtain ⟨hle, hlt, -⟩ := FpSize.bounds_of_mem hw
  simp only [overlaps, hk, Bool.and_eq_true, decide_eq_true_eq]
  dsimp only at hle hlt
  omega

/-- The register shares bytes with the value, and does not hold it as such. -/
def isPartial (size : FpSize) (off : Int) (s : FpSlot) : Bool :=
  decide (s.content ≠ some (size, off) ∧ s.overlaps off (sizeBytes size) = true)

end FpSlot

namespace HostCache

/-- Stores and releases the registers of the slots that satisfy a predicate. -/
def freeWhere (c : HostCache) (P : FpSlot → Bool) (rs : List (Fin 8)) : HostCache :=
  rs.foldl (fun c r => if P (c.fpSlots.get r) then c.fpFree r else c) c

theorem clobberFp_eq (c : HostCache) (off size : Int) :
    c.clobberFp off size = c.freeWhere (·.overlaps off size) (List.finRange 8) := rfl

theorem flushFp_eq (c : HostCache) : c.flushFp = c.freeWhere (fun _ => true) (List.finRange 8) := rfl

theorem fpSlots_fpFree (c : HostCache) (r : Fin 8) :
    (c.fpFree r).fpSlots = c.fpSlots.put r .empty := by
  change (c.fpWriteback r).fpSlots.put r .empty = _
  rw [fpSlots_fpWriteback, Vector.put_put]

theorem get_freeWhere (c : HostCache) (P : FpSlot → Bool) {rs : List (Fin 8)} (hn : rs.Nodup)
    (r : Fin 8) : (c.freeWhere P rs).fpSlots.get r =
      if r ∈ rs ∧ P (c.fpSlots.get r) = true then .empty else c.fpSlots.get r := by
  induction rs generalizing c with
  | nil => rw [if_neg (by simp)]; rfl
  | cons r' rs ih =>
    obtain ⟨hr', hn⟩ := List.nodup_cons.mp hn
    change ((if P (c.fpSlots.get r') then c.fpFree r' else c).freeWhere P rs).fpSlots.get r = _
    rw [ih _ hn]
    by_cases he : r' = r
    · subst he
      rw [if_neg fun h => hr' h.1]
      by_cases hP : P (c.fpSlots.get r') = true
      · rw [if_pos hP, if_pos ⟨List.mem_cons_self, hP⟩, fpSlots_fpFree, Vector.get_put_self]
      · rw [if_neg hP, if_neg fun h => hP h.2]
    · have hsame : (if P (c.fpSlots.get r') then c.fpFree r' else c).fpSlots.get r =
          c.fpSlots.get r := by
        split
        · rw [fpSlots_fpFree, Vector.get_put_of_ne _ _ he]
        · rfl
      simp only [hsame, List.mem_cons, Ne.symm he, false_or]

end HostCache

/-- The floating-point registers and the context of a machine make up the state `g` of the
guest. -/
structure FpAgrees (c : HostCache) (m : Machine Cpu) (g : Cpu) : Prop where
  held : ∀ r, ∀ p ∈ (c.fpSlots.get r).words (m.getFp (.ofSlot r)), g.loadWord p.1 = p.2
  apart : ∀ r r' off, off ∈ (c.fpSlots.get r).offsets → off ∈ (c.fpSlots.get r').offsets → r = r'
  fits : ∀ r k, (c.fpSlots.get r).content = some k → k.1.Fits k.2
  /-- A word that no dirty register holds is in the context. -/
  synced : ∀ off, (∀ r, (c.fpSlots.get r).dirty = true → off ∉ (c.fpSlots.get r).offsets) →
    m.ctx.loadWord off = g.loadWord off
  rest : Cpu.SameRest m.ctx g

namespace FpAgrees

variable {c c' : HostCache} {m m' : Machine Cpu} {g g' : Cpu} {r : Fin 8} {s : FpSlot}

theorem create (b : Builder) (m : Machine Cpu) : FpAgrees (.create b) m m.ctx := by
  have hslot (r : Fin 8) : (HostCache.create b).fpSlots.get r = .empty := Vector.get_replicate ..
  refine ⟨fun r p hp => ?_, fun r r' w hw => ?_, fun r k hk => ?_, fun _ _ => rfl, .refl _⟩
  · rw [hslot] at hp
    cases hp
  · rw [hslot] at hw
    cases hw
  · rw [hslot] at hk
    cases hk

/-- One register changes, and the guest in words that no other register holds. -/
theorem update (h : FpAgrees c m g) (hslots : c'.fpSlots = c.fpSlots.put r s)
    (hregs : ∀ r', r' ≠ r → m'.getFp (.ofSlot r') = m.getFp (.ofSlot r'))
    (hfits : ∀ k, s.content = some k → k.1.Fits k.2)
    (hfree : ∀ off ∈ s.offsets, ∀ r', r' ≠ r → off ∉ (c.fpSlots.get r').offsets)
    (hheld : ∀ p ∈ s.words (m'.getFp (.ofSlot r)), g'.loadWord p.1 = p.2)
    (hghost : ∀ r', r' ≠ r → ∀ off ∈ (c.fpSlots.get r').offsets,
      g'.loadWord off = g.loadWord off)
    (hsync : ∀ off,
      (∀ r', r' ≠ r → (c.fpSlots.get r').dirty = true → off ∉ (c.fpSlots.get r').offsets) →
      (s.dirty = true → off ∉ s.offsets) → m'.ctx.loadWord off = g'.loadWord off)
    (hrest : Cpu.SameRest m'.ctx g') : FpAgrees c' m' g' := by
  have hself : c'.fpSlots.get r = s := by
    rw [hslots, Vector.get_put_self]
  have hother {r' : Fin 8} (he : r' ≠ r) : c'.fpSlots.get r' = c.fpSlots.get r' := by
    rw [hslots, Vector.get_put_of_ne _ _ he.symm]
  constructor
  · intro r' p hp
    by_cases he : r' = r
    · subst he
      rw [hself] at hp
      exact hheld p hp
    · rw [hother he, hregs r' he] at hp
      rw [hghost r' he p.1 (FpSlot.mem_offsets_of_words hp)]
      exact h.held r' p hp
  · intro r₁ r₂ off h₁ h₂
    by_cases he₁ : r₁ = r
    · by_cases he₂ : r₂ = r
      · exact he₁.trans he₂.symm
      · subst he₁
        rw [hself] at h₁
        rw [hother he₂] at h₂
        exact absurd h₂ (hfree off h₁ r₂ he₂)
    · rw [hother he₁] at h₁
      by_cases he₂ : r₂ = r
      · subst he₂
        rw [hself] at h₂
        exact absurd h₁ (hfree off h₂ r₁ he₁)
      · rw [hother he₂] at h₂
        exact h.apart r₁ r₂ off h₁ h₂
  · intro r' k hk
    by_cases he : r' = r
    · subst he
      rw [hself] at hk
      exact hfits k hk
    · rw [hother he] at hk
      exact h.fits r' k hk
  · intro off hclean
    refine hsync off (fun r' he hd => ?_) fun hd => ?_
    · have := hclean r'
      rw [hother he] at this
      exact this hd
    · have := hclean r
      rw [hself] at this
      exact this hd
  · exact hrest

/-- Stamps and pins do not matter. -/
theorem of_slots (h : FpAgrees c m g)
    (hs : ∀ r, (c'.fpSlots.get r).content = (c.fpSlots.get r).content ∧
      (c'.fpSlots.get r).dirty = (c.fpSlots.get r).dirty) : FpAgrees c' m g := by
  have hwords (r : Fin 8) (v : UInt64) : (c'.fpSlots.get r).words v = (c.fpSlots.get r).words v := by
    rw [FpSlot.words, FpSlot.words, (hs r).1]
  have hoffsets (r : Fin 8) : (c'.fpSlots.get r).offsets = (c.fpSlots.get r).offsets := by
    rw [FpSlot.offsets, FpSlot.offsets, (hs r).1]
  constructor
  · intro r p hp
    rw [hwords] at hp
    exact h.held r p hp
  · intro r r' off ho ho'
    rw [hoffsets] at ho ho'
    exact h.apart r r' off ho ho'
  · intro r k hk
    rw [(hs r).1] at hk
    exact h.fits r k hk
  · intro off hclean
    refine h.synced off fun r hd => ?_
    have := hclean r
    rw [(hs r).2, hoffsets] at this
    exact this hd
  · exact h.rest

theorem touch (h : FpAgrees c m g) (r : Fin 8) : FpAgrees (c.fpTouch r) m g := by
  refine h.of_slots fun r' => ?_
  change ((c.fpSlots.put r _).get r').content = _ ∧ ((c.fpSlots.put r _).get r').dirty = _
  by_cases he : r = r'
  · subst he
    rw [Vector.get_put_self]
    exact ⟨rfl, rfl⟩
  · rw [Vector.get_put_of_ne _ _ he]
    exact ⟨rfl, rfl⟩

theorem of_machine (h : FpAgrees c m g)
    (hregs : ∀ r : Fin 8, m'.getFp (.ofSlot r) = m.getFp (.ofSlot r)) (hctx : m'.ctx = m.ctx) :
    FpAgrees c m' g := by
  constructor
  · intro r p hp
    rw [hregs] at hp
    exact h.held r p hp
  · exact h.apart
  · exact h.fits
  · intro off hclean
    rw [hctx]
    exact h.synced off hclean
  · rw [hctx]
    exact h.rest

end FpAgrees

def FpSlot.storeCode (r : Fin 8) (s : FpSlot) : List (Ir.Instr String) :=
  if s.dirty then s.content.elim [] fun k => [.fst k.1 (FpReg.ofSlot r) k.2] else []

theorem HostCache.builder_fpWriteback (c : HostCache) (r : Fin 8) :
    (c.fpWriteback r).builder =
      ((c.fpSlots.get r).storeCode r).foldl Builder.add c.builder := by
  unfold fpWriteback FpSlot.storeCode
  dsimp only
  split
  · cases (c.fpSlots.get r).content with
    | none => rfl
    | some k => rfl
  · rfl

theorem Ir.Machine.perform_storeCode (m : Machine Cpu) (r : Fin 8) (s : FpSlot) :
    ((s.storeCode r).foldl Machine.perform m).regs = m.regs ∧
      ((s.storeCode r).foldl Machine.perform m).fregs = m.fregs ∧
      ((s.storeCode r).foldl Machine.perform m).ctx =
        m.ctx.storeWords (if s.dirty then s.words (m.getFp (.ofSlot r)) else []) := by
  unfold FpSlot.storeCode FpSlot.words
  split
  · cases s.content with
    | none => exact ⟨rfl, rfl, rfl⟩
    | some k =>
      obtain ⟨size, off⟩ := k
      cases size <;> exact ⟨rfl, rfl, rfl⟩
  · exact ⟨rfl, rfl, rfl⟩

namespace FpAgrees

variable {c : HostCache} {m m' : Machine Cpu} {g : Cpu}

/-- A register is stored. -/
theorem stored (h : FpAgrees c m g) (r : Fin 8) (hfregs : m'.fregs = m.fregs)
    (hctx : m'.ctx = m.ctx.storeWords (if (c.fpSlots.get r).dirty then
      (c.fpSlots.get r).words (m.getFp (.ofSlot r)) else [])) : FpAgrees (c.fpWriteback r) m' g := by
  have hget (x : FpReg) : m'.getFp x = m.getFp x := by
    rw [Machine.getFp, hfregs, Machine.getFp]
  refine h.update (HostCache.fpSlots_fpWriteback c r) (fun r' _ => hget _) (h.fits r)
    (fun off ho r' he ho' => he (h.apart r' r off ho' ho)) ?_ (fun _ _ _ _ => rfl) ?_ ?_
  · rw [hget]
    exact h.held r
  · intro off hclean _
    rw [hctx]
    by_cases hd : (c.fpSlots.get r).dirty = true
    · rw [if_pos hd]
      by_cases ho : off ∈ (c.fpSlots.get r).offsets
      · obtain ⟨w, hp⟩ := FpSlot.mem_words_of_offsets (v := m.getFp (.ofSlot r)) ho
        obtain ⟨k, hk, hmem⟩ := FpSlot.exists_of_mem_offsets ho
        have hload := Cpu.loadWord_storeWords m.ctx hp
          (by rw [FpSlot.map_words]; exact FpSlot.nodup_offsets _) ((h.fits r k hk).isWord hmem)
        exact hload.trans (h.held r _ hp).symm
      · rw [Cpu.loadWord_storeWords_of_not_mem _ (by rwa [FpSlot.map_words])]
        refine h.synced off fun r' hd' => ?_
        by_cases he : r' = r
        · subst he
          exact ho
        · exact hclean r' he hd'
    · rw [if_neg hd]
      refine h.synced off fun r' hd' => ?_
      by_cases he : r' = r
      · subst he
        exact absurd hd' hd
      · exact hclean r' he hd'
  · rw [hctx]
    exact (Cpu.sameRest_storeWords _ _).trans h.rest

theorem forget {r : Fin 8} (h : FpAgrees (c.fpWriteback r) m g) : FpAgrees (c.fpFree r) m g := by
  refine h.update (s := .empty) rfl (fun _ _ => rfl) nofun nofun nofun (fun _ _ _ _ => rfl) ?_ h.rest
  intro off hclean _
  refine h.synced off fun r' hd => ?_
  by_cases he : r' = r
  · subst he
    rw [HostCache.fpSlots_fpWriteback, Vector.get_put_self] at hd
    cases hd
  · exact hclean r' he hd

end FpAgrees

theorem FpSlot.isTransfer_storeCode (r : Fin 8) (s : FpSlot) :
    ∀ i ∈ s.storeCode r, i.isTransfer = true := by
  unfold FpSlot.storeCode
  split
  · cases s.content with
    | none => exact fun _ hi => absurd hi List.not_mem_nil
    | some k => simp [Instr.isTransfer]
  · exact fun _ hi => absurd hi List.not_mem_nil

/-- Floating-point registers are stored and forgotten; what the registers hold stays. -/
def FpReleases (c c' : HostCache) : Prop :=
  ∀ (m : Machine Cpu) (g : Cpu), FpAgrees c m g →
    ∃ m', Emitted c.builder m c'.builder m' ∧ FpAgrees c' m' g ∧ m'.regs = m.regs ∧
      m'.fregs = m.fregs

namespace FpReleases

variable {c c' c'' : HostCache}

theorem refl (c : HostCache) : FpReleases c c := fun m _ h => ⟨m, .refl _ _, h, rfl, rfl⟩

theorem trans (h : FpReleases c c') (h' : FpReleases c' c'') : FpReleases c c'' := by
  intro m g ha
  obtain ⟨m₁, he₁, ha₁, hregs₁, hfregs₁⟩ := h m g ha
  obtain ⟨m₂, he₂, ha₂, hregs₂, hfregs₂⟩ := h' m₁ g ha₁
  exact ⟨m₂, he₁.trans he₂, ha₂, hregs₂.trans hregs₁, hfregs₂.trans hfregs₁⟩

theorem fpWriteback (c : HostCache) (r : Fin 8) : FpReleases c (c.fpWriteback r) := by
  intro m g h
  obtain ⟨hregs, hfregs, hctx⟩ := m.perform_storeCode r (c.fpSlots.get r)
  exact ⟨_, ⟨_, fun i hi => Instr.isPlain_of_isTransfer (FpSlot.isTransfer_storeCode r _ i hi),
    HostCache.builder_fpWriteback c r, rfl⟩, h.stored r hfregs hctx, hregs, hfregs⟩

theorem fpFree (c : HostCache) (r : Fin 8) : FpReleases c (c.fpFree r) :=
  (fpWriteback c r).trans fun m _ h => ⟨m, .refl _ _, h.forget, rfl, rfl⟩

theorem freeWhere (c : HostCache) (P : FpSlot → Bool) (rs : List (Fin 8)) :
    FpReleases c (c.freeWhere P rs) := by
  induction rs generalizing c with
  | nil => exact refl c
  | cons r rs ih =>
    have hstep : FpReleases c (if P (c.fpSlots.get r) then c.fpFree r else c) := by
      split
      · exact fpFree c r
      · exact refl c
    exact hstep.trans (ih _)

end FpReleases

/-- The registers of the slots with `P` are stored and released. -/
structure FpFrees (P : FpSlot → Bool) (c c' : HostCache) : Prop where
  releases : FpReleases c c'
  slots : ∀ r, c'.fpSlots.get r = if P (c.fpSlots.get r) = true then .empty else c.fpSlots.get r
  depth : c'.depth = c.depth

theorem HostCache.depth_fpWriteback (c : HostCache) (r : Fin 8) :
    (c.fpWriteback r).depth = c.depth := by
  unfold fpWriteback
  dsimp only
  split
  · split <;> rfl
  · rfl

theorem fpFrees_freeWhere (P : FpSlot → Bool) (c : HostCache) :
    FpFrees P c (c.freeWhere P (List.finRange 8)) := by
  have hdepth (rs : List (Fin 8)) (c : HostCache) : (c.freeWhere P rs).depth = c.depth := by
    induction rs generalizing c with
    | nil => rfl
    | cons r rs ih =>
      refine (ih _).trans ?_
      dsimp only
      split
      · exact HostCache.depth_fpWriteback c r
      · rfl
  refine ⟨.freeWhere c P _, fun r => ?_, hdepth _ c⟩
  rw [HostCache.get_freeWhere c P (List.nodup_finRange 8)]
  simp only [List.mem_finRange, true_and]

namespace HostCache

variable {c c' : HostCache} {size : FpSize} {off : Int} {x : FpReg}

/-- The search for a value goes through the registers and releases some of them. -/
theorem fpFind?_state {o : Option (Fin 8)} (h : fpFind? size off c = .ok o c') :
    c' = c.freeWhere (FpSlot.isPartial size off) (List.finRange 8) ∧
      o = (List.finRange 8).find? fun r => (c'.fpSlots.get r).content == some (size, off) := by
  have hpart (c : HostCache) (r : Fin 8) (u : Unit) (c' : HostCache)
      (h : fpEvictPartial size off r c = .ok u c') :
      c' = if FpSlot.isPartial size off (c.fpSlots.get r) then c.fpFree r else c := by
    simp only [fpEvictPartial, bind, EStateM.bind, get, getThe, MonadStateOf.get, EStateM.get] at h
    unfold FpSlot.isPartial
    by_cases hp : (c.fpSlots.get r).content ≠ some (size, off) ∧
        (c.fpSlots.get r).overlaps off (FpSlot.sizeBytes size) = true
    · rw [if_pos hp] at h
      rw [if_pos (decide_eq_true hp)]
      by_cases hb : (c.fpSlots.get r).busy = true
      · rw [if_pos hb] at h
        cases h
      · rw [if_neg hb] at h
        cases h
        rfl
    · rw [if_neg hp] at h
      rw [if_neg (by rw [decide_eq_true_eq]; exact hp)]
      cases h
      rfl
  have hloop (rs : List (Fin 8)) (c c' : HostCache) (u : PUnit)
      (h : (forIn rs PUnit.unit fun r (_ : PUnit) => do
        fpEvictPartial size off r
        pure (ForInStep.yield PUnit.unit) : CacheM PUnit) c = .ok u c') :
      c' = c.freeWhere (FpSlot.isPartial size off) rs := by
    induction rs generalizing c with
    | nil =>
      cases h
      rfl
    | cons r rs ih =>
      simp only [List.forIn_cons, bind, EStateM.bind] at h
      cases hr : fpEvictPartial size off r c with
      | error e c₁ =>
        simp only [hr] at h
        cases h
      | ok u c₁ =>
        simp only [hr, pure, EStateM.pure] at h
        rw [ih c₁ h, hpart c r u c₁ hr]
        rfl
  simp only [fpFind?, bind, EStateM.bind] at h
  split at h
  · rename_i u c₁ hc₁
    cases h
    exact ⟨hloop _ _ _ _ hc₁, rfl⟩
  · cases h

theorem fpFind?_ok {o : Option (Fin 8)} (h : fpFind? size off c = .ok o c') :
    FpFrees (FpSlot.isPartial size off) c c' ∧
      o = (List.finRange 8).find? fun r => (c'.fpSlots.get r).content == some (size, off) := by
  obtain ⟨hc, ho⟩ := fpFind?_state h
  refine ⟨?_, ho⟩
  rw [hc]
  exact fpFrees_freeWhere _ c

def fpReplace (c : HostCache) (r : Fin 8) (s : FpSlot) : HostCache :=
  { c.fpWriteback r with fpSlots := (c.fpWriteback r).fpSlots.put r s }.fpTouch r

def fpFresh (size : FpSize) (off : Int) (dirty : Bool) : FpSlot :=
  { FpSlot.empty with content := some (size, off), dirty }

theorem fpVictim?_some {r : Fin 8} (h : c.fpVictim? = some r) : (c.fpSlots.get r).busy = false :=
  fpVictimFrom_some (v := none) (fun _ h => nomatch h) h

theorem fpClaim_ok {dirty : Bool} (h : fpClaim size off dirty c = .ok x c') :
    ∃ r, x = .ofSlot r ∧
      ((c.fpSlots.get r).busy = true → (c.fpSlots.get r).content = none) ∧
      c' = c.fpReplace r (fpFresh size off dirty) := by
  simp only [fpClaim, bind, EStateM.bind, get, getThe, MonadStateOf.get, EStateM.get] at h
  cases hf : (List.finRange 8).find? fun r => (c.fpSlots.get r).content.isNone with
  | some r =>
    have hnone : (c.fpSlots.get r).content = none := by
      simpa using List.find?_some hf
    simp only [hf] at h
    cases h
    refine ⟨r, rfl, fun _ => hnone, ?_⟩
    -- There is nothing to store for a slot without a value.
    have hw : c.fpWriteback r =
        { c with fpSlots := c.fpSlots.put r { c.fpSlots.get r with dirty := false } } := by
      have hfp := fpSlots_fpWriteback c r
      unfold fpWriteback at hfp ⊢
      dsimp only at hfp ⊢
      rw [hnone] at hfp ⊢
      split
      · rfl
      · rename_i hd
        rw [if_neg hd] at hfp
        rw [← hfp]
    unfold fpReplace
    rw [hw]
    dsimp only
    rw [Vector.put_put]
    rfl
  | none =>
    simp only [hf] at h
    cases hv : c.fpVictim? with
    | some r =>
      simp only [hv] at h
      cases h
      refine ⟨r, rfl, fun hb => ?_, rfl⟩
      rw [fpVictim?_some hv] at hb
      cases hb
    | none =>
      simp only [hv] at h
      cases h

def fpSearched (c : HostCache) (size : FpSize) (off : Int) : HostCache :=
  c.freeWhere (FpSlot.isPartial size off) (List.finRange 8)

theorem allocInFp_state (h : allocInFp off size c = .ok x c') :
    (∃ r, x = .ofSlot r ∧ ((c.fpSearched size off).fpSlots.get r).content = some (size, off) ∧
        c' = (c.fpSearched size off).fpTouch r) ∨
      (∀ r, ((c.fpSearched size off).fpSlots.get r).content ≠ some (size, off)) ∧
        ∃ c₂, fpClaim size off false (c.fpSearched size off) = .ok x c₂ ∧
          c' = c₂.emit (.fld size off x) := by
  simp only [allocInFp, bind, EStateM.bind] at h
  cases hf : fpFind? size off c with
  | error e c₁ =>
    simp only [hf] at h
    cases h
  | ok o c₁ =>
    obtain ⟨hc₁, ho⟩ := fpFind?_state hf
    rw [show c.fpSearched size off = c₁ from hc₁.symm]
    simp only [hf] at h
    cases o with
    | some r =>
      cases h
      refine .inl ⟨r, rfl, ?_, rfl⟩
      simpa using List.find?_some ho.symm
    | none =>
      refine .inr ⟨fun r => ?_, ?_⟩
      · simpa using List.find?_eq_none.mp ho.symm r (List.mem_finRange r)
      · simp only [EStateM.bind] at h
        cases hc : fpClaim size off false c₁ with
        | error e c₂ =>
          simp only [hc] at h
          cases h
        | ok y c₂ =>
          simp only [hc] at h
          cases h
          exact ⟨c₂, rfl, rfl⟩

theorem allocInFp_ok (h : allocInFp off size c = .ok x c') :
    ∃ c₁, FpFrees (FpSlot.isPartial size off) c c₁ ∧
      ((∃ r, x = .ofSlot r ∧ (c₁.fpSlots.get r).content = some (size, off) ∧ c' = c₁.fpTouch r) ∨
        (∀ r, (c₁.fpSlots.get r).content ≠ some (size, off)) ∧
        ∃ c₂, fpClaim size off false c₁ = .ok x c₂ ∧ c' = c₂.emit (.fld size off x)) :=
  ⟨_, fpFrees_freeWhere _ c, allocInFp_state h⟩

theorem allocOutFp_state (h : allocOutFp off size c = .ok x c') :
    (∃ r, x = .ofSlot r ∧ ((c.fpSearched size off).fpSlots.get r).content = some (size, off) ∧
        c' = { c.fpSearched size off with
          fpSlots := (c.fpSearched size off).fpSlots.put r
            { ((c.fpSearched size off).fpSlots.get r) with dirty := true } }.fpTouch r) ∨
      (∀ r, ((c.fpSearched size off).fpSlots.get r).content ≠ some (size, off)) ∧
        fpClaim size off true (c.fpSearched size off) = .ok x c' := by
  simp only [allocOutFp, bind, EStateM.bind] at h
  cases hf : fpFind? size off c with
  | error e c₁ =>
    simp only [hf] at h
    cases h
  | ok o c₁ =>
    obtain ⟨hc₁, ho⟩ := fpFind?_state hf
    rw [show c.fpSearched size off = c₁ from hc₁.symm]
    simp only [hf] at h
    cases o with
    | some r =>
      cases h
      refine .inl ⟨r, rfl, ?_, rfl⟩
      simpa using List.find?_some ho.symm
    | none =>
      refine .inr ⟨fun r => ?_, h⟩
      simpa using List.find?_eq_none.mp ho.symm r (List.mem_finRange r)

theorem allocOutFp_ok (h : allocOutFp off size c = .ok x c') :
    ∃ c₁, FpFrees (FpSlot.isPartial size off) c c₁ ∧
      ((∃ r, x = .ofSlot r ∧ (c₁.fpSlots.get r).content = some (size, off) ∧
          c' = { c₁ with
            fpSlots := c₁.fpSlots.put r { (c₁.fpSlots.get r) with dirty := true } }.fpTouch r) ∨
        (∀ r, (c₁.fpSlots.get r).content ≠ some (size, off)) ∧
        fpClaim size off true c₁ = .ok x c') :=
  ⟨_, fpFrees_freeWhere _ c, allocOutFp_state h⟩

end HostCache

/-- What an allocation leads to: the register `r` holds the value, the registers in use keep
theirs, and no other register gets a new one. -/
structure FpGrants (c : HostCache) (m : Machine Cpu) (r : Fin 8) (size : FpSize) (off : Int)
    (c' : HostCache) (m' : Machine Cpu) (g : Cpu) : Prop where
  emitted : Emitted c.builder m c'.builder m'
  agrees : FpAgrees c' m' g
  content : (c'.fpSlots.get r).content = some (size, off)
  busy : (c'.fpSlots.get r).busy = true
  others : ∀ r', r' ≠ r → c'.fpSlots.get r' = c.fpSlots.get r' ∨ c'.fpSlots.get r' = .empty
  kept : ∀ r' k, (c.fpSlots.get r').busy = true → (c.fpSlots.get r').content = some k →
    (c'.fpSlots.get r').content = some k ∧ (c'.fpSlots.get r').busy = true ∧
      ((c.fpSlots.get r').dirty = true → (c'.fpSlots.get r').dirty = true) ∧
      m'.getFp (.ofSlot r') = m.getFp (.ofSlot r')
  depth : c'.depth = c.depth

namespace FpAgrees

variable {c c' : HostCache} {m : Machine Cpu} {g : Cpu} {r : Fin 8} {size : FpSize} {off : Int}
  {x : FpReg}

open HostCache

theorem get_fpReplace (c : HostCache) (r : Fin 8) (s : FpSlot) (r' : Fin 8) :
    (c.fpReplace r s).fpSlots.get r' =
      if r' = r then { s with stamp := c.clock + 1, busy := true } else c.fpSlots.get r' := by
  have hclock : (c.fpWriteback r).clock = c.clock := by
    unfold fpWriteback
    dsimp only
    split
    · split <;> rfl
    · rfl
  change (((c.fpWriteback r).fpSlots.put r s).put r
    { ((c.fpWriteback r).fpSlots.put r s).get r with
      stamp := (c.fpWriteback r).clock + 1, busy := true }).get r' = _
  rw [Vector.get_put_self, hclock, Vector.put_put, fpSlots_fpWriteback, Vector.put_put]
  by_cases he : r' = r
  · rw [he, if_pos rfl, Vector.get_put_self]
  · rw [if_neg he, Vector.get_put_of_ne _ _ (Ne.symm he)]

theorem absent_of_frees (h : FpFrees (FpSlot.isPartial size off) c c')
    (habsent : ∀ r, (c'.fpSlots.get r).content ≠ some (size, off)) :
    ∀ w ∈ size.offsets off, ∀ r, w ∉ (c'.fpSlots.get r).offsets := by
  intro w hw r hmem
  have hne := habsent r
  rw [h.slots] at hne hmem
  split at hmem
  · cases hmem
  · rename_i hpart
    rw [if_neg hpart] at hne
    obtain ⟨hlow, hhigh, -⟩ := FpSize.bounds_of_mem hw
    have hover := FpSlot.overlaps_of_mem hmem hlow hhigh
    exact hpart (decide_eq_true ⟨hne, hover⟩)

/-- A register is taken for a value that is still to be written. -/
theorem claim (h : FpAgrees c m g) (r : Fin 8) (hfits : size.Fits off)
    (hfree : ∀ w ∈ size.offsets off, ∀ r', w ∉ (c.fpSlots.get r').offsets) :
    ∃ m', Emitted c.builder m (c.fpReplace r (fpFresh size off true)).builder m' ∧
      FpAgrees (c.fpReplace r (fpFresh size off true)) m'
        (g.storeWords (size.words off (m'.getFp (.ofSlot r)))) ∧ m'.fregs = m.fregs := by
  obtain ⟨m', he, h', -, hfregs⟩ := FpReleases.fpWriteback c r m g h
  refine ⟨m', he, FpAgrees.touch (c := { c.fpWriteback r with
    fpSlots := (c.fpWriteback r).fpSlots.put r (fpFresh size off true) }) ?_ r, hfregs⟩
  have hslots (r' : Fin 8) (hne : r' ≠ r) :
      (c.fpWriteback r).fpSlots.get r' = c.fpSlots.get r' := by
    rw [fpSlots_fpWriteback, Vector.get_put_of_ne _ _ hne.symm]
  have hout {w : Int} (hw : w ∉ size.offsets off) :
      (g.storeWords (size.words off (m'.getFp (.ofSlot r)))).loadWord w = g.loadWord w := by
    refine Cpu.loadWord_storeWords_of_not_mem g ?_
    rwa [FpSize.map_words]
  refine h'.update (s := fpFresh size off true) rfl (fun _ _ => rfl) ?_ ?_ ?_ ?_ ?_ ?_
  · rintro k ⟨⟩
    exact hfits
  · intro w hw r' hne
    rw [hslots r' hne]
    exact hfree w hw r'
  · intro p hp
    refine Cpu.loadWord_storeWords g hp ?_ (hfits.isWord (FpSlot.mem_offsets_of_words hp))
    rw [FpSize.map_words]
    exact FpSize.nodup_offsets size off
  · intro r' hne w hw
    rw [hslots r' hne] at hw
    exact hout fun hmem => hfree w hmem r' hw
  · intro w hclean hown
    rw [hout (hown rfl)]
    refine h'.synced w fun r' hd => ?_
    by_cases hr : r' = r
    · rw [hr, fpSlots_fpWriteback, Vector.get_put_self] at hd
      cases hd
    · exact hclean r' hr hd
  · exact h'.rest.trans (Cpu.sameRest_storeWords g _).symm

/-- A register is taken for a value that is loaded. -/
theorem load (h : FpAgrees c m g) (r : Fin 8) (hfits : size.Fits off)
    (hfree : ∀ w ∈ size.offsets off, ∀ r', w ∉ (c.fpSlots.get r').offsets) :
    ∃ m', Emitted c.builder m
        ((c.fpReplace r (fpFresh size off false)).emit (.fld size off (.ofSlot r))).builder m' ∧
      FpAgrees ((c.fpReplace r (fpFresh size off false)).emit (.fld size off (.ofSlot r))) m' g ∧
      ∀ r', r' ≠ r → m'.getFp (.ofSlot r') = m.getFp (.ofSlot r') := by
  obtain ⟨m₁, he, h₁, -, hfregs⟩ := FpReleases.fpWriteback c r m g h
  have hget₁ (y : FpReg) : m₁.getFp y = m.getFp y := by
    rw [Machine.getFp, hfregs, Machine.getFp]
  have hslots (r' : Fin 8) (hne : r' ≠ r) :
      (c.fpWriteback r).fpSlots.get r' = c.fpSlots.get r' := by
    rw [fpSlots_fpWriteback, Vector.get_put_of_ne _ _ hne.symm]
  -- After the store nothing keeps the words of the value from the context.
  have hsync (w : Int) (hclean : ∀ r', r' ≠ r → (c.fpSlots.get r').dirty = true →
      w ∉ (c.fpSlots.get r').offsets) : m₁.ctx.loadWord w = g.loadWord w := by
    refine h₁.synced w fun r' hd => ?_
    by_cases hr : r' = r
    · rw [hr, fpSlots_fpWriteback, Vector.get_put_self] at hd
      cases hd
    · rw [hslots r' hr] at hd ⊢
      exact hclean r' hr hd
  obtain ⟨v, hperform, hwords⟩ : ∃ v,
      m₁.perform (.fld size off (.ofSlot r)) = (m₁.setFp (.ofSlot r) v).next ∧
        ∀ p ∈ size.words off v, m₁.ctx.loadWord p.1 = p.2 := by
    cases size with
    | single =>
      refine ⟨_, rfl, fun p hp => ?_⟩
      obtain rfl := List.mem_singleton.mp hp
      exact (UInt32.toUInt32_toUInt64 _).symm
    | double =>
      refine ⟨_, rfl, fun p hp => ?_⟩
      simp only [FpSize.words, List.mem_cons, List.not_mem_nil, or_false] at hp
      obtain rfl | rfl := hp
      · exact (lowWord_joinWords _ _).symm
      · exact (highWord_joinWords _ _).symm
  have hother {r' : Fin 8} (hne : r' ≠ r) :
      (m₁.perform (.fld size off (.ofSlot r))).getFp (.ofSlot r') = m.getFp (.ofSlot r') := by
    rw [hperform, ← hget₁]
    exact Machine.getFp_setFp_of_ne m₁ v fun heq => hne (Machine.fpSlot_inj heq).symm
  have hself : (m₁.perform (.fld size off (.ofSlot r))).getFp (.ofSlot r) = v := by
    rw [hperform]
    exact Machine.getFp_setFp_self m₁ r v
  have hctx : (m₁.perform (.fld size off (.ofSlot r))).ctx = m₁.ctx := by
    rw [hperform]
    rfl
  have hload := Emitted.add (c.fpWriteback r).builder m₁ (i := .fld size off (.ofSlot r)) rfl
  refine ⟨_, he.trans hload, FpAgrees.of_slots (c := (c.fpReplace r (fpFresh size off false))) ?_
    (fun _ => ⟨rfl, rfl⟩), fun r' hne => hother hne⟩
  refine FpAgrees.touch (c := { c.fpWriteback r with
    fpSlots := (c.fpWriteback r).fpSlots.put r (fpFresh size off false) }) ?_ r
  refine h₁.update (s := fpFresh size off false) rfl (fun r' hne => ?_) ?_ ?_ ?_
    (fun _ _ _ _ => rfl) ?_ ?_
  · rw [hother hne, hget₁]
  · rintro k ⟨⟩
    exact hfits
  · intro w hw r' hne
    rw [hslots r' hne]
    exact hfree w hw r'
  · rw [hself]
    intro p hp
    have hmem : p.1 ∈ size.offsets off := FpSlot.mem_offsets_of_words hp
    rw [← hwords p hp]
    exact (hsync p.1 fun r' _ _ => hfree p.1 hmem r').symm
  · intro w hclean _
    rw [hctx]
    refine hsync w fun r' hne hd => ?_
    have := hclean r' hne
    rw [hslots r' hne] at this
    exact this hd
  · rw [hctx]
    exact h₁.rest

/-- The registers in use are not released, and keep what they hold but for the one that is
given. -/
theorem kept_of_frees {P : FpSlot → Bool} {c₁ : HostCache} {m' : Machine Cpu} (h : FpFrees P c c₁)
    (hidle : ∀ r, (c.fpSlots.get r).busy = true → P (c.fpSlots.get r) = false)
    (hown : ∀ k, (c.fpSlots.get r).busy = true → (c.fpSlots.get r).content = some k →
      c₁.fpSlots.get r = c.fpSlots.get r →
      (c'.fpSlots.get r).content = some k ∧ (c'.fpSlots.get r).busy = true ∧
        ((c.fpSlots.get r).dirty = true → (c'.fpSlots.get r).dirty = true) ∧
        m'.getFp (.ofSlot r) = m.getFp (.ofSlot r))
    (hslots : ∀ r', r' ≠ r → c'.fpSlots.get r' = c₁.fpSlots.get r')
    (hregs : ∀ r', r' ≠ r → m'.getFp (.ofSlot r') = m.getFp (.ofSlot r'))
    (r' : Fin 8) (k : FpSize × Int) (hb : (c.fpSlots.get r').busy = true)
    (hk : (c.fpSlots.get r').content = some k) :
    (c'.fpSlots.get r').content = some k ∧ (c'.fpSlots.get r').busy = true ∧
      ((c.fpSlots.get r').dirty = true → (c'.fpSlots.get r').dirty = true) ∧
      m'.getFp (.ofSlot r') = m.getFp (.ofSlot r') := by
  have hsame : c₁.fpSlots.get r' = c.fpSlots.get r' := by
    rw [h.slots, hidle r' hb]
    rfl
  by_cases he : r' = r
  · subst he
    exact hown k hb hk hsame
  · rw [hslots r' he, hsame]
    exact ⟨hk, hb, id, hregs r' he⟩

theorem others_of_frees {P : FpSlot → Bool} {c₁ : HostCache} (h : FpFrees P c c₁)
    (hslots : ∀ r', r' ≠ r → c'.fpSlots.get r' = c₁.fpSlots.get r') (r' : Fin 8) (hne : r' ≠ r) :
    c'.fpSlots.get r' = c.fpSlots.get r' ∨ c'.fpSlots.get r' = .empty := by
  rw [hslots r' hne, h.slots]
  split
  · exact .inr rfl
  · exact .inl rfl

/-- A value for reading. -/
theorem allocInFp (h : FpAgrees c m g) (hfits : size.Fits off)
    (hidle : ∀ r, (c.fpSlots.get r).busy = true →
      FpSlot.isPartial size off (c.fpSlots.get r) = false)
    (hx : HostCache.allocInFp off size c = .ok x c') :
    ∃ r m', x = .ofSlot r ∧ FpGrants c m r size off c' m' g := by
  obtain ⟨c₁, hfrees, hcases⟩ := allocInFp_ok hx
  obtain ⟨m₁, he₁, h₁, -, hfregs⟩ := hfrees.releases m g h
  have hget₁ (y : FpReg) : m₁.getFp y = m.getFp y := by
    rw [Machine.getFp, hfregs, Machine.getFp]
  obtain ⟨r, rfl, hcontent, rfl⟩ | ⟨habsent, c₂, hc₂, rfl⟩ := hcases
  · have hslots (r' : Fin 8) (hne : r' ≠ r) :
        (c₁.fpTouch r).fpSlots.get r' = c₁.fpSlots.get r' :=
      Vector.get_put_of_ne _ _ hne.symm
    have hself : (c₁.fpTouch r).fpSlots.get r =
        { c₁.fpSlots.get r with stamp := c₁.clock + 1, busy := true } :=
      Vector.get_put_self _ _ _
    refine ⟨r, m₁, rfl, he₁, h₁.touch r, ?_, ?_, others_of_frees hfrees hslots,
      kept_of_frees hfrees hidle (fun k hb hk hsame => ?_) hslots fun r' _ => hget₁ _,
      hfrees.depth⟩
    · rw [hself]
      exact hcontent
    · rw [hself]
    · rw [hself, hsame]
      exact ⟨hk, rfl, id, hget₁ _⟩
  · obtain ⟨r, rfl, hvictim, rfl⟩ := fpClaim_ok hc₂
    obtain ⟨m', he', h', hget'⟩ := h₁.load r hfits (absent_of_frees hfrees habsent)
    have hslots (r' : Fin 8) (hne : r' ≠ r) :=
      (get_fpReplace c₁ r (fpFresh size off false) r').trans (if_neg hne)
    have hself := (get_fpReplace c₁ r (fpFresh size off false) r).trans (if_pos rfl)
    refine ⟨r, m', rfl, he₁.trans he', h', congrArg FpSlot.content hself,
      congrArg FpSlot.busy hself, others_of_frees hfrees hslots,
      kept_of_frees hfrees hidle (fun k hb hk hsame => ?_) hslots
        fun r' hne => (hget' r' hne).trans (hget₁ _), ?_⟩
    · rw [hsame, hk] at hvictim
      cases hvictim hb
    · exact (depth_fpWriteback _ r).trans hfrees.depth

/-- A value for writing: the register holds what is there, or something that is not to be
relied on. -/
theorem allocOutFp (h : FpAgrees c m g) (hfits : size.Fits off)
    (hidle : ∀ r, (c.fpSlots.get r).busy = true →
      FpSlot.isPartial size off (c.fpSlots.get r) = false)
    (hx : HostCache.allocOutFp off size c = .ok x c') :
    ∃ r m', x = .ofSlot r ∧ FpGrants c m r size off c' m'
      (g.storeWords (size.words off (m'.getFp (.ofSlot r)))) ∧
      (c'.fpSlots.get r).dirty = true := by
  obtain ⟨c₁, hfrees, hcases⟩ := allocOutFp_ok hx
  obtain ⟨m₁, he₁, h₁, -, hfregs⟩ := hfrees.releases m g h
  have hget₁ (y : FpReg) : m₁.getFp y = m.getFp y := by
    rw [Machine.getFp, hfregs, Machine.getFp]
  obtain ⟨r, rfl, hcontent, rfl⟩ | ⟨habsent, hc'⟩ := hcases
  · have hslots (r' : Fin 8) (hne : r' ≠ r) : ({ c₁ with
        fpSlots := c₁.fpSlots.put r { c₁.fpSlots.get r with dirty := true } }.fpTouch r).fpSlots.get
          r' = c₁.fpSlots.get r' := by
      change ((c₁.fpSlots.put r _).put r _).get r' = _
      rw [Vector.put_put, Vector.get_put_of_ne _ _ hne.symm]
    have hself : ({ c₁ with
        fpSlots := c₁.fpSlots.put r { c₁.fpSlots.get r with dirty := true } }.fpTouch r).fpSlots.get
          r = { c₁.fpSlots.get r with dirty := true, stamp := c₁.clock + 1, busy := true } := by
      change ((c₁.fpSlots.put r _).put r _).get r = _
      rw [Vector.get_put_self, Vector.get_put_self]
    -- The register holds the value, so that writing it changes nothing.
    have hstored : g.storeWords (size.words off (m₁.getFp (.ofSlot r))) = g := by
      have hheld := h₁.held r
      rw [FpSlot.words_of_content hcontent] at hheld
      refine Cpu.storeWords_of_held (fun p hp => (h₁.fits r _ hcontent).isWord ?_) hheld
      rw [← FpSize.map_words size off (m₁.getFp (.ofSlot r))]
      exact List.mem_map_of_mem hp
    refine ⟨r, m₁, rfl, ⟨he₁, ?_, ?_, ?_, others_of_frees hfrees hslots,
      kept_of_frees hfrees hidle (fun k hb hk hsame => ?_) hslots fun r' _ => hget₁ _,
      hfrees.depth⟩, ?_⟩
    · rw [hstored]
      refine FpAgrees.touch (c := { c₁ with
        fpSlots := c₁.fpSlots.put r { c₁.fpSlots.get r with dirty := true } }) ?_ r
      refine h₁.update rfl (fun _ _ => rfl) (h₁.fits r)
        (fun w hw r' hne hw' => hne (h₁.apart r' r w hw' hw)) (h₁.held r) (fun _ _ _ _ => rfl)
        (fun w hclean hown => ?_) h₁.rest
      refine h₁.synced w fun r' hd => ?_
      by_cases hr : r' = r
      · subst hr
        exact hown rfl
      · exact hclean r' hr hd
    · rw [hself]
      exact hcontent
    · rw [hself]
    · rw [hself]
      exact ⟨(congrArg FpSlot.content hsame).trans hk, rfl, fun _ => rfl, hget₁ _⟩
    · rw [hself]
  · obtain ⟨r, rfl, hvictim, rfl⟩ := fpClaim_ok hc'
    obtain ⟨m', he', h', hfregs'⟩ := h₁.claim r hfits (absent_of_frees hfrees habsent)
    have hget' (y : FpReg) : m'.getFp y = m.getFp y := by
      rw [← hget₁, Machine.getFp, hfregs', Machine.getFp]
    have hslots (r' : Fin 8) (hne : r' ≠ r) :=
      (get_fpReplace c₁ r (fpFresh size off true) r').trans (if_neg hne)
    have hself := (get_fpReplace c₁ r (fpFresh size off true) r).trans (if_pos rfl)
    refine ⟨r, m', rfl, ⟨he₁.trans he', h', congrArg FpSlot.content hself,
      congrArg FpSlot.busy hself, others_of_frees hfrees hslots,
      kept_of_frees hfrees hidle (fun k hb hk hsame => ?_) hslots fun r' _ => hget' _, ?_⟩,
      congrArg FpSlot.dirty hself⟩
    · rw [hsame, hk] at hvictim
      cases hvictim hb
    · exact (depth_fpWriteback _ r).trans hfrees.depth

/-- A register that is to be written gets its value. -/
theorem write (h : FpAgrees c m g) {k : FpSize × Int} (v : UInt64)
    (hk : (c.fpSlots.get r).content = some k) (hd : (c.fpSlots.get r).dirty = true) :
    FpAgrees c (m.setFp (.ofSlot r) v) (g.storeWords (k.1.words k.2 v)) := by
  have hout {w : Int} (hw : w ∉ (c.fpSlots.get r).offsets) :
      (g.storeWords (k.1.words k.2 v)).loadWord w = g.loadWord w := by
    refine Cpu.loadWord_storeWords_of_not_mem g ?_
    rwa [FpSize.map_words, ← FpSlot.offsets_of_content hk]
  refine h.update (Vector.put_get_self c.fpSlots r).symm (fun r' hne => ?_) (h.fits r)
    (fun w hw r' hne hw' => hne (h.apart r' r w hw' hw)) (fun p hp => ?_) (fun r' hne w hw => ?_)
    (fun w hclean hown => ?_) (h.rest.trans (Cpu.sameRest_storeWords g _).symm)
  · exact Machine.getFp_setFp_of_ne m v fun heq => hne (Machine.fpSlot_inj heq).symm
  · rw [Machine.getFp_setFp_self, FpSlot.words_of_content hk] at hp
    refine Cpu.loadWord_storeWords g hp ?_ ((h.fits r k hk).isWord ?_)
    · rw [FpSize.map_words]
      exact FpSize.nodup_offsets _ _
    · rw [← FpSize.map_words k.1 k.2 v]
      exact List.mem_map_of_mem hp
  · exact hout fun hmem => hne (h.apart r' r w hw hmem)
  · rw [hout (hown hd)]
    refine h.synced w fun r' hd' => ?_
    by_cases hr : r' = r
    · subst hr
      exact hown hd
    · exact hclean r' hr hd'

theorem storeWords (h : FpAgrees c m g) {ws : List (Int × UInt32)} {m' : Machine Cpu}
    (hfree : ∀ w ∈ ws.map (·.1), ∀ r, w ∉ (c.fpSlots.get r).offsets)
    (hword : ∀ w ∈ ws.map (·.1), Cpu.IsWord w)
    (hregs : ∀ r : Fin 8, m'.getFp (.ofSlot r) = m.getFp (.ofSlot r))
    (hctx : m'.ctx = m.ctx.storeWords ws) : FpAgrees c m' (g.storeWords ws) := by
  constructor
  · intro r p hp
    rw [hregs] at hp
    rw [Cpu.loadWord_storeWords_of_not_mem g fun hmem =>
      hfree p.1 hmem r (FpSlot.mem_offsets_of_words hp)]
    exact h.held r p hp
  · exact h.apart
  · exact h.fits
  · intro w hclean
    rw [hctx]
    exact Cpu.loadWord_storeWords_congr (hword w) fun _ => h.synced w hclean
  · rw [hctx]
    exact (Cpu.sameRest_storeWords _ _).trans (h.rest.trans (Cpu.sameRest_storeWords g _).symm)

end FpAgrees

end Recompiler
