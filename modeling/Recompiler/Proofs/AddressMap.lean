import Recompiler.Proofs.CellFrames
import Recompiler.Proofs.Slots

/-!
The map from guest addresses to blocks. A live address leads to a block that has this address as
its origin, and a block with an origin lies in the ring and is found at it. Addresses are those
of words: the low two bits do not count. An origin of zero is that of a block which is not
mapped, so about a block at address zero the second half says nothing.
-/

namespace Recompiler

open Ir Emit

namespace CodeCache

variable {c d : CodeCache} {id i : BlockId} {pc pc' page : UInt32}

def wordAddr (pc : UInt32) : UInt32 := pc >>> 2 <<< 2

theorem toNat_wordAddr (pc : UInt32) : (wordAddr pc).toNat = pc.toNat / 4 * 4 := by
  have h := pc.toNat_lt
  simp only [wordAddr, UInt32.toNat_shiftLeft, UInt32.toNat_shiftRight, Nat.shiftRight_eq_div_pow,
    Nat.shiftLeft_eq]
  simp
  omega

theorem toNat_pageOf (pc : UInt32) : (pageOf pc).toNat = pc.toNat / 4096 := by
  simp [pageOf, UInt32.toNat_shiftRight, Nat.shiftRight_eq_div_pow]

theorem pageOf_lt (pc : UInt32) : (pageOf pc).toNat < 1048576 := by
  have h := pc.toNat_lt
  rw [toNat_pageOf]
  omega

theorem val_slotOf (pc : UInt32) : (slotOf pc).val = pc.toNat / 4 % 1024 := by
  simp [slotOf, UInt32.toNat_shiftRight, Nat.shiftRight_eq_div_pow]

theorem wordAddr_eq_iff : wordAddr pc = wordAddr pc' ↔
    pageOf pc = pageOf pc' ∧ slotOf pc = slotOf pc' := by
  rw [← UInt32.toNat_inj, ← UInt32.toNat_inj, Fin.ext_iff, toNat_wordAddr, toNat_wordAddr,
    toNat_pageOf, toNat_pageOf, val_slotOf, val_slotOf]
  omega

theorem wordAddr_of_aligned (h : pc &&& 3 = 0) : wordAddr pc = pc := by
  have h4 : pc.toNat % 4 = 0 := by
    have := congrArg UInt32.toNat h
    rwa [UInt32.toNat_and, show (3 : UInt32).toNat = 2 ^ 2 - 1 from rfl,
      Nat.and_two_pow_sub_one_eq_mod] at this
  rw [← UInt32.toNat_inj, toNat_wordAddr]
  omega

theorem lookup_congr (h : wordAddr pc = wordAddr pc') : c.lookup pc = c.lookup pc' := by
  obtain ⟨hp, hs⟩ := wordAddr_eq_iff.mp h
  unfold lookup
  rw [hp, hs]

end CodeCache

def liveCount (slots : Vector Mapping 1024) : Nat := slots.countP (·.block?.isSome)

theorem liveCount_put (slots : Vector Mapping 1024) (k : Fin 1024) (m : Mapping) :
    liveCount (slots.put k m) = liveCount slots - (if (slots.get k).block?.isSome then 1 else 0)
      + (if m.block?.isSome then 1 else 0) :=
  Vector.countP_set k.isLt

theorem liveCount_pos (slots : Vector Mapping 1024) (k : Fin 1024)
    (h : (slots.get k).block?.isSome) : 0 < liveCount slots :=
  Vector.countP_pos_iff.mpr ⟨slots.get k, Vector.getElem_mem k.isLt, h⟩

theorem liveCount_replicate {m : Mapping} (h : m.block? = none) :
    liveCount (Vector.replicate 1024 m) = 0 := by
  simp [liveCount, Vector.countP_replicate, h]

@[simp] theorem Mapping.block?_live (id : BlockId) : (Mapping.live id).block? = some id := rfl

@[simp] theorem Mapping.block?_invalidated : Mapping.invalidated.block? = none := rfl

@[simp] theorem Mapping.block?_eq_some {m : Mapping} {id : BlockId} :
    m.block? = some id ↔ m = .live id := by
  cases m <;> simp [block?]

namespace CodeCache

variable {c d : CodeCache} {id i : BlockId} {pc pc' page : UInt32} {rest : List BlockId}

/-- The map of a cache is sound: it and the origins of the blocks agree. -/
structure Mapped (c : CodeCache) : Prop where
  origin {pc : UInt32} {id : BlockId} : c.lookup pc = .live id → (c.block id).origin = wordAddr pc
  bound {pc : UInt32} {id : BlockId} : c.lookup pc = .live id → id < c.blocks.size
  live {id : BlockId} : (c.block id).origin ≠ 0 →
    id ∈ c.ring ∧ c.lookup (c.block id).origin = .live id
  counted {page : UInt32} {live : Int} {slots : Vector Mapping 1024} :
    c.pages[page]? = some (.table live slots) → live = liveCount slots
  pageRange {page : UInt32} {p : Page} : c.pages[page]? = some p → page.toNat < 1048576

theorem Mapped.mono (h : Mapped c) (hp : d.pages = c.pages) (hr : c.ring ⊆ d.ring)
    (hs : c.blocks.size ≤ d.blocks.size)
    (ho : ∀ id, (d.block id).origin = (c.block id).origin) : Mapped d := by
  have hlook (pc : UInt32) : d.lookup pc = c.lookup pc := by rw [lookup, lookup, hp]
  refine ⟨fun hl => ?_, fun hl => ?_, fun hne => ?_, ?_, ?_⟩
  · rw [hlook] at hl
    rw [ho, h.origin hl]
  · rw [hlook] at hl
    exact Nat.lt_of_lt_of_le (h.bound hl) hs
  · rw [ho] at hne ⊢
    rw [hlook]
    exact ⟨hr (h.live hne).1, (h.live hne).2⟩
  · rw [hp]
    exact h.counted
  · rw [hp]
    exact h.pageRange

theorem Mapped.of_bare (h : Mapped c) (he : d.bare = c.bare) : Mapped d :=
  h.mono (pages_of_bare he) (ring_of_bare he ▸ List.Subset.refl _)
    (Nat.le_of_eq (size_of_bare he).symm) (origin_of_bare he)

theorem Mapped.unique (h : Mapped c) (hl : c.lookup pc = .live id) (hl' : c.lookup pc' = .live id) :
    wordAddr pc = wordAddr pc' := (h.origin hl).symm.trans (h.origin hl')

theorem Mapped.lookup_origin (h : Mapped c) (ho : (c.block id).origin ≠ 0) :
    wordAddr (c.block id).origin = (c.block id).origin := (h.origin (h.live ho).2).symm

theorem lookup_insert {p : Page} (h : d.pages = c.pages.insert page p) (pc : UInt32) :
    d.lookup pc = if pageOf pc = page then p.mapping (slotOf pc) else c.lookup pc := by
  simp only [lookup, h, Std.HashMap.getElem?_insert, beq_iff_eq]
  by_cases hp : pageOf pc = page
  · rw [if_pos hp, if_pos hp.symm]
  · rw [if_neg hp, if_neg (Ne.symm hp)]

theorem lookup_of_page {p : Page} (hp : c.pages[pageOf pc]? = some p) :
    c.lookup pc = p.mapping (slotOf pc) := by
  unfold lookup
  rw [hp]

theorem get_tableAt (hp : pageOf pc = page) : (c.tableAt page).2.get (slotOf pc) = c.lookup pc := by
  unfold tableAt lookup
  rw [hp]
  split <;> simp_all [Page.mapping]

theorem Mapped.counted_tableAt (h : Mapped c) (page : UInt32) :
    (c.tableAt page).1 = liveCount (c.tableAt page).2 := by
  unfold tableAt
  split
  · simp [liveCount_replicate (m := .notCompiled) rfl]
  · simp [liveCount_replicate (m := .invalidated) rfl]
  · rename_i hp
    exact h.counted hp

theorem Mapped.insert_counted (h : Mapped c) {p : Page} {live : Int} {slots : Vector Mapping 1024}
    (hp : ∀ live slots, p = .table live slots → live = liveCount slots)
    (hg : (c.pages.insert page p)[pc]? = some (.table live slots)) : live = liveCount slots := by
  rw [Std.HashMap.getElem?_insert] at hg
  split at hg
  · exact hp _ _ (Option.some.inj hg)
  · exact h.counted hg

theorem Mapped.insert_pageRange (h : Mapped c) {p p' : Page} (hp : page.toNat < 1048576)
    (hg : (c.pages.insert page p)[pc]? = some p') : pc.toNat < 1048576 := by
  rw [Std.HashMap.getElem?_insert] at hg
  split at hg
  · rename_i he
    rw [← beq_iff_eq.mp he]
    exact hp
  · exact h.pageRange hg

theorem retire_cases (h : c.retire id = .ok d) : ((c.block id).origin = 0 ∧ d = c) ∨
    ∃ pages occupied,
      d = ({ c with pages, occupied }).modifyBlock id fun b => { b with origin := 0 } := by
  unfold retire at h
  dsimp only at h
  split at h
  · rename_i ho
    cases h
    exact .inl ⟨ho, rfl⟩
  · split at h
    · split at h
      · cases h
      · cases h
        exact .inr ⟨_, _, rfl⟩
    · cases h

theorem retire_of_live {live : Int} {slots : Vector Mapping 1024} (hpc : (c.block id).origin = pc)
    (ho : pc ≠ 0) (hp : c.pages[pageOf pc]? = some (.table live slots))
    (hs : slots.get (slotOf pc) = .live id) :
    c.retire id = .ok (({ c with
      pages := c.pages.insert (pageOf pc) (.without live slots (slotOf pc))
      occupied := if live - 1 = 0 then c.occupied.erase (pageOf pc) else c.occupied }).modifyBlock
        id fun b => { b with origin := 0 }) := by
  subst hpc
  unfold retire
  dsimp only
  rw [if_neg ho, hp]
  exact if_neg (not_not_intro hs)

end CodeCache

theorem Page.mapping_without {slots : Vector Mapping 1024} {k k' : Fin 1024} {id i : BlockId}
    (hs : slots.get k = .live id) :
    (Page.without (liveCount slots) slots k).mapping k' = .live i ↔
      slots.get k' = .live i ∧ k' ≠ k := by
  have hput := liveCount_put slots k .invalidated
  rw [hs] at hput
  by_cases hk : k' = k
  · subst hk
    unfold Page.without
    split <;> simp [Page.mapping]
  · by_cases h1 : (liveCount slots : Int) - 1 = 0
    · -- There was one live slot, so this one is not live.
      have hdead : slots.get k' ≠ .live i := by
        intro hlive
        have hpos := liveCount_pos (slots.put k .invalidated) k'
          (by rw [Vector.get_put_of_ne _ _ (Ne.symm hk), hlive]; rfl)
        simp at hput
        omega
      simp [Page.without, h1, Page.mapping, hdead]
    · simp [Page.without, h1, Page.mapping, Vector.get_put_of_ne _ _ (Ne.symm hk), hk]

theorem Page.counted_without {slots : Vector Mapping 1024} {k : Fin 1024} {id : BlockId}
    (hs : slots.get k = .live id) {live' : Int} {slots' : Vector Mapping 1024}
    (h : Page.without (liveCount slots) slots k = .table live' slots') :
    live' = liveCount slots' := by
  unfold Page.without at h
  split at h
  · cases h
  · cases h
    have hput := liveCount_put slots k .invalidated
    have hpos := liveCount_pos slots k (by rw [hs]; rfl)
    rw [hs] at hput
    simp at hput
    omega

namespace CodeCache

variable {c d : CodeCache} {id i : BlockId} {pc pc' page : UInt32} {rest : List BlockId}

/-- The oldest block leaves the ring and is retired: it is no longer found, all others are. -/
theorem Mapped.retire (h : Mapped c) (hr : c.ring = id :: rest) (hn : id ∉ rest) :
    ∃ d, ({ c with ring := rest }).retire id = .ok d ∧ Mapped d ∧
      ∀ pc i, d.lookup pc = .live i ↔
        c.lookup pc = .live i ∧ ((c.block id).origin = 0 ∨ i ≠ id) := by
  have hmem {i : BlockId} (hi : i ∈ c.ring) (hne : i ≠ id) : i ∈ rest := by
    rw [hr] at hi
    exact (List.mem_cons.mp hi).resolve_left hne
  by_cases ho : (c.block id).origin = 0
  · refine ⟨{ c with ring := rest }, if_pos ho, ⟨h.origin, h.bound, fun {i} hi => ?_, h.counted,
      h.pageRange⟩, fun pc i => ⟨fun hl => ⟨hl, .inl ho⟩, And.left⟩⟩
    obtain ⟨hring, hlive⟩ := h.live hi
    exact ⟨hmem hring fun he => hi (he ▸ ho), hlive⟩
  · obtain ⟨hring, hlive⟩ := h.live ho
    have hsize := h.bound hlive
    have hword := h.lookup_origin ho
    generalize hpc : (c.block id).origin = pc at ho hlive hword
    obtain ⟨live, slots, hp⟩ : ∃ live slots, c.pages[pageOf pc]? = some (.table live slots) := by
      unfold CodeCache.lookup at hlive
      cases hp : c.pages[pageOf pc]? with
      | none => simp [hp] at hlive
      | some p =>
        cases p with
        | released => simp [hp, Page.mapping] at hlive
        | table live slots => exact ⟨live, slots, rfl⟩
    have hs : slots.get (slotOf pc) = .live id := (lookup_of_page hp).symm.trans hlive
    obtain rfl := h.counted hp
    let d := ({ c with
      ring := rest
      pages := c.pages.insert (pageOf pc) (.without (liveCount slots) slots (slotOf pc))
      occupied := if (liveCount slots : Int) - 1 = 0 then c.occupied.erase (pageOf pc)
        else c.occupied }
      : CodeCache).modifyBlock id fun b => { b with origin := 0 }
    have hlook (pc' : UInt32) (i : BlockId) : d.lookup pc' = .live i ↔
        c.lookup pc' = .live i ∧ wordAddr pc' ≠ wordAddr pc := by
      rw [lookup_insert (d := d) rfl]
      by_cases hp' : pageOf pc' = pageOf pc
      · rw [if_pos hp', Page.mapping_without hs, lookup_of_page (hp' ▸ hp), ne_eq, ne_eq,
          wordAddr_eq_iff]
        simp [hp', Page.mapping]
      · rw [if_neg hp', ne_eq, wordAddr_eq_iff]
        simp [hp']
    -- Other addresses have other blocks.
    have hother {pc' : UInt32} {i : BlockId} (hl : c.lookup pc' = .live i) :
        wordAddr pc' ≠ wordAddr pc ↔ i ≠ id := by
      refine not_congr ⟨fun he => ?_, fun he => h.unique (he ▸ hl) hlive⟩
      exact Mapping.live.inj (hl.symm.trans ((lookup_congr he).trans hlive))
    have hblock {i : BlockId} (hi : i ≠ id) : d.block i = c.block i := block_modifyBlock_of_ne hi _
    refine ⟨d, ?_, ⟨fun {pc' i} hl => ?_, fun hl => ?_, fun {i} hi => ?_, ?_, ?_⟩, fun pc' i => ?_⟩
    · exact retire_of_live (c := { c with ring := rest }) hpc ho hp hs
    · obtain ⟨hl, hne⟩ := (hlook _ _).mp hl
      rw [hblock ((hother hl).mp hne), h.origin hl]
    · exact (size_modifyBlock _ _ _).symm ▸ h.bound ((hlook _ _).mp hl).1
    · have hne : i ≠ id := by
        rintro rfl
        exact hi (congrArg Block.origin (block_modifyBlock_self hsize _))
      rw [hblock hne] at hi ⊢
      obtain ⟨hring', hlive'⟩ := h.live hi
      exact ⟨hmem hring' hne, (hlook _ _).mpr ⟨hlive', (hother hlive').mpr hne⟩⟩
    · exact h.insert_counted fun _ _ => Page.counted_without hs
    · exact h.insert_pageRange (pageOf_lt pc)
    · rw [hlook]
      refine and_congr_right fun hl => ?_
      rw [hother hl]
      simp [ho]

section
variable (c : CodeCache) (b : Block) (pc : UInt32)

@[simp] theorem blocks_tag : (c.tag b pc).blocks = c.blocks := by simp only [tag]
@[simp] theorem pages_tag : (c.tag b pc).pages = c.pages := by simp only [tag]
@[simp] theorem occupied_tag : (c.tag b pc).occupied = c.occupied := by simp only [tag]
@[simp] theorem ring_tag : (c.tag b pc).ring = c.ring := by simp only [tag]
@[simp] theorem block_tag (i : BlockId) : (c.tag b pc).block i = c.block i := by
  simp only [block, blocks_tag]

@[simp] theorem lookup_tag (pc' : UInt32) : (c.tag b pc).lookup pc' = c.lookup pc' := by
  simp only [lookup, pages_tag]

end

section
variable (c : CodeCache) (id : BlockId) (pc : UInt32)

theorem block_setOrigin (i : BlockId) : (c.setOrigin id pc).block i
    = if i = id ∧ id < c.blocks.size then { c.block i with origin := pc } else c.block i := by
  unfold setOrigin
  rw [block_tag, block_modifyBlock]

@[simp] theorem size_setOrigin : (c.setOrigin id pc).blocks.size = c.blocks.size := by
  unfold setOrigin
  rw [blocks_tag, size_modifyBlock]

@[simp] theorem pages_setOrigin : (c.setOrigin id pc).pages = c.pages := pages_tag ..
@[simp] theorem occupied_setOrigin : (c.setOrigin id pc).occupied = c.occupied :=
  occupied_tag ..
@[simp] theorem ring_setOrigin : (c.setOrigin id pc).ring = c.ring := ring_tag ..

@[simp] theorem lookup_setOrigin (pc' : UInt32) :
    (c.setOrigin id pc).lookup pc' = c.lookup pc' := lookup_tag ..

end

theorem bare_supersede (c : CodeCache) (old new : BlockId) :
    (c.supersede old new).bare = (c.setOrigin old 0).bare := by
  have hbare : (((c.block old).links.foldl
      (fun d n => d.enter n new
        (((c.setOrigin old 0).modifyBlock old fun b => { b with links := [] }).block new).entry)
      ((c.setOrigin old 0).modifyBlock old fun b => { b with links := [] })).modifyBlock new
        fun b => { b with links := (c.block old).links.foldr addCell b.links }).bare
      = (c.setOrigin old 0).bare := by
    rw [bare_modifyBlock (by intro b; rfl), bare_foldl (by intro c n; rfl),
      bare_modifyBlock (by intro b; rfl)]
  rw [← hbare]
  rfl

theorem bare_unmap (c : CodeCache) (id : BlockId) : (c.unmap id).bare = (c.setOrigin id 0).bare :=
  bare_unlink _ id

section
variable (c : CodeCache) (pc : UInt32) (id : BlockId)

theorem ring_displace : (c.displace pc id).ring = c.ring := by
  unfold displace
  split
  · rw [ring_of_bare (bare_supersede ..), ring_setOrigin]
  · rfl

theorem size_displace : (c.displace pc id).blocks.size = c.blocks.size := by
  unfold displace
  split
  · rw [size_of_bare (bare_supersede ..), size_setOrigin]
  · rfl

end

theorem Mapped.origin_displace (h : Mapped c) (pc : UInt32) (id i : BlockId) :
    ((c.displace pc id).block i).origin
      = if c.lookup pc = .live i then 0 else (c.block i).origin := by
  unfold displace
  split
  · rename_i old hl
    rw [origin_of_bare (bare_supersede ..), block_setOrigin, hl]
    by_cases he : i = old
    · subst he
      simp [h.bound hl]
    · simp [he, Ne.symm he]
  · rename_i hl
    rw [if_neg (hl i)]

theorem lookup_place (c : CodeCache) (pc : UInt32) (id : BlockId) (pc' : UInt32) :
    (c.place pc id).lookup pc' = if wordAddr pc' = wordAddr pc then .live id else c.lookup pc' := by
  rw [lookup_insert (d := c.place pc id) rfl]
  by_cases hp : pageOf pc' = pageOf pc
  · rw [if_pos hp]
    by_cases hs : slotOf pc' = slotOf pc
    · rw [if_pos (wordAddr_eq_iff.mpr ⟨hp, hs⟩), hs]
      exact Vector.get_put_self _ _ _
    · rw [if_neg fun he => hs (wordAddr_eq_iff.mp he).2]
      exact (Vector.get_put_of_ne _ _ (Ne.symm hs)).trans (get_tableAt hp)
  · rw [if_neg hp, if_neg fun he => hp (wordAddr_eq_iff.mp he).1]

theorem Mapped.counted_place (h : Mapped c) {live : Int} {slots : Vector Mapping 1024}
    (ht : Page.table (if (c.lookup pc).block?.isSome then (c.tableAt (pageOf pc)).1
        else (c.tableAt (pageOf pc)).1 + 1)
      ((c.tableAt (pageOf pc)).2.put (slotOf pc) (.live id)) = .table live slots) :
    live = liveCount slots := by
  obtain ⟨rfl, rfl⟩ := Page.table.inj ht
  rw [liveCount_put, get_tableAt rfl, h.counted_tableAt]
  by_cases hl : (c.lookup pc).block?.isSome
  · have hpos := liveCount_pos (c.tableAt (pageOf pc)).2 (slotOf pc) (by rw [get_tableAt rfl, hl])
    simp [hl]
    omega
  · simp [hl]

theorem bare_publish (c : CodeCache) (pc : UInt32) (id : BlockId) (exits : List Exit) :
    (c.publish pc id exits).bare
      = (((c.place pc id).setOrigin id pc).modifyBlock id fun b => { b with exits }).bare := by
  unfold publish
  dsimp only
  rw [bare_foldl bare_bind]
  refine bare_modifyBlock_congr (fun _ => rfl) ?_
  rw [bare_foldl fun c n => bare_link c n id]
  rfl

theorem lookup_publish (c : CodeCache) (pc : UInt32) (id : BlockId) (exits : List Exit)
    (pc' : UInt32) : (c.publish pc id exits).lookup pc'
      = if wordAddr pc' = wordAddr pc then .live id else c.lookup pc' := by
  rw [lookup_of_bare (bare_publish c pc id exits), lookup_modifyBlock, lookup_setOrigin,
    lookup_place]

theorem pages_publish (c : CodeCache) (pc : UInt32) (id : BlockId) (exits : List Exit) :
    (c.publish pc id exits).pages = (c.place pc id).pages := by
  rw [pages_of_bare (bare_publish c pc id exits), pages_modifyBlock, pages_setOrigin]

theorem occupied_publish (c : CodeCache) (pc : UInt32) (id : BlockId) (exits : List Exit) :
    (c.publish pc id exits).occupied = (c.place pc id).occupied := by
  rw [occupied_of_bare (bare_publish c pc id exits), occupied_modifyBlock, occupied_setOrigin]

theorem ring_publish (c : CodeCache) (pc : UInt32) (id : BlockId) (exits : List Exit) :
    (c.publish pc id exits).ring = c.ring := by
  rw [ring_of_bare (bare_publish c pc id exits), ring_modifyBlock, ring_setOrigin]
  exact ring_displace c pc id

theorem size_publish (c : CodeCache) (pc : UInt32) (id : BlockId) (exits : List Exit) :
    (c.publish pc id exits).blocks.size = c.blocks.size := by
  rw [size_of_bare (bare_publish c pc id exits), size_modifyBlock, size_setOrigin]
  exact size_displace c pc id

theorem Mapped.origin_publish (h : Mapped c) (hid : id < c.blocks.size) (pc : UInt32)
    (exits : List Exit) (i : BlockId) : ((c.publish pc id exits).block i).origin
      = if i = id then pc else if c.lookup pc = .live i then 0 else (c.block i).origin := by
  have hsize : id < (c.place pc id).blocks.size := (size_displace c pc id).symm ▸ hid
  rw [origin_of_bare (bare_publish c pc id exits), block_modifyBlock, block_setOrigin]
  by_cases hi : i = id
  · subst hi
    simp [hsize]
  · simp only [hi, false_and, if_false]
    exact h.origin_displace pc id i

/-- A new block becomes live. -/
theorem Mapped.publish (h : Mapped c) (hid : id < c.blocks.size) (hring : id ∈ c.ring)
    (hnew : ∀ pc, c.lookup pc ≠ .live id) (hpc : wordAddr pc = pc) (exits : List Exit) :
    Mapped (c.publish pc id exits) := by
  have hlook := lookup_publish c pc id exits
  have horigin := h.origin_publish hid pc exits
  refine ⟨fun {pc' i} hl => ?_, fun {pc' i} hl => ?_, fun {i} ho => ?_, ?_, ?_⟩
  · rw [hlook] at hl
    split at hl
    · rename_i he
      cases hl
      rw [horigin, if_pos rfl, he, hpc]
    · rename_i he
      have hi : i ≠ id := fun hi => hnew pc' (hi ▸ hl)
      rw [horigin, if_neg hi, if_neg fun hl' => he (h.unique hl hl'), h.origin hl]
  · rw [size_publish]
    rw [hlook] at hl
    split at hl
    · cases hl
      exact hid
    · exact h.bound hl
  · rw [ring_publish, hlook]
    rw [horigin] at ho ⊢
    by_cases hi : i = id
    · subst hi
      rw [if_pos rfl, if_pos rfl]
      exact ⟨hring, rfl⟩
    · rw [if_neg hi] at ho ⊢
      by_cases hl : c.lookup pc = .live i
      · exact absurd (if_pos hl) ho
      · rw [if_neg hl] at ho ⊢
        obtain ⟨hr, hlive⟩ := h.live ho
        rw [if_neg fun he => hl ((lookup_congr he).symm.trans hlive)]
        exact ⟨hr, hlive⟩
  · rw [pages_publish]
    exact h.insert_counted fun _ _ => h.counted_place
  · rw [pages_publish]
    exact h.insert_pageRange (pageOf_lt pc)

theorem exists_addr (hp : page.toNat < 1048576) (k : Fin 1024) :
    ∃ pc, pageOf pc = page ∧ slotOf pc = k := by
  have hlt : page.toNat * 4096 + k.val * 4 < 4294967296 := by omega
  have hpc : (UInt32.ofNat (page.toNat * 4096 + k.val * 4)).toNat
      = page.toNat * 4096 + k.val * 4 := UInt32.toNat_ofNat_of_lt hlt
  refine ⟨.ofNat (page.toNat * 4096 + k.val * 4), ?_, ?_⟩
  · rw [← UInt32.toNat_inj, toNat_pageOf, hpc]
    omega
  · rw [Fin.ext_iff, val_slotOf, hpc]
    omega

theorem Mapped.mem_table (h : Mapped c) {live : Int} {slots : Vector Mapping 1024}
    (hp : c.pages[page]? = some (.table live slots)) :
    i ∈ slots.toList.filterMap Mapping.block? ↔ ∃ pc, pageOf pc = page ∧ c.lookup pc = .live i := by
  simp only [List.mem_filterMap, Mapping.block?_eq_some, exists_eq_right, Vector.mem_toList_iff]
  constructor
  · intro hm
    obtain ⟨k, hk, hget⟩ := Vector.getElem_of_mem hm
    obtain ⟨pc, rfl, hs⟩ := exists_addr (h.pageRange hp) ⟨k, hk⟩
    refine ⟨pc, rfl, ?_⟩
    rw [lookup_of_page hp, hs]
    exact hget
  · rintro ⟨pc, rfl, hl⟩
    rw [lookup_of_page hp] at hl
    rw [← hl]
    exact Vector.getElem_mem (slotOf pc).isLt

section
variable (ids : List BlockId) (c : CodeCache)

theorem pages_unmapAll : (ids.foldl unmap c).pages = c.pages := by
  induction ids generalizing c with
  | nil => rfl
  | cons id ids ih => rw [List.foldl_cons, ih, pages_of_bare (bare_unmap c id), pages_setOrigin]

theorem occupied_unmapAll : (ids.foldl unmap c).occupied = c.occupied := by
  induction ids generalizing c with
  | nil => rfl
  | cons id ids ih =>
    rw [List.foldl_cons, ih, occupied_of_bare (bare_unmap c id), occupied_setOrigin]

theorem ring_unmapAll : (ids.foldl unmap c).ring = c.ring := by
  induction ids generalizing c with
  | nil => rfl
  | cons id ids ih => rw [List.foldl_cons, ih, ring_of_bare (bare_unmap c id), ring_setOrigin]

theorem size_unmapAll : (ids.foldl unmap c).blocks.size = c.blocks.size := by
  induction ids generalizing c with
  | nil => rfl
  | cons id ids ih => rw [List.foldl_cons, ih, size_of_bare (bare_unmap c id), size_setOrigin]

theorem origin_unmapAll (hids : ∀ id ∈ ids, id < c.blocks.size) (i : BlockId) :
    ((ids.foldl unmap c).block i).origin = if i ∈ ids then 0 else (c.block i).origin := by
  induction ids generalizing c with
  | nil => rfl
  | cons id ids ih =>
    have hsize : (c.unmap id).blocks.size = c.blocks.size := by
      rw [size_of_bare (bare_unmap c id), size_setOrigin]
    rw [List.foldl_cons, ih _ fun i hi => hsize ▸ hids i (.tail _ hi),
      origin_of_bare (bare_unmap c id), block_setOrigin]
    have hid := hids id (.head _)
    by_cases hi : i = id <;> simp [hi, hid]

end

theorem invalidatePage_table {live : Int} {slots : Vector Mapping 1024}
    (hp : c.pages[page]? = some (.table live slots)) : (c.invalidatePage page).2.bare
      = { ((slots.toList.filterMap Mapping.block?).foldl unmap c).bare with
          pages := c.pages.insert page .released
          occupied := c.occupied.erase page } := by
  simp only [invalidatePage, hp, pages_unmapAll, occupied_unmapAll]
  rfl

theorem invalidatePage_cases (c : CodeCache) (page : UInt32) :
    (∃ live slots, c.pages[page]? = some (.table live slots)) ∨ (c.invalidatePage page).2 = c ∧
      ∀ pc i, c.lookup pc = .live i → pageOf pc ≠ page := by
  cases hp : c.pages[page]? with
  | none =>
    refine .inr ⟨by simp [invalidatePage, hp], ?_⟩
    rintro pc i hl rfl
    simp [lookup, hp] at hl
  | some p =>
    cases p with
    | table live slots => exact .inl ⟨live, slots, rfl⟩
    | released =>
      refine .inr ⟨by simp [invalidatePage, hp], ?_⟩
      rintro pc i hl rfl
      simp [lookup, hp, Page.mapping] at hl

theorem pages_invalidatePage {live : Int} {slots : Vector Mapping 1024}
    (hp : c.pages[page]? = some (.table live slots)) :
    (c.invalidatePage page).2.pages = c.pages.insert page .released := by
  have h := congrArg CodeCache.pages (invalidatePage_table hp)
  exact h

theorem occupied_invalidatePage {live : Int} {slots : Vector Mapping 1024}
    (hp : c.pages[page]? = some (.table live slots)) :
    (c.invalidatePage page).2.occupied = c.occupied.erase page := by
  have h := congrArg CodeCache.occupied (invalidatePage_table hp)
  exact h

theorem ring_invalidatePage (c : CodeCache) (page : UInt32) :
    (c.invalidatePage page).2.ring = c.ring := by
  rcases invalidatePage_cases c page with ⟨live, slots, hp⟩ | ⟨he, -⟩
  · have h := congrArg CodeCache.ring (invalidatePage_table hp)
    exact h.trans (ring_unmapAll ..)
  · rw [he]

theorem lookup_invalidatePage : (c.invalidatePage page).2.lookup pc = .live i ↔
    c.lookup pc = .live i ∧ pageOf pc ≠ page := by
  rcases invalidatePage_cases c page with ⟨live, slots, hp⟩ | ⟨he, hne⟩
  · rw [lookup_insert (pages_invalidatePage hp)]
    by_cases hpage : pageOf pc = page <;> simp [hpage, Page.mapping]
  · rw [he]
    exact ⟨fun hl => ⟨hl, hne pc i hl⟩, And.left⟩

/-- The blocks of a page are no longer found, and have no origin. -/
theorem Mapped.invalidatePage (h : Mapped c) (page : UInt32) :
    Mapped (c.invalidatePage page).2 := by
  rcases invalidatePage_cases c page with ⟨live, slots, hp⟩ | ⟨he, -⟩
  · have hbare := invalidatePage_table hp
    have hids := fun i => h.mem_table (i := i) hp
    generalize slots.toList.filterMap Mapping.block? = ids at hbare hids
    have hsize : (c.invalidatePage page).2.blocks.size = c.blocks.size := by
      have hs := congrArg (·.blocks.size) hbare
      simp only [bare, Array.size_map] at hs
      rw [hs, size_unmapAll]
    have horigin (i : BlockId) : ((c.invalidatePage page).2.block i).origin
        = if i ∈ ids then 0 else (c.block i).origin := by
      rw [← origin_unmapAll ids c (fun id hid => ?_)]
      · have ho := congrArg (CodeCache.block · i) hbare
        have hb := (block_bare _ i).symm.trans (ho.trans (block_bare (ids.foldl unmap c) i))
        have horigin := congrArg Block.origin hb
        exact horigin
      · obtain ⟨pc, -, hl⟩ := (hids id).mp hid
        exact h.bound hl
    refine ⟨fun {pc i} hl => ?_, fun {pc i} hl => ?_, fun {i} ho => ?_, ?_, ?_⟩
    · obtain ⟨hc, hne⟩ := lookup_invalidatePage.mp hl
      rw [horigin, if_neg, h.origin hc]
      intro hi
      obtain ⟨pc', hpage, hl'⟩ := (hids i).mp hi
      exact hne ((wordAddr_eq_iff.mp (h.unique hc hl')).1.trans hpage)
    · rw [hsize]
      exact h.bound (lookup_invalidatePage.mp hl).1
    · rw [horigin] at ho ⊢
      by_cases hi : i ∈ ids
      · exact absurd (if_pos hi) ho
      · rw [if_neg hi] at ho ⊢
        obtain ⟨hr, hlive⟩ := h.live ho
        rw [ring_invalidatePage]
        exact ⟨hr, lookup_invalidatePage.mpr ⟨hlive, fun hpage => hi ((hids i).mpr ⟨_, hpage, hlive⟩)⟩⟩
    · rw [pages_invalidatePage hp]
      refine h.insert_counted fun _ _ ht => ?_
      cases ht
    · rw [pages_invalidatePage hp]
      exact h.insert_pageRange (h.pageRange hp)
  · rw [he]
    exact h

end CodeCache

end Recompiler
