import Recompiler.Proofs.CellSessions

/-!
The sets of cells, without the map that they should follow. A cell in the set of a block enters
this block, a cell in the set of a target belongs to an exit to this target and enters nothing,
and a cell that belongs to no exit is in no set. This holds at every address, also at zero and at
addresses between words, where the map and the cells may disagree.
-/

namespace Recompiler

open Ir Emit

namespace CodeCache

variable {c d : CodeCache} {id i : BlockId} {n k : Nat} {a pc page : UInt32} {ns : List Nat}

/-- The sets of cells are right about their cells. -/
structure Wired (c : CodeCache) : Prop where
  empty {n : Nat} : (c.cell n).bound = false → c.cell n = .empty
  links {n : Nat} {id : BlockId} : n ∈ (c.block id).links → (c.cell n).linked = some id
  links_nodup (id : BlockId) : (c.block id).links.Nodup
  waits {n : Nat} {a : UInt32} : n ∈ c.waitingAt a →
    (c.cell n).bound = true ∧ (c.cell n).target = a ∧ (c.cell n).linked = none
  waits_nodup (a : UInt32) : (c.waitingAt a).Nodup

namespace Wired

theorem bound_of_links (h : Wired c) (hn : n ∈ (c.block id).links) : (c.cell n).bound = true := by
  by_contra hb
  have hl := h.links hn
  rw [h.empty (Bool.not_eq_true _ ▸ hb)] at hl
  cases hl

theorem linked_of_unbound (h : Wired c) (hb : (c.cell n).bound = false) :
    (c.cell n).linked = none := by
  rw [h.empty hb]
  rfl

theorem not_waits (h : Wired c) (hl : (c.cell n).linked ≠ none) : n ∉ c.waitingAt a :=
  fun hw => hl (h.waits hw).2.2

theorem not_mem_of_unbound (h : Wired c) (hb : (c.cell n).bound = false) :
    (∀ i, n ∉ (c.block i).links) ∧ ∀ a, n ∉ c.waitingAt a := by
  refine ⟨fun i hn => ?_, fun a hn => ?_⟩
  · rw [h.bound_of_links hn] at hb
    cases hb
  · rw [(h.waits hn).1] at hb
    cases hb

theorem of_sameCells (h : Wired c) (hs : SameCells c d) : Wired d := by
  have hcell := hs.cell
  have hwait (a : UInt32) : d.waitingAt a = c.waitingAt a := by
    unfold waitingAt
    rw [hs.waiting]
  refine ⟨fun hb => ?_, fun {n id} hn => ?_, fun id => ?_, fun {n a} hn => ?_, fun a => ?_⟩
  · rw [hcell] at hb ⊢
    exact h.empty hb
  · rw [hs.into] at hn
    rw [hcell]
    exact h.links hn
  · rw [hs.into]
    exact h.links_nodup id
  · rw [hwait] at hn
    rw [hcell]
    exact h.waits hn
  · rw [hwait]
    exact h.waits_nodup a

/-- Bound cells change, and the sets of cells with them. -/
theorem change {g : Nat → Cell} (h : Wired c)
    (hcell : ∀ k, d.cell k = if k ∈ ns then g k else c.cell k)
    (hlinks : ∀ k i, k ∈ (d.block i).links →
      if k ∈ ns then (g k).linked = some i else k ∈ (c.block i).links)
    (hlinks' : ∀ i, (d.block i).links.Nodup)
    (hwaits : ∀ k a, k ∈ d.waitingAt a →
      if k ∈ ns then (g k).bound = true ∧ (g k).target = a ∧ (g k).linked = none
      else k ∈ c.waitingAt a)
    (hwaits' : ∀ a, (d.waitingAt a).Nodup)
    (hg : ∀ k ∈ ns, (g k).bound = false → g k = .empty) : Wired d := by
  refine ⟨fun {k} hb => ?_, fun {k i} hk => ?_, hlinks', fun {k a} hk => ?_, hwaits'⟩
  · rw [hcell] at hb ⊢
    by_cases hk : k ∈ ns
    · rw [if_pos hk] at hb ⊢
      exact hg k hk hb
    · rw [if_neg hk] at hb ⊢
      exact h.empty hb
  · have hd := hlinks k i hk
    rw [hcell]
    by_cases hns : k ∈ ns
    · rw [if_pos hns] at hd ⊢
      exact hd
    · rw [if_neg hns] at hd ⊢
      exact h.links hd
  · have hd := hwaits k a hk
    rw [hcell]
    by_cases hns : k ∈ ns
    · rw [if_pos hns] at hd ⊢
      exact hd
    · rw [if_neg hns] at hd ⊢
      exact h.waits hd

theorem unlink (h : Wired c) (id : BlockId) : Wired (c.unlink id) := by
  refine h.change (cell_unlink c id) (fun k i hk => ?_) (fun i => ?_) (fun k a hk => ?_)
    (nodup_waitingAt_unlinkCells h.waits_nodup) fun k hk hb => ?_
  · rw [links_block_unlink] at hk
    by_cases hi : i = id
    · rw [if_pos hi] at hk
      cases hk
    · rw [if_neg hi] at hk
      rw [if_neg fun hid => hi (Option.some.inj ((h.links hk).symm.trans (h.links hid)))]
      exact hk
  · rw [links_block_unlink]
    split
    · exact .nil
    · exact h.links_nodup i
  · by_cases hid : k ∈ (c.block id).links
    · rw [if_pos hid]
      have hnot : k ∉ c.waitingAt a := h.not_waits (by rw [h.links hid]; exact nofun)
      exact ⟨h.bound_of_links hid, ((mem_waitingAt_unlinkCells.mp hk).resolve_left hnot).2, rfl⟩
    · rw [if_neg hid]
      exact (mem_waitingAt_unlinkCells.mp hk).resolve_right fun hw => hid hw.1
  · exact absurd hb (by simp [h.bound_of_links hk])

theorem unmapAll (h : Wired c) (ids : List BlockId) : Wired (ids.foldl unmap c) :=
  List.foldlRecOn (motive := Wired) ids _ h fun d hd id _ =>
    (hd.of_sameCells (.setOrigin d id 0)).unlink id

/-- A cell leaves every set of cells. -/
theorem detach (h : Wired c) (n : Nat) :
    (∀ i, ((c.detach n).block i).links = (c.block i).links.erase n) ∧
    (∀ a, (c.detach n).waitingAt a = (c.waitingAt a).erase n) := by
  unfold CodeCache.detach
  cases hl : (c.cell n).linked with
  | some id =>
    refine ⟨fun i => ?_, fun a => ?_⟩
    · change ((c.modifyBlock id fun b => { b with links := b.links.erase n }).block i).links = _
      rw [block_modifyBlock]
      split
      · rfl
      · rename_i hi
        rw [List.erase_of_not_mem]
        intro hn
        have he : i = id := Option.some.inj ((h.links hn).symm.trans hl)
        rw [block_of_ge (Nat.le_of_not_lt fun hs => hi ⟨he, he ▸ hs⟩)] at hn
        cases hn
    · exact (List.erase_of_not_mem (h.not_waits (by rw [hl]; exact nofun))).symm
  | none =>
    refine ⟨fun i => ?_, fun a => ?_⟩
    · have hblock : (c.unwait n).block i = c.block i := by
        unfold block
        rw [blocks_unwait]
      dsimp only
      rw [hblock, List.erase_of_not_mem]
      intro hn
      rw [h.links hn] at hl
      cases hl
    · dsimp only
      rw [waitingAt_unwait]
      split
      · rfl
      · rename_i ha
        rw [List.erase_of_not_mem fun hw => ha (h.waits hw).2.1]

theorem sets_freeCell (h : Wired c) (n : Nat) :
    (∀ i, ((c.freeCell n).block i).links = (c.block i).links.erase n) ∧
    (∀ a, (c.freeCell n).waitingAt a = (c.waitingAt a).erase n) := by
  unfold CodeCache.freeCell
  dsimp only
  by_cases hb : (c.cell n).bound = true
  · rw [if_pos hb]
    exact h.detach n
  · rw [if_neg hb]
    obtain ⟨hlinks, hwaits⟩ := h.not_mem_of_unbound (Bool.not_eq_true _ ▸ hb)
    exact ⟨fun i => (List.erase_of_not_mem (hlinks i)).symm,
      fun a => (List.erase_of_not_mem (hwaits a)).symm⟩

theorem freeCell (h : Wired c) (n : Nat) : Wired (c.freeCell n) := by
  have hcell (k : Nat) : (c.freeCell n).cell k = if k ∈ [n] then .empty else c.cell k := by
    rw [cell_freeCell]
    simp only [List.mem_singleton]
  obtain ⟨hinto, hwait⟩ := h.sets_freeCell n
  refine h.change hcell (fun k i hk => ?_) (fun i => ?_) (fun k a hk => ?_) (fun a => ?_)
    fun _ _ _ => rfl
  · rw [hinto, (h.links_nodup i).mem_erase_iff] at hk
    rw [if_neg (by simpa using hk.1)]
    exact hk.2
  · rw [hinto]
    exact (h.links_nodup i).erase n
  · rw [hwait, (h.waits_nodup a).mem_erase_iff] at hk
    rw [if_neg (by simpa using hk.1)]
    exact hk.2
  · rw [hwait]
    exact (h.waits_nodup a).erase n

theorem freeCells (h : Wired c) (ns : List Nat) : Wired (c.freeCells ns) :=
  List.foldlRecOn (motive := Wired) ns _ h fun _ hd n _ => hd.freeCell n

theorem bind {x : Exit} (h : Wired c)
    (hid : ∀ id, c.lookup x.target = .live id → id < c.blocks.size) (hn : x.cell < c.cells.size)
    (hb : (c.cell x.cell).bound = false) : Wired (c.bind x) := by
  obtain ⟨hlinks, hwaits⟩ := h.not_mem_of_unbound hb
  have hcell (k : Nat) : (c.bind x).cell k
      = if k ∈ [x.cell] then ⟨true, x.target, (c.lookup x.target).block?⟩ else c.cell k := by
    rw [cell_bind hn (h.linked_of_unbound hb)]
    simp only [List.mem_singleton]
  rcases bind_cases c x with ⟨id, hl, he⟩ | ⟨hl, he⟩
  · rw [he, hl] at hcell
    rw [he]
    have hs : id < (c.assign x).blocks.size := hid id hl
    have hlink (i : BlockId) : (((c.assign x).link x.cell id).block i).links
        = if i = id then addCell x.cell (c.block i).links else (c.block i).links := by
      rw [links_block_link hs, block_assign]
    have hwait (a : UInt32) : ((c.assign x).link x.cell id).waitingAt a = c.waitingAt a := by
      rw [waitingAt_link, waitingAt_assign]
    refine h.change hcell (fun k i hk => ?_) (fun i => ?_) (fun k a hk => ?_) (fun a => ?_)
      fun _ _ hf => nomatch hf
    · rw [hlink] at hk
      by_cases hx : k = x.cell
      · rw [if_pos (by simpa using hx)]
        split at hk
        · rename_i hi
          rw [hi]
          rfl
        · exact absurd (hx ▸ hk) (hlinks i)
      · rw [if_neg (by simpa using hx)]
        split at hk
        · exact (mem_addCell.mp hk).resolve_left hx
        · exact hk
    · rw [hlink]
      split
      · exact nodup_addCell (h.links_nodup i)
      · exact h.links_nodup i
    · rw [hwait] at hk
      rw [if_neg fun hx : k ∈ [x.cell] => hwaits a (List.mem_singleton.mp hx ▸ hk)]
      exact hk
    · rw [hwait]
      exact h.waits_nodup a
  · rw [he, hl] at hcell
    rw [he]
    have hwait (a : UInt32) : ((c.assign x).wait x.cell).waitingAt a
        = if x.target = a then addCell x.cell (c.waitingAt a) else c.waitingAt a := by
      rw [waitingAt_wait, cell_assign hn, if_pos rfl]
      rfl
    refine h.change hcell (fun k i hk => ?_) h.links_nodup (fun k a hk => ?_) (fun a => ?_)
      fun _ _ hf => nomatch hf
    · change k ∈ (c.block i).links at hk
      rw [if_neg fun hx : k ∈ [x.cell] => hlinks i (List.mem_singleton.mp hx ▸ hk)]
      exact hk
    · rw [hwait] at hk
      by_cases hx : k = x.cell
      · rw [if_pos (by simpa using hx)]
        split at hk
        · exact ⟨rfl, ‹_›, rfl⟩
        · exact absurd (hx ▸ hk) (hwaits a)
      · rw [if_neg (by simpa using hx)]
        split at hk
        · exact (mem_addCell.mp hk).resolve_left hx
        · exact hk
    · rw [hwait]
      split
      · exact nodup_addCell (h.waits_nodup a)
      · exact h.waits_nodup a

theorem bindAll {exits : List Exit} (h : Wired c)
    (hid : ∀ a id, c.lookup a = .live id → id < c.blocks.size) (hu : Unused c exits) :
    Wired (exits.foldl CodeCache.bind c) ∧
      ∀ k ∉ exits.map (·.cell), (exits.foldl CodeCache.bind c).cell k = c.cell k := by
  induction exits generalizing c with
  | nil => exact ⟨h, fun _ _ => rfl⟩
  | cons x exits ih =>
    have hn := hu.lt (.head _)
    have hl := h.linked_of_unbound (hu.unbound (.head _))
    have hbare := bare_bind c x
    obtain ⟨hwired, hother⟩ := ih (h.bind (hid x.target) hn (hu.unbound (.head _)))
      (fun a id hlive => by
        rw [size_of_bare hbare]
        exact hid a id (lookup_of_bare hbare a ▸ hlive)) (hu.tail hl)
    refine ⟨hwired, fun k hk => ?_⟩
    rw [List.map_cons, List.mem_cons, not_or] at hk
    rw [List.foldl_cons, hother k hk.2, cell_bind hn hl, if_neg hk.1]

theorem linkWaiting (h : Wired c) (hid : id < c.blocks.size) (pc : UInt32) :
    Wired (c.linkWaiting pc id) := by
  refine h.change (cell_linkWaiting (fun n hn => lt_of_bound (h.waits hn).1)) (fun k i hk => ?_)
    (fun i => ?_) (fun k a hk => ?_) (fun a => ?_) fun k hk hb => ?_
  · rw [links_block_linkWaiting hid] at hk
    by_cases hw : k ∈ c.waitingAt pc
    · rw [if_pos hw]
      split at hk
      · rename_i hi
        rw [hi]
      · exact absurd ((h.links hk).symm.trans (h.waits hw).2.2) nofun
    · rw [if_neg hw]
      split at hk
      · exact (mem_foldl_addCell.mp hk).resolve_left hw
      · exact hk
  · rw [links_block_linkWaiting hid]
    split
    · exact nodup_foldl_addCell (h.links_nodup i)
    · exact h.links_nodup i
  · rw [waitingAt_linkWaiting] at hk
    split at hk
    · cases hk
    · rename_i ha
      rw [if_neg fun hw => ha ((h.waits hk).2.1.symm.trans (h.waits hw).2.1)]
      exact hk
  · rw [waitingAt_linkWaiting]
    split
    · exact .nil
    · exact h.waits_nodup a
  · exact absurd hb (by simp [(h.waits hk).1])

theorem supersede {old new : BlockId} (h : Wired c) (hne : old ≠ new)
    (hnew : new < c.blocks.size) : Wired (c.supersede old new) := by
  have hsame : SameCells (c.enriched old new) (c.supersede old new) :=
    ⟨rfl, rfl, rfl, rfl, fun _ => rfl⟩
  refine of_sameCells ?_ hsame
  refine h.change (cell_enriched fun n hn => lt_of_bound (h.bound_of_links hn))
    (fun k i hk => ?_) (fun i => ?_) (fun k a hk => ?_) (fun a => ?_) fun k hk hb => ?_
  · rw [links_block_enriched hne hnew] at hk
    by_cases ho : k ∈ (c.block old).links
    · rw [if_pos ho]
      split at hk
      · rename_i hi
        rw [hi]
      · split at hk
        · cases hk
        · rename_i hi
          exact absurd (Option.some.inj ((h.links hk).symm.trans (h.links ho))) hi
    · rw [if_neg ho]
      split at hk
      · exact (mem_foldr_addCell.mp hk).resolve_left ho
      · split at hk
        · cases hk
        · exact hk
  · rw [links_block_enriched hne hnew]
    split
    · exact nodup_foldr_addCell (h.links_nodup i)
    · split
      · exact .nil
      · exact h.links_nodup i
  · rw [waitingAt_enriched] at hk
    rw [if_neg fun ho => h.not_waits (by rw [h.links ho]; exact nofun) hk]
    exact hk
  · rw [waitingAt_enriched]
    exact h.waits_nodup a
  · exact absurd hb (by simp [h.bound_of_links hk])

theorem exposed (h : Wired c) (hid : id < c.blocks.size) (hnew : c.lookup pc ≠ .live id)
    (exits : List Exit) : Wired (c.exposed pc id exits) := by
  have hdisplace : Wired (c.displace pc id) := by
    unfold CodeCache.displace
    split
    · rename_i old hold
      exact h.supersede (fun he => hnew (he ▸ hold)) hid
    · exact h
  have hplace : SameCells (c.displace pc id) ((c.place pc id).setOrigin id pc) := by
    have h1 : SameCells (c.displace pc id) (c.place pc id) := ⟨rfl, rfl, rfl, rfl, fun _ => rfl⟩
    exact h1.trans (.setOrigin _ id pc)
  have hsize : id < ((c.place pc id).setOrigin id pc).blocks.size := by
    rw [size_setOrigin]
    exact (size_displace c pc id).symm ▸ hid
  exact ((hdisplace.of_sameCells hplace).linkWaiting hsize pc).of_sameCells
    (.modifyBlock _ id (f := fun b => { b with exits }) fun _ => rfl)

theorem publish {exits : List Exit} (h : Wired c) (hs : Sound c) (hmem : id ∈ c.ring)
    (hnew : ∀ a, c.lookup a ≠ .live id) (hpc : pc &&& 3 = 0) (hu : Unused c exits) :
    Wired (c.publish pc id exits) := by
  have hbare : (c.publish pc id exits).bare = (c.exposed pc id exits).bare :=
    bare_foldl bare_bind exits _
  have hsound := hs.publish hmem hnew hpc exits
  have hr := Rerouted.exposed c pc id exits
  have hu' : Unused (c.exposed pc id exits) exits :=
    ⟨hu.nodup, fun hx => hr.size ▸ hu.lt hx, fun hx => (hr.bound _).trans (hu.unbound hx)⟩
  refine ((h.exposed (hs.ringed.bound hmem) (hnew pc) exits).bindAll (fun a i hl => ?_) hu').1
  rw [← size_of_bare hbare]
  exact hsound.mapped.bound ((lookup_of_bare hbare a).trans hl)

end Wired

theorem Placed.unused {count : Nat} {held : List Nat} {exits : List Exit} (h : Placed count c held)
    (hns : (exits.map (·.cell)).Nodup) (hsub : exits.map (·.cell) ⊆ held) : Unused c exits := by
  have hheld {x : Exit} (hx : x ∈ exits) : x.cell ∈ c.free ++ held :=
    List.mem_append_right _ (hsub (List.mem_map_of_mem hx))
  refine ⟨hns, fun hx => ?_, fun hx => h.unbound (hheld hx)⟩
  rw [← List.mem_range]
  exact h.perm.mem_iff.mp (List.mem_append_left _ (hheld hx))

theorem wired_create (size : Nat) (maxPages maxCells : Int) :
    Wired (create (.create size) maxPages maxCells) where
  empty {n} _ := by
    simp only [cell, create, Array.getD_eq_getD_getElem?, Array.getElem?_replicate]
    split <;> split <;> rfl
  links {n id} hn := by
    have hblock : (create (.create size) maxPages maxCells).block id = default := by
      simp [block, create]
    rw [hblock] at hn
    cases hn
  links_nodup id := by
    have hblock : (create (.create size) maxPages maxCells).block id = default := by
      simp [block, create]
    rw [hblock]
    exact .nil
  waits hn := by
    simp [waitingAt, create] at hn
  waits_nodup a := by
    simp [waitingAt, create]

end CodeCache

end Recompiler
