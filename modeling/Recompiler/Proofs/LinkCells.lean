import Recompiler.Proofs.Eviction

/-!
Link cells. A cell that belongs to an exit enters the block that is live at the target of the
exit, and waits if there is none. The set of cells that enter a block, the sets of those that wait
and the number of linked cells all say the same about it. Here are the operations on cells, each
with what it does to the map from targets to blocks that the cells follow.
-/

namespace Recompiler

open Ir Emit

namespace CodeCache

variable {c d e : CodeCache} {id i : BlockId} {n k : Nat} {a : UInt32} {ns : List Nat}
  {m m' : UInt32 → Option BlockId}

@[simp] theorem mem_addCell {s : List Nat} : k ∈ addCell n s ↔ k = n ∨ k ∈ s := by
  unfold addCell
  split
  · rename_i h
    constructor
    · exact .inr
    · rintro (rfl | hk)
      · exact List.contains_iff_mem.mp h
      · exact hk
  · exact List.mem_cons

theorem nodup_addCell {s : List Nat} (h : s.Nodup) : (addCell n s).Nodup := by
  unfold addCell
  split
  · exact h
  · rename_i hn
    exact List.nodup_cons.mpr ⟨fun hm => hn (List.contains_iff_mem.mpr hm), h⟩

theorem mem_foldr_addCell {s : List Nat} : k ∈ ns.foldr addCell s ↔ k ∈ ns ∨ k ∈ s := by
  induction ns with
  | nil => simp
  | cons n ns ih => rw [List.foldr_cons, mem_addCell, ih, List.mem_cons, or_assoc]

theorem nodup_foldr_addCell {s : List Nat} (h : s.Nodup) : (ns.foldr addCell s).Nodup := by
  induction ns with
  | nil => exact h
  | cons n ns ih => exact nodup_addCell ih

def waitingAt (c : CodeCache) (a : UInt32) : List Nat := c.waiting.getD a []

theorem waitingAt_wait (c : CodeCache) (n : Nat) (a : UInt32) : (c.wait n).waitingAt a
    = if (c.cell n).target = a then addCell n (c.waitingAt a) else c.waitingAt a := by
  unfold wait waitingAt
  dsimp only
  rw [Std.HashMap.getD_insert]
  by_cases h : (c.cell n).target = a
  · simp [h]
  · simp [h]

theorem waitingAt_unwait (c : CodeCache) (n : Nat) (a : UInt32) : (c.unwait n).waitingAt a
    = if (c.cell n).target = a then (c.waitingAt a).erase n else c.waitingAt a := by
  unfold unwait waitingAt
  dsimp only
  split
  · rename_i h
    dsimp only
    rw [Std.HashMap.getD_erase]
    by_cases ha : (c.cell n).target = a
    · subst ha
      simp [List.isEmpty_iff.mp h]
    · simp [ha]
  · dsimp only
    rw [Std.HashMap.getD_insert]
    by_cases ha : (c.cell n).target = a
    · simp [ha]
    · simp [ha]

def linkedCells (c : CodeCache) : Finset Nat :=
  (Finset.range c.cells.size).filter fun n => (c.cell n).linked ≠ none

theorem lt_of_linked (h : (c.cell n).linked ≠ none) : n < c.cells.size := by
  by_contra hn
  rw [cell_of_ge (Nat.le_of_not_lt hn)] at h
  exact h rfl

theorem lt_of_bound (h : (c.cell n).bound = true) : n < c.cells.size := by
  by_contra hn
  rw [cell_of_ge (Nat.le_of_not_lt hn)] at h
  cases h

theorem mem_linkedCells : n ∈ c.linkedCells ↔ (c.cell n).linked ≠ none := by
  unfold linkedCells
  rw [Finset.mem_filter, Finset.mem_range]
  exact ⟨And.right, fun h => ⟨lt_of_linked h, h⟩⟩

/-- The cells of a cache follow the map `m` from targets to blocks. -/
structure Linked (c : CodeCache) (m : UInt32 → Option BlockId) : Prop where
  leads (n : Nat) :
    (c.cell n).linked = if (c.cell n).bound then m (c.cell n).target else none
  links {n : Nat} {id : BlockId} : n ∈ (c.block id).links ↔ (c.cell n).linked = some id
  links_nodup (id : BlockId) : (c.block id).links.Nodup
  waits {n : Nat} {a : UInt32} : n ∈ c.waitingAt a ↔
    (c.cell n).bound = true ∧ (c.cell n).target = a ∧ (c.cell n).linked = none
  waits_nodup (a : UInt32) : (c.waitingAt a).Nodup
  count : c.links = c.linkedCells.card

theorem Linked.bound (h : Linked c m) (hl : (c.cell n).linked ≠ none) :
    (c.cell n).bound = true := by
  rw [h.leads n] at hl
  by_contra hb
  rw [if_neg hb] at hl
  exact hl rfl

theorem Linked.linked_of_bound (h : Linked c m) (hb : (c.cell n).bound = true) :
    (c.cell n).linked = m (c.cell n).target := by
  rw [h.leads n, if_pos hb]

theorem Linked.linked_of_unbound (h : Linked c m) (hb : (c.cell n).bound = false) :
    (c.cell n).linked = none := by
  rw [h.leads n, hb]
  rfl

/-- Some cells change: the sets of cells and the map have to change with them. -/
theorem Linked.change {g : Nat → Cell} (h : Linked c m)
    (hcell : ∀ k, d.cell k = if k ∈ ns then g k else c.cell k)
    (hlinks : ∀ k i, k ∈ (d.block i).links ↔
      if k ∈ ns then (g k).linked = some i else k ∈ (c.block i).links)
    (hlinks' : ∀ i, (d.block i).links.Nodup)
    (hwaits : ∀ k a, k ∈ d.waitingAt a ↔
      if k ∈ ns then (g k).bound = true ∧ (g k).target = a ∧ (g k).linked = none
      else k ∈ c.waitingAt a)
    (hwaits' : ∀ a, (d.waitingAt a).Nodup) (hcount : d.links = d.linkedCells.card)
    (hg : ∀ k ∈ ns, (g k).linked = if (g k).bound then m' (g k).target else none)
    (hm : ∀ k, k ∉ ns → (c.cell k).bound = true → m' (c.cell k).target = m (c.cell k).target) :
    Linked d m' := by
  refine ⟨fun k => ?_, fun {k i} => ?_, hlinks', fun {k a} => ?_, hwaits', hcount⟩
  · rw [hcell]
    by_cases hk : k ∈ ns
    · rw [if_pos hk]
      exact hg k hk
    · rw [if_neg hk, h.leads k]
      by_cases hb : (c.cell k).bound = true
      · rw [if_pos hb, if_pos hb, hm k hk hb]
      · rw [if_neg hb, if_neg hb]
  · rw [hlinks, hcell]
    split
    · rfl
    · exact h.links
  · rw [hwaits, hcell]
    split
    · rfl
    · exact h.waits

/-- Two caches with the same cells and the same sets of cells. -/
structure SameCells (c d : CodeCache) : Prop where
  cells : d.cells = c.cells
  free : d.free = c.free
  waiting : d.waiting = c.waiting
  links : d.links = c.links
  into (i : BlockId) : (d.block i).links = (c.block i).links

namespace SameCells

theorem refl (c : CodeCache) : SameCells c c := ⟨rfl, rfl, rfl, rfl, fun _ => rfl⟩

theorem trans (h : SameCells c d) (h' : SameCells d e) : SameCells c e where
  cells := h'.cells.trans h.cells
  free := h'.free.trans h.free
  waiting := h'.waiting.trans h.waiting
  links := h'.links.trans h.links
  into i := (h'.into i).trans (h.into i)

theorem cell (h : SameCells c d) (n : Nat) : d.cell n = c.cell n := by
  unfold CodeCache.cell
  rw [h.cells]

theorem modifyBlock (c : CodeCache) (id : BlockId) {f : Block → Block}
    (hf : ∀ b, (f b).links = b.links) : SameCells c (c.modifyBlock id f) where
  cells := rfl
  free := rfl
  waiting := rfl
  links := rfl
  into i := by
    rw [block_modifyBlock]
    split
    · exact hf _
    · rfl

theorem tag (c : CodeCache) (b : Block) (pc : UInt32) : SameCells c (c.tag b pc) := by
  obtain ⟨arena, -, he⟩ := tag_eq c b pc
  rw [he]
  exact ⟨rfl, rfl, rfl, rfl, fun _ => rfl⟩

theorem setOrigin (c : CodeCache) (id : BlockId) (pc : UInt32) :
    SameCells c (c.setOrigin id pc) :=
  (modifyBlock c id (f := fun b => { b with origin := pc }) fun _ => rfl).trans
    (tag _ (c.block id) pc)

theorem push (c : CodeCache) {b : Block} (hb : b.links = []) : SameCells c (c.push b) := by
  obtain ⟨arena, -, hpush⟩ := push_eq c b
  obtain ⟨_, _, _, _, _, _, _, he⟩ := absorbTail_eq c b.offset
  refine ⟨?_, ?_, ?_, ?_, fun i => ?_⟩
  · rw [hpush, he]
  · rw [hpush, he]
  · rw [hpush, he]
  · rw [hpush, he]
  · by_cases hi : i = c.blocks.size
    · rw [block_push, if_pos hi, hb, block_of_ge (Nat.le_of_eq hi.symm)]
      rfl
    · obtain ⟨size, hs⟩ := block_push_of_ne c b hi
      rw [hs]

theorem retire (h : c.retire id = .ok d) : SameCells c d := by
  rcases retire_cases h with ⟨-, rfl⟩ | ⟨pages, occupied, rfl⟩
  · exact .refl d
  · have hp : SameCells c { c with pages, occupied } := ⟨rfl, rfl, rfl, rfl, fun _ => rfl⟩
    exact hp.trans (modifyBlock _ id (f := fun b => { b with origin := 0 }) fun _ => rfl)

theorem settle (c : CodeCache) : SameCells c c.settle := by
  rw [settle_eq]
  exact ⟨rfl, rfl, rfl, rfl, fun _ => rfl⟩

end SameCells

theorem Linked.of_sameCells (h : Linked c m) (hs : SameCells c d) : Linked d m := by
  have hcell := hs.cell
  have hwait (a : UInt32) : d.waitingAt a = c.waitingAt a := by
    unfold waitingAt
    rw [hs.waiting]
  have hcount : d.linkedCells = c.linkedCells := by
    ext n
    rw [mem_linkedCells, mem_linkedCells, hcell]
  refine ⟨fun n => ?_, fun {n id} => ?_, fun id => ?_, fun {n a} => ?_, fun a => ?_, ?_⟩
  · rw [hcell]
    exact h.leads n
  · rw [hs.into, hcell]
    exact h.links
  · rw [hs.into]
    exact h.links_nodup id
  · rw [hwait, hcell]
    exact h.waits
  · rw [hwait]
    exact h.waits_nodup a
  · rw [hs.links, hcount]
    exact h.count

theorem Linked.of_map (h : Linked c m)
    (he : ∀ n, (c.cell n).bound = true → m' (c.cell n).target = m (c.cell n).target) :
    Linked c m' := by
  refine { h with leads := fun n => ?_ }
  rw [h.leads n]
  by_cases hb : (c.cell n).bound = true
  · rw [if_pos hb, if_pos hb, he n hb]
  · rw [if_neg hb, if_neg hb]

theorem card_linkedCells
    (h : ∀ k, (d.cell k).linked ≠ none ↔ (c.cell k).linked ≠ none ∧ k ∉ ns) (hn : ns.Nodup)
    (hns : ∀ n ∈ ns, (c.cell n).linked ≠ none) :
    (d.linkedCells.card : Int) = c.linkedCells.card - ns.length := by
  have hd : d.linkedCells = c.linkedCells \ ns.toFinset := by
    ext k
    rw [Finset.mem_sdiff, mem_linkedCells, mem_linkedCells, List.mem_toFinset, h]
  have hsub : ns.toFinset ⊆ c.linkedCells := by
    intro n hm
    exact mem_linkedCells.mpr (hns n (List.mem_toFinset.mp hm))
  have hcard := Finset.card_sdiff_add_card_eq_card hsub
  rw [List.toFinset_card_of_nodup hn] at hcard
  rw [hd]
  omega

def without (m : UInt32 → Option BlockId) (id : BlockId) : UInt32 → Option BlockId :=
  fun a => if m a = some id then none else m a

theorem cell_unlinkCell (c : CodeCache) (n k : Nat) : (c.unlinkCell n).cell k
    = if k = n then { c.cell k with linked := none } else c.cell k := by
  change (c.modifyCell n fun cell => { cell with linked := none }).cell k = _
  rw [cell_modifyCell]
  by_cases hk : k = n
  · subst hk
    by_cases hs : k < c.cells.size
    · rw [if_pos ⟨rfl, hs⟩, if_pos rfl]
    · rw [if_neg fun h => hs h.2, if_pos rfl, cell_of_ge (Nat.le_of_not_lt hs)]
      rfl
  · rw [if_neg fun h => hk h.1, if_neg hk]

theorem waitingAt_unlinkCell (c : CodeCache) (n : Nat) (a : UInt32) : (c.unlinkCell n).waitingAt a
    = if (c.cell n).target = a then addCell n (c.waitingAt a) else c.waitingAt a := by
  have htarget : ((c.unlinkCell n).cell n).target = (c.cell n).target := by
    rw [cell_unlinkCell, if_pos rfl]
  have hw := waitingAt_wait { c.modifyCell n fun cell => { cell with linked := none } with
    words := c.words.setIfInBounds n 0, links := c.links - 1 } n a
  rw [← htarget]
  exact hw

theorem cell_unlinkCells (ns : List Nat) (c : CodeCache) (k : Nat) : (ns.foldl unlinkCell c).cell k
    = if k ∈ ns then { c.cell k with linked := none } else c.cell k := by
  induction ns generalizing c with
  | nil => simp
  | cons n ns ih =>
    rw [List.foldl_cons, ih, cell_unlinkCell]
    by_cases hk : k = n <;> by_cases hm : k ∈ ns <;> simp [hk, hm]

theorem mem_waitingAt_unlinkCells {ns : List Nat} {c : CodeCache} :
    k ∈ (ns.foldl unlinkCell c).waitingAt a ↔
      k ∈ c.waitingAt a ∨ k ∈ ns ∧ (c.cell k).target = a := by
  induction ns generalizing c with
  | nil => simp
  | cons n ns ih =>
    have htarget : ((c.unlinkCell n).cell k).target = (c.cell k).target := by
      rw [cell_unlinkCell]
      split <;> rfl
    rw [List.foldl_cons, ih, htarget, waitingAt_unlinkCell]
    by_cases ha : (c.cell n).target = a
    · rw [if_pos ha, mem_addCell]
      by_cases hk : k = n <;> simp [hk, ha]
    · rw [if_neg ha]
      by_cases hk : k = n <;> simp [hk, ha]

theorem nodup_waitingAt_unlinkCells {ns : List Nat} {c : CodeCache}
    (h : ∀ a, (c.waitingAt a).Nodup) (a : UInt32) :
    ((ns.foldl unlinkCell c).waitingAt a).Nodup := by
  induction ns generalizing c with
  | nil => exact h a
  | cons n ns ih =>
    refine ih fun a => ?_
    rw [waitingAt_unlinkCell]
    split
    · exact nodup_addCell (h a)
    · exact h a

theorem links_unlinkCells (ns : List Nat) (c : CodeCache) :
    (ns.foldl unlinkCell c).links = c.links - ns.length := by
  induction ns generalizing c with
  | nil => simp
  | cons n ns ih =>
    have hl : (c.unlinkCell n).links = c.links - 1 := rfl
    rw [List.foldl_cons, ih, hl, List.length_cons]
    omega

theorem blocks_unlinkCells (ns : List Nat) (c : CodeCache) :
    (ns.foldl unlinkCell c).blocks = c.blocks := by
  induction ns generalizing c with
  | nil => rfl
  | cons n ns ih =>
    rw [List.foldl_cons, ih]
    rfl

theorem cell_unlink (c : CodeCache) (id : BlockId) (k : Nat) : (c.unlink id).cell k
    = if k ∈ (c.block id).links then { c.cell k with linked := none } else c.cell k :=
  cell_unlinkCells _ c k

theorem links_block_unlink (c : CodeCache) (id i : BlockId) :
    ((c.unlink id).block i).links = if i = id then [] else (c.block i).links := by
  have hblock (i : BlockId) : ((c.block id).links.foldl unlinkCell c).block i = c.block i := by
    unfold block
    rw [blocks_unlinkCells]
  change ((((c.block id).links.foldl unlinkCell c).modifyBlock id
    fun b => { b with links := [] }).block i).links = _
  rw [block_modifyBlock, blocks_unlinkCells]
  by_cases hi : i = id
  · subst hi
    by_cases hs : i < c.blocks.size
    · rw [if_pos ⟨rfl, hs⟩, if_pos rfl]
    · rw [if_neg fun h => hs h.2, if_pos rfl, hblock, block_of_ge (Nat.le_of_not_lt hs)]
      rfl
  · rw [if_neg fun h => hi h.1, if_neg hi, hblock]

theorem Linked.unlink (h : Linked c m) (id : BlockId) : Linked (c.unlink id) (without m id) := by
  have hmem (k : Nat) (a : UInt32) : k ∈ (c.unlink id).waitingAt a ↔
      k ∈ c.waitingAt a ∨ k ∈ (c.block id).links ∧ (c.cell k).target = a :=
    mem_waitingAt_unlinkCells
  have hbound {k : Nat} (hk : k ∈ (c.block id).links) : (c.cell k).bound = true :=
    h.bound (by rw [h.links.mp hk]; exact Option.some_ne_none id)
  refine h.change (cell_unlink c id) (fun k i => ?_) (fun i => ?_) (fun k a => ?_)
    (nodup_waitingAt_unlinkCells h.waits_nodup) ?_ (fun k hk => ?_) fun k hk hb => ?_
  · rw [links_block_unlink]
    by_cases hi : i = id
    · subst hi
      by_cases hk : k ∈ (c.block i).links <;> simp [hk]
    · rw [if_neg hi, h.links]
      by_cases hk : k ∈ (c.block id).links
      · simp [hk, h.links.mp hk, Ne.symm hi]
      · rw [if_neg hk]
  · rw [links_block_unlink]
    split
    · exact .nil
    · exact h.links_nodup i
  · rw [hmem]
    by_cases hk : k ∈ (c.block id).links
    · have hw : k ∉ c.waitingAt a := by
        rw [h.waits, h.links.mp hk]
        simp
      simp [hk, hw, hbound hk]
    · simp [hk]
  · have hlinks : (c.unlink id).links = c.links - (c.block id).links.length :=
      links_unlinkCells _ c
    rw [hlinks, h.count, ← card_linkedCells (fun k => ?_) (h.links_nodup id) fun n hn => ?_]
    · rw [cell_unlink]
      by_cases hk : k ∈ (c.block id).links <;> simp [hk]
    · rw [h.links.mp hn]
      exact Option.some_ne_none id
  · have hl := h.links.mp hk
    have hb := hbound hk
    rw [h.linked_of_bound hb] at hl
    dsimp only
    rw [if_pos hb, without, if_pos hl]
  · rw [h.links, h.linked_of_bound hb] at hk
    rw [without, if_neg hk]

section
variable (c : CodeCache) (n : Nat)

theorem blocks_unwait : (c.unwait n).blocks = c.blocks := by
  unfold unwait
  dsimp only
  split <;> rfl

theorem cells_unwait : (c.unwait n).cells = c.cells := by
  unfold unwait
  dsimp only
  split <;> rfl

theorem free_unwait : (c.unwait n).free = c.free := by
  unfold unwait
  dsimp only
  split <;> rfl

theorem links_unwait : (c.unwait n).links = c.links := by
  unfold unwait
  dsimp only
  split <;> rfl

theorem cells_detach : (c.detach n).cells = c.cells := by
  unfold detach
  split
  · rfl
  · exact cells_unwait c n

theorem free_detach : (c.detach n).free = c.free := by
  unfold detach
  split
  · rfl
  · exact free_unwait c n

end

/-- A cell leaves every set of cells. -/
theorem Linked.detach (h : Linked c m) (n : Nat) :
    (∀ i, ((c.detach n).block i).links = (c.block i).links.erase n) ∧
    (∀ a, (c.detach n).waitingAt a = (c.waitingAt a).erase n) ∧
    (c.detach n).links = c.links - if (c.cell n).linked = none then 0 else 1 := by
  unfold CodeCache.detach
  cases hl : (c.cell n).linked with
  | some id =>
    have hn : n ∈ (c.block id).links := h.links.mpr hl
    have hid : id < c.blocks.size := by
      by_contra hge
      rw [block_of_ge (Nat.le_of_not_lt hge)] at hn
      cases hn
    refine ⟨fun i => ?_, fun a => ?_, rfl⟩
    · change ((c.modifyBlock id fun b => { b with links := b.links.erase n }).block i).links = _
      rw [block_modifyBlock]
      by_cases hi : i = id
      · rw [if_pos ⟨hi, hid⟩]
      · rw [if_neg fun h => hi h.1, List.erase_of_not_mem]
        rw [h.links, hl, Option.some.injEq]
        exact Ne.symm hi
    · refine (List.erase_of_not_mem (l := c.waitingAt a) ?_).symm
      rw [h.waits, hl]
      simp
  | none =>
    refine ⟨fun i => ?_, fun a => ?_, ?_⟩
    · have hblock : (c.unwait n).block i = c.block i := by
        unfold block
        rw [blocks_unwait]
      dsimp only
      rw [hblock, List.erase_of_not_mem]
      rw [h.links, hl]
      exact nofun
    · dsimp only
      rw [waitingAt_unwait]
      split
      · rfl
      · rename_i ha
        rw [List.erase_of_not_mem]
        rw [h.waits]
        exact fun hw => ha hw.2.1
    · dsimp only
      rw [links_unwait, if_pos rfl, Int.sub_zero]

theorem Linked.sets_freeCell (h : Linked c m) (n : Nat) :
    (∀ i, ((c.freeCell n).block i).links = (c.block i).links.erase n) ∧
    (∀ a, (c.freeCell n).waitingAt a = (c.waitingAt a).erase n) ∧
    (c.freeCell n).links = c.links - if (c.cell n).linked = none then 0 else 1 := by
  unfold CodeCache.freeCell
  dsimp only
  by_cases hb : (c.cell n).bound = true
  · rw [if_pos hb]
    exact h.detach n
  · rw [if_neg hb]
    rw [Bool.not_eq_true] at hb
    have hl := h.linked_of_unbound hb
    refine ⟨fun i => ?_, fun a => ?_, ?_⟩
    · refine (List.erase_of_not_mem (l := (c.block i).links) ?_).symm
      rw [h.links, hl]
      exact nofun
    · refine (List.erase_of_not_mem (l := c.waitingAt a) ?_).symm
      rw [h.waits, hb]
      exact fun hw => Bool.false_ne_true hw.1
    · rw [if_pos hl, Int.sub_zero]
      rfl

theorem cells_freeCell (c : CodeCache) (n : Nat) :
    (c.freeCell n).cells = c.cells.modify n fun _ => .empty := by
  unfold CodeCache.freeCell
  dsimp only
  split
  · exact congrArg (·.modify n fun _ => Cell.empty) (cells_detach c n)
  · rfl

theorem cell_freeCell (c : CodeCache) (n k : Nat) :
    (c.freeCell n).cell k = if k = n then .empty else c.cell k := by
  have hcell : (c.freeCell n).cell k = (c.modifyCell n fun _ => .empty).cell k := by
    unfold cell modifyCell
    rw [cells_freeCell]
  rw [hcell, cell_modifyCell]
  by_cases hk : k = n
  · subst hk
    by_cases hs : k < c.cells.size
    · rw [if_pos ⟨rfl, hs⟩, if_pos rfl]
    · rw [if_neg fun h => hs h.2, if_pos rfl, cell_of_ge (Nat.le_of_not_lt hs)]
  · rw [if_neg fun h => hk h.1, if_neg hk]

theorem free_freeCell (c : CodeCache) (n : Nat) : (c.freeCell n).free = n :: c.free := by
  unfold CodeCache.freeCell
  dsimp only
  split
  · exact congrArg (n :: ·) (free_detach c n)
  · rfl

theorem Linked.freeCell (h : Linked c m) (n : Nat) : Linked (c.freeCell n) m := by
  have hcell (k : Nat) : (c.freeCell n).cell k = if k ∈ [n] then .empty else c.cell k := by
    rw [cell_freeCell]
    simp only [List.mem_singleton]
  obtain ⟨hinto, hwait, hlinks⟩ := h.sets_freeCell n
  refine h.change hcell (fun k i => ?_) (fun i => ?_) (fun k a => ?_) (fun a => ?_) ?_
    (fun k _ => rfl) fun k _ _ => rfl
  · rw [hinto, (h.links_nodup i).mem_erase_iff]
    by_cases hk : k = n <;> simp [hk, Cell.empty]
  · rw [hinto]
    exact (h.links_nodup i).erase n
  · rw [hwait, (h.waits_nodup a).mem_erase_iff]
    by_cases hk : k = n <;> simp [hk, Cell.empty]
  · rw [hwait]
    exact (h.waits_nodup a).erase n
  · rw [hlinks, h.count]
    by_cases hl : (c.cell n).linked = none
    · rw [if_pos hl, card_linkedCells (c := c) (d := c.freeCell n) (fun k => ?_) .nil nofun]
      · rfl
      · rw [hcell]
        by_cases hk : k = n <;> simp [hk, hl, Cell.empty]
    · rw [if_neg hl, card_linkedCells (c := c) (d := c.freeCell n) (fun k => ?_)
        (List.nodup_singleton n) fun k hk => ?_]
      · rfl
      · rw [hcell]
        by_cases hk : k = n <;> simp [hk, Cell.empty]
      · rw [List.mem_singleton.mp hk]
        exact hl

theorem Linked.freeCells (h : Linked c m) (ns : List Nat) : Linked (c.freeCells ns) m :=
  List.foldlRecOn (motive := fun d => Linked d m) ns _ h fun _ hd n _ => hd.freeCell n

theorem cell_freeCells (c : CodeCache) (ns : List Nat) (k : Nat) :
    (c.freeCells ns).cell k = if k ∈ ns then .empty else c.cell k := by
  unfold CodeCache.freeCells
  induction ns generalizing c with
  | nil => simp
  | cons n ns ih =>
    rw [List.foldl_cons, ih, cell_freeCell]
    by_cases hk : k = n <;> by_cases hm : k ∈ ns <;> simp [hk, hm]

theorem free_freeCells (c : CodeCache) (ns : List Nat) :
    (c.freeCells ns).free = ns.reverse ++ c.free := by
  unfold CodeCache.freeCells
  induction ns generalizing c with
  | nil => rfl
  | cons n ns ih =>
    rw [List.foldl_cons, ih, free_freeCell, List.reverse_cons, List.append_assoc]
    rfl

theorem size_cells_freeCells (c : CodeCache) (ns : List Nat) :
    (c.freeCells ns).cells.size = c.cells.size := by
  unfold CodeCache.freeCells
  induction ns generalizing c with
  | nil => rfl
  | cons n ns ih => rw [List.foldl_cons, ih, cells_freeCell, Array.size_modify]

theorem cell_modifyCell_of_lt (hn : n < c.cells.size) (f : Cell → Cell) (k : Nat) :
    (c.modifyCell n f).cell k = if k = n then f (c.cell k) else c.cell k := by
  rw [cell_modifyCell]
  simp only [hn, and_true]

theorem cell_link (hn : n < c.cells.size) (id : BlockId) (k : Nat) :
    (c.link n id).cell k = if k = n then { c.cell k with linked := some id } else c.cell k := by
  rw [← cell_modifyCell_of_lt hn fun cell => { cell with linked := some id }]
  unfold cell
  rfl

theorem links_link (c : CodeCache) (n : Nat) (id : BlockId) :
    (c.link n id).links = c.links + 1 := rfl

theorem waitingAt_link (c : CodeCache) (n : Nat) (id : BlockId) (a : UInt32) :
    (c.link n id).waitingAt a = c.waitingAt a := by
  unfold waitingAt
  rfl

theorem links_block_link (hid : id < c.blocks.size) (n : Nat) (i : BlockId) :
    ((c.link n id).block i).links
      = if i = id then addCell n (c.block i).links else (c.block i).links := by
  have hblock : (c.link n id).block i
      = (c.modifyBlock id fun b => { b with links := addCell n b.links }).block i := by
    unfold block
    rfl
  rw [hblock, block_modifyBlock]
  by_cases hi : i = id
  · rw [if_pos ⟨hi, hid⟩, if_pos hi]
  · rw [if_neg fun h => hi h.1, if_neg hi]

def assign (c : CodeCache) (x : Exit) : CodeCache :=
  c.modifyCell x.cell fun cell => { cell with bound := true, target := x.target }

theorem bind_cases (c : CodeCache) (x : Exit) :
    (∃ id, c.lookup x.target = .live id ∧ c.bind x = (c.assign x).link x.cell id) ∨
      (c.lookup x.target).block? = none ∧ c.bind x = (c.assign x).wait x.cell := by
  unfold CodeCache.bind
  dsimp only
  cases hl : c.lookup x.target with
  | live id =>
    have hl' : (c.assign x).lookup x.target = .live id := hl
    exact .inl ⟨id, rfl, by rw [← assign, hl']⟩
  | notCompiled =>
    have hl' : (c.assign x).lookup x.target = .notCompiled := hl
    exact .inr ⟨rfl, by rw [← assign, hl']⟩
  | invalidated =>
    have hl' : (c.assign x).lookup x.target = .invalidated := hl
    exact .inr ⟨rfl, by rw [← assign, hl']⟩

theorem block_assign (c : CodeCache) (x : Exit) (i : BlockId) :
    (c.assign x).block i = c.block i := by
  unfold block
  rfl

theorem waitingAt_assign (c : CodeCache) (x : Exit) (a : UInt32) :
    (c.assign x).waitingAt a = c.waitingAt a := by
  unfold waitingAt
  rfl

theorem cell_assign {x : Exit} (hn : x.cell < c.cells.size) (k : Nat) : (c.assign x).cell k
    = if k = x.cell then { c.cell k with bound := true, target := x.target } else c.cell k :=
  cell_modifyCell_of_lt hn _ k

theorem size_cells_assign (c : CodeCache) (x : Exit) :
    (c.assign x).cells.size = c.cells.size := Array.size_modify

theorem cell_bind {x : Exit} (hn : x.cell < c.cells.size) (hl : (c.cell x.cell).linked = none)
    (k : Nat) : (c.bind x).cell k
      = if k = x.cell then ⟨true, x.target, (c.lookup x.target).block?⟩ else c.cell k := by
  rcases bind_cases c x with ⟨id, hid, he⟩ | ⟨hid, he⟩
  · rw [he, hid, cell_link (size_cells_assign c x ▸ hn), cell_assign hn]
    split <;> rfl
  · rw [he, hid]
    change (c.assign x).cell k = _
    rw [cell_assign hn]
    split
    · rename_i hk
      simp only [hk, hl]
    · rfl

/-- A cell that was held enters the block at the target of its exit, or waits for one. -/
theorem Linked.bind {x : Exit} (h : Linked c m) (hm : m x.target = (c.lookup x.target).block?)
    (hid : ∀ id, c.lookup x.target = .live id → id < c.blocks.size) (hn : x.cell < c.cells.size)
    (hb : (c.cell x.cell).bound = false) : Linked (c.bind x) m := by
  have hnone := h.linked_of_unbound hb
  have hlinks (i : BlockId) : x.cell ∉ (c.block i).links := by
    rw [h.links, hnone]
    exact nofun
  have hwaits (a : UInt32) : x.cell ∉ c.waitingAt a := by
    rw [h.waits, hb]
    exact fun hw => Bool.false_ne_true hw.1
  have hcell (k : Nat) : (c.bind x).cell k
      = if k ∈ [x.cell] then ⟨true, x.target, (c.lookup x.target).block?⟩ else c.cell k := by
    rw [cell_bind hn hnone]
    simp only [List.mem_singleton]
  rcases bind_cases c x with ⟨id, hl, he⟩ | ⟨hl, he⟩
  · rw [he, hl] at hcell
    have hs : id < (c.assign x).blocks.size := hid id hl
    rw [he]
    refine h.change hcell (fun k i => ?_) (fun i => ?_) (fun k a => ?_) (fun a => ?_) ?_
      (fun k _ => ?_) fun _ _ _ => rfl
    · rw [links_block_link hs, block_assign]
      by_cases hi : i = id
      · by_cases hk : k = x.cell <;> simp [hi, hk]
      · by_cases hk : k = x.cell <;> simp [hi, Ne.symm hi, hk, hlinks]
    · rw [links_block_link hs, block_assign]
      split
      · exact nodup_addCell (h.links_nodup i)
      · exact h.links_nodup i
    · rw [waitingAt_link, waitingAt_assign]
      by_cases hk : k = x.cell <;> simp [hk, hwaits]
    · rw [waitingAt_link, waitingAt_assign]
      exact h.waits_nodup a
    · have hcard := card_linkedCells (c := (c.assign x).link x.cell id) (d := c) (fun k => ?_)
        (List.nodup_singleton x.cell) fun k hk => ?_
      · have hlinks : (c.assign x).links = c.links := rfl
        rw [links_link, hlinks, h.count, hcard]
        simp
      · rw [hcell]
        by_cases hk : k = x.cell <;> simp [hk, hnone]
      · rw [hcell, if_pos hk]
        exact Option.some_ne_none id
    · rw [← hl, ← hm]
      rfl
  · rw [he, hl] at hcell
    rw [he]
    refine h.change hcell (fun k i => ?_) h.links_nodup (fun k a => ?_) (fun a => ?_) ?_
      (fun k _ => ?_) fun _ _ _ => rfl
    · change k ∈ (c.block i).links ↔ _
      by_cases hk : k = x.cell <;> simp [hk, hlinks]
    · rw [waitingAt_wait, cell_assign hn, if_pos rfl]
      change k ∈ (if x.target = a then addCell x.cell (c.waitingAt a) else c.waitingAt a) ↔ _
      by_cases ha : x.target = a <;> by_cases hk : k = x.cell <;> simp [ha, hk, hwaits]
    · rw [waitingAt_wait]
      split
      · exact nodup_addCell (h.waits_nodup a)
      · exact h.waits_nodup a
    · have hcount : ((c.assign x).wait x.cell).links = c.links := rfl
      rw [hcount, h.count]
      congr 2
      ext k
      rw [mem_linkedCells, mem_linkedCells, hcell]
      by_cases hk : k = x.cell <;> simp [hk, hnone]
    · rw [← hl, ← hm]
      rfl

theorem cell_foldl_link {f : CodeCache → Nat → CodeCache} {id : BlockId}
    (hf : ∀ c n, (f c n).cells = (c.modifyCell n fun cell => { cell with linked := some id }).cells)
    {ns : List Nat} {c : CodeCache} (hns : ∀ n ∈ ns, n < c.cells.size) (k : Nat) :
    (ns.foldl f c).cell k = if k ∈ ns then { c.cell k with linked := some id } else c.cell k := by
  induction ns generalizing c with
  | nil => simp
  | cons n ns ih =>
    have hn := hns n (.head _)
    have hsize : (f c n).cells.size = c.cells.size := by
      rw [hf]
      exact Array.size_modify
    have hcell : (f c n).cell k = if k = n then { c.cell k with linked := some id } else c.cell k := by
      rw [← cell_modifyCell_of_lt hn fun cell => { cell with linked := some id }]
      unfold cell
      rw [hf]
    rw [List.foldl_cons, ih fun n' hn' => hsize ▸ hns n' (.tail _ hn'), hcell]
    by_cases hk : k = n <;> by_cases hm : k ∈ ns <;> simp [hk, hm]

theorem links_foldl_link (ns : List Nat) (c : CodeCache) (id : BlockId) :
    (ns.foldl (fun c n => c.link n id) c).links = c.links + ns.length := by
  induction ns generalizing c with
  | nil => simp
  | cons n ns ih =>
    have hl : (c.link n id).links = c.links + 1 := rfl
    rw [List.foldl_cons, ih, hl, List.length_cons]
    omega

theorem waiting_foldl_link (ns : List Nat) (c : CodeCache) (id : BlockId) :
    (ns.foldl (fun c n => c.link n id) c).waiting = c.waiting := by
  induction ns generalizing c with
  | nil => rfl
  | cons n ns ih =>
    rw [List.foldl_cons, ih]
    rfl

theorem links_block_foldl_link {ns : List Nat} {c : CodeCache} (hid : id < c.blocks.size)
    (i : BlockId) : ((ns.foldl (fun c n => c.link n id) c).block i).links
      = if i = id then ns.foldl (fun s n => addCell n s) (c.block i).links
        else (c.block i).links := by
  induction ns generalizing c with
  | nil => simp
  | cons n ns ih =>
    have hsize : (c.link n id).blocks.size = c.blocks.size := by
      simp [link, enter, modifyBlock, modifyCell]
    rw [List.foldl_cons, ih (hsize ▸ hid), links_block_link hid]
    split <;> rfl

/-- The cells that wait for an address are made to enter a block. -/
def linkWaiting (c : CodeCache) (pc : UInt32) (id : BlockId) : CodeCache :=
  (c.waitingAt pc).foldl (fun c n => c.link n id) { c with waiting := c.waiting.erase pc }

theorem cell_linkWaiting {pc : UInt32} (hns : ∀ n ∈ c.waitingAt pc, n < c.cells.size) (k : Nat) :
    (c.linkWaiting pc id).cell k
      = if k ∈ c.waitingAt pc then { c.cell k with linked := some id } else c.cell k := by
  unfold linkWaiting
  rw [cell_foldl_link (c := { c with waiting := c.waiting.erase pc })
    (f := fun c n => c.link n id) (fun _ _ => rfl) hns]
  rfl

theorem waitingAt_linkWaiting (c : CodeCache) (pc : UInt32) (id : BlockId) (a : UInt32) :
    (c.linkWaiting pc id).waitingAt a = if a = pc then [] else c.waitingAt a := by
  have hw : (c.linkWaiting pc id).waiting = c.waiting.erase pc := waiting_foldl_link ..
  rw [waitingAt, hw, Std.HashMap.getD_erase, waitingAt]
  by_cases ha : a = pc
  · simp [ha]
  · simp [ha, Ne.symm ha]

theorem links_block_linkWaiting {pc : UInt32} (hid : id < c.blocks.size) (i : BlockId) :
    ((c.linkWaiting pc id).block i).links
      = if i = id then (c.waitingAt pc).foldl (fun s n => addCell n s) (c.block i).links
        else (c.block i).links := by
  unfold linkWaiting
  rw [links_block_foldl_link (c := { c with waiting := c.waiting.erase pc }) hid]
  rfl

theorem mem_foldl_addCell {s : List Nat} :
    k ∈ ns.foldl (fun s n => addCell n s) s ↔ k ∈ ns ∨ k ∈ s := by
  induction ns generalizing s with
  | nil => simp
  | cons n ns ih =>
    rw [List.foldl_cons, ih, mem_addCell, List.mem_cons, or_left_comm, or_assoc]

theorem nodup_foldl_addCell {s : List Nat} (h : s.Nodup) :
    (ns.foldl (fun s n => addCell n s) s).Nodup :=
  List.foldlRecOn (motive := List.Nodup) ns _ h fun _ hs _ _ => nodup_addCell hs

theorem Linked.linkWaiting {pc : UInt32} (h : Linked c m) (hid : id < c.blocks.size)
    (hm : m pc = none ∨ m pc = some id) :
    Linked (c.linkWaiting pc id) fun a => if a = pc then some id else m a := by
  have hwait {k : Nat} (hk : k ∈ c.waitingAt pc) := h.waits.mp hk
  have hcell (k : Nat) : (c.linkWaiting pc id).cell k
      = if k ∈ c.waitingAt pc then { c.cell k with linked := some id } else c.cell k :=
    cell_linkWaiting (fun n hn => lt_of_bound (hwait hn).1) k
  refine h.change hcell (fun k i => ?_) (fun i => ?_) (fun k a => ?_) (fun a => ?_) ?_
    (fun k hk => ?_) fun k hk hb => ?_
  · rw [links_block_linkWaiting hid]
    by_cases hi : i = id
    · rw [if_pos hi, mem_foldl_addCell]
      by_cases hk : k ∈ c.waitingAt pc <;> simp [hk, hi]
    · rw [if_neg hi]
      by_cases hk : k ∈ c.waitingAt pc
      · simp [hk, Ne.symm hi, h.links, (hwait hk).2.2]
      · simp [hk]
  · rw [links_block_linkWaiting hid]
    split
    · exact nodup_foldl_addCell (h.links_nodup i)
    · exact h.links_nodup i
  · rw [waitingAt_linkWaiting]
    by_cases ha : a = pc
    · subst ha
      by_cases hk : k ∈ c.waitingAt a <;> simp [hk]
    · rw [if_neg ha]
      by_cases hk : k ∈ c.waitingAt pc
      · have htarget := (hwait hk).2.1
        simp [hk, h.waits, htarget, Ne.symm ha]
      · simp [hk]
  · rw [waitingAt_linkWaiting]
    split
    · exact .nil
    · exact h.waits_nodup a
  · have hlinks : (c.linkWaiting pc id).links = c.links + (c.waitingAt pc).length :=
      links_foldl_link ..
    have hcard := card_linkedCells (c := c.linkWaiting pc id) (d := c) (fun k => ?_)
      (h.waits_nodup pc) fun k hk => ?_
    · rw [hlinks, h.count, hcard]
      omega
    · rw [hcell]
      by_cases hk : k ∈ c.waitingAt pc
      · simp [hk, (hwait hk).2.2]
      · simp [hk]
    · rw [hcell, if_pos hk]
      exact Option.some_ne_none id
  · obtain ⟨hb, htarget, -⟩ := hwait hk
    simp [hb, htarget]
  · split
    · rename_i htarget
      rcases hm with hm | hm
      · -- A bound cell at this target waits.
        refine absurd (h.waits.mpr ⟨hb, htarget, ?_⟩) hk
        rw [h.linked_of_bound hb, htarget, hm]
      · rw [htarget, hm]
    · rfl

def redirect (c : CodeCache) (ns : List Nat) (new : BlockId) (entry : Nat) : CodeCache :=
  ns.foldl (fun c n => c.enter n new entry) c

theorem sameLinks_redirect (c : CodeCache) (ns : List Nat) (new : BlockId) (entry : Nat) :
    (c.redirect ns new entry).blocks = c.blocks ∧
      (c.redirect ns new entry).waiting = c.waiting ∧
      (c.redirect ns new entry).links = c.links := by
  unfold redirect
  induction ns generalizing c with
  | nil => exact ⟨rfl, rfl, rfl⟩
  | cons n ns ih => exact ih _

theorem block_redirect (c : CodeCache) (ns : List Nat) (new i : BlockId) (entry : Nat) :
    (c.redirect ns new entry).block i = c.block i := by
  unfold block
  rw [(sameLinks_redirect c ns new entry).1]

theorem cell_redirect {new : BlockId} (hns : ∀ n ∈ ns, n < c.cells.size) (entry k : Nat) :
    (c.redirect ns new entry).cell k
      = if k ∈ ns then { c.cell k with linked := some new } else c.cell k :=
  cell_foldl_link (f := fun c n => c.enter n new entry) (fun _ _ => rfl) hns k

/-- The block that is replaced, without an origin and without cells. -/
def emptied (c : CodeCache) (old : BlockId) : CodeCache :=
  (c.setOrigin old 0).modifyBlock old fun b => { b with links := [] }

theorem cells_modifyBlock (c : CodeCache) (id : BlockId) (f : Block → Block) :
    (c.modifyBlock id f).cells = c.cells := rfl

theorem cell_modifyBlock (c : CodeCache) (id : BlockId) (f : Block → Block) (n : Nat) :
    (c.modifyBlock id f).cell n = c.cell n := rfl

theorem waiting_modifyBlock (c : CodeCache) (id : BlockId) (f : Block → Block) :
    (c.modifyBlock id f).waiting = c.waiting := rfl

theorem links_modifyBlock (c : CodeCache) (id : BlockId) (f : Block → Block) :
    (c.modifyBlock id f).links = c.links := rfl

theorem cells_emptied (c : CodeCache) (old : BlockId) : (c.emptied old).cells = c.cells := by
  unfold emptied
  rw [cells_modifyBlock, (SameCells.setOrigin c old 0).cells]

theorem waiting_emptied (c : CodeCache) (old : BlockId) :
    (c.emptied old).waiting = c.waiting := by
  unfold emptied
  rw [waiting_modifyBlock, (SameCells.setOrigin c old 0).waiting]

theorem links_emptied (c : CodeCache) (old : BlockId) : (c.emptied old).links = c.links := by
  unfold emptied
  rw [links_modifyBlock, (SameCells.setOrigin c old 0).links]

theorem size_emptied (c : CodeCache) (old : BlockId) :
    (c.emptied old).blocks.size = c.blocks.size := by
  unfold emptied
  rw [size_modifyBlock, size_setOrigin]

theorem links_block_emptied (c : CodeCache) (old i : BlockId) :
    ((c.emptied old).block i).links = if i = old then [] else (c.block i).links := by
  have hs := SameCells.setOrigin c old 0
  unfold emptied
  rw [block_modifyBlock]
  by_cases hi : i = old
  · subst hi
    by_cases hsize : i < (c.setOrigin i 0).blocks.size
    · rw [if_pos ⟨rfl, hsize⟩, if_pos rfl]
    · rw [if_neg fun h => hsize h.2, if_pos rfl, block_of_ge (Nat.le_of_not_lt hsize)]
      rfl
  · rw [if_neg fun h => hi h.1, if_neg hi, hs.into]

/-- The block that takes the place of another one, with its cells. -/
def enriched (c : CodeCache) (old new : BlockId) : CodeCache :=
  ((c.emptied old).redirect (c.block old).links new
      ((c.emptied old).block new).entry).modifyBlock new
    fun b => { b with links := (c.block old).links.foldr addCell b.links }

theorem supersede_eq (c : CodeCache) (old new : BlockId) : c.supersede old new
    = { c.enriched old new with supersedes := (c.enriched old new).supersedes + 1 } := rfl

theorem cell_enriched {old new : BlockId} (hns : ∀ n ∈ (c.block old).links, n < c.cells.size)
    (k : Nat) : (c.enriched old new).cell k
      = if k ∈ (c.block old).links then { c.cell k with linked := some new } else c.cell k := by
  have hcells := cells_emptied c old
  have hbase : (c.emptied old).cell k = c.cell k := by
    unfold cell
    rw [hcells]
  have hns' : ∀ n ∈ (c.block old).links, n < (c.emptied old).cells.size := by
    rw [hcells]
    exact hns
  unfold enriched
  rw [cell_modifyBlock, cell_redirect hns', hbase]

theorem links_block_enriched {old new : BlockId} (hne : old ≠ new) (hnew : new < c.blocks.size)
    (i : BlockId) : ((c.enriched old new).block i).links
      = if i = new then (c.block old).links.foldr addCell (c.block i).links
        else if i = old then [] else (c.block i).links := by
  have hblocks := (sameLinks_redirect (c.emptied old) (c.block old).links new
    ((c.emptied old).block new).entry).1
  unfold enriched
  rw [block_modifyBlock, hblocks, size_emptied, block_redirect]
  by_cases hi : i = new
  · rw [if_pos ⟨hi, hnew⟩, if_pos hi]
    dsimp only
    rw [links_block_emptied, if_neg (hi ▸ Ne.symm hne)]
  · rw [if_neg fun h => hi h.1, if_neg hi, links_block_emptied]

theorem waitingAt_enriched (c : CodeCache) (old new : BlockId) (a : UInt32) :
    (c.enriched old new).waitingAt a = c.waitingAt a := by
  unfold waitingAt enriched
  rw [waiting_modifyBlock, (sameLinks_redirect ..).2.1, waiting_emptied]

theorem links_enriched (c : CodeCache) (old new : BlockId) :
    (c.enriched old new).links = c.links := by
  unfold enriched
  rw [links_modifyBlock, (sameLinks_redirect ..).2.2, links_emptied]

theorem Linked.supersede {old new : BlockId} (h : Linked c m) (hne : old ≠ new)
    (hnew : new < c.blocks.size) (hempty : (c.block new).links = []) :
    Linked (c.supersede old new) fun a => if m a = some old then some new else m a := by
  have hsame : SameCells (c.enriched old new) (c.supersede old new) :=
    ⟨rfl, rfl, rfl, rfl, fun _ => rfl⟩
  refine Linked.of_sameCells ?_ hsame
  have hbound {k : Nat} (hk : k ∈ (c.block old).links) : (c.cell k).bound = true :=
    h.bound (by rw [h.links.mp hk]; exact Option.some_ne_none old)
  have hcell (k : Nat) : (c.enriched old new).cell k = _ :=
    cell_enriched (fun n hn => lt_of_bound (hbound hn)) k
  refine h.change hcell (fun k i => ?_) (fun i => ?_) (fun k a => ?_) (fun a => ?_) ?_
    (fun k hk => ?_) fun k hk hb => ?_
  · rw [links_block_enriched hne hnew]
    by_cases hi : i = new
    · subst hi
      rw [if_pos rfl, mem_foldr_addCell, hempty]
      by_cases hk : k ∈ (c.block old).links <;> simp [hk]
    · rw [if_neg hi]
      by_cases ho : i = old
      · subst ho
        rw [if_pos rfl]
        by_cases hk : k ∈ (c.block i).links <;> simp [hk, Ne.symm hi]
      · rw [if_neg ho]
        by_cases hk : k ∈ (c.block old).links
        · simp [hk, h.links, h.links.mp hk, Ne.symm hi, Ne.symm ho]
        · simp [hk]
  · rw [links_block_enriched hne hnew]
    split
    · exact nodup_foldr_addCell (h.links_nodup i)
    · split
      · exact .nil
      · exact h.links_nodup i
  · rw [waitingAt_enriched]
    by_cases hk : k ∈ (c.block old).links
    · simp [hk, h.waits, h.links.mp hk]
    · simp [hk]
  · rw [waitingAt_enriched]
    exact h.waits_nodup a
  · rw [links_enriched, h.count]
    congr 2
    ext k
    rw [mem_linkedCells, mem_linkedCells, hcell]
    by_cases hk : k ∈ (c.block old).links
    · simp [hk, h.links.mp hk]
    · simp [hk]
  · have hl := h.links.mp hk
    have hb := hbound hk
    rw [h.linked_of_bound hb] at hl
    simp [hb, hl]
  · rw [h.links, h.linked_of_bound hb] at hk
    rw [if_neg hk]

end CodeCache

end Recompiler
