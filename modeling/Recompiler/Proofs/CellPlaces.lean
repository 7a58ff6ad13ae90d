import Recompiler.Proofs.CacheSessions
import Recompiler.Proofs.LinkCells

/-!
The places of link cells: every cell is free, held by someone who has taken it, or belongs to one
exit of one block in the ring. Operations move cells from one place to another and lose none. This
does not depend on what the cells lead to.
-/

namespace Recompiler

open Ir Emit

open scoped List

namespace CodeCache

variable {c d e : CodeCache} {id i : BlockId} {n k count : Nat} {a pc page : UInt32}
  {ns held : List Nat} {exits : List Exit}

def exitCells (c : CodeCache) (id : BlockId) : List Nat := (c.block id).exits.map (·.cell)

def boundCells (c : CodeCache) : List Nat := c.ring.flatMap c.exitCells

/-- Each of `count` cells is in one place, and those that are free or held belong to no exit. -/
structure Placed (count : Nat) (c : CodeCache) (held : List Nat) : Prop where
  size : c.cells.size = count
  cells : (c.free ++ held ++ c.boundCells).Perm (List.range count)
  unbound {n : Nat} : n ∈ c.free ++ held → (c.cell n).bound = false

theorem Placed.perm (h : Placed count c held) :
    (c.free ++ held ++ c.boundCells).Perm (List.range c.cells.size) := h.size.symm ▸ h.cells

theorem Placed.nodup (h : Placed count c held) : (c.free ++ held ++ c.boundCells).Nodup :=
  h.cells.nodup_iff.mpr List.nodup_range

theorem Placed.disjoint (h : Placed count c held) (hn : n ∈ held) : n ∉ c.boundCells :=
  fun hb => (List.nodup_append.mp h.nodup).2.2 n (List.mem_append_right _ hn) n hb rfl

theorem boundCells_congr (hring : d.ring = c.ring)
    (hexits : ∀ id ∈ c.ring, (d.block id).exits = (c.block id).exits) :
    d.boundCells = c.boundCells := by
  unfold boundCells
  rw [hring]
  refine List.flatMap_congr fun id hid => ?_
  rw [exitCells, hexits id hid, exitCells]

/-- `d` has the cells of `c`, taken by the same exits. -/
structure Rerouted (c d : CodeCache) : Prop where
  free : d.free = c.free
  size : d.cells.size = c.cells.size
  bound (k : Nat) : (d.cell k).bound = (c.cell k).bound
  target (k : Nat) : (d.cell k).target = (c.cell k).target

namespace Rerouted

theorem refl (c : CodeCache) : Rerouted c c := ⟨rfl, rfl, fun _ => rfl, fun _ => rfl⟩

theorem trans (h : Rerouted c d) (h' : Rerouted d e) : Rerouted c e where
  free := h'.free.trans h.free
  size := h'.size.trans h.size
  bound k := (h'.bound k).trans (h.bound k)
  target k := (h'.target k).trans (h.target k)

theorem of_sameCells (h : SameCells c d) : Rerouted c d where
  free := h.free
  size := congrArg Array.size h.cells
  bound k := by rw [h.cell]
  target k := by rw [h.cell]

theorem modifyCell (c : CodeCache) (n : Nat) {f : Cell → Cell}
    (hb : ∀ x, (f x).bound = x.bound) (ht : ∀ x, (f x).target = x.target) :
    Rerouted c (c.modifyCell n f) where
  free := rfl
  size := Array.size_modify
  bound k := by
    rw [cell_modifyCell]
    split
    · exact hb _
    · rfl
  target k := by
    rw [cell_modifyCell]
    split
    · exact ht _
    · rfl

theorem foldl {α : Type} {f : CodeCache → α → CodeCache} (hf : ∀ c x, Rerouted c (f c x))
    (xs : List α) (c : CodeCache) : Rerouted c (xs.foldl f c) :=
  List.foldlRecOn (motive := Rerouted c) xs f (.refl c) fun d hd x _ => hd.trans (hf d x)

theorem unlinkCell (c : CodeCache) (n : Nat) : Rerouted c (c.unlinkCell n) := by
  have h := modifyCell c n (f := fun cell => { cell with linked := none }) (fun _ => rfl)
    fun _ => rfl
  exact ⟨h.free, h.size, h.bound, h.target⟩

theorem unlink (c : CodeCache) (id : BlockId) : Rerouted c (c.unlink id) := by
  have h := foldl unlinkCell (c.block id).links c
  exact ⟨h.free, h.size, h.bound, h.target⟩

theorem unmap (c : CodeCache) (id : BlockId) : Rerouted c (c.unmap id) :=
  (of_sameCells (.setOrigin c id 0)).trans (unlink _ id)

theorem enter (c : CodeCache) (n : Nat) (id : BlockId) (entry : Nat) :
    Rerouted c (c.enter n id entry) := by
  have h := modifyCell c n (f := fun cell => { cell with linked := some id }) (fun _ => rfl)
    fun _ => rfl
  exact ⟨h.free, h.size, h.bound, h.target⟩

theorem link (c : CodeCache) (n : Nat) (id : BlockId) : Rerouted c (c.link n id) := by
  have h := enter c n id (c.block id).entry
  exact ⟨h.free, h.size, h.bound, h.target⟩

theorem linkWaiting (c : CodeCache) (pc : UInt32) (id : BlockId) :
    Rerouted c (c.linkWaiting pc id) := by
  have h := foldl (fun c n => link c n id) (c.waitingAt pc)
    { c with waiting := c.waiting.erase pc }
  exact ⟨h.free, h.size, h.bound, h.target⟩

theorem redirect (c : CodeCache) (ns : List Nat) (new : BlockId) (entry : Nat) :
    Rerouted c (c.redirect ns new entry) :=
  foldl (fun c n => enter c n new entry) ns c

theorem emptied (c : CodeCache) (old : BlockId) : Rerouted c (c.emptied old) := by
  have hfree : (c.emptied old).free = c.free := by
    unfold CodeCache.emptied
    exact (SameCells.setOrigin c old 0).free
  have hcells := cells_emptied c old
  have hcell (k : Nat) : (c.emptied old).cell k = c.cell k := by
    unfold cell
    rw [hcells]
  exact ⟨hfree, congrArg Array.size hcells, fun k => congrArg Cell.bound (hcell k),
    fun k => congrArg Cell.target (hcell k)⟩

theorem modifyBlock (c : CodeCache) (id : BlockId) (f : Block → Block) :
    Rerouted c (c.modifyBlock id f) := ⟨rfl, rfl, fun _ => rfl, fun _ => rfl⟩

theorem supersede (c : CodeCache) (old new : BlockId) : Rerouted c (c.supersede old new) := by
  have h : Rerouted c (c.enriched old new) :=
    ((emptied c old).trans (redirect _ (c.block old).links new _)).trans (modifyBlock _ new _)
  rw [supersede_eq]
  exact ⟨h.free, h.size, h.bound, h.target⟩

theorem displace (c : CodeCache) (pc : UInt32) (id : BlockId) : Rerouted c (c.displace pc id) := by
  unfold CodeCache.displace
  split
  · exact supersede c _ id
  · exact .refl c

theorem place (c : CodeCache) (pc : UInt32) (id : BlockId) : Rerouted c (c.place pc id) := by
  have h := displace c pc id
  exact ⟨h.free, h.size, h.bound, h.target⟩

end Rerouted

theorem Placed.reroute (h : Placed count c held) (hr : Rerouted c d)
    (hbound : d.boundCells = c.boundCells) : Placed count d held where
  size := hr.size.trans h.size
  cells := by
    rw [hr.free, hbound]
    exact h.cells
  unbound {n} hn := by
    rw [hr.bound]
    exact h.unbound (hr.free ▸ hn)

theorem exits_of_bare (hb : d.bare = c.bare) (i : BlockId) :
    (d.block i).exits = (c.block i).exits := by
  have he := congrArg Block.exits (block_of_bare hb i)
  exact he

theorem Placed.allocCell (h : Placed count c held) :
    Placed count c.allocCell.2 (c.allocCell.1.toList ++ held) := by
  unfold CodeCache.allocCell
  cases hf : c.free with
  | nil => exact h
  | cons n free =>
    refine ⟨h.size, ?_, fun {k} hk => h.unbound ?_⟩
    · refine .trans ?_ h.cells
      rw [hf]
      exact List.perm_middle.append_right _
    · rw [hf]
      simp only [List.cons_append, List.mem_cons, List.mem_append, Option.toList, List.nil_append]
        at hk ⊢
      tauto

theorem append_diff_perm (hns : ns.Nodup) (hsub : ns ⊆ held) : (ns ++ held.diff ns).Perm held :=
  List.subperm_append_diff_self_of_count_le
    (List.subperm_ext_iff.mp (List.subperm_of_subset hns hsub))

/-- Cells that are held are given back. -/
theorem Placed.freeCells (h : Placed count c held) (hns : ns.Nodup) (hsub : ns ⊆ held) :
    Placed count (c.freeCells ns) (held.diff ns) := by
  have hbare := bare_freeCells c ns
  have hbound : (c.freeCells ns).boundCells = c.boundCells :=
    boundCells_congr (ring_of_bare hbare) fun i _ => exits_of_bare hbare i
  refine ⟨(size_cells_freeCells c ns).trans h.size, ?_, fun {k} hk => ?_⟩
  · rw [free_freeCells, hbound]
    refine .trans (.append_right _ ?_) h.cells
    calc ns.reverse ++ c.free ++ held.diff ns
      _ = ns.reverse ++ (c.free ++ held.diff ns) := List.append_assoc ..
      _ ~ ns ++ (c.free ++ held.diff ns) := .append_right _ ns.reverse_perm
      _ ~ c.free ++ (ns ++ held.diff ns) := by
        rw [← List.append_assoc, ← List.append_assoc]
        exact .append_right _ List.perm_append_comm
      _ ~ c.free ++ held := .append_left _ (append_diff_perm hns hsub)
  · rw [cell_freeCells]
    split
    · rfl
    · rename_i hkns
      refine h.unbound ?_
      rw [free_freeCells, List.append_assoc, List.mem_append, List.mem_reverse] at hk
      rcases List.mem_append.mp (hk.resolve_left hkns) with hk | hk
      · exact List.mem_append_left _ hk
      · exact List.mem_append_right _ (List.diff_subset _ _ hk)

theorem sameCells_release (c : CodeCache) (id : BlockId) :
    SameCells ((c.unlink id).freeCells ((c.block id).exits.map (·.cell))) (c.release id) := by
  have h := SameCells.modifyBlock ((c.unlink id).freeCells ((c.block id).exits.map (·.cell))) id
    (f := fun b => { b with exits := [], program := default }) fun _ => rfl
  exact ⟨h.cells, h.free, h.waiting, h.links, h.into⟩

theorem exits_retire (h : c.retire id = .ok d) (i : BlockId) :
    (d.block i).exits = (c.block i).exits := by
  rcases retire_cases h with ⟨-, rfl⟩ | ⟨pages, occupied, rfl⟩
  · rfl
  · rw [block_modifyBlock]
    split <;> rfl

theorem exits_of_evicted (h : Evicted c d) (hi : i ∈ d.ring) :
    (d.block i).exits = (c.block i).exits := by
  have he := congrArg Block.exits (h.block hi)
  exact he

/-- The oldest block leaves the ring: it is no longer entered, and the cells of its exits are
given back. -/
theorem Sound.evict_frees (h : Sound c) {rest : List BlockId} (hr : c.ring = id :: rest)
    (he : c.evict = .ok d) : ∃ r, SameCells c r ∧
      SameCells ((r.unlink id).freeCells (c.exitCells id)) d ∧
      d.boundCells = rest.flatMap c.exitCells ∧
      ∀ a i, d.lookup a = .live i ↔ c.lookup a = .live i ∧ ((c.block id).origin = 0 ∨ i ≠ id) := by
  obtain ⟨d', he', -, hev, hring⟩ := h.evict hr
  obtain rfl : d = d' := Except.ok.inj (he.symm.trans he')
  obtain ⟨hid, hnodup⟩ := List.nodup_cons.mp (hr ▸ h.ringed.nodup)
  obtain ⟨r, hret, -, hlive⟩ := h.mapped.retire hr hid
  have hd : d = (r.release id).settle := by
    rw [CodeCache.evict, hr] at he
    dsimp only at he
    rw [hret] at he
    cases he
    rfl
  have hret' : SameCells c r := by
    have h1 : SameCells c { c with ring := rest } := ⟨rfl, rfl, rfl, rfl, fun _ => rfl⟩
    exact h1.trans (.retire hret)
  have hcells : (r.block id).exits.map (·.cell) = c.exitCells id := by
    rw [exits_retire hret]
    rfl
  refine ⟨r, hret', ?_, ?_, fun a i => ?_⟩
  · rw [hd, ← hcells]
    exact (sameCells_release r id).trans (.settle _)
  · unfold boundCells
    rw [hring]
    refine List.flatMap_congr fun i hi => ?_
    rw [exitCells, exits_of_evicted hev (hring ▸ hi), exitCells]
  · rw [← hlive, hd, lookup, pages_settle, pages_release, lookup]

theorem Placed.evict (h : Placed count c held) (hs : Sound c) (he : c.evict = .ok d) :
    Placed count d held := by
  cases hr : c.ring with
  | nil =>
    rw [CodeCache.evict, hr] at he
    cases he
    exact h
  | cons id rest =>
    obtain ⟨r, hret, hsame, hbound, -⟩ := hs.evict_frees hr he
    have hre : Rerouted c (r.unlink id) := (Rerouted.of_sameCells hret).trans (.unlink r id)
    have hfree : d.free = (c.exitCells id).reverse ++ c.free := by
      rw [hsame.free, free_freeCells, hre.free]
    refine ⟨?_, ?_, fun {k} hk => ?_⟩
    · rw [hsame.cells, size_cells_freeCells, hre.size]
      exact h.size
    · rw [hfree, hbound]
      refine .trans ?_ h.cells
      rw [boundCells, hr, List.flatMap_cons]
      calc (c.exitCells id).reverse ++ c.free ++ held ++ rest.flatMap c.exitCells
        _ = (c.exitCells id).reverse ++ (c.free ++ held) ++ rest.flatMap c.exitCells := by
          rw [List.append_assoc (c.exitCells id).reverse]
        _ ~ c.exitCells id ++ (c.free ++ held) ++ rest.flatMap c.exitCells :=
          .append_right _ (.append_right _ (List.reverse_perm _))
        _ ~ c.free ++ held ++ c.exitCells id ++ rest.flatMap c.exitCells :=
          .append_right _ List.perm_append_comm
        _ = c.free ++ held ++ (c.exitCells id ++ rest.flatMap c.exitCells) :=
          List.append_assoc ..
    · rw [hsame.cell, cell_freeCells]
      split
      · rfl
      · rename_i hkid
        rw [hre.bound]
        refine h.unbound ?_
        rw [hfree, List.append_assoc, List.mem_append, List.mem_reverse] at hk
        exact hk.resolve_left hkid

theorem makeRoom_keeps {P : CodeCache → Prop} (hev : ∀ c d, P c → c.evict = .ok d → P d)
    (size : Int) (n : Nat) (hc : P c) : P (makeRoom size n c).2 := by
  induction n generalizing c with
  | zero =>
    unfold makeRoom
    split <;> exact hc
  | succ n ih =>
    unfold makeRoom
    split
    · exact hc
    · dsimp only
      split
      · rename_i d he
        exact ih (hev c d hc he)
      · exact hc

theorem allocate_keeps {P : CodeCache → Prop} (hev : ∀ c d, P c → c.evict = .ok d → P d)
    (n size : Int) (hc : P c) : P (c.allocate n size).2 := by
  unfold allocate
  split
  · exact hc
  · exact makeRoom_keeps hev size _ hc

theorem evictMany_keeps {P : CodeCache → Prop} (hev : ∀ c d, P c → c.evict = .ok d → P d)
    {n : Nat} (hc : P c) (he : evictMany n c = .ok d) : P d := by
  induction n generalizing c with
  | zero =>
    cases he
    exact hc
  | succ n ih =>
    unfold evictMany at he
    split at he
    · rename_i c' hc'
      exact ih (hev c c' hc hc') he
    · cases he

theorem exits_setOrigin (c : CodeCache) (id : BlockId) (pc : UInt32) (i : BlockId) :
    ((c.setOrigin id pc).block i).exits = (c.block i).exits := by
  rw [block_setOrigin]
  split <;> rfl

theorem exits_unmapAll (ids : List BlockId) (c : CodeCache) (i : BlockId) :
    ((ids.foldl unmap c).block i).exits = (c.block i).exits := by
  induction ids generalizing c with
  | nil => rfl
  | cons id ids ih => rw [List.foldl_cons, ih, exits_of_bare (bare_unmap c id), exits_setOrigin]

theorem invalidatePage_eq {live : Int} {slots : Vector Mapping 1024}
    (hp : c.pages[page]? = some (.table live slots)) : ∃ pages occupied invalidations,
    (c.invalidatePage page).2 = { (slots.toList.filterMap Mapping.block?).foldl unmap c with
      pages, occupied, invalidations } := by
  refine ⟨(c.invalidatePage page).2.pages, (c.invalidatePage page).2.occupied,
    (c.invalidatePage page).2.invalidations, ?_⟩
  simp only [invalidatePage, hp]

theorem Rerouted.invalidatePage (c : CodeCache) (page : UInt32) :
    Rerouted c (c.invalidatePage page).2 := by
  rcases invalidatePage_cases c page with ⟨live, slots, hp⟩ | ⟨he, -⟩
  · obtain ⟨pages, occupied, invalidations, hd⟩ := invalidatePage_eq hp
    rw [hd]
    exact (foldl unmap _ c).trans (.of_sameCells ⟨rfl, rfl, rfl, rfl, fun _ => rfl⟩)
  · rw [he]
    exact .refl c

theorem exits_invalidatePage (c : CodeCache) (page : UInt32) (i : BlockId) :
    ((c.invalidatePage page).2.block i).exits = (c.block i).exits := by
  rcases invalidatePage_cases c page with ⟨live, slots, hp⟩ | ⟨he, -⟩
  · obtain ⟨pages, occupied, invalidations, hd⟩ := invalidatePage_eq hp
    rw [hd]
    exact exits_unmapAll _ c i
  · rw [he]

theorem Placed.invalidatePage (h : Placed count c held) (page : UInt32) :
    Placed count (c.invalidatePage page).2 held :=
  h.reroute (.invalidatePage c page)
    (boundCells_congr (ring_invalidatePage c page) fun i _ => exits_invalidatePage c page i)

theorem exits_push (c : CodeCache) (b : Block) (hi : i ≠ c.blocks.size) :
    ((c.push b).block i).exits = (c.block i).exits := by
  obtain ⟨size, hs⟩ := block_push_of_ne c b hi
  rw [hs]

theorem boundCells_push (h : Ringed c) {b : Block} (hb : b.exits = []) :
    (c.push b).boundCells = c.boundCells := by
  have hnew : ((c.push b).block c.blocks.size).exits = [] := by
    rw [block_push, if_pos rfl, hb]
  unfold boundCells
  rw [ring_push, List.flatMap_append, List.flatMap_singleton, exitCells, hnew, List.map_nil,
    List.append_nil]
  refine List.flatMap_congr fun i hi => ?_
  rw [exitCells, exits_push c _ (Nat.ne_of_lt (h.bound hi)), exitCells]

theorem Placed.push (h : Placed count c held) (hr : Ringed c) (t : TraceProgram) (off size : Nat) :
    Placed count (c.push (fresh t off size)) held :=
  h.reroute (.of_sameCells (.push c rfl)) (boundCells_push hr rfl)

theorem Placed.withArena (h : Placed count c held) (arena : Arena) :
    Placed count { c with arena } held :=
  h.reroute (.of_sameCells ⟨rfl, rfl, rfl, rfl, fun _ => rfl⟩) rfl

theorem free_bind (c : CodeCache) (x : Exit) : (c.bind x).free = c.free := by
  rcases bind_cases c x with ⟨id, -, he⟩ | ⟨-, he⟩ <;> rw [he] <;> rfl

theorem size_cells_bind (c : CodeCache) (x : Exit) : (c.bind x).cells.size = c.cells.size := by
  rcases bind_cases c x with ⟨id, -, he⟩ | ⟨-, he⟩
  · rw [he]
    exact Array.size_modify.trans (size_cells_assign c x)
  · rw [he]
    exact size_cells_assign c x

theorem free_bindAll (exits : List Exit) (c : CodeCache) : (exits.foldl bind c).free = c.free := by
  induction exits generalizing c with
  | nil => rfl
  | cons x exits ih => rw [List.foldl_cons, ih, free_bind]

theorem size_cells_bindAll (exits : List Exit) (c : CodeCache) :
    (exits.foldl bind c).cells.size = c.cells.size := by
  induction exits generalizing c with
  | nil => rfl
  | cons x exits ih => rw [List.foldl_cons, ih, size_cells_bind]

theorem bound_bindAll (hk : k ∉ exits.map (·.cell)) (c : CodeCache) :
    ((exits.foldl bind c).cell k).bound = (c.cell k).bound := by
  induction exits generalizing c with
  | nil => rfl
  | cons x exits ih =>
    rw [List.map_cons, List.mem_cons, not_or] at hk
    have hassign : (c.assign x).cell k = c.cell k := by
      rw [assign, cell_modifyCell, if_neg fun h => hk.1 h.1]
    have hbind : ((c.bind x).cell k).bound = ((c.assign x).cell k).bound := by
      rcases bind_cases c x with ⟨id, -, he⟩ | ⟨-, he⟩
      · rw [he]
        exact (Rerouted.link (c.assign x) x.cell id).bound k
      · rw [he]
        rfl
    rw [List.foldl_cons, ih hk.2, hbind, hassign]

/-- A block that is mapped and has its exits, before they get their cells. -/
def exposed (c : CodeCache) (pc : UInt32) (id : BlockId) (exits : List Exit) : CodeCache :=
  (((c.place pc id).setOrigin id pc).linkWaiting pc id).modifyBlock id fun b => { b with exits }

theorem publish_eq (c : CodeCache) (pc : UInt32) (id : BlockId) (exits : List Exit) :
    c.publish pc id exits = exits.foldl bind (c.exposed pc id exits) := rfl

theorem Rerouted.exposed (c : CodeCache) (pc : UInt32) (id : BlockId) (exits : List Exit) :
    Rerouted c (c.exposed pc id exits) :=
  (((Rerouted.place c pc id).trans (.of_sameCells (.setOrigin _ id pc))).trans
    (.linkWaiting _ pc id)).trans (.modifyBlock _ id _)

theorem exits_displace (c : CodeCache) (pc : UInt32) (id i : BlockId) :
    ((c.displace pc id).block i).exits = (c.block i).exits := by
  unfold displace
  split
  · rw [exits_of_bare (bare_supersede ..), exits_setOrigin]
  · rfl

theorem exits_publish (hid : id < c.blocks.size) (pc : UInt32) (exits : List Exit) (i : BlockId) :
    ((c.publish pc id exits).block i).exits = if i = id then exits else (c.block i).exits := by
  have hsize : id < ((c.place pc id).setOrigin id pc).blocks.size := by
    rw [size_setOrigin]
    exact (size_displace c pc id).symm ▸ hid
  rw [exits_of_bare (bare_publish c pc id exits), block_modifyBlock]
  by_cases hi : i = id
  · rw [if_pos ⟨hi, hsize⟩, if_pos hi]
  · rw [if_neg fun h => hi h.1, if_neg hi, exits_setOrigin]
    exact exits_displace c pc id i

/-- The newest block becomes live, and its exits get cells that were held. -/
theorem Placed.publish {older : List BlockId} (h : Placed count c held) (hr : Ringed c)
    (hring : c.ring = older ++ [id]) (hexits : (c.block id).exits = []) (pc : UInt32)
    (hns : (exits.map (·.cell)).Nodup) (hsub : exits.map (·.cell) ⊆ held) :
    Placed count (c.publish pc id exits) (held.diff (exits.map (·.cell))) := by
  have hid : id < c.blocks.size := hr.bound (hring ▸ List.mem_append_right _ (.head _))
  have hre := Rerouted.exposed c pc id exits
  have hfree : (c.publish pc id exits).free = c.free := (free_bindAll exits _).trans hre.free
  have hsize : (c.publish pc id exits).cells.size = c.cells.size :=
    (size_cells_bindAll exits _).trans hre.size
  have hbound : (c.publish pc id exits).boundCells = c.boundCells ++ exits.map (·.cell) := by
    have hmap : older.flatMap (c.publish pc id exits).exitCells = older.flatMap c.exitCells := by
      refine List.flatMap_congr fun i hi => ?_
      have hne : i ≠ id := by
        have hnodup := hring ▸ hr.nodup
        exact (List.nodup_append.mp hnodup).2.2 i hi id (.head _)
      rw [exitCells, exits_publish hid, if_neg hne, exitCells]
    have hlast : (c.publish pc id exits).exitCells id = exits.map (·.cell) := by
      rw [exitCells, exits_publish hid, if_pos rfl]
    have hnone : c.exitCells id = [] := by
      rw [exitCells, hexits, List.map_nil]
    rw [boundCells, ring_publish, boundCells, hring]
    simp only [List.flatMap_append, List.flatMap_singleton, hmap, hlast, hnone, List.append_nil]
  have hperm : (c.free ++ held.diff (exits.map (·.cell))
      ++ (c.boundCells ++ exits.map (·.cell))).Perm (List.range count) := by
    refine .trans ?_ h.cells
    calc c.free ++ held.diff (exits.map (·.cell)) ++ (c.boundCells ++ exits.map (·.cell))
      _ ~ c.free ++ held.diff (exits.map (·.cell)) ++ (exits.map (·.cell) ++ c.boundCells) :=
        .append_left _ List.perm_append_comm
      _ = c.free ++ (held.diff (exits.map (·.cell)) ++ exits.map (·.cell)) ++ c.boundCells := by
        simp only [List.append_assoc]
      _ ~ c.free ++ held ++ c.boundCells :=
        .append_right _ (.append_left _ (List.perm_append_comm.trans (append_diff_perm hns hsub)))
  refine ⟨hsize.trans h.size, ?_, fun {k} hk => ?_⟩
  · rw [hfree, hbound]
    exact hperm
  · rw [hfree] at hk
    have hkns : k ∉ exits.map (·.cell) := fun hm =>
      (List.nodup_append.mp (hperm.nodup_iff.mpr List.nodup_range)).2.2 k hk k
        (List.mem_append_right _ hm) rfl
    rw [publish_eq, bound_bindAll hkns, hre.bound]
    refine h.unbound ?_
    rcases List.mem_append.mp hk with hk | hk
    · exact List.mem_append_left _ hk
    · exact List.mem_append_right _ (List.diff_subset _ _ hk)

theorem placed_create (size : Nat) (maxPages maxCells : Int) :
    Placed (create (.create size) maxPages maxCells).cells.size
      (create (.create size) maxPages maxCells) [] where
  size := rfl
  cells := by simp [create, boundCells]
  unbound {n} _ := by
    have hcell : (create (.create size) maxPages maxCells).cell n = .empty := by
      simp only [cell, create, Array.getD_eq_getD_getElem?, Array.getElem?_replicate]
      split <;> split <;> rfl
    rw [hcell]
    rfl

end CodeCache

end Recompiler
