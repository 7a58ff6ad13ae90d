import Recompiler.Proofs.CellWords

/-!
The link cells of a session. Every cell is free, held by someone who has taken it, or belongs to
one exit of one block in the ring; it leads to the block that is live at the target of its exit.
An insertion gets cells that are held, and gives them to its exits or back.
-/

namespace Recompiler

open Ir Emit

open scoped List

namespace CodeCache

variable {c d e : CodeCache} {id i : BlockId} {n k : Nat} {a pc page : UInt32} {ns held : List Nat}
  {m : UInt32 → Option BlockId} {exits : List Exit}

def blockAt (c : CodeCache) (a : UInt32) : Option BlockId := (c.lookup a).block?

theorem blockAt_eq_some : c.blockAt a = some id ↔ c.lookup a = .live id := Mapping.block?_eq_some

/-- The cells of a cache are in order while those in `held` are taken and not bound. -/
structure Tidy (c : CodeCache) (held : List Nat) : Prop where
  sound : Sound c
  linked : Linked c c.blockAt
  nonzero {a : UInt32} {id : BlockId} : c.lookup a = .live id → wordAddr a ≠ 0
  cells : (c.free ++ held ++ c.boundCells).Perm (List.range c.cells.size)
  unbound {n : Nat} : n ∈ c.free ++ held → (c.cell n).bound = false
  exits {id : BlockId} {x : Exit} : id ∈ c.ring → x ∈ (c.block id).exits →
    (c.cell x.cell).bound = true ∧ (c.cell x.cell).target = x.target
  aligned {n : Nat} : (c.cell n).bound = true → wordAddr (c.cell n).target = (c.cell n).target

namespace Tidy

theorem placed (h : Tidy c held) : Placed c.cells.size c held := ⟨rfl, h.cells, h.unbound⟩

theorem mem_boundCells (h : Tidy c held) : n ∈ c.boundCells ↔ (c.cell n).bound = true := by
  constructor
  · intro hn
    obtain ⟨id, hid, hm⟩ := List.mem_flatMap.mp hn
    obtain ⟨x, hx, rfl⟩ := List.mem_map.mp hm
    exact (h.exits hid hx).1
  · intro hb
    have hn := h.cells.mem_iff.mpr (List.mem_range.mpr (lt_of_bound hb))
    refine (List.mem_append.mp hn).resolve_left fun hf => ?_
    rw [h.unbound hf] at hb
    cases hb

end Tidy

theorem Tidy.reroute (h : Tidy c held) (hs : Sound d) (hl : Linked d d.blockAt)
    (hr : Rerouted c d) (hring : d.ring = c.ring)
    (hexits : ∀ id ∈ c.ring, (d.block id).exits = (c.block id).exits)
    (hnew : ∀ a id, d.lookup a = .live id → c.lookup a = .live id) : Tidy d held := by
  have hplaced := h.placed.reroute hr (boundCells_congr hring hexits)
  refine ⟨hs, hl, fun hlive => h.nonzero (hnew _ _ hlive), hplaced.perm, hplaced.unbound,
    fun hid hx => ?_, fun hb => ?_⟩
  · rw [hring] at hid
    rw [hr.bound, hr.target]
    exact h.exits hid (hexits _ hid ▸ hx)
  · rw [hr.target]
    exact h.aligned (hr.bound _ ▸ hb)

theorem Tidy.allocCell (h : Tidy c held) :
    Tidy c.allocCell.2 (c.allocCell.1.toList ++ held) := by
  have hplaced := h.placed.allocCell
  unfold CodeCache.allocCell at hplaced ⊢
  cases hf : c.free with
  | nil => exact h
  | cons n free =>
    rw [hf] at hplaced
    have hl : Linked { c with free } (CodeCache.blockAt { c with free }) :=
      ⟨h.linked.leads, h.linked.links, h.linked.links_nodup, h.linked.waits, h.linked.waits_nodup,
        h.linked.count⟩
    exact ⟨h.sound.of_bare rfl, hl, h.nonzero, hplaced.perm, hplaced.unbound, h.exits, h.aligned⟩

theorem allocCell_eq (c : CodeCache) : c.allocCell = (c.free.head?, c.takeCells 1) := by
  unfold CodeCache.allocCell takeCells
  cases hf : c.free with
  | nil =>
    cases c
    cases hf
    rfl
  | cons n free => rfl

/-- Cells that are held are given back. -/
theorem Tidy.freeCells (h : Tidy c held) (hns : ns.Nodup) (hsub : ns ⊆ held) :
    Tidy (c.freeCells ns) (held.diff ns) := by
  have hbare := bare_freeCells c ns
  have hlook := lookup_of_bare hbare
  have hcell := cell_freeCells c ns
  have hblockAt : (c.freeCells ns).blockAt = c.blockAt := by
    funext a
    unfold blockAt
    rw [hlook]
  have hplaced := h.placed.freeCells hns hsub
  refine ⟨h.sound.of_bare hbare, ?_, fun hl => h.nonzero (hlook _ ▸ hl), hplaced.perm,
    hplaced.unbound, fun {id x} hid hx => ?_, fun {k} hb => ?_⟩
  · rw [hblockAt]
    exact h.linked.freeCells ns
  · rw [ring_of_bare hbare] at hid
    rw [exits_of_bare hbare] at hx
    have hx' : x.cell ∉ ns := fun hm =>
      h.placed.disjoint (hsub hm) (h.mem_boundCells.mpr (h.exits hid hx).1)
    rw [hcell, if_neg hx']
    exact h.exits hid hx
  · rw [hcell] at hb ⊢
    split at hb
    · cases hb
    · rename_i hk
      rw [if_neg hk]
      exact h.aligned hb

/-- Without the oldest block the map leads where it did, but not to that block. -/
theorem Tidy.blockAt_evict (h : Tidy c held)
    (hlive : ∀ a i, d.lookup a = .live i ↔
      c.lookup a = .live i ∧ ((c.block id).origin = 0 ∨ i ≠ id)) :
    d.blockAt = without c.blockAt id := by
  funext a
  refine Option.ext fun i => ?_
  rw [blockAt_eq_some, hlive, without]
  by_cases ha : c.blockAt a = some id
  · rw [if_pos ha]
    rw [blockAt_eq_some] at ha
    have ho : (c.block id).origin ≠ 0 := by
      rw [h.sound.mapped.origin ha]
      exact h.nonzero ha
    constructor
    · rintro ⟨hl, hor⟩
      have hi : i = id := Mapping.live.inj (hl.symm.trans ha)
      exact absurd hi (hor.resolve_left ho)
    · intro hn
      cases hn
  · rw [if_neg ha, blockAt_eq_some]
    refine and_iff_left_of_imp fun hl => .inr fun hi => ha ?_
    rw [blockAt_eq_some, ← hi]
    exact hl

/-- The oldest block leaves the ring: its cells are free, and those that entered it wait. -/
theorem Tidy.evict (h : Tidy c held) (he : c.evict = .ok d) : Tidy d held := by
  have hplaced := h.placed.evict h.sound he
  cases hr : c.ring with
  | nil =>
    rw [CodeCache.evict, hr] at he
    cases he
    exact h
  | cons id rest =>
    obtain ⟨d', he', hsound, hev, hring⟩ := h.sound.evict hr
    obtain rfl : d = d' := Except.ok.inj (he.symm.trans he')
    obtain ⟨r, hret, hsame, hbound, hlive⟩ := h.sound.evict_frees hr he
    have hre : Rerouted c (r.unlink id) := (Rerouted.of_sameCells hret).trans (.unlink r id)
    have hcell (k : Nat) : d.cell k
        = if k ∈ c.exitCells id then .empty else (r.unlink id).cell k := by
      rw [hsame.cell, cell_freeCells]
    have hmine : ∀ n ∈ c.exitCells id, n ∉ rest.flatMap c.exitCells := by
      have hn := (List.nodup_append.mp h.placed.nodup).2.1
      rw [boundCells, hr, List.flatMap_cons, List.nodup_append] at hn
      exact fun n hn₁ hn₂ => hn.2.2 n hn₁ n hn₂ rfl
    refine ⟨hsound, ?_, fun hl => h.nonzero (hev.live hl), hplaced.perm, hplaced.unbound,
      fun {i x} hi hx => ?_, fun {k} hb => ?_⟩
    · rw [h.blockAt_evict hlive]
      exact (((h.linked.of_sameCells hret).unlink id).freeCells _).of_sameCells hsame
    · have hx' := hx
      rw [exits_of_evicted hev hi] at hx'
      rw [hring] at hi
      have hout : x.cell ∉ c.exitCells id := fun hm =>
        hmine _ hm (List.mem_flatMap.mpr ⟨i, hi, List.mem_map.mpr ⟨x, hx', rfl⟩⟩)
      rw [hcell, if_neg hout, hre.bound, hre.target]
      exact h.exits (hr ▸ List.mem_cons_of_mem _ hi) hx'
    · rw [hcell] at hb ⊢
      split at hb
      · cases hb
      · rename_i hk
        rw [if_neg hk, hre.target]
        exact h.aligned (hre.bound k ▸ hb)

theorem Tidy.evictMany (h : Tidy c held) {n : Nat} (he : CodeCache.evictMany n c = .ok d) :
    Tidy d held :=
  evictMany_keeps (P := (Tidy · held)) (fun _ _ hc he => hc.evict he) h he

theorem Tidy.allocate (h : Tidy c held) (n size : Int) : Tidy (c.allocate n size).2 held :=
  allocate_keeps (P := (Tidy · held)) (fun _ _ hc he => hc.evict he) n size h

theorem Linked.unmapAll (h : Linked c m) (ids : List BlockId) :
    Linked (ids.foldl unmap c) (ids.foldl without m) := by
  induction ids generalizing c m with
  | nil => exact h
  | cons id ids ih => exact ih ((h.of_sameCells (.setOrigin c id 0)).unlink id)

theorem foldl_without (ids : List BlockId) (m : UInt32 → Option BlockId) (a : UInt32) :
    ids.foldl without m a = if ∃ id ∈ ids, m a = some id then none else m a := by
  induction ids generalizing m with
  | nil => simp
  | cons id ids ih =>
    rw [List.foldl_cons, ih, without]
    by_cases ha : m a = some id
    · simp [ha]
    · simp [ha]

/-- The blocks of a page are no longer live, and the cells that entered them wait. -/
theorem Tidy.invalidatePage (h : Tidy c held) (page : UInt32) :
    Tidy (c.invalidatePage page).2 held := by
  have hlook {a : UInt32} {i : BlockId} : (c.invalidatePage page).2.lookup a = .live i ↔
      c.lookup a = .live i ∧ pageOf a ≠ page := lookup_invalidatePage
  have hsound := h.sound.invalidatePage page
  have hring := ring_invalidatePage c page
  rcases invalidatePage_cases c page with ⟨live, slots, hp⟩ | ⟨he, -⟩
  · have hids (i : BlockId) : i ∈ slots.toList.filterMap Mapping.block? ↔
        ∃ a, pageOf a = page ∧ c.lookup a = .live i := h.sound.mapped.mem_table hp
    obtain ⟨pages, occupied, invalidations, hd⟩ := invalidatePage_eq hp
    generalize slots.toList.filterMap Mapping.block? = ids at hids hd
    generalize (c.invalidatePage page).2 = d at hlook hsound hring hd
    have hsame : SameCells (ids.foldl unmap c) d := by
      rw [hd]
      exact ⟨rfl, rfl, rfl, rfl, fun _ => rfl⟩
    have hblockAt : d.blockAt = ids.foldl without c.blockAt := by
      funext a
      rw [foldl_without]
      refine Option.ext fun i => ?_
      rw [blockAt_eq_some, hlook]
      by_cases ha : ∃ id ∈ ids, c.blockAt a = some id
      · rw [if_pos ha]
        obtain ⟨id, hid, hl⟩ := ha
        obtain ⟨a', hpage, hl'⟩ := (hids id).mp hid
        have hword := h.sound.mapped.unique (blockAt_eq_some.mp hl) hl'
        have : pageOf a = page := (wordAddr_eq_iff.mp hword).1.trans hpage
        simp [this]
      · rw [if_neg ha, blockAt_eq_some]
        refine and_iff_left_of_imp fun hl hpage => ha ?_
        exact ⟨i, (hids i).mpr ⟨a, hpage, hl⟩, blockAt_eq_some.mpr hl⟩
    refine h.reroute hsound ?_ ?_ hring (fun id _ => ?_) fun a i hl => (hlook.mp hl).1
    · rw [hblockAt]
      exact (h.linked.unmapAll ids).of_sameCells hsame
    · exact (Rerouted.foldl Rerouted.unmap ids c).trans (.of_sameCells hsame)
    · rw [hd]
      exact exits_unmapAll ids c id
  · rw [he]
    exact h

theorem Tidy.invalidateAll (h : Tidy c held) : Tidy c.invalidateAll held :=
  List.foldlRecOn (motive := (Tidy · held)) _ _ h fun _ hd page _ => hd.invalidatePage page

/-- A block without exits is appended to the ring. -/
theorem Tidy.push {t : TraceProgram} {off size : Nat} (h : Tidy c held)
    (hs : Block.headerSize ≤ size) (hf : c.fit? size = some off) :
    Tidy (c.push (fresh t off size)) held := by
  have hsame : SameCells c (c.push (fresh t off size)) := .push c rfl
  have hlook (a : UInt32) : (c.push (fresh t off size)).lookup a = c.lookup a := by
    rw [lookup, pages_push, lookup]
  have hnew : ((c.push (fresh t off size)).block c.blocks.size).exits = [] := by
    rw [block_push, if_pos rfl]
    rfl
  have hblockAt : (c.push (fresh t off size)).blockAt = c.blockAt := by
    funext a
    rw [blockAt, hlook, blockAt]
  have hplaced := h.placed.push h.sound.ringed t off size
  refine ⟨h.sound.push hs hf, ?_, fun hl => h.nonzero (hlook _ ▸ hl), hplaced.perm,
    hplaced.unbound, fun {i x} hi hx => ?_, fun {k} hb => ?_⟩
  · rw [hblockAt]
    exact h.linked.of_sameCells hsame
  · rw [hsame.cell]
    rw [ring_push, List.mem_append, List.mem_singleton] at hi
    rcases hi with hi | rfl
    · rw [exits_push c _ (Nat.ne_of_lt (h.sound.ringed.bound hi))] at hx
      exact h.exits hi hx
    · rw [hnew] at hx
      cases hx
  · rw [hsame.cell] at hb ⊢
    exact h.aligned hb

theorem Tidy.withArena (h : Tidy c held) {arena : Arena} (ha : arena.size = c.arena.size) :
    Tidy { c with arena } held :=
  h.reroute (h.sound.withArena ha)
    (h.linked.of_sameCells ⟨rfl, rfl, rfl, rfl, fun _ => rfl⟩)
    (.of_sameCells ⟨rfl, rfl, rfl, rfl, fun _ => rfl⟩) rfl (fun _ _ => rfl) fun _ _ hl => hl

/-- The cells of some exits are there, are all different and belong to no exit. -/
structure Unused (c : CodeCache) (exits : List Exit) : Prop where
  nodup : (exits.map (·.cell)).Nodup
  lt {x : Exit} : x ∈ exits → x.cell < c.cells.size
  unbound {x : Exit} : x ∈ exits → (c.cell x.cell).bound = false

theorem Unused.tail {x : Exit} (h : Unused c (x :: exits)) (hl : (c.cell x.cell).linked = none) :
    Unused (c.bind x) exits := by
  obtain ⟨hx, hnodup⟩ := List.nodup_cons.mp h.nodup
  refine ⟨hnodup, fun {y} hy => ?_, fun {y} hy => ?_⟩
  · rw [size_cells_bind]
    exact h.lt (.tail _ hy)
  · have hne : y.cell ≠ x.cell := fun he => hx (List.mem_map.mpr ⟨y, hy, he⟩)
    rw [cell_bind (h.lt (.head _)) hl, if_neg hne]
    exact h.unbound (.tail _ hy)

/-- Each exit gets its cell, and the other cells stay as they are. -/
theorem Linked.bindAll (h : Linked c m) (hm : ∀ a, m a = c.blockAt a)
    (hid : ∀ a id, c.lookup a = .live id → id < c.blocks.size) (hu : Unused c exits) :
    Linked (exits.foldl CodeCache.bind c) m ∧
      (∀ x ∈ exits, (exits.foldl CodeCache.bind c).cell x.cell = ⟨true, x.target, m x.target⟩) ∧
      ∀ k ∉ exits.map (·.cell), (exits.foldl CodeCache.bind c).cell k = c.cell k := by
  induction exits generalizing c with
  | nil => exact ⟨h, nofun, fun _ _ => rfl⟩
  | cons x exits ih =>
    have hn := hu.lt (.head _)
    have hl := h.linked_of_unbound (hu.unbound (.head _))
    have hbare := bare_bind c x
    have hlook := lookup_of_bare hbare
    have hb := h.bind (hm x.target) (hid x.target) hn (hu.unbound (.head _))
    obtain ⟨hx, -⟩ := List.nodup_cons.mp hu.nodup
    obtain ⟨hlinked, hmine, hother⟩ := ih hb (fun a => by rw [hm, blockAt, blockAt, hlook])
      (fun a id hl => by
        rw [size_of_bare hbare]
        exact hid a id (hlook a ▸ hl)) (hu.tail hl)
    refine ⟨hlinked, fun y hy => ?_, fun k hk => ?_⟩
    · rcases List.mem_cons.mp hy with rfl | hy
      · have hm' : m y.target = (c.lookup y.target).block? := hm y.target
        rw [List.foldl_cons, hother _ hx, cell_bind hn hl, if_pos rfl, hm']
      · exact hmine y hy
    · rw [List.map_cons, List.mem_cons, not_or] at hk
      rw [List.foldl_cons, hother k hk.2, cell_bind hn hl, if_neg hk.1]

theorem lookup_linkWaiting (c : CodeCache) (pc : UInt32) (id : BlockId) (a : UInt32) :
    (c.linkWaiting pc id).lookup a = c.lookup a := by
  unfold linkWaiting
  rw [lookup_of_bare (bare_foldl (fun c n => bare_link c n id) _ _)]
  rfl

theorem lookup_exposed (c : CodeCache) (pc : UInt32) (id : BlockId) (exits : List Exit)
    (a : UInt32) : (c.exposed pc id exits).lookup a
      = if wordAddr a = wordAddr pc then .live id else c.lookup a := by
  unfold exposed
  rw [lookup_modifyBlock, lookup_linkWaiting, lookup_setOrigin, lookup_place]

section Publish

variable (h : Tidy c held) (hid : id < c.blocks.size) (hnew : ∀ a, c.lookup a ≠ .live id)
  (hempty : (c.block id).links = [])

include h hid hnew hempty

/-- The cells that entered the block at an address enter its successor. -/
theorem Tidy.linked_displace (pc : UInt32) : Linked (c.displace pc id) fun a =>
    if wordAddr a = wordAddr pc then (c.blockAt pc).map fun _ => id else c.blockAt a := by
  unfold CodeCache.displace
  split
  · rename_i old hold
    have hne : old ≠ id := fun he => hnew pc (he ▸ hold)
    refine (h.linked.supersede hne hid hempty).of_map fun n _ => ?_
    generalize (CodeCache.cell _ n).target = a
    have hpc : c.blockAt pc = some old := blockAt_eq_some.mpr hold
    have hiff : c.blockAt a = some old ↔ wordAddr a = wordAddr pc := by
      rw [blockAt_eq_some]
      exact ⟨fun hl => h.sound.mapped.unique hl hold, fun he => (lookup_congr he).trans hold⟩
    rw [hpc]
    by_cases ha : c.blockAt a = some old
    · rw [if_pos ha, if_pos (hiff.mp ha)]
      rfl
    · rw [if_neg ha, if_neg fun he => ha (hiff.mpr he)]
  · rename_i hold
    refine h.linked.of_map fun n _ => ?_
    generalize (c.cell n).target = a
    have hpc : c.blockAt pc = none := by
      rw [← Option.not_isSome_iff_eq_none, Option.isSome_iff_exists]
      rintro ⟨old, hl⟩
      exact hold old (blockAt_eq_some.mp hl)
    split
    · rename_i he
      have ha : c.blockAt a = none := by
        rw [blockAt, lookup_congr he]
        exact hpc
      rw [hpc, ha]
      rfl
    · rfl

/-- The cells that enter the block at an address or wait for one enter the new block there. -/
theorem Tidy.linked_exposed (hpc : wordAddr pc = pc) (exits : List Exit) :
    Linked (c.exposed pc id exits) (c.exposed pc id exits).blockAt := by
  have hsame : SameCells (c.displace pc id) ((c.place pc id).setOrigin id pc) := by
    have h1 : SameCells (c.displace pc id) (c.place pc id) := ⟨rfl, rfl, rfl, rfl, fun _ => rfl⟩
    exact h1.trans (.setOrigin _ id pc)
  have hsize : id < ((c.place pc id).setOrigin id pc).blocks.size := by
    rw [size_setOrigin]
    exact (size_displace c pc id).symm ▸ hid
  have hlinked : Linked (((c.place pc id).setOrigin id pc).linkWaiting pc id) _ :=
    ((h.linked_displace hid hnew hempty pc).of_sameCells hsame).linkWaiting hsize
      (by rw [if_pos rfl]; cases c.blockAt pc <;> simp)
  have hexits : SameCells _ (c.exposed pc id exits) :=
    .modifyBlock _ id (f := fun b => { b with exits }) fun _ => rfl
  refine (hlinked.of_sameCells hexits).of_map fun n hb => ?_
  have hr := Rerouted.exposed c pc id exits
  have ha : wordAddr ((c.exposed pc id exits).cell n).target
      = ((c.exposed pc id exits).cell n).target := by
    rw [hr.target]
    exact h.aligned (hr.bound n ▸ hb)
  generalize ((c.exposed pc id exits).cell n).target = a at ha
  rw [blockAt, lookup_exposed, ha, hpc]
  split
  · rfl
  · rfl

end Publish

/-- The newest block becomes live, and its exits get cells that were held. -/
theorem Tidy.publish {older : List BlockId} (h : Tidy c held) (hring : c.ring = older ++ [id])
    (hnew : ∀ a, c.lookup a ≠ .live id) (hlinks : (c.block id).links = [])
    (hexits : (c.block id).exits = []) (hpc : pc &&& 3 = 0) (hpc0 : pc ≠ 0)
    (hns : (exits.map (·.cell)).Nodup) (hheld : ∀ x ∈ exits, x.cell ∈ held)
    (haligned : ∀ x ∈ exits, x.target &&& 3 = 0) :
    Tidy (c.publish pc id exits) (held.diff (exits.map (·.cell))) := by
  have hmem : id ∈ c.ring := hring ▸ List.mem_append_right _ (.head _)
  have hid : id < c.blocks.size := h.sound.ringed.bound hmem
  have hword := wordAddr_of_aligned hpc
  have hsound := h.sound.publish hmem hnew hpc exits
  have hr := Rerouted.exposed c pc id exits
  have hsub : exits.map (·.cell) ⊆ held := by
    intro n hn
    obtain ⟨x, hx, rfl⟩ := List.mem_map.mp hn
    exact hheld x hx
  have hplaced := h.placed.publish h.sound.ringed hring hexits pc hns hsub
  have hbare : (c.publish pc id exits).bare = (c.exposed pc id exits).bare :=
    bare_foldl bare_bind exits _
  have hunused : Unused (c.exposed pc id exits) exits := by
    refine ⟨hns, fun hx => ?_, fun hx => ?_⟩
    · rw [hr.size, ← List.mem_range]
      exact h.cells.mem_iff.mp (List.mem_append_left _ (List.mem_append_right _ (hheld _ hx)))
    · rw [hr.bound]
      exact h.unbound (List.mem_append_right _ (hheld _ hx))
  obtain ⟨hlinked, hmine, hother⟩ := (h.linked_exposed hid hnew hlinks hword exits).bindAll
    (fun _ => rfl) (fun a i hl => by
      rw [← size_of_bare hbare]
      exact hsound.mapped.bound ((lookup_of_bare hbare a).trans hl)) hunused
  rw [← publish_eq] at hlinked hmine hother
  have hblockAt : (c.publish pc id exits).blockAt = (c.exposed pc id exits).blockAt := by
    funext a
    rw [blockAt, lookup_of_bare hbare, blockAt]
  have hout : id ∉ older := by
    have hnodup := hring ▸ h.sound.ringed.nodup
    exact fun hm => (List.nodup_append.mp hnodup).2.2 id hm id (.head _) rfl
  refine ⟨hsound, hblockAt ▸ hlinked, fun {a i} hl => ?_, hplaced.perm, hplaced.unbound,
    fun {i x} hi hx => ?_, fun {k} hb => ?_⟩
  · rw [lookup_publish] at hl
    split at hl
    · rename_i he
      rw [he, hword]
      exact hpc0
    · exact h.nonzero hl
  · rw [ring_publish, hring, List.mem_append, List.mem_singleton] at hi
    rcases hi with hi | rfl
    · rw [exits_publish hid, if_neg fun he : i = id => hout (he ▸ hi)] at hx
      have hi' : i ∈ c.ring := hring ▸ List.mem_append_left _ hi
      have hxns : x.cell ∉ exits.map (·.cell) := fun hm =>
        h.placed.disjoint (hsub hm) (h.mem_boundCells.mpr (h.exits hi' hx).1)
      rw [hother _ hxns, hr.bound, hr.target]
      exact h.exits hi' hx
    · rw [exits_publish hid, if_pos rfl] at hx
      rw [hmine x hx]
      exact ⟨rfl, rfl⟩
  · by_cases hk : k ∈ exits.map (·.cell)
    · obtain ⟨x, hx, rfl⟩ := List.mem_map.mp hk
      rw [hmine x hx]
      exact wordAddr_of_aligned (haligned x hx)
    · rw [hother k hk] at hb ⊢
      rw [hr.target]
      exact h.aligned (hr.bound k ▸ hb)

/-- An insertion gives the cells of its exits to them, or frees them. -/
theorem Tidy.insert {t : TraceProgram} (h : Tidy c held) (hpc0 : pc ≠ 0)
    (hns : (t.exits.map (·.cell)).Nodup) (hheld : ∀ x ∈ t.exits, x.cell ∈ held)
    (haligned : ∀ x ∈ t.exits, x.target &&& 3 = 0) (code : Option ByteArray) :
    Tidy (c.insert pc t code).2 (held.diff (t.exits.map (·.cell))) := by
  have hsub : t.exits.map (·.cell) ⊆ held := by
    intro n hn
    obtain ⟨x, hx, rfl⟩ := List.mem_map.mp hn
    exact hheld x hx
  rcases h.sound.insert_cases pc t code with ⟨err, -, he⟩ |
    ⟨off, d, halloc, hsound, hcd, hfit, hpc, hcase⟩
  · rw [he]
    exact h.freeCells hns hsub
  · have hd : Tidy d held := by
      have hd' := h.allocate (codeSize t code) (blockSize t code)
      rwa [halloc] at hd'
    have hpush : Tidy (d.push (fresh t off (blockSize t code))) held :=
      hd.push (Nat.le_trans (Nat.le_add_right _ _) (headerSize_le_blockSize t code)) hfit
    rcases hcase with ⟨err, he⟩ | ⟨arena, hw, he⟩
    · rw [he]
      exact hpush.freeCells hns hsub
    · rw [he, ← hcd.size]
      have hblock : (d.push (fresh t off (blockSize t code))).block d.blocks.size
          = fresh t off (blockSize t code) := by
        rw [block_push, if_pos rfl]
      have hring := ring_push d (fresh t off (blockSize t code))
      have hnew := hsound.mapped.not_live_push (fresh t off (blockSize t code))
      generalize d.push (fresh t off (blockSize t code)) = p at *
      refine (hpush.withArena (Arena.size_write hw)).publish hring hnew ?_ ?_ hpc hpc0 hns hheld
        haligned
      · exact congrArg Block.links hblock
      · exact congrArg Block.exits hblock

theorem Tidy.word_of_exit (h : Tidy c held) (hw : Worded c) (hid : id ∈ c.ring) {x : Exit}
    (hx : x ∈ (c.block id).exits) {j : BlockId} (hl : c.lookup x.target = .live j) :
    c.word x.cell = (c.block j).entry := by
  obtain ⟨hb, htarget⟩ := h.exits hid hx
  rw [hw.word, h.linked.linked_of_bound hb, htarget, blockAt_eq_some.mpr hl]
  rfl

theorem card_linkedCells_eq_countP (h : Worded c) : c.linkedCells.card
    = (List.range c.cells.size).countP fun n => (c.cellEntry? n).isSome := by
  have hsome (n : Nat) : decide ((c.cell n).linked ≠ none) = (c.cellEntry? n).isSome := by
    rw [h.cellEntry?_eq, Option.isSome_map]
    cases (c.cell n).linked <;> rfl
  rw [List.countP_eq_length_filter]
  simp only [← hsome]
  rfl

theorem tidy_create (size : Nat) (maxPages maxCells : Int) :
    Tidy (create (.create size) maxPages maxCells) [] := by
  have hcell (n : Nat) : (create (.create size) maxPages maxCells).cell n = .empty := by
    simp only [cell, create, Array.getD_eq_getD_getElem?, Array.getElem?_replicate]
    split <;> split <;> rfl
  have hlook (a : UInt32) (i : BlockId) :
      (create (.create size) maxPages maxCells).lookup a ≠ .live i := by
    simp [lookup, create]
  have hwait (a : UInt32) : (create (.create size) maxPages maxCells).waitingAt a = [] := by
    simp [waitingAt, create]
  have hblock (i : BlockId) : (create (.create size) maxPages maxCells).block i = default := by
    simp [block, create]
  refine ⟨sound_create size maxPages maxCells, ⟨fun n => ?_, fun {n i} => ?_, fun i => ?_,
    fun {n a} => ?_, fun a => ?_, ?_⟩, fun hl => absurd hl (hlook _ _), ?_, fun {n} _ => ?_,
    fun hid => ?_, fun {n} hb => ?_⟩
  · rw [hcell]
    rfl
  · rw [hblock, hcell]
    exact iff_of_false List.not_mem_nil (Option.some_ne_none i).symm
  · rw [hblock]
    exact .nil
  · rw [hwait, hcell]
    exact iff_of_false List.not_mem_nil fun hw => Bool.false_ne_true hw.1
  · rw [hwait]
    exact .nil
  · have hnone : (create (.create size) maxPages maxCells).linkedCells = ∅ := by
      ext n
      rw [mem_linkedCells, hcell]
      simp [Cell.empty]
    rw [hnone]
    rfl
  · simp [create, boundCells]
  · rw [hcell]
    rfl
  · cases hid
  · rw [hcell] at hb
    cases hb

end CodeCache

namespace Session

open CodeCache

variable {s s' : Session} {op : CacheOp}

/-- An insertion is not for address zero, gets different cells that are held, and the targets of
its exits are addresses of words. -/
def Proper (s : Session) : CacheOp → Prop
  | .insert pc t _ => pc ≠ 0 ∧ (t.exits.map (·.cell)).Nodup ∧
    ∀ x ∈ t.exits, x.cell ∈ s.held ∧ x.target &&& 3 = 0
  | _ => True

theorem proceed_ok {α : Type} {r : Except CodeCacheError α × CodeCache}
    (h : s.proceed r = .ok s') : s'.cache = r.2 ∧ s'.held = s.held := by
  obtain ⟨res, cache⟩ := r
  cases res with
  | error e =>
    unfold proceed at h
    dsimp only at h
    split at h
    · cases h
    · cases h
      exact ⟨rfl, rfl⟩
  | ok v =>
    cases h
    exact ⟨rfl, rfl⟩

theorem step_insert {pc : UInt32} {t : TraceProgram} {code : Option ByteArray}
    (h : s.step (.insert pc t code) = .ok s') :
    s'.cache = (s.cache.insert pc t code).2 ∧ s'.held = s.held.diff (t.exits.map (·.cell)) := by
  rw [step] at h
  cases hr : s.cache.insert pc t code with
  | mk res cache =>
    rw [hr] at h
    cases res with
    | ok id =>
      cases h
      exact ⟨rfl, rfl⟩
    | error e => exact proceed_ok h

/-- One operation keeps the cells in order. -/
theorem tidy_step (h : Tidy s.cache s.held) (hp : Proper s op) :
    ∃ s', s.step op = .ok s' ∧ Tidy s'.cache s'.held := by
  obtain ⟨s', hstep, -⟩ := step_cases h.sound op
  refine ⟨s', hstep, ?_⟩
  cases op with
  | allocCell =>
    cases hstep
    exact h.allocCell
  | insert pc t code =>
    obtain ⟨hcache, hheld⟩ := step_insert hstep
    rw [hcache, hheld]
    exact h.insert hp.1 hp.2.1 (fun x hx => (hp.2.2 x hx).1) (fun x hx => (hp.2.2 x hx).2) code
  | reserve n =>
    obtain ⟨hcache, hheld⟩ := proceed_ok hstep
    rw [hcache, hheld]
    exact h.allocate _ _
  | evict =>
    rw [step] at hstep
    cases he : s.cache.evict with
    | error e =>
      rw [he] at hstep
      cases hstep
    | ok d =>
      rw [he] at hstep
      cases hstep
      exact h.evict he
  | flush =>
    rw [step] at hstep
    cases he : s.cache.flush with
    | error e =>
      rw [he] at hstep
      cases hstep
    | ok d =>
      rw [he] at hstep
      cases hstep
      exact h.evictMany he
  | invalidatePage page =>
    cases hstep
    exact h.invalidatePage page
  | invalidateAll =>
    cases hstep
    exact h.invalidateAll
  | refuse reason =>
    cases hstep
    exact h.withArena rfl

/-- One operation keeps the words of the cells. -/
theorem worded_step (hs : Sound s.cache) (h : Worded s.cache) (hstep : s.step op = .ok s') :
    Worded s'.cache := by
  cases op with
  | allocCell =>
    cases hstep
    exact h.allocCell
  | insert pc t code =>
    rw [(step_insert hstep).1]
    exact h.insert hs pc t code
  | reserve n =>
    rw [(proceed_ok hstep).1]
    exact h.allocate _ _
  | evict =>
    rw [step] at hstep
    cases he : s.cache.evict with
    | error e =>
      rw [he] at hstep
      cases hstep
    | ok d =>
      rw [he] at hstep
      cases hstep
      exact h.evict he
  | flush =>
    rw [step] at hstep
    cases he : s.cache.flush with
    | error e =>
      rw [he] at hstep
      cases hstep
    | ok d =>
      rw [he] at hstep
      cases hstep
      exact h.evictMany he
  | invalidatePage page =>
    cases hstep
    exact h.invalidatePage page
  | invalidateAll =>
    cases hstep
    exact h.invalidateAll
  | refuse reason =>
    cases hstep
    exact h.withArena _

/-- Every exit of a block in the ring has a cell that leads to the entry of the block that is live
at its target, and nowhere if there is none. Each cell is in exactly one place: it is free, it is
held, or it belongs to one exit of one block in the ring. The counter of links is the number of
cells that lead somewhere. -/
theorem cells_lead_of_run (size : Nat) (maxPages maxCells : Int) {ops : List CacheOp}
    (hops : Admits Proper (start size maxPages maxCells) ops) :
    ∃ s, (start size maxPages maxCells).run ops = .ok s ∧
      (∀ id ∈ s.cache.ring, ∀ x ∈ (s.cache.block id).exits, s.cache.cellEntry? x.cell
        = (s.cache.lookup x.target).block?.map fun i => (s.cache.block i).entry) ∧
      (s.cache.free ++ s.held
        ++ s.cache.ring.flatMap fun id => (s.cache.block id).exits.map (·.cell)).Perm
          (List.range s.cache.cells.size) ∧
      s.cache.links
        = (List.range s.cache.cells.size).countP fun n => (s.cache.cellEntry? n).isSome := by
  obtain ⟨s, hrun, h, hw⟩ := run_of_step (P := fun s => Tidy s.cache s.held ∧ Worded s.cache)
    (fun s op hs hp => by
      obtain ⟨s', hstep, h⟩ := tidy_step hs.1 hp
      exact ⟨s', hstep, h, worded_step hs.1.sound hs.2 hstep⟩)
    ⟨tidy_create size maxPages maxCells, worded_create _ maxPages maxCells⟩ hops
  refine ⟨s, hrun, fun id hid x hx => ?_, h.cells, ?_⟩
  · obtain ⟨hb, htarget⟩ := h.exits hid hx
    rw [hw.cellEntry?_eq, h.linked.linked_of_bound hb, htarget]
    rfl
  · rw [h.linked.count]
    exact congrArg Nat.cast (card_linkedCells_eq_countP hw)

/-- A trace whose one exit leads to its own first instruction. -/
def selfLoop : TraceProgram := ⟨default, [⟨0x80000100, 0⟩], 1⟩

theorem cells_lead_of_selfLoop : ∃ s, (start 1024 1 2).run
    [.allocCell, .insert 0x80000100 selfLoop none] = .ok s ∧
      (∀ id ∈ s.cache.ring, ∀ x ∈ (s.cache.block id).exits, s.cache.cellEntry? x.cell
        = (s.cache.lookup x.target).block?.map fun i => (s.cache.block i).entry) ∧
      (s.cache.free ++ s.held
        ++ s.cache.ring.flatMap fun id => (s.cache.block id).exits.map (·.cell)).Perm
          (List.range s.cache.cells.size) ∧
      s.cache.links
        = (List.range s.cache.cells.size).countP fun n => (s.cache.cellEntry? n).isSome := by
  refine cells_lead_of_run 1024 1 2
    ⟨trivial, fun s hs => ⟨⟨by decide, by decide, ?_⟩, fun _ _ => trivial⟩⟩
  cases hs
  decide

end Session

end Recompiler
