import Recompiler.Proofs.CellSets
import Recompiler.Proofs.PageTables
import Recompiler.Proofs.SpaceBudgets

/-!
Insertion is all or nothing. Whether it succeeds can be told before anything is evicted: from the
address, the tables and the size. So a trace that is refused leaves the cache as it was, and its
cells are free again. Here is all that a cache over an arena that refuses nothing keeps, and what
an insertion makes of it.
-/

namespace Recompiler

open Ir Emit

namespace CodeCache

open PageTables

variable {c d : CodeCache} {id : BlockId} {n : Nat} {x : Extent} {pc page : UInt32}
  {ns held : List Nat} {t : TraceProgram} {code : Option ByteArray}

theorem arena_of_bare (h : d.bare = c.bare) : d.arena = c.arena := by
  have ha := congrArg CodeCache.arena h
  exact ha

theorem refusal_setOrigin (c : CodeCache) (id : BlockId) (pc : UInt32) :
    (c.setOrigin id pc).arena.refusal = c.arena.refusal := refusal_tag ..

theorem refusal_displace (c : CodeCache) (pc : UInt32) (id : BlockId) :
    (c.displace pc id).arena.refusal = c.arena.refusal := by
  unfold displace
  split
  · rw [arena_of_bare (bare_supersede ..), refusal_setOrigin]
  · rfl

theorem refusal_publish (c : CodeCache) (pc : UInt32) (id : BlockId) (exits : List Exit) :
    (c.publish pc id exits).arena.refusal = c.arena.refusal := by
  rw [arena_of_bare (bare_publish ..)]
  exact (refusal_setOrigin ..).trans (refusal_displace c pc id)

theorem refusal_invalidatePage (c : CodeCache) (page : UInt32) :
    (c.invalidatePage page).2.arena.refusal = c.arena.refusal := by
  rcases invalidatePage_cases c page with ⟨live, slots, hp⟩ | ⟨he, -⟩
  · obtain ⟨pages, occupied, invalidations, hd⟩ := invalidatePage_eq hp
    rw [hd]
    refine List.foldlRecOn (motive := fun d : CodeCache => d.arena.refusal = c.arena.refusal)
      _ _ rfl fun d hd id _ => ?_
    rw [arena_of_bare (bare_unmap d id), refusal_setOrigin, hd]
  · rw [he]

/-- How much a cache may hold. -/
structure Extent where
  bytes : Nat
  tables : Nat
  cells : Nat

def extent (c : CodeCache) : Extent := ⟨c.capacity, c.maxPages, c.cells.size⟩

/-- What a cache keeps while the cells in `held` are taken and not bound. -/
structure Stocked (x : Extent) (c : CodeCache) (held : List Nat) : Prop where
  sound : Sound c
  wired : Wired c
  worded : Worded c
  placed : Placed x.cells c held
  heap : c.arena.refusal = none
  capacity : c.capacity = x.bytes
  accounted : Accounted x.tables c.outer
  maxPages : c.maxPages = x.tables

namespace Stocked

theorem charted (h : Stocked x c held) : Accounted c.maxPages c.outer :=
  h.maxPages.symm ▸ h.accounted

theorem create (size : Nat) (maxPages maxCells : Int) :
    Stocked (create (.create size) maxPages maxCells).extent
      (create (.create size) maxPages maxCells) [] where
  sound := sound_create size maxPages maxCells
  wired := wired_create size maxPages maxCells
  worded := worded_create ..
  placed := placed_create size maxPages maxCells
  heap := rfl
  capacity := rfl
  accounted := outer_create .. ▸ .empty _
  maxPages := rfl

theorem shed {held' : List Nat} (h : Stocked x c held) (hs : Sound d) (hw : Wired d)
    (hwords : Worded d) (hp : Placed x.cells d held') (ha : d.arena.refusal = c.arena.refusal)
    (hc : d.capacity = c.capacity) (hsheds : Sheds c d) : Stocked x d held' where
  sound := hs
  wired := hw
  worded := hwords
  placed := hp
  heap := ha.trans h.heap
  capacity := hc.trans h.capacity
  accounted := h.accounted.run (h.maxPages ▸ hsheds.turns)
  maxPages := hsheds.maxPages.trans h.maxPages

theorem allocCell (h : Stocked x c held) :
    Stocked x c.allocCell.2 (c.allocCell.1.toList ++ held) := by
  have hplaced := h.placed.allocCell
  unfold CodeCache.allocCell at hplaced ⊢
  cases hf : c.free with
  | nil => exact h
  | cons n free =>
    rw [hf] at hplaced
    exact h.shed (h.sound.of_bare rfl)
      ⟨h.wired.empty, h.wired.links, h.wired.links_nodup, h.wired.waits, h.wired.waits_nodup⟩
      (h.worded.of_blocks rfl rfl rfl) hplaced rfl rfl (.of_pages rfl rfl rfl)

theorem freeCells (h : Stocked x c held) (hns : ns.Nodup) (hsub : ns ⊆ held) :
    Stocked x (c.freeCells ns) (held.diff ns) := by
  have hbare := bare_freeCells c ns
  exact h.shed (h.sound.of_bare hbare) (h.wired.freeCells ns) (h.worded.freeCells ns)
    (h.placed.freeCells hns hsub) (congrArg Arena.refusal (arena_of_bare hbare)) (congrArg Arena.size (arena_of_bare hbare))
    (.of_bare hbare)

theorem evict (h : Stocked x c held) (he : c.evict = .ok d) :
    Stocked x d held := by
  have hplaced := h.placed.evict h.sound he
  cases hr : c.ring with
  | nil =>
    rw [CodeCache.evict, hr] at he
    cases he
    exact h
  | cons id rest =>
    obtain ⟨d', he', hsound, hev, -⟩ := h.sound.evict hr
    obtain rfl : d = d' := Except.ok.inj (he.symm.trans he')
    obtain ⟨r, hret, hsame, -, -⟩ := h.sound.evict_frees hr he
    exact h.shed hsound ((((h.wired.of_sameCells hret).unlink id).freeCells _).of_sameCells hsame)
      (h.worded.evict he) hplaced (congrArg Arena.refusal hev.arena) hev.capacity (.evict he)

theorem evictMany (h : Stocked x c held) {n : Nat}
    (he : CodeCache.evictMany n c = .ok d) : Stocked x d held :=
  evictMany_keeps (P := (Stocked x · held)) (fun _ _ hc he => hc.evict he) h he

theorem allocate (h : Stocked x c held) (n bytes : Int) :
    Stocked x (c.allocate n bytes).2 held :=
  allocate_keeps (P := (Stocked x · held)) (fun _ _ hc he => hc.evict he) n bytes h

theorem invalidatePage (h : Stocked x c held) (page : UInt32) :
    Stocked x (c.invalidatePage page).2 held := by
  have hwired : Wired (c.invalidatePage page).2 := by
    rcases invalidatePage_cases c page with ⟨live, slots, hp⟩ | ⟨he, -⟩
    · obtain ⟨pages, occupied, invalidations, hd⟩ := invalidatePage_eq hp
      rw [hd]
      exact (h.wired.unmapAll _).of_sameCells ⟨rfl, rfl, rfl, rfl, fun _ => rfl⟩
    · rw [he]
      exact h.wired
  exact h.shed (h.sound.invalidatePage page) hwired (h.worded.invalidatePage page)
    (h.placed.invalidatePage page)
    (refusal_invalidatePage c page) (capacity_of_frame (frame_invalidatePage c page))
    (.invalidatePage c page)

theorem invalidateAll (h : Stocked x c held) : Stocked x c.invalidateAll held :=
  List.foldlRecOn (motive := (Stocked x · held)) _ _ h fun _ hd page _ =>
    hd.invalidatePage page

theorem push (h : Stocked x c held) {off bytes : Nat} (hs : Block.headerSize ≤ bytes)
    (hf : c.fit? bytes = some off) (t : TraceProgram) :
    Stocked x (c.push (fresh t off bytes)) held :=
  h.shed (h.sound.push hs hf) (h.wired.of_sameCells (.push c rfl)) (h.worded.push _)
    (h.placed.push h.sound.ringed t off bytes) (refusal_push ..) (capacity_push ..)
    ((Sheds.refl c).push _)

theorem withArena (h : Stocked x c held) {arena : Arena}
    (hsize : arena.size = c.arena.size) (hopen : arena.refusal = none) :
    Stocked x { c with arena } held :=
  h.shed (h.sound.withArena hsize) (h.wired.of_sameCells ⟨rfl, rfl, rfl, rfl, fun _ => rfl⟩)
    (h.worded.withArena arena) (h.placed.withArena arena) (hopen.trans h.heap.symm) hsize (.of_pages rfl rfl rfl)

theorem publish {older : List BlockId} {exits : List Exit} (h : Stocked x c held)
    (hring : c.ring = older ++ [id]) (hnew : ∀ a, c.lookup a ≠ .live id)
    (hexits : (c.block id).exits = []) (hpc : pc &&& 3 = 0)
    (hroom : pageOf pc ∈ c.outer.bits ∨ c.outer.bits.card < x.tables)
    (hns : (exits.map (·.cell)).Nodup) (hsub : exits.map (·.cell) ⊆ held) :
    Stocked x (c.publish pc id exits) (held.diff (exits.map (·.cell))) := by
  have hmem : id ∈ c.ring := hring ▸ List.mem_append_right _ (.head _)
  have hsound := h.sound.publish hmem hnew hpc exits
  have hframe := frame_publish c pc id exits
  have hmax := congrArg CodeCache.maxPages hframe
  exact
    { sound := hsound
      worded := h.worded.publish (h.sound.ringed.bound hmem) fun a i hl => hsound.mapped.bound hl
      wired := h.wired.publish h.sound hmem hnew hpc (h.placed.unused hns hsub)
      placed := h.placed.publish h.sound.ringed hring hexits pc hns hsub
      heap := (refusal_publish ..).trans h.heap
      capacity := (capacity_of_frame hframe).trans h.capacity
      accounted := h.accounted.turn (turn_place h.accounted hroom (pages_publish ..)
        (occupied_publish ..))
      maxPages := hmax.trans h.maxPages }

/-- A trace that the map and the arena have room for is inserted. Its block is live and is the
newest one in the ring. -/
theorem insert_ok (h : Stocked x c held) (hcheck : c.check pc = .ok ())
    (hle : blockSize t code ≤ x.bytes) (hns : (t.exits.map (·.cell)).Nodup)
    (hsub : t.exits.map (·.cell) ⊆ held) : ∃ d, c.insert pc t code = (.ok c.blocks.size, d) ∧
      Stocked x d (held.diff (t.exits.map (·.cell))) ∧ d.lookup pc = .live c.blocks.size ∧
      c.blocks.size ∈ d.ring := by
  obtain ⟨off, d, arena, halloc, -, hcd, hfit, hopen, hw, he⟩ :=
    h.sound.insert_ok hcheck (h.capacity ▸ hle) h.heap
  have hd : Stocked x d held := by
    have hd' := h.allocate (codeSize t code) (blockSize t code)
    rwa [halloc] at hd'
  have hs := Nat.le_trans (Nat.le_add_right _ _) (headerSize_le_blockSize t code)
  have hp := (hd.push hs hfit t).withArena (Arena.size_write hw) hopen
  have hpush : Sheds c (d.push (fresh t off (blockSize t code))) := (Sheds.allocate halloc).push _
  have hsheds : Sheds c { d.push (fresh t off (blockSize t code)) with arena } :=
    hpush.trans (.of_pages rfl rfl rfl)
  have hroom := room_of_check hcheck h.charted hsheds
  have hring := ring_push d (fresh t off (blockSize t code))
  have hnew := hd.sound.mapped.not_live_push (fresh t off (blockSize t code))
  have hblock : (d.push (fresh t off (blockSize t code))).block d.blocks.size
      = fresh t off (blockSize t code) := by
    rw [block_push, if_pos rfl]
  rw [h.maxPages] at hroom
  rw [← hcd.size] at he ⊢
  generalize d.push (fresh t off (blockSize t code)) = p at *
  have hexits : (p.block d.blocks.size).exits = [] := congrArg Block.exits hblock
  refine ⟨_, he, hp.publish hring hnew hexits (aligned_of_check hcheck) hroom hns hsub, ?_, ?_⟩
  · rw [lookup_publish, if_pos rfl]
  · rw [ring_publish]
    exact hring ▸ List.mem_append_right _ (.head _)

end Stocked

/-- May a trace of `n` bytes be mapped at an address and be held by the arena? -/
def Takes (c : CodeCache) (pc : UInt32) (n : Nat) : Prop :=
  pc &&& 3 = 0 ∧ (pageOf pc ∈ c.tables ∨ c.tables.length < c.maxPages) ∧
    align (Block.headerSize + n) ≤ c.capacity

theorem check_ok_iff (h : Accounted c.maxPages c.outer) : c.check pc = .ok () ↔
    pc &&& 3 = 0 ∧ (pageOf pc ∈ c.tables ∨ c.tables.length < c.maxPages) := by
  have htable : c.hasTable (pageOf pc) = true ↔ pageOf pc ∈ c.tables :=
    hasTable_iff.trans (mem_tables h).symm
  unfold check
  by_cases hpc : pc &&& 3 = 0
  · rw [if_neg (not_not.mpr hpc), and_iff_right hpc, ← htable]
    by_cases ht : c.hasTable (pageOf pc) = true
    · simp [ht]
    · rw [if_neg ht, or_iff_right ht]
      by_cases hl : c.maxPages ≤ c.tables.length
      · simp [hl]
      · simp [hl, not_le.mp hl]
  · simp [hpc]

theorem insert_refused (ha : Accounted c.maxPages c.outer)
    (h : ¬c.Takes pc (codeSize t code)) : ∃ err,
    c.insert pc t code = (.error err, c.freeCells (t.exits.map (·.cell))) := by
  unfold CodeCache.insert
  dsimp only
  cases hcheck : c.check pc with
  | error err => exact ⟨err, rfl⟩
  | ok u =>
    obtain ⟨hpc, hroom⟩ := (check_ok_iff ha).mp hcheck
    have hlt : (c.capacity : Int) < (align (Block.headerSize + codeSize t code) : Nat) :=
      Int.ofNat_lt.mpr (not_le.mp fun hle => h ⟨hpc, hroom, hle⟩)
    dsimp only
    rw [allocate, if_pos hlt]
    exact ⟨_, rfl⟩

theorem Stocked.insert (h : Stocked x c held) (pc : UInt32) (code : Option ByteArray)
    (hns : (t.exits.map (·.cell)).Nodup) (hsub : t.exits.map (·.cell) ⊆ held) :
    Stocked x (c.insert pc t code).2 (held.diff (t.exits.map (·.cell))) := by
  by_cases htakes : c.Takes pc (codeSize t code)
  · obtain ⟨hpc, hroom, hle⟩ := htakes
    have hsize : blockSize t code ≤ x.bytes := h.capacity ▸ hle
    have hcheck := (check_ok_iff h.charted).mpr ⟨hpc, hroom⟩
    obtain ⟨d, he, hd, -⟩ := h.insert_ok hcheck hsize hns hsub
    rw [he]
    exact hd
  · obtain ⟨err, he⟩ := insert_refused h.charted htakes
    rw [he]
    exact h.freeCells hns hsub

theorem Sound.block_insert (h : Sound c) (he : c.insert pc t code = (.ok id, d)) :
    (d.block id).program = t.program ∧ (d.block id).exits = t.exits := by
  rcases h.insert_cases pc t code with ⟨err, -, he'⟩ |
    ⟨off, c', -, -, hcd, -, -, ⟨err, he'⟩ | ⟨arena, -, he'⟩⟩
  · cases he.symm.trans he'
  · cases he.symm.trans he'
  · cases he.symm.trans he'
    have hblock : (c'.push (fresh t off (blockSize t code))).block c.blocks.size
        = fresh t off (blockSize t code) := by
      rw [← hcd.size, block_push, if_pos rfl]
    have hid : c.blocks.size < (c'.push (fresh t off (blockSize t code))).blocks.size := by
      rw [← hcd.size, size_push]
      exact Nat.lt_succ_self _
    constructor
    · rw [Block.program_of_frame (block_of_frame (frame_publish ..) _)]
      exact congrArg Block.program hblock
    · refine (exits_publish ?_ _ _ _).trans (if_pos rfl)
      exact hid

end CodeCache

namespace Session

open CodeCache

variable {s s' : Session} {op : CacheOp} {size : Nat} {maxPages maxCells : Int}

/-- An insertion gets different cells that are held, and the arena refuses nothing. -/
def Careful (s : Session) : CacheOp → Prop
  | .insert _ t _ => (t.exits.map (·.cell)).Nodup ∧ t.exits.map (·.cell) ⊆ s.held
  | .refuse reason => reason = none
  | _ => True

/-- What a session comes to. Cells that are held may also be given back one by one. -/
inductive Reached (size : Nat) (maxPages maxCells : Int) : Session → Prop
  | start : Reached size maxPages maxCells (start size maxPages maxCells)
  | step {s s' : Session} {op : CacheOp} : Reached size maxPages maxCells s → s.Careful op →
    s.step op = .ok s' → Reached size maxPages maxCells s'
  | freeCell {s : Session} {n : Nat} : Reached size maxPages maxCells s → n ∈ s.held →
    Reached size maxPages maxCells
      { s with cache := s.cache.freeCell n, held := s.held.erase n }

end Session

end Recompiler
