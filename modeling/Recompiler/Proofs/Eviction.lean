import Recompiler.Proofs.RingLayout

/-!
Eviction and insertion. While the map and the ring are sound, evicting the oldest block succeeds
and keeps them so, and enough evictions make room for every block that the arena can hold. What
stays in the ring stays as it was. An insertion either leaves the ring alone or appends a block
to what is left of it.
-/

namespace Recompiler

open Ir Emit

namespace CodeCache

open Recompiler.Span

variable {c d e : CodeCache} {id i : BlockId} {off : Nat} {pc : UInt32} {rest : List BlockId}

/-- The map and the ring of a cache are sound. -/
structure Sound (c : CodeCache) : Prop where
  mapped : Mapped c
  ringed : Ringed c

theorem Sound.of_bare (h : Sound c) (he : d.bare = c.bare) : Sound d :=
  ⟨h.mapped.of_bare he, h.ringed.of_frame (frame_of_bare he)⟩

/-- `d` is `c` without some of its oldest blocks. -/
structure Evicted (c d : CodeCache) : Prop where
  ring : d.ring <:+ c.ring
  arena : d.arena = c.arena
  size : d.blocks.size = c.blocks.size
  block {i : BlockId} : i ∈ d.ring → (d.block i).bare = (c.block i).bare
  live {pc : UInt32} {i : BlockId} : d.lookup pc = .live i → c.lookup pc = .live i

namespace Evicted

theorem refl (c : CodeCache) : Evicted c c :=
  ⟨List.suffix_rfl, rfl, rfl, fun _ => rfl, id⟩

theorem trans (h : Evicted c d) (h' : Evicted d e) : Evicted c e where
  ring := h'.ring.trans h.ring
  arena := h'.arena.trans h.arena
  size := h'.size.trans h.size
  block hi := (h'.block hi).trans (h.block (h'.ring.subset hi))
  live hl := h.live (h'.live hl)

theorem capacity (h : Evicted c d) : d.capacity = c.capacity := congrArg Arena.size h.arena

end Evicted

theorem block_retire (h : c.retire id = .ok d) (hi : i ≠ id) : d.block i = c.block i := by
  rcases retire_cases h with ⟨-, rfl⟩ | ⟨pages, occupied, rfl⟩
  · rfl
  · exact block_modifyBlock_of_ne hi _

theorem arena_retire (h : c.retire id = .ok d) : d.arena = c.arena := by
  rcases retire_cases h with ⟨-, rfl⟩ | ⟨pages, occupied, rfl⟩ <;> rfl

section
variable (c : CodeCache)

theorem ring_settle : c.settle.ring = c.ring := by rw [settle_eq]

theorem pages_settle : c.settle.pages = c.pages := by rw [settle_eq]

theorem arena_settle : c.settle.arena = c.arena := by rw [settle_eq]

theorem blocks_settle : c.settle.blocks = c.blocks := by rw [settle_eq]

theorem block_settle (i : BlockId) : c.settle.block i = c.block i := by
  rw [block, blocks_settle, block]

end

/-- The oldest block of a sound cache can be evicted. -/
theorem Sound.evict (h : Sound c) (hr : c.ring = id :: rest) :
    ∃ d, c.evict = .ok d ∧ Sound d ∧ Evicted c d ∧ d.ring = rest := by
  obtain ⟨hid, hnodup⟩ := List.nodup_cons.mp (hr ▸ h.ringed.nodup)
  obtain ⟨d, hret, hmap, hlive⟩ := h.mapped.retire hr hid
  have hframe := frame_retire hret
  have hring : d.ring = rest := ring_of_frame hframe
  have hback : ({ d with ring := id :: d.ring }).frame = c.frame :=
    calc ({ d with ring := id :: d.ring }).frame
      _ = { d.frame with ring := id :: d.ring } := rfl
      _ = { ({ c with ring := rest } : CodeCache).frame with ring := id :: rest } := by
        rw [hframe, hring]
      _ = ({ c with ring := id :: rest }).frame := rfl
      _ = c.frame := by rw [← hr]
  have hringed := (h.ringed.of_frame hback).release
  have hpages := (pages_settle (d.release id)).trans (pages_release d id)
  have horigin (i : BlockId) : ((d.release id).settle.block i).origin = (d.block i).origin := by
    rw [block_settle, origin_release]
  have hring' : (d.release id).settle.ring = d.ring := by rw [ring_settle, ring_release]
  have hsize : (d.release id).settle.blocks.size = d.blocks.size := by
    rw [blocks_settle, size_release]
  refine ⟨(d.release id).settle, ?_, ⟨?_, hringed⟩, ⟨?_, ?_, ?_, fun hi => ?_, fun hl => ?_⟩,
    hring'.trans hring⟩
  · unfold CodeCache.evict
    rw [hr]
    dsimp only
    rw [hret]
  · exact hmap.mono hpages (hring' ▸ List.Subset.refl _) (Nat.le_of_eq hsize.symm) horigin
  · rw [hring', hring, hr]
    exact List.suffix_cons id rest
  · have harena := arena_retire hret
    exact (arena_settle _).trans ((arena_release d id).trans harena)
  · have hs := size_of_frame hframe
    exact hsize.trans hs
  · rw [hring', hring] at hi
    have hne : _ ≠ id := fun he => hid (he ▸ hi)
    rw [block_settle, block_release_of_ne _ _ hne, block_retire hret hne]
    rfl
  · refine ((hlive _ _).mp ?_).1
    rw [← hl, lookup, lookup, hpages]

/-- Evictions make room for every block that is not larger than the arena. -/
theorem Sound.makeRoom (h : Sound c) {size : Int} (hsize : size ≤ c.capacity) {n : Nat}
    (hn : c.ring.length ≤ n) : ∃ off d, CodeCache.makeRoom size n c = (.ok off, d) ∧
      d.fit? size = some off ∧ Sound d ∧ Evicted c d := by
  induction n generalizing c with
  | zero =>
    have hr : c.ring = [] := List.length_eq_zero_iff.mp (Nat.le_zero.mp hn)
    have hf : c.fit? size = some 0 := by simp [fit?, hr, hsize]
    refine ⟨0, c, ?_, hf, h, .refl c⟩
    unfold CodeCache.makeRoom
    rw [hf]
  | succ n ih =>
    unfold CodeCache.makeRoom
    cases hf : c.fit? size with
    | some off => exact ⟨off, c, rfl, hf, h, .refl c⟩
    | none =>
      cases hr : c.ring with
      | nil => simp [fit?, hr, hsize] at hf
      | cons id rest =>
        obtain ⟨d, hev, hd, hcd, hring⟩ := h.evict hr
        rw [hr] at hn
        obtain ⟨off, e, hroom, hfit, he, hde⟩ := ih hd (hcd.capacity ▸ hsize)
          (hring ▸ Nat.le_of_succ_le_succ hn)
        simp only [hev]
        exact ⟨off, e, hroom, hfit, he, hcd.trans hde⟩

theorem Sound.allocate (h : Sound c) (n size : Int) :
    (c.capacity < size ∧ c.allocate n size = (.error (.tooLarge n), c)) ∨
    (size ≤ c.capacity ∧ ∃ off d, c.allocate n size = (.ok off, d) ∧ d.fit? size = some off ∧
      Sound d ∧ Evicted c d) := by
  unfold CodeCache.allocate
  by_cases hlt : (c.capacity : Int) < size
  · exact .inl ⟨hlt, if_pos hlt⟩
  · rw [if_neg hlt]
    exact .inr ⟨by omega, h.makeRoom (by omega) (Nat.le_refl _)⟩

theorem Sound.evictMany (h : Sound c) {n : Nat} (hn : c.ring.length = n) :
    ∃ d, CodeCache.evictMany n c = .ok d ∧ Sound d ∧ Evicted c d ∧ d.ring = [] := by
  induction n generalizing c with
  | zero => exact ⟨c, rfl, h, .refl c, List.length_eq_zero_iff.mp hn⟩
  | succ n ih =>
    obtain ⟨id, rest, hr⟩ := List.exists_cons_of_length_eq_add_one hn
    obtain ⟨d, hev, hd, hcd, hring⟩ := h.evict hr
    rw [hr] at hn
    obtain ⟨e, hmany, he, hde, hnil⟩ := ih hd (hring ▸ Nat.succ.inj hn)
    refine ⟨e, ?_, he, hcd.trans hde, hnil⟩
    unfold CodeCache.evictMany
    rw [hev]
    exact hmany

theorem Mapped.push (h : Mapped c) {b : Block} (hb : b.origin = 0) : Mapped (c.push b) := by
  refine h.mono (pages_push c b) ?_ ?_ fun i => ?_
  · rw [ring_push]
    exact List.subset_append_left _ _
  · rw [size_push]
    exact Nat.le_succ _
  · by_cases hi : i = c.blocks.size
    · rw [block_push, if_pos hi, hb, block_of_ge (Nat.le_of_eq hi.symm)]
      rfl
    · obtain ⟨size, he⟩ := block_push_of_ne c b hi
      rw [he]

theorem Mapped.not_live_new (h : Mapped c) (pc : UInt32) : c.lookup pc ≠ .live c.blocks.size :=
  fun hl => Nat.lt_irrefl _ (h.bound hl)

theorem Mapped.not_live_push (h : Mapped c) (b : Block) (pc : UInt32) :
    (c.push b).lookup pc ≠ .live c.blocks.size := by
  rw [lookup, pages_push]
  exact h.not_live_new pc

def fresh (t : TraceProgram) (off size : Nat) : Block := ⟨0, off, size, t.count, t.program, [], []⟩

def blockSize (t : TraceProgram) (code : Option ByteArray) : Nat :=
  align (Block.headerSize + codeSize t code)

theorem headerSize_le_blockSize (t : TraceProgram) (code : Option ByteArray) :
    Block.headerSize + codeSize t code ≤ blockSize t code := by
  simp only [blockSize, align]
  omega

theorem aligned_of_check (h : c.check pc = .ok ()) : pc &&& 3 = 0 := by
  unfold check at h
  by_contra hne
  rw [if_pos hne] at h
  cases h

theorem check_error {err : CodeCacheError} (h : c.check pc = .error err) : err.isFault = false := by
  unfold check at h
  split at h
  · cases h
    rfl
  · split at h
    · cases h
    · split at h
      · cases h
        rfl
      · cases h

/-- How an insertion ends: the ring stays as it is, or the trace has a new block, which is live
if its code could be written. -/
theorem Sound.insert_cases (h : Sound c) (pc : UInt32) (t : TraceProgram)
    (code : Option ByteArray) :
    (∃ err, err.isFault = false ∧
      c.insert pc t code = (.error err, c.freeCells (t.exits.map (·.cell)))) ∨
    ∃ off d, c.allocate (codeSize t code) (blockSize t code) = (.ok off, d) ∧
      Sound d ∧ Evicted c d ∧ d.fit? (blockSize t code) = some off ∧ pc &&& 3 = 0 ∧
      ((∃ err, c.insert pc t code = (.error (.write err),
          (d.push (fresh t off (blockSize t code))).freeCells (t.exits.map (·.cell)))) ∨
        ∃ arena, (d.push (fresh t off (blockSize t code))).arena.write (off + Block.headerSize)
            (code.getD .empty) = .ok arena ∧
          c.insert pc t code = (.ok c.blocks.size,
            { d.push (fresh t off (blockSize t code)) with arena }.publish pc c.blocks.size
              t.exits)) := by
  unfold CodeCache.insert
  dsimp only
  cases hcheck : c.check pc with
  | error err => exact .inl ⟨err, check_error hcheck, rfl⟩
  | ok u =>
    rcases h.allocate (codeSize t code) (align (Block.headerSize + codeSize t code)) with
      ⟨-, he⟩ | ⟨-, off, d, he, hfit, hd, hcd⟩
    · rw [he]
      exact .inl ⟨.tooLarge _, rfl, rfl⟩
    · rw [he]
      refine .inr ⟨off, d, he, hd, hcd, hfit, aligned_of_check hcheck, ?_⟩
      dsimp only
      rw [hcd.size]
      have hfresh : (⟨0, off, align (Block.headerSize + codeSize t code), t.count, t.program, [],
        []⟩ : Block) = fresh t off (blockSize t code) := rfl
      rw [hfresh]
      generalize d.push (fresh t off (blockSize t code)) = p
      cases hw : p.arena.write (off + Block.headerSize) (code.getD .empty) with
      | error err => exact .inl ⟨err, rfl⟩
      | ok arena => exact .inr ⟨arena, rfl, rfl⟩

theorem Sound.push {t : TraceProgram} {size : Nat} (h : Sound c) (hs : Block.headerSize ≤ size)
    (hf : c.fit? size = some off) : Sound (c.push (fresh t off size)) :=
  ⟨h.mapped.push rfl, h.ringed.push hs hf⟩

theorem Sound.withArena (h : Sound c) {arena : Arena} (ha : arena.size = c.arena.size) :
    Sound { c with arena } := by
  have hframe : ({ c with arena } : CodeCache).frame = c.frame := by simp only [frame, bare, ha]
  exact ⟨h.mapped.mono rfl (List.Subset.refl _) (Nat.le_refl _) fun _ => rfl,
    h.ringed.of_frame hframe⟩

theorem Sound.publish (h : Sound c) (hid : id ∈ c.ring) (hnew : ∀ pc, c.lookup pc ≠ .live id)
    (hpc : pc &&& 3 = 0) (exits : List Exit) : Sound (c.publish pc id exits) :=
  ⟨h.mapped.publish (h.ringed.bound hid) hid hnew (wordAddr_of_aligned hpc) exits,
    h.ringed.of_frame (frame_publish ..)⟩

theorem Sound.invalidatePage (h : Sound c) (page : UInt32) : Sound (c.invalidatePage page).2 :=
  ⟨h.mapped.invalidatePage page, h.ringed.of_frame (frame_invalidatePage c page)⟩

theorem Sound.resolve_entry (h : Sound c) (hid : id ∈ c.ring)
    (hcode : (c.block id).program.code.isEmpty = false) :
    c.resolve? (c.block id).entry = some (c.block id).program := by
  rw [resolve?, h.ringed.entries.mpr ⟨hid, rfl⟩]
  simp [hcode]

end CodeCache

theorem Arena.size_write {a b : Arena} {off : Int} {bs : ByteArray} (h : a.write off bs = .ok b) :
    b.size = a.size := by
  unfold write at h
  split at h
  · cases h
  · split at h
    · cases h
      exact size_poke ..
    · cases h

end Recompiler
