import Mathlib
import Recompiler.CodeCache.Basic

/-!
What the operations on link cells leave alone. A cache without its cells and counters is bare:
its arena, its ring and its map, and of its blocks everything but the cells that enter them.
Linking, waiting and freeing change nothing of that.
-/

namespace Recompiler

open Ir Emit

def Block.bare (b : Block) : Block := { b with links := [] }

namespace CodeCache

variable {c d : CodeCache} {id i n : Nat}

theorem block_modifyBlock (c : CodeCache) (id i : BlockId) (f : Block → Block) :
    (c.modifyBlock id f).block i
      = if i = id ∧ id < c.blocks.size then f (c.block i) else c.block i := by
  simp only [block, modifyBlock, Array.getD_eq_getD_getElem?, Array.getElem?_modify]
  by_cases he : id = i
  · subst he
    by_cases hs : id < c.blocks.size
    · simp [hs]
    · simp [hs]
  · simp [he, Ne.symm he]

theorem block_modifyBlock_self (hs : id < c.blocks.size) (f : Block → Block) :
    (c.modifyBlock id f).block id = f (c.block id) := by
  rw [block_modifyBlock, if_pos ⟨rfl, hs⟩]

theorem block_modifyBlock_of_ne (h : i ≠ id) (f : Block → Block) :
    (c.modifyBlock id f).block i = c.block i := by
  rw [block_modifyBlock, if_neg fun he => h he.1]

theorem block_of_ge (h : c.blocks.size ≤ id) : c.block id = default := by
  simp [block, h]

@[simp] theorem size_modifyBlock (c : CodeCache) (id : BlockId) (f : Block → Block) :
    (c.modifyBlock id f).blocks.size = c.blocks.size := Array.size_modify

@[simp] theorem ring_modifyBlock (c : CodeCache) (id : BlockId) (f : Block → Block) :
    (c.modifyBlock id f).ring = c.ring := rfl

@[simp] theorem pages_modifyBlock (c : CodeCache) (id : BlockId) (f : Block → Block) :
    (c.modifyBlock id f).pages = c.pages := rfl

@[simp] theorem occupied_modifyBlock (c : CodeCache) (id : BlockId) (f : Block → Block) :
    (c.modifyBlock id f).occupied = c.occupied := rfl

@[simp] theorem lookup_modifyBlock (c : CodeCache) (id : BlockId) (f : Block → Block)
    (pc : UInt32) : (c.modifyBlock id f).lookup pc = c.lookup pc := rfl

theorem cell_modifyCell (c : CodeCache) (n i : Nat) (f : Cell → Cell) :
    (c.modifyCell n f).cell i = if i = n ∧ n < c.cells.size then f (c.cell i) else c.cell i := by
  simp only [cell, modifyCell, Array.getD_eq_getD_getElem?, Array.getElem?_modify]
  by_cases he : n = i
  · subst he
    by_cases hs : n < c.cells.size
    · simp [hs]
    · simp [hs]
  · simp [he, Ne.symm he]

theorem cell_of_ge (h : c.cells.size ≤ n) : c.cell n = .empty := by
  simp [cell, h]

/-- A cache without its link cells and its counters. -/
def bare (c : CodeCache) : CodeCache :=
  { c with
    blocks := c.blocks.map .bare
    cells := #[], words := #[], free := [], waiting := ∅
    evictions := 0, invalidations := 0, supersedes := 0, links := 0 }

theorem block_bare (c : CodeCache) (id : BlockId) : c.bare.block id = (c.block id).bare := by
  simp only [block, bare, Array.getD_eq_getD_getElem?, Array.getElem?_map]
  cases c.blocks[id]? <;> rfl

section
variable (h : c.bare = d.bare)
include h

theorem block_of_bare (id : BlockId) : (c.block id).bare = (d.block id).bare := by
  rw [← block_bare, ← block_bare, h]

theorem size_of_bare : c.blocks.size = d.blocks.size := by
  have hs := congrArg (·.blocks.size) h
  simpa [bare] using hs

theorem origin_of_bare (id : BlockId) : (c.block id).origin = (d.block id).origin := by
  have hb := congrArg Block.origin (block_of_bare h id)
  exact hb

theorem ring_of_bare : c.ring = d.ring := by
  have hr := congrArg CodeCache.ring h
  exact hr

theorem occupied_of_bare : c.occupied = d.occupied := by
  have ho := congrArg CodeCache.occupied h
  exact ho

theorem pages_of_bare : c.pages = d.pages := by
  have hp := congrArg CodeCache.pages h
  exact hp

theorem lookup_of_bare (pc : UInt32) : c.lookup pc = d.lookup pc := by
  have hl := congrArg (fun c => CodeCache.lookup c pc) h
  exact hl

end

theorem bare_modifyBlock {f : Block → Block} (hf : ∀ b, (f b).bare = b.bare) :
    (c.modifyBlock id f).bare = c.bare := by
  have hmap : (c.blocks.modify id f).map Block.bare = c.blocks.map Block.bare := by
    apply Array.ext
    · simp
    · intro j hj _
      simp only [Array.getElem_map, Array.getElem_modify]
      split
      · exact hf _
      · rfl
  simp only [bare, modifyBlock, hmap]

theorem bare_modifyBlock_congr {f : Block → Block} (hf : ∀ b, (f b).bare = (f b.bare).bare)
    (h : c.bare = d.bare) : (c.modifyBlock id f).bare = (d.modifyBlock id f).bare := by
  have hmap (c : CodeCache) : (c.modifyBlock id f).bare = (c.bare.modifyBlock id f).bare := by
    simp only [bare, modifyBlock]
    congr 1
    apply Array.ext
    · simp
    · intro j hj _
      simp only [Array.getElem_map, Array.getElem_modify]
      split
      · exact hf _
      · rfl
  rw [hmap c, hmap d, h]

@[simp] theorem bare_modifyCell (c : CodeCache) (n : Nat) (f : Cell → Cell) :
    (c.modifyCell n f).bare = c.bare := rfl

@[simp] theorem bare_unwait (c : CodeCache) (n : Nat) : (c.unwait n).bare = c.bare := by
  unfold unwait
  dsimp only
  split <;> rfl

@[simp] theorem bare_link (c : CodeCache) (n : Nat) (id : BlockId) :
    (c.link n id).bare = c.bare := by
  have hb : ((c.modifyCell n fun cell => { cell with linked := some id }).modifyBlock id
      fun b => { b with links := addCell n b.links }).bare = c.bare :=
    bare_modifyBlock fun _ => rfl
  exact hb

@[simp] theorem bare_bind (c : CodeCache) (x : Exit) : (c.bind x).bare = c.bare := by
  unfold bind
  dsimp only
  split
  · rw [bare_link, bare_modifyCell]
  · rfl

@[simp] theorem bare_unlinkCell (c : CodeCache) (n : Nat) : (c.unlinkCell n).bare = c.bare := rfl

theorem bare_foldl {α : Type} {f : CodeCache → α → CodeCache} (hf : ∀ c x, (f c x).bare = c.bare)
    (xs : List α) (c : CodeCache) : (xs.foldl f c).bare = c.bare := by
  induction xs generalizing c with
  | nil => rfl
  | cons x xs ih => rw [List.foldl_cons, ih, hf]

@[simp] theorem bare_unlink (c : CodeCache) (id : BlockId) : (c.unlink id).bare = c.bare := by
  unfold unlink
  dsimp only
  rw [bare_modifyBlock (by intro b; rfl), bare_foldl bare_unlinkCell]

@[simp] theorem bare_detach (c : CodeCache) (n : Nat) : (c.detach n).bare = c.bare := by
  unfold detach
  split
  · rename_i id _
    have hb : (c.modifyBlock id fun b => { b with links := b.links.erase n }).bare = c.bare :=
      bare_modifyBlock fun _ => rfl
    exact hb
  · exact bare_unwait c n

@[simp] theorem bare_freeCell (c : CodeCache) (n : Nat) : (c.freeCell n).bare = c.bare := by
  unfold freeCell
  dsimp only
  split
  · exact bare_detach c n
  · rfl

@[simp] theorem bare_freeCells (c : CodeCache) (ns : List Nat) :
    (c.freeCells ns).bare = c.bare := bare_foldl bare_freeCell ns c

end CodeCache

end Recompiler
