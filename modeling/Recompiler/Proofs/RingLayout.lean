import Recompiler.Proofs.AddressMap

/-!
Where blocks lie in the arena. The blocks of the ring, oldest first, follow one another from
`first` to `next`, in one run or in two: then the first run ends with the arena and the second
one starts at zero. A new block goes behind the newest one; if it starts at zero instead, the
newest block takes the rest of the arena. Eviction takes the oldest block away.
-/

namespace Recompiler

open Ir Emit

abbrev Span := Nat × Nat

namespace Span

def Apart (x y : Span) : Prop := x.1 + x.2 ≤ y.1 ∨ y.1 + y.2 ≤ x.1

theorem Apart.symm {x y : Span} (h : Apart x y) : Apart y x := Or.symm h

/-- Spans that lie one behind the other from `a` to `b`, each with room for a header. -/
inductive Follow : List Span → Nat → Nat → Prop
  | nil (a : Nat) : Follow [] a a
  | cons {ss : List Span} {a s b : Nat} :
    Block.headerSize ≤ s → Follow ss (a + s) b → Follow ((a, s) :: ss) a b

variable {ss ts : List Span} {a b m s o t cap first next : Nat}

theorem Follow.append (hs : Follow ss a m) (ht : Follow ts m b) : Follow (ss ++ ts) a b := by
  induction hs with
  | nil a => exact ht
  | cons h _ ih => exact .cons h (ih ht)

theorem Follow.single (h : Block.headerSize ≤ s) : Follow [(a, s)] a (a + s) := .cons h (.nil _)

theorem Follow.concat (hs : Follow ss a b) (h : Block.headerSize ≤ s) :
    Follow (ss ++ [(b, s)]) a (b + s) := hs.append (.single h)

theorem Follow.sum (h : Follow ss a b) : a + (ss.map (·.2)).sum = b := by
  induction h with
  | nil a => simp
  | cons _ _ ih =>
    simp only [List.map_cons, List.sum_cons]
    omega

theorem Follow.le (h : Follow ss a b) : a ≤ b := by
  have := h.sum
  omega

theorem Follow.lt (h : Follow ss a b) (hne : ss ≠ []) : a + Block.headerSize ≤ b := by
  cases h with
  | nil => exact absurd rfl hne
  | cons hs h =>
    have := h.le
    omega

theorem Follow.within (h : Follow ss a b) {x : Span} (hx : x ∈ ss) :
    a ≤ x.1 ∧ x.1 + x.2 ≤ b ∧ Block.headerSize ≤ x.2 := by
  induction h with
  | nil => cases hx
  | cons hs h ih =>
    have hle := h.le
    rcases List.mem_cons.mp hx with rfl | hx
    · exact ⟨Nat.le_refl _, hle, hs⟩
    · obtain ⟨h1, h2, h3⟩ := ih hx
      exact ⟨by omega, h2, h3⟩

theorem Follow.pairwise (h : Follow ss a b) : ss.Pairwise Apart := by
  induction h with
  | nil => exact .nil
  | cons _ h ih => exact .cons (fun x hx => .inl (h.within hx).1) ih

theorem Follow.grow (h : Follow (ss ++ [(o, s)]) a b) (t : Nat) :
    Follow (ss ++ [(o, s + t)]) a (b + t) := by
  induction ss generalizing a with
  | nil =>
    cases h with
    | cons hs h =>
      cases h
      have hgrown : Follow [(o, s + t)] o (o + (s + t)) := .single (by omega)
      rwa [← Nat.add_assoc] at hgrown
  | cons x ss ih =>
    cases h with
    | cons hs h => exact .cons hs (ih h)

/-- Each span starts where the one before it ends, in an arena of `cap` bytes that goes on at
its start. -/
def Chained (cap : Nat) : List Span → Nat → Nat → Prop
  | [], a, b => a = b
  | (o, s) :: ss, a, b => o = a ∧ Chained cap ss ((o + s) % cap) b

theorem Chained.append (hs : Chained cap ss a m) (ht : Chained cap ts m b) :
    Chained cap (ss ++ ts) a b := by
  induction ss generalizing a with
  | nil => exact hs ▸ ht
  | cons x ss ih => exact ⟨hs.1, ih hs.2⟩

theorem Follow.chained (h : Follow ss a b) (hne : ss ≠ []) (hb : b ≤ cap) :
    Chained cap ss a (b % cap) := by
  induction h with
  | nil => exact absurd rfl hne
  | @cons ss a s b hs h ih =>
    refine ⟨rfl, ?_⟩
    cases ss with
    | nil =>
      cases h
      exact rfl
    | cons x ss =>
      have hlt := h.lt (by simp)
      have hin : a + s < cap := by
        simp only [Block.headerSize] at hlt
        omega
      rw [Nat.mod_eq_of_lt hin]
      exact ih (by simp) hb

/-- The spans of a ring in an arena of `cap` bytes. -/
inductive Laid (cap : Nat) : List Span → Nat → Nat → Prop
  | empty : Laid cap [] 0 0
  | straight {ss : List Span} {first next : Nat} :
    ss ≠ [] → Follow ss first next → next < cap → Laid cap ss first next
  | wrapped {ss ts : List Span} {first next : Nat} :
    ss ≠ [] → Follow ss first cap → Follow ts 0 next → next ≤ first → Laid cap (ss ++ ts) first next

namespace Laid

theorem within (h : Laid cap ss first next) {x : Span} (hx : x ∈ ss) :
    x.1 + x.2 ≤ cap ∧ Block.headerSize ≤ x.2 := by
  cases h with
  | empty => cases hx
  | straight hne hf hn =>
    obtain ⟨-, h2, h3⟩ := hf.within hx
    exact ⟨by omega, h3⟩
  | wrapped hne hf hg hn =>
    have hle := hf.le
    rcases List.mem_append.mp hx with hx | hx
    · exact (hf.within hx).2
    · obtain ⟨-, h2, h3⟩ := hg.within hx
      exact ⟨by omega, h3⟩

theorem pairwise (h : Laid cap ss first next) : ss.Pairwise Apart := by
  cases h with
  | empty => exact .nil
  | straight hne hf hn => exact hf.pairwise
  | wrapped hne hf hg hn =>
    refine List.pairwise_append.mpr ⟨hf.pairwise, hg.pairwise, fun x hx y hy => .inr ?_⟩
    have h1 := (hf.within hx).1
    have h2 := (hg.within hy).2.1
    omega

theorem chained (h : Laid cap ss first next) : Chained cap ss first next := by
  cases h with
  | empty => exact rfl
  | straight hne hf hn =>
    have hc := hf.chained hne (Nat.le_of_lt hn)
    rwa [Nat.mod_eq_of_lt hn] at hc
  | @wrapped ss ts _ _ hne hf hg hn =>
    have hlt := hf.lt hne
    have hc := hf.chained hne (Nat.le_refl cap)
    rw [Nat.mod_self] at hc
    refine hc.append ?_
    cases ts with
    | nil =>
      cases hg
      exact rfl
    | cons y ts =>
      have hnext : next < cap := by
        simp only [Block.headerSize] at hlt
        omega
      have hd : Chained cap (y :: ts) 0 (next % cap) := hg.chained (by simp) (Nat.le_of_lt hnext)
      rwa [Nat.mod_eq_of_lt hnext] at hd

theorem sum_le (h : Laid cap ss first next) : (ss.map (·.2)).sum ≤ cap := by
  cases h with
  | empty => simp
  | straight hne hf hn =>
    have := hf.sum
    omega
  | wrapped hne hf hg hn =>
    have h1 := hf.sum
    have h2 := hg.sum
    simp only [List.map_append, List.sum_append]
    omega

theorem full (h : Laid cap ss first next) (hne : ss ≠ []) (he : next = first) :
    (ss.map (·.2)).sum = cap := by
  cases h with
  | empty => exact absurd rfl hne
  | straight hne hf hn =>
    have := hf.lt hne
    simp only [Block.headerSize] at this
    omega
  | wrapped hne hf hg hn =>
    have h1 := hf.sum
    have h2 := hg.sum
    simp only [List.map_append, List.sum_append]
    omega

theorem between (h : Laid cap ss first next) (hlt : first < next) :
    next < cap ∧ ∀ x ∈ ss, first ≤ x.1 ∧ x.1 + x.2 ≤ next := by
  cases h with
  | empty => omega
  | straight hne hf hn => exact ⟨hn, fun x hx => ⟨(hf.within hx).1, (hf.within hx).2.1⟩⟩
  | wrapped hne hf hg hn => omega

theorem around (h : Laid cap ss first next) (hlt : next < first) :
    first ≤ cap ∧ ∀ x ∈ ss, first ≤ x.1 ∨ x.1 + x.2 ≤ next := by
  cases h with
  | empty => omega
  | straight hne hf hn =>
    have := hf.le
    omega
  | wrapped hne hf hg hn =>
    refine ⟨hf.le, fun x hx => ?_⟩
    rcases List.mem_append.mp hx with hx | hx
    · exact .inl (hf.within hx).1
    · exact .inr (hg.within hx).2.1

/-- The oldest span goes. -/
theorem tail {x y : Span} (h : Laid cap (x :: y :: ss) first next) :
    Laid cap (y :: ss) y.1 next := by
  generalize hxs : x :: y :: ss = xs at h
  cases h with
  | empty => cases hxs
  | straight hne hf hn =>
    subst hxs
    cases hf with
    | cons _ hf =>
      cases hf with
      | cons hs hf => exact .straight (by simp) (.cons hs hf) hn
  | @wrapped us ts _ _ hne hf hg hn =>
    cases hf with
    | nil => exact absurd rfl hne
    | @cons us _ s _ hs hf =>
      obtain ⟨-, hxs⟩ := List.cons.inj hxs
      cases hf with
      | nil =>
        -- The first run is gone: what is left starts at zero.
        obtain rfl : y :: ss = ts := hxs
        have hnext : next < first + s := by
          simp only [Block.headerSize] at hs
          omega
        cases hg with
        | cons hs' hg => exact .straight (by simp) (.cons hs' hg) hnext
      | @cons us _ s' _ hs' hf =>
        obtain ⟨rfl, rfl⟩ := List.cons.inj hxs
        have hrun : Follow ((first + s, s') :: us) (first + s) cap := .cons hs' hf
        exact .wrapped (by simp) hrun hg (by omega)

theorem single (hs : Block.headerSize ≤ s) (hcap : s ≤ cap) : Laid cap [(0, s)] 0 (s % cap) := by
  have hrun : Follow [(0, s)] 0 (0 + s) := .single hs
  rw [Nat.zero_add] at hrun
  by_cases he : s = cap
  · rw [he] at hrun ⊢
    rw [Nat.mod_self]
    exact .wrapped (by simp) hrun (.nil 0) (Nat.le_refl 0)
  · rw [Nat.mod_eq_of_lt (by omega)]
    exact .straight (by simp) hrun (by omega)

theorem concat (h : Laid cap ss first next) (hlt : first < next) (hs : Block.headerSize ≤ s)
    (hcap : next + s ≤ cap) : Laid cap (ss ++ [(next, s)]) first ((next + s) % cap) := by
  cases h with
  | empty => omega
  | straight hne hf hn =>
    have hrun := hf.concat hs
    by_cases he : next + s = cap
    · rw [he] at hrun
      rw [he, Nat.mod_self, ← List.append_nil (ss ++ [(next, s)])]
      exact .wrapped (by simp) hrun (.nil 0) (Nat.zero_le _)
    · rw [Nat.mod_eq_of_lt (by omega)]
      exact .straight (by simp) hrun (by omega)
  | wrapped hne hf hg hn => omega

theorem concat_before (h : Laid cap ss first next) (hlt : next < first) (hs : Block.headerSize ≤ s)
    (hle : next + s ≤ first) : Laid cap (ss ++ [(next, s)]) first ((next + s) % cap) := by
  cases h with
  | empty => omega
  | straight hne hf hn =>
    have := hf.le
    omega
  | wrapped hne hf hg hn =>
    have hfirst := hf.lt hne
    simp only [Block.headerSize] at hfirst
    rw [Nat.mod_eq_of_lt (by omega), List.append_assoc]
    exact .wrapped hne hf (hg.concat hs) hle

theorem concat_zero (h : Laid cap (ss ++ [(o, s)]) first next) (hlt : first < next)
    (ht : Block.headerSize ≤ t) (hle : t ≤ first) :
    Laid cap (ss ++ [(o, s + (cap - next))] ++ [(0, t)]) first (t % cap) := by
  generalize hxs : ss ++ [(o, s)] = xs at h
  cases h with
  | empty => omega
  | straight hne hf hn =>
    subst hxs
    have hrun := hf.grow (cap - next)
    rw [Nat.add_sub_cancel' (Nat.le_of_lt hn)] at hrun
    rw [Nat.mod_eq_of_lt (by omega)]
    have hzero : Follow [(0, t)] 0 (0 + t) := .single ht
    rw [Nat.zero_add] at hzero
    exact .wrapped (by simp) hrun hzero hle
  | wrapped hne hf hg hn => omega

end Laid

end Span

def Block.frame (b : Block) : Block := { b with origin := 0, exits := [], links := [] }

section
variable {b b' : Block} (h : b.frame = b'.frame)
include h

theorem Block.span_of_frame : (b.offset, b.size) = (b'.offset, b'.size) := by
  have hs := congrArg (fun b => (b.offset, b.size)) h
  exact hs

theorem Block.entry_of_frame : b.entry = b'.entry := by
  have he := congrArg Block.entry h
  exact he

theorem Block.program_of_frame : b.program = b'.program := by
  have hp := congrArg Block.program h
  exact hp

end

theorem Block.frame_of_bare {b b' : Block} (h : b.bare = b'.bare) : b.frame = b'.frame := by
  have hf := congrArg Block.frame h
  exact hf

namespace CodeCache

open Recompiler.Span

variable {c d : CodeCache} {id i : BlockId} {off : Nat} {rest : List BlockId}

/-- A cache without its link cells, its map and its bytes. -/
def frame (c : CodeCache) : CodeCache :=
  { c.bare with
    arena := .create c.arena.size
    pages := ∅
    occupied := ∅
    blocks := c.blocks.map .frame }

theorem frame_of_bare (h : c.bare = d.bare) : c.frame = d.frame := by
  have hframe (c : CodeCache) : c.frame = c.bare.frame := by
    simp only [frame, bare, Array.map_map]
    rfl
  rw [hframe c, hframe d, h]

theorem block_frame (c : CodeCache) (id : BlockId) : c.frame.block id = (c.block id).frame := by
  simp only [block, frame, Array.getD_eq_getD_getElem?, Array.getElem?_map]
  cases c.blocks[id]? <;> rfl

theorem frame_modifyBlock_eq {f g : Block → Block} (hf : ∀ b, (f b).frame = g b.frame) :
    (c.modifyBlock id f).frame = c.frame.modifyBlock id g := by
  have hmap : (c.blocks.modify id f).map Block.frame = (c.blocks.map Block.frame).modify id g := by
    apply Array.ext
    · simp
    · intro j hj _
      simp only [Array.getElem_map, Array.getElem_modify]
      split
      · exact hf _
      · rfl
  simp only [frame, bare, modifyBlock, hmap]

theorem frame_modifyBlock {f : Block → Block} (hf : ∀ b, (f b).frame = b.frame) :
    (c.modifyBlock id f).frame = c.frame := by
  have hsame (bs : Array Block) : bs.modify id (fun b => b) = bs := by
    apply Array.ext
    · simp
    · intro j hj _
      simp [Array.getElem_modify]
  rw [frame_modifyBlock_eq (g := fun b => b) hf, modifyBlock, hsame]

end CodeCache

@[simp] theorem Arena.size_poke (a : Arena) (off : Nat) (bs : List UInt8) :
    (a.poke off bs).size = a.size := by
  induction bs generalizing a off with
  | nil => rfl
  | cons b bs ih => rw [poke, ih]

namespace CodeCache

open Recompiler.Span

variable {c d : CodeCache} {id i : BlockId} {off : Nat} {rest : List BlockId}

@[simp] theorem capacity_tag (c : CodeCache) (b : Block) (pc : UInt32) :
    (c.tag b pc).capacity = c.capacity := by
  simp only [tag, capacity, Arena.size_poke]

theorem tag_eq (c : CodeCache) (b : Block) (pc : UInt32) :
    ∃ arena, arena.size = c.arena.size ∧ c.tag b pc = { c with arena } :=
  ⟨(c.tag b pc).arena, capacity_tag c b pc, by simp only [tag]⟩

theorem frame_tag (c : CodeCache) (b : Block) (pc : UInt32) : (c.tag b pc).frame = c.frame := by
  simp only [tag, frame, bare, Arena.size_poke]

theorem frame_setOrigin (c : CodeCache) (id : BlockId) (pc : UInt32) :
    (c.setOrigin id pc).frame = c.frame := by
  unfold setOrigin
  rw [frame_tag, frame_modifyBlock (by intro b; rfl)]

theorem frame_retire (h : c.retire id = .ok d) : d.frame = c.frame := by
  rcases retire_cases h with ⟨-, rfl⟩ | ⟨pages, occupied, rfl⟩
  · rfl
  · rw [frame_modifyBlock (by intro b; rfl)]
    rfl

theorem frame_displace (c : CodeCache) (pc : UInt32) (id : BlockId) :
    (c.displace pc id).frame = c.frame := by
  unfold displace
  split
  · rw [frame_of_bare (bare_supersede ..), frame_setOrigin]
  · rfl

theorem frame_publish (c : CodeCache) (pc : UInt32) (id : BlockId) (exits : List Exit) :
    (c.publish pc id exits).frame = c.frame := by
  rw [frame_of_bare (bare_publish ..), frame_modifyBlock (by intro b; rfl), frame_setOrigin]
  exact frame_displace c pc id

theorem frame_unmapAll (c : CodeCache) (ids : List BlockId) :
    (ids.foldl unmap c).frame = c.frame := by
  induction ids generalizing c with
  | nil => rfl
  | cons id ids ih => rw [List.foldl_cons, ih, frame_of_bare (bare_unmap c id), frame_setOrigin]

theorem frame_invalidatePage (c : CodeCache) (page : UInt32) :
    (c.invalidatePage page).2.frame = c.frame := by
  unfold invalidatePage
  split
  · exact frame_unmapAll ..
  · rfl

def span (c : CodeCache) (id : BlockId) : Span := ((c.block id).offset, (c.block id).size)

def spans (c : CodeCache) : List Span := c.ring.map c.span

/-- The ring of a cache is sound: its blocks lie one behind the other, and are found by their
entries. -/
structure Ringed (c : CodeCache) : Prop where
  laid : Laid c.capacity c.spans c.first c.next
  used : c.used = (c.spans.map (·.2)).sum
  nodup : c.ring.Nodup
  bound {id : BlockId} : id ∈ c.ring → id < c.blocks.size
  entries {e : Nat} {id : BlockId} :
    c.entries[e]? = some id ↔ id ∈ c.ring ∧ (c.block id).entry = e

section
variable (h : c.frame = d.frame)
include h

theorem ring_of_frame : c.ring = d.ring := by
  have hr := congrArg CodeCache.ring h
  exact hr

theorem capacity_of_frame : c.capacity = d.capacity := by
  have hc := congrArg CodeCache.capacity h
  exact hc

theorem size_of_frame : c.blocks.size = d.blocks.size := by
  have hs := congrArg (·.blocks.size) h
  simpa [frame] using hs

theorem block_of_frame (id : BlockId) : (c.block id).frame = (d.block id).frame := by
  rw [← block_frame, ← block_frame, h]

theorem span_of_frame : c.span = d.span := by
  funext id
  exact Block.span_of_frame (block_of_frame h id)

theorem spans_of_frame : c.spans = d.spans := by
  rw [spans, spans, ring_of_frame h, span_of_frame h]

theorem Ringed.of_frame (hd : Ringed d) : Ringed c where
  laid := by
    have hfirst := congrArg CodeCache.first h
    have hnext := congrArg CodeCache.next h
    change c.first = d.first at hfirst
    change c.next = d.next at hnext
    rw [spans_of_frame h, capacity_of_frame h, hfirst, hnext]
    exact hd.laid
  used := by
    have hu := congrArg CodeCache.used h
    change c.used = d.used at hu
    rw [hu, spans_of_frame h, hd.used]
  nodup := ring_of_frame h ▸ hd.nodup
  bound hm := by
    rw [size_of_frame h]
    exact hd.bound (ring_of_frame h ▸ hm)
  entries := by
    intro e id
    have he := congrArg CodeCache.entries h
    change c.entries = d.entries at he
    rw [he, ring_of_frame h, Block.entry_of_frame (block_of_frame h id)]
    exact hd.entries

end

namespace Ringed

theorem apart (h : Ringed c) (hid : id ∈ c.ring) (hi : i ∈ c.ring) (hne : id ≠ i) :
    Apart (c.span id) (c.span i) := by
  have hp := List.pairwise_map.mp h.laid.pairwise
  have : Std.Symm fun i j => Apart (c.span i) (c.span j) := ⟨fun _ _ => Apart.symm⟩
  exact hp.forall hid hi hne

theorem within (h : Ringed c) (hid : id ∈ c.ring) :
    (c.block id).offset + (c.block id).size ≤ c.capacity ∧
      Block.headerSize ≤ (c.block id).size := h.laid.within (List.mem_map_of_mem hid)

theorem entry_inj (h : Ringed c) (hid : id ∈ c.ring) (hi : i ∈ c.ring)
    (he : (c.block id).entry = (c.block i).entry) : id = i := by
  by_contra hne
  have h1 := (h.within hid).2
  have h2 := (h.within hi).2
  have ha := h.apart hid hi hne
  simp only [Apart, span, Block.entry, Block.headerSize] at ha he h1 h2
  omega

end Ringed

theorem frame_release (c : CodeCache) (id : BlockId) : (c.release id).frame
    = { c.frame.modifyBlock id fun b => { b with program := default } with
        entries := c.entries.erase (c.block id).entry
        used := c.used - (c.block id).size } := by
  have hbare : ((c.unlink id).freeCells ((c.block id).exits.map (·.cell))).bare = c.bare := by
    rw [bare_freeCells, bare_unlink]
  have hframe : (((c.unlink id).freeCells ((c.block id).exits.map (·.cell))).modifyBlock id
      fun b => { b with exits := [], program := default }).frame
      = c.frame.modifyBlock id fun b => { b with program := default } := by
    rw [frame_modifyBlock_eq (g := fun b => { b with program := default }) (by intro b; rfl),
      frame_of_bare hbare]
  rw [← hframe]
  unfold release
  dsimp only
  generalize hu : ((c.unlink id).freeCells ((c.block id).exits.map (·.cell))) = e at hbare
  have hentries := congrArg CodeCache.entries hbare
  have hused := congrArg CodeCache.used hbare
  change e.entries = c.entries at hentries
  change e.used = c.used at hused
  simp only [frame, bare, modifyBlock, hentries, hused]

section
variable (c : CodeCache) (id : BlockId)

theorem ring_release : (c.release id).ring = c.ring := by
  have h := congrArg CodeCache.ring (frame_release c id)
  exact h

theorem capacity_release : (c.release id).capacity = c.capacity := by
  have h := congrArg CodeCache.capacity (frame_release c id)
  exact h

theorem next_release : (c.release id).next = c.next := by
  have h := congrArg CodeCache.next (frame_release c id)
  exact h

theorem used_release : (c.release id).used = c.used - (c.block id).size := by
  have h := congrArg CodeCache.used (frame_release c id)
  exact h

theorem entries_release : (c.release id).entries = c.entries.erase (c.block id).entry := by
  have h := congrArg CodeCache.entries (frame_release c id)
  exact h

theorem size_release : (c.release id).blocks.size = c.blocks.size := by
  have h := congrArg (·.blocks.size) (frame_release c id)
  simpa only [frame, size_modifyBlock, Array.size_map] using h

theorem pages_release : (c.release id).pages = c.pages := by
  have hp := pages_of_bare (bare_freeCells (c.unlink id) ((c.block id).exits.map (·.cell)))
  have hu := pages_of_bare (bare_unlink c id)
  exact hp.trans hu

theorem occupied_release : (c.release id).occupied = c.occupied := by
  have hp := occupied_of_bare (bare_freeCells (c.unlink id) ((c.block id).exits.map (·.cell)))
  have hu := occupied_of_bare (bare_unlink c id)
  exact hp.trans hu

theorem arena_release : (c.release id).arena = c.arena := by
  have hp := congrArg CodeCache.arena
    (bare_freeCells (c.unlink id) ((c.block id).exits.map (·.cell)))
  have hu := congrArg CodeCache.arena (bare_unlink c id)
  exact hp.trans hu

theorem block_release : ((c.release id).block i).bare
    = if i = id ∧ id < c.blocks.size then { (c.block i).bare with exits := [], program := default }
      else (c.block i).bare := by
  have hbare : ((c.unlink id).freeCells ((c.block id).exits.map (·.cell))).bare = c.bare := by
    rw [bare_freeCells, bare_unlink]
  have hmod : (c.release id).block i
      = (((c.unlink id).freeCells ((c.block id).exits.map (·.cell))).modifyBlock id
        fun b => { b with exits := [], program := default }).block i := rfl
  rw [hmod, block_modifyBlock, size_of_bare hbare]
  split
  · have hb := congrArg (fun b : Block => { b with exits := [], program := default })
      (block_of_bare hbare i)
    exact hb
  · exact block_of_bare hbare i

theorem origin_release : ((c.release id).block i).origin = (c.block i).origin := by
  have ho : ((c.release id).block i).bare.origin = (c.block i).bare.origin := by
    rw [block_release]
    split <;> rfl
  simpa only [Block.bare] using ho

theorem block_release_of_ne (hi : i ≠ id) : ((c.release id).block i).bare = (c.block i).bare := by
  rw [block_release, if_neg fun h => hi h.1]

end

theorem settle_eq (c : CodeCache) : c.settle = { c with
    first := (c.spans.head?.map (·.1)).getD 0
    next := if c.ring = [] then 0 else c.next } := by
  unfold settle spans
  cases hr : c.ring with
  | nil => simp
  | cons id rest => simp [span]

/-- The oldest block leaves the ring, and nothing else moves. -/
theorem Ringed.release (h : Ringed { c with ring := id :: c.ring }) :
    Ringed (c.release id).settle := by
  obtain ⟨hid, hnodup⟩ := List.nodup_cons.mp h.nodup
  have hne {i : BlockId} (hi : i ∈ c.ring) : i ≠ id := fun he => hid (he ▸ hi)
  have hspan : (c.release id).spans = c.spans := by
    rw [spans, ring_release]
    exact List.map_congr_left fun i hi => Block.span_of_frame (Block.frame_of_bare (block_release_of_ne c id (hne hi)))
  have hentry {i : BlockId} (hi : i ∈ c.ring) :
      ((c.release id).block i).entry = (c.block i).entry :=
    Block.entry_of_frame (Block.frame_of_bare (block_release_of_ne c id (hne hi)))
  have hring := ring_release c id
  have hcap := capacity_release c id
  have hnext := next_release c id
  have hused := used_release c id
  have hentries := entries_release c id
  have hsize := size_release c id
  generalize c.release id = d at *
  rw [settle_eq]
  refine ⟨?_, ?_, ?_, ?_, ?_⟩
  · change Laid d.capacity d.spans _ _
    rw [hspan, hcap, hring, hnext]
    have hlaid : Laid c.capacity (c.span id :: c.spans) c.first c.next := h.laid
    unfold spans at hlaid ⊢
    generalize c.ring = ring at hlaid ⊢
    cases ring with
    | nil => exact .empty
    | cons j rest => exact hlaid.tail
  · change d.used = (d.spans.map (·.2)).sum
    have hsum : c.used = (c.block id).size + (c.spans.map (·.2)).sum := h.used
    rw [hused, hspan, hsum, Nat.add_sub_cancel_left]
  · exact hring.symm ▸ hnodup
  · intro i hi
    change i < d.blocks.size
    rw [hsize]
    exact h.bound (.tail _ (hring ▸ hi))
  · intro e i
    change d.entries[e]? = some i ↔ i ∈ d.ring ∧ (d.block i).entry = e
    have hin : c.entries[e]? = some i ↔ i ∈ id :: c.ring ∧ (c.block i).entry = e := h.entries
    rw [hentries, hring, Std.HashMap.getElem?_erase]
    constructor
    · intro he
      split at he
      · cases he
      · rename_i hother
        obtain ⟨hi, hen⟩ := hin.mp he
        rcases List.mem_cons.mp hi with rfl | hi
        · exact absurd (beq_iff_eq.mpr hen) hother
        · exact ⟨hi, (hentry hi).trans hen⟩
    · rintro ⟨hi, hen⟩
      rw [hentry hi] at hen
      rw [if_neg]
      · exact hin.mpr ⟨.tail _ hi, hen⟩
      · intro he
        have hsame := h.entry_inj (.head _) (.tail _ hi) ((beq_iff_eq.mp he).trans hen.symm)
        exact hid (hsame ▸ hi)

/-- Where a block goes: at the start of an empty arena, behind the newest block, or at the start
once the end of the arena is too small. -/
theorem fit?_cases {size : Int} (h : c.fit? size = some off) :
    (c.ring = [] ∧ off = 0 ∧ size ≤ c.capacity) ∨
    (c.ring ≠ [] ∧ c.first < c.next ∧ off = c.next ∧ c.next + size ≤ c.capacity) ∨
    (c.ring ≠ [] ∧ c.first < c.next ∧ off = 0 ∧ size ≤ c.first) ∨
    (c.ring ≠ [] ∧ c.next < c.first ∧ off = c.next ∧ c.next + size ≤ c.first) := by
  unfold fit? at h
  by_cases hr : c.ring = []
  · simp only [hr, List.isEmpty_nil, if_true] at h
    split at h
    · exact .inl ⟨hr, (Option.some.inj h).symm, by assumption⟩
    · cases h
  · rw [if_neg (by simpa using hr)] at h
    right
    by_cases hlt : c.first < c.next
    · rw [if_pos hlt] at h
      split at h
      · exact .inl ⟨hr, hlt, (Option.some.inj h).symm, by omega⟩
      · split at h
        · exact .inr (.inl ⟨hr, hlt, (Option.some.inj h).symm, by assumption⟩)
        · cases h
    · rw [if_neg hlt] at h
      split at h
      · rename_i hgt
        split at h
        · exact .inr (.inr ⟨hr, hgt, (Option.some.inj h).symm, by omega⟩)
        · cases h
      · cases h

theorem Ringed.fit (h : Ringed c) {size : Int} (hf : c.fit? size = some off) :
    off + size.toNat ≤ c.capacity ∧ ∀ x ∈ c.spans, Apart x (off, size.toNat) := by
  rcases fit?_cases hf with ⟨hr, rfl, hs⟩ | ⟨-, hlt, rfl, hs⟩ | ⟨-, hlt, rfl, hs⟩ | ⟨-, hlt, rfl, hs⟩
  · refine ⟨by omega, fun x hx => ?_⟩
    simp [spans, hr] at hx
  · obtain ⟨hcap, hin⟩ := h.laid.between hlt
    exact ⟨by omega, fun x hx => .inl (hin x hx).2⟩
  · obtain ⟨hcap, hin⟩ := h.laid.between hlt
    refine ⟨by omega, fun x hx => .inr ?_⟩
    have := (hin x hx).1
    dsimp only
    omega
  · obtain ⟨hcap, hin⟩ := h.laid.around hlt
    refine ⟨by omega, fun x hx => (hin x hx).symm.imp_right fun hx => ?_⟩
    dsimp only
    omega

def grown (c : CodeCache) (last : BlockId) : CodeCache :=
  c.modifyBlock last fun b => { b with size := b.size + (c.capacity - c.next) }

theorem absorbTail_of_nil (hr : c.ring = []) (off : Nat) :
    c.absorbTail off = { c with first := off } := by
  unfold absorbTail
  rw [hr]
  rfl

theorem absorbTail_of_eq (hr : c.ring ≠ []) : c.absorbTail c.next = c := by
  obtain ⟨older, last, hl⟩ := (List.eq_nil_or_concat' c.ring).resolve_left hr
  unfold absorbTail
  rw [hl, List.getLast?_concat]
  exact if_pos rfl

theorem absorbTail_of_ne {older : List BlockId} {last : BlockId} (hr : c.ring = older ++ [last])
    (ho : off ≠ c.next) : c.absorbTail off = { (c.grown last).tag ((c.grown last).block last)
      ((c.grown last).block last).origin with used := c.used + (c.capacity - c.next) } := by
  unfold absorbTail
  rw [hr, List.getLast?_concat]
  exact if_neg ho

theorem span_grown (hs : id < c.blocks.size) (i : BlockId) : (c.grown id).span i
    = if i = id then ((c.block i).offset, (c.block i).size + (c.capacity - c.next))
      else c.span i := by
  unfold span grown
  rw [block_modifyBlock]
  by_cases hi : i = id <;> simp [hi, hs]

theorem spans_grown {older : List BlockId} {last : BlockId} (h : Ringed c)
    (hr : c.ring = older ++ [last]) : (c.grown last).spans = older.map c.span
      ++ [((c.block last).offset, (c.block last).size + (c.capacity - c.next))] := by
  have hlast : last < c.blocks.size := h.bound (by simp [hr])
  have hnot : last ∉ older := by
    have hn := h.nodup
    rw [hr, List.nodup_append] at hn
    exact fun hm => hn.2.2 last hm last (by simp) rfl
  have hring : (c.grown last).ring = older ++ [last] := hr
  rw [spans, hring, List.map_append, List.map_singleton, span_grown hlast, if_pos rfl]
  congr 1
  refine List.map_congr_left fun i hi => ?_
  rw [span_grown hlast, if_neg fun he : i = last => hnot (he ▸ hi)]

/-- The blocks stay where they start, and the new one goes behind the newest. -/
theorem Ringed.absorbTail (h : Ringed c) {size : Nat} (hs : Block.headerSize ≤ size)
    (hf : c.fit? size = some off) :
    Laid c.capacity ((c.absorbTail off).spans ++ [(off, size)]) (c.absorbTail off).first
      ((off + size) % c.capacity) ∧
    (c.absorbTail off).used = ((c.absorbTail off).spans.map (·.2)).sum := by
  have hcap : Block.headerSize ≤ c.capacity := by
    have := (h.fit hf).1
    omega
  rcases fit?_cases hf with ⟨hr, rfl, hle⟩ | ⟨hr, hlt, rfl, hle⟩ | ⟨hr, hlt, rfl, hle⟩ |
    ⟨hr, hlt, rfl, hle⟩
  · have hspans : c.spans = [] := by simp [spans, hr]
    rw [absorbTail_of_nil hr]
    change Laid c.capacity (c.spans ++ [(0, size)]) 0 _ ∧ c.used = (c.spans.map (·.2)).sum
    rw [hspans, h.used, hspans, Nat.zero_add]
    exact ⟨.single hs (by omega), rfl⟩
  · rw [absorbTail_of_eq hr]
    exact ⟨h.laid.concat hlt hs (by omega), h.used⟩
  · obtain ⟨older, last, hlast⟩ := (List.eq_nil_or_concat' c.ring).resolve_left hr
    have hspans : c.spans = older.map c.span ++ [((c.block last).offset, (c.block last).size)] := by
      rw [spans, hlast, List.map_append]
      rfl
    have hlaid := h.laid
    have hused := h.used
    have hgrown := spans_grown h hlast
    have hfirst : (c.grown last).first = c.first := rfl
    rw [hspans] at hlaid hused
    rw [absorbTail_of_ne hlast (by omega)]
    generalize c.grown last = g at hgrown hfirst ⊢
    have hframe := frame_tag g (g.block last) (g.block last).origin
    generalize g.tag (g.block last) (g.block last).origin = e at hframe ⊢
    have hefirst := congrArg CodeCache.first hframe
    change e.first = g.first at hefirst
    change Laid c.capacity (e.spans ++ [(0, size)]) e.first _ ∧
      c.used + (c.capacity - c.next) = (e.spans.map (·.2)).sum
    rw [spans_of_frame hframe, hgrown, hefirst, hfirst, Nat.zero_add]
    refine ⟨hlaid.concat_zero hlt hs (by omega), ?_⟩
    simp only [List.map_append, List.sum_append, List.map_cons, List.map_nil, List.sum_cons,
      List.sum_nil] at hused ⊢
    omega
  · rw [absorbTail_of_eq hr]
    exact ⟨h.laid.concat_before hlt hs (by omega), h.used⟩

theorem absorbTail_eq (c : CodeCache) (off : Nat) : ∃ first used arena blocks,
    arena.size = c.arena.size ∧ blocks.size = c.blocks.size ∧
    (∀ i, ∃ size, blocks.getD i default = { c.block i with size := size }) ∧
    c.absorbTail off = { c with first, used, arena, blocks } := by
  by_cases hr : c.ring = []
  · exact ⟨_, _, _, _, rfl, rfl, fun i => ⟨_, rfl⟩, absorbTail_of_nil hr off⟩
  · obtain ⟨older, last, hlast⟩ := (List.eq_nil_or_concat' c.ring).resolve_left hr
    by_cases ho : off = c.next
    · exact ⟨_, _, _, _, rfl, rfl, fun i => ⟨_, rfl⟩, ho ▸ absorbTail_of_eq hr⟩
    · obtain ⟨arena, hsize, htag⟩ := tag_eq (c.grown last) ((c.grown last).block last)
        ((c.grown last).block last).origin
      refine ⟨c.first, c.used + (c.capacity - c.next), arena, (c.grown last).blocks, hsize,
        size_modifyBlock .., fun i => ?_, ?_⟩
      · change ∃ size, (c.grown last).block i = _
        rw [grown, block_modifyBlock]
        split <;> exact ⟨_, rfl⟩
      · rw [absorbTail_of_ne hlast ho, htag]
        rfl

/-- A new block is the newest one of the ring. -/
theorem push_eq (c : CodeCache) (b : Block) : ∃ arena, arena.size = c.arena.size ∧
    c.push b = { c.absorbTail b.offset with
      arena
      ring := c.ring ++ [c.blocks.size]
      blocks := (c.absorbTail b.offset).blocks.push b
      entries := c.entries.insert b.entry c.blocks.size
      used := (c.absorbTail b.offset).used + b.size
      next := (b.offset + b.size) % c.capacity } := by
  obtain ⟨first, used, arena, blocks, harena, hsize, hblock, he⟩ := absorbTail_eq c b.offset
  unfold push
  rw [he]
  dsimp only
  rw [hsize]
  have hcap : ({ c with first, used, arena, blocks } : CodeCache).capacity = c.capacity := harena
  rw [hcap]
  obtain ⟨arena', harena', htag⟩ := tag_eq { c with
      arena, first
      ring := c.ring ++ [c.blocks.size]
      blocks := blocks.push b
      entries := c.entries.insert b.entry c.blocks.size
      used := used + b.size
      next := (b.offset + b.size) % c.capacity } b 0
  exact ⟨arena', harena'.trans harena, htag⟩

section
variable (c : CodeCache) (b : Block)

theorem size_absorbTail (off : Nat) : (c.absorbTail off).blocks.size = c.blocks.size := by
  obtain ⟨_, _, _, _, _, hsize, _, he⟩ := absorbTail_eq c off
  rw [he]
  exact hsize

theorem block_push (i : BlockId) : (c.push b).block i
    = if i = c.blocks.size then b else (c.absorbTail b.offset).block i := by
  obtain ⟨_, -, hpush⟩ := push_eq c b
  rw [hpush]
  have hsize := size_absorbTail c b.offset
  simp only [block, Array.getD_eq_getD_getElem?, Array.getElem?_push, hsize]
  split <;> rfl

theorem ring_push : (c.push b).ring = c.ring ++ [c.blocks.size] := by
  obtain ⟨_, -, hpush⟩ := push_eq c b
  rw [hpush]

theorem size_push : (c.push b).blocks.size = c.blocks.size + 1 := by
  obtain ⟨_, -, hpush⟩ := push_eq c b
  rw [hpush]
  simp only [Array.size_push, size_absorbTail]

theorem pages_push : (c.push b).pages = c.pages := by
  obtain ⟨_, -, hpush⟩ := push_eq c b
  obtain ⟨_, _, _, _, _, _, _, he⟩ := absorbTail_eq c b.offset
  rw [hpush, he]

theorem occupied_push : (c.push b).occupied = c.occupied := by
  obtain ⟨_, -, hpush⟩ := push_eq c b
  obtain ⟨_, _, _, _, _, _, _, he⟩ := absorbTail_eq c b.offset
  rw [hpush, he]

theorem capacity_push : (c.push b).capacity = c.capacity := by
  obtain ⟨_, harena, hpush⟩ := push_eq c b
  rw [hpush]
  exact harena

theorem block_push_of_ne {i : BlockId} (hi : i ≠ c.blocks.size) :
    ∃ size, (c.push b).block i = { c.block i with size := size } := by
  obtain ⟨_, _, _, _, _, _, hblock, he⟩ := absorbTail_eq c b.offset
  rw [block_push, if_neg hi, he]
  exact hblock i

end

theorem Ringed.push {b : Block} (h : Ringed c) (hs : Block.headerSize ≤ b.size)
    (hf : c.fit? b.size = some b.offset) : Ringed (c.push b) := by
  obtain ⟨hlaid, hused⟩ := h.absorbTail hs hf
  have hnew {i : BlockId} (hi : i ∈ c.ring) : i ≠ c.blocks.size := Nat.ne_of_lt (h.bound hi)
  have hspans : (c.push b).spans = (c.absorbTail b.offset).spans ++ [(b.offset, b.size)] := by
    obtain ⟨_, _, _, _, _, _, _, he⟩ := absorbTail_eq c b.offset
    have hring : (c.absorbTail b.offset).ring = c.ring := by rw [he]
    have hold : c.ring.map (c.push b).span = c.ring.map (c.absorbTail b.offset).span :=
      List.map_congr_left fun i hi => by simp only [span, block_push, if_neg (hnew hi)]
    have hlast : (c.push b).span c.blocks.size = (b.offset, b.size) := by
      simp only [span, block_push, if_true]
    rw [spans, ring_push, List.map_append, hold, List.map_singleton, hlast, spans, hring]
  have hentry {i : BlockId} (hi : i ∈ c.ring) : ((c.push b).block i).entry = (c.block i).entry := by
    obtain ⟨size, hb⟩ := block_push_of_ne c b (hnew hi)
    rw [hb]
    rfl
  have hlast : ((c.push b).block c.blocks.size).entry = b.entry := by
    rw [block_push, if_pos rfl]
  have hring := ring_push c b
  have hmem {i : BlockId} : i ∈ (c.push b).ring ↔ i ∈ c.ring ∨ i = c.blocks.size := by
    rw [hring, List.mem_append, List.mem_singleton]
  have hnodup : (c.push b).ring.Nodup := by
    rw [hring]
    refine List.nodup_append.mpr ⟨h.nodup, by simp, fun i hi j hj => ?_⟩
    rw [List.mem_singleton.mp hj]
    exact hnew hi
  have hapart (i : BlockId) (hi : i ∈ c.ring) : (c.block i).entry ≠ b.entry := by
    have hfree := (h.fit hf).2 (c.span i) (List.mem_map_of_mem hi)
    have hsize := (h.within hi).2
    simp only [Apart, span, Int.toNat_natCast, Block.entry, Block.headerSize] at hfree hs hsize ⊢
    omega
  have hsize := size_push c b
  have hcap := capacity_push c b
  obtain ⟨arena, harena, hpush⟩ := push_eq c b
  have hfirst : (c.push b).first = (c.absorbTail b.offset).first := by rw [hpush]
  have hnext : (c.push b).next = (b.offset + b.size) % c.capacity := by rw [hpush]
  have hpused : (c.push b).used = (c.absorbTail b.offset).used + b.size := by rw [hpush]
  have hentries : (c.push b).entries = c.entries.insert b.entry c.blocks.size := by rw [hpush]
  refine ⟨?_, ?_, hnodup, fun hi => ?_, fun {e i} => ?_⟩
  · rw [hcap, hspans, hfirst, hnext]
    exact hlaid
  · rw [hpused, hspans, hused]
    simp only [List.map_append, List.sum_append, List.map_cons, List.map_nil, List.sum_cons,
      List.sum_nil, Nat.add_zero]
  · rw [hsize]
    rcases hmem.mp hi with hi | rfl
    · exact Nat.lt_succ_of_lt (h.bound hi)
    · exact Nat.lt_succ_self _
  · rw [hentries, Std.HashMap.getElem?_insert, hmem]
    by_cases he : b.entry = e
    · rw [if_pos (beq_iff_eq.mpr he)]
      constructor
      · intro hi
        cases hi
        exact ⟨.inr rfl, hlast.trans he⟩
      · rintro ⟨hi | rfl, hen⟩
        · exact absurd ((hentry hi).symm.trans (hen.trans he.symm)) (hapart i hi)
        · rfl
    · rw [if_neg fun hb => he (beq_iff_eq.mp hb), h.entries]
      constructor
      · rintro ⟨hi, hen⟩
        exact ⟨.inl hi, (hentry hi).trans hen⟩
      · rintro ⟨hi | rfl, hen⟩
        · exact ⟨hi, (hentry hi).symm.trans hen⟩
        · exact absurd (hlast.symm.trans hen) he

end CodeCache

end Recompiler
