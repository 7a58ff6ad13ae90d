import Recompiler.Proofs.CellPlaces

/-!
The words of link cells. Link instructions read the word of a cell and not the block it is linked
with; every operation on cells writes both, so that a word is always the entry of that block, or
zero. No operation moves the code of a block.
-/

namespace Recompiler

open Ir Emit

namespace CodeCache

variable {c d : CodeCache} {id i : BlockId} {n k : Nat} {pc page : UInt32} {ns : List Nat}

def entryOf (c : CodeCache) (linked : Option BlockId) : Nat :=
  (linked.map fun id => (c.block id).entry).getD 0

/-- The word of each cell is the entry of its block. -/
structure Worded (c : CodeCache) : Prop where
  size : c.words.size = c.cells.size
  bound {n : Nat} {id : BlockId} : (c.cell n).linked = some id → id < c.blocks.size
  word (n : Nat) : c.word n = c.entryOf (c.cell n).linked

theorem entry_modifyBlock (c : CodeCache) (id : BlockId) {f : Block → Block}
    (hf : ∀ b, (f b).offset = b.offset) (i : BlockId) :
    ((c.modifyBlock id f).block i).entry = (c.block i).entry := by
  unfold Block.entry
  rw [block_modifyBlock]
  split
  · rw [hf]
  · rfl

theorem entry_push {b : Block} (hi : i < c.blocks.size) :
    ((c.push b).block i).entry = (c.block i).entry := by
  obtain ⟨size, hb⟩ := block_push_of_ne c b (Nat.ne_of_lt hi)
  rw [hb]
  rfl

theorem word_set {words : Array Nat} {v : Nat} (hw : d.words = words.setIfInBounds n v) :
    d.word k = if k = n ∧ n < words.size then v else words.getD k 0 := by
  rw [word, hw]
  simp only [Array.getD_eq_getD_getElem?, Array.getElem?_setIfInBounds]
  by_cases hk : n = k
  · subst hk
    by_cases hs : n < words.size <;> simp [hs]
  · simp [hk, Ne.symm hk]

namespace Worded

/-- A cell that enters a block has its entry, and an entry is never zero. -/
theorem cellEntry?_eq (h : Worded c) (n : Nat) :
    c.cellEntry? n = (c.cell n).linked.map fun id => (c.block id).entry := by
  unfold cellEntry?
  rw [h.word]
  cases (c.cell n).linked with
  | none => rfl
  | some id => exact if_neg (Nat.succ_ne_zero _)

theorem congr (h : Worded c) (hcells : d.cells = c.cells) (hwords : d.words = c.words)
    (hsize : c.blocks.size ≤ d.blocks.size)
    (hentry : ∀ i < c.blocks.size, (d.block i).entry = (c.block i).entry) : Worded d := by
  have hcell (k : Nat) : d.cell k = c.cell k := by
    unfold cell
    rw [hcells]
  refine ⟨?_, fun {k i} hl => ?_, fun k => ?_⟩
  · rw [hcells, hwords]
    exact h.size
  · rw [hcell] at hl
    exact Nat.lt_of_lt_of_le (h.bound hl) hsize
  · have hw : d.word k = c.word k := by
      unfold CodeCache.word
      rw [hwords]
    rw [hw, h.word, hcell]
    cases hl : (c.cell k).linked with
    | none => rfl
    | some i => exact (hentry i (h.bound hl)).symm

theorem of_blocks (h : Worded c) (hcells : d.cells = c.cells) (hwords : d.words = c.words)
    (hblocks : d.blocks = c.blocks) : Worded d := by
  refine h.congr hcells hwords (Nat.le_of_eq (congrArg Array.size hblocks.symm)) fun i _ => ?_
  unfold block
  rw [hblocks]

theorem modifyBlock (h : Worded c) (id : BlockId) {f : Block → Block}
    (hf : ∀ b, (f b).offset = b.offset) : Worded (c.modifyBlock id f) :=
  h.congr rfl rfl (Nat.le_of_eq (size_modifyBlock c id f).symm) fun i _ =>
    entry_modifyBlock c id hf i

theorem setOrigin (h : Worded c) (id : BlockId) (pc : UInt32) : Worded (c.setOrigin id pc) :=
  (h.modifyBlock id (f := fun b => { b with origin := pc }) fun _ => rfl).of_blocks rfl rfl rfl

/-- A cell gets a block together with its entry. -/
theorem put (h : Worded c) {f : Cell → Cell} {v : Nat}
    (hf : ∀ i, (f (c.cell n)).linked = some i → i < c.blocks.size)
    (hv : v = c.entryOf (f (c.cell n)).linked) (hcells : d.cells = c.cells.modify n f)
    (hwords : d.words = c.words.setIfInBounds n v) (hblocks : d.blocks = c.blocks) :
    Worded d := by
  have hcell (k : Nat) :
      d.cell k = if k = n ∧ n < c.cells.size then f (c.cell k) else c.cell k := by
    rw [← cell_modifyCell]
    unfold cell
    rw [hcells]
    rfl
  have hentry (linked : Option BlockId) : d.entryOf linked = c.entryOf linked := by
    unfold entryOf block
    rw [hblocks]
  refine ⟨?_, fun {k i} hl => ?_, fun k => ?_⟩
  · rw [hwords, hcells, Array.size_setIfInBounds, Array.size_modify]
    exact h.size
  · rw [hblocks]
    rw [hcell] at hl
    split at hl
    · rename_i hk
      exact hf i (hk.1 ▸ hl)
    · exact h.bound hl
  · rw [word_set hwords, hcell, hentry, h.size]
    split
    · rename_i hk
      rw [hk.1, hv]
    · exact h.word k

/-- A cell whose block stays the same. -/
theorem assign (h : Worded c) (x : Exit) : Worded (c.assign x) := by
  have hlinked (k : Nat) : ((c.assign x).cell k).linked = (c.cell k).linked := by
    unfold CodeCache.assign
    rw [cell_modifyCell]
    split <;> rfl
  refine ⟨h.size.trans (size_cells_assign c x).symm, fun {k i} hl => ?_, fun k => ?_⟩
  · exact h.bound (hlinked k ▸ hl)
  · rw [hlinked]
    exact h.word k

theorem wait (h : Worded c) (n : Nat) : Worded (c.wait n) := h.of_blocks rfl rfl rfl

theorem unwait (h : Worded c) (n : Nat) : Worded (c.unwait n) := by
  unfold CodeCache.unwait
  dsimp only
  split <;> exact h.of_blocks rfl rfl rfl

theorem enter (h : Worded c) (n : Nat) (hid : id < c.blocks.size) {entry : Nat}
    (he : entry = (c.block id).entry) : Worded (c.enter n id entry) :=
  h.put (f := fun cell => { cell with linked := some id })
    (fun i hi => by cases hi; exact hid) he rfl rfl rfl

theorem link (h : Worded c) (n : Nat) (hid : id < c.blocks.size) : Worded (c.link n id) :=
  ((h.enter n hid rfl).modifyBlock id (f := fun b => { b with links := addCell n b.links })
    fun _ => rfl).of_blocks rfl rfl rfl

theorem unlinkCell (h : Worded c) (n : Nat) : Worded (c.unlinkCell n) :=
  h.put (f := fun cell => { cell with linked := none }) nofun rfl rfl rfl rfl

theorem unlink (h : Worded c) (id : BlockId) : Worded (c.unlink id) := by
  have hcells : Worded ((c.block id).links.foldl CodeCache.unlinkCell c) :=
    List.foldlRecOn (motive := Worded) _ _ h fun _ hd n _ => hd.unlinkCell n
  exact hcells.modifyBlock id fun _ => rfl

theorem detach (h : Worded c) (n : Nat) : Worded (c.detach n) := by
  unfold CodeCache.detach
  split
  · rename_i id _
    exact (h.modifyBlock id (f := fun b => { b with links := b.links.erase n })
      fun _ => rfl).of_blocks rfl rfl rfl
  · exact h.unwait n

theorem freeCell (h : Worded c) (n : Nat) : Worded (c.freeCell n) := by
  have hd : Worded (if (c.cell n).bound then c.detach n else c) := by
    split
    · exact h.detach n
    · exact h
  exact hd.put (f := fun _ => .empty) nofun rfl rfl rfl rfl

theorem freeCells (h : Worded c) (ns : List Nat) : Worded (c.freeCells ns) :=
  List.foldlRecOn (motive := Worded) ns _ h fun _ hd n _ => hd.freeCell n

theorem allocCell (h : Worded c) : Worded c.allocCell.2 := by
  unfold CodeCache.allocCell
  split
  · exact h
  · exact h.of_blocks rfl rfl rfl

theorem retire (h : Worded c) (hd : c.retire id = .ok d) : Worded d := by
  rcases retire_cases hd with ⟨-, rfl⟩ | ⟨pages, occupied, rfl⟩
  · exact h
  · exact (h.of_blocks (d := { c with pages, occupied }) rfl rfl rfl).modifyBlock id fun _ => rfl

theorem release (h : Worded c) (id : BlockId) : Worded (c.release id) :=
  (((h.unlink id).freeCells _).modifyBlock id
    (f := fun b => { b with exits := [], program := default }) fun _ => rfl).of_blocks rfl rfl rfl

theorem evict (h : Worded c) (he : c.evict = .ok d) : Worded d := by
  unfold CodeCache.evict at he
  split at he
  · cases he
    exact h
  · rename_i id rest _
    split at he
    · rename_i r hr
      cases he
      have hd := ((h.of_blocks (d := { c with ring := rest }) rfl rfl rfl).retire hr).release id
      unfold settle
      split <;> exact hd.of_blocks rfl rfl rfl
    · cases he

theorem evictMany (h : Worded c) {n : Nat} (he : CodeCache.evictMany n c = .ok d) : Worded d :=
  evictMany_keeps (fun _ _ hc he => hc.evict he) h he

theorem allocate (h : Worded c) (n size : Int) : Worded (c.allocate n size).2 :=
  allocate_keeps (fun _ _ hc he => hc.evict he) n size h

theorem invalidatePage (h : Worded c) (page : UInt32) : Worded (c.invalidatePage page).2 := by
  rcases invalidatePage_cases c page with ⟨live, slots, hp⟩ | ⟨he, -⟩
  · obtain ⟨pages, occupied, invalidations, hd⟩ := invalidatePage_eq hp
    have hids : Worded ((slots.toList.filterMap Mapping.block?).foldl unmap c) :=
      List.foldlRecOn (motive := Worded) _ _ h fun _ hd id _ => (hd.setOrigin id 0).unlink id
    rw [hd]
    exact hids.of_blocks rfl rfl rfl
  · rw [he]
    exact h

theorem invalidateAll (h : Worded c) : Worded c.invalidateAll :=
  List.foldlRecOn (motive := Worded) _ _ h fun _ hd page _ => hd.invalidatePage page

theorem push (h : Worded c) (b : Block) : Worded (c.push b) := by
  obtain ⟨_, -, hpush⟩ := push_eq c b
  obtain ⟨_, _, _, _, -, -, -, htail⟩ := absorbTail_eq c b.offset
  refine h.congr ?_ ?_ ?_ fun i hi => entry_push hi
  · rw [hpush, htail]
  · rw [hpush, htail]
  · rw [size_push]
    exact Nat.le_succ _

theorem withArena (h : Worded c) (arena : Arena) : Worded { c with arena } :=
  h.of_blocks rfl rfl rfl

theorem redirect (h : Worded c) (ns : List Nat) (hid : id < c.blocks.size) {entry : Nat}
    (he : entry = (c.block id).entry) : Worded (c.redirect ns id entry) := by
  unfold CodeCache.redirect
  induction ns generalizing c with
  | nil => exact h
  | cons n ns ih => exact ih (h.enter n hid he) hid he

theorem displace (h : Worded c) (pc : UInt32) (hid : id < c.blocks.size) :
    Worded (c.displace pc id) := by
  unfold CodeCache.displace
  split
  · rename_i old _
    have hempty : Worded (c.emptied old) := (h.setOrigin old 0).modifyBlock old fun _ => rfl
    have hsize : id < (c.emptied old).blocks.size := (size_emptied c old).symm ▸ hid
    rw [supersede_eq]
    have hrich : Worded (c.enriched old id) :=
      (hempty.redirect (c.block old).links hsize rfl).modifyBlock id fun _ => rfl
    exact hrich.of_blocks rfl rfl rfl
  · exact h

/-- The block that becomes live is entered by the cells that waited for it. -/
theorem exposed (h : Worded c) (pc : UInt32) (hid : id < c.blocks.size) (exits : List Exit) :
    Worded (c.exposed pc id exits) := by
  have hplace : Worded (c.place pc id) := (h.displace pc hid).of_blocks rfl rfl rfl
  have hsize : id < ((c.place pc id).setOrigin id pc).blocks.size := by
    rw [size_setOrigin]
    exact (size_displace c pc id).symm ▸ hid
  have horigin := hplace.setOrigin id pc
  have hlinked : Worded (((c.place pc id).setOrigin id pc).linkWaiting pc id) := by
    generalize (c.place pc id).setOrigin id pc = d at hsize horigin
    unfold linkWaiting
    have hbase : Worded { d with waiting := d.waiting.erase pc } := horigin.of_blocks rfl rfl rfl
    refine (List.foldlRecOn (motive := fun d => Worded d ∧ id < d.blocks.size) _ _
      ⟨hbase, hsize⟩ fun e he n _ => ⟨he.1.link n he.2, ?_⟩).1
    rw [size_of_bare (bare_link e n id)]
    exact he.2
  exact hlinked.modifyBlock id fun _ => rfl

theorem bind (h : Worded c) (x : Exit)
    (hid : ∀ id, c.lookup x.target = .live id → id < c.blocks.size) : Worded (c.bind x) := by
  rcases bind_cases c x with ⟨id, hl, he⟩ | ⟨-, he⟩
  · rw [he]
    exact (h.assign x).link x.cell (hid id hl)
  · rw [he]
    exact (h.assign x).wait x.cell

theorem publish (h : Worded c) (hid : id < c.blocks.size) {exits : List Exit}
    (hlive : ∀ a i, (c.publish pc id exits).lookup a = .live i →
      i < (c.publish pc id exits).blocks.size) : Worded (c.publish pc id exits) := by
  have hbare : (c.publish pc id exits).bare = (c.exposed pc id exits).bare :=
    bare_foldl bare_bind exits _
  rw [publish_eq]
  refine (List.foldlRecOn (motive := fun d => Worded d ∧ d.bare = (c.exposed pc id exits).bare)
    _ _ ⟨h.exposed pc hid exits, rfl⟩ fun d hd x _ => ?_).1
  refine ⟨hd.1.bind x fun i hl => ?_, (bare_bind d x).trans hd.2⟩
  have hsame := hd.2.trans hbare.symm
  rw [size_of_bare hsame]
  exact hlive _ i (lookup_of_bare hsame _ ▸ hl)

theorem insert (h : Worded c) (hs : Sound c) (pc : UInt32) (t : TraceProgram)
    (code : Option ByteArray) : Worded (c.insert pc t code).2 := by
  rcases hs.insert_cases pc t code with ⟨err, -, he⟩ |
    ⟨off, d, halloc, hsound, hcd, hfit, hpc, ⟨err, he⟩ | ⟨arena, hw, he⟩⟩
  · rw [he]
    exact h.freeCells _
  · have hd := h.allocate (codeSize t code) (blockSize t code)
    rw [halloc] at hd
    rw [he]
    exact (hd.push _).freeCells _
  · have hd := h.allocate (codeSize t code) (blockSize t code)
    rw [halloc] at hd
    have hheader := Nat.le_trans (Nat.le_add_right _ _) (headerSize_le_blockSize t code)
    have hpush := (hd.push (fresh t off (blockSize t code))).withArena arena
    have hsound' := (hsound.push hheader hfit).withArena (Arena.size_write hw)
    have hring := ring_push d (fresh t off (blockSize t code))
    have hnew := hsound.mapped.not_live_push (fresh t off (blockSize t code))
    have hmem : d.blocks.size ∈ (d.push (fresh t off (blockSize t code))).ring :=
      hring ▸ List.mem_append_right _ (.head _)
    have hmapped := (hsound'.publish hmem hnew hpc t.exits).mapped
    rw [he, ← hcd.size]
    exact hpush.publish (hsound'.ringed.bound hmem) fun a i hl => hmapped.bound hl

end Worded

theorem worded_create (arena : Arena) (maxPages maxCells : Int) :
    Worded (create arena maxPages maxCells) := by
  have hcell (n : Nat) : (create arena maxPages maxCells).cell n = .empty := by
    simp only [cell, create, Array.getD_eq_getD_getElem?, Array.getElem?_replicate]
    split <;> split <;> rfl
  refine ⟨?_, fun {n id} hl => ?_, fun n => ?_⟩
  · simp only [create, Array.size_replicate]
  · rw [hcell] at hl
    cases hl
  · rw [hcell]
    simp only [word, create, Array.getD_eq_getD_getElem?, Array.getElem?_replicate]
    split <;> split <;> rfl

end CodeCache

end Recompiler
