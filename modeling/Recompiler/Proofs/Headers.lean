import Recompiler.Proofs.CacheSessions

/-!
The headers of blocks. A header holds the origin of its block and the offset where the next block
starts, in 32 bits. Every operation writes headers only inside blocks of the ring, so those of
the ring are right, and following them from the oldest block visits the ring, as long as its
offsets are words. A trace at address zero breaks this: its block is never unmapped, and a header
may be written where it once was.
-/

namespace Recompiler

open Ir Emit

theorem setWidth_bytes (w : BitVec 32) :
    (w.setWidth 8).setWidth 32 ||| ((w >>> 8).setWidth 8).setWidth 32 <<< 8
      ||| ((w >>> 16).setWidth 8).setWidth 32 <<< 16
      ||| ((w >>> 24).setWidth 8).setWidth 32 <<< 24 = w := by
  apply BitVec.eq_of_getLsbD_eq
  intro i hi
  simp only [BitVec.getLsbD_or, BitVec.getLsbD_shiftLeft, BitVec.getLsbD_setWidth,
    BitVec.getLsbD_ushiftRight]
  by_cases h8 : i < 8
  · simp only [h8, hi]
    grind
  · by_cases h16 : i < 16
    · simp only [h8, h16, hi]
      grind
    · by_cases h24 : i < 24 <;> simp only [h8, h16, h24, hi] <;> grind

theorem Savestate.wordOf_bytes (w : UInt32) :
    wordOf w.toUInt8 (w >>> 8).toUInt8 (w >>> 16).toUInt8 (w >>> 24).toUInt8 = w :=
  UInt32.eq_of_toBitVec_eq (setWidth_bytes w.toBitVec)

namespace Arena

variable {a : Arena} {off i : Nat} {bs : List UInt8}

theorem byte_insert (a : Arena) (off i : Nat) (b : UInt8) :
    ({ a with bytes := a.bytes.insert off b } : Arena).byte i = if i = off then b else a.byte i := by
  simp only [byte, Std.HashMap.getD_insert, beq_iff_eq]
  by_cases h : i = off
  · rw [if_pos h, if_pos h.symm]
  · rw [if_neg h, if_neg (Ne.symm h)]

theorem byte_poke_of_not_mem (h : i < off ∨ off + bs.length ≤ i) :
    (a.poke off bs).byte i = a.byte i := by
  induction bs generalizing a off with
  | nil => rfl
  | cons b bs ih =>
    rw [List.length_cons] at h
    rw [poke, ih (by omega), byte_insert, if_neg (by omega)]

theorem byte_poke {k : Nat} (h : k < bs.length) : (a.poke off bs).byte (off + k) = bs[k] := by
  induction bs generalizing a off k with
  | nil => cases h
  | cons b bs ih =>
    rw [poke]
    cases k with
    | zero =>
      have hout : (({ a with bytes := a.bytes.insert off b } : Arena).poke (off + 1) bs).byte off
          = if off = off then b else a.byte off := by
        rw [byte_poke_of_not_mem (.inl (Nat.lt_succ_self off)), byte_insert]
      exact hout.trans (if_pos rfl)
    | succ k =>
      have hk : k < bs.length := Nat.lt_of_succ_lt_succ h
      have hshift : off + (k + 1) = off + 1 + k := by omega
      simp only [hshift, ih hk, List.getElem_cons_succ]

end Arena

namespace CodeCache

open Recompiler.Span

variable {c d : CodeCache} {id i : BlockId} {off : Nat} {pc : UInt32} {b : Block}

theorem header_congr (h : ∀ k < 8, d.arena.byte (off + k) = c.arena.byte (off + k)) :
    d.header off = c.header off := by
  have h0 := h 0 (by omega)
  have h1 := h 1 (by omega)
  have h2 := h 2 (by omega)
  have h3 := h 3 (by omega)
  have h4 := h 4 (by omega)
  have h5 := h 5 (by omega)
  have h6 := h 6 (by omega)
  have h7 := h 7 (by omega)
  simp only [Nat.add_zero] at h0
  simp only [header, wordAt, Nat.add_assoc, h0, h1, h2, h3, h4, h5, h6, h7]

theorem byte_tag_of_not_mem (h : i < b.offset ∨ b.offset + 8 ≤ i) :
    (c.tag b pc).arena.byte i = c.arena.byte i := by
  simp only [tag]
  exact Arena.byte_poke_of_not_mem h

theorem header_tag (c : CodeCache) (b : Block) (pc : UInt32) : (c.tag b pc).header b.offset
    = (pc, (UInt32.ofNat ((b.offset + b.size) % c.capacity)).toNat) := by
  generalize hnext : UInt32.ofNat ((b.offset + b.size) % c.capacity) = next
  have hbyte {k : Nat} (hk : k < 8) : (c.tag b pc).arena.byte (b.offset + k)
      = (Savestate.wordBytes pc ++ Savestate.wordBytes next)[k] := by
    subst hnext
    simp only [tag]
    exact Arena.byte_poke hk
  have h0 := hbyte (show 0 < 8 by omega)
  have h1 := hbyte (show 1 < 8 by omega)
  have h2 := hbyte (show 2 < 8 by omega)
  have h3 := hbyte (show 3 < 8 by omega)
  have h4 := hbyte (show 4 < 8 by omega)
  have h5 := hbyte (show 5 < 8 by omega)
  have h6 := hbyte (show 6 < 8 by omega)
  have h7 := hbyte (show 7 < 8 by omega)
  simp only [Nat.add_zero] at h0
  simp only [header, wordAt, Nat.add_assoc, Nat.reduceAdd, h0, h1, h2, h3, h4, h5, h6, h7]
  have hpc := Savestate.wordOf_bytes pc
  have hnext := Savestate.wordOf_bytes next
  simp only [Savestate.wordBytes, List.cons_append, List.nil_append, List.getElem_cons_succ,
    List.getElem_cons_zero, hpc, hnext]

end CodeCache

namespace Block

def mark (b : Block) : Nat × Nat × UInt32 := (b.offset, b.size, b.origin)

theorem mark_of_bare {b b' : Block} (h : b.bare = b'.bare) : b.mark = b'.mark := by
  have hm := congrArg mark h
  exact hm

end Block

namespace CodeCache

open Recompiler.Span

variable {c d : CodeCache} {id i : BlockId} {off : Nat} {pc : UInt32} {b : Block}

/-- The header of a block says its origin and where the next block starts. -/
def Tagged (c : CodeCache) (id : BlockId) : Prop :=
  c.header (c.block id).offset = ((c.block id).origin,
    (UInt32.ofNat (((c.block id).offset + (c.block id).size) % c.capacity)).toNat)

theorem Tagged.keep (h : Tagged c id) (hb : (d.block id).mark = (c.block id).mark)
    (hcap : d.capacity = c.capacity)
    (hbyte : ∀ k < 8, d.arena.byte ((c.block id).offset + k)
      = c.arena.byte ((c.block id).offset + k)) : Tagged d id := by
  obtain ⟨hoff, hrest⟩ := Prod.mk.inj hb
  obtain ⟨hsize, horigin⟩ := Prod.mk.inj hrest
  unfold Tagged at h ⊢
  rw [hoff, hsize, horigin, hcap, header_congr hbyte, h]

theorem Tagged.of_bare (h : Tagged c id) (hb : d.bare = c.bare) : Tagged d id := by
  have harena : d.arena = c.arena := by
    have ha := congrArg CodeCache.arena hb
    exact ha
  exact h.keep (Block.mark_of_bare (block_of_bare hb id)) (congrArg Arena.size harena)
    fun _ _ => by rw [harena]

theorem Tagged.evicted (h : Tagged c id) (hev : Evicted c d) (hid : id ∈ d.ring) : Tagged d id :=
  h.keep (Block.mark_of_bare (hev.block hid)) hev.capacity fun _ _ => by rw [hev.arena]

theorem Ringed.headers_apart (h : Ringed c) (hid : id ∈ c.ring) (hi : i ∈ c.ring) (hne : i ≠ id) :
    (c.block i).offset + 8 ≤ (c.block id).offset ∨ (c.block id).offset + 8 ≤ (c.block i).offset := by
  have ha := h.apart hi hid hne
  have h1 := (h.within hid).2
  have h2 := (h.within hi).2
  simp only [Apart, span, Block.headerSize] at ha h1 h2
  omega

theorem Tagged.setOrigin (hr : Ringed c) (hid : id ∈ c.ring) (hi : i ∈ c.ring) (h : Tagged c i)
    (pc : UInt32) : Tagged (c.setOrigin id pc) i := by
  have hcap : (c.setOrigin id pc).capacity = c.capacity := capacity_of_frame (frame_setOrigin ..)
  by_cases he : i = id
  · subst he
    have hb : (c.setOrigin i pc).block i = { c.block i with origin := pc } := by
      rw [block_setOrigin, if_pos ⟨rfl, hr.bound hi⟩]
    unfold Tagged
    rw [hb, hcap]
    exact header_tag ..
  · have hapart := hr.headers_apart hid hi he
    refine h.keep ?_ hcap fun k hk => ?_
    · rw [block_setOrigin, if_neg fun hb => he hb.1]
    · have hout : (c.block i).offset + k < (c.block id).offset ∨
          (c.block id).offset + 8 ≤ (c.block i).offset + k := by omega
      exact byte_tag_of_not_mem hout

/-- The newest block gets a new header when it grows. -/
theorem Tagged.absorbTail (hr : Ringed c) (hi : i ∈ c.ring) (h : Tagged c i) (off : Nat) :
    Tagged (c.absorbTail off) i := by
  obtain ⟨older, last, hlast⟩ := (List.eq_nil_or_concat' c.ring).resolve_left (List.ne_nil_of_mem hi)
  by_cases ho : off = c.next
  · rw [ho, absorbTail_of_eq (List.ne_nil_of_mem hi)]
    exact h
  · have hmem : last ∈ c.ring := by simp [hlast]
    have hoff : ((c.grown last).block last).offset = (c.block last).offset := by
      rw [grown, block_modifyBlock_self (hr.bound hmem)]
    have hother (he : i ≠ last) : (c.grown last).block i = c.block i := block_modifyBlock_of_ne he _
    have hgrown : (c.grown last).capacity = c.capacity ∧ (c.grown last).arena = c.arena := ⟨rfl, rfl⟩
    rw [absorbTail_of_ne hlast ho]
    generalize c.grown last = g at hoff hother hgrown
    have hhead := header_tag g (g.block last) (g.block last).origin
    have hblock := block_tag g (g.block last) (g.block last).origin
    have hcap := capacity_tag g (g.block last) (g.block last).origin
    have hbyte (j : Nat) (hj : j < (g.block last).offset ∨ (g.block last).offset + 8 ≤ j) :
        (g.tag (g.block last) (g.block last).origin).arena.byte j = g.arena.byte j :=
      byte_tag_of_not_mem hj
    generalize g.tag (g.block last) (g.block last).origin = e at *
    by_cases he : i = last
    · subst he
      change e.header (e.block i).offset = ((e.block i).origin, (UInt32.ofNat
        (((e.block i).offset + (e.block i).size) % e.capacity)).toNat)
      rw [hblock, hhead, hcap]
    · have hapart := hr.headers_apart hmem hi he
      refine h.keep ?_ (hcap.trans hgrown.1) fun k hk => ?_
      · change (e.block i).mark = _
        rw [hblock, hother he]
      · change e.arena.byte _ = _
        rw [hbyte _ (by omega), hgrown.2]

theorem header_push (c : CodeCache) (b : Block) : (c.push b).header b.offset
    = (0, (UInt32.ofNat ((b.offset + b.size) % c.capacity)).toNat) := by
  obtain ⟨first, used, arena, blocks, harena, -, -, he⟩ := absorbTail_eq c b.offset
  have hcap : ({ c with first, used, arena, blocks } : CodeCache).capacity = c.capacity := harena
  unfold push
  rw [he, header_tag]
  dsimp only
  rw [← hcap]
  rfl

theorem byte_push (h : i < b.offset ∨ b.offset + 8 ≤ i) :
    (c.push b).arena.byte i = (c.absorbTail b.offset).arena.byte i := by
  unfold push
  dsimp only
  rw [byte_tag_of_not_mem h]

theorem Tagged.push (hr : Ringed c) (hs : Block.headerSize ≤ b.size)
    (hf : c.fit? b.size = some b.offset) (hb : b.origin = 0) (h : ∀ i ∈ c.ring, Tagged c i) :
    ∀ i ∈ (c.push b).ring, Tagged (c.push b) i := by
  intro i hi
  rw [ring_push, List.mem_append, List.mem_singleton] at hi
  have hcap := capacity_push c b
  rcases hi with hi | rfl
  · have hne : i ≠ c.blocks.size := Nat.ne_of_lt (hr.bound hi)
    have htail := (h i hi).absorbTail hr hi b.offset
    obtain ⟨first, used, arena, blocks, harena, -, hblock, he⟩ := absorbTail_eq c b.offset
    have hoff : ((c.absorbTail b.offset).block i).offset = (c.block i).offset := by
      obtain ⟨size, hsize⟩ := hblock i
      rw [he]
      have ho := congrArg Block.offset hsize
      exact ho
    have hfree := (hr.fit hf).2 (c.span i) (List.mem_map_of_mem hi)
    have hi16 := (hr.within hi).2
    simp only [Apart, span, Int.toNat_natCast, Block.headerSize] at hfree hs hi16
    refine htail.keep ?_ ?_ fun k hk => ?_
    · rw [block_push, if_neg hne]
    · rw [hcap, he]
      exact harena.symm
    · have hout : (c.block i).offset + k < b.offset ∨ b.offset + 8 ≤ (c.block i).offset + k := by
        omega
      rw [hoff]
      exact byte_push hout
  · unfold Tagged
    rw [block_push, if_pos rfl, hcap, header_push, hb]

/-- Code is written behind the header of its block, and inside the block. -/
theorem Tagged.write (hr : Ringed c) (hid : id ∈ c.ring) {arena : Arena} {bs : ByteArray}
    (hw : c.arena.write ((c.block id).offset + Block.headerSize) bs = .ok arena)
    (hlen : Block.headerSize + bs.size ≤ (c.block id).size) (hi : i ∈ c.ring) (h : Tagged c i) :
    Tagged { c with arena } i := by
  have hpoke : arena = c.arena.poke ((c.block id).offset + Block.headerSize) bs.data.toList := by
    unfold Arena.write at hw
    split at hw
    · cases hw
    · split at hw
      · cases hw
        rfl
      · cases hw
  have hlength : bs.data.toList.length = bs.size := by simp
  refine h.keep rfl (Arena.size_write hw) fun k hk => ?_
  have hout : (c.block i).offset + k < (c.block id).offset + Block.headerSize ∨
      (c.block id).offset + Block.headerSize + bs.data.toList.length ≤ (c.block i).offset + k := by
    have h16 := (hr.within hi).2
    by_cases he : i = id
    · subst he
      simp only [Block.headerSize]
      omega
    · have ha := hr.apart hi hid he
      simp only [Apart, span, Block.headerSize] at ha h16 hlen ⊢
      omega
  rw [hpoke]
  exact Arena.byte_poke_of_not_mem hout

theorem Tagged.publish (hr : Ringed c) (hid : id ∈ c.ring)
    (hold : ∀ old, c.lookup pc = .live old → old ∈ c.ring) (exits : List Exit) (hi : i ∈ c.ring)
    (h : Tagged c i) : Tagged (c.publish pc id exits) i := by
  have hdisplace : Tagged (c.displace pc id) i := by
    unfold displace
    split
    · rename_i old hl
      exact (Tagged.setOrigin hr (hold old hl) hi h 0).of_bare (bare_supersede c old id)
    · exact h
  have hframe := frame_displace c pc id
  have hplace : Ringed (c.place pc id) := hr.of_frame hframe
  have hring : (c.place pc id).ring = c.ring := ring_displace c pc id
  have htag := Tagged.setOrigin hplace (hring ▸ hid) (hring ▸ hi)
    (hdisplace.keep (d := c.place pc id) rfl rfl fun _ _ => rfl) pc
  have hexits : Tagged (((c.place pc id).setOrigin id pc).modifyBlock id
      fun b => { b with exits }) i := by
    generalize (c.place pc id).setOrigin id pc = p at htag ⊢
    refine htag.keep ?_ rfl fun _ _ => rfl
    rw [block_modifyBlock]
    split <;> rfl
  exact hexits.of_bare (bare_publish c pc id exits)

theorem Tagged.unmapAll {ids : List BlockId} (hr : Ringed c) (hids : ∀ id ∈ ids, id ∈ c.ring)
    (hi : i ∈ c.ring) (h : Tagged c i) : Tagged (ids.foldl unmap c) i := by
  induction ids generalizing c with
  | nil => exact h
  | cons id ids ih =>
    have hframe : (c.unmap id).frame = c.frame :=
      (frame_of_bare (bare_unmap c id)).trans (frame_setOrigin c id 0)
    have hring : (c.unmap id).ring = c.ring := ring_of_frame hframe
    have htag := (Tagged.setOrigin hr (hids id (.head _)) hi h 0).of_bare (bare_unmap c id)
    exact ih (hr.of_frame hframe) (fun j hj => hring ▸ hids j (.tail _ hj)) (hring ▸ hi) htag

/-- A sound cache with nothing at address zero, where every block of the ring has its header. -/
structure Headed (c : CodeCache) : Prop where
  sound : Sound c
  zero (id : BlockId) : c.lookup 0 ≠ .live id
  tagged {id : BlockId} : id ∈ c.ring → Tagged c id

namespace Headed

theorem mem_ring (h : Headed c) (hl : c.lookup pc = .live id) : id ∈ c.ring := by
  have horigin := h.sound.mapped.origin hl
  refine (h.sound.mapped.live fun ho => h.zero id ?_).1
  have hzero : wordAddr pc = wordAddr 0 := horigin.symm.trans ho
  rw [← hl]
  exact (lookup_congr hzero).symm

theorem invalidatePage (h : Headed c) (page : UInt32) : Headed (c.invalidatePage page).2 := by
  refine ⟨h.sound.invalidatePage page,
    fun id hl => h.zero id (lookup_invalidatePage.mp hl).1, fun {i} hi => ?_⟩
  rw [ring_invalidatePage] at hi
  rcases invalidatePage_cases c page with ⟨live, slots, hp⟩ | ⟨he, -⟩
  · have hids (id : BlockId) (hid : id ∈ slots.toList.filterMap Mapping.block?) : id ∈ c.ring := by
      obtain ⟨pc, -, hl⟩ := (h.sound.mapped.mem_table hp).mp hid
      exact h.mem_ring hl
    have htag := (h.tagged hi).unmapAll h.sound.ringed hids hi
    have hbare := invalidatePage_table hp
    generalize (slots.toList.filterMap Mapping.block?).foldl unmap c = d at htag hbare
    have hpages : Tagged { d with
        pages := c.pages.insert page .released
        occupied := c.occupied.erase page } i :=
      htag.keep rfl rfl fun _ _ => rfl
    exact hpages.of_bare hbare
  · rw [he]
    exact h.tagged hi

theorem change (h : Headed c) (hch : Change c d) : Headed d := by
  refine ⟨hch.sound h.sound, fun id hl => h.zero id (hch.dwindles.live hl), fun {i} hi => ?_⟩
  cases hch with
  | cells he => exact (h.tagged (ring_of_bare he ▸ hi)).of_bare he
  | evicted _ hcd => exact (h.tagged (hcd.ring.subset hi)).evicted hcd hi
  | invalidated page => exact (h.invalidatePage page).tagged hi
  | cleared =>
    have hall : Headed c.invalidateAll :=
      List.foldlRecOn _ _ h fun _ hd page _ => hd.invalidatePage page
    exact hall.tagged hi
  | refused reason => exact (h.tagged hi).keep rfl rfl fun _ _ => rfl
  | appended hd hcd hs hf he =>
    refine Tagged.of_bare ?_ he
    refine Tagged.push hd.ringed hs hf rfl (fun j hj => ?_) i (ring_of_bare he ▸ hi)
    exact (h.tagged (hcd.ring.subset hj)).evicted hcd hj

theorem inserts (h : Headed c) {t : TraceProgram} (hins : Inserts c pc t d) (hpc : pc ≠ 0) :
    Headed d := by
  have hsound := hins.sound
  have hzero (id : BlockId) : d.lookup 0 ≠ .live id := by
    obtain ⟨e, -, hdw, -, -, -, halign, rfl⟩ := hins.cases
    have hother : wordAddr 0 ≠ wordAddr pc := by
      rw [wordAddr_of_aligned halign]
      exact hpc.symm
    rw [lookup_publish, if_neg hother]
    exact fun hl => h.zero id (hdw.live hl)
  obtain ⟨hd, hcd, hfit, halign, hw⟩ := hins
  rename_i d code off arena
  have hlen := headerSize_le_blockSize t code
  have hs : Block.headerSize ≤ blockSize t code := Nat.le_trans (Nat.le_add_right _ _) hlen
  have hmem : c.blocks.size ∈ (d.push (fresh t off (blockSize t code))).ring := by
    rw [ring_push, hcd.size]
    exact List.mem_append_right _ (.head _)
  have hblock : (d.push (fresh t off (blockSize t code))).block c.blocks.size
      = fresh t off (blockSize t code) := by
    rw [block_push, hcd.size, if_pos rfl]
  have hp : Headed (d.push (fresh t off (blockSize t code))) :=
    h.change (.appended hd hcd hs hfit rfl)
  generalize d.push (fresh t off (blockSize t code)) = p at *
  have hringed : Ringed { p with arena } :=
    (hp.sound.withArena (Arena.size_write hw)).ringed
  have hcode : Block.headerSize + (code.getD .empty).size ≤ (p.block c.blocks.size).size := by
    rw [hblock]
    refine Nat.le_trans (Nat.add_le_add_left ?_ _) hlen
    cases code with
    | none => exact Nat.zero_le _
    | some bs => exact Nat.le_refl _
  refine ⟨hsound, hzero, fun {i} hi => ?_⟩
  rw [ring_publish] at hi
  have hwrite : Tagged { p with arena } i := by
    refine Tagged.write hp.sound.ringed hmem ?_ hcode hi (hp.tagged hi)
    rw [hblock]
    exact hw
  exact Tagged.publish hringed hmem (fun old hl => hp.mem_ring hl) t.exits hi hwrite

end Headed

theorem walkFrom_of_tagged {ids : List BlockId} {first next : Nat} (hcap : c.capacity ≤ 2 ^ 32)
    (hpos : 0 < c.capacity) (hchain : Chained c.capacity (ids.map c.span) first next)
    (htag : ∀ id ∈ ids, Tagged c id) : c.walkFrom ids.length first
      = ids.map fun id => ((c.block id).offset, (c.block id).origin) := by
  induction ids generalizing first with
  | nil => rfl
  | cons id ids ih =>
    obtain ⟨rfl, hrest⟩ := hchain
    have hhead := htag id (.head _)
    unfold Tagged at hhead
    have hlt : ((c.block id).offset + (c.block id).size) % c.capacity < 2 ^ 32 :=
      Nat.lt_of_lt_of_le (Nat.mod_lt _ hpos) hcap
    have hnext : (UInt32.ofNat (((c.block id).offset + (c.block id).size) % c.capacity)).toNat
        = ((c.block id).offset + (c.block id).size) % c.capacity := UInt32.toNat_ofNat_of_lt hlt
    rw [List.length_cons, walkFrom, hhead, List.map_cons, hnext,
      ih hrest fun i hi => htag i (.tail _ hi)]

theorem Headed.walk (h : Headed c) (hcap : c.capacity ≤ 2 ^ 32) :
    c.walk = c.ring.map fun id => ((c.block id).offset, (c.block id).origin) := by
  cases hr : c.ring with
  | nil => simp [CodeCache.walk, hr, walkFrom]
  | cons id rest =>
    have hpos : 0 < c.capacity := by
      have hin := h.sound.ringed.within (show id ∈ c.ring by simp [hr])
      simp only [Block.headerSize] at hin
      omega
    rw [← hr]
    exact walkFrom_of_tagged hcap hpos h.sound.ringed.laid.chained fun _ => h.tagged

/-- The blocks of the ring, oldest first, share no byte, and each starts where the one before it
ends, from `first` to `next`. -/
structure Geometry (c : CodeCache) : Prop where
  inside : ∀ x ∈ c.spans, Block.headerSize ≤ x.2 ∧ x.1 + x.2 ≤ c.capacity
  apart : c.spans.Pairwise Apart
  chained : Chained c.capacity c.spans c.first c.next
  used : c.used = (c.spans.map (·.2)).sum
  available : 0 ≤ c.bytesAvailable ∧ c.used + c.bytesAvailable = c.capacity
  full : c.ring ≠ [] → c.next = c.first → c.used = c.capacity

theorem Ringed.geometry (h : Ringed c) : Geometry c where
  inside x hx := (h.laid.within hx).symm
  apart := h.laid.pairwise
  chained := h.laid.chained
  used := h.used
  available := by
    have hle := h.laid.sum_le
    rw [← h.used] at hle
    simp only [bytesAvailable]
    omega
  full hne he := by
    rw [h.used]
    exact h.laid.full (by simpa [spans] using hne) he

/-- Room for a program of `n` bytes is refused if the arena is too small; else the oldest blocks
go until there is room, and no other block lies there. -/
def MakesRoom (c : CodeCache) (n : Int64) : Prop :=
  let size := (n.toInt + Block.headerSize + 15) / 16 * 16
  (c.capacity < size ∧ c.reserve n = (.error (.tooLarge n.toInt), c)) ∨
  (size ≤ c.capacity ∧ ∃ off d, c.reserve n = (.ok off, d) ∧ d.ring <:+ c.ring ∧
    d.spans <:+ c.spans ∧ off + size.toNat ≤ c.capacity ∧
    ∀ x ∈ d.spans, Apart x (off, size.toNat))

theorem Evicted.spans (h : Evicted c d) : d.spans <:+ c.spans := by
  obtain ⟨gone, hring⟩ := h.ring
  refine ⟨gone.map c.span, ?_⟩
  have hspan : d.ring.map d.span = d.ring.map c.span :=
    List.map_congr_left fun i hi => Block.span_of_frame (Block.frame_of_bare (h.block hi))
  rw [CodeCache.spans, CodeCache.spans, ← hring, List.map_append, hspan]

theorem wordSize_eq {n : Int64} (hn : n.toInt + 31 < 2 ^ 63) :
    wordSize n = (n.toInt + Block.headerSize + 15) / 16 * 16 := by
  have hmin := n.le_toInt
  have h16 : (Int64.ofNat Block.headerSize).toInt = 16 := by decide
  have h15 : (15 : Int64).toInt = 15 := by decide
  have hwrap {x : Int} (h1 : -2 ^ 63 ≤ x) (h2 : x < 2 ^ 63) : x.bmod (2 ^ 64) = x :=
    Int.bmod_eq_of_le_mul_two (by omega) (by omega)
  have hsum : (n + .ofNat Block.headerSize + 15).toInt = n.toInt + Block.headerSize + 15 := by
    rw [Int64.toInt_add, Int64.toInt_add, h16, h15, hwrap (x := n.toInt + 16) (by omega) (by omega),
      hwrap (by omega) (by omega)]
    rfl
  rw [wordSize, hsum]

theorem Sound.makesRoom (h : Sound c) {n : Int64} (hn : n.toInt + 31 < 2 ^ 63) :
    MakesRoom c n := by
  unfold MakesRoom reserve
  rw [wordSize_eq hn]
  generalize (n.toInt + Block.headerSize + 15) / 16 * 16 = size
  rcases h.allocate n.toInt size with ⟨hlt, he⟩ | ⟨hle, off, d, he, hfit, hd, hcd⟩
  · exact .inl ⟨hlt, he⟩
  · obtain ⟨hin, hfree⟩ := hd.ringed.fit hfit
    exact .inr ⟨hle, off, d, he, hcd.ring, hcd.spans, hcd.capacity ▸ hin, hfree⟩

end CodeCache

namespace Session

open CodeCache

variable {s : Session}

theorem headed_step (h : Headed s.cache) {op : CacheOp} (hop : ∀ t code, op ≠ .insert 0 t code) :
    ∃ s', s.step op = .ok s' ∧ Headed s'.cache := by
  obtain ⟨s', hstep, ⟨hch, -⟩ | ⟨pc, t, code, rfl, hins, -⟩⟩ := step_cases h.sound op
  · exact ⟨s', hstep, h.change hch⟩
  · refine ⟨s', hstep, h.inserts hins ?_⟩
    rintro rfl
    exact hop t code rfl

theorem headed_start (size : Nat) (maxPages maxCells : Int) :
    Headed (start size maxPages maxCells).cache := by
  refine ⟨sound_create size maxPages maxCells, fun id => ?_, fun hi => by cases hi⟩
  simp [start, create, lookup]

theorem capacity_step {size : Nat} (h : Sound s.cache ∧ s.cache.capacity = size) (op : CacheOp) :
    ∃ s', s.step op = .ok s' ∧ Sound s'.cache ∧ s'.cache.capacity = size := by
  obtain ⟨s', hstep, ⟨hch, -⟩ | ⟨pc, t, code, -, hins, -⟩⟩ := step_cases h.1 op
  · exact ⟨s', hstep, hch.sound h.1, hch.dwindles.capacity.trans h.2⟩
  · obtain ⟨d, -, hdw, -, -, -, -, hc⟩ := hins.cases
    have hcap : s'.cache.capacity = d.capacity := capacity_of_frame (hc ▸ frame_publish ..)
    exact ⟨s', hstep, hins.sound, hcap.trans (hdw.capacity.trans h.2)⟩

/-- Whatever is done with a cache, the ring keeps its geometry, and a reservation makes room by
evicting the oldest blocks only. The headers lead through the ring if the offsets of the arena
are words and nothing was inserted at address zero. -/
theorem ring_geometry_of_run (size : Nat) (maxPages maxCells : Int) (ops : List CacheOp) :
    ∃ s, (start size maxPages maxCells).run ops = .ok s ∧ s.cache.capacity = size ∧
      Geometry s.cache ∧ (∀ n : Int64, n.toInt + 31 < 2 ^ 63 → MakesRoom s.cache n) ∧
      (size ≤ 2 ^ 32 → (∀ t code, .insert 0 t code ∉ ops) → s.cache.walk
        = s.cache.ring.map fun id => ((s.cache.block id).offset, (s.cache.block id).origin)) := by
  obtain ⟨s, hrun, hsound, hcap⟩ :=
    run_of_every_step (P := fun s => Sound s.cache ∧ s.cache.capacity = size)
      (fun _ op hs => capacity_step hs op) (s := start size maxPages maxCells)
      ⟨sound_create size maxPages maxCells, rfl⟩ ops
  refine ⟨s, hrun, hcap, hsound.ringed.geometry, fun n hn => hsound.makesRoom hn,
    fun hsize hops => ?_⟩
  have hadmits : Admits (fun _ op => ∀ t code, op ≠ .insert 0 t code)
      (start size maxPages maxCells) ops := by
    refine admits_of_forall (fun op hop t code => ?_) _
    rintro rfl
    exact hops t code hop
  obtain ⟨s', hrun', hheaded⟩ := run_of_step (P := fun s => Headed s.cache)
    (fun _ _ hs hop => headed_step hs hop) (headed_start size maxPages maxCells) hadmits
  obtain rfl : s' = s := Except.ok.inj (hrun'.symm.trans hrun)
  exact hheaded.walk (hcap ▸ hsize)

end Session

end Recompiler
