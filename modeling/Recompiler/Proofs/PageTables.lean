import Recompiler.Proofs.CellSessions

/-!
The tables of the map. A bit tells for each page whether it has a table, and is written whenever
a table is put in or released. Every operation on a cache comes to a sequence of such writes,
also those that are made in the middle of an insertion. Each of them keeps the bits and the
counts of live slots right and the number of tables within the limit, and none makes an address
unknown again.
-/

namespace Recompiler

open Ir Emit

/-- The pages of the map, and those whose bit is set. -/
structure PageTables where
  pages : Std.HashMap UInt32 Page
  bits : Finset UInt32

namespace PageTables

open CodeCache

def lookup (o : PageTables) (pc : UInt32) : Mapping :=
  match o.pages[pageOf pc]? with
  | none => .notCompiled
  | some p => p.mapping (slotOf pc)

/-- One write to the pages and their bits. -/
inductive Turn (limit : Nat) : PageTables → PageTables → Prop
  /-- A page gets a table for its first block. If it had one before, its addresses are known. -/
  | grow {o : PageTables} (pc : UInt32) (id : BlockId) (m : Mapping)
      (hp : o.pages[pageOf pc]? = none ∧ m = .notCompiled ∨
        o.pages[pageOf pc]? = some .released ∧ m = .invalidated)
      (hroom : o.bits.card < limit) :
      Turn limit o ⟨o.pages.insert (pageOf pc)
        (.table 1 ((Vector.replicate 1024 m).put (slotOf pc) (.live id))),
        insert (pageOf pc) o.bits⟩
  /-- A block is put into a table, maybe in the place of another one. -/
  | fill {o : PageTables} (pc : UInt32) (id : BlockId) {live : Int} {slots : Vector Mapping 1024}
      (hp : o.pages[pageOf pc]? = some (.table live slots)) :
      Turn limit o ⟨o.pages.insert (pageOf pc)
        (.table (if (slots.get (slotOf pc)).block?.isSome then live else live + 1)
          (slots.put (slotOf pc) (.live id))), o.bits⟩
  /-- A block is evicted. -/
  | drop {o : PageTables} (pc : UInt32) {id : BlockId} {live : Int} {slots : Vector Mapping 1024}
      (hp : o.pages[pageOf pc]? = some (.table live slots))
      (hs : slots.get (slotOf pc) = .live id) :
      Turn limit o ⟨o.pages.insert (pageOf pc) (.without live slots (slotOf pc)),
        if live - 1 = 0 then o.bits.erase (pageOf pc) else o.bits⟩
  /-- A page is invalidated. -/
  | clear {o : PageTables} {page : UInt32} {live : Int} {slots : Vector Mapping 1024}
      (hp : o.pages[page]? = some (.table live slots)) :
      Turn limit o ⟨o.pages.insert page .released, o.bits.erase page⟩

/-- The bits and the counts of live slots are right, no table is empty, and there are not too many
tables. -/
structure Accounted (limit : Nat) (o : PageTables) : Prop where
  bits {page : UInt32} : page ∈ o.bits ↔ ∃ live slots, o.pages[page]? = some (.table live slots)
  counted {page : UInt32} {live : Int} {slots : Vector Mapping 1024} :
    o.pages[page]? = some (.table live slots) → live = liveCount slots ∧ 0 < live
  range {page : UInt32} {p : Page} : o.pages[page]? = some p → page.toNat < 1048576
  limit : o.bits.card ≤ limit

variable {limit : Nat} {o o' : PageTables} {page pc : UInt32} {p : Page}

theorem lookup_write (o : PageTables) (page : UInt32) (p : Page) (bits : Finset UInt32)
    (pc : UInt32) : lookup ⟨o.pages.insert page p, bits⟩ pc =
      if pageOf pc = page then p.mapping (slotOf pc) else o.lookup pc := by
  simp only [lookup, Std.HashMap.getElem?_insert, beq_iff_eq]
  by_cases hp : pageOf pc = page
  · rw [if_pos hp, if_pos hp.symm]
  · rw [if_neg hp, if_neg (Ne.symm hp)]

def mark (bits : Finset UInt32) (page : UInt32) (p : Page) : Finset UInt32 :=
  if p.isTable then insert page bits else bits.erase page

theorem mem_mark {pages : Std.HashMap UInt32 Page} {bits : Finset UInt32} {page' : UInt32}
    (h : page' ∈ bits ↔ ∃ live slots, pages[page']? = some (.table live slots)) (page : UInt32)
    (p : Page) : page' ∈ mark bits page p ↔
      ∃ live slots, (pages.insert page p)[page']? = some (.table live slots) := by
  unfold mark
  rw [Std.HashMap.getElem?_insert]
  by_cases he : page = page'
  · subst he
    cases p with
    | released => simp [Page.isTable]
    | table live slots => simp [Page.isTable]
  · simp only [beq_iff_eq, he, if_false]
    rw [← h]
    split
    · simp [Ne.symm he]
    · simp [Ne.symm he]

theorem mark_of_mem {bits : Finset UInt32} (h : page ∈ bits) {live : Int}
    {slots : Vector Mapping 1024} : mark bits page (.table live slots) = bits :=
  Finset.insert_eq_of_mem h

theorem mark_without {bits : Finset UInt32} (h : page ∈ bits) (live : Int)
    (slots : Vector Mapping 1024) (k : Fin 1024) : mark bits page (.without live slots k) =
      if live - 1 = 0 then bits.erase page else bits := by
  unfold Page.without
  split
  · rfl
  · exact mark_of_mem h

namespace Accounted

theorem write (h : Accounted limit o) {bits : Finset UInt32} (hr : page.toNat < 1048576)
    (hp : ∀ live slots, p = .table live slots → live = liveCount slots ∧ 0 < live)
    (hb : bits = mark o.bits page p) (hl : bits.card ≤ limit) :
    Accounted limit ⟨o.pages.insert page p, bits⟩ where
  bits := by
    rw [hb]
    exact mem_mark h.bits page p
  counted {page' live slots} hg := by
    rw [Std.HashMap.getElem?_insert] at hg
    split at hg
    · exact hp _ _ (Option.some.inj hg)
    · exact h.counted hg
  range {page' p'} hg := by
    rw [Std.HashMap.getElem?_insert] at hg
    split at hg
    · rename_i he
      rw [← beq_iff_eq.mp he]
      exact hr
    · exact h.range hg
  limit := hl

theorem turn (h : Accounted limit o) (ht : Turn limit o o') : Accounted limit o' := by
  cases ht with
  | grow pc id m hp hroom =>
    have hm : m.block? = none := by
      obtain ⟨-, rfl⟩ | ⟨-, rfl⟩ := hp
      · rfl
      · rfl
    apply h.write (pageOf_lt pc)
    · intro live slots ht
      obtain ⟨rfl, rfl⟩ := Page.table.inj ht
      have hget : (Vector.replicate 1024 m).get (slotOf pc) = m := by simp
      rw [liveCount_put, liveCount_replicate hm, hget, hm]
      exact ⟨rfl, Int.one_pos⟩
    · rfl
    · exact (Finset.card_insert_le _ _).trans hroom
  | fill pc id hp =>
    obtain ⟨hcount, hpos⟩ := h.counted hp
    apply h.write (pageOf_lt pc)
    · intro live slots ht
      obtain ⟨rfl, rfl⟩ := Page.table.inj ht
      rw [liveCount_put]
      split
      · rename_i hlive
        have hlt := liveCount_pos _ _ hlive
        simp
        omega
      · simp
        omega
    · exact (mark_of_mem (h.bits.mpr ⟨_, _, hp⟩)).symm
    · exact h.limit
  | @drop pc id live slots hp hs =>
    obtain ⟨hcount, hpos⟩ := h.counted hp
    apply h.write (pageOf_lt pc)
    · intro live' slots' ht
      unfold Page.without at ht
      split at ht
      · cases ht
      · rename_i hne
        obtain ⟨rfl, rfl⟩ := Page.table.inj ht
        rw [liveCount_put, hs]
        simp
        omega
    · exact (mark_without (h.bits.mpr ⟨_, _, hp⟩) ..).symm
    · split
      · exact Finset.card_erase_le.trans h.limit
      · exact h.limit
  | clear hp =>
    apply h.write (h.range hp)
    · intro live slots ht
      cases ht
    · rfl
    · exact Finset.card_erase_le.trans h.limit

theorem empty (limit : Nat) : Accounted limit ⟨∅, ∅⟩ := by
  refine ⟨?_, ?_, ?_, Nat.zero_le _⟩
  · simp
  · simp
  · simp

theorem run (h : Accounted limit o) (ht : Relation.ReflTransGen (Turn limit) o o') :
    Accounted limit o' := by
  induction ht with
  | refl => exact h
  | tail _ ht ih => exact ih.turn ht

/-- The pages whose bit is set are those in which an address is live. -/
theorem bits_eq (h : Accounted limit o) :
    {page | ∃ pc id, pageOf pc = page ∧ o.lookup pc = .live id} = (o.bits : Set UInt32) := by
  ext page
  rw [Set.mem_ofPred_eq, Finset.mem_coe, h.bits]
  constructor
  · rintro ⟨pc, id, rfl, hl⟩
    unfold PageTables.lookup at hl
    cases hp : o.pages[pageOf pc]? with
    | none =>
      rw [hp] at hl
      cases hl
    | some p =>
      rw [hp] at hl
      cases p with
      | released => cases hl
      | table live slots => exact ⟨live, slots, rfl⟩
  · rintro ⟨live, slots, hp⟩
    obtain ⟨hcount, hpos⟩ := h.counted hp
    have hlive : 0 < liveCount slots := by omega
    obtain ⟨m, hm, hlive⟩ := Vector.countP_pos_iff.mp hlive
    obtain ⟨k, hk, rfl⟩ := Vector.getElem_of_mem hm
    obtain ⟨id, hid⟩ := Option.isSome_iff_exists.mp hlive
    obtain ⟨pc, rfl, hpc⟩ := exists_addr (h.range hp) ⟨k, hk⟩
    refine ⟨pc, id, rfl, ?_⟩
    unfold PageTables.lookup
    rw [hp, ← Mapping.block?_eq_some]
    change (slots.get (slotOf pc)).block? = _
    rw [hpc]
    exact hid

theorem ncard_eq (h : Accounted limit o) :
    {page | ∃ pc id, pageOf pc = page ∧ o.lookup pc = .live id}.ncard = o.bits.card := by
  rw [h.bits_eq, Set.ncard_coe_finset]

end Accounted

theorem known_put {slots : Vector Mapping 1024} {k k' : Fin 1024} {m : Mapping}
    (hm : m ≠ .notCompiled) (hs : slots.get k' ≠ .notCompiled) :
    (slots.put k m).get k' ≠ .notCompiled := by
  by_cases hk : k = k'
  · rw [hk, Vector.get_put_self]
    exact hm
  · rw [Vector.get_put_of_ne _ _ hk]
    exact hs

theorem known_without {slots : Vector Mapping 1024} {live : Int} {k k' : Fin 1024}
    (hs : slots.get k' ≠ .notCompiled) : (Page.without live slots k).mapping k' ≠ .notCompiled := by
  unfold Page.without
  split
  · exact Mapping.noConfusion
  · exact known_put Mapping.noConfusion hs

theorem known_write {bits : Finset UInt32} (hk : o.lookup pc ≠ .notCompiled)
    (hp : pageOf pc = page → p.mapping (slotOf pc) ≠ .notCompiled) :
    lookup ⟨o.pages.insert page p, bits⟩ pc ≠ .notCompiled := by
  rw [lookup_write]
  split
  · rename_i he
    exact hp he
  · exact hk

theorem Turn.known (h : Turn limit o o') (hk : o.lookup pc ≠ .notCompiled) :
    o'.lookup pc ≠ .notCompiled := by
  have hpage {p : Page} (hp : o.pages[pageOf pc]? = some p) :
      p.mapping (slotOf pc) ≠ .notCompiled := by
    unfold PageTables.lookup at hk
    rwa [hp] at hk
  have hnone : o.pages[pageOf pc]? ≠ none := by
    intro hp
    unfold PageTables.lookup at hk
    rw [hp] at hk
    exact hk rfl
  cases h with
  | grow pc' id m hp hroom =>
    apply known_write hk
    intro he
    rw [← he] at hp
    obtain ⟨hp, -⟩ | ⟨-, rfl⟩ := hp
    · exact absurd hp hnone
    · apply known_put Mapping.noConfusion
      simp
  | @fill pc' id live slots hp =>
    apply known_write hk
    intro he
    exact known_put Mapping.noConfusion (hpage (p := .table live slots) (he ▸ hp))
  | @drop pc' id live slots hp hs =>
    apply known_write hk
    intro he
    exact known_without (hpage (p := .table live slots) (he ▸ hp))
  | clear hp =>
    apply known_write hk
    intro he
    exact Mapping.noConfusion

theorem known_of_run (h : Relation.ReflTransGen (Turn limit) o o')
    (hk : o.lookup pc ≠ .notCompiled ∨ o.pages[pageOf pc]? = some .released) :
    o'.lookup pc ≠ .notCompiled := by
  have hk : o.lookup pc ≠ .notCompiled := by
    obtain hk | hp := hk
    · exact hk
    · unfold lookup
      rw [hp]
      exact Mapping.noConfusion
  induction h with
  | refl => exact hk
  | tail _ ht ih => exact ht.known ih

end PageTables

namespace CodeCache

open PageTables

variable {c d e : CodeCache} {id : BlockId} {pc page : UInt32}

/-- The pages of a cache, with the bits of those that have tables. -/
def outer (c : CodeCache) : PageTables := ⟨c.pages, c.tables.toFinset⟩

theorem mem_outer : page ∈ c.outer.bits ↔ page ∈ c.occupied :=
  List.mem_toFinset.trans Std.TreeSet.mem_toList

theorem card_outer (c : CodeCache) : c.outer.bits.card = c.tables.length := by
  refine List.toFinset_card_of_nodup ?_
  exact Std.TreeSet.distinct_toList.imp fun h he => h (Std.LawfulEqCmp.compare_eq_iff_eq.mpr he)

theorem outer_create (arena : Arena) (maxPages maxCells : Int) :
    (create arena maxPages maxCells).outer = ⟨∅, ∅⟩ := by
  have hnil : (∅ : Std.TreeSet UInt32).toList = [] := rfl
  simp [outer, tables, create, hnil]

theorem outer_of_pages (hp : d.pages = c.pages) (ho : d.occupied = c.occupied) :
    d.outer = c.outer := by
  unfold outer tables
  rw [hp, ho]

theorem outer_insert {p : Page} (hp : d.pages = c.pages.insert page p)
    (ho : d.occupied = c.occupied.insert page) :
    d.outer = ⟨c.pages.insert page p, Insert.insert page c.outer.bits⟩ := by
  have hbits : d.outer.bits = Insert.insert page c.outer.bits := by
    ext page'
    rw [Finset.mem_insert, mem_outer, mem_outer, ho, Std.TreeSet.mem_insert,
      Std.LawfulEqCmp.compare_eq_iff_eq, eq_comm]
  rw [← hbits, ← hp]
  rfl

theorem outer_erase {p : Page} (hp : d.pages = c.pages.insert page p)
    (ho : d.occupied = c.occupied.erase page) :
    d.outer = ⟨c.pages.insert page p, c.outer.bits.erase page⟩ := by
  have hbits : d.outer.bits = c.outer.bits.erase page := by
    ext page'
    rw [Finset.mem_erase, mem_outer, mem_outer, ho, Std.TreeSet.mem_erase, ne_eq,
      Std.LawfulEqCmp.compare_eq_iff_eq, eq_comm]
  rw [← hbits, ← hp]
  rfl

theorem outer_write {p : Page} (hp : d.pages = c.pages.insert page p)
    (ho : d.occupied = c.occupied) : d.outer = ⟨c.pages.insert page p, c.outer.bits⟩ := by
  have hbits : d.outer.bits = c.outer.bits := by
    ext page'
    rw [mem_outer, mem_outer, ho]
  rw [← hbits, ← hp]
  rfl

theorem outer_drop {p : Page} {last : Prop} [Decidable last]
    (hp : d.pages = c.pages.insert page p)
    (ho : d.occupied = if last then c.occupied.erase page else c.occupied) :
    d.outer = ⟨c.pages.insert page p,
      if last then c.outer.bits.erase page else c.outer.bits⟩ := by
  by_cases hlast : last
  · rw [if_pos hlast] at ho ⊢
    exact outer_erase hp ho
  · rw [if_neg hlast] at ho ⊢
    exact outer_write hp ho

/-- The bits are right: they are set where there are tables. -/
theorem mem_tables {limit : Nat} (h : Accounted limit c.outer) :
    page ∈ c.tables ↔ ∃ live slots, c.pages[page]? = some (.table live slots) :=
  List.mem_toFinset.symm.trans h.bits

theorem mem_tables_of_live {limit : Nat} {pc : UInt32} {id : BlockId}
    (h : Accounted limit c.outer) (hl : c.lookup pc = .live id) : pageOf pc ∈ c.tables := by
  rw [mem_tables h]
  unfold CodeCache.lookup at hl
  cases hp : c.pages[pageOf pc]? with
  | none =>
    rw [hp] at hl
    cases hl
  | some p =>
    rw [hp] at hl
    cases p with
    | released => cases hl
    | table live slots => exact ⟨live, slots, rfl⟩

theorem hasTable_iff :
    c.hasTable page = true ↔ ∃ live slots, c.pages[page]? = some (.table live slots) := by
  unfold hasTable
  cases c.pages[page]? with
  | none => simp
  | some p => cases p <;> simp [Page.isTable]

/-- An operation that puts no block into the map: its writes only take bits away. -/
structure Sheds (c d : CodeCache) : Prop where
  turns : Relation.ReflTransGen (Turn c.maxPages) c.outer d.outer
  maxPages : d.maxPages = c.maxPages
  bits : d.outer.bits ⊆ c.outer.bits

namespace Sheds

theorem refl (c : CodeCache) : Sheds c c := ⟨.refl, rfl, Finset.Subset.refl _⟩

theorem trans (h : Sheds c d) (h' : Sheds d e) : Sheds c e where
  turns := h.turns.trans (h.maxPages ▸ h'.turns)
  maxPages := h'.maxPages.trans h.maxPages
  bits := h'.bits.trans h.bits

theorem of_pages (hp : d.pages = c.pages) (ho : d.occupied = c.occupied)
    (hm : d.maxPages = c.maxPages) : Sheds c d := by
  have he := outer_of_pages hp ho
  exact ⟨he ▸ .refl, hm, he ▸ Finset.Subset.refl _⟩

theorem of_bare (h : d.bare = c.bare) : Sheds c d := by
  have hm := congrArg CodeCache.maxPages h
  exact of_pages (pages_of_bare h) (occupied_of_bare h) hm

theorem of_turn (ht : Turn c.maxPages c.outer d.outer) (hm : d.maxPages = c.maxPages)
    (hb : d.outer.bits ⊆ c.outer.bits) : Sheds c d := ⟨.single ht, hm, hb⟩

theorem retire (h : c.retire id = .ok d) : Sheds c d := by
  unfold CodeCache.retire at h
  dsimp only at h
  split at h
  · cases h
    exact .refl c
  · split at h
    · rename_i live slots hp
      split at h
      · cases h
      · rename_i hs
        have hd := Except.ok.inj h
        generalize (c.block id).origin = pc at *
        have hpages : d.pages = c.pages.insert (pageOf pc) (.without live slots (slotOf pc)) := by
          rw [← hd]
          rfl
        have hocc : d.occupied
            = if live - 1 = 0 then c.occupied.erase (pageOf pc) else c.occupied := by
          rw [← hd]
          rfl
        have he := outer_drop hpages hocc
        have hm : d.maxPages = c.maxPages := by
          rw [← hd]
          rfl
        refine of_turn (he ▸ .drop pc hp (not_not.mp hs)) hm ?_
        rw [he]
        dsimp only
        split
        · exact Finset.erase_subset _ _
        · exact Finset.Subset.refl _
    · cases h

theorem evict (h : c.evict = .ok d) : Sheds c d := by
  unfold CodeCache.evict at h
  split at h
  · cases h
    exact .refl c
  · rename_i id rest hr
    split at h
    · rename_i e he
      cases h
      have hring : Sheds c { c with ring := rest } := of_pages rfl rfl rfl
      have hlast : Sheds e (e.release id).settle := by
        apply of_pages
        · rw [pages_settle, pages_release]
        · rw [settle_eq]
          exact occupied_release e id
        · rw [settle_eq]
          have hm := congrArg CodeCache.maxPages (frame_release e id)
          exact hm
      exact (hring.trans (retire he)).trans hlast
    · cases h

theorem makeRoom {size : Int} {n : Nat} {r : Except CodeCacheError Nat}
    (h : CodeCache.makeRoom size n c = (r, d)) : Sheds c d := by
  induction n generalizing c with
  | zero =>
    unfold CodeCache.makeRoom at h
    split at h
    · cases h
      exact .refl _
    · cases h
      exact .refl _
  | succ n ih =>
    unfold CodeCache.makeRoom at h
    split at h
    · cases h
      exact .refl _
    · dsimp only at h
      split at h
      · rename_i e he
        exact (evict he).trans (ih h)
      · cases h
        exact .refl _

theorem allocate {n size : Int} {r : Except CodeCacheError Nat}
    (h : c.allocate n size = (r, d)) : Sheds c d := by
  unfold CodeCache.allocate at h
  split at h
  · cases h
    exact .refl _
  · exact makeRoom h

theorem evictMany {n : Nat} (h : CodeCache.evictMany n c = .ok d) : Sheds c d := by
  induction n generalizing c with
  | zero =>
    cases h
    exact .refl _
  | succ n ih =>
    unfold CodeCache.evictMany at h
    split at h
    · rename_i e he
      exact (evict he).trans (ih h)
    · cases h

theorem invalidatePage (c : CodeCache) (page : UInt32) : Sheds c (c.invalidatePage page).2 := by
  obtain ⟨live, slots, hp⟩ | ⟨he, -⟩ := invalidatePage_cases c page
  · have hm := congrArg CodeCache.maxPages (frame_invalidatePage c page)
    have he := outer_erase (pages_invalidatePage hp) (occupied_invalidatePage hp)
    exact of_turn (he ▸ .clear hp) hm (he ▸ Finset.erase_subset _ _)
  · rw [he]
    exact .refl c

theorem invalidateAll (c : CodeCache) : Sheds c c.invalidateAll :=
  List.foldlRecOn _ _ (.refl c) fun d hd page _ => hd.trans (invalidatePage d page)

end Sheds

theorem maxPages_push (c : CodeCache) (b : Block) : (c.push b).maxPages = c.maxPages := by
  obtain ⟨_, -, hpush⟩ := push_eq c b
  obtain ⟨_, _, _, _, _, _, _, he⟩ := absorbTail_eq c b.offset
  rw [hpush, he]

theorem Sheds.push (h : Sheds c d) (b : Block) : Sheds c (d.push b) :=
  h.trans (.of_pages (pages_push d b) (occupied_push d b) (maxPages_push d b))

/-- An address that has passed the check finds a table, or room for one, whatever has been evicted
since. -/
theorem room_of_check (h : c.check pc = .ok ()) (ha : Accounted c.maxPages c.outer)
    (hs : Sheds c d) : pageOf pc ∈ d.outer.bits ∨ d.outer.bits.card < c.maxPages := by
  unfold check at h
  split at h
  · cases h
  · split at h
    · rename_i htable
      by_cases hd : pageOf pc ∈ d.outer.bits
      · exact .inl hd
      · -- The table of the page was among those that were released.
        right
        have hc : pageOf pc ∈ c.outer.bits := ha.bits.mpr (hasTable_iff.mp htable)
        have hlt : d.outer.bits.card < c.outer.bits.card :=
          Finset.card_lt_card ⟨hs.bits, fun hsub => hd (hsub hc)⟩
        exact hlt.trans_le ha.limit
    · split at h
      · cases h
      · rename_i hroom
        right
        rw [← card_outer] at hroom
        exact (Finset.card_le_card hs.bits).trans_lt (not_le.mp hroom)

/-- A block is put into the map. -/
theorem turn_place {limit : Nat} (ha : Accounted limit c.outer)
    (hroom : pageOf pc ∈ c.outer.bits ∨ c.outer.bits.card < limit)
    (hd : d.pages = (c.place pc id).pages) (ho : d.occupied = (c.place pc id).occupied) :
    Turn limit c.outer d.outer := by
  unfold place tableAt CodeCache.lookup at hd
  have hocc : d.occupied = if c.hasTable (pageOf pc) then c.occupied
      else c.occupied.insert (pageOf pc) := ho
  by_cases htable : c.hasTable (pageOf pc) = true
  · obtain ⟨live, slots, hp⟩ := hasTable_iff.mp htable
    rw [if_pos htable] at hocc
    rw [hp] at hd
    rw [outer_write hd hocc]
    exact .fill pc id hp
  · have hnone : ¬∃ live slots, c.pages[pageOf pc]? = some (.table live slots) :=
      fun ht => htable (hasTable_iff.mpr ht)
    have hcard := hroom.resolve_left fun hbit => hnone (ha.bits.mp hbit)
    rw [if_neg htable] at hocc
    cases hp : c.pages[pageOf pc]? with
    | none =>
      rw [hp] at hd
      rw [outer_insert hd hocc]
      exact .grow pc id .notCompiled (.inl ⟨hp, rfl⟩) hcard
    | some p =>
      rw [hp] at hd
      cases p with
      | released =>
        rw [outer_insert hd hocc]
        exact .grow pc id .invalidated (.inr ⟨hp, rfl⟩) hcard
      | table live slots => exact absurd ⟨live, slots, hp⟩ hnone

theorem Sheds.publish (h : Sheds c d) (hcheck : c.check pc = .ok ())
    (ha : Accounted c.maxPages c.outer) (arena : Arena) (id : BlockId) (exits : List Exit) :
    Relation.ReflTransGen (Turn c.maxPages) c.outer
        (({ d with arena } : CodeCache).publish pc id exits).outer ∧
      (({ d with arena } : CodeCache).publish pc id exits).maxPages = c.maxPages := by
  have hd : Sheds c { d with arena } := h.trans (.of_pages rfl rfl rfl)
  have hplace := turn_place (ha.run hd.turns) (room_of_check hcheck ha hd)
    (pages_publish _ pc id exits) (occupied_publish _ pc id exits)
  have hm := congrArg CodeCache.maxPages (frame_publish { d with arena } pc id exits)
  exact ⟨hd.turns.tail hplace, hm.trans hd.maxPages⟩

/-- An insertion writes to the pages what it evicts, and then the block that it puts in. -/
theorem insert_turns (ha : Accounted c.maxPages c.outer) (pc : UInt32) (t : TraceProgram)
    (code : Option ByteArray) :
    Relation.ReflTransGen (Turn c.maxPages) c.outer (c.insert pc t code).2.outer ∧
      (c.insert pc t code).2.maxPages = c.maxPages := by
  have hfree (d : CodeCache) (h : Sheds c d) (ns : List Nat) :
      Relation.ReflTransGen (Turn c.maxPages) c.outer (d.freeCells ns).outer ∧
        (d.freeCells ns).maxPages = c.maxPages := by
    have hd := h.trans (.of_bare (bare_freeCells d ns))
    exact ⟨hd.turns, hd.maxPages⟩
  unfold CodeCache.insert
  dsimp only
  cases hcheck : c.check pc with
  | error err => exact hfree c (.refl c) _
  | ok u =>
    cases hall : c.allocate (codeSize t code) (align (Block.headerSize + codeSize t code)) with
    | mk r d =>
      have hd := Sheds.allocate hall
      cases r with
      | error err => exact hfree d hd _
      | ok off =>
        dsimp only
        split
        · exact hfree _ (hd.push _) _
        · exact (hd.push _).publish hcheck ha _ _ _

end CodeCache

namespace Session

open CodeCache PageTables

/-- What has been written to the pages since the cache was new. -/
structure Ledger (limit : Nat) (s : Session) : Prop where
  sound : Sound s.cache
  accounted : Accounted limit s.cache.outer
  maxPages : s.cache.maxPages = limit

/-- The writes of an operation that succeeds. -/
theorem turns_of_step {s s' : Session} {op : CacheOp}
    (ha : Accounted s.cache.maxPages s.cache.outer) (h : s.step op = .ok s') :
    Relation.ReflTransGen (Turn s.cache.maxPages) s.cache.outer s'.cache.outer ∧
      s'.cache.maxPages = s.cache.maxPages := by
  have hsheds (hd : Sheds s.cache s'.cache) :
      Relation.ReflTransGen (Turn s.cache.maxPages) s.cache.outer s'.cache.outer ∧
        s'.cache.maxPages = s.cache.maxPages := ⟨hd.turns, hd.maxPages⟩
  cases op with
  | allocCell =>
    cases h
    apply hsheds
    change Sheds s.cache s.cache.allocCell.2
    unfold CodeCache.allocCell
    split
    · exact .refl _
    · exact .of_pages rfl rfl rfl
  | insert pc t code =>
    rw [(step_insert h).1]
    exact insert_turns ha pc t code
  | reserve n =>
    apply hsheds
    rw [(proceed_ok h).1]
    exact .allocate rfl
  | evict =>
    apply hsheds
    rw [step] at h
    cases he : s.cache.evict with
    | error err =>
      rw [he] at h
      cases h
    | ok d =>
      rw [he] at h
      cases h
      exact .evict he
  | flush =>
    apply hsheds
    rw [step] at h
    cases he : s.cache.flush with
    | error err =>
      rw [he] at h
      cases h
    | ok d =>
      rw [he] at h
      cases h
      exact .evictMany he
  | invalidatePage page =>
    cases h
    exact hsheds (.invalidatePage ..)
  | invalidateAll =>
    cases h
    exact hsheds (.invalidateAll _)
  | refuse reason =>
    cases h
    exact hsheds (.of_pages rfl rfl rfl)

namespace Ledger

variable {limit : Nat} {s : Session}

theorem start (size : Nat) (maxPages maxCells : Int) :
    Ledger (create (.create size) maxPages maxCells).maxPages (start size maxPages maxCells) :=
  ⟨sound_create size maxPages maxCells, outer_create .. ▸ .empty _, rfl⟩

theorem step (h : Ledger limit s) (op : CacheOp) : ∃ s', s.step op = .ok s' ∧ Ledger limit s' ∧
    Relation.ReflTransGen (Turn limit) s.cache.outer s'.cache.outer := by
  obtain ⟨s', hstep, hchange⟩ := step_cases h.sound op
  have hsound : Sound s'.cache := by
    obtain ⟨hch, -⟩ | ⟨pc, t, code, -, hins, -⟩ := hchange
    · exact hch.sound h.sound
    · exact hins.sound
  obtain ⟨hturns, hm⟩ := turns_of_step (h.maxPages.symm ▸ h.accounted) hstep
  rw [h.maxPages] at hturns hm
  exact ⟨s', hstep, ⟨hsound, h.accounted.run hturns, hm⟩, hturns⟩

theorem run (h : Ledger limit s) (ops : List CacheOp) : ∃ s', s.run ops = .ok s' ∧
    Ledger limit s' ∧ Relation.ReflTransGen (Turn limit) s.cache.outer s'.cache.outer := by
  induction ops generalizing s with
  | nil => exact ⟨s, rfl, h, .refl⟩
  | cons op ops ih =>
    obtain ⟨s₁, hstep, h₁, hturns₁⟩ := h.step op
    obtain ⟨s₂, hrun, h₂, hturns₂⟩ := ih h₁
    refine ⟨s₂, ?_, h₂, hturns₁.trans hturns₂⟩
    rw [Session.run, hstep]
    exact hrun

end Ledger

/-- The accounts of the map after any operations on a new cache, none of which is at fault. The
pages that have tables are those in which an address is live, and there are not more of them than
the limit. The writes of all operations to the pages and their bits, also those in the middle of
an operation, lead from nothing to what the cache holds. After each of them the same is true of
the bits; and an address that is known, or whose page has been released, stays known through all
the writes that follow. -/
theorem pages_of_run (size : Nat) (maxPages maxCells : Int) (ops : List CacheOp) :
    let limit := (create (.create size) maxPages maxCells).maxPages
    ∃ s, (start size maxPages maxCells).run ops = .ok s ∧
      s.cache.tables.length =
        {page | ∃ pc id, pageOf pc = page ∧ s.cache.lookup pc = .live id}.ncard ∧
      s.cache.tables.length ≤ limit ∧
      Relation.ReflTransGen (Turn limit) ⟨∅, ∅⟩ s.cache.outer ∧
      (∀ o, Relation.ReflTransGen (Turn limit) ⟨∅, ∅⟩ o →
        o.bits.card = {page | ∃ pc id, pageOf pc = page ∧ o.lookup pc = .live id}.ncard ∧
        o.bits.card ≤ limit ∧
        ∀ o', Relation.ReflTransGen (Turn limit) o o' → ∀ pc, (o.lookup pc ≠ .notCompiled ∨
          o.pages[pageOf pc]? = some .released) → o'.lookup pc ≠ .notCompiled) ∧
      ∀ more, ∃ s', s.run more = .ok s' ∧
        Relation.ReflTransGen (Turn limit) s.cache.outer s'.cache.outer ∧
        ∀ pc, s.cache.lookup pc ≠ .notCompiled → s'.cache.lookup pc ≠ .notCompiled := by
  intro limit
  obtain ⟨s, hrun, hs, hturns⟩ := (Ledger.start size maxPages maxCells).run ops
  have hempty : (start size maxPages maxCells).cache.outer = ⟨∅, ∅⟩ := outer_create ..
  rw [hempty] at hturns
  refine ⟨s, hrun, ?_, ?_, hturns, ?_, ?_⟩
  · rw [← card_outer]
    exact hs.accounted.ncard_eq.symm
  · rw [← card_outer]
    exact hs.accounted.limit
  · intro o ho
    have haccounted := (Accounted.empty limit).run ho
    exact ⟨haccounted.ncard_eq.symm, haccounted.limit, fun o' ho' pc hk => known_of_run ho' hk⟩
  · intro more
    obtain ⟨s', hrun', -, hturns'⟩ := hs.run more
    exact ⟨s', hrun', hturns', fun pc hk => known_of_run hturns' (.inl hk)⟩

end Session

end Recompiler
