import Recompiler.Proofs.CellSessions
import Recompiler.Proofs.Headers

/-!
The space that is left without an eviction. Blocks start at multiples of 16, and so does what
follows the newest one; only the arena may end elsewhere. A budget that counts bytes promises the
bytes behind the last such place too, although no block ends there. It is exact in an arena of
whole units, and otherwise too large by the rest.
-/

namespace Recompiler

open Ir Emit

@[simp] theorem Arena.refusal_poke (a : Arena) (off : Nat) (bs : List UInt8) :
    (a.poke off bs).refusal = a.refusal := by
  induction bs generalizing a off with
  | nil => rfl
  | cons b bs ih => rw [poke, ih]

theorem Arena.write_ok {a : Arena} (h : a.refusal = none) {off : Nat} {bs : ByteArray}
    (hin : off + bs.size ≤ a.size) : ∃ b, a.write off bs = .ok b ∧ b.refusal = none := by
  have hnone : (if bs.size = headerLength then none else a.refusal) = none := by rw [h, ite_self]
  have hcontains : a.contains off bs.size = true := by
    simp only [contains, Bool.and_eq_true, decide_eq_true_eq]
    omega
  refine ⟨a.poke off bs.data.toList, ?_, (refusal_poke ..).trans h⟩
  unfold write
  rw [hnone]
  dsimp only
  rw [if_pos hcontains, Int.toNat_natCast]

theorem Block.offset_of_frame {b b' : Block} (h : b.frame = b'.frame) : b.offset = b'.offset :=
  (Prod.ext_iff.mp (span_of_frame h)).1

namespace Span

variable {ss ts : List Span} {a b a' b' cap first next : Nat}

theorem Chained.end_eq (h : Chained cap (ss ++ ts) a b) (h' : Chained cap ts a' b')
    (hne : ts ≠ []) : b = b' := by
  induction ss generalizing a with
  | nil =>
    cases ts with
    | nil => exact absurd rfl hne
    | cons x ts =>
      obtain rfl : a = a' := h.1.symm.trans h'.1
      clear hne
      induction ts generalizing x a with
      | nil => exact h.2.symm.trans h'.2
      | cons y ts ih => exact ih y h.2 h'.2
  | cons x ss ih => exact ih h.2

theorem Laid.next_of_nil (h : Laid cap [] first next) : next = 0 := by
  generalize hs : ([] : List Span) = ss at h
  cases h with
  | empty => rfl
  | straight hne => exact absurd hs.symm hne
  | wrapped hne => exact absurd (List.append_eq_nil_iff.mp hs.symm).1 hne

end Span

namespace CodeCache

open Recompiler.Span

variable {c d : CodeCache} {id i : BlockId} {off : Nat} {pc : UInt32} {t : TraceProgram}
  {code : Option ByteArray}

theorem refusal_tag (c : CodeCache) (b : Block) (pc : UInt32) :
    (c.tag b pc).arena.refusal = c.arena.refusal := by
  simp only [tag, Arena.refusal_poke]

theorem refusal_push (c : CodeCache) (b : Block) :
    (c.push b).arena.refusal = c.arena.refusal := by
  have habsorb : (c.absorbTail b.offset).arena.refusal = c.arena.refusal := by
    unfold absorbTail
    split
    · rfl
    · split
      · rfl
      · exact refusal_tag ..
  unfold push
  exact (refusal_tag ..).trans habsorb

structure Gridded (c : CodeCache) : Prop where
  offset {id : BlockId} : id ∈ c.ring → 16 ∣ (c.block id).offset
  next : 16 ∣ c.next

theorem next_of_evicted (hc : Ringed c) (hd : Ringed d) (h : Evicted c d) :
    d.next = c.next ∨ d.next = 0 := by
  by_cases hne : d.ring = []
  · right
    have hspans : d.spans = [] := by simp [spans, hne]
    exact (hspans ▸ hd.laid).next_of_nil
  · left
    obtain ⟨gone, hgone⟩ := h.spans
    have hchain := hc.laid.chained
    rw [← hgone] at hchain
    have hend := hd.laid.chained
    rw [h.capacity] at hend
    exact (hchain.end_eq hend (by simpa [spans] using hne)).symm

namespace Gridded

theorem of_frame (h : Gridded c) (he : d.frame = c.frame) : Gridded d where
  offset {id} hid := by
    rw [Block.offset_of_frame (block_of_frame he id)]
    exact h.offset (ring_of_frame he ▸ hid)
  next := by
    have hnext := congrArg CodeCache.next he
    exact hnext ▸ h.next

theorem evicted (h : Gridded c) (hc : Ringed c) (hd : Ringed d) (hcd : Evicted c d) :
    Gridded d where
  offset {id} hid := by
    rw [Block.offset_of_frame (Block.frame_of_bare (hcd.block hid))]
    exact h.offset (hcd.ring.subset hid)
  next := by
    rcases next_of_evicted hc hd hcd with he | he
    · exact he ▸ h.next
    · exact he ▸ Nat.dvd_zero 16

theorem fit (h : Gridded c) {size : Int} (hf : c.fit? size = some off) : 16 ∣ off := by
  rcases fit?_cases hf with ⟨-, rfl, -⟩ | ⟨-, -, rfl, -⟩ | ⟨-, -, rfl, -⟩ | ⟨-, -, rfl, -⟩
  · exact Nat.dvd_zero 16
  · exact h.next
  · exact Nat.dvd_zero 16
  · exact h.next

theorem push (h : Gridded c) (hc : Ringed c) {b : Block} (hs : 16 ∣ b.size)
    (hf : c.fit? b.size = some b.offset) : Gridded (c.push b) where
  offset {id} hid := by
    rw [ring_push, List.mem_append, List.mem_singleton] at hid
    by_cases hi : id = c.blocks.size
    · rw [block_push, if_pos hi]
      exact h.fit hf
    · obtain ⟨size, he⟩ := block_push_of_ne c b hi
      rw [he]
      exact h.offset (hid.resolve_right hi)
  next := by
    obtain ⟨_, -, hpush⟩ := push_eq c b
    have hend : b.offset + b.size ≤ c.capacity := (hc.fit hf).1
    rw [hpush]
    dsimp only
    rcases Nat.lt_or_eq_of_le hend with hlt | he
    · rw [Nat.mod_eq_of_lt hlt]
      exact Nat.dvd_add (h.fit hf) hs
    · rw [he, Nat.mod_self]
      exact Nat.dvd_zero 16

end Gridded

theorem dvd_align (n : Nat) : 16 ∣ align n := Nat.dvd_mul_left 16 _

theorem Gridded.allocate (h : Gridded c) (hc : Sound c) (n size : Int) :
    Gridded (c.allocate n size).2 := by
  rcases hc.allocate n size with ⟨-, he⟩ | ⟨-, off, d, he, -, hd, hcd⟩
  · rw [he]
    exact h
  · rw [he]
    exact h.evicted hc.ringed hd.ringed hcd

theorem Gridded.insert (h : Gridded c) (hc : Sound c) (pc : UInt32) (t : TraceProgram)
    (code : Option ByteArray) : Gridded (c.insert pc t code).2 := by
  rcases hc.insert_cases pc t code with ⟨err, -, he⟩ | ⟨off, d, -, hd, hcd, hfit, -, hcase⟩
  · rw [he]
    exact h.of_frame (frame_of_bare (bare_freeCells ..))
  · have hpush : Gridded (d.push (fresh t off (blockSize t code))) :=
      (h.evicted hc.ringed hd.ringed hcd).push hd.ringed (dvd_align _) hfit
    rcases hcase with ⟨err, he⟩ | ⟨arena, hw, he⟩
    · rw [he]
      exact hpush.of_frame (frame_of_bare (bare_freeCells ..))
    · rw [he]
      refine hpush.of_frame ((frame_publish ..).trans ?_)
      have hsize := Arena.size_write hw
      simp only [frame, bare, hsize]

def slack (c : CodeCache) : Nat := c.contiguousFree % 16

theorem fit?_isSome_iff (c : CodeCache) {size : Int} (hs : 0 < size) :
    (∃ off, c.fit? size = some off) ↔ size ≤ c.contiguousFree := by
  unfold fit? contiguousFree
  by_cases hr : c.ring = []
  · simp [hr]
  · have hempty : ¬c.ring.isEmpty = true := by simpa using hr
    rw [if_neg hempty, if_neg hempty]
    by_cases hlt : c.first < c.next
    · rw [if_pos hlt, if_pos hlt]
      by_cases htail : size ≤ (c.capacity - c.next : Int)
      · simp only [if_pos htail, Option.some.injEq, exists_eq', true_iff]
        omega
      · rw [if_neg htail]
        by_cases hfront : size ≤ c.first
        · simp only [if_pos hfront, Option.some.injEq, exists_eq', true_iff]
          omega
        · simp only [if_neg hfront, reduceCtorEq, exists_false, false_iff]
          omega
    · rw [if_neg hlt, if_neg hlt]
      by_cases hgt : c.next < c.first
      · by_cases hgap : size ≤ (c.first - c.next : Int)
        · simp only [if_pos hgt, if_pos hgap, Option.some.injEq, exists_eq', true_iff]
          omega
        · simp only [if_pos hgt, if_neg hgap, reduceCtorEq, exists_false, false_iff]
          omega
      · simp only [if_neg hgt, reduceCtorEq, exists_false, false_iff]
        omega

theorem Ringed.fit?_isSome_iff_of_nonpos (h : Ringed c) {size : Int} (hs : size ≤ 0) :
    (∃ off, c.fit? size = some off) ↔ c.ring = [] ∨ c.first ≠ c.next := by
  unfold fit?
  by_cases hr : c.ring = []
  · have hcap : size ≤ c.capacity := by omega
    simp [hr, hcap]
  · rw [if_neg (by simpa using hr)]
    by_cases hlt : c.first < c.next
    · have htail : size ≤ (c.capacity - c.next : Int) := by
        have hle := (h.laid.between hlt).1
        omega
      have hne : c.first ≠ c.next := Nat.ne_of_lt hlt
      simp [hlt, htail, hne]
    · rw [if_neg hlt]
      by_cases hgt : c.next < c.first
      · have hgap : size ≤ (c.first - c.next : Int) := by omega
        have hne : c.first ≠ c.next := Nat.ne_of_gt hgt
        simp [hgt, hgap, hne]
      · have he : c.first = c.next := by omega
        simp [hr, he]

theorem Sound.allocate_keeps_iff (h : Sound c) (n size : Int) :
    (∃ off, c.allocate n size = (.ok off, c)) ↔ ∃ off, c.fit? size = some off := by
  constructor
  · rintro ⟨off, he⟩
    rcases h.allocate n size with ⟨-, he'⟩ | ⟨-, off', d, he', hfit, -, -⟩
    · rw [he] at he'
      cases he'
    · rw [he] at he'
      cases he'
      exact ⟨off, hfit⟩
  · rintro ⟨off, hfit⟩
    have hle : size ≤ c.capacity := by
      have hin := (h.ringed.fit hfit).1
      omega
    refine ⟨off, ?_⟩
    unfold CodeCache.allocate
    rw [if_neg (by omega)]
    unfold CodeCache.makeRoom
    rw [hfit]

theorem wordSize_nonpos {n : Int64} (hn : 2 ^ 63 ≤ n.toInt + 31) : wordSize n ≤ 0 := by
  have hmax := n.toInt_lt
  have h16 : (Int64.ofNat Block.headerSize).toInt = 16 := by decide
  have h15 : (15 : Int64).toInt = 15 := by decide
  have hsum : (n + .ofNat Block.headerSize + 15).toInt = (n.toInt + 16 + 15).bmod (2 ^ 64) := by
    rw [Int64.toInt_add, Int64.toInt_add, h16, h15, Int.bmod_add_bmod]
  have hneg : (n.toInt + 16 + 15).bmod (2 ^ 64) < 0 := by
    rw [Int.bmod_def]
    split <;> omega
  unfold wordSize
  rw [hsum]
  omega

/-- What a reservation finds without an eviction: the budget without its slack, and the sizes
that wrap around, unless the ring is full. -/
theorem Sound.reserve_keeps_iff (h : Sound c) {n : Int64} (hn : 1 ≤ n.toInt) :
    (∃ off, c.reserve n = (.ok off, c)) ↔ n.toInt + c.slack ≤ c.budget ∨
      (2 ^ 63 ≤ n.toInt + 31 ∧ (c.ring = [] ∨ c.first ≠ c.next)) := by
  have hmax := n.toInt_lt
  unfold reserve
  rw [h.allocate_keeps_iff]
  by_cases hwrap : n.toInt + 31 < 2 ^ 63
  · rw [wordSize_eq hwrap, fit?_isSome_iff c (by simp only [Block.headerSize]; omega)]
    simp only [budget, slack, Block.headerSize]
    omega
  · have hwrap : 2 ^ 63 ≤ n.toInt + 31 := by omega
    rw [h.ringed.fit?_isSome_iff_of_nonpos (wordSize_nonpos hwrap), and_iff_right hwrap]
    refine ⟨.inr, fun hor => hor.elim (fun hle => ?_) id⟩
    by_contra hfull
    obtain ⟨hr, he⟩ := not_or.mp hfull
    have hnone : c.contiguousFree = 0 := by
      have hempty : ¬c.ring.isEmpty = true := by simpa using hr
      rw [contiguousFree, if_neg hempty, not_not.mp he, if_neg (Nat.lt_irrefl _), Nat.sub_self]
    simp only [budget, hnone] at hle
    omega

theorem Gridded.slack_eq (h : Gridded c) (hc : Ringed c) :
    c.slack = 0 ∨ c.slack = c.capacity % 16 := by
  unfold slack contiguousFree
  by_cases hr : c.ring = []
  · exact .inr (by simp [hr])
  · obtain ⟨id, rest, hring⟩ := List.exists_cons_of_ne_nil hr
    have hempty : ¬c.ring.isEmpty = true := by simpa using hr
    have hfirst : 16 ∣ c.first := by
      have hchain := hc.laid.chained
      rw [spans, hring] at hchain
      exact hchain.1 ▸ h.offset (hring ▸ List.mem_cons_self)
    have hnext := h.next
    rw [if_neg hempty]
    split
    · have hle := (hc.laid.between ‹_›).1
      omega
    · omega

/-- A trace whose address may be mapped is inserted if the arena holds it and refuses nothing. -/
theorem Sound.insert_ok (h : Sound c) (hcheck : c.check pc = .ok ())
    (hle : blockSize t code ≤ c.capacity) (hopen : c.arena.refusal = none) :
    ∃ off d arena, c.allocate (codeSize t code) (blockSize t code) = (.ok off, d) ∧ Sound d ∧
      Evicted c d ∧ d.fit? (blockSize t code) = some off ∧ arena.refusal = none ∧
      (d.push (fresh t off (blockSize t code))).arena.write (off + Block.headerSize)
        (code.getD .empty) = .ok arena ∧
      c.insert pc t code = (.ok c.blocks.size,
        { d.push (fresh t off (blockSize t code)) with arena }.publish pc c.blocks.size
          t.exits) := by
  rcases h.allocate (codeSize t code) (blockSize t code) with
    ⟨hlt, -⟩ | ⟨-, off, d, halloc, hfit, hd, hcd⟩
  · omega
  · have hin := (hd.ringed.fit hfit).1
    have hcode : Block.headerSize + (code.getD .empty).size ≤ blockSize t code := by
      refine Nat.le_trans (Nat.add_le_add_left ?_ _) (headerSize_le_blockSize t code)
      cases code with
      | none => exact Nat.zero_le _
      | some bs => exact Nat.le_refl _
    have hroom : off + Block.headerSize + (code.getD .empty).size
        ≤ (d.push (fresh t off (blockSize t code))).arena.size := by
      have hcap := capacity_push d (fresh t off (blockSize t code))
      simp only [capacity] at hcap hin
      omega
    have hnone : (d.push (fresh t off (blockSize t code))).arena.refusal = none := by
      rw [refusal_push, hcd.arena, hopen]
    obtain ⟨arena, hw, hnone'⟩ := Arena.write_ok hnone hroom
    refine ⟨off, d, arena, halloc, hd, hcd, hfit, hnone', hw, ?_⟩
    have hfresh : (⟨0, off, align (Block.headerSize + codeSize t code), t.count, t.program, [],
      []⟩ : Block) = fresh t off (blockSize t code) := rfl
    have halloc' : c.allocate (codeSize t code) (align (Block.headerSize + codeSize t code))
        = (.ok off, d) := halloc
    unfold CodeCache.insert
    simp only [hcheck, halloc', hfresh, ← hcd.size]
    generalize d.push (fresh t off (blockSize t code)) = p at hw
    rw [Nat.cast_add] at hw
    rw [hw]

theorem budget_of_frame (h : c.frame = d.frame) : c.budget = d.budget := by
  have hfirst := congrArg CodeCache.first h
  have hnext := congrArg CodeCache.next h
  change c.first = d.first at hfirst
  change c.next = d.next at hnext
  rw [budget, budget, contiguousFree, contiguousFree, ring_of_frame h, capacity_of_frame h, hfirst,
    hnext]

/-- The first block leaves the rest of the arena. -/
theorem budget_push_of_nil {b : Block} (hr : c.ring = []) (ho : b.offset = 0)
    (hpos : 0 < b.size) (hlt : b.size < c.capacity) :
    (c.push b).budget = c.capacity - b.size - Block.headerSize := by
  obtain ⟨_, -, hpush⟩ := push_eq c b
  have hfirst : (c.push b).first = 0 := by
    rw [hpush, absorbTail_of_nil hr]
    exact ho
  have hnext : (c.push b).next = b.size := by
    rw [hpush]
    change (b.offset + b.size) % c.capacity = _
    rw [ho, Nat.zero_add, Nat.mod_eq_of_lt hlt]
  have hfull : ¬(c.push b).ring.isEmpty = true := by
    rw [ring_push]
    simp
  unfold budget contiguousFree
  rw [if_neg hfull, hfirst, hnext, if_pos hpos, capacity_push, Nat.max_zero]

/-- A trace that fits is put behind the newest block. -/
theorem Sound.insert_of_fit {off : Nat} (h : Sound c) (hcheck : c.check pc = .ok ())
    (hfit : c.fit? (blockSize t code) = some off) (hopen : c.arena.refusal = none) :
    ∃ d, c.insert pc t code = (.ok c.blocks.size, d) ∧
      d.frame = (c.push (fresh t off (blockSize t code))).frame := by
  have hle : blockSize t code ≤ c.capacity := by
    have hin := (h.ringed.fit hfit).1
    omega
  obtain ⟨off₁, hkeep⟩ := (h.allocate_keeps_iff (codeSize t code) _).mpr ⟨off, hfit⟩
  obtain ⟨off₂, d, arena, halloc, -, -, hfit₂, -, hw, hins⟩ := h.insert_ok hcheck hle hopen
  obtain ⟨-, rfl⟩ := Prod.ext_iff.mp (hkeep.symm.trans halloc)
  obtain rfl := Option.some.inj (hfit.symm.trans hfit₂)
  have hsize := Arena.size_write hw
  refine ⟨_, hins, (frame_publish ..).trans ?_⟩
  simp only [frame, bare, hsize]

theorem Sound.insert_keeps (h : Sound c) (hcheck : c.check pc = .ok ()) (hn : 0 < codeSize t code)
    (hfit : codeSize t code + c.slack ≤ c.budget) (hopen : c.arena.refusal = none) :
    ∃ d, c.insert pc t code = (.ok c.blocks.size, d) ∧ d.ring = c.ring ++ [c.blocks.size] := by
  have hspace : blockSize t code ≤ c.contiguousFree := by
    simp only [blockSize, align, slack, budget, Block.headerSize] at hfit ⊢
    omega
  have hpos : (0 : Int) < blockSize t code := by
    have hlen := headerSize_le_blockSize t code
    omega
  obtain ⟨off, hoff⟩ := (fit?_isSome_iff c hpos).mpr (Int.ofNat_le.mpr hspace)
  obtain ⟨d, hins, hframe⟩ := h.insert_of_fit hcheck hoff hopen
  exact ⟨d, hins, (ring_of_frame hframe).trans (ring_push ..)⟩

end CodeCache

namespace Session

open CodeCache

variable {s : Session}

theorem gridded_step (h : Sound s.cache ∧ Gridded s.cache) (op : CacheOp) :
    ∃ s', s.step op = .ok s' ∧ Sound s'.cache ∧ Gridded s'.cache := by
  obtain ⟨hc, hg⟩ := h
  obtain ⟨s', hstep, hcase⟩ := step_cases hc op
  have hsound : Sound s'.cache := by
    rcases hcase with ⟨hch, -⟩ | ⟨pc, t, code, -, hins, -⟩
    · exact hch.sound hc
    · exact hins.sound
  refine ⟨s', hstep, hsound, ?_⟩
  cases op with
  | allocCell =>
    cases hstep
    refine hg.of_frame (frame_of_bare ?_)
    change s.cache.allocCell.2.bare = s.cache.bare
    unfold CodeCache.allocCell
    split <;> rfl
  | insert pc t code =>
    rw [(step_insert hstep).1]
    exact hg.insert hc pc t code
  | reserve n =>
    rw [(proceed_ok hstep).1]
    exact hg.allocate hc _ _
  | evict =>
    cases hr : s.cache.ring with
    | nil =>
      rw [step, CodeCache.evict, hr] at hstep
      cases hstep
      exact hg
    | cons id rest =>
      obtain ⟨d, he, hd, hcd, -⟩ := hc.evict hr
      rw [step, he] at hstep
      cases hstep
      exact hg.evicted hc.ringed hd.ringed hcd
  | flush =>
    obtain ⟨d, he, hd, hcd, -⟩ := hc.evictMany rfl
    rw [step, CodeCache.flush, he] at hstep
    cases hstep
    exact hg.evicted hc.ringed hd.ringed hcd
  | invalidatePage page =>
    cases hstep
    exact hg.of_frame (frame_invalidatePage _ page)
  | invalidateAll =>
    cases hstep
    exact List.foldlRecOn _ _ hg fun _ hd page _ => hd.of_frame (frame_invalidatePage _ page)
  | refuse reason =>
    cases hstep
    exact hg.of_frame rfl

theorem gridded_start (size : Nat) (maxPages maxCells : Int) :
    Gridded (start size maxPages maxCells).cache where
  offset hid := by cases hid
  next := Nat.dvd_zero 16

/-- A reservation succeeds without an eviction exactly if its size is within the budget without
its slack, or wraps around in signed words while the ring is not full. The slack is the rest of
the arena behind its last whole unit, or nothing. A program within that bound is inserted without
an eviction. -/
theorem budget_of_run (size : Nat) (maxPages maxCells : Int) (ops : List CacheOp) :
    ∃ s, (start size maxPages maxCells).run ops = .ok s ∧
      (∀ n : Int64, 1 ≤ n.toInt → ((∃ off, s.cache.reserve n = (.ok off, s.cache)) ↔
        n.toInt + s.cache.slack ≤ s.cache.budget ∨
          (2 ^ 63 ≤ n.toInt + 31 ∧ (s.cache.ring = [] ∨ s.cache.first ≠ s.cache.next)))) ∧
      (s.cache.slack = 0 ∨ s.cache.slack = size % 16) ∧
      ∀ pc t code, s.cache.check pc = .ok () → 0 < codeSize t code →
        codeSize t code + s.cache.slack ≤ s.cache.budget → s.cache.arena.refusal = none →
        ∃ d, s.cache.insert pc t code = (.ok s.cache.blocks.size, d) ∧
          d.ring = s.cache.ring ++ [s.cache.blocks.size] := by
  obtain ⟨s, hrun, hsound, hcap⟩ :=
    run_of_every_step (P := fun s => Sound s.cache ∧ s.cache.capacity = size)
      (fun _ op hs => capacity_step hs op) (s := start size maxPages maxCells)
      ⟨sound_create size maxPages maxCells, rfl⟩ ops
  obtain ⟨s', hrun', -, hgrid⟩ := run_of_every_step (fun _ op hs => gridded_step hs op)
    ⟨sound_create size maxPages maxCells, gridded_start size maxPages maxCells⟩ ops
  obtain rfl : s' = s := Except.ok.inj (hrun'.symm.trans hrun)
  exact ⟨_, hrun, fun n hn => hsound.reserve_keeps_iff hn, hcap ▸ hgrid.slack_eq hsound.ringed,
    fun pc t code hcheck hn hfit hopen => hsound.insert_keeps hcheck hn hfit hopen⟩

end Session

end Recompiler
