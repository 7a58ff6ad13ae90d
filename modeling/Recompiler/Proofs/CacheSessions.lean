import Recompiler.Proofs.Eviction

/-!
Sessions: a new cache and what is done with it, operation after operation. A session keeps a
journal of the insertions that succeeded, and the cells that were taken and not yet given to an
insertion. Refusals of the cache are part of a session; only a fault of the cache itself would
end it, and none ever does. What the map knows always comes from the journal.
-/

namespace Recompiler

open Ir Emit

/-- An operation on a cache. -/
inductive CacheOp where
  | allocCell
  | insert (pc : UInt32) (t : TraceProgram) (code : Option ByteArray)
  | reserve (n : Int64)
  | evict
  | flush
  | invalidatePage (page : UInt32)
  | invalidateAll
  /-- The arena refuses code from now on, or no longer. -/
  | refuse (reason : Option String)

/-- A trace that has a block of its own. -/
structure Insertion where
  block : BlockId
  pc : UInt32
  trace : TraceProgram

structure Session where
  cache : CodeCache
  /-- The cells that were taken and that no insertion has got. -/
  held : List Nat
  journal : List Insertion

namespace Session

def start (size : Nat) (maxPages maxCells : Int) : Session :=
  ⟨.create (.create size) maxPages maxCells, [], []⟩

def proceed (s : Session) {α : Type} : Except CodeCacheError α × CodeCache →
    Except CodeCacheError Session
  | (.error e, cache) => if e.isFault then .error e else .ok { s with cache }
  | (.ok _, cache) => .ok { s with cache }

/-- The cells that are left once an insertion has got those of its exits. -/
def give (s : Session) (t : TraceProgram) : Session :=
  { s with held := s.held.diff (t.exits.map (·.cell)) }

def step (s : Session) : CacheOp → Except CodeCacheError Session
  | .allocCell =>
    let (n, cache) := s.cache.allocCell
    .ok { s with cache, held := n.toList ++ s.held }
  | .insert pc t code =>
    match s.cache.insert pc t code with
    | (.ok id, cache) => .ok { s.give t with cache, journal := ⟨id, pc, t⟩ :: s.journal }
    | r => (s.give t).proceed r
  | .reserve n => s.proceed (s.cache.reserve n)
  | .evict => s.cache.evict.map fun cache => { s with cache }
  | .flush => s.cache.flush.map fun cache => { s with cache }
  | .invalidatePage page => .ok { s with cache := (s.cache.invalidatePage page).2 }
  | .invalidateAll => .ok { s with cache := s.cache.invalidateAll }
  | .refuse reason =>
    .ok { s with cache := { s.cache with arena := { s.cache.arena with refusal := reason } } }

def run (s : Session) : List CacheOp → Except CodeCacheError Session
  | [] => .ok s
  | op :: ops => s.step op >>= fun s => s.run ops

def Admits (A : Session → CacheOp → Prop) (s : Session) : List CacheOp → Prop
  | [] => True
  | op :: ops => A s op ∧ ∀ s', s.step op = .ok s' → Admits A s' ops

theorem run_of_step {P : Session → Prop} {A : Session → CacheOp → Prop}
    (hstep : ∀ s op, P s → A s op → ∃ s', s.step op = .ok s' ∧ P s') {s : Session}
    (hs : P s) {ops : List CacheOp} (ha : Admits A s ops) : ∃ s', s.run ops = .ok s' ∧ P s' := by
  induction ops generalizing s with
  | nil => exact ⟨s, rfl, hs⟩
  | cons op ops ih =>
    obtain ⟨s', hop, hs'⟩ := hstep s op hs ha.1
    obtain ⟨s'', hrun, hs''⟩ := ih hs' (ha.2 s' hop)
    refine ⟨s'', ?_, hs''⟩
    rw [run, hop]
    exact hrun

theorem admits_of_forall {A : CacheOp → Prop} {ops : List CacheOp} (h : ∀ op ∈ ops, A op)
    (s : Session) : Admits (fun _ => A) s ops := by
  induction ops generalizing s with
  | nil => trivial
  | cons op ops ih =>
    exact ⟨h op (.head _), fun s' _ => ih (fun op' hm => h op' (.tail _ hm)) s'⟩

theorem run_of_every_step {P : Session → Prop}
    (hstep : ∀ s op, P s → ∃ s', s.step op = .ok s' ∧ P s') {s : Session} (hs : P s)
    (ops : List CacheOp) : ∃ s', s.run ops = .ok s' ∧ P s' :=
  run_of_step (A := fun _ _ => True) (fun s op hs _ => hstep s op hs) hs
    (admits_of_forall (fun _ _ => trivial) s)

end Session

namespace CodeCache

variable {c d e : CodeCache} {id i : BlockId} {pc : UInt32}

theorem sound_create (size : Nat) (maxPages maxCells : Int) :
    Sound (create (.create size) maxPages maxCells) := by
  have hlook (pc : UInt32) : (create (.create size) maxPages maxCells).lookup pc = .notCompiled := by
    simp [lookup, create]
  refine ⟨⟨fun hl => ?_, fun hl => ?_, fun ho => absurd rfl ho, ?_, ?_⟩, ⟨.empty, rfl, .nil, ?_, ?_⟩⟩
  · simp [hlook] at hl
  · simp [hlook] at hl
  · simp [create]
  · simp [create]
  · simp [create]
  · simp [create]

theorem Sound.invalidateAll (h : Sound c) : Sound c.invalidateAll :=
  List.foldlRecOn _ _ h fun _ hd page _ => hd.invalidatePage page

/-- An operation that makes no block live: the others stay as they were or go. -/
structure Dwindles (c d : CodeCache) : Prop where
  capacity : d.capacity = c.capacity
  size : c.blocks.size ≤ d.blocks.size
  ring {i : BlockId} : i ∈ d.ring → i < c.blocks.size → i ∈ c.ring
  program {i : BlockId} : i ∈ d.ring → i < c.blocks.size →
    (d.block i).program = (c.block i).program
  live {pc : UInt32} {i : BlockId} : d.lookup pc = .live i → c.lookup pc = .live i

namespace Dwindles

theorem trans (h : Dwindles c d) (h' : Dwindles d e) : Dwindles c e where
  capacity := h'.capacity.trans h.capacity
  size := Nat.le_trans h.size h'.size
  ring hi hb := h.ring (h'.ring hi (Nat.lt_of_lt_of_le hb h.size)) hb
  program hi hb :=
    have hb' := Nat.lt_of_lt_of_le hb h.size
    (h'.program hi hb').trans (h.program (h'.ring hi hb') hb)
  live hl := h.live (h'.live hl)

theorem of_frame (hf : d.frame = c.frame)
    (hl : ∀ pc i, d.lookup pc = .live i → c.lookup pc = .live i) : Dwindles c d where
  capacity := capacity_of_frame hf
  size := Nat.le_of_eq (size_of_frame hf).symm
  ring hi _ := ring_of_frame hf ▸ hi
  program _ _ := Block.program_of_frame (block_of_frame hf _)
  live := hl _ _

theorem of_bare (hb : d.bare = c.bare) : Dwindles c d :=
  .of_frame (frame_of_bare hb) fun pc _ hl => lookup_of_bare hb pc ▸ hl

theorem of_evicted (h : Evicted c d) : Dwindles c d where
  capacity := h.capacity
  size := Nat.le_of_eq h.size.symm
  ring hi _ := h.ring.subset hi
  program hi _ := Block.program_of_frame (Block.frame_of_bare (h.block hi))
  live := h.live

theorem push (c : CodeCache) (b : Block) : Dwindles c (c.push b) where
  capacity := capacity_push c b
  size := by
    rw [size_push]
    exact Nat.le_succ _
  ring hi hb := by
    rw [ring_push, List.mem_append, List.mem_singleton] at hi
    exact hi.resolve_right (Nat.ne_of_lt hb)
  program hi hb := by
    obtain ⟨size, he⟩ := block_push_of_ne c b (Nat.ne_of_lt hb)
    rw [he]
  live hl := by
    rwa [lookup, pages_push] at hl

theorem invalidatePage (c : CodeCache) (page : UInt32) : Dwindles c (c.invalidatePage page).2 :=
  .of_frame (frame_invalidatePage c page) fun _ _ hl => (lookup_invalidatePage.mp hl).1

theorem invalidateAll (c : CodeCache) : Dwindles c c.invalidateAll :=
  List.foldlRecOn _ _ (.of_bare rfl) fun d hd page _ => hd.trans (invalidatePage d page)

end Dwindles

/-- The cache after an operation that makes no block live. -/
inductive Change (c : CodeCache) : CodeCache → Prop
  /-- Cells were taken or given back. -/
  | cells {d : CodeCache} : d.bare = c.bare → Change c d
  | evicted {d : CodeCache} : Sound d → Evicted c d → Change c d
  | invalidated (page : UInt32) : Change c (c.invalidatePage page).2
  | cleared : Change c c.invalidateAll
  | refused (reason : Option String) :
    Change c { c with arena := { c.arena with refusal := reason } }
  /-- The code of a trace could not be written: its block is in the ring and not mapped. -/
  | appended {d e : CodeCache} {t : TraceProgram} {off size : Nat} : Sound d → Evicted c d →
    Block.headerSize ≤ size → d.fit? size = some off → e.bare = (d.push (fresh t off size)).bare →
    Change c e

/-- The cache after a trace was inserted. -/
inductive Inserts (c : CodeCache) (pc : UInt32) (t : TraceProgram) : CodeCache → Prop
  | intro {d : CodeCache} {code : Option ByteArray} {off : Nat} {arena : Arena} :
    Sound d → Evicted c d → d.fit? (blockSize t code) = some off → pc &&& 3 = 0 →
    (d.push (fresh t off (blockSize t code))).arena.write (off + Block.headerSize)
      (code.getD .empty) = .ok arena →
    Inserts c pc t ({ d.push (fresh t off (blockSize t code)) with arena }.publish pc
      c.blocks.size t.exits)

theorem Change.sound (h : Change c d) (hc : Sound c) : Sound d := by
  cases h with
  | cells he => exact hc.of_bare he
  | evicted hd _ => exact hd
  | invalidated page => exact hc.invalidatePage page
  | cleared => exact hc.invalidateAll
  | refused reason => exact hc.withArena rfl
  | appended hd _ hs hf he => exact (hd.push hs hf).of_bare he

theorem Change.dwindles (h : Change c d) : Dwindles c d := by
  cases h with
  | cells he => exact .of_bare he
  | evicted _ hcd => exact .of_evicted hcd
  | invalidated page => exact .invalidatePage c page
  | cleared => exact .invalidateAll c
  | refused reason => exact .of_frame rfl fun _ _ hl => hl
  | appended _ hcd _ _ he => exact ((Dwindles.of_evicted hcd).trans (.push _ _)).trans (.of_bare he)

/-- Before it is published, the block of a trace is in the ring and not mapped. -/
theorem Inserts.cases {t : TraceProgram} (h : Inserts c pc t e) : ∃ d, Sound d ∧ Dwindles c d ∧
    c.blocks.size ∈ d.ring ∧ (d.block c.blocks.size).program = t.program ∧
    (∀ pc', d.lookup pc' ≠ .live c.blocks.size) ∧ pc &&& 3 = 0 ∧
    e = d.publish pc c.blocks.size t.exits := by
  obtain ⟨hd, hcd, hfit, hpc, hw⟩ := h
  rename_i d code off arena
  have hpush := hd.push (t := t)
    (Nat.le_trans (Nat.le_add_right _ _) (headerSize_le_blockSize t code)) hfit
  have hdw := (Dwindles.of_evicted hcd).trans (.push d (fresh t off (blockSize t code)))
  have hmem : c.blocks.size ∈ (d.push (fresh t off (blockSize t code))).ring := by
    rw [ring_push, hcd.size]
    exact List.mem_append_right _ (.head _)
  have hprog : ((d.push (fresh t off (blockSize t code))).block c.blocks.size).program
      = t.program := by
    rw [block_push, hcd.size, if_pos rfl]
    rfl
  have hnew (pc' : UInt32) :
      (d.push (fresh t off (blockSize t code))).lookup pc' ≠ .live c.blocks.size := by
    rw [← hcd.size]
    exact hd.mapped.not_live_push _ pc'
  generalize d.push (fresh t off (blockSize t code)) = p at *
  have hsize := Arena.size_write hw
  have hframe : ({ p with arena } : CodeCache).frame = p.frame := by simp only [frame, bare, hsize]
  exact ⟨{ p with arena }, hpush.withArena hsize, hdw.trans (.of_frame hframe fun _ _ hl => hl),
    hmem, hprog, hnew, hpc, rfl⟩

theorem Inserts.sound {t : TraceProgram} (h : Inserts c pc t e) : Sound e := by
  obtain ⟨d, hd, -, hmem, -, hnew, hpc, rfl⟩ := h.cases
  exact hd.publish hmem hnew hpc t.exits

end CodeCache

namespace Session

open CodeCache

variable {s : Session} {op : CacheOp}

/-- How an operation ends. -/
theorem step_cases (h : Sound s.cache) (op : CacheOp) : ∃ s', s.step op = .ok s' ∧
    ((Change s.cache s'.cache ∧ s'.journal = s.journal) ∨
      ∃ pc t code, op = .insert pc t code ∧ Inserts s.cache pc t s'.cache ∧
        s'.journal = ⟨s.cache.blocks.size, pc, t⟩ :: s.journal) := by
  cases op with
  | allocCell =>
    have hbare : s.cache.allocCell.2.bare = s.cache.bare := by
      unfold CodeCache.allocCell
      split <;> rfl
    exact ⟨_, rfl, .inl ⟨.cells hbare, rfl⟩⟩
  | reserve n =>
    rcases h.allocate n.toInt (wordSize n) with ⟨-, he⟩ | ⟨-, off, d, he, -, hd, hcd⟩
    · refine ⟨s, ?_, .inl ⟨.cells rfl, rfl⟩⟩
      rw [step, CodeCache.reserve, he]
      rfl
    · refine ⟨{ s with cache := d }, ?_, .inl ⟨.evicted hd hcd, rfl⟩⟩
      rw [step, CodeCache.reserve, he]
      rfl
  | evict =>
    cases hr : s.cache.ring with
    | nil =>
      refine ⟨s, ?_, .inl ⟨.cells rfl, rfl⟩⟩
      rw [step, CodeCache.evict, hr]
      rfl
    | cons id rest =>
      obtain ⟨d, he, hd, hcd, -⟩ := h.evict hr
      refine ⟨{ s with cache := d }, ?_, .inl ⟨.evicted hd hcd, rfl⟩⟩
      rw [step, he]
      rfl
  | flush =>
    obtain ⟨d, he, hd, hcd, -⟩ := h.evictMany rfl
    refine ⟨{ s with cache := d }, ?_, .inl ⟨.evicted hd hcd, rfl⟩⟩
    rw [step, CodeCache.flush, he]
    rfl
  | invalidatePage page => exact ⟨_, rfl, .inl ⟨.invalidated page, rfl⟩⟩
  | invalidateAll => exact ⟨_, rfl, .inl ⟨.cleared, rfl⟩⟩
  | refuse reason => exact ⟨_, rfl, .inl ⟨.refused reason, rfl⟩⟩
  | insert pc t code =>
    rcases h.insert_cases pc t code with ⟨err, herr, he⟩ |
      ⟨off, d, -, hd, hcd, hfit, hpc, hcase⟩
    · refine ⟨{ s.give t with cache := s.cache.freeCells (t.exits.map (·.cell)) }, ?_,
        .inl ⟨.cells (bare_freeCells ..), rfl⟩⟩
      rw [step, he]
      simp [proceed, herr]
    · have hs := Nat.le_trans (Nat.le_add_right _ _) (headerSize_le_blockSize t code)
      rcases hcase with ⟨err, he⟩ | ⟨arena, hw, he⟩
      · let p := d.push (fresh t off (blockSize t code))
        refine ⟨{ s.give t with cache := p.freeCells (t.exits.map (·.cell)) }, ?_,
          .inl ⟨.appended hd hcd hs hfit (bare_freeCells p _), rfl⟩⟩
        rw [step, he]
        rfl
      · refine ⟨{ s.give t with
            cache := { d.push (fresh t off (blockSize t code)) with arena }.publish pc
              s.cache.blocks.size t.exits
            journal := ⟨s.cache.blocks.size, pc, t⟩ :: s.journal }, ?_,
          .inr ⟨pc, t, code, rfl, .intro hd hcd hfit hpc hw, rfl⟩⟩
        rw [step, he]

/-- What the map of a session leads to is in its journal, and blocks of the ring have the
programs that the journal says. -/
structure Recorded (s : Session) : Prop where
  sound : Sound s.cache
  live {pc : UInt32} {id : BlockId} : s.cache.lookup pc = .live id →
    ∃ t, ⟨id, wordAddr pc, t⟩ ∈ s.journal
  bound {x : Insertion} : x ∈ s.journal → x.block < s.cache.blocks.size
  program {x : Insertion} : x ∈ s.journal → x.block ∈ s.cache.ring →
    (s.cache.block x.block).program = x.trace.program

theorem Recorded.dwindle {s' : Session} (h : Recorded s) (hs : Sound s'.cache)
    (hd : Dwindles s.cache s'.cache) (hj : s'.journal = s.journal) : Recorded s' where
  sound := hs
  live hl := hj ▸ h.live (hd.live hl)
  bound hx := Nat.lt_of_lt_of_le (h.bound (hj ▸ hx)) hd.size
  program hx hr := by
    have hb := h.bound (hj ▸ hx)
    rw [hd.program hr hb]
    exact h.program (hj ▸ hx) (hd.ring hr hb)

theorem Recorded.step (h : Recorded s) (op : CacheOp) : ∃ s', s.step op = .ok s' ∧ Recorded s' := by
  obtain ⟨s', hstep, ⟨hch, hj⟩ | ⟨pc, t, code, -, hins, hj⟩⟩ := step_cases h.sound op
  · exact ⟨s', hstep, h.dwindle (hch.sound h.sound) hch.dwindles hj⟩
  · have hs := hins.sound
    obtain ⟨d, -, hd, hmem, hprog, -, hpc, hc⟩ := hins.cases
    have hring : s'.cache.ring = d.ring := hc ▸ ring_publish ..
    have hsize : s'.cache.blocks.size = d.blocks.size := hc ▸ size_publish ..
    have hprogram (i : BlockId) : (s'.cache.block i).program = (d.block i).program :=
      Block.program_of_frame (block_of_frame (hc ▸ frame_publish ..) i)
    refine ⟨s', hstep, hs, fun {pc' id} hl => ?_, fun {x} hx => ?_, fun {x} hx hr => ?_⟩
    · rw [hc, lookup_publish] at hl
      rw [hj]
      split at hl
      · rename_i he
        cases hl
        rw [he, wordAddr_of_aligned hpc]
        exact ⟨t, .head _⟩
      · obtain ⟨t', ht⟩ := h.live (hd.live hl)
        exact ⟨t', .tail _ ht⟩
    · rw [hj] at hx
      rcases List.mem_cons.mp hx with rfl | hx
      · exact hs.ringed.bound (hring ▸ hmem)
      · exact hsize ▸ Nat.lt_of_lt_of_le (h.bound hx) hd.size
    · rw [hj] at hx
      rw [hring] at hr
      rw [hprogram]
      rcases List.mem_cons.mp hx with rfl | hx
      · exact hprog
      · have hb := h.bound hx
        rw [hd.program hr hb]
        exact h.program hx (hd.ring hr hb)

theorem recorded_start (size : Nat) (maxPages maxCells : Int) :
    Recorded (start size maxPages maxCells) where
  sound := sound_create size maxPages maxCells
  live hl := by simp [start, create, lookup] at hl
  bound hx := by cases hx
  program hx := by cases hx

/-- A live address leads to a block that was inserted for the word at that address, and has this
origin. Unless this is address zero, which marks the blocks that are not mapped, the block lies
in the ring and its program is the one of its trace. -/
theorem lookup_live_of_run (size : Nat) (maxPages maxCells : Int) (ops : List CacheOp) :
    ∃ s, (start size maxPages maxCells).run ops = .ok s ∧
      ∀ pc id, s.cache.lookup pc = .live id →
        (s.cache.block id).origin = wordAddr pc ∧
        ∃ t, ⟨id, wordAddr pc, t⟩ ∈ s.journal ∧ (wordAddr pc ≠ 0 → id ∈ s.cache.ring ∧
          (s.cache.block id).program = t.program ∧
          (t.program.code.isEmpty = false →
            s.cache.resolve? (s.cache.block id).entry = some t.program)) := by
  obtain ⟨s, hrun, h⟩ := run_of_every_step (fun _ op hs => Recorded.step hs op)
    (recorded_start size maxPages maxCells) ops
  refine ⟨s, hrun, fun pc id hl => ?_⟩
  have horigin := h.sound.mapped.origin hl
  obtain ⟨t, ht⟩ := h.live hl
  refine ⟨horigin, t, ht, fun hne => ?_⟩
  have hring : id ∈ s.cache.ring := (h.sound.mapped.live (horigin ▸ hne)).1
  have hprog : (s.cache.block id).program = t.program := h.program ht hring
  refine ⟨hring, hprog, fun hcode => ?_⟩
  rw [← hprog] at hcode ⊢
  exact h.sound.resolve_entry hring hcode

end Session

end Recompiler
