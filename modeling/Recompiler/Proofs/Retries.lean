import Recompiler.Proofs.EngineCells

/-!
One retry is enough. A trace that does not fit into the space that is free is emitted once more
after half of the cache has been cleared in one piece, wherever that piece lies. The cells that
are free by then are other ones, so a trace is asked to fit with all cells that may be free.
-/

namespace Recompiler

open Ir Emit CodeCache

namespace CodeCache

variable {x : Extent} {c : CodeCache} {held : List Nat} {pc : UInt32}

def Extent.Offers (x : Extent) (cells : List Nat) : Prop :=
  cells.Nodup ∧ ∀ n ∈ cells, n < x.cells

theorem Stocked.extent (h : Stocked x c held) : c.extent = x := by
  unfold CodeCache.extent
  rw [h.capacity, h.maxPages, h.placed.size]

theorem Stocked.offers (h : Stocked x c held) : x.Offers c.free := by
  refine ⟨h.nodup_free, fun n hn => ?_⟩
  have hmem := List.mem_append_left c.boundCells (List.mem_append_left held hn)
  exact List.mem_range.mp (h.placed.cells.mem_iff.mp hmem)

theorem Stocked.clear_half (h : Stocked x c held) (hx : 4096 ≤ x.bytes) (n : Int) :
    ∃ off d, c.allocate n (align (c.capacity / 2)) = (.ok off, d) ∧ Sheds c d ∧
      x.bytes / 2 ≤ Block.headerSize + d.budget := by
  have hcap := h.capacity
  have halign : c.capacity / 2 ≤ align (c.capacity / 2) ∧
      align (c.capacity / 2) ≤ c.capacity := by
    unfold align
    omega
  obtain ⟨hlt, -⟩ | ⟨-, off, d, he, hfit, -, -⟩ := h.sound.allocate n (align (c.capacity / 2))
  · omega
  · refine ⟨off, d, he, .allocate he, ?_⟩
    have hfree := (fit?_isSome_iff d (by omega)).mp ⟨off, hfit⟩
    unfold budget Block.headerSize
    omega

theorem Stocked.check_of_sheds {d : CodeCache} (h : Stocked x c held) (hsheds : Sheds c d)
    (hcheck : c.check pc = .ok ()) : d.check pc = .ok () := by
  have hroom := room_of_check hcheck h.charted hsheds
  rw [card_outer, hsheds.maxPages.symm] at hroom
  have htable : pageOf pc ∈ d.outer.bits ↔ pageOf pc ∈ d.tables := List.mem_toFinset
  have hcharted : PageTables.Accounted d.maxPages d.outer :=
    hsheds.maxPages.symm ▸ h.charted.run hsheds.turns
  exact (check_ok_iff hcharted).mpr ⟨aligned_of_check hcheck, hroom.imp_left htable.mp⟩

end CodeCache

/-- Emission without a budget does not go wrong, and the program takes at most `n` bytes with its
header, whichever cells are free. -/
structure Emit.Config.Bounds (cfg : Config) (x : Extent) (pc : UInt32) (ops : List TraceOp)
    (n : Nat) : Prop where
  recoverable {cells : List Nat} {failure : EmitFailure} : x.Offers cells →
    TraceProgram.ofTrace { cfg with budget := none } cells pc ops = .error failure →
      failure.error.isRecoverable = true
  size {cells : List Nat} {t : TraceProgram} : x.Offers cells →
    TraceProgram.ofTrace { cfg with budget := none } cells pc ops = .ok t →
      Block.headerSize + t.program.size ≤ n

theorem Emit.Config.Bounds.ofTrace {cfg : Config} {x : Extent} {pc : UInt32} {raw : List Instr}
    {most n : Nat} (h : cfg.Bounds x pc (Trace.build raw most) n) (hne : Trace.build raw most ≠ [])
    {cells : List Nat} (hcells : x.Offers cells) :
    (∃ t, TraceProgram.ofTrace cfg cells pc (Trace.build raw most) = .ok t ∧
      Block.headerSize + t.program.size ≤ n) ∨
    ∃ freed limit, cfg.budget = some limit ∧ Block.headerSize + limit < n ∧
      TraceProgram.ofTrace cfg cells pc (Trace.build raw most) = .error ⟨.bufferFull, freed⟩ := by
  obtain ⟨cost, ram, wide, budget⟩ := cfg
  have hlaw (limit : Nat) := TraceProgram.ofTrace_budget ⟨cost, ram, wide, budget⟩ cells pc raw most
    limit hne fun failure hf => h.recoverable hcells hf
  cases budget with
  | none =>
    obtain ⟨t, -, ht, -⟩ := hlaw 0
    exact .inl ⟨t, ht, h.size hcells ht⟩
  | some limit =>
    obtain ⟨t, -, ht, -, -, hlimit⟩ := hlaw limit
    by_cases hfit : t.program.size ≤ limit
    · rw [if_pos hfit] at hlimit
      exact .inl ⟨t, hlimit, h.size hcells ht⟩
    · rw [if_neg hfit] at hlimit
      have hsize := h.size hcells ht
      exact .inr ⟨_, limit, rfl, by omega, hlimit⟩

namespace Engine

variable {o : Settings} {x : Extent} {e e' e₀ : Engine} {α β : Type} {held : List Nat}
  {pc : UInt32} {n : Nat}

/-- A computation ends without a fault, and this is what it leads to. -/
def Yields (e : Engine) (f : EngineM α) (Q : α → Engine → Prop) : Prop :=
  ∃ a e', f.run e = .ok a e' ∧ Q a e'

namespace Yields

variable {f : EngineM α} {g : α → EngineM β} {Q Q' : α → Engine → Prop} {R : β → Engine → Prop}

theorem pure {a : α} (h : Q a e) : Yields e (pure a) Q := ⟨a, e, rfl, h⟩

theorem bind (hf : Yields e f Q) (hg : ∀ a e', Q a e' → Yields e' (g a) R) :
    Yields e (f >>= g) R := by
  obtain ⟨a, e', hr, ha⟩ := hf
  obtain ⟨b, e'', hr', hb⟩ := hg a e' ha
  refine ⟨b, e'', ?_, hb⟩
  rw [EStateM.run_bind, hr]
  exact hr'

theorem get_bind {g : Engine → EngineM β} (h : Yields e (g e) R) : Yields e (get >>= g) R := h

theorem modify_bind {m : Engine → Engine} {g : PUnit → EngineM β} (h : Yields (m e) (g ⟨⟩) R) :
    Yields e (modify m >>= g) R := h

theorem mono (h : Yields e f Q) (hq : ∀ a e', Q a e' → Q' a e') : Yields e f Q' := by
  obtain ⟨a, e', hr, ha⟩ := h
  exact ⟨a, e', hr, hq a e' ha⟩

theorem gives (h : Yields e f Q) (hg : Gives e f Q') :
    Yields e f fun a e' => Q a e' ∧ Q' a e' := by
  obtain ⟨a, e', hr, ha⟩ := h
  exact ⟨a, e', hr, ha, hg a e' hr⟩

end Yields

/-- Since `e₀` the engine has only lost blocks. -/
structure Wanes (o : Settings) (x : Extent) (e₀ : Engine) (held : List Nat) (e : Engine) :
    Prop where
  supplied : Supplied o x held e
  shape : e.cpu.shape = e₀.cpu.shape
  sheds : Sheds e₀.host.cache e.host.cache

theorem wanes_kept (o : Settings) (x : Extent) (e₀ : Engine) : Kept (Wanes o x e₀ []) where
  other h hs hb hc hshape :=
    ⟨(Supplied.kept o x []).other h.supplied hs hb hc hshape, hshape.trans h.shape, hc ▸ h.sheds⟩
  invalidatePage page h :=
    ⟨(Supplied.kept o x []).invalidatePage page h.supplied, h.shape,
      h.sheds.trans (.invalidatePage ..)⟩
  clear h :=
    ⟨(Supplied.kept o x []).clear h.supplied, h.shape, h.sheds.trans (.invalidateAll _)⟩

theorem Wanes.bounds {ops : List TraceOp} (h : Wanes o x e₀ held e)
    (h₀ : e₀.host.settings = o) (hb : (emitConfig e₀).Bounds x pc ops n) :
    (emitConfig e).Bounds x pc ops n := by
  have hsize : e.cpu.mem.size = e₀.cpu.mem.size := congrArg Prod.fst h.shape
  have hwide : e.cpu.wideFpRegs = e₀.cpu.wideFpRegs := congrArg Prod.snd h.shape
  have hcfg : { emitConfig e with budget := none } = { emitConfig e₀ with budget := none } := by
    simp only [emitConfig, h.supplied.settings, h₀, hsize, hwide]
  exact ⟨fun hc hf => hb.recoverable hc (hcfg ▸ hf), fun hc ht => hb.size hc (hcfg ▸ ht)⟩

theorem shape_readWords (n : Nat) (paddr : UInt32) (c : Cpu) :
    (readWords n paddr c).2.shape = c.shape := by
  have hfetch (c : Cpu) (paddr : UInt32) : (c.fetchPhys paddr).2.shape = c.shape := by
    unfold Cpu.fetchPhys Cpu.readPhys
    dsimp only
    split <;> rfl
  induction n generalizing paddr c with
  | zero => rfl
  | succ n ih => exact (ih _ _).trans (hfetch c paddr)

/-- The trace at `pc`, whose first word is at the physical address. -/
def traceAt (e : Engine) (pc paddr : UInt32) : List TraceOp :=
  let words := (readWords (traceLimit e.host.settings pc) paddr e.cpu).1
  Trace.build words words.length

theorem run_fetchTrace {paddr : UInt32} (hpc : pc &&& 3 = 0)
    (hp : e.cpu.physical? pc false = some paddr) :
    (fetchTrace pc).run e = .ok (.ok (readWords (traceLimit e.host.settings pc) paddr e.cpu).1)
      { e with cpu := (readWords (traceLimit e.host.settings pc) paddr e.cpu).2 }.settle := by
  unfold fetchTrace
  rw [EStateM.run_bind, EStateM.run_get]
  dsimp only
  rw [hp]
  dsimp only
  rw [if_neg (not_not.mpr hpc)]
  rfl

theorem yields_fetchTrace (h : Supplied o x [] e) (hpc : pc &&& 3 = 0) {paddr : UInt32}
    (hp : e.cpu.physical? pc false = some paddr) :
    Yields e (fetchTrace pc) fun r e' =>
      r = .ok (readWords (traceLimit e.host.settings pc) paddr e.cpu).1 ∧ Wanes o x e [] e' := by
  have hread : Wanes o x e []
      { e with cpu := (readWords (traceLimit e.host.settings pc) paddr e.cpu).2 } :=
    ⟨⟨h.settings, h.backend, h.stock⟩, shape_readWords .., .refl _⟩
  exact ⟨_, _, run_fetchTrace hpc hp, rfl, (wanes_kept o x e).settle hread⟩

variable {raw : List Instr} {most : Nat}

/-- Emission comes to a program, or to the end of a budget that is too small. -/
theorem yields_emitTrace (h : Wanes o x e₀ [] e)
    (hb : (emitConfig e).Bounds x pc (Trace.build raw most) n) (hne : Trace.build raw most ≠ []) :
    Yields e (emitTrace pc (Trace.build raw most)) fun r e' =>
      (∃ t, r = .ok t ∧ Block.headerSize + t.program.size ≤ n ∧ (t.exits.map (·.cell)).Nodup ∧
        Wanes o x e₀ (t.exits.map (·.cell)) e') ∨
      (r = .error .bufferFull ∧ Block.headerSize + e.host.cache.budget < n ∧
        Wanes o x e₀ [] e') := by
  have hgives := h.supplied.emitTrace pc (Trace.build raw most)
  rcases hb.ofTrace hne h.supplied.stock.offers with ⟨t, ht, hn⟩ | ⟨freed, limit, hl, hlt, hf⟩
  · have hrun : Yields e (emitTrace pc (Trace.build raw most)) fun r e' => r = .ok t ∧
        e' = e.mapHost fun h => { h with cache := h.cache.takeCells t.exits.length } := by
      unfold emitTrace
      refine .get_bind ?_
      rw [ht]
      exact .modify_bind (.pure ⟨rfl, rfl⟩)
    refine (hrun.gives hgives).mono fun r e' hr => ?_
    obtain ⟨⟨rfl, rfl⟩, hns, hheld⟩ := hr
    exact .inl ⟨t, rfl, hn, hns, hheld, h.shape, h.sheds.trans (.of_bare (bare_takeCells ..))⟩
  · have hrun : Yields e (emitTrace pc (Trace.build raw most)) fun r e' =>
        r = .error .bufferFull ∧ e' = e.mapHost fun h =>
          { h with cache := (h.cache.takeCells freed.length).freeCells freed } := by
      unfold emitTrace
      refine .get_bind ?_
      rw [hf]
      exact .modify_bind (.pure ⟨rfl, rfl⟩)
    have hbudget : e.host.cache.budget = limit := by
      unfold emitConfig at hl
      dsimp only at hl
      split at hl
      · cases hl
      · exact Option.some.inj hl
    refine (hrun.gives hgives).mono fun r e' hr => ?_
    obtain ⟨⟨rfl, rfl⟩, hfree⟩ := hr
    exact .inr ⟨rfl, hbudget ▸ hlt, hfree, h.shape,
      h.sheds.trans (.of_bare ((bare_freeCells ..).trans (bare_takeCells ..)))⟩

theorem yields_clearHalf (h : Wanes o x e₀ [] e) (hx : 4096 ≤ x.bytes) :
    Yields e clearHalf fun r e' =>
      r = .ok () ∧ x.bytes / 2 ≤ Block.headerSize + e'.host.cache.budget ∧ Wanes o x e₀ [] e' := by
  have hgives := Supplied.clearHalf h.supplied
  obtain ⟨off, d, he, hsheds, hroom⟩ := h.supplied.stock.clear_half hx
    ((e.host.cache.capacity / 2 : Nat) - Block.headerSize)
  have hrun : Yields e clearHalf fun r e' =>
      r = .ok () ∧ e' = e.mapHost fun h => { h with cache := d } := by
    unfold clearHalf
    refine .get_bind ?_
    dsimp only
    rw [he]
    exact .modify_bind (.pure ⟨rfl, rfl⟩)
  refine (hrun.gives hgives).mono fun r e' hr => ?_
  obtain ⟨⟨rfl, rfl⟩, hsupplied⟩ := hr
  exact ⟨rfl, hroom, hsupplied, h.shape, h.sheds.trans hsheds⟩

theorem yields_emitOrRetry (h : Wanes o x e₀ [] e) (h₀ : e₀.host.settings = o)
    (hx : 4096 ≤ x.bytes)
    (hb : (emitConfig e₀).Bounds x pc (Trace.build raw most) (x.bytes / 2))
    (hne : Trace.build raw most ≠ []) :
    Yields e (emitOrRetry pc (Trace.build raw most)) fun r e' =>
      ∃ t, r = .ok t ∧ Block.headerSize + t.program.size ≤ x.bytes / 2 ∧
        (t.exits.map (·.cell)).Nodup ∧ Wanes o x e₀ (t.exits.map (·.cell)) e' := by
  unfold emitOrRetry
  refine .bind (yields_emitTrace h (h.bounds h₀ hb) hne) fun r e₁ hr => ?_
  rcases hr with ⟨t, rfl, ht⟩ | ⟨rfl, -, h₁⟩
  · exact .pure ⟨t, rfl, ht⟩
  · refine .bind (yields_clearHalf h₁ hx) fun r e₂ hr => ?_
    obtain ⟨rfl, hroom, h₂⟩ := hr
    refine .bind (yields_emitTrace h₂ (h₂.bounds h₀ hb) hne) fun r e₃ hr => ?_
    -- The budget of the second attempt is at least what the program takes.
    rcases hr with ⟨t, rfl, ht⟩ | ⟨-, hlt, -⟩
    · exact .pure ⟨t, rfl, ht⟩
    · omega

theorem host_track (e : Engine) (pc : UInt32) :
    ∃ aliases, (e.track pc).host = { e.host with aliases } := by
  unfold track
  split
  · exact ⟨_, rfl⟩
  · dsimp only
    split <;> exact ⟨_, rfl⟩

theorem cache_track (e : Engine) (pc : UInt32) : (e.track pc).host.cache = e.host.cache := by
  obtain ⟨aliases, h⟩ := host_track e pc
  rw [h]

theorem cpu_track {paddr : UInt32} (hp : e.cpu.physical? pc false = some paddr)
    (hin : e.cpu.mem.inRam paddr 4 = true) :
    (e.track pc).cpu = { e.cpu with mem := e.cpu.mem.markCode paddr true } := by
  unfold track
  rw [hp]
  dsimp only
  rw [if_pos hin]
  rfl

theorem yields_insertTrace {t : TraceProgram} (h : Supplied o x (t.exits.map (·.cell)) e)
    (hns : (t.exits.map (·.cell)).Nodup) (hcheck : e.host.cache.check pc = .ok ())
    (hle : blockSize t none ≤ x.bytes) :
    Yields e (insertTrace pc t) fun r e' => ∃ id d, r = .ok id ∧
      e.host.cache.insert pc t none = (.ok id, d) ∧ d.lookup pc = .live id ∧ id ∈ d.ring ∧
      e' = ({ e with host := { e.host with cache := d } } : Engine).track pc := by
  obtain ⟨d, he, -, hlive, hring⟩ := h.stock.insert_ok hcheck hle hns (List.Subset.refl _)
  unfold insertTrace
  refine .get_bind ?_
  rw [he]
  exact .modify_bind (.modify_bind (.pure ⟨_, d, rfl, rfl, hlive, hring, rfl⟩))

/-- Words are read, a program is emitted, and it is inserted. -/
theorem yields_compile_of_emit {words : List Instr}
    {R : Except CompileError BlockId → Engine → Prop} (hne : Trace.build words words.length ≠ [])
    (hslot : ∀ op, Trace.build words words.length = [op] → op.delaySlotOmitted = false)
    (hrun : Yields e (fetchTrace pc) fun r e₁ => r = .ok words ∧
      Yields e₁ (emitOrRetry pc (Trace.build words words.length)) fun r e₂ =>
        ∃ t, r = .ok t ∧ e₂.host.backend = .emulator ∧ Yields e₂ (insertTrace pc t) R) :
    Yields e (compile pc) R := by
  unfold compile
  refine .bind hrun fun r e₁ hr => ?_
  obtain ⟨rfl, hemit⟩ := hr
  dsimp only
  split
  · rename_i hnil
    exact absurd hnil hne
  · rename_i op rest hops
    rw [hops] at hslot
    have hwhole : ¬(rest.isEmpty && op.delaySlotOmitted) = true := by
      cases rest with
      | nil => simp [hslot op rfl]
      | cons _ _ => simp
    rw [if_neg hwhole]
    refine .bind hemit fun r e₂ hr => ?_
    obtain ⟨t, rfl, hemulator, hinsert⟩ := hr
    refine .get_bind ?_
    have hnative : e₂.host.backend ≠ .native := by
      rw [hemulator]
      decide
    rw [if_neg hnative]
    exact hinsert

/-- There is a trace at `pc`, its page may have a block, and its program takes at most half of the
cache with any cells. -/
structure Compact (e : Engine) (pc : UInt32) : Prop where
  aligned : pc &&& 3 = 0
  room : pageOf pc ∈ e.host.cache.tables ∨ e.host.cache.tables.length < e.host.cache.maxPages
  mapped : ∃ paddr, e.cpu.physical? pc false = some paddr ∧ traceAt e pc paddr ≠ [] ∧
    (∀ op, traceAt e pc paddr = [op] → op.delaySlotOmitted = false) ∧
    (emitConfig e).Bounds e.host.cache.extent pc (traceAt e pc paddr)
      (e.host.cache.capacity / 2)

/-- Such a trace is compiled. -/
theorem yields_compile (h : Supplied o x [] e) (hx : 4096 ≤ x.bytes)
    (hbackend : o.backend.resolve = .emulator) (hc : e.Compact pc) :
    Yields e (compile pc) fun r e' => ∃ id, r = .ok id ∧
      e'.host.cache.lookup pc = .live id ∧ id ∈ e'.host.cache.ring := by
  obtain ⟨hpc, hroom, paddr, hp, hne, hslot, hb⟩ := hc
  rw [h.stock.extent, h.stock.capacity] at hb
  refine yields_compile_of_emit hne hslot ((yields_fetchTrace h hpc hp).mono fun r e₁ hr => ?_)
  obtain ⟨rfl, h₁⟩ := hr
  refine ⟨rfl, (yields_emitOrRetry h₁ h.settings hx hb hne).mono fun r e₂ hr => ?_⟩
  obtain ⟨t, rfl, hsize, hns, h₂⟩ := hr
  have hcheck := h.stock.check_of_sheds h₂.sheds
    ((check_ok_iff h.stock.charted).mpr ⟨hpc, hroom⟩)
  have hle : blockSize t none ≤ x.bytes := by
    change align (Block.headerSize + t.program.size) ≤ _
    unfold align
    omega
  refine ⟨t, rfl, h₂.supplied.backend.trans hbackend,
    (yields_insertTrace h₂.supplied hns hcheck hle).mono fun r e₃ hr => ?_⟩
  obtain ⟨id, d, rfl, -, hlive, hring, rfl⟩ := hr
  rw [cache_track]
  exact ⟨id, rfl, hlive, hring⟩

theorem supplied_create {mem : Memory} (h : Engine.create mem o = .ok e) :
    ∃ size, arenaSize o = .ok size ∧
      Supplied o (CodeCache.create (.create size) o.maxPages 0).extent [] e := by
  unfold Engine.create at h
  cases hs : arenaSize o with
  | error err =>
    rw [hs] at h
    cases h
  | ok size =>
    rw [hs] at h
    cases h
    refine ⟨size, rfl, ?_⟩
    unfold attach
    dsimp only
    split <;> exact ⟨rfl, rfl, .create size o.maxPages 0⟩

theorem Supplied.close (h : Supplied o x held e) :
    Gives e close fun _ => Supplied o { x with bytes := 0 } held := by
  unfold Engine.close
  refine .modify_bind (.get_bind ?_)
  split
  · rename_i d hd
    intro a e' hr
    cases hr
    exact ⟨h.settings, h.backend, h.stock.close hd⟩
  · exact .throw

theorem Reached.supplied (h : Reached o e) :
    ∃ x, Supplied o x [] e ∧ (arenaSize o = .ok x.bytes ∨ x.bytes = 0) := by
  induction h with
  | create h =>
    obtain ⟨size, hsize, hs⟩ := supplied_create h
    exact ⟨_, hs, .inl hsize⟩
  | other _ hs hb hc ih =>
    obtain ⟨x, h, hsize⟩ := ih
    exact ⟨x, ⟨hs.trans h.settings, hb.trans h.backend, hc.symm ▸ h.stock⟩, hsize⟩
  | invalidatePage page _ ih =>
    obtain ⟨x, h, hsize⟩ := ih
    exact ⟨x, (Supplied.kept ..).invalidatePage page h, hsize⟩
  | clear _ ih =>
    obtain ⟨x, h, hsize⟩ := ih
    exact ⟨x, (Supplied.kept ..).clear h, hsize⟩
  | close _ hr ih =>
    obtain ⟨x, h, -⟩ := ih
    exact ⟨_, h.close _ _ hr, .inr rfl⟩
  | compile _ hr ih =>
    obtain ⟨x, h, hsize⟩ := ih
    exact ⟨x, h.compile _ _ _ hr, hsize⟩

theorem Compact.open (hc : e.Compact pc) (h : Supplied o x held e) : x.bytes ≠ 0 := by
  obtain ⟨-, -, paddr, -, hne, -, hb⟩ := hc
  rw [h.stock.extent, h.stock.capacity] at hb
  intro hx
  rcases hb.ofTrace hne h.stock.offers with ⟨t, -, hsize⟩ | ⟨-, limit, -, hsize, -⟩
  · unfold Block.headerSize at hsize
    omega
  · omega

/-- With a cache of at least 4096 bytes and without native code, a trace that takes at most half of
the cache is compiled, however the blocks lie: its block is live and in the ring. Whatever comes of
a compilation, no cell is lost. -/
theorem compile_of_compact (h : Reached o e) (ho : 4096 ≤ o.cacheSize)
    (hbackend : o.backend.resolve = .emulator) (pc : UInt32) :
    (e.Compact pc → ∃ id e', (compile pc).run e = .ok (.ok id) e' ∧
        e'.host.cache.lookup pc = .live id ∧ id ∈ e'.host.cache.ring) ∧
      ∀ r e', (compile pc).run e = .ok r e' →
        (e'.host.cache.free ++ e'.host.cache.boundCells).Perm
          (e.host.cache.free ++ e.host.cache.boundCells) := by
  obtain ⟨x, hs, hsize⟩ := h.supplied
  refine ⟨fun hc => ?_, fun r e' hr => ?_⟩
  · have hx : 4096 ≤ x.bytes := by
      have hx := hsize.resolve_right (hc.open hs)
      unfold arenaSize at hx
      rw [hbackend] at hx
      have hbytes : o.cacheSize.toNat = x.bytes := Except.ok.inj hx
      omega
    obtain ⟨r, e', hr, id, rfl, hlive⟩ := yields_compile hs hx hbackend hc
    exact ⟨id, e', hr, hlive⟩
  · have hcells := hs.stock.placed.cells
    have hcells' := (hs.compile pc r e' hr).stock.placed.cells
    rw [List.append_nil] at hcells hcells'
    exact hcells'.trans hcells.symm

/-- A trace that fits is put behind the newest block. -/
theorem yields_compile_of_fit {words : List Instr} {t : TraceProgram} {e₁ : Engine} {off : Nat}
    (h₁ : Supplied o x [] e₁) (hbackend : o.backend.resolve = .emulator)
    (hfetch : (fetchTrace pc).run e = .ok (.ok words) e₁)
    (hne : Trace.build words words.length ≠ [])
    (hslot : ∀ op, Trace.build words words.length = [op] → op.delaySlotOmitted = false)
    (ht : TraceProgram.ofTrace (emitConfig e₁) e₁.host.cache.free pc
      (Trace.build words words.length) = .ok t)
    (hcheck : e₁.host.cache.check pc = .ok ())
    (hfit : e₁.host.cache.fit? (blockSize t none) = some off) :
    Yields e (compile pc) fun r e' => ∃ id d, r = .ok id ∧
      (e₁.host.cache.takeCells t.exits.length).insert pc t none = (.ok id, d) ∧
      d.lookup pc = .live id ∧ id ∈ d.ring ∧
      d.frame = ((e₁.host.cache.takeCells t.exits.length).push
        (fresh t off (blockSize t none))).frame ∧
      e' = ({ e₁ with host := { e₁.host with cache := d } } : Engine).track pc := by
  have hrun : Yields e₁ (emitTrace pc (Trace.build words words.length)) fun r e' => r = .ok t ∧
      e' = e₁.mapHost fun h => { h with cache := h.cache.takeCells t.exits.length } := by
    unfold emitTrace
    refine .get_bind ?_
    rw [ht]
    exact .modify_bind (.pure ⟨rfl, rfl⟩)
  have hemit := hrun.gives (h₁.emitTrace pc (Trace.build words words.length))
  refine yields_compile_of_emit hne hslot ⟨_, _, hfetch, rfl, ?_⟩
  unfold emitOrRetry
  refine .bind hemit fun r e₂ hr => ?_
  obtain ⟨⟨rfl, rfl⟩, hns, h₂⟩ := hr
  refine .pure ⟨t, rfl, h₂.backend.trans hbackend, ?_⟩
  have hle : blockSize t none ≤ x.bytes := by
    have hin := (h₁.stock.sound.ringed.fit hfit).1
    have hcap := h₁.stock.capacity
    omega
  refine (yields_insertTrace h₂ hns hcheck hle).mono fun r e₃ hr => ?_
  obtain ⟨id, d, rfl, he, hlive, hring, rfl⟩ := hr
  have hfit₂ : (e₁.host.cache.takeCells t.exits.length).fit? (blockSize t none) = some off := hfit
  obtain ⟨d', hins, hframe⟩ := h₂.stock.sound.insert_of_fit hcheck hfit₂ h₂.stock.heap
  have hd : d' = d := (Prod.ext_iff.mp (hins.symm.trans he)).2
  exact ⟨id, d, rfl, he, hlive, hring, hd ▸ hframe, rfl⟩

theorem yields_lookup_of_compile {Q : BlockId → Engine → Prop}
    (hmiss : (e.host.cache.lookup pc).block? = none)
    (h : Yields (e.mapHost fun h =>
      { h with counters := { h.counters with miss := h.counters.miss + 1 } }) (compile pc)
        fun r e' => ∃ id, r = .ok id ∧ Q id e') :
    Yields e (lookup pc) fun r e' => ∃ id, r = some id ∧ Q id e' := by
  unfold lookup
  refine .get_bind ?_
  split
  · rename_i id hl
    rw [hl] at hmiss
    cases hmiss
  · refine .modify_bind (.bind h fun r e' hr => ?_)
    obtain ⟨id, rfl, hq⟩ := hr
    exact .pure ⟨id, rfl, hq⟩

theorem free_create (arena : Arena) (maxPages : Int) :
    (CodeCache.create arena maxPages 0).free = List.range 65536 := by
  simp only [CodeCache.create, le_refl, if_true, defaultMaxCells]

/-- A trace at the first address of the RAM is compiled into an empty cache. -/
theorem yields_compile_of_empty {most : Int} {k size : Nat} {words : List Instr}
    {t : TraceProgram} {c : Cpu} {host : Host}
    (hset : host.settings = ⟨4096, most, 1, 1, 1, .emulator, false⟩)
    (hbackend : host.backend = .emulator) (hcache : host.cache = .create (.create 4096) 1 0)
    (hphys : c.physical? 0x80000000 false = some 0) (hshape : c.shape = (4096, true))
    (hlimit : traceLimit ⟨4096, most, 1, 1, 1, .emulator, false⟩ 0x80000000 = k)
    (hwords : (readWords k 0 c).1 = words) (heffects : (readWords k 0 c).2.effects.isEmpty = true)
    (hlength : 2 ≤ (Trace.build words words.length).length)
    (ht : TraceProgram.ofTrace ⟨1, 4096, true, some 4080⟩ (List.range 65536) 0x80000000
      (Trace.build words words.length) = .ok t)
    (hsize : blockSize t none = size)
    (hfit : (CodeCache.create (.create 4096) 1 0).fit? size = some 0) :
    Yields ⟨c, host⟩ (compile 0x80000000) fun r e' => ∃ id d, r = .ok id ∧
      ((CodeCache.create (.create 4096) 1 0).takeCells t.exits.length).insert 0x80000000 t none
        = (.ok id, d) ∧
      d.lookup 0x80000000 = .live id ∧ id ∈ d.ring ∧
      d.frame = (((CodeCache.create (.create 4096) 1 0).takeCells t.exits.length).push
        (fresh t 0 size)).frame ∧
      e' = (⟨(readWords k 0 c).2, { host with cache := d }⟩ : Engine).track 0x80000000 := by
  obtain ⟨hram, hwide⟩ := Cpu.of_shape ((shape_readWords k 0 c).trans hshape)
  have hs (c : Cpu) : Supplied ⟨4096, most, 1, 1, 1, .emulator, false⟩
      (CodeCache.create (.create 4096) 1 0).extent [] ⟨c, host⟩ :=
    ⟨hset, hbackend, hcache ▸ .create 4096 1 0⟩
  have hfetch : (fetchTrace 0x80000000).run ⟨c, host⟩
      = .ok (.ok words) ⟨(readWords k 0 c).2, host⟩ := by
    have h := run_fetchTrace (e := ⟨c, host⟩) (by decide) hphys
    rw [hset, hlimit, hwords, settle, if_pos heffects] at h
    exact h
  have hcfg : emitConfig ⟨(readWords k 0 c).2, host⟩ = ⟨1, 4096, true, some 4080⟩ := by
    simp only [emitConfig, hset, hram, hwide, hcache]
    rfl
  have hfree : host.cache.free = List.range 65536 := by rw [hcache, free_create]
  rw [← hcfg, ← hfree] at ht
  have hcheck : host.cache.check 0x80000000 = .ok () := by
    rw [check_ok_iff (hs c).stock.charted, hcache]
    exact ⟨by decide, .inr (by decide +kernel)⟩
  have hfit' : host.cache.fit? (blockSize t none) = some 0 := by
    rw [hcache, hsize]
    exact hfit
  have hne : Trace.build words words.length ≠ [] := fun hnil => by
    rw [hnil] at hlength
    cases hlength
  have hslot (op : TraceOp) : Trace.build words words.length = [op] →
      op.delaySlotOmitted = false := fun hop => by
    rw [hop] at hlength
    exact absurd hlength (Nat.lt_irrefl 1)
  have hcompile := yields_compile_of_fit (hs _) rfl hfetch hne hslot ht hcheck hfit'
  rw [hsize] at hcompile
  rw [← hcache]
  exact hcompile

/-- A page of loads. Its last instruction does nothing. -/
def loads : Memory := ⟨(Array.replicate 1024 0xdc220008).setIfInBounds 1023 0, #[false], []⟩

/-- The program of these loads leaves 16 bytes of a cache of 4096. -/
theorem ofTrace_loads : ∃ t, TraceProgram.ofTrace ⟨1, 4096, true, some 4080⟩ (List.range 65536)
      0x80000000 (Trace.build (List.replicate 12 ⟨0xdc220008⟩) 12) = .ok t ∧
    t.program.size = 4039 ∧ t.exits.length = 1 := by
  have hsize : (TraceProgram.ofTrace ⟨1, 4096, true, some 4080⟩ (List.range' 0 65536) 0x80000000
      (Trace.build (List.replicate 12 ⟨0xdc220008⟩) 12)).toOption.map
        (fun t => (t.program.size, t.exits.length)) = some (4039, 1) := by
    decide +kernel
  rw [List.range_eq_range']
  cases ht : TraceProgram.ofTrace ⟨1, 4096, true, some 4080⟩ (List.range' 0 65536) 0x80000000
      (Trace.build (List.replicate 12 ⟨0xdc220008⟩) 12) with
  | error failure =>
    rw [ht] at hsize
    cases hsize
  | ok t =>
    rw [ht] at hsize
    exact ⟨t, rfl, Prod.mk.inj (Option.some.inj hsize)⟩

theorem shape_loads : (Cpu.powerOn loads none).shape = (4096, true) := by
  decide +kernel

theorem compile_loads (he : Engine.create loads ⟨4096, 12, 1, 1, 1, .emulator, false⟩ = .ok e) :
    Yields e (compile 0x80000000) fun r e' => ∃ id, r = .ok id ∧
      e'.host.cache.lookup 0x80000000 = .live id ∧ e'.host.cache.capacity = 4096 ∧
      e'.host.cache.budget = 16 := by
  obtain ⟨t, ht, hbytes, hexits⟩ := ofTrace_loads
  obtain ⟨cpu, host⟩ := e
  obtain ⟨rfl, hset, hbackend, hcache⟩ : cpu = Cpu.powerOn loads none ∧
      host.settings = ⟨4096, 12, 1, 1, 1, .emulator, false⟩ ∧ host.backend = .emulator ∧
      host.cache = CodeCache.create (.create 4096) 1 0 := by
    cases he
    exact ⟨rfl, rfl, rfl, rfl⟩
  have hread : 2 ≤ (Trace.build (List.replicate 12 ⟨0xdc220008⟩) 12).length ∧
      (readWords 12 0 (Cpu.powerOn loads none)).1 = List.replicate 12 ⟨0xdc220008⟩ ∧
      (readWords 12 0 (Cpu.powerOn loads none)).2.effects.isEmpty = true := by
    decide +kernel
  obtain ⟨hlength, hwords, heffects⟩ := hread
  have hblock : blockSize t none = 4064 := by
    change align (Block.headerSize + t.program.size) = _
    rw [hbytes]
    rfl
  refine (yields_compile_of_empty hset hbackend hcache (by decide) shape_loads (by decide) hwords
    heffects hlength ht hblock rfl).mono fun r e' hr => ?_
  obtain ⟨id, d, rfl, -, hlive, -, hframe, he'⟩ := hr
  rw [he', cache_track]
  have hcap : ((CodeCache.create (.create 4096) 1 0).takeCells t.exits.length).capacity = 4096 :=
    rfl
  have hpush := budget_push_of_nil (c := (CodeCache.create (.create 4096) 1 0).takeCells
    t.exits.length) (b := fresh t 0 4064) rfl rfl (Nat.zero_lt_succ _) (show 4064 < 4096 by decide)
  refine ⟨id, rfl, hlive, (capacity_of_frame hframe).trans ((capacity_push ..).trans hcap),
    (budget_of_frame hframe).trans (hpush.trans ?_)⟩
  rw [hcap]
  rfl

/-- An instruction that does nothing takes between 62 and 132 bytes. -/
theorem size_nop {cfg : Emit.Config} (hcost : cfg.countPerOp = 1) (hram : cfg.ramSize = 4096)
    (hwide : cfg.wideFp = true) (cells : List Nat) :
    ∃ t, TraceProgram.ofTrace { cfg with budget := none } cells 0x80000ffc
      (Trace.build [⟨0⟩] 1) = .ok t ∧ 62 ≤ t.program.size ∧ t.program.size ≤ 132 := by
  obtain ⟨cost, ram, wide, budget⟩ := cfg
  obtain rfl : cost = 1 := hcost
  obtain rfl : ram = 4096 := hram
  obtain rfl : wide = true := hwide
  have hsize : (TraceProgram.ofTrace ⟨1, 4096, true, none⟩ cells 0x80000ffc
      (Trace.build [⟨0⟩] 1)).toOption.map (·.program.size) =
        some (if cells.isEmpty then 62 else 132) := by
    cases cells with
    | nil => cbv
    | cons n cells => cbv
  cases ht : TraceProgram.ofTrace ⟨1, 4096, true, none⟩ cells 0x80000ffc (Trace.build [⟨0⟩] 1) with
  | error failure =>
    rw [ht] at hsize
    cases hsize
  | ok t =>
    rw [ht] at hsize
    have hp : t.program.size = _ := Option.some.inj hsize
    refine ⟨t, rfl, ?_⟩
    split at hp <;> omega

theorem bounds_nop {cfg : Emit.Config} {n : Nat} (hcost : cfg.countPerOp = 1)
    (hram : cfg.ramSize = 4096) (hwide : cfg.wideFp = true) (hn : 148 ≤ n) (x : Extent) :
    cfg.Bounds x 0x80000ffc (Trace.build [⟨0⟩] 1) n := by
  constructor
  · intro cells failure _ hf
    obtain ⟨t, ht, -⟩ := size_nop hcost hram hwide cells
    rw [hf] at ht
    cases ht
  · intro cells t _ ht
    obtain ⟨t', ht', -, hle⟩ := size_nop hcost hram hwide cells
    cases ht.symm.trans ht'
    unfold Block.headerSize
    omega

/-- A block takes 4064 bytes of 4096, and the first attempt runs out of the 16 that are left. -/
theorem compile_of_compact_nop : ∃ e, Reached ⟨4096, 12, 1, 1, 1, .emulator, false⟩ e ∧
    (∃ e', (emitTrace 0x80000ffc (traceAt e 0x80000ffc 0xffc)).run e =
      .ok (.error .bufferFull) e') ∧
    (∃ id e', (compile 0x80000ffc).run e = .ok (.ok id) e' ∧
      e'.host.cache.lookup 0x80000ffc = .live id ∧ id ∈ e'.host.cache.ring) ∧
    ∀ r e', (compile 0x80000ffc).run e = .ok r e' →
      (e'.host.cache.free ++ e'.host.cache.boundCells).Perm
        (e.host.cache.free ++ e.host.cache.boundCells) := by
  obtain ⟨e₀, he⟩ : ∃ e₀, Engine.create loads ⟨4096, 12, 1, 1, 1, .emulator, false⟩ = .ok e₀ :=
    ⟨_, rfl⟩
  obtain ⟨r, e₁, hrun, id, -, hlive, hcap, hbudget⟩ := compile_loads he
  have hr₁ : Reached ⟨4096, 12, 1, 1, 1, .emulator, false⟩ e₁ := (Reached.create he).compile hrun
  obtain ⟨x, hs, hx⟩ := hr₁.supplied
  have hr : Reached ⟨4096, 12, 1, 1, 1, .emulator, false⟩
      { e₁ with cpu := Cpu.powerOn loads none } := hr₁.other rfl rfl rfl
  generalize he₂ : ({ e₁ with cpu := Cpu.powerOn loads none } : Engine) = e at hr
  have hcpu : e.cpu = Cpu.powerOn loads none := he₂ ▸ rfl
  have hcache : e.host.cache = e₁.host.cache := he₂ ▸ rfl
  have hset : e.host.settings = ⟨4096, 12, 1, 1, 1, .emulator, false⟩ := he₂ ▸ hs.settings
  have hops : traceAt e 0x80000ffc 0xffc = Trace.build [⟨0⟩] 1 := by
    unfold traceAt
    rw [hset, hcpu]
    decide +kernel
  obtain ⟨hsize, hwide⟩ := Cpu.of_shape shape_loads
  have hcfg : emitConfig e = ⟨1, 4096, true, some 16⟩ := by
    simp only [emitConfig, hset, hcpu, hcache, hbudget, hsize, hwide]
    rfl
  have hcompact : e.Compact 0x80000ffc := by
    refine ⟨by decide, .inl ?_, 0xffc, ?_, ?_⟩
    · have hmem : pageOf 0x80000000 ∈ e₁.host.cache.tables :=
        mem_tables_of_live hs.stock.charted hlive
      rw [hcache]
      exact hmem
    · rw [hcpu]
      decide
    · rw [hops, hcfg, hcache, hcap]
      refine ⟨by decide, fun op hop => ?_, bounds_nop rfl rfl rfl (by decide) _⟩
      obtain rfl := List.singleton_inj.mp hop
      decide
  have hlaw := compile_of_compact hr (by decide) (by decide) 0x80000ffc
  refine ⟨e, hr, ?_, hlaw.1 hcompact, hlaw.2⟩
  have hcost : (⟨1, 4096, true, some 16⟩ : Emit.Config).countPerOp = 1 := rfl
  obtain ⟨t, ht, hle, -⟩ := size_nop hcost rfl rfl e.host.cache.free
  obtain ⟨t', -, ht', -, -, hfull⟩ := TraceProgram.ofTrace_budget ⟨1, 4096, true, some 16⟩
    e.host.cache.free 0x80000ffc [⟨0⟩] 1 16 (by decide) fun failure hf => by
      rw [hf] at ht
      cases ht
  cases ht.symm.trans ht'
  rw [if_neg (by omega)] at hfull
  have hemit : Yields e (emitTrace 0x80000ffc (traceAt e 0x80000ffc 0xffc)) fun r _ =>
      r = .error .bufferFull := by
    unfold emitTrace
    refine .get_bind ?_
    rw [hops, hcfg, hfull]
    exact .modify_bind (.pure rfl)
  obtain ⟨r, e', hrun', rfl⟩ := hemit
  exact ⟨e', hrun'⟩

end Engine

end Recompiler
