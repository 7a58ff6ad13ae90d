import Recompiler.Proofs.Budgets
import Recompiler.Proofs.EngineTerms
import Recompiler.Proofs.Insertions

/-!
The link cells of an engine. Between compilations nobody holds a cell: each is free or belongs to
an exit of a block in the ring. A compilation takes cells for the exits of its trace and gives
them to the block, or back if there is none. Whatever else an engine does only takes blocks away.
-/

namespace Recompiler

open Ir Emit CodeCache

/-- The cells of the exits were taken from the front of `cells`. -/
def Emitter.Took (cells : List Nat) (e : Emitter) : Prop :=
  e.exits.toList.map (·.cell) ++ e.cells = cells

def Emit.final {α : Type} : EStateM.Result EmitError Emitter α → Emitter
  | .ok _ e | .error _ e => e

theorem Emit.took_of_whole (cfg : Config) (cells : List Nat) (pc : UInt32) (ops : List TraceOp) :
    (final (whole cfg pc ops (.create cfg cells))).Took cells := by
  have hmirror := blind_whole cfg pc ops _ _
    (Emitter.within_create cfg cells (cfg.budget.getD 0))
  have hwithin {limit : Nat} {r r' : EStateM.Result EmitError Emitter Unit}
      (h : Mirrors (Emitter.Within limit cells) r r') :
      (final r).Took cells ∧ (final r').Took cells := by
    cases h with
    | ok _ h =>
      obtain ⟨hcells, _, -, rfl⟩ := h
      exact ⟨hcells, hcells⟩
    | error _ h =>
      obtain ⟨hcells, _, -, rfl⟩ := h
      exact ⟨hcells, hcells⟩
  obtain ⟨hnone, hsome⟩ := hwithin hmirror
  obtain ⟨cost, ram, wide, budget⟩ := cfg
  cases budget with
  | none => exact hnone
  | some limit => exact hsome

/-- A trace that is emitted gets the first of the cells, and one that is not gives back the first
of them. -/
theorem TraceProgram.cells_of_ofTrace (cfg : Emit.Config) (cells : List Nat) (pc : UInt32)
    (ops : List TraceOp) :
    match ofTrace cfg cells pc ops with
    | .ok t => t.exits.map (·.cell) <+: cells
    | .error f => f.freed <+: cells := by
  have hcells := took_of_whole cfg cells pc ops
  unfold ofTrace
  by_cases hops : ops.isEmpty = true
  · rw [if_pos hops]
    exact List.nil_prefix
  · rw [if_neg hops]
    have hfail (e : Emitter) (err : EmitError) (he : e.Took cells) :
        (e.fail err).freed <+: cells := by
      unfold Emitter.fail
      dsimp only
      split
      · exact ⟨_, he⟩
      · exact List.nil_prefix
    generalize whole cfg pc ops (Emitter.create cfg cells) = r at hcells
    cases r with
    | error err e => exact hfail e err hcells
    | ok u e =>
      change match (e.finish ops.length).mapError e.fail with
        | .ok t => t.exits.map (·.cell) <+: cells
        | .error f => f.freed <+: cells
      unfold Emitter.finish
      split
      · rename_i he
        split at he
        · cases he
        · split at he
          · cases he
            exact ⟨_, hcells⟩
          · cases he
      · rename_i f he
        split at he
        · cases he
          exact hfail e _ hcells
        · split at he
          · cases he
          · cases he
            exact hfail e _ hcells

theorem Span.Laid.nil {cap first next : Nat} (h : Span.Laid cap [] first next) (n : Nat) :
    Span.Laid n [] first next := by
  generalize hs : ([] : List Span) = ss at h
  cases h with
  | empty => exact .empty
  | straight hne => exact absurd hs.symm hne
  | wrapped hne => exact absurd (List.append_eq_nil_iff.mp hs.symm).1 hne

namespace CodeCache

variable {x : Extent} {c d : CodeCache} {ns held : List Nat}

theorem Stocked.nodup_free (h : Stocked x c held) : c.free.Nodup :=
  (List.nodup_append.mp (List.nodup_append.mp h.placed.nodup).1).1

theorem Stocked.takeCells (h : Stocked x c held) (hns : ns <+: c.free) :
    Stocked x (c.takeCells ns.length) (ns ++ held) := by
  obtain ⟨rest, hrest⟩ := hns
  have hfree : (c.takeCells ns.length).free = rest := by
    change c.free.drop ns.length = rest
    rw [← hrest, List.drop_left]
  have hperm : (rest ++ (ns ++ held)).Perm (c.free ++ held) := by
    rw [← hrest, ← List.append_assoc]
    exact List.perm_append_comm.append_right held
  have hplaced : Placed x.cells (c.takeCells ns.length) (ns ++ held) := by
    refine ⟨h.placed.size, ?_, fun {k} hk => h.placed.unbound ?_⟩
    · rw [hfree]
      exact (hperm.append_right _).trans h.placed.cells
    · rw [hfree] at hk
      exact hperm.mem_iff.mp hk
  exact h.shed (h.sound.of_bare rfl)
    ⟨h.wired.empty, h.wired.links, h.wired.links_nodup, h.wired.waits, h.wired.waits_nodup⟩
    (h.worded.of_blocks rfl rfl rfl) hplaced rfl rfl (.of_pages rfl rfl rfl)

/-- A cache that has been closed has an arena of no bytes. -/
theorem Stocked.close (h : Stocked x c held) (he : c.close = .ok d) :
    Stocked { x with bytes := 0 } d held := by
  obtain ⟨f, hflush, hsound, -, hnil⟩ := h.sound.evictMany rfl
  have hf : Stocked x f held := h.evictMany hflush
  have hd : d = { f with arena := .create 0 } := by
    unfold CodeCache.close flush at he
    rw [hflush] at he
    exact (Except.ok.inj he).symm
  have hlaid : Span.Laid 0 f.spans f.first f.next := by
    have hspans : f.spans = [] := congrArg (List.map f.span) hnil
    have hlaid := hsound.ringed.laid
    rw [hspans] at hlaid ⊢
    exact hlaid.nil 0
  have hring := hsound.ringed
  rw [hd]
  exact
    { sound := ⟨hsound.mapped.mono rfl (List.Subset.refl _) (Nat.le_refl _) fun _ => rfl,
        ⟨hlaid, hring.used, hring.nodup, hring.bound, hring.entries⟩⟩
      wired := hf.wired.of_sameCells ⟨rfl, rfl, rfl, rfl, fun _ => rfl⟩
      worded := hf.worded.withArena _
      placed := hf.placed.withArena _
      heap := rfl
      capacity := rfl
      accounted := hf.accounted
      maxPages := hf.maxPages }

theorem diff_self (ns : List Nat) : ns.diff ns = [] := by
  induction ns with
  | nil => rfl
  | cons n ns ih => rw [List.diff_cons, List.erase_cons_head, ih]

end CodeCache

/-- What the programs of a CPU depend on: the size of the memory and the register mode. -/
def Cpu.shape (c : Cpu) : Nat × Bool := (c.mem.size, c.wideFpRegs)

theorem Cpu.of_shape {c : Cpu} {size : Nat} {wide : Bool} (h : c.shape = (size, wide)) :
    c.mem.size = size ∧ c.wideFpRegs = wide := Prod.ext_iff.mp h

namespace Engine

variable {o : Settings} {x : Extent} {e e' : Engine} {α : Type} {held : List Nat}

/-- An engine with the settings `o`, whose cache is as large as `x` says. -/
structure Supplied (o : Settings) (x : Extent) (held : List Nat) (e : Engine) : Prop where
  settings : e.host.settings = o
  backend : e.host.backend = o.backend.resolve
  stock : Stocked x e.host.cache held

/-- A property of the settings, of the cache and of the shape of the CPU that invalidations
keep. -/
structure Kept (I : Engine → Prop) : Prop where
  other {e e' : Engine} : I e → e'.host.settings = e.host.settings →
    e'.host.backend = e.host.backend → e'.host.cache = e.host.cache →
    e'.cpu.shape = e.cpu.shape → I e'
  invalidatePage {e : Engine} (page : UInt32) : I e → I (e.mapHost (·.invalidatePage page))
  clear {e : Engine} : I e → I (e.mapHost fun h => { h with cache := h.cache.invalidateAll })

theorem size_unmark (m : Memory) (pages : List UInt32) : (unmark m pages).size = m.size :=
  List.foldlRecOn (motive := fun n : Memory => n.size = m.size) _ _ rfl fun _ h _ _ => h

namespace Kept

variable {I : Engine → Prop}

theorem invalidatePages (hI : Kept I) (h : I e) (pages : List UInt32) :
    I (e.mapHost fun host => pages.foldl Host.invalidatePage host) := by
  induction pages generalizing e with
  | nil => exact h
  | cons page pages ih => exact ih (hI.invalidatePage page h)

theorem invalidateAll (hI : Kept I) (h : I e) : I e.invalidateAll :=
  hI.other (hI.clear h) rfl rfl rfl (Prod.ext (size_unmark ..) rfl)

theorem statusWritten (hI : Kept I) (h : I e) (old new : UInt32) : I (e.statusWritten old new) := by
  have h1 : I (if (old ^^^ new) &&& StatusBit.fr ≠ 0 then e.invalidateAll else e) := by
    split
    · exact hI.invalidateAll h
    · exact h
  unfold Engine.statusWritten
  dsimp only
  split
  · exact hI.other h1 rfl rfl rfl rfl
  · exact h1

theorem codeWritten (hI : Kept I) (h : I e) (paddr : UInt32) : I (e.codeWritten paddr) := by
  have h1 : I ((e.mapCpu fun c => { c with mem := c.mem.markCode paddr false }).mapHost
      fun h => { h with
        aliases := h.aliases.erase (paddr >>> 12)
        stale := h.stale ||
          (e.host.aliases.getD (paddr >>> 12) []).contains (e.cpu.pc >>> 12) }) :=
    hI.other h rfl rfl rfl rfl
  exact hI.invalidatePages h1 _

theorem react (hI : Kept I) (h : I e) (f : Effect) : I (e.react f) := by
  cases f with
  | statusWritten old new => exact hI.statusWritten h old new
  | tlbWritten old new =>
    unfold Engine.react Engine.tlbWritten
    dsimp only
    split
    · exact hI.invalidatePages h _
    · exact h
  | codeWritten paddr =>
    unfold Engine.react
    dsimp only
    split
    · exact hI.codeWritten h paddr
    · exact h
  | _ => exact hI.other h rfl rfl rfl rfl

theorem settle (hI : Kept I) (h : I e) : I e.settle := by
  unfold Engine.settle
  dsimp only
  split
  · exact h
  · rw [← Array.foldl_toList]
    have hd : I (e.mapCpu (·.drained)) := hI.other h rfl rfl rfl rfl
    exact List.foldlRecOn _ _ hd fun _ h f _ => hI.react h f

end Kept

namespace Supplied

theorem withCache {held' : List Nat} {cache : CodeCache} (h : Supplied o x held e)
    (hs : Stocked x cache held') : Supplied o x held' (e.mapHost fun h => { h with cache }) :=
  ⟨h.settings, h.backend, hs⟩

theorem track (h : Supplied o x held e) (pc : UInt32) : Supplied o x held (e.track pc) := by
  unfold Engine.track
  split
  · exact h
  · dsimp only
    split
    · exact ⟨h.settings, h.backend, h.stock⟩
    · exact h

theorem kept (o : Settings) (x : Extent) (held : List Nat) : Kept (Supplied o x held) where
  other h hs hb hc _ := ⟨hs.trans h.settings, hb.trans h.backend, hc.symm ▸ h.stock⟩
  invalidatePage page h := h.withCache (h.stock.invalidatePage page)
  clear h := h.withCache h.stock.invalidateAll

theorem fetchTrace (h : Supplied o x [] e) (pc : UInt32) :
    Gives e (fetchTrace pc) fun _ => Supplied o x [] := by
  unfold Engine.fetchTrace
  refine .get_bind ?_
  split
  · exact .pure h
  · split
    · exact .pure h
    · exact .modify_bind (.pure ((kept o x []).settle ⟨h.settings, h.backend, h.stock⟩))

end Supplied

/-- The cells of a trace that has been emitted are held; those of one that has not are free. -/
def Emitted (o : Settings) (x : Extent) {ε : Type} (r : Except ε TraceProgram) (e : Engine) :
    Prop :=
  match r with
  | .ok t => (t.exits.map (·.cell)).Nodup ∧ Supplied o x (t.exits.map (·.cell)) e
  | .error _ => Supplied o x [] e

namespace Supplied

theorem emitTrace (h : Supplied o x [] e) (pc : UInt32) (ops : List TraceOp) :
    Gives e (emitTrace pc ops) (Emitted o x) := by
  have hcells := TraceProgram.cells_of_ofTrace (emitConfig e) e.host.cache.free pc ops
  unfold Engine.emitTrace
  refine .get_bind ?_
  generalize TraceProgram.ofTrace (emitConfig e) e.host.cache.free pc ops = r at hcells ⊢
  cases r with
  | ok t =>
    have htaken := h.stock.takeCells hcells
    rw [List.append_nil, List.length_map] at htaken
    exact .modify_bind (.pure ⟨h.stock.nodup_free.sublist hcells.sublist, h.withCache htaken⟩)
  | error f =>
    dsimp only
    split
    · have hfreed := (h.stock.takeCells hcells).freeCells
        (h.stock.nodup_free.sublist hcells.sublist) (List.subset_append_left f.freed [])
      rw [List.append_nil, diff_self] at hfreed
      exact .modify_bind (.pure (h.withCache hfreed))
    · exact .throw

theorem clearHalf (h : Supplied o x [] e) : Gives e clearHalf fun _ => Supplied o x [] := by
  unfold Engine.clearHalf
  refine .get_bind ?_
  dsimp only
  generalize ((e.host.cache.capacity / 2 : Nat) : Int) - (Block.headerSize : Int) = n
  generalize (CodeCache.align (e.host.cache.capacity / 2) : Int) = size
  have hcleared := h.stock.allocate n size
  generalize e.host.cache.allocate n size = r at hcleared ⊢
  obtain ⟨r, cache⟩ := r
  refine .modify_bind ?_
  cases r with
  | ok off => exact .pure (h.withCache hcleared)
  | error err =>
    change Gives _ (if err.isFault = true then _ else _) _
    split
    · exact .throw
    · exact .pure (h.withCache hcleared)

theorem emitOrRetry (h : Supplied o x [] e) (pc : UInt32) (ops : List TraceOp) :
    Gives e (emitOrRetry pc ops) (Emitted o x) := by
  unfold Engine.emitOrRetry
  refine .bind (h.emitTrace pc ops) fun r e' h' => ?_
  split
  · exact .pure h'
  · refine .bind (clearHalf h') fun r e' h' => ?_
    split
    · exact .pure h'
    · refine .bind (h'.emitTrace pc ops) fun r e' h' => .pure ?_
      cases r with
      | ok t => exact h'
      | error err => exact h'
  · exact .pure h'

theorem insertTrace {t : TraceProgram} (hns : (t.exits.map (·.cell)).Nodup)
    (h : Supplied o x (t.exits.map (·.cell)) e) (pc : UInt32) :
    Gives e (insertTrace pc t) fun _ => Supplied o x [] := by
  unfold Engine.insertTrace
  refine .get_bind ?_
  have hins := h.stock.insert pc none hns (List.Subset.refl _)
  rw [diff_self] at hins
  generalize e.host.cache.insert pc t none = r at hins ⊢
  obtain ⟨r, cache⟩ := r
  refine .modify_bind ?_
  have hput : Supplied o x [] (e.mapHost fun h => { h with cache }) := h.withCache hins
  cases r with
  | ok id => exact .modify_bind (.pure (hput.track pc))
  | error err =>
    change Gives _ (if err.isFault = true then _ else _) _
    split
    · exact .bind (Q := fun _ _ => False) .throw fun _ _ h => h.elim
    · exact .modify_bind (.pure ⟨hput.settings, hput.backend, hput.stock⟩)

theorem compile (h : Supplied o x [] e) (pc : UInt32) :
    Gives e (compile pc) fun _ => Supplied o x [] := by
  unfold Engine.compile
  refine .bind (h.fetchTrace pc) fun r e' h' => ?_
  split
  · exact .pure h'
  · dsimp only
    split
    · exact .pure h'
    · split
      · exact .pure h'
      · refine .bind (h'.emitOrRetry pc _) fun r e' h' => ?_
        split
        · exact .pure h'
        · obtain ⟨hns, hheld⟩ := h'
          refine .get_bind ?_
          split
          · have hfreed := hheld.stock.freeCells hns (List.Subset.refl _)
            rw [diff_self] at hfreed
            exact .modify_bind (.pure (hheld.withCache hfreed))
          · exact insertTrace hns hheld pc

end Supplied

/-- What an engine with the settings `o` may come to. Its cache changes when traces are compiled
or invalidated and when it is closed; everything else leaves it alone. -/
inductive Reached (o : Settings) : Engine → Prop
  | create {mem : Memory} {e : Engine} : Engine.create mem o = .ok e → Reached o e
  | other {e e' : Engine} : Reached o e → e'.host.settings = e.host.settings →
    e'.host.backend = e.host.backend → e'.host.cache = e.host.cache → Reached o e'
  | invalidatePage {e : Engine} (page : UInt32) : Reached o e →
    Reached o (e.mapHost (·.invalidatePage page))
  | clear {e : Engine} : Reached o e →
    Reached o (e.mapHost fun h => { h with cache := h.cache.invalidateAll })
  | close {e e' : Engine} : Reached o e → close.run e = .ok () e' → Reached o e'
  | compile {e e' : Engine} {pc : UInt32} {r : Except CompileError BlockId} : Reached o e →
    (compile pc).run e = .ok r e' → Reached o e'

namespace Reached

theorem kept (o : Settings) : Kept (Reached o) where
  other h hs hb hc _ := h.other hs hb hc
  invalidatePage := .invalidatePage
  clear := .clear

theorem gives_compile (h : Reached o e) (pc : UInt32) :
    Gives e (Engine.compile pc) fun _ => Reached o := fun _ _ hr => h.compile hr

theorem onCpu (h : Reached o e) (f : Cpu → Cpu) : Reached o (e.onCpu f) :=
  (kept o).settle (h.other rfl rfl rfl)

theorem attach (h : Reached o e) : Reached o e.attach := by
  unfold Engine.attach
  dsimp only
  split <;> exact h.other rfl rfl rfl

theorem lookup (h : Reached o e) (pc : UInt32) : Gives e (lookup pc) fun _ => Reached o := by
  unfold Engine.lookup
  refine .get_bind ?_
  split
  · exact .modify_bind (.pure (h.other rfl rfl rfl))
  · have hcounted : Reached o (e.mapHost fun h =>
        { h with counters := { h.counters with miss := h.counters.miss + 1 } }) :=
      h.other rfl rfl rfl
    refine .modify_bind (.bind (hcounted.gives_compile pc) fun r e' h' => ?_)
    split
    · exact .pure h'
    · exact .modify_bind (.pure (h'.other rfl rfl rfl))

theorem perform (h : Reached o e) (c : HostCommand) :
    Gives e (perform c) fun _ => Reached o := by
  cases c with
  | compile pc =>
    refine .bind (h.gives_compile pc) fun r e' h' => ?_
    split <;> exact .pure h'
  | invalidateAll =>
    intro a e' hr
    cases hr
    exact (kept o).invalidateAll h
  | writePhys paddr size v =>
    intro a e' hr
    cases hr
    exact h.onCpu _
  | writeCop0 r v =>
    intro a e' hr
    cases hr
    exact h.onCpu _
  | _ =>
    intro a e' hr
    cases hr
    exact h.other rfl rfl rfl

theorem powerCycle (h : Reached o e) : Reached o e.powerCycle := by
  have hclear : Reached o (e.mapHost fun h => { h with queue := h.queue.clear }).invalidateAll :=
    (kept o).invalidateAll (h.other rfl rfl rfl)
  unfold Engine.powerCycle
  exact attach (hclear.other rfl rfl rfl)

theorem runHandler (h : Reached o e) (ev : Event) (handler : Handler) :
    Gives e (runHandler ev handler) fun _ => Reached o := by
  cases handler with
  | compare =>
    intro a e' hr
    cases hr
    unfold Engine.timerFired
    dsimp only
    split <;> exact h.other rfl rfl rfl
  | reset =>
    intro a e' hr
    cases hr
    exact h.powerCycle
  | script commands =>
    have hfired : Reached o (e.mapHost (·.observe (.fired ev e.cpu.cycle e.cpu.pc))) :=
      h.other rfl rfl rfl
    refine .modify_bind (.bind (.forIn commands (fun c e h => ?_) hfired) fun _ _ h' => .pure h')
    exact .bind (h.perform c) fun _ _ h' => .pure h'
  | _ =>
    intro a e' hr
    cases hr
    exact h.other rfl rfl rfl

theorem dispatch (h : Reached o e) : Gives e dispatch fun _ => Reached o := by
  unfold Engine.dispatch
  refine .get_bind ?_
  split
  · exact .pure h
  · rename_i ev queue hpop
    have hpopped : Reached o (e.mapHost fun h => { h with queue }) := h.other rfl rfl rfl
    refine .modify_bind ?_
    dsimp only
    split
    · exact .bind (hpopped.runHandler ev _) fun _ _ h' => .pure h'
    · exact .modify_bind (.pure (h.other rfl rfl rfl))

theorem fireDue (h : Reached o e) (n : Nat) : Gives e (fireDue n) fun _ => Reached o := by
  induction n generalizing e with
  | zero => exact .pure h
  | succ n ih =>
    refine .bind h.dispatch fun fired e' h' => ?_
    cases fired with
    | true => exact ih h'
    | false => exact .pure h'

theorem events (h : Reached o e) : Gives e events fun _ => Reached o := by
  unfold Engine.events
  refine .get_bind (.bind (h.fireDue _) fun _ e' h' => ?_)
  exact .modify_bind (.pure (h'.other rfl rfl rfl))

theorem serve (h : Reached o e) (service : Service) : Reached o (e.serve service).2 := by
  have hfresh : Reached o (e.mapHost fun h => { h with stale := false }) := h.other rfl rfl rfl
  have hserved := hfresh.onCpu fun c =>
    ({ c with cycle := c.cycle + e.cpu.frame.callCount * e.countPerOp } : Cpu).serve service
  unfold Engine.serve
  dsimp only
  generalize Engine.onCpu _ _ = d at hserved ⊢
  repeat' split
  all_goals exact hserved.other rfl rfl rfl

theorem runMachine (fuel : Nat) {m : Machine Cpu} {host : Host}
    (h : ∀ cpu, Reached o ⟨cpu, host⟩) {e' : Engine}
    (hr : runMachine fuel m host = .ok () e') : Reached o e' := by
  induction fuel generalizing m host with
  | zero => cases hr
  | succ fuel ih =>
    unfold Engine.runMachine at hr
    split at hr
    · cases hr
    · cases hr
    · split at hr
      · cases hr
        exact h _
      · split at hr
        · cases hr
        · rename_i cpu _ _ _ service _
          have hserved := (h cpu).serve service
          split at hr
          · rename_i he
            rw [he] at hserved
            exact ih (fun cpu => hserved.other rfl rfl rfl) hr
          · rename_i he
            rw [he] at hserved
            cases hr
            exact hserved

theorem execute (h : Reached o e) (id : BlockId) : Gives e (execute id) fun _ => Reached o := by
  obtain ⟨cpu, host⟩ := e
  have hrun : Gives ⟨cpu, host⟩ (fun e : Engine =>
      Engine.runMachine serviceLimit (.start (host.cache.block id).program cpu) host)
      fun _ => Reached o :=
    fun _ _ hr => runMachine serviceLimit (fun cpu => h.other rfl rfl rfl) hr
  refine Gives.bind hrun fun _ e' h' a e'' hr => ?_
  cases hr
  exact h'.other rfl rfl rfl

theorem round (h : Reached o e) : Gives e round fun _ => Reached o := by
  unfold Engine.round
  refine .bind h.events fun _ e' h' => .modify_bind (.get_bind ?_)
  have hlimited : Reached o e'.limitChain := h'.other rfl rfl rfl
  refine .bind (hlimited.lookup _) fun id e'' h'' => ?_
  cases id with
  | some id => exact h''.execute id
  | none =>
    intro a e₃ hr
    cases hr
    have hcounted : Reached o ({ (e''.mapHost fun h => { h with
        counters := { h.counters with interp := h.counters.interp + 1 } }) with
          cpu := (Interp.step e''.cpu).2 } : Engine) := h''.other rfl rfl rfl
    exact ((kept o).settle hcounted).other rfl rfl rfl

theorem loop (h : Reached o e) (fuel : Nat) : Gives e (loop fuel) fun _ => Reached o := by
  induction fuel generalizing e with
  | zero => exact .throw
  | succ fuel ih =>
    unfold Engine.loop
    refine .get_bind ?_
    split
    · exact .pure h
    · exact .bind h.round fun _ e' h' => ih h'

/-- A run leads only to engines that are reached, and so does a bounded one. -/
theorem runs (h : Reached o e) (n : UInt32) :
    (Gives e run fun _ => Reached o) ∧ Gives e (runCycles n) fun _ => Reached o :=
  have hfree : Reached o (e.mapHost fun h => { h with stopped := false, deadline := none }) :=
    h.other rfl rfl rfl
  have hbound : Reached o (e.mapHost fun h => { h with
      stopped := false, deadline := some (e.cpu.cycle + n) }) :=
    h.other rfl rfl rfl
  ⟨.modify_bind (hfree.loop _), .modify_bind (hbound.loop _)⟩

end Reached

end Engine

end Recompiler
