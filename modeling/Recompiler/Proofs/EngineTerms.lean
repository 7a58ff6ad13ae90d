import Recompiler.Engine.Run
import Recompiler.Proofs.ExitClocks
import Recompiler.Proofs.MappedTraces
import Recompiler.Proofs.TraceShape
import Recompiler.Proofs.WriteFrames

/-!
What no part of a run of the engine changes. Handlers, services and compilations leave the settings
and the end of the run alone, and every program in the code cache keeps to the terms that the
settings set. Compilations and services also leave the cycle of the next event alone.
-/

namespace Recompiler

open Ir Emit CodeCache

namespace CodeCache

def Stocks (P : Program → Prop) (c : CodeCache) : Prop := ∀ id, P (c.block id).program

namespace Stocks

variable {P : Program → Prop} {c d : CodeCache}

theorem of_frame (h : Stocks P c) (hf : d.frame = c.frame) : Stocks P d := by
  intro id
  rw [Block.program_of_frame (block_of_frame hf id)]
  exact h id

theorem create (hP : P default) (arena : Arena) (maxPages maxCells : Int) :
    Stocks P (CodeCache.create arena maxPages maxCells) := by
  intro id
  rw [block_of_ge (Nat.zero_le id)]
  exact hP

theorem freeCells (h : Stocks P c) (ns : List Nat) : Stocks P (c.freeCells ns) :=
  h.of_frame (frame_of_bare (bare_freeCells c ns))

theorem invalidatePages (h : Stocks P c) (pages : List UInt32) :
    Stocks P (pages.foldl (fun c page => (c.invalidatePage page).2) c) :=
  List.foldlRecOn pages _ h fun d hd page _ => hd.of_frame (frame_invalidatePage d page)

theorem push (h : Stocks P c) {b : Block} (hb : P b.program) : Stocks P (c.push b) := by
  intro id
  by_cases hid : id = c.blocks.size
  · rw [block_push, if_pos hid]
    exact hb
  · obtain ⟨size, he⟩ := block_push_of_ne c b hid
    rw [he]
    exact h id

theorem evict (hP : P default) (h : Stocks P c) (he : c.evict = .ok d) : Stocks P d := by
  unfold CodeCache.evict at he
  split at he
  · cases he
    exact h
  · rename_i id rest hr
    split at he
    · rename_i e hret
      cases he
      intro i
      have hprogram := congrArg Block.program (block_of_frame (frame_retire hret) i)
      have hrelease := congrArg Block.program (block_release (i := i) e id)
      rw [block_settle]
      change ((e.release id).block i).program = _ at hrelease
      rw [hrelease]
      split
      · exact hP
      · have hi := h i
        rw [← show (e.block i).program = (c.block i).program from hprogram] at hi
        exact hi
    · cases he

theorem makeRoom (hP : P default) (h : Stocks P c) (size : Int) (n : Nat) :
    Stocks P (CodeCache.makeRoom size n c).2 := by
  induction n generalizing c with
  | zero =>
    unfold CodeCache.makeRoom
    split <;> exact h
  | succ n ih =>
    unfold CodeCache.makeRoom
    split
    · exact h
    · dsimp only
      split
      · rename_i d hd
        exact ih (h.evict hP hd)
      · exact h

theorem allocate (hP : P default) (h : Stocks P c) (n size : Int) :
    Stocks P (c.allocate n size).2 := by
  unfold CodeCache.allocate
  split
  · exact h
  · exact h.makeRoom hP size _

theorem insert (hP : P default) (h : Stocks P c) (pc : UInt32) {t : TraceProgram}
    (ht : P t.program) (code : Option ByteArray) : Stocks P (c.insert pc t code).2 := by
  unfold CodeCache.insert
  dsimp only
  split
  · exact h.freeCells _
  · have hroom := h.allocate hP (codeSize t code) (align (Block.headerSize + codeSize t code))
    split
    · rename_i he
      rw [he] at hroom
      exact hroom.freeCells _
    · rename_i off d he
      rw [he] at hroom
      have hpush := hroom.push
        (b := ⟨0, off, align (Block.headerSize + codeSize t code), t.count, t.program, [], []⟩) ht
      generalize d.push _ = p at hpush ⊢
      split
      · exact hpush.freeCells _
      · rename_i arena hw
        refine of_frame (c := { p with arena }) (fun id => hpush id) (frame_publish ..)

end Stocks

end CodeCache

namespace Settings

def longest (o : Settings) : Nat :=
  if 0 < o.maxTrace ∧ o.maxTrace < 1024 then o.maxTrace.toNat else 1024

def cost (o : Settings) : UInt32 := UInt32.ofInt o.countPerOp

/-- The most cycles that a trace counts: each instruction once, and one more for a delay slot
outside of it. -/
def reach (o : Settings) : Nat := (o.longest + 1) * o.cost.toNat

end Settings

/-- The terms are those of a trace under the settings. -/
structure Emit.Terms.Fit (o : Settings) (T : Terms) : Prop where
  cost : T.cost = o.cost
  limit : T.limit ≤ o.longest + 1
  served : ∀ {service s op}, T.served service s op → s.index < o.longest

def Ir.Program.Obeys (o : Settings) (p : Program) : Prop := ∃ T : Terms, T.Fit o ∧ p.Keeps T

theorem Ir.Program.obeys_default (o : Settings) : (default : Program).Obeys o := by
  refine ⟨⟨o.cost, 0, fun _ _ _ => False⟩, ⟨rfl, Nat.zero_le _, fun h => h.elim⟩,
    fun _ => Assertion.unmoved, ?_, ?_, ?_⟩
  · exact fun _ _ _ h => h
  · intro pos i hi
    cases hi
  · exact fun _ _ _ _ _ h => Assertion.counted_of_unmoved _ h

namespace Engine

variable {o : Settings} {t : Option UInt32} {K : Clock → Prop} {e e' : Engine} {α β : Type}

theorem traceLimit_le (o : Settings) (pc : UInt32) : traceLimit o pc ≤ o.longest := by
  have h : (4096 - (pc &&& 4095)).toNat / 4 ≤ 1024 := by
    have hlt : (pc &&& 4095).toNat ≤ 4095 := by
      rw [UInt32.toNat_and]
      exact Nat.and_le_right
    rw [UInt32.toNat_sub_of_le _ _ (UInt32.le_iff_toNat_le.mpr (by
      change _ ≤ 4096
      omega))]
    change (4096 - _) / 4 ≤ _
    omega
  unfold traceLimit Settings.longest
  dsimp only
  split <;> split <;> omega

/-- The engine runs under the settings until its end, the clock is as `K` says, and its programs
keep to the settings. -/
structure Governed (o : Settings) (t : Option UInt32) (K : Clock → Prop) (e : Engine) : Prop where
  settings : e.host.settings = o
  deadline : e.host.deadline = t
  clock : K e.cpu.clock
  stock : e.host.cache.Stocks (Program.Obeys o)

def Gives (e : Engine) (f : EngineM α) (Q : α → Engine → Prop) : Prop :=
  ∀ a e', f.run e = .ok a e' → Q a e'

namespace Gives

variable {f : EngineM α} {g : α → EngineM β} {Q Q' : α → Engine → Prop} {R : β → Engine → Prop}

theorem pure {a : α} (h : Q a e) : Gives e (pure a) Q := by
  intro b e' hr
  cases hr
  exact h

theorem mono (h : Gives e f Q) (hq : ∀ a e', Q a e' → Q' a e') : Gives e f Q' :=
  fun a e' hr => hq a e' (h a e' hr)

theorem bind (hf : Gives e f Q) (hg : ∀ a e', Q a e' → Gives e' (g a) R) :
    Gives e (f >>= g) R := by
  intro b e'' h
  rw [EStateM.run_bind] at h
  cases hr : f.run e with
  | ok a e' =>
    rw [hr] at h
    exact hg a e' (hf a e' hr) b e'' h
  | error x e' =>
    rw [hr] at h
    cases h

theorem get_bind {g : Engine → EngineM β} (h : Gives e (g e) R) : Gives e (get >>= g) R := h

theorem modify_bind {m : Engine → Engine} {g : PUnit → EngineM β} (h : Gives (m e) (g ⟨⟩) R) :
    Gives e (modify m >>= g) R := h

theorem throw {x : EngineFault} : Gives e (throw x) Q := by
  intro a e' h
  cases h

end Gives

namespace Governed

theorem invalidatePages (h : Governed o t K e) (pages : List UInt32) :
    Governed o t K (e.mapHost fun host => pages.foldl Host.invalidatePage host) := by
  have hhost : pages.foldl Host.invalidatePage e.host = { e.host with
      cache := pages.foldl (fun c page => (c.invalidatePage page).2) e.host.cache } := by
    generalize e.host = host
    induction pages generalizing host with
    | nil => rfl
    | cons page pages ih => exact ih (host.invalidatePage page)
  have hstock := h.stock.invalidatePages pages
  change Governed o t K ⟨e.cpu, pages.foldl Host.invalidatePage e.host⟩
  rw [hhost]
  exact ⟨h.settings, h.deadline, h.clock, hstock⟩

theorem invalidateAll (h : Governed o t K e) : Governed o t K e.invalidateAll :=
  ⟨h.settings, h.deadline, h.clock, h.stock.invalidatePages _⟩

theorem statusWritten (h : Governed o t K e) (old new : UInt32) :
    Governed o t K (e.statusWritten old new) := by
  have h1 : Governed o t K (if (old ^^^ new) &&& StatusBit.fr ≠ 0 then e.invalidateAll else e) := by
    split
    · exact h.invalidateAll
    · exact h
  unfold Engine.statusWritten
  dsimp only
  split
  · exact ⟨h1.settings, h1.deadline, h1.clock, h1.stock⟩
  · exact h1

theorem codeWritten (h : Governed o t K e) (paddr : UInt32) :
    Governed o t K (e.codeWritten paddr) := by
  have h1 : Governed o t K ((e.mapCpu fun c => { c with mem := c.mem.markCode paddr false }).mapHost
      fun h => { h with
        aliases := h.aliases.erase (paddr >>> 12)
        stale := h.stale ||
          (e.host.aliases.getD (paddr >>> 12) []).contains (e.cpu.pc >>> 12) }) :=
    ⟨h.settings, h.deadline, h.clock, h.stock⟩
  exact h1.invalidatePages _

theorem react (h : Governed o t K e) (f : Effect) : Governed o t K (e.react f) := by
  cases f with
  | statusWritten old new => exact h.statusWritten old new
  | tlbWritten old new =>
    unfold Engine.react Engine.tlbWritten
    dsimp only
    split
    · exact h.invalidatePages _
    · exact h
  | codeWritten paddr =>
    unfold Engine.react
    dsimp only
    split
    · exact h.codeWritten paddr
    · exact h
  | _ => exact ⟨h.settings, h.deadline, h.clock, h.stock⟩

theorem settle (h : Governed o t K e) : Governed o t K e.settle := by
  unfold Engine.settle
  dsimp only
  split
  · exact h
  · rw [← Array.foldl_toList]
    have hd : Governed o t K (e.mapCpu (·.drained)) := ⟨h.settings, h.deadline, h.clock, h.stock⟩
    exact List.foldlRecOn _ _ hd fun _ h f _ => h.react f

theorem onCpu (h : Governed o t K e) {f : Cpu → Cpu} (hf : K (f e.cpu).clock) :
    Governed o t K (e.onCpu f) :=
  have hm : Governed o t K (e.mapCpu f) := ⟨h.settings, h.deadline, hf, h.stock⟩
  hm.settle

end Governed

theorem clock_readWords (n : Nat) (paddr : UInt32) (c : Cpu) :
    (readWords n paddr c).2.clock = c.clock := by
  have hfetch (c : Cpu) (paddr : UInt32) : (c.fetchPhys paddr).2.clock = c.clock := by
    unfold Cpu.fetchPhys Cpu.readPhys
    dsimp only
    split <;> rfl
  induction n generalizing paddr c with
  | zero => rfl
  | succ n ih => exact (ih _ _).trans (hfetch c paddr)

theorem length_readWords (n : Nat) (paddr : UInt32) (c : Cpu) :
    (readWords n paddr c).1.length = n := by
  induction n generalizing paddr c with
  | zero => rfl
  | succ n ih => exact congrArg (· + 1) (ih _ _)

theorem gives_fetchTrace (h : Governed o t K e) (pc : UInt32) :
    Gives e (fetchTrace pc) fun r e' => Governed o t K e' ∧
      ∀ words, r = .ok words → words.length ≤ o.longest := by
  unfold fetchTrace
  refine .get_bind ?_
  split
  · exact .pure ⟨h, fun words hr => by cases hr⟩
  · rename_i paddr hp
    split
    · exact .pure ⟨h, fun words hr => by cases hr⟩
    · have hclock := clock_readWords (traceLimit e.host.settings pc) paddr e.cpu
      have hlength := length_readWords (traceLimit e.host.settings pc) paddr e.cpu
      rw [h.settings] at hclock hlength ⊢
      generalize readWords (traceLimit o pc) paddr e.cpu = r at hclock hlength ⊢
      have hr : Governed o t K { e with cpu := r.2 } :=
        ⟨h.settings, h.deadline, hclock ▸ h.clock, h.stock⟩
      refine .modify_bind (.pure ⟨hr.settle, ?_⟩)
      intro words hw
      cases hw
      exact hlength ▸ traceLimit_le o pc

theorem gives_emitTrace (h : Governed o t K e) (pc : UInt32) {ops : List TraceOp}
    (hops : ops.length ≤ o.longest) :
    Gives e (emitTrace pc ops) fun r e' => Governed o t K e' ∧
      ∀ t, r = .ok t → t.program.Obeys o := by
  unfold emitTrace
  refine .get_bind ?_
  split
  · rename_i p hp
    have hobeys : p.program.Obeys o := by
      refine ⟨_, ⟨?_, Nat.succ_le_succ hops, ?_⟩, TraceProgram.keeps hp⟩
      · change UInt32.ofInt e.host.settings.countPerOp = _
        rw [h.settings]
        rfl
      · rintro service s op ⟨o', ho', -⟩
        exact Nat.lt_of_lt_of_le (List.getElem?_eq_some_iff.mp ho').1 hops
    refine .modify_bind (.pure ⟨⟨h.settings, h.deadline, h.clock, h.stock⟩, ?_⟩)
    intro p' hp'
    cases hp'
    exact hobeys
  · rename_i f hf
    split
    · refine .modify_bind (.pure ⟨⟨h.settings, h.deadline, h.clock, ?_⟩, fun p hp => by cases hp⟩)
      have htake : (e.host.cache.takeCells f.freed.length).Stocks (Program.Obeys o) := h.stock
      exact htake.freeCells _
    · exact .throw

theorem gives_clearHalf (h : Governed o t K e) :
    Gives e clearHalf fun _ => Governed o t K := by
  unfold clearHalf
  refine .get_bind ?_
  dsimp only
  generalize ((e.host.cache.capacity / 2 : Nat) : Int) - (Block.headerSize : Int) = n
  generalize (CodeCache.align (e.host.cache.capacity / 2) : Int) = size
  have hstock := h.stock.allocate (Program.obeys_default o) n size
  generalize e.host.cache.allocate n size = r at hstock ⊢
  obtain ⟨r, cache⟩ := r
  have hcleared : Governed o t K (e.mapHost fun h => { h with cache }) :=
    ⟨h.settings, h.deadline, h.clock, hstock⟩
  refine .modify_bind ?_
  cases r with
  | ok off => exact .pure hcleared
  | error err =>
    change Gives _ (if err.isFault = true then _ else _) _
    split
    · exact .throw
    · exact .pure hcleared

theorem gives_emitOrRetry (h : Governed o t K e) (pc : UInt32) {ops : List TraceOp}
    (hops : ops.length ≤ o.longest) :
    Gives e (emitOrRetry pc ops) fun r e' => Governed o t K e' ∧
      ∀ t, r = .ok t → t.program.Obeys o := by
  unfold emitOrRetry
  refine .bind (gives_emitTrace h pc hops) fun r e' h' => ?_
  split
  · refine .pure ⟨h'.1, fun p hp => ?_⟩
    cases hp
    exact h'.2 _ rfl
  · refine .bind (gives_clearHalf h'.1) fun r e' h' => ?_
    split
    · exact .pure ⟨h', fun p hp => by cases hp⟩
    · refine .bind (gives_emitTrace h' pc hops) fun r e' h' => .pure ⟨h'.1, fun p hp => ?_⟩
      cases r with
      | ok q =>
        cases hp
        exact h'.2 _ rfl
      | error err => cases hp
  · exact .pure ⟨h'.1, fun p hp => by cases hp⟩

theorem Governed.track (h : Governed o t K e) (pc : UInt32) : Governed o t K (e.track pc) := by
  unfold Engine.track
  split
  · exact h
  · dsimp only
    split
    · exact ⟨h.settings, h.deadline, h.clock, h.stock⟩
    · exact h

theorem gives_insertTrace (h : Governed o t K e) (pc : UInt32) {p : TraceProgram}
    (hp : p.program.Obeys o) : Gives e (insertTrace pc p) fun _ => Governed o t K := by
  unfold insertTrace
  refine .get_bind ?_
  have hstock := h.stock.insert (Program.obeys_default o) pc hp none
  generalize e.host.cache.insert pc p none = r at hstock ⊢
  obtain ⟨r, cache⟩ := r
  have hinserted : Governed o t K (e.mapHost fun h => { h with cache }) :=
    ⟨h.settings, h.deadline, h.clock, hstock⟩
  refine .modify_bind ?_
  cases r with
  | ok id => exact .modify_bind (.pure (hinserted.track pc))
  | error err =>
    change Gives _ (if err.isFault = true then _ else _) _
    split
    · exact .bind (Q := fun _ _ => False) .throw fun _ _ h => h.elim
    · intro a e' hr
      cases hr
      exact ⟨h.settings, h.deadline, h.clock, hstock⟩

theorem gives_compile (h : Governed o t K e) (pc : UInt32) :
    Gives e (compile pc) fun _ => Governed o t K := by
  unfold compile
  refine .bind (gives_fetchTrace h pc) fun r e' hfetch => ?_
  obtain ⟨h', hwords⟩ := hfetch
  split
  · exact .pure h'
  · rename_i words
    have hlength := Nat.le_trans (Trace.shape_build words words.length).1
      (Nat.le_trans (Nat.min_le_left _ _) (hwords _ rfl))
    dsimp only
    split
    · exact .pure h'
    · split
      · exact .pure h'
      · refine .bind (gives_emitOrRetry h' pc hlength) fun r e' hemit => ?_
        obtain ⟨h', hobeys⟩ := hemit
        split
        · exact .pure h'
        · refine .get_bind ?_
          split
          · exact .modify_bind (.pure ⟨h'.settings, h'.deadline, h'.clock, h'.stock.freeCells _⟩)
          · exact gives_insertTrace h' pc (hobeys _ rfl)

theorem gives_lookup (h : Governed o t K e) (pc : UInt32) :
    Gives e (lookup pc) fun _ => Governed o t K := by
  unfold lookup
  refine .get_bind ?_
  split
  · exact .modify_bind (.pure ⟨h.settings, h.deadline, h.clock, h.stock⟩)
  · have hcounted : Governed o t K (e.mapHost fun h =>
        { h with counters := { h.counters with miss := h.counters.miss + 1 } }) :=
      ⟨h.settings, h.deadline, h.clock, h.stock⟩
    refine .modify_bind (.bind (gives_compile hcounted pc) fun r e' h' => ?_)
    split
    · exact .pure h'
    · exact .modify_bind (.pure ⟨h'.settings, h'.deadline, h'.clock, h'.stock⟩)

abbrev AnyClock (_ : Clock) : Prop := True

namespace Governed

theorem anyClock (h : Governed o t K e) : Governed o t AnyClock e :=
  ⟨h.settings, h.deadline, trivial, h.stock⟩

theorem attach (h : Governed o t AnyClock e) : Governed o t AnyClock e.attach := by
  unfold Engine.attach
  dsimp only
  split <;> exact ⟨h.settings, h.deadline, trivial, h.stock⟩

theorem powerCycle (h : Governed o t AnyClock e) : Governed o t AnyClock e.powerCycle := by
  have hclear : Governed o t AnyClock
      (e.mapHost fun h => { h with queue := h.queue.clear }).invalidateAll :=
    invalidateAll ⟨h.settings, h.deadline, trivial, h.stock⟩
  exact attach ⟨hclear.settings, hclear.deadline, trivial, hclear.stock⟩

theorem timerFired (h : Governed o t AnyClock e) : Governed o t AnyClock e.timerFired := by
  unfold Engine.timerFired
  dsimp only
  split <;> exact ⟨h.settings, h.deadline, trivial, h.stock⟩

end Governed

theorem gives_perform (h : Governed o t AnyClock e) (c : HostCommand) :
    Gives e (perform c) fun _ => Governed o t AnyClock := by
  cases c with
  | compile pc =>
    refine .bind (gives_compile h pc) fun r e' h' => ?_
    split <;> exact .pure h'
  | invalidateAll =>
    intro a e' hr
    cases hr
    exact h.invalidateAll
  | writePhys paddr size v =>
    intro a e' hr
    cases hr
    exact h.onCpu trivial
  | writeCop0 r v =>
    intro a e' hr
    cases hr
    exact h.onCpu trivial
  | _ =>
    intro a e' hr
    cases hr
    exact ⟨h.settings, h.deadline, trivial, h.stock⟩

theorem Gives.forIn {γ : Type} {I : Engine → Prop} {f : γ → PUnit → EngineM (ForInStep PUnit)}
    (xs : List γ) (hf : ∀ x e, I e → Gives e (f x ⟨⟩) fun _ => I) (h : I e) :
    Gives e (forIn xs PUnit.unit f) fun _ => I := by
  induction xs generalizing e with
  | nil =>
    rw [List.forIn_nil]
    exact .pure h
  | cons x xs ih =>
    rw [List.forIn_cons]
    refine .bind (hf x e h) fun s e' h' => ?_
    cases s with
    | done b => exact .pure h'
    | yield b => exact ih h'

theorem gives_runHandler (h : Governed o t AnyClock e) (ev : Event) (handler : Handler) :
    Gives e (runHandler ev handler) fun _ => Governed o t AnyClock := by
  cases handler with
  | compare =>
    intro a e' hr
    cases hr
    exact h.timerFired
  | reset =>
    intro a e' hr
    cases hr
    exact h.powerCycle
  | script commands =>
    have hfired : Governed o t AnyClock
        (e.mapHost (·.observe (.fired ev e.cpu.cycle e.cpu.pc))) :=
      ⟨h.settings, h.deadline, trivial, h.stock⟩
    refine .modify_bind (.bind (.forIn commands (fun c e h => ?_) hfired) fun _ _ h' => .pure h')
    exact .bind (gives_perform h c) fun _ _ h' => .pure h'
  | _ =>
    intro a e' hr
    cases hr
    exact ⟨h.settings, h.deadline, trivial, h.stock⟩

theorem gives_dispatch (h : Governed o t AnyClock e) :
    Gives e dispatch fun _ => Governed o t AnyClock := by
  unfold dispatch
  refine .get_bind ?_
  split
  · exact .pure h
  · rename_i ev queue hpop
    have hpopped : Governed o t AnyClock (e.mapHost fun h => { h with queue }) :=
      ⟨h.settings, h.deadline, trivial, h.stock⟩
    refine .modify_bind ?_
    dsimp only
    split
    · exact .bind (gives_runHandler hpopped ev _) fun _ _ h' => .pure h'
    · exact .modify_bind (.pure ⟨h.settings, h.deadline, trivial, h.stock⟩)

theorem gives_fireDue (h : Governed o t AnyClock e) (n : Nat) :
    Gives e (fireDue n) fun _ => Governed o t AnyClock := by
  induction n generalizing e with
  | zero => exact .pure h
  | succ n ih =>
    refine .bind (gives_dispatch h) fun fired e' h' => ?_
    cases fired with
    | true => exact ih h'
    | false => exact .pure h'

theorem gives_events (h : Governed o t AnyClock e) :
    Gives e events fun _ => Governed o t AnyClock := by
  unfold events
  refine .get_bind (.bind (gives_fireDue h _) fun _ e' h' => ?_)
  exact .modify_bind (.pure ⟨h'.settings, h'.deadline, trivial, h'.stock⟩)

theorem nextEvent_fetch (c : Cpu) (vaddr : UInt32) :
    (c.fetch vaddr).2.nextEvent = c.nextEvent := by
  have hload := (Cpu.Within.load (s := ⟨[], false, false, false⟩) c vaddr .word).nextEvent
  unfold Cpu.fetch
  split <;> rename_i h <;> rw [h] at hload <;> exact hload

/-- An instruction, or a branch with its delay slot, leaves the cycle of the next event alone. -/
theorem nextEvent_step (c : Cpu) : (Interp.step c).2.nextEvent = c.nextEvent := by
  have heffect (c : Cpu) (i : Instr) (pc : UInt32) :
      (Interp.effect c i pc).nextEvent = c.nextEvent := (Interp.effect_within c i pc).nextEvent
  have hfinish (c : Cpu) (pc : UInt32) (b : Interp.Branch) :
      (Interp.finishBranch c pc b).2.nextEvent = c.nextEvent := by
    have hfetch := nextEvent_fetch { c with pc := pc + 4, delay := 1 } (pc + 4)
    unfold Interp.finishBranch
    split
    · rfl
    · dsimp only
      generalize Cpu.fetch _ _ = r at hfetch ⊢
      obtain ⟨slot, d⟩ := r
      cases slot with
      | none =>
        dsimp only
        split <;> exact hfetch
      | some slot =>
        dsimp only
        split <;> exact (heffect d slot _).trans hfetch
  have hfetch := nextEvent_fetch { c with leave := 0, delay := 0 } c.pc
  unfold Interp.step
  dsimp only
  generalize Cpu.fetch _ _ = r at hfetch ⊢
  obtain ⟨i, d⟩ := r
  cases i with
  | none => exact hfetch
  | some i =>
    dsimp only
    split
    · exact (heffect d i _).trans hfetch
    · split
      · exact (heffect d i _).trans hfetch
      · exact (hfinish _ _ _).trans ((heffect d i _).trans hfetch)

theorem step_le (c : Cpu) : (Interp.step c).1 ≤ 2 := by
  unfold Interp.step
  dsimp only
  split
  · exact Nat.zero_le _
  · split
    · exact Nat.le_succ 1
    · split
      · exact Nat.le_succ 1
      · unfold Interp.finishBranch
        dsimp only
        repeat' split
        all_goals first
          | exact Nat.le_succ 1
          | exact Nat.le_refl 2

theorem nextEvent_serve (c : Cpu) (service : Service) :
    (c.serve service).nextEvent = c.nextEvent := by
  cases service with
  | exec => exact (Interp.exec_within c ⟨c.frame.callOp⟩).nextEvent
  | step => exact nextEvent_step c

namespace Governed

variable {N : UInt32}

theorem serve (h : Governed o t (fun k => k.nextEvent = N) e) (service : Service) :
    Governed o t (fun k => k.nextEvent = N) (e.serve service).2 := by
  have hm : Governed o t (fun k => k.nextEvent = N) (e.mapHost fun h => { h with stale := false }) :=
    ⟨h.settings, h.deadline, h.clock, h.stock⟩
  have hserved (d : UInt32) : (({ e.cpu with cycle := d }).serve service).nextEvent = N :=
    (nextEvent_serve _ service).trans h.clock
  have hs : Governed o t (fun k => k.nextEvent = N) ((e.mapHost fun h =>
      { h with stale := false }).onCpu fun c =>
        ({ c with cycle := c.cycle + e.cpu.frame.callCount * e.countPerOp }).serve service) := by
    refine hm.onCpu ?_
    exact hserved _
  unfold Engine.serve
  dsimp only
  generalize onCpu _ _ = d at hs ⊢
  repeat' split
  all_goals exact ⟨hs.settings, hs.deadline, hs.clock, hs.stock⟩

theorem interpret (h : Governed o t AnyClock e) : Governed o t AnyClock e.interpret := by
  have hs : Governed o t AnyClock ({ (e.mapHost fun h => { h with
      counters := { h.counters with interp := h.counters.interp + 1 } }) with
        cpu := (Interp.step e.cpu).2 } : Engine).settle :=
    settle ⟨h.settings, h.deadline, trivial, h.stock⟩
  exact ⟨hs.settings, hs.deadline, trivial, hs.stock⟩

end Governed

end Engine

end Recompiler
