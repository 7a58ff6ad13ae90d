import Recompiler.Proofs.CellSessions
import Recompiler.Proofs.Retries
import Recompiler.Proofs.Steps

/-!
The end of a bounded run. While nothing stops the run or writes the counter, and no event is
overdue for so long that the comparison wraps around, every trace begins before the end, also one
that another trace leads to, and the run returns as soon as a trace has reached the end. The end
must be at most half of the range of the counter away.
-/

namespace Recompiler

open Ir Emit CodeCache

theorem signBit32_iff (v : UInt32) : signBit32 v = true ↔ 2 ^ 31 ≤ v.toNat := by
  rw [signBit32_eq_msb, BitVec.msb_eq_decide, decide_eq_true_iff]
  rfl

namespace Clock

/-- The clock with a next event that does not let a chain of traces run past the end `t`, or for
too long without a check. -/
def limited (t : UInt32) (k : Clock) : Clock :=
  let poll := k.cycle + Engine.pollInterval
  let limit := if Engine.isBefore t poll then t else poll
  if Engine.isBefore limit k.nextEvent then { k with nextEvent := limit } else k

/-- An event that is due has not been due for so long that traces of `reach` cycles might take it
for one that is ahead. -/
def Punctual (reach : Nat) (k : Clock) : Prop :=
  k.isAhead = false → (k.cycle - k.nextEvent).toNat + reach < 2 ^ 31

/-- For a trace that begins `b` cycles after `c`, the next event lies ahead, at most `n` cycles
after `c`, or it is due and has not been for long. -/
def Timely (c : UInt32) (n reach b : Nat) (event : UInt32) : Prop :=
  (∃ z ≤ n, event = c + UInt32.ofNat z ∧ b < z ∧ z ≤ b + 2 ^ 31) ∨
    (c + UInt32.ofNat b - event).toNat + reach < 2 ^ 31

variable {c event : UInt32} {n b a reach : Nat} {k : Clock}

theorem isBefore_add (c : UInt32) {x y : Nat} (h : x < y + 2 ^ 31) (h' : y ≤ x + 2 ^ 31) :
    Engine.isBefore (c + UInt32.ofNat x) (c + UInt32.ofNat y) = decide (x < y) := by
  rw [Engine.isBefore, Bool.eq_iff_iff, signBit32_iff, decide_eq_true_iff]
  simp only [UInt32.toNat_sub, UInt32.toNat_add, UInt32.toNat_ofNat']
  omega

/-- The limit keeps the next event in time. -/
theorem timely_limited (hk : k.cycle = c + UInt32.ofNat b) (hb : b < n) (hn : n ≤ 2 ^ 31)
    (hp : (k.limited (c + UInt32.ofNat n)).Punctual reach) :
    Timely c n reach b (k.limited (c + UInt32.ofNat n)).nextEvent := by
  have hpoll : k.cycle + Engine.pollInterval = c + UInt32.ofNat (b + 65536) := by
    rw [hk, Engine.pollInterval, ← UInt32.toNat_inj]
    simp only [UInt32.toNat_add, UInt32.toNat_ofNat', UInt32.reduceToNat]
    omega
  have hlimit : (if Engine.isBefore (c + UInt32.ofNat n) (k.cycle + Engine.pollInterval)
      then c + UInt32.ofNat n else k.cycle + Engine.pollInterval)
        = c + UInt32.ofNat (min n (b + 65536)) := by
    rw [hpoll, isBefore_add c (by omega) (by omega)]
    by_cases hlt : n < b + 65536
    · rw [if_pos (by simpa using hlt), Nat.min_eq_left (Nat.le_of_lt hlt)]
    · rw [if_neg (by simpa using hlt), Nat.min_eq_right (Nat.le_of_not_lt hlt)]
  have hbz : b < min n (b + 65536) := by omega
  have hzb : min n (b + 65536) ≤ b + 65536 := Nat.min_le_right _ _
  have hzn : min n (b + 65536) ≤ n := Nat.min_le_left _ _
  unfold limited at hp ⊢
  dsimp only at hp ⊢
  rw [hlimit] at hp ⊢
  generalize min n (b + 65536) = z at hbz hzb hzn hp ⊢
  by_cases hbefore : Engine.isBefore (c + UInt32.ofNat z) k.nextEvent = true
  · rw [if_pos hbefore]
    exact .inl ⟨z, hzn, rfl, hbz, by omega⟩
  · rw [if_neg hbefore] at hp ⊢
    by_cases hahead : k.isAhead = true
    · -- The event lies ahead, and not behind the limit.
      rw [Engine.isBefore, signBit32_iff] at hbefore
      rw [isAhead, signBit32_iff, hk] at hahead
      obtain ⟨d, hd, hevent⟩ : ∃ d < 2 ^ 32, k.nextEvent = c + UInt32.ofNat (b + d) := by
        refine ⟨(k.nextEvent - (c + UInt32.ofNat b)).toNat, UInt32.toNat_lt _, ?_⟩
        rw [UInt32.ofNat_add, UInt32.ofNat_toNat, ← UInt32.add_assoc, UInt32.add_comm,
          UInt32.sub_add_cancel]
      rw [hevent] at hbefore hahead
      simp only [UInt32.toNat_sub, UInt32.toNat_add, UInt32.toNat_ofNat'] at hbefore hahead
      exact .inl ⟨b + d, by omega, hevent, by omega, by omega⟩
    · have hdue := hp (Bool.not_eq_true _ ▸ hahead)
      rw [hk] at hdue
      exact .inr hdue

theorem Timely.follow (h : Timely c n reach b event) (ha : a ≤ reach) (hreach : reach < 2 ^ 31)
    (hahead : signBit32 (c + UInt32.ofNat (b + a) - event) = true) :
    b + a < n ∧ Timely c n reach (b + a) event := by
  rw [signBit32_iff] at hahead
  obtain ⟨z, hz, rfl, hbz, hzb⟩ | hdue := h
  · simp only [UInt32.toNat_sub, UInt32.toNat_add, UInt32.toNat_ofNat'] at hahead
    have hlt : b + a < z := by omega
    exact ⟨by omega, .inl ⟨z, hz, rfl, hlt, by omega⟩⟩
  · simp only [UInt32.toNat_sub, UInt32.toNat_add, UInt32.toNat_ofNat'] at hahead hdue
    omega

end Clock

namespace Engine

/-- The part of a round before a trace or an instruction: events, and the search for a trace. -/
def prepare : EngineM (Option BlockId) := do
  events
  modify limitChain
  lookup (← get).cpu.pc

def bounded (n : UInt32) (e : Engine) : Engine :=
  e.mapHost fun h => { h with stopped := false, deadline := some (e.cpu.cycle + n) }

end Engine

/-- A point of a run. -/
inductive Point where
  /-- Between two rounds. -/
  | between (e : Engine)
  /-- Within a trace that was entered at the cycle `base`. -/
  | inside (base : UInt32) (m : Machine Cpu) (host : Host)

namespace Point

def now : Point → UInt32
  | between e => e.cpu.cycle
  | inside _ m _ => m.ctx.cycle

/-- The cycle at which the running trace was entered, or the present one. -/
def base : Point → UInt32
  | between e => e.cpu.cycle
  | inside base _ _ => base

def host : Point → Host
  | between e => e.host
  | inside _ _ host => host

end Point

open Engine

namespace Ir.Machine

/-- Runs up to a link or an exit, with at most `fuel` instructions. -/
def ahead : Nat → Machine Cpu → Option (Machine Cpu)
  | 0, _ => none
  | fuel + 1, m =>
    match m.program.code[m.pc]? with
    | some (.link _) | some (.exit _) => some m
    | _ =>
      match m.step .none with
      | .inl n => n.ahead fuel
      | .inr _ => none

/-- Only a link reads the cells. -/
theorem step_inl {links : Links} {m n : Machine Cpu} (h : m.step .none = .inl n)
    (hl : ∀ cell, m.program.code[m.pc]? ≠ some (.link cell)) : m.step links = .inl n := by
  unfold step at h ⊢
  cases hc : m.program.code[m.pc]? with
  | none =>
    rw [hc] at h
    cases h
  | some i =>
    rcases hx : m.exec i with ⟨m', next⟩
    have hlink := (next_of_exec hx).2.2
    simp only [hc, hx] at h ⊢
    cases next with
    | link cell => exact absurd (hlink.1 ▸ hc) (hl cell)
    | advance => exact h
    | jump _ => exact h
    | call _ => exact h
    | exit _ => exact h

end Ir.Machine

/-- A run goes from one point to the next and counts cycles. -/
inductive Moves : Point → UInt32 → Point → Prop
  /-- A trace is entered from the dispatcher. -/
  | enter {e e' : Engine} {id : BlockId} : e.isDone = false → prepare.run e = .ok (some id) e' →
    Moves (.between e) 0
      (.inside e'.cpu.cycle (.start (e'.host.cache.block id).program e'.cpu) e'.host)
  /-- There is no trace, and an instruction is interpreted. -/
  | interpret {e e' : Engine} : e.isDone = false → prepare.run e = .ok none e' →
    Moves (.between e) (UInt32.ofNat (Interp.step e'.cpu).1 * e'.countPerOp) (.between e'.interpret)
  | step {base : UInt32} {m n : Machine Cpu} {host : Host} :
    m.step host.cache.linkTable = .inl n → ¬ m.Follows host.cache.linkTable →
    Moves (.inside base m host) (n.ctx.cycle - m.ctx.cycle) (.inside base n host)
  /-- A trace is entered through a link cell. -/
  | link {base : UInt32} {m n : Machine Cpu} {host : Host} :
    m.step host.cache.linkTable = .inl n → m.Follows host.cache.linkTable →
    Moves (.inside base m host) (n.ctx.cycle - m.ctx.cycle) (.inside n.ctx.cycle n host)
  | serve {base : UInt32} {m n : Machine Cpu} {host : Host} {service : Service} {e : Engine} :
    m.step host.cache.linkTable = .inr (.ok exitCall, n) → n.ctx.requested? = some service →
    Engine.serve ⟨n.ctx, host⟩ service = (true, e) →
    Moves (.inside base m host) (n.ctx.cycle - m.ctx.cycle)
      (.inside base { n with ctx := e.cpu } e.host)
  /-- A service ends the trace. -/
  | abandon {base : UInt32} {m n : Machine Cpu} {host : Host} {service : Service} {e : Engine} :
    m.step host.cache.linkTable = .inr (.ok exitCall, n) → n.ctx.requested? = some service →
    Engine.serve ⟨n.ctx, host⟩ service = (false, e) →
    Moves (.inside base m host) (n.ctx.cycle - m.ctx.cycle +
        n.ctx.frame.callCount * (Engine.countPerOp ⟨n.ctx, host⟩))
      (.between (e.mapCpu fun c => { c with delay := 0 }))
  | leave {base : UInt32} {m n : Machine Cpu} {host : Host} {status : Int} :
    m.step host.cache.linkTable = .inr (.ok status, n) → status ≠ exitCall →
    Moves (.inside base m host) (n.ctx.cycle - m.ctx.cycle)
      (.between ⟨{ n.ctx with delay := 0 }, host⟩)

/-- The counter moves by what is counted and by nothing else, nothing stops the run, and where a
trace is entered from the dispatcher no event is overdue for too long. -/
structure Undisturbed (reach : Nat) (p : Point) (w : UInt32) (q : Point) : Prop where
  counter : q.now = p.now + w
  running : q.host.stopped = false
  punctual : ∀ {e base m host}, p = .between e → q = .inside base m host →
    m.ctx.clock.Punctual reach

/-- What an undisturbed run of `n` cycles comes to, and how many cycles have elapsed where its
running trace was entered. -/
inductive Passage (n : UInt32) (e : Engine) : Point → Nat → Prop
  | call : Passage n e (.between (e.bounded n)) 0
  | pass {p q : Point} {t : Nat} {w : UInt32} : Passage n e p t → Moves p w q →
    Undisturbed e.host.settings.reach p w q → Passage n e q (t + (q.base - p.base).toNat)

namespace Engine

variable {o : Settings} {c : UInt32} {n t : Nat} {e e' : Engine}

/-- The engine after a look at the events, of which none is due. -/
def polled (e : Engine) : Engine :=
  (e.mapCpu fun c => ({ c with
    nextEvent := e.host.queue.next?.getD (e.cpu.cycle + farAway) }).checkInterrupt.1).limitChain

theorem run_fireDue_of_quiet (h : e.host.queue.popDue? e.cpu.cycle = none) (n : Nat) :
    (fireDue n).run e = .ok () e := by
  cases n with
  | zero => rfl
  | succ n =>
    have hd : dispatch.run e = .ok false e := by
      unfold dispatch
      rw [EStateM.run_bind, EStateM.run_get]
      dsimp only
      rw [h]
      rfl
    unfold fireDue
    rw [EStateM.run_bind, hd]
    rfl

theorem run_prepare_of_quiet (h : e.host.queue.popDue? e.cpu.cycle = none) :
    prepare.run e = (lookup e.polled.cpu.pc).run e.polled := by
  have hevents : events.run e = .ok () (e.mapCpu fun c => ({ c with
      nextEvent := e.host.queue.next?.getD (e.cpu.cycle + farAway) }).checkInterrupt.1) := by
    unfold events
    rw [EStateM.run_bind, EStateM.run_get]
    dsimp only
    rw [EStateM.run_bind, run_fireDue_of_quiet h]
    rfl
  unfold prepare
  rw [EStateM.run_bind, hevents]
  rfl

theorem clock_limited (c : Cpu) (limit : UInt32) :
    (if isBefore limit c.nextEvent then { c with nextEvent := limit } else c : Cpu).clock
      = if isBefore limit c.clock.nextEvent then { c.clock with nextEvent := limit }
        else c.clock := by
  change _ = if isBefore limit c.nextEvent then _ else _
  split <;> rfl

theorem gives_prepare {stop : UInt32} (h : Governed o (some stop) AnyClock e) :
    Gives e prepare fun _ e' => Governed o (some stop) AnyClock e' ∧
      ∃ k : Clock, e'.cpu.clock = k.limited stop := by
  refine .bind (gives_events h) fun _ e₁ h₁ => .modify_bind (.get_bind ?_)
  have hclock : e₁.limitChain.cpu.clock = e₁.cpu.clock.limited stop := by
    unfold limitChain
    rw [h₁.deadline]
    exact clock_limited e₁.cpu _
  have hlimited : Governed o (some stop) (fun k => k = e₁.cpu.clock.limited stop) e₁.limitChain :=
    ⟨h₁.settings, h₁.deadline, hclock, h₁.stock⟩
  exact (gives_lookup hlimited _).mono fun _ _ h' => ⟨h'.anyClock, _, h'.clock⟩

theorem isDone_iff (h : e.host.deadline = some (c + UInt32.ofNat n))
    (hs : e.host.stopped = false) (hc : e.cpu.cycle = c + UInt32.ofNat t)
    (ht : t < n + 2 ^ 31) (hn : n ≤ 2 ^ 31) : e.isDone = true ↔ n ≤ t := by
  rw [isDone, hs, h, Option.any_some, hc, Clock.isBefore_add c (by omega) (by omega)]
  simp

end Engine

theorem Emit.Terms.Fit.counted {o : Settings} {T : Terms} (h : T.Fit o) (ho : o.reach < 2 ^ 31)
    {j : Nat} (hj : j ≤ o.longest + 1) : (UInt32.ofNat j * T.cost).toNat ≤ o.reach := by
  have hle : j * o.cost.toNat ≤ o.reach := Nat.mul_le_mul_right _ hj
  have hlong : o.longest ≤ 1024 := by
    unfold Settings.longest
    split <;> omega
  rw [h.cost, UInt32.toNat_mul, UInt32.toNat_ofNat', Nat.mod_eq_of_lt (a := j) (by omega),
    Nat.mod_eq_of_lt (by omega)]
  exact hle

/-- What holds `t` cycles after the cycle `c` at which a run of `n` cycles began. -/
structure Between (o : Settings) (c : UInt32) (n t : Nat) (e : Engine) : Prop where
  governed : Governed o (some (c + UInt32.ofNat n)) AnyClock e
  running : e.host.stopped = false
  cycle : e.cpu.cycle = c + UInt32.ofNat t
  overshoot : t ≤ n + o.reach

/-- The running trace began `t` cycles after the cycle `c`. -/
structure Inside (o : Settings) (c : UInt32) (n t : Nat) (base : UInt32) (m : Machine Cpu)
    (host : Host) : Prop where
  governed : Governed o (some (c + UInt32.ofNat n)) AnyClock ⟨m.ctx, host⟩
  running : host.stopped = false
  start : base = c + UInt32.ofNat t
  early : t < n
  on : ∃ T A k, Terms.Fit o T ∧ m.On T A k ∧ k.cycle = base ∧ Clock.Timely c n o.reach t k.nextEvent

section

variable {o : Settings} {c base : UInt32} {n t : Nat} {m m' : Machine Cpu} {host : Host}

theorem add_elapsed (c : UInt32) (t : Nat) (d : UInt32) :
    c + UInt32.ofNat t + d = c + UInt32.ofNat (t + d.toNat) ∧
      (c + UInt32.ofNat t + d - (c + UInt32.ofNat t)).toNat = d.toNat := by
  constructor
  · rw [UInt32.ofNat_add, UInt32.ofNat_toNat, UInt32.add_assoc]
  · rw [UInt32.add_comm, UInt32.add_sub_cancel]

theorem elapsed_of_counted {T : Terms} {k : Clock} {get : HostReg → UInt32} {d : Cpu}
    (hT : T.Fit o) (ho : o.reach < 2 ^ 31) (hk : k.cycle = c + UInt32.ofNat t)
    (h : Assertion.counted T k get d) : ∃ a ≤ o.reach, d.cycle = c + UInt32.ofNat (t + a) ∧
      (d.cycle - k.cycle).toNat = a ∧ d.nextEvent = k.nextEvent := by
  obtain ⟨j, hj, hclock⟩ := h
  have hcycle : d.cycle = k.cycle + UInt32.ofNat j * T.cost := congrArg Clock.cycle hclock
  obtain ⟨hnow, hdiff⟩ := add_elapsed c t (UInt32.ofNat j * T.cost)
  rw [hk] at hcycle ⊢
  exact ⟨_, hT.counted ho (Nat.le_trans hj hT.limit), hcycle.trans hnow, hcycle ▸ hdiff,
    congrArg Clock.nextEvent hclock⟩

theorem limited_cycle (stop : UInt32) (k : Clock) : (k.limited stop).cycle = k.cycle := by
  unfold Clock.limited
  dsimp only
  generalize (if isBefore stop (k.cycle + pollInterval) then stop else k.cycle + pollInterval) = limit
  split <;> rfl

theorem obeys_of_resolve {d : CodeCache} (h : d.Stocks (Program.Obeys o)) {entry : Nat}
    {p : Program} (hp : d.resolve? entry = some p) : p.Obeys o := by
  unfold CodeCache.resolve? at hp
  split at hp
  · cases hp
  · rename_i id hid
    dsimp only at hp
    split at hp
    · cases hp
    · cases hp
      exact h id

namespace Between

variable {e e' : Engine}

theorem isDone_iff (h : Between o c n t e) (ho : o.reach < 2 ^ 31) (hn : n ≤ 2 ^ 31) :
    e.isDone = true ↔ n ≤ t :=
  Engine.isDone_iff h.governed.deadline h.running h.cycle
    (Nat.lt_of_le_of_lt h.overshoot (Nat.add_lt_add_left ho n)) hn

theorem enter (h : Between o c n t e) (ht : t < n) (hn : n ≤ 2 ^ 31) {id : BlockId}
    (hp : prepare.run e = .ok (some id) e') (hcycle : e'.cpu.cycle = e.cpu.cycle)
    (hrunning : e'.host.stopped = false) (hpunctual : e'.cpu.clock.Punctual o.reach) :
    Inside o c n t e'.cpu.cycle (.start (e'.host.cache.block id).program e'.cpu) e'.host := by
  obtain ⟨hg, k, hk⟩ := gives_prepare h.governed _ _ hp
  obtain ⟨T, hT, A, hA⟩ := hg.stock id
  have hstart := hcycle.trans h.cycle
  have hkc : k.cycle = c + UInt32.ofNat t := by
    rw [← hstart, ← limited_cycle, ← hk]
    rfl
  have htimely := Clock.timely_limited hkc ht hn (hk ▸ hpunctual)
  rw [← hk] at htimely
  exact ⟨⟨hg.settings, hg.deadline, trivial, hg.stock⟩, hrunning, hstart, ht,
    T, A, e'.cpu.clock, hT, Machine.on_enter (m := .start _ e'.cpu) hA rfl, rfl, htimely⟩

theorem interpret (h : Between o c n t e) (ho : o.reach < 2 ^ 31) (ht : t < n)
    (hp : prepare.run e = .ok none e') (hrunning : e'.interpret.host.stopped = false)
    (hcycle : e'.interpret.cpu.cycle
      = e.cpu.cycle + UInt32.ofNat (Interp.step e'.cpu).1 * e'.countPerOp) :
    Between o c n (t + (e'.interpret.cpu.cycle - e.cpu.cycle).toNat) e'.interpret := by
  obtain ⟨hg, -⟩ := gives_prepare h.governed _ _ hp
  have hcost : e'.countPerOp = o.cost := congrArg Settings.cost hg.settings
  have hT : Terms.Fit o ⟨o.cost, 0, fun _ _ _ => False⟩ :=
    ⟨rfl, Nat.zero_le _, fun h => h.elim⟩
  have hlong : 1 ≤ o.longest := by
    unfold Settings.longest
    split <;> omega
  have hle := hT.counted ho (Nat.le_trans (step_le e'.cpu) (Nat.succ_le_succ hlong))
  rw [hcost, h.cycle] at hcycle
  obtain ⟨hnow, hdiff⟩ := add_elapsed c t (UInt32.ofNat (Interp.step e'.cpu).1 * o.cost)
  rw [h.cycle, hcycle, hdiff]
  refine ⟨hg.interpret, hrunning, hcycle.trans hnow, ?_⟩
  exact Nat.add_le_add (Nat.le_of_lt ht) hle

end Between

namespace Inside

theorem step (h : Inside o c n t base m host) (hs : m.step host.cache.linkTable = .inl m')
    (hf : ¬ m.Follows host.cache.linkTable) : Inside o c n t base m' host := by
  obtain ⟨T, A, k, hT, hon, hk, htimely⟩ := h.on
  exact ⟨⟨h.governed.settings, h.governed.deadline, trivial, h.governed.stock⟩, h.running,
    h.start, h.early, T, A, k, hT, hon.step hs hf, hk, htimely⟩

theorem link (h : Inside o c n t base m host) (ho : o.reach < 2 ^ 31)
    (hs : m.step host.cache.linkTable = .inl m') (hf : m.Follows host.cache.linkTable) :
    Inside o c n (t + (m'.ctx.cycle - base).toNat) m'.ctx.cycle m' host := by
  obtain ⟨T, A, k, hT, hon, hk, htimely⟩ := h.on
  obtain ⟨hahead, hcounted, entry, resolve, hr, hp, heq⟩ := hon.follow hs hf
  have hctx : m'.ctx = m.ctx := by rw [heq]
  have hpc : m'.pc = 0 := by rw [heq]
  obtain ⟨a, ha, hnow, hdiff, hnext⟩ := elapsed_of_counted hT ho (hk.trans h.start) hcounted
  have hsign : signBit32 (m.ctx.cycle - m.ctx.nextEvent) = true := hahead
  rw [hnow, hnext] at hsign
  obtain ⟨hearly, htimely'⟩ := htimely.follow ha ho hsign
  cases hr
  obtain ⟨T', hT', A', hA'⟩ := obeys_of_resolve h.governed.stock hp
  have hon' := Machine.on_enter hA' hpc
  rw [hctx, ← hk, hdiff]
  refine ⟨⟨h.governed.settings, h.governed.deadline, trivial, h.governed.stock⟩, h.running, hnow,
    hearly, T', A', m'.ctx.clock, hT', hon', congrArg Cpu.cycle hctx, ?_⟩
  rw [show m'.ctx.clock.nextEvent = k.nextEvent from (congrArg Cpu.nextEvent hctx).trans hnext]
  exact htimely'

variable {e : Engine} {service : Service}

theorem serve (h : Inside o c n t base m host)
    (hs : m.step host.cache.linkTable = .inr (.ok exitCall, m'))
    (he : Engine.serve ⟨m'.ctx, host⟩ service = (true, e)) (hrunning : e.host.stopped = false)
    (hcycle : e.cpu.cycle = m'.ctx.cycle) :
    Inside o c n t base { m' with ctx := e.cpu } e.host := by
  obtain ⟨T, A, k, hT, hon, hk, htimely⟩ := h.on
  have hstop := hon.stop hs
  rw [if_pos rfl] at hstop
  have hclock : m'.ctx.clock = k := hstop.1.1
  have hg : Governed o (some (c + UInt32.ofNat n)) (fun k' => k'.nextEvent = k.nextEvent)
      ⟨m'.ctx, host⟩ :=
    ⟨h.governed.settings, h.governed.deadline, congrArg Clock.nextEvent hclock, h.governed.stock⟩
  have hg' := hg.serve service
  rw [he] at hg'
  have hclock' : e.cpu.clock = k := by
    rw [← hclock]
    have hnext := hg'.clock.trans (congrArg Clock.nextEvent hclock).symm
    exact congrArg₂ Clock.mk hcycle hnext
  exact ⟨⟨hg'.settings, hg'.deadline, trivial, hg'.stock⟩, hrunning, h.start, h.early,
    T, A, k, hT, hon.resume hs hclock', hk, htimely⟩

theorem abandon (h : Inside o c n t base m host) (ho : o.reach < 2 ^ 31)
    (hs : m.step host.cache.linkTable = .inr (.ok exitCall, m'))
    (he : Engine.serve ⟨m'.ctx, host⟩ service = (false, e)) (hrunning : e.host.stopped = false)
    (hcycle : e.cpu.cycle
      = m'.ctx.cycle + m'.ctx.frame.callCount * Engine.countPerOp ⟨m'.ctx, host⟩) :
    Between o c n (t + (e.cpu.cycle - base).toNat) (e.mapCpu fun c => { c with delay := 0 }) := by
  obtain ⟨T, A, k, hT, hon, hk, htimely⟩ := h.on
  have hstop := hon.stop hs
  rw [if_pos rfl] at hstop
  obtain ⟨hclock, service', s, op, hserved, hasks⟩ := hstop.1
  have hg' := h.governed.anyClock
  have hg : Governed o (some (c + UInt32.ofNat n)) (fun k' => k'.nextEvent = m'.ctx.nextEvent)
      ⟨m'.ctx, host⟩ := ⟨hg'.settings, hg'.deadline, rfl, hg'.stock⟩
  have hge := hg.serve service
  rw [he] at hge
  have hcost : Engine.countPerOp ⟨m'.ctx, host⟩ = T.cost :=
    (congrArg Settings.cost hg'.settings).trans hT.cost.symm
  have hle := hT.counted ho (Nat.succ_le_succ (Nat.le_of_lt (hT.served hserved)))
  have hbase : m'.ctx.cycle = c + UInt32.ofNat t :=
    (congrArg Clock.cycle hclock).trans (hk.trans h.start)
  rw [hasks.count, hcost, hbase] at hcycle
  obtain ⟨hnow, hdiff⟩ := add_elapsed c t (UInt32.ofNat (s.index + 1) * T.cost)
  rw [h.start, hcycle, hdiff]
  refine ⟨⟨hge.settings, hge.deadline, trivial, hge.stock⟩, hrunning, hcycle.trans hnow, ?_⟩
  exact Nat.add_le_add (Nat.le_of_lt h.early) hle

theorem leave (h : Inside o c n t base m host) (ho : o.reach < 2 ^ 31) {status : Int}
    (hs : m.step host.cache.linkTable = .inr (.ok status, m')) (hne : status ≠ exitCall) :
    Between o c n (t + (m'.ctx.cycle - base).toNat) ⟨{ m'.ctx with delay := 0 }, host⟩ := by
  obtain ⟨T, A, k, hT, hon, hk, htimely⟩ := h.on
  have hstop := hon.stop hs
  rw [if_neg hne] at hstop
  obtain ⟨a, ha, hnow, hdiff, -⟩ := elapsed_of_counted hT ho (hk.trans h.start) hstop
  rw [← hk, hdiff]
  exact ⟨⟨h.governed.settings, h.governed.deadline, trivial, h.governed.stock⟩, h.running, hnow,
    Nat.add_le_add (Nat.le_of_lt h.early) ha⟩

end Inside

end

def Point.Keeps (o : Settings) (c : UInt32) (n t : Nat) : Point → Prop
  | between e => Between o c n t e
  | inside base m host => Inside o c n t base m host

theorem Point.Keeps.pass {o : Settings} {c w : UInt32} {n t : Nat} {p q : Point}
    (h : p.Keeps o c n t) (ho : o.reach < 2 ^ 31) (hn : n ≤ 2 ^ 31) (hpass : Moves p w q)
    (hu : Undisturbed o.reach p w q) : q.Keeps o c n (t + (q.base - p.base).toNat) := by
  have hcounter := hu.counter
  cases hpass with
  | @enter e e' id hdone hp =>
    have hb : Between o c n t e := h
    have ht : t < n := Nat.lt_of_not_le fun hle => by simp [(hb.isDone_iff ho hn).mpr hle] at hdone
    have hcycle : e'.cpu.cycle = e.cpu.cycle + 0 := hcounter
    rw [UInt32.add_zero] at hcycle
    have hpunctual := hu.punctual rfl rfl
    have hin := hb.enter ht hn hp hcycle hu.running hpunctual
    have hzero : (e'.cpu.cycle - e.cpu.cycle).toNat = 0 := by
      rw [hcycle, UInt32.sub_self]
      rfl
    change Inside o c n (t + (e'.cpu.cycle - e.cpu.cycle).toNat) _ _ _
    rw [hzero]
    exact hin
  | @interpret e e' hdone hp =>
    have hb : Between o c n t e := h
    have ht : t < n := Nat.lt_of_not_le fun hle => by simp [(hb.isDone_iff ho hn).mpr hle] at hdone
    exact hb.interpret ho ht hp hu.running hcounter
  | @step base m m' host hs hf =>
    have hin : Inside o c n t base m host := h
    change Inside o c n (t + (base - base).toNat) base m' host
    rw [UInt32.sub_self]
    exact hin.step hs hf
  | link hs hf =>
    have hin : Inside o c n t _ _ _ := h
    exact hin.link ho hs hf
  | @serve base m m' host service e hs hr he =>
    have hin : Inside o c n t base m host := h
    change Inside o c n (t + (base - base).toNat) base _ _
    rw [UInt32.sub_self]
    refine hin.serve hs he hu.running ?_
    have hcounter' : e.cpu.cycle = m.ctx.cycle + (m'.ctx.cycle - m.ctx.cycle) := hcounter
    rwa [UInt32.add_comm, UInt32.sub_add_cancel] at hcounter'
  | @abandon base m m' host service e hs hr he =>
    have hin : Inside o c n t base m host := h
    have hcounter' : e.cpu.cycle = m.ctx.cycle + (m'.ctx.cycle - m.ctx.cycle +
      m'.ctx.frame.callCount * Engine.countPerOp ⟨m'.ctx, host⟩) := hcounter
    rw [← UInt32.add_assoc, UInt32.add_comm m.ctx.cycle, UInt32.sub_add_cancel] at hcounter'
    have hout := hin.abandon ho hs he hu.running hcounter'
    exact hout
  | leave hs hne =>
    have hin : Inside o c n t _ _ _ := h
    exact hin.leave ho hs hne

def LeadsTo : Point → Point → Prop := Relation.ReflTransGen fun p q => ∃ w, Moves p w q

theorem leadsTo_of_run {host : Host} {m : Machine Cpu} {r : Except LinkError Int × Machine Cpu}
    (h : m.run host.cache.linkTable = some r) (base : UInt32) :
    ∃ base' m', LeadsTo (.inside base m host) (.inside base' m' host) ∧
      m'.step host.cache.linkTable = .inr r := by
  refine Machine.run_induction (motive := fun m r => ∀ base, ∃ base' m',
    LeadsTo (.inside base m host) (.inside base' m' host) ∧
      m'.step host.cache.linkTable = .inr r) ?_ ?_ h base
  · intro m m₁ r hs ih base
    by_cases hf : m.Follows host.cache.linkTable
    · obtain ⟨base', m', hlead, hr⟩ := ih m₁.ctx.cycle
      exact ⟨base', m', .head ⟨_, .link hs hf⟩ hlead, hr⟩
    · obtain ⟨base', m', hlead, hr⟩ := ih base
      exact ⟨base', m', .head ⟨_, .step hs hf⟩ hlead, hr⟩
  · intro m r hs base
    exact ⟨base, m, .refl, hs⟩

theorem leadsTo_of_runMachine {fuel : Nat} {m : Machine Cpu} {host : Host} {e : Engine}
    (h : runMachine fuel m host = .ok () e) (base : UInt32) :
    LeadsTo (.inside base m host) (.between (e.mapCpu fun c => { c with delay := 0 })) := by
  induction fuel generalizing m host base with
  | zero => cases h
  | succ fuel ih =>
    unfold runMachine at h
    split at h
    · cases h
    · cases h
    · rename_i status program pc regs fregs cpu hrun
      obtain ⟨base', m', hlead, hs⟩ := leadsTo_of_run hrun base
      refine hlead.trans ?_
      split at h
      · rename_i hne
        cases h
        exact .single ⟨_, .leave hs hne⟩
      · rename_i heq
        have hcall : status = exitCall := Decidable.not_not.mp heq
        rw [hcall] at hs
        split at h
        · cases h
        · rename_i service hr
          split at h
          · rename_i cpu' host' he
            exact .head ⟨_, .serve hs hr he⟩ (ih h base')
          · rename_i e' he
            cases h
            exact .single ⟨_, .abandon hs hr he⟩

variable {n : UInt32} {e : Engine}

theorem gives_round (h : e.isDone = false) :
    Gives e Engine.round fun _ e' => LeadsTo (.between e) (.between e') := by
  have hround : Engine.round = prepare >>= fun r => r.elim (modify interpret) execute := by
    unfold Engine.round prepare
    simp only [bind_assoc]
    refine congrArg _ (funext fun _ => congrArg _ (funext fun _ => congrArg _ (funext fun _ => ?_)))
    refine congrArg _ (funext fun r => ?_)
    cases r <;> rfl
  rw [hround]
  refine .bind (Q := fun r e' => prepare.run e = .ok r e') (fun r e' hr => hr) fun r e' hr => ?_
  cases r with
  | none =>
    intro u d hd
    cases hd
    exact .single ⟨_, .interpret h hr⟩
  | some id =>
    refine .bind (Q := fun _ d => runMachine serviceLimit
      (.start (e'.host.cache.block id).program e'.cpu) e'.host = .ok () d)
      (fun u d hd => hd) fun u d hd => ?_
    intro u' d' hd'
    cases hd'
    exact .head ⟨_, .enter h hr⟩ (leadsTo_of_runMachine hd _)

theorem gives_loop (fuel : Nat) (e : Engine) : Gives e (loop fuel) fun _ e' =>
    LeadsTo (.between e) (.between e') ∧ e'.isDone = true := by
  induction fuel generalizing e with
  | zero => exact .throw
  | succ fuel ih =>
    refine .get_bind ?_
    by_cases hd : e.isDone = true
    · rw [if_pos hd]
      exact .pure ⟨.refl, hd⟩
    · rw [if_neg hd]
      refine .bind (gives_round (Bool.not_eq_true _ ▸ hd)) fun _ e₁ hlead => ?_
      exact (ih e₁).mono fun _ _ h => ⟨hlead.trans h.1, h.2⟩

/-- A run of `n` cycles that ends is made of the steps from the call to its end. -/
theorem gives_runCycles (n : UInt32) (e : Engine) : Gives e (runCycles n) fun _ e' =>
    LeadsTo (.between (e.bounded n)) (.between e') ∧ e'.isDone = true :=
  .modify_bind (gives_loop roundLimit _)

theorem Passage.keeps (hn : n.toNat ≤ 2 ^ 31) (ho : e.host.settings.reach < 2 ^ 31)
    (hstock : e.host.cache.Stocks (Program.Obeys e.host.settings)) {p : Point} {t : Nat}
    (h : Passage n e p t) : p.Keeps e.host.settings e.cpu.cycle n.toNat t := by
  induction h with
  | call =>
    refine ⟨⟨rfl, ?_, trivial, hstock⟩, rfl, (UInt32.add_zero _).symm, Nat.zero_le _⟩
    rw [UInt32.ofNat_toNat]
    rfl
  | pass _ hpass hu ih => exact ih.pass ho hn hpass hu

namespace Passage

variable {base : UInt32} {m : Machine Cpu} {host : Host} {t : Nat}

theorem add_sub_self (a b : UInt32) : a + (b - a) = b := by
  rw [UInt32.add_comm, UInt32.sub_add_cancel]

theorem enter {e' : Engine} {id : BlockId} (hdone : (e.bounded n).isDone = false)
    (hrun : prepare.run (e.bounded n) = .ok (some id) e') (hcycle : e'.cpu.cycle = e.cpu.cycle)
    (hs : e'.host.stopped = false) (hp : e'.cpu.clock.Punctual e.host.settings.reach) :
    Passage n e (.inside e.cpu.cycle (.start (e'.host.cache.block id).program e'.cpu) e'.host)
      0 := by
  have hpass : Passage n e (.inside e'.cpu.cycle (.start (e'.host.cache.block id).program e'.cpu)
      e'.host) (0 + (e'.cpu.cycle - e.cpu.cycle).toNat) :=
    Passage.call.pass (.enter hdone hrun)
      ⟨hcycle.trans (UInt32.add_zero _).symm, hs, fun _ hq => by
        cases hq
        exact hp⟩
  rw [hcycle, UInt32.sub_self] at hpass
  exact hpass

theorem ahead (h : Passage n e (.inside base m host) t) (hs : host.stopped = false)
    {m' : Machine Cpu} {fuel : Nat} (hm : m.ahead fuel = some m') :
    Passage n e (.inside base m' host) t := by
  induction fuel generalizing m with
  | zero => cases hm
  | succ fuel ih =>
    unfold Machine.ahead at hm
    split at hm
    · cases hm
      exact h
    · cases hm
      exact h
    · rename_i hlink _
      split at hm
      · rename_i m₁ hstep
        have hf : ¬ m.Follows host.cache.linkTable := fun ⟨cell, hc, _⟩ => hlink cell hc
        have hpass : Passage n e (.inside base m₁ host) (t + (base - base).toNat) :=
          h.pass (.step (Machine.step_inl hstep hlink) hf)
            ⟨(add_sub_self ..).symm, hs, fun hp => by cases hp⟩
        rw [UInt32.sub_self] at hpass
        exact ih hpass hm
      · cases hm

theorem follow (h : Passage n e (.inside base m host) t) (hs : host.stopped = false)
    {cell : Int} {p : Program} (hc : m.program.code[m.pc]? = some (.link cell))
    (hcell : host.cache.linkTable.cell cell ≠ 0)
    (hr : host.cache.resolve? (host.cache.linkTable.cell cell) = some p) :
    Passage n e (.inside m.ctx.cycle { m with program := p, pc := 0 } host)
      (t + (m.ctx.cycle - base).toNat) := by
  have hstep : m.step host.cache.linkTable = .inl { m with program := p, pc := 0 } := by
    have hresolve : host.cache.linkTable.resolve = some host.cache.resolve? := rfl
    have hexec : m.exec (.link cell) = (m, .link cell) := rfl
    simp only [Machine.step, hc, hexec, Machine.follow, if_neg hcell, hresolve, hr]
  exact h.pass (.link hstep ⟨cell, hc, hcell⟩)
    ⟨(add_sub_self ..).symm, hs, fun hp => by cases hp⟩

theorem leave (h : Passage n e (.inside base m host) t) (hs : host.stopped = false)
    {status : Int} (hc : m.program.code[m.pc]? = some (.exit status)) (hne : status ≠ exitCall) :
    Passage n e (.between ⟨{ m.ctx with delay := 0 }, host⟩)
      (t + (m.ctx.cycle - base).toNat) := by
  have hstep : m.step host.cache.linkTable = .inr (.ok status, m.halted) := by
    have hexec : m.exec (.exit status) = (m, .exit status) := rfl
    simp only [Machine.step, hc, hexec]
  exact h.pass (.leave (n := m.halted) hstep hne)
    ⟨(add_sub_self ..).symm, hs, fun _ hq => by cases hq⟩

end Passage

/-- A loop that counts in a register. -/
def countLoop : Memory :=
  ⟨((Array.replicate 1024 0).setIfInBounds 0 0x08000000).setIfInBounds 1 0x24210001, #[false], []⟩

def countWords : List Instr := [⟨0x08000000⟩, ⟨0x24210001⟩, ⟨0⟩, ⟨0⟩]

/-- The CPU at the loop, when the next event is the end of a run of three cycles. -/
def atCountLoop : Cpu := { Cpu.powerOn countLoop none with pc := 0x80000000, nextEvent := 3 }

/-- The CPU when the loop has been read and its page is marked. -/
def inCountLoop : Cpu :=
  let c := (readWords 4 0 atCountLoop).2
  { c with mem := c.mem.markCode 0 true }

/-- The ends of two laps. -/
def countLaps (p : Program) : Option (Machine Cpu × Machine Cpu) := do
  let m ← (Machine.start p inCountLoop).ahead 64
  let n ← ({ m with program := p, pc := 0 } : Machine Cpu).ahead 64
  return (m, n)

theorem ofTrace_countLoop : ∃ t m n, TraceProgram.ofTrace ⟨1, 4096, true, some 4080⟩
      (List.range 65536) 0x80000000 (Trace.build countWords 4) = .ok t ∧
    (t.exits = [⟨0x80000000, 0⟩] ∧ t.program.code.isEmpty = false ∧ t.program.size = 182) ∧
    (Machine.start t.program inCountLoop).ahead 64 = some m ∧
    ({ m with program := t.program, pc := 0 } : Machine Cpu).ahead 64 = some n ∧
    (m.program.code[m.pc]? = some (.link 0) ∧ m.ctx.cycle = 2) ∧
    n.program.code[n.pc]? = some (.exit 0) ∧ n.ctx.cycle = 4 := by
  have hshape : (TraceProgram.ofTrace ⟨1, 4096, true, some 4080⟩ (List.range' 0 65536) 0x80000000
      (Trace.build countWords 4)).toOption.map
        (fun t => (t.exits, t.program.code.isEmpty, t.program.size)) =
          some ([⟨0x80000000, 0⟩], false, 182) := by
    decide +kernel
  have hlaps : ((TraceProgram.ofTrace ⟨1, 4096, true, some 4080⟩ (List.range' 0 65536) 0x80000000
      (Trace.build countWords 4)).toOption.bind fun t => countLaps t.program).map
        (fun l => ((l.1.program.code[l.1.pc]?, l.1.ctx.cycle),
          l.2.program.code[l.2.pc]?, l.2.ctx.cycle)) =
            some ((some (.link 0), 2), some (.exit 0), 4) := by
    decide +kernel
  rw [List.range_eq_range']
  cases ht : TraceProgram.ofTrace ⟨1, 4096, true, some 4080⟩ (List.range' 0 65536) 0x80000000
      (Trace.build countWords 4) with
  | error failure =>
    rw [ht] at hshape
    cases hshape
  | ok t =>
    rw [ht] at hshape hlaps
    change (countLaps t.program).map _ = _ at hlaps
    obtain ⟨⟨m, n⟩, hrun, hview⟩ := Option.map_eq_some_iff.mp hlaps
    obtain ⟨m', hm, hrest⟩ := Option.bind_eq_some_iff.mp hrun
    obtain ⟨n', hn, hpair⟩ := Option.bind_eq_some_iff.mp hrest
    cases hpair
    obtain ⟨hfirst, hsecond⟩ := Prod.mk.inj hview
    obtain ⟨hexits, hrest⟩ := Prod.mk.inj (Option.some.inj hshape)
    exact ⟨t, m, n, rfl, ⟨hexits, Prod.mk.inj hrest⟩, hm, hn, Prod.mk.inj hfirst,
      Prod.mk.inj hsecond⟩

/-- The trace of the loop is compiled, and its exit leads back to it. -/
theorem yields_compile_countLoop {t : TraceProgram} {host : Host}
    (ht : TraceProgram.ofTrace ⟨1, 4096, true, some 4080⟩ (List.range 65536) 0x80000000
      (Trace.build countWords 4) = .ok t)
    (hexits : t.exits = [⟨0x80000000, 0⟩]) (hcode : t.program.code.isEmpty = false)
    (hsize : t.program.size = 182)
    (hset : host.settings = ⟨4096, 4, 1, 1, 1, .emulator, false⟩)
    (hbackend : host.backend = .emulator) (hcache : host.cache = .create (.create 4096) 1 0) :
    Yields ⟨atCountLoop, host⟩ (compile 0x80000000) fun r e' => ∃ id, r = .ok id ∧
      (e'.host.cache.block id).program = t.program ∧ e'.cpu = inCountLoop ∧
      e'.host.stopped = host.stopped ∧ e'.host.cache.linkTable.cell 0 ≠ 0 ∧
      e'.host.cache.resolve? (e'.host.cache.linkTable.cell 0) = some t.program := by
  have hread : (readWords 4 0 atCountLoop).1 = countWords ∧
      (readWords 4 0 atCountLoop).2.effects.isEmpty = true ∧ atCountLoop.shape = (4096, true) ∧
      2 ≤ (Trace.build countWords 4).length ∧
      (readWords 4 0 atCountLoop).2.physical? 0x80000000 false = some 0 ∧
      (readWords 4 0 atCountLoop).2.mem.inRam 0 4 = true := by
    decide +kernel
  obtain ⟨hwords, heffects, hshape, hlength, hphys, hram⟩ := hread
  have hblock : blockSize t none = 208 := by
    change align (Block.headerSize + t.program.size) = _
    rw [hsize]
    rfl
  have hs : Supplied ⟨4096, 4, 1, 1, 1, .emulator, false⟩
      (CodeCache.create (.create 4096) 1 0).extent [] ⟨atCountLoop, host⟩ :=
    ⟨hset, hbackend, hcache ▸ .create 4096 1 0⟩
  have hcompile := (yields_compile_of_empty hset hbackend hcache (by decide) hshape (by decide)
    hwords heffects hlength ht hblock rfl).gives (hs.compile 0x80000000)
  refine hcompile.mono fun r e' hr => ?_
  obtain ⟨⟨id, d, rfl, hins, hlive, hring, -, he'⟩, hs'⟩ := hr
  have hstock := hs'.stock
  obtain ⟨aliases, htrack⟩ := host_track ⟨(readWords 4 0 atCountLoop).2, { host with cache := d }⟩
    0x80000000
  rw [← he'] at htrack
  have hd : e'.host.cache = d := by rw [htrack]
  rw [hd] at hstock ⊢
  have hone : t.exits.length = 1 := by
    rw [hexits]
    rfl
  rw [hone] at hins
  have hempty : Tidy ((CodeCache.create (.create 4096) 1 0).takeCells 1) [0] := by
    have hhead : (CodeCache.create (.create 4096) 1 0).free.head? = some 0 := by
      rw [free_create, List.head?_range, if_neg (by decide)]
    have h := (tidy_create 4096 1 0).allocCell
    rw [allocCell_eq, hhead] at h
    exact h
  have hheld : ∀ x ∈ t.exits, x.cell ∈ [0] ∧ x.target &&& 3 = 0 := by
    rw [hexits]
    decide
  have hnodup : (t.exits.map (·.cell)).Nodup := by
    rw [hexits]
    decide
  have htidy : Tidy (((CodeCache.create (.create 4096) 1 0).takeCells 1).insert 0x80000000 t
      none).2 _ :=
    hempty.insert (by decide) hnodup (fun x hx => (hheld x hx).1) (fun x hx => (hheld x hx).2) none
  rw [hins] at htidy
  obtain ⟨hprog, hown⟩ := hempty.sound.block_insert hins
  have hword : d.word 0 = (d.block id).entry := by
    refine htidy.word_of_exit hstock.worded hring (x := ⟨0x80000000, 0⟩) ?_ hlive
    rw [hown, hexits]
    exact .head _
  have hresolve := hstock.sound.resolve_entry hring (hprog ▸ hcode)
  rw [← hword, hprog] at hresolve
  have hentry : d.word 0 ≠ 0 := by
    rw [hword]
    unfold Block.entry Block.headerSize
    omega
  refine ⟨id, rfl, hprog, ?_, ?_, hentry, hresolve⟩
  · exact (congrArg Engine.cpu he').trans
      (cpu_track (e := ⟨(readWords 4 0 atCountLoop).2, { host with cache := d }⟩) hphys hram)
  · rw [htrack]

/-- A new engine, at the loop. -/
structure AtCountLoop (e : Engine) : Prop where
  cpu : e.cpu = { Cpu.powerOn countLoop none with pc := 0x80000000 }
  settings : e.host.settings = ⟨4096, 4, 1, 1, 1, .emulator, false⟩
  backend : e.host.backend = .emulator
  cache : e.host.cache = .create (.create 4096) 1 0
  quiet : e.host.queue.popDue? 0 = none
  next : e.host.queue.next? = some 0x80000000

theorem exists_atCountLoop : ∃ e₀, Engine.create countLoop ⟨4096, 4, 1, 1, 1, .emulator, false⟩
    = .ok e₀ ∧ AtCountLoop (e₀.mapCpu fun c => { c with pc := 0x80000000 }) :=
  ⟨_, rfl, rfl, rfl, rfl, rfl, rfl, rfl⟩

namespace AtCountLoop

theorem polled (h : AtCountLoop e) : (e.bounded 3).polled = ⟨atCountLoop, (e.bounded 3).host⟩ := by
  have hcpu : (e.bounded 3).cpu = { Cpu.powerOn countLoop none with pc := 0x80000000 } := h.cpu
  have hnext : (e.bounded 3).host.queue.next? = some 0x80000000 := h.next
  have hdeadline : (e.bounded 3).host.deadline = some 3 := by
    change some (e.cpu.cycle + 3) = _
    rw [h.cpu]
    rfl
  unfold Engine.polled limitChain
  simp only [mapCpu, hnext, hdeadline, hcpu, Option.getD_some]
  rfl

theorem yields_prepare (h : AtCountLoop e) {t : TraceProgram}
    (ht : TraceProgram.ofTrace ⟨1, 4096, true, some 4080⟩ (List.range 65536) 0x80000000
      (Trace.build countWords 4) = .ok t)
    (hexits : t.exits = [⟨0x80000000, 0⟩]) (hcode : t.program.code.isEmpty = false)
    (hsize : t.program.size = 182) :
    Yields (e.bounded 3) prepare fun r e' => ∃ id, r = some id ∧
      (e'.host.cache.block id).program = t.program ∧ e'.cpu = inCountLoop ∧
      e'.host.stopped = false ∧ e'.host.cache.linkTable.cell 0 ≠ 0 ∧
      e'.host.cache.resolve? (e'.host.cache.linkTable.cell 0) = some t.program := by
  have hquiet : (e.bounded 3).host.queue.popDue? (e.bounded 3).cpu.cycle = none := by
    rw [show (e.bounded 3).cpu = _ from h.cpu]
    exact h.quiet
  have hmiss : ((e.bounded 3).host.cache.lookup 0x80000000).block? = none := by
    have hl : (CodeCache.create (.create 4096) 1 0).lookup 0x80000000 = .notCompiled := by
      simp [CodeCache.lookup, CodeCache.create]
    rw [show (e.bounded 3).host.cache = _ from h.cache, hl]
    rfl
  obtain ⟨r, e', hrun, hr⟩ := yields_lookup_of_compile (e := ⟨atCountLoop, (e.bounded 3).host⟩)
    hmiss (yields_compile_countLoop ht hexits hcode hsize h.settings h.backend h.cache)
  refine ⟨r, e', ?_, hr⟩
  rw [run_prepare_of_quiet hquiet, h.polled]
  exact hrun

theorem isDone (h : AtCountLoop e) : (e.bounded 3).isDone = false := by
  change (!isBefore e.cpu.cycle (e.cpu.cycle + 3)) = false
  rw [h.cpu]
  rfl

/-- The trace of the loop is entered, its link cell leads back to it, and the second lap ends. -/
theorem passage (h : AtCountLoop e) : ∃ (m : Machine Cpu) (c : Cpu) (host : Host),
    Passage 3 e (.inside 2 m host) 2 ∧ Passage 3 e (.between ⟨c, host⟩) 4 := by
  obtain ⟨t, m, n, ht, ⟨hexits, hcode, hsize⟩, hm, hn, ⟨hlink, hm2⟩, hexit, hn4⟩ :=
    ofTrace_countLoop
  obtain ⟨r, e', hrun, id, rfl, hprog, hcpu, hrunning, hcell, hresolve⟩ :=
    h.yields_prepare ht hexits hcode hsize
  have hclock : inCountLoop.cycle = 0 ∧ inCountLoop.clock.isAhead = true := by
    decide +kernel
  have hcycle : e.cpu.cycle = 0 := by
    rw [h.cpu]
    rfl
  have henter : Passage 3 e (.inside 0 (.start t.program inCountLoop) e'.host) 0 := by
    rw [← hprog, ← hcpu, ← hcycle]
    refine .enter h.isDone hrun ?_ hrunning fun hbehind => ?_
    · rw [hcpu, hclock.1, hcycle]
    · rw [hcpu, hclock.2] at hbehind
      cases hbehind
  have hback := (henter.ahead hrunning hm).follow hrunning hlink hcell hresolve
  rw [hm2] at hback
  have hend := (hback.ahead hrunning hn).leave hrunning hexit (by decide)
  rw [hn4] at hend
  exact ⟨_, _, _, hback, hend⟩

end AtCountLoop

/-- In a run of `n` cycles, each trace begins when fewer than `n` cycles have elapsed, whether it
is entered from the dispatcher or through a link cell. Between two rounds the run goes on, with a
trace or an instruction, while fewer than `n` cycles have elapsed, and is at its end otherwise; then
the last trace has run past the end by no more than the cycles of one trace. -/
theorem runCycles_deadline (hn : n.toNat ≤ 2 ^ 31) (ho : e.host.settings.reach < 2 ^ 31)
    (hstock : e.host.cache.Stocks (Program.Obeys e.host.settings)) {p : Point} {t : Nat}
    (h : Passage n e p t) :
    (∀ base m host, p = .inside base m host → t < n.toNat) ∧
      ∀ d, p = .between d →
        (d.isDone = true ↔ n.toNat ≤ t) ∧ t ≤ n.toNat + e.host.settings.reach := by
  have hkeeps := h.keeps hn ho hstock
  constructor
  · rintro base m host rfl
    exact Inside.early hkeeps
  · rintro d rfl
    exact ⟨Between.isDone_iff hkeeps ho hn, Between.overshoot hkeeps⟩

/-- A loop is entered, its link cell leads back to it, and the second lap reaches the end. -/
theorem runCycles_deadline_countLoop : ∃ e₀ e : Engine,
    Engine.create countLoop ⟨4096, 4, 1, 1, 1, .emulator, false⟩ = .ok e₀ ∧
    e = e₀.mapCpu (fun c => { c with pc := 0x80000000 }) ∧
    (3 : UInt32).toNat ≤ 2 ^ 31 ∧ e.host.settings.reach < 2 ^ 31 ∧
    e.host.cache.Stocks (Program.Obeys e.host.settings) ∧
    (∃ m host, Passage 3 e (.inside 2 m host) 2 ∧ 2 < (3 : UInt32).toNat) ∧
    ∃ d, Passage 3 e (.between d) 4 ∧ d.isDone = true ∧
      4 ≤ (3 : UInt32).toNat + e.host.settings.reach := by
  obtain ⟨e₀, he₀, h⟩ := exists_atCountLoop
  generalize he : e₀.mapCpu (fun c => { c with pc := 0x80000000 }) = e at h
  obtain ⟨m, c, host, hlink, hend⟩ := h.passage
  have hn : (3 : UInt32).toNat ≤ 2 ^ 31 := by decide
  have ho : e.host.settings.reach < 2 ^ 31 := by
    rw [h.settings]
    decide
  have hstock : e.host.cache.Stocks (Program.Obeys e.host.settings) := by
    rw [h.cache]
    exact .create (Program.obeys_default _) _ _ _
  obtain ⟨hdone, hover⟩ := (runCycles_deadline hn ho hstock hend).2 _ rfl
  exact ⟨e₀, e, he₀, he.symm, hn, ho, hstock,
    ⟨m, host, hlink, (runCycles_deadline hn ho hstock hlink).1 _ _ _ rfl⟩,
    _, hend, hdone.mpr (by decide), hover⟩

end Recompiler
