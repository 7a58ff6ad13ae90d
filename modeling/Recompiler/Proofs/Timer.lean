import Recompiler.Proofs.DelaySlots
import Recompiler.Proofs.EventOrder
import Recompiler.Engine.Run

/-!
The timer. Its event is armed at the match, or half of the counter's range away from it; the
handler tells the two apart by how far the counter has come, asserts the interrupt at the match
only, and arms the timer again. While events fire in time the interrupt is asserted once each time
the counter passes the compare register.
-/

namespace Recompiler

open EventQueue

namespace EventQueue

/-- The queues that operations lead to, whatever the clock reads at each. -/
inductive Reached : EventQueue → Prop
  | create (capacity : Int) : Reached (.create capacity)
  | schedule {q : EventQueue} (h : Reached q) (now : UInt32) (e : Event) (cycle : UInt32) :
    Reached (q.schedule now e cycle).2
  | cancel {q : EventQueue} (h : Reached q) (e : Event) : Reached (q.cancel e).2
  | shift {q : EventQueue} (h : Reached q) (d : UInt32) : Reached (q.shift d)
  | clear {q : EventQueue} (h : Reached q) : Reached q.clear
  | pop {q q' : EventQueue} {e : Event} (h : Reached q) (now : UInt32)
    (he : q.popDue? now = some (e, q')) : Reached q'
  | setSpecialDone {q : EventQueue} (h : Reached q) (done : Bool) :
    Reached { q with specialDone := done }

theorem perm_insert (done : Bool) (now : UInt32) (p : Pending) (ps : List Pending) :
    (insert done now p ps).Perm (p :: ps) := by
  unfold insert
  split
  · exact .refl _
  · exact perm_insertBehind

theorem cancel_pending (q : EventQueue) (e : Event) :
    (q.cancel e).2.pending = q.pending.eraseP (·.event == e) := by
  unfold cancel
  cases hf : q.pending.find? (·.event == e) with
  | some p => rfl
  | none =>
    rw [List.find?_eq_none] at hf
    exact (List.eraseP_of_forall_not hf).symm

theorem popDue?_some {q q' : EventQueue} {e : Event} {now : UInt32}
    (h : q.popDue? now = some (e, q')) : ∃ p rest, q.pending = p :: rest ∧ p.event = e ∧
      isDue now p.cycle = true ∧ q' = { q with pending := rest, free := p.slot :: q.free } := by
  unfold popDue? at h
  split at h
  · cases h
  · rename_i p rest hp
    split at h
    · rename_i hdue
      cases h
      exact ⟨p, rest, hp, rfl, hdue, rfl⟩
    · cases h

theorem Reached.distinct {q : EventQueue} (h : Reached q) : (q.pending.map (·.event)).Nodup := by
  induction h with
  | create capacity => exact .nil
  | @schedule q h now e cycle ih =>
    obtain ⟨-, hp⟩ | ⟨-, hnew, slot, hp⟩ := schedule_cases q now e cycle
    · rwa [hp]
    · rw [hp, ((perm_insert _ now _ q.pending).map _).nodup_iff, List.map_cons, List.nodup_cons]
      refine ⟨fun hm => ?_, ih⟩
      obtain ⟨p, hpm, hpe⟩ := List.mem_map.mp hm
      exact hnew p hpm hpe
  | @cancel q h e ih =>
    rw [cancel_pending]
    exact ih.sublist (List.eraseP_sublist.map _)
  | @shift q h d ih =>
    rw [EventQueue.shift, List.map_map]
    exact ih
  | clear h ih => exact .nil
  | pop h now he ih =>
    obtain ⟨p, rest, hp, -, -, rfl⟩ := popDue?_some he
    rw [hp] at ih
    exact (List.nodup_cons.mp ih).2
  | setSpecialDone h done ih => exact ih

def ArmedAt (q : EventQueue) (t : UInt32) : Prop :=
  ∃ slot, q.pending.filter (·.event = .compare) = [⟨slot, .compare, t⟩]

/-- Can the timer be armed again? Its event gives a slot back, or one is free. -/
def HasRoom (q : EventQueue) : Prop := (q.pendingAt? .compare).isSome = true ∨ q.free ≠ []

theorem cancel_free {q : EventQueue} (h : q.HasRoom) : (q.cancel .compare).2.free ≠ [] := by
  unfold cancel
  cases hf : q.pending.find? (·.event == .compare) with
  | some p => exact List.cons_ne_nil _ _
  | none =>
    obtain hp | hfree := h
    · rw [pendingAt?, hf] at hp
      cases hp
    · exact hfree

theorem Reached.armedAt {q : EventQueue} (h : Reached q) (hroom : q.HasRoom) (now t : UInt32) :
    ((q.cancel .compare).2.schedule now .compare t).2.ArmedAt t := by
  have hnone (p : Pending) (hp : p ∈ (q.cancel .compare).2.pending) : p.event ≠ .compare := by
    rw [cancel_pending, eraseP_eq_filter h.distinct, List.mem_filter] at hp
    exact of_decide_eq_true hp.2
  have hpending : ((q.cancel .compare).2.pendingAt? .compare).isSome = false := by
    rw [Bool.eq_false_iff, pendingAt?, Option.isSome_map, Ne, List.find?_isSome]
    rintro ⟨p, hp, he⟩
    exact hnone p hp (beq_iff_eq.mp he)
  have hfilter : (q.cancel .compare).2.pending.filter (·.event = .compare) = [] := by
    rw [List.filter_eq_nil_iff]
    intro p hp
    simpa using hnone p hp
  obtain ⟨slot, free, hfree⟩ := List.exists_cons_of_ne_nil (cancel_free hroom)
  unfold EventQueue.schedule
  rw [hpending, hfree]
  refine ⟨slot, List.perm_singleton.mp ?_⟩
  have hperm := (perm_insert (q.cancel .compare).2.specialDone now ⟨slot, .compare, t⟩
    (q.cancel .compare).2.pending).filter (·.event = .compare)
  rwa [List.filter_cons_of_pos (by simp), hfilter] at hperm

theorem ArmedAt.pop {q q' : EventQueue} {t now : UInt32} (h : q.ArmedAt t)
    (hp : q.popDue? now = some (.compare, q')) : isDue now t = true ∧ q'.HasRoom := by
  obtain ⟨slot, hs⟩ := h
  obtain ⟨p, rest, hq, he, hdue, rfl⟩ := popDue?_some hp
  rw [hq, List.filter_cons_of_pos (by simp [he]), List.cons.injEq] at hs
  rw [hs.1] at hdue
  exact ⟨hdue, .inr (List.cons_ne_nil _ _)⟩

end EventQueue

def timerCycle (now cmp : UInt32) : UInt32 :=
  if cmp - now ≠ 0 ∧ cmp - now < half then cmp else cmp + half

theorem half_add_half : half + half = 0 := by decide

theorem timerCycle_cases (now cmp : UInt32) :
    (timerCycle now cmp = cmp ∧ 0 < (cmp - now).toNat ∧ (cmp - now).toNat < 2 ^ 31) ∨
      timerCycle now cmp = cmp + half ∧
        ((cmp - now).toNat = 0 ∨ 2 ^ 31 ≤ (cmp - now).toNat) := by
  unfold timerCycle
  split
  · rename_i h
    have h0 : (cmp - now).toNat ≠ 0 := fun hz => h.1 (UInt32.toNat_inj.mp hz)
    exact .inl ⟨rfl, Nat.pos_of_ne_zero h0, UInt32.lt_iff_toNat_lt.mp h.2⟩
  · rename_i h
    refine .inr ⟨rfl, ?_⟩
    by_cases h0 : cmp - now = 0
    · rw [h0]
      exact .inl rfl
    · exact .inr (UInt32.le_iff_toNat_le.mp (UInt32.not_lt.mp fun hlt => h ⟨h0, hlt⟩))

theorem timerCycle_eq_or (now cmp : UInt32) :
    timerCycle now cmp = cmp ∨ timerCycle now cmp = cmp + half := by
  obtain ⟨h, -⟩ | ⟨h, -⟩ := timerCycle_cases now cmp
  · exact .inl h
  · exact .inr h

theorem toNat_add_half_sub (now cmp : UInt32) :
    (cmp + half - now).toNat = ((cmp - now).toNat + 2 ^ 31) % 2 ^ 32 := by
  rw [add_sub_right_comm, UInt32.toNat_add]
  rfl

theorem timerCycle_ahead {now cmp : UInt32} (h : cmp - now ≠ half) :
    0 < (timerCycle now cmp - now).toNat ∧ (timerCycle now cmp - now).toNat ≤ 2 ^ 31 := by
  have hne : (cmp - now).toNat ≠ 2 ^ 31 := fun hn => h (UInt32.toNat_inj.mp hn)
  have hlt := (cmp - now).toNat_lt
  obtain ⟨ht, hpos, hless⟩ | ⟨ht, hfar⟩ := timerCycle_cases now cmp
  · rw [ht]
    omega
  · rw [ht, toNat_add_half_sub]
    omega

theorem timerCycle_half {now cmp : UInt32} (h : cmp - now = half) : timerCycle now cmp = now := by
  have hc : cmp = half + now := sub_eq_iff_eq_add.mp h
  unfold timerCycle
  rw [h, if_neg (by decide), hc, add_right_comm, half_add_half, zero_add]

namespace Engine

theorem armCompare_eq (e : Engine) (cmp : UInt32) :
    (e.armCompare cmp).cpu = e.cpu ∧ (e.armCompare cmp).host.queue =
      ((e.host.queue.cancel .compare).2.schedule e.cpu.cycle .compare
        (timerCycle e.cpu.cycle cmp)).2 ∧
      (e.armCompare cmp).host.handlers = e.host.handlers :=
  ⟨rfl, rfl, rfl⟩

theorem armCompare_armedAt {e : Engine} (h : Reached e.host.queue) (hroom : e.host.queue.HasRoom)
    (cmp : UInt32) : (e.armCompare cmp).host.queue.ArmedAt (timerCycle e.cpu.cycle cmp) := by
  rw [(armCompare_eq e cmp).2.1]
  exact h.armedAt hroom _ _

theorem armCompare_reached {e : Engine} (h : Reached e.host.queue) (cmp : UInt32) :
    Reached (e.armCompare cmp).host.queue := by
  rw [(armCompare_eq e cmp).2.1]
  exact (h.cancel _).schedule _ _ _

/-- Has the counter passed the compare register less than a quarter of its range ago? -/
def isMatch (e : Engine) : Bool := e.cpu.cycle - compareReg e.cpu < 0x40000000

theorem timerFired_eq (e : Engine) : timerFired e =
    (if e.isMatch then e.mapCpu (·.setPending CauseBit.timer true) else e).armCompare
      (compareReg e.cpu) := by
  unfold timerFired isMatch
  simp only [decide_eq_true_eq]

theorem isMatch_iff {e : Engine} {t : UInt32}
    (ht : t = compareReg e.cpu ∨ t = compareReg e.cpu + half)
    (hlate : (e.cpu.cycle - t).toNat < 2 ^ 30) : e.isMatch = true ↔ t = compareReg e.cpu := by
  unfold isMatch
  rw [decide_eq_true_iff]
  constructor
  · intro hm
    obtain ht | ht := ht
    · exact ht
    · exfalso
      have hm' : (e.cpu.cycle - compareReg e.cpu).toNat < 2 ^ 30 := UInt32.lt_iff_toNat_lt.mp hm
      have hsub : e.cpu.cycle - compareReg e.cpu = e.cpu.cycle - t + half := by
        rw [ht]
        abel
      rw [hsub, UInt32.toNat_add] at hm'
      have hhalf : half.toNat = 2 ^ 31 := rfl
      omega
  · intro ht
    rw [← ht]
    exact UInt32.lt_iff_toNat_lt.mpr hlate

def withQueue (e : Engine) (q : EventQueue) : Engine := e.mapHost fun h => { h with queue := q }

theorem dispatch_compare {e : Engine} {q : EventQueue}
    (hh : e.host.handlers.lookup .compare = some .compare)
    (hp : e.host.queue.popDue? e.cpu.cycle = some (.compare, q)) :
    dispatch e = .ok true (timerFired (e.withQueue q)) := by
  simp only [dispatch, bind, EStateM.bind, get, getThe, MonadStateOf.get, EStateM.get, hp, hh]
  rfl

theorem compareReg_setPending (c : Cpu) (bits : UInt32) (on : Bool) :
    compareReg (c.setPending bits on) = compareReg c := by
  unfold compareReg Cpu.setPending
  rw [Cpu.sysReg_setSysReg_of_ne (by decide)]

theorem timerFired_cpu (e : Engine) :
    (timerFired e).cpu = if e.isMatch then e.cpu.setPending CauseBit.timer true else e.cpu := by
  rw [timerFired_eq, (armCompare_eq _ _).1]
  split
  · rfl
  · rfl

theorem timerFired_queue (e : Engine) : (timerFired e).host.queue =
    (e.armCompare (compareReg e.cpu)).host.queue := by
  rw [timerFired_eq, (armCompare_eq _ _).2.1, (armCompare_eq _ _).2.1]
  split
  · rfl
  · rfl

theorem timerFired_handlers (e : Engine) : (timerFired e).host.handlers = e.host.handlers := by
  rw [timerFired_eq, (armCompare_eq _ _).2.2]
  split
  · rfl
  · rfl

def isAsserted (c : Cpu) : Bool := c.cause &&& CauseBit.timer != 0

theorem isAsserted_setPending (c : Cpu) (on : Bool) :
    isAsserted (c.setPending CauseBit.timer on) = on := by
  have hbit : (CauseBit.timer &&& CauseBit.pending).toUInt64.toUInt32 = CauseBit.timer := by
    decide
  unfold isAsserted Cpu.cause Cpu.setPending
  rw [Cpu.sysReg_setSysReg_self]
  cases on with
  | true =>
    have hset (a b : UInt32) : (a ||| b) &&& b = b := by
      rw [UInt32.and_comm]
      apply UInt32.eq_of_toBitVec_eq
      ext i hi
      simp only [UInt32.toBitVec_and, UInt32.toBitVec_or, BitVec.getElem_and, BitVec.getElem_or]
      cases b.toBitVec[i] <;> simp
    rw [if_pos rfl, UInt64.toUInt32_or, hbit, hset]
    decide
  | false =>
    have hclear (a b : UInt32) : a &&& ~~~b &&& b = 0 := by
      apply UInt32.eq_of_toBitVec_eq
      ext i hi
      simp only [UInt32.toBitVec_and, UInt32.toBitVec_not, BitVec.getElem_and, BitVec.getElem_not]
      cases b.toBitVec[i] <;> simp
    rw [if_neg (by decide), UInt64.toUInt32_and, UInt64.toUInt32_not, hbit, hclear]
    rfl

/-- Is the line asserted when the next event fires, if it is not asserted before? -/
def assertsTimer (e : Engine) : Bool :=
  match dispatch (e.mapCpu (·.setPending CauseBit.timer false)) with
  | .ok _ e' => isAsserted e'.cpu
  | .error .. => false

theorem assertsTimer_eq {e : Engine} {q : EventQueue}
    (hh : e.host.handlers.lookup .compare = some .compare)
    (hp : e.host.queue.popDue? e.cpu.cycle = some (.compare, q)) :
    e.assertsTimer = e.isMatch := by
  have hclear : dispatch (e.mapCpu (·.setPending CauseBit.timer false)) = _ :=
    dispatch_compare (q := q) hh hp
  have hmatch : ((e.mapCpu (·.setPending CauseBit.timer false)).withQueue q).isMatch = e.isMatch := by
    unfold isMatch withQueue mapHost mapCpu
    dsimp only
    rw [compareReg_setPending]
    rfl
  unfold assertsTimer
  rw [hclear]
  dsimp only
  rw [timerFired_cpu, hmatch]
  cases e.isMatch with
  | true => exact isAsserted_setPending _ true
  | false => exact isAsserted_setPending _ false

/-- The event of the timer fires in time, in an engine whose timer compares with `c`: the line is
asserted at the match only, and the timer is armed again. -/
theorem dispatch_timer {e : Engine} {q : EventQueue} {t c : UInt32}
    (hreached : Reached e.host.queue) (hh : e.host.handlers.lookup .compare = some .compare)
    (harmed : e.host.queue.ArmedAt t) (ht : t = c ∨ t = c + half) (hc : compareReg e.cpu = c)
    (hlate : (e.cpu.cycle - t).toNat < 2 ^ 30)
    (hp : e.host.queue.popDue? e.cpu.cycle = some (.compare, q)) :
    ∃ e', dispatch e = .ok true e' ∧ (e.assertsTimer = true ↔ t = c) ∧
      e'.cpu = (if t = c then e.cpu.setPending CauseBit.timer true else e.cpu) ∧
      Reached e'.host.queue ∧ e'.host.queue.ArmedAt (timerCycle e.cpu.cycle c) ∧
      e'.host.handlers = e.host.handlers := by
  have hmatch : e.isMatch = true ↔ t = c := by
    rw [← hc] at ht ⊢
    exact isMatch_iff ht hlate
  have hmatch' : (e.withQueue q).isMatch = e.isMatch := rfl
  have hq : Reached (e.withQueue q).host.queue := hreached.pop _ hp
  refine ⟨_, dispatch_compare hh hp, ?_, ?_, ?_, ?_, timerFired_handlers _⟩
  · rw [assertsTimer_eq hh hp]
    exact hmatch
  · rw [timerFired_cpu, hmatch']
    simp only [hmatch]
    rfl
  · rw [timerFired_queue]
    exact armCompare_reached hq _
  · rw [timerFired_queue, ← hc]
    exact armCompare_armedAt hq (harmed.pop hp).2 _

end Engine

/-- How often a counter that goes on by `n` cycles comes to `c`. -/
def passes (now c : UInt32) (n : Nat) : Nat := Nat.count (fun m => now + UInt32.ofNat (m + 1) = c) n

theorem passes_add (now c : UInt32) (n k : Nat) :
    passes now c (n + k) = passes now c n + passes (now + UInt32.ofNat n) c k := by
  unfold passes
  rw [Nat.count_add]
  congr 2
  funext m
  rw [Nat.add_assoc, UInt32.ofNat_add, add_assoc]

/-- Before the counter comes to `c` for the second time it has come there once it has gone the
whole way. -/
theorem passes_of_gap {now c : UInt32} {g k : Nat} (hg : now + UInt32.ofNat g = c) (hpos : 0 < g)
    (hle : g ≤ 2 ^ 32) (hk : k < g + 2 ^ 32) : passes now c k = if g ≤ k then 1 else 0 := by
  have hiff (m : Nat) (hm : m < k) : now + UInt32.ofNat (m + 1) = c ↔ m = g - 1 := by
    rw [← hg, add_right_inj, ← UInt32.toNat_inj, UInt32.toNat_ofNat', UInt32.toNat_ofNat']
    omega
  unfold passes
  rw [Nat.count_eq_card_filter_range, Finset.filter_congr fun m hm => hiff m (Finset.mem_range.mp hm),
    Finset.filter_eq']
  simp only [Finset.mem_range]
  split
  · rw [if_pos (by omega), Finset.card_singleton]
  · rw [if_neg (by omega), Finset.card_empty]

theorem add_of_distance (now t : UInt32) {d : Nat} (m : Nat) (h : (d : Int) = distance now t + m) :
    now + UInt32.ofNat d = t + UInt32.ofNat m := by
  have hto : now + UInt32.ofNat (t - now).toNat = t := by
    rw [UInt32.ofNat_toNat]
    exact add_sub_cancel now t
  have hlt := (t - now).toNat_lt
  have hd : UInt32.ofNat d = UInt32.ofNat ((t - now).toNat + m) := by
    rw [← UInt32.toNat_inj, UInt32.toNat_ofNat', UInt32.toNat_ofNat']
    unfold distance at h
    split at h
    · omega
    · omega
  rw [hd, UInt32.ofNat_add, ← add_assoc, hto]

/-- The cycles up to the next pass of the counter, where the timer is armed at the match or half
of the range away from it. -/
theorem exists_gap {now t c : UInt32} (ht : t = c ∨ t = c + half)
    (hsight : -2 ^ 30 < distance now t) :
    ∃ g : Nat, now + UInt32.ofNat g = c ∧ 0 < g ∧ g ≤ 2 ^ 32 ∧
      ((t = c ∧ (g : Int) = if distance now t ≤ 0 then distance now t + 2 ^ 32 else distance now t)
        ∨ t ≠ c ∧ (g : Int) = distance now t + 2 ^ 31) := by
  have hle := distance_le now t
  have hwrap : UInt32.ofNat (2 ^ 32) = 0 := by decide
  have hhalf : half + UInt32.ofNat (2 ^ 31) = 0 := by decide
  have hne : c + half ≠ c := by
    intro h
    rw [add_eq_left] at h
    exact absurd h (by decide)
  obtain rfl | rfl := ht
  · by_cases hd : distance now t ≤ 0
    · obtain ⟨g, hg⟩ := Int.eq_ofNat_of_zero_le (show 0 ≤ distance now t + 2 ^ 32 by omega)
      refine ⟨g, ?_, by omega, by omega, .inl ⟨rfl, by rw [if_pos hd, hg]⟩⟩
      rw [add_of_distance now t (2 ^ 32) (by rw [← hg]; norm_num), hwrap,
        add_zero]
    · obtain ⟨g, hg⟩ := Int.eq_ofNat_of_zero_le (show 0 ≤ distance now t by omega)
      refine ⟨g, ?_, by omega, by omega, .inl ⟨rfl, by rw [if_neg hd, hg]⟩⟩
      rw [add_of_distance now t 0 (by rw [← hg]; norm_num)]
      exact add_zero t
  · obtain ⟨g, hg⟩ := Int.eq_ofNat_of_zero_le (show 0 ≤ distance now (c + half) + 2 ^ 31 by omega)
    refine ⟨g, ?_, by omega, by omega, .inr ⟨hne, hg.symm⟩⟩
    rw [add_of_distance now (c + half) (2 ^ 31) (by rw [← hg]; norm_num),
      add_assoc, hhalf, add_zero]

namespace Engine

/-- What happens to an engine whose events fire in time: how many cycles have gone by, and how
often the timer has asserted its line. -/
inductive TimerRun (start : Engine) : Engine → Nat → Nat → Prop
  | start : TimerRun start start 0 0
  /-- The counter goes on, and the timer does not become overdue by a quarter of its range. -/
  | tick {e : Engine} {n r : Nat} (h : TimerRun start e n r) (k : Nat)
      (hk : ∀ t, e.host.queue.ArmedAt t → k < distance e.cpu.cycle t + 2 ^ 30) :
      TimerRun start
        (e.mapCpu fun c => { c with cycle := c.cycle + UInt32.ofNat k }) (n + k) r
  /-- The machine does something that does not concern the timer. -/
  | other {e e' : Engine} {n r : Nat} (h : TimerRun start e n r)
      (hreached : Reached e'.host.queue) (hcycle : e'.cpu.cycle = e.cpu.cycle)
      (hcompare : compareReg e'.cpu = compareReg e.cpu)
      (hhandler : e'.host.handlers.lookup .compare = e.host.handlers.lookup .compare)
      (harmed : ∀ t, e.host.queue.ArmedAt t → e'.host.queue.ArmedAt t) : TimerRun start e' n r
  | fire {e e' : Engine} {q : EventQueue} {n r : Nat} (h : TimerRun start e n r)
      (hp : e.host.queue.popDue? e.cpu.cycle = some (.compare, q))
      (hd : dispatch e = .ok true e') :
      TimerRun start e' n (r + if e.assertsTimer then 1 else 0)

/-- Where a run stands: the timer is armed at the match `c` or half of the range away from it, and
its line has been asserted for each pass but one whose event is still to fire. -/
structure TimerInvariant (now c : UInt32) (e : Engine) (n r : Nat) : Prop where
  reached : Reached e.host.queue
  handler : e.host.handlers.lookup .compare = some .compare
  compare : compareReg e.cpu = c
  cycle : e.cpu.cycle = now + UInt32.ofNat n
  armed : ∃ t, e.host.queue.ArmedAt t ∧ (t = c ∨ t = c + half) ∧ -2 ^ 30 < distance e.cpu.cycle t ∧
    passes now c n = r + if t = c ∧ distance e.cpu.cycle t ≤ 0 then 1 else 0

theorem timerCycle_distance (now c : UInt32) : 0 ≤ distance now (timerCycle now c) ∧
    ¬(timerCycle now c = c ∧ distance now (timerCycle now c) ≤ 0) := by
  have hlt := (c - now).toNat_lt
  have hne : c + half ≠ c := by
    intro h
    rw [add_eq_left] at h
    exact absurd h (by decide)
  obtain ⟨ht, hpos, hless⟩ | ⟨ht, hfar⟩ := timerCycle_cases now c
  · rw [ht]
    unfold distance
    split
    · omega
    · omega
  · rw [ht]
    refine ⟨?_, fun h => hne h.1⟩
    unfold distance
    rw [toNat_add_half_sub]
    split
    · omega
    · omega

namespace TimerInvariant

variable {now c : UInt32} {e e' : Engine} {q : EventQueue} {n r : Nat}

theorem start (hreached : Reached e.host.queue) (hroom : e.host.queue.HasRoom)
    (hh : e.host.handlers.lookup .compare = some .compare) (hc : compareReg e.cpu = c) :
    TimerInvariant e.cpu.cycle c (e.armCompare c) 0 0 := by
  obtain ⟨hahead, hflag⟩ := timerCycle_distance e.cpu.cycle c
  refine ⟨armCompare_reached hreached c, hh, hc, (add_zero _).symm, ?_⟩
  refine ⟨_, armCompare_armedAt hreached hroom c, timerCycle_eq_or _ _, ?_, ?_⟩
  · exact lt_of_lt_of_le (by decide) hahead
  · rw [(armCompare_eq e c).1, if_neg hflag]
    rfl

theorem tick (h : TimerInvariant now c e n r) {k : Nat}
    (hk : ∀ t, e.host.queue.ArmedAt t → k < distance e.cpu.cycle t + 2 ^ 30) :
    TimerInvariant now c (e.mapCpu fun c => { c with cycle := c.cycle + UInt32.ofNat k })
      (n + k) r := by
  obtain ⟨t, harmed, ht, hsight, hcount⟩ := h.armed
  have hkt := hk t harmed
  have hdist : distance (e.cpu.cycle + UInt32.ofNat k) t = distance e.cpu.cycle t - k :=
    distance_add (by omega)
  refine ⟨h.reached, h.handler, h.compare, ?_, t, harmed, ht, ?_, ?_⟩
  · change e.cpu.cycle + UInt32.ofNat k = _
    rw [h.cycle, UInt32.ofNat_add, add_assoc]
  · change -2 ^ 30 < distance (e.cpu.cycle + UInt32.ofNat k) t
    omega
  · change _ = r + if t = c ∧ distance (e.cpu.cycle + UInt32.ofNat k) t ≤ 0 then 1 else 0
    obtain ⟨g, hg, hpos, hle, hgap⟩ := exists_gap ht hsight
    rw [passes_add, ← h.cycle, hcount, hdist,
      passes_of_gap hg hpos hle (by split at hgap <;> omega)]
    obtain ⟨rfl, hgap⟩ | ⟨hne, hgap⟩ := hgap
    · simp only [true_and]
      split at hgap
      · rw [if_pos ‹_›, if_neg (by omega), if_pos (by omega)]
      · rw [if_neg ‹_›]
        split
        · rw [if_pos (by omega)]
        · rw [if_neg (by omega)]
    · simp only [hne, false_and, if_false]
      rw [if_neg (by omega)]

theorem other (h : TimerInvariant now c e n r) (hreached : Reached e'.host.queue)
    (hcycle : e'.cpu.cycle = e.cpu.cycle) (hcompare : compareReg e'.cpu = compareReg e.cpu)
    (hhandler : e'.host.handlers.lookup .compare = e.host.handlers.lookup .compare)
    (harmed : ∀ t, e.host.queue.ArmedAt t → e'.host.queue.ArmedAt t) :
    TimerInvariant now c e' n r := by
  obtain ⟨t, ha, ht, hsight, hcount⟩ := h.armed
  refine ⟨hreached, hhandler.trans h.handler, hcompare.trans h.compare, hcycle.trans h.cycle,
    t, harmed t ha, ht, ?_, ?_⟩
  · rwa [hcycle]
  · rwa [hcycle]

theorem fire (h : TimerInvariant now c e n r)
    (hp : e.host.queue.popDue? e.cpu.cycle = some (.compare, q))
    (hd : dispatch e = .ok true e') :
    TimerInvariant now c e' n (r + if e.assertsTimer then 1 else 0) := by
  obtain ⟨t, harmed, ht, hsight, hcount⟩ := h.armed
  have hdue : distance e.cpu.cycle t ≤ 0 := (isDue_iff _ _).mp (harmed.pop hp).1
  have hlate : (e.cpu.cycle - t).toNat < 2 ^ 30 := by
    rw [toNat_sub_swap]
    unfold distance at hsight hdue
    split at hsight
    · omega
    · omega
  obtain ⟨e'', hd', hassert, hcpu, hreached, harmed', hhandlers⟩ :=
    dispatch_timer h.reached h.handler harmed ht h.compare hlate hp
  rw [hd'] at hd
  cases hd
  have hcycle : e'.cpu.cycle = e.cpu.cycle := by
    rw [hcpu]
    split
    · rfl
    · rfl
  have hcompare : compareReg e'.cpu = compareReg e.cpu := by
    rw [hcpu]
    split
    · exact compareReg_setPending ..
    · rfl
  obtain ⟨hahead, hflag⟩ := timerCycle_distance e.cpu.cycle c
  refine ⟨hreached, ?_, hcompare.trans h.compare, hcycle.trans h.cycle, _, harmed',
    timerCycle_eq_or _ _, ?_, ?_⟩
  · rw [hhandlers, h.handler]
  · rw [hcycle]
    exact lt_of_lt_of_le (by decide) hahead
  · rw [hcycle, if_neg hflag, hcount, add_zero]
    simp only [hdue, and_true, hassert]

end TimerInvariant

theorem TimerRun.invariant {e₀ e : Engine} {c : UInt32} {n r : Nat}
    (hreached : Reached e₀.host.queue) (hroom : e₀.host.queue.HasRoom)
    (hh : e₀.host.handlers.lookup .compare = some .compare) (hc : compareReg e₀.cpu = c)
    (h : TimerRun (e₀.armCompare c) e n r) : TimerInvariant e₀.cpu.cycle c e n r := by
  induction h with
  | start => exact .start hreached hroom hh hc
  | tick _ k hk ih => exact ih.tick hk
  | other _ hreached hcycle hcompare hhandler harmed ih =>
    exact ih.other hreached hcycle hcompare hhandler harmed
  | fire _ hp hd ih => exact ih.fire hp hd

/-- What arming the timer for `c` comes to, in every state of the queue in which there is room for
its event. One event is pending, at the match or half of the range away from it; it lies ahead of
the counter by at most half of the range, but it is due at once if the match is exactly that far
away. When it fires in time the line is asserted at the match only, and the timer is armed again.
Along every run in which it does, the line has been asserted for each pass of the counter over `c`
but one whose event is due and still to fire. -/
theorem armCompare_timing (e : Engine) (c : UInt32) (hreached : Reached e.host.queue)
    (hroom : e.host.queue.HasRoom) :
    ∃ t, (e.armCompare c).host.queue.ArmedAt t ∧ (t = c ∨ t = c + half) ∧
      (c - e.cpu.cycle ≠ half → 0 < (t - e.cpu.cycle).toNat ∧ (t - e.cpu.cycle).toNat ≤ 2 ^ 31) ∧
      (c - e.cpu.cycle = half → t = e.cpu.cycle) ∧
      (∀ (d : Engine) (q : EventQueue), Reached d.host.queue →
        d.host.handlers.lookup .compare = some .compare → d.host.queue.ArmedAt t →
        compareReg d.cpu = c → (d.cpu.cycle - t).toNat < 2 ^ 30 →
        d.host.queue.popDue? d.cpu.cycle = some (.compare, q) →
        ∃ d', dispatch d = .ok true d' ∧ (d.assertsTimer = true ↔ t = c) ∧
          d'.cpu = (if t = c then d.cpu.setPending CauseBit.timer true else d.cpu) ∧
          Reached d'.host.queue ∧ d'.host.queue.ArmedAt (timerCycle d.cpu.cycle c) ∧
          d'.host.handlers = d.host.handlers) ∧
      (e.host.handlers.lookup .compare = some .compare → compareReg e.cpu = c →
        ∀ (d : Engine) (n r : Nat), TimerRun (e.armCompare c) d n r →
        ∃ u, d.host.queue.ArmedAt u ∧ passes e.cpu.cycle c n =
          r + if u = c ∧ isDue d.cpu.cycle u = true then 1 else 0) := by
  refine ⟨timerCycle e.cpu.cycle c, armCompare_armedAt hreached hroom c, timerCycle_eq_or _ _,
    timerCycle_ahead, timerCycle_half, ?_, ?_⟩
  · intro d q hr hh harmed hc hlate hp
    exact dispatch_timer hr hh harmed (timerCycle_eq_or _ _) hc hlate hp
  · intro hh hc d n r hrun
    obtain ⟨u, harmed, -, -, hcount⟩ := (hrun.invariant hreached hroom hh hc).armed
    refine ⟨u, harmed, ?_⟩
    rw [hcount]
    simp only [isDue_iff]

/-- The counter of a new engine is half of the range away from `0x80000000`. The timer armed for
it is due at once. -/
theorem armCompare_timing_half : ∃ e, Engine.create ⟨#[], #[], []⟩
      { Settings.default with backend := .emulator } = .ok e ∧
    Reached e.host.queue ∧ e.host.queue.HasRoom ∧
    (e.armCompare 0x80000000).host.queue.ArmedAt e.cpu.cycle := by
  refine ⟨_, rfl, ?_⟩
  generalize he : Engine.attach _ = e
  have hreached : Reached e.host.queue := by
    rw [← he]
    exact armCompare_reached (.create _) _
  have hroom : e.host.queue.HasRoom := by
    rw [← he]
    exact .inr (by decide)
  have hcycle : e.cpu.cycle = 0 := by
    rw [← he]
    rfl
  obtain ⟨t, harmed, -, -, hhalf, -⟩ := armCompare_timing e 0x80000000 hreached hroom
  rw [← hhalf (by rw [hcycle]; decide)]
  exact ⟨hreached, hroom, harmed⟩

end Engine

end Recompiler
