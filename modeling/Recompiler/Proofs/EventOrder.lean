import Mathlib
import Recompiler.EventQueue.Script

/-!
The order of pending events. Cycles lie on a circle, so an event is placed by its signed distance
from now. Along every run in which events are scheduled at most half the circle ahead and fire
before they are far overdue, the queue stays sorted by distance, with events of one cycle in the
order in which they were scheduled, and what fires is the earliest event.
-/

namespace Recompiler

namespace EventQueue

/-- How far a cycle lies ahead of now, or behind it if negative. -/
def distance (now cycle : UInt32) : Int :=
  if (cycle - now).toNat ≤ 2 ^ 31 then (cycle - now).toNat else (cycle - now).toNat - 2 ^ 32

theorem distance_le (now cycle : UInt32) : distance now cycle ≤ 2 ^ 31 := by
  have := (cycle - now).toNat_lt
  unfold distance
  split <;> omega

theorem distance_of_le_half {now cycle : UInt32} (h : cycle - now ≤ half) :
    distance now cycle = (cycle - now).toNat := by
  have hn : (cycle - now).toNat ≤ 2 ^ 31 := h
  exact if_pos hn

theorem distance_add {now cycle : UInt32} {n : Nat} (h : n < distance now cycle + 2 ^ 31) :
    distance (now + UInt32.ofNat n) cycle = distance now cycle - n := by
  have hle := distance_le now cycle
  have hd := (cycle - now).toNat_lt
  have hnat : (cycle - (now + UInt32.ofNat n)).toNat =
      (2 ^ 32 - n + (cycle - now).toNat) % 2 ^ 32 := by
    rw [sub_add_eq_sub_sub, UInt32.toNat_sub, UInt32.toNat_ofNat',
      Nat.mod_eq_of_lt (show n < 2 ^ 32 by omega)]
  unfold distance at h hle ⊢
  rw [hnat]
  generalize (cycle - now).toNat = d at *
  by_cases hdn : d < n
  · rw [Nat.mod_eq_of_lt (by omega)]
    split at h <;> split <;> omega
  · rw [show 2 ^ 32 - n + d = (d - n) + 2 ^ 32 by omega, Nat.add_mod_right,
      Nat.mod_eq_of_lt (by omega)]
    split at h <;> split <;> omega

theorem distance_jump (now cycle d : UInt32) :
    distance (now + d) (cycle + d) = distance now cycle := by
  unfold distance
  rw [add_sub_add_right_eq_sub]

theorem toNat_sub_swap (a b : UInt32) : (a - b).toNat = (2 ^ 32 - (b - a).toNat) % 2 ^ 32 := by
  rw [← neg_sub b a, UInt32.toNat_neg]
  rfl

theorem isDue_iff (now cycle : UInt32) :
    isDue now cycle = true ↔ distance now cycle ≤ 0 := by
  have hd := (cycle - now).toNat_lt
  have hlt : isDue now cycle = true ↔ (now - cycle).toNat < 2 ^ 31 := by
    unfold isDue
    rw [decide_eq_true_iff]
    exact UInt32.lt_iff_toNat_lt
  rw [hlt, toNat_sub_swap]
  unfold distance
  generalize (cycle - now).toNat = d at *
  by_cases h0 : d = 0
  · subst h0
    simp
  · rw [Nat.mod_eq_of_lt (by omega)]
    split <;> omega

/-- Among events in sight, one that is scheduled now goes ahead of those that lie farther. -/
theorem before_iff (done : Bool) {now a : UInt32} {b : Pending} (ha : a - now ≤ half)
    (hb : -2 ^ 28 < distance now b.cycle) (hs : b.event ≠ .special) :
    before done now a b = true ↔ distance now a < distance now b.cycle := by
  have hd := (b.cycle - now).toNat_lt
  have hnear : near ≤ now - b.cycle ↔ 2 ^ 28 ≤ (2 ^ 32 - (b.cycle - now).toNat) % 2 ^ 32 := by
    rw [← toNat_sub_swap]
    exact UInt32.le_iff_toNat_le
  have hhalf (x : UInt32) : half ≤ x ↔ 2 ^ 31 ≤ x.toNat := UInt32.le_iff_toNat_le
  have hahead : b.cycle - now < half ↔ (b.cycle - now).toNat < 2 ^ 31 := UInt32.lt_iff_toNat_lt
  have hless : a - now < b.cycle - now ↔ (a - now).toNat < (b.cycle - now).toNat :=
    UInt32.lt_iff_toNat_lt
  have hle : (a - now).toNat ≤ 2 ^ 31 := ha
  rw [distance_of_le_half ha]
  simp only [before, hs, decide_false, Bool.false_and, Bool.false_eq_true, if_false, hhalf, hahead,
    hnear, hless]
  unfold distance at hb ⊢
  generalize (b.cycle - now).toNat = d at *
  generalize (a - now).toNat = n at *
  by_cases h0 : d = 0
  · subst h0
    split <;> simp
  · rw [Nat.mod_eq_of_lt (show 2 ^ 32 - d < 2 ^ 32 by omega)]
    split at hb <;> split <;> (try split) <;> (try split) <;> simp <;> omega

def InSight (now : UInt32) (ps : List Pending) : Prop :=
  ∀ p ∈ ps, p.event ≠ .special ∧ -2 ^ 28 < distance now p.cycle

def Sorted (now : UInt32) (ps : List Pending) : Prop :=
  ps.Pairwise fun p q => distance now p.cycle ≤ distance now q.cycle

section Insertion

variable {done : Bool} {now : UInt32} {p : Pending} {ps : List Pending}

theorem insert_eq (hp : p.event ≠ .special) :
    insert done now p ps = insertBehind done now p ps := by
  unfold insert
  simp [hp]

theorem perm_insertBehind : (insertBehind done now p ps).Perm (p :: ps) := by
  induction ps with
  | nil => exact .refl _
  | cons b ps ih =>
    unfold insertBehind
    split
    · exact .refl _
    · exact (ih.cons b).trans (.swap p b ps)

theorem Sorted.insertion (hs : Sorted now ps) (hv : InSight now ps) (hp : p.cycle - now ≤ half) :
    Sorted now (insertBehind done now p ps) := by
  induction ps with
  | nil => exact List.pairwise_singleton _ _
  | cons b ps ih =>
    obtain ⟨hb, hps⟩ := List.pairwise_cons.mp hs
    obtain ⟨hspecial, hsight⟩ := hv b List.mem_cons_self
    have hbefore := before_iff done hp hsight hspecial
    unfold insertBehind
    split
    · rename_i h
      have hlt := hbefore.mp h
      refine List.pairwise_cons.mpr ⟨fun q hq => ?_, hs⟩
      rcases List.mem_cons.mp hq with rfl | hq
      · exact le_of_lt hlt
      · exact le_of_lt (lt_of_lt_of_le hlt (hb q hq))
    · rename_i h
      have hle := not_lt.mp fun hlt => h (hbefore.mpr hlt)
      refine List.pairwise_cons.mpr ⟨fun q hq => ?_, ih hps fun q hq => hv q (.tail _ hq)⟩
      rcases List.mem_cons.mp (perm_insertBehind.mem_iff.mp hq) with rfl | hq
      · exact hle
      · exact hb q hq

/-- Events of one cycle keep their order, and a new one comes last among them. -/
theorem Sorted.filter_insertBehind (hs : Sorted now ps) (hv : InSight now ps)
    (hp : p.cycle - now ≤ half) (cycle : UInt32) :
    (insertBehind done now p ps).filter (·.cycle = cycle) =
      ps.filter (·.cycle = cycle) ++ [p].filter (·.cycle = cycle) := by
  induction ps with
  | nil => rfl
  | cons b ps ih =>
    obtain ⟨hb, hps⟩ := List.pairwise_cons.mp hs
    obtain ⟨hspecial, hsight⟩ := hv b List.mem_cons_self
    unfold insertBehind
    split
    · rename_i h
      have hlt := (before_iff done hp hsight hspecial).mp h
      -- All events behind it lie farther, so none of them has its cycle.
      by_cases hc : p.cycle = cycle
      · have hnone : (b :: ps).filter (·.cycle = cycle) = [] := by
          refine List.filter_eq_nil_iff.mpr fun q hq heq => ?_
          have hqc : q.cycle = p.cycle := (of_decide_eq_true heq).trans hc.symm
          rcases List.mem_cons.mp hq with rfl | hq
          · exact absurd hlt (by rw [hqc]; exact lt_irrefl _)
          · exact absurd (lt_of_lt_of_le hlt (hb q hq)) (by rw [hqc]; exact lt_irrefl _)
        rw [List.filter_cons_of_pos (by simp [hc]), hnone]
        simp [hc]
      · simp [List.filter_cons, hc]
    · rw [List.filter_cons, List.filter_cons, ih hps fun q hq => hv q (.tail _ hq)]
      split <;> rfl

end Insertion

end EventQueue

open EventQueue

/-- What a caller knows of the events that are pending: kinds and cycles, in the order in which
they were scheduled. -/
abbrev Agenda := List (Event × UInt32)

namespace Agenda

def without (a : Agenda) (e : Event) : Agenda := a.filter (·.1 ≠ e)

/-- The agenda after a command in the state `s`. -/
def after (a : Agenda) (s : QueueState) (c : QueueCommand) : Agenda :=
  match c with
  | .schedule e cycle => if (s.run c).1 = .flag true then a ++ [(e, cycle)] else a
  | .scheduleAfter e delay => if (s.run c).1 = .flag true then a ++ [(e, s.now + delay)] else a
  | .cancel e => a.without e
  | .clear => []
  | _ => a

def moved (a : Agenda) (d : UInt32) : Agenda := a.map fun x => (x.1, x.2 + d)

/-- No event of the agenda comes earlier, or was scheduled before it for the same cycle. -/
def IsEarliest (a : Agenda) (now : UInt32) (x : Event × UInt32) : Prop :=
  (∀ y ∈ a, distance now x.2 ≤ distance now y.2) ∧ a.find? (·.2 = x.2) = some x

end Agenda

namespace QueueState

/-- Commands that keep to ordinary events, at most half the circle ahead. The events are never
moved alone. -/
def Allowed (now : UInt32) : QueueCommand → Prop
  | .schedule e cycle => e ≠ .special ∧ cycle - now ≤ half
  | .scheduleAfter e delay => e ≠ .special ∧ delay ≤ half
  | .shift _ => False
  | _ => True

instance (now : UInt32) (c : QueueCommand) : Decidable (Allowed now c) :=
  match c with
  | .schedule .. | .scheduleAfter .. => inferInstanceAs (Decidable (_ ∧ _))
  | .shift _ => inferInstanceAs (Decidable False)
  | .cancel _ | .pending _ | .next | .size | .clear | .setSpecialDone _ =>
    inferInstanceAs (Decidable True)

/-- The states that a queue and its clock come to, each with the agenda. When an event fires, the
commands of its handler are the next ones. -/
inductive Reachable : QueueState → Agenda → Prop
  | start (capacity : Int) (now : UInt32) : Reachable ⟨.create capacity, now, #[]⟩ []
  | command {s : QueueState} {a : Agenda} (h : Reachable s a) (c : QueueCommand)
      (hc : Allowed s.now c) : Reachable (s.run c).2 (a.after s c)
  /-- Time passes, and no event becomes overdue by `2 ^ 28` cycles. -/
  | advance {s : QueueState} {a : Agenda} (h : Reachable s a) (n : Nat)
      (hn : ∀ x ∈ a, n < distance s.now x.2 + 2 ^ 28) :
      Reachable { s with now := s.now + UInt32.ofNat n } a
  /-- The clock jumps, and all events with it. -/
  | jump {s : QueueState} {a : Agenda} (h : Reachable s a) (d : UInt32) :
      Reachable { (s.run (.shift d)).2 with now := s.now + d } (a.moved d)
  | fire {s : QueueState} {a : Agenda} (h : Reachable s a) {e : Event} {queue : EventQueue}
      (he : s.queue.popDue? s.now = some (e, queue)) (log : Array LogRecord) :
      Reachable { s with queue, log } (a.without e)

end QueueState

namespace EventQueue

theorem schedule_cases (q : EventQueue) (now : UInt32) (e : Event) (cycle : UInt32) :
    ((q.schedule now e cycle).1.isAdded = false ∧ (q.schedule now e cycle).2.pending = q.pending) ∨
    ((q.schedule now e cycle).1.isAdded = true ∧ (∀ p ∈ q.pending, p.event ≠ e) ∧
      ∃ slot, (q.schedule now e cycle).2.pending =
        insert q.specialDone now ⟨slot, e, cycle⟩ q.pending) := by
  unfold schedule
  split
  · exact .inl ⟨rfl, rfl⟩
  · rename_i hnone
    cases hfree : q.free with
    | nil => exact .inl ⟨rfl, rfl⟩
    | cons slot free =>
      refine .inr ⟨rfl, fun p hp he => hnone ?_, slot, rfl⟩
      rw [pendingAt?, Option.isSome_map, List.find?_isSome]
      exact ⟨p, hp, by simp [he]⟩

theorem eraseP_eq_filter {ps : List Pending} (h : (ps.map (·.event)).Nodup) (e : Event) :
    ps.eraseP (·.event == e) = ps.filter (·.event ≠ e) := by
  induction ps with
  | nil => rfl
  | cons p ps ih =>
    obtain ⟨hp, hps⟩ := List.nodup_cons.mp h
    by_cases he : p.event = e
    · have hkeep : ps.filter (·.event ≠ e) = ps := by
        refine List.filter_eq_self.mpr fun q hq => decide_eq_true fun hqe => hp ?_
        exact List.mem_map.mpr ⟨q, hq, hqe.trans he.symm⟩
      rw [List.eraseP_cons_of_pos (by simp [he]), List.filter_cons_of_neg (by simp [he]), hkeep]
    · rw [List.eraseP_cons_of_neg (by simp [he]), List.filter_cons_of_pos (by simp [he]), ih hps]

end EventQueue

def Pending.entry (p : Pending) : Event × UInt32 := (p.event, p.cycle)

namespace QueueState

/-- The queue is in order at this moment, and agrees with the agenda. -/
structure Ordered (s : QueueState) (a : Agenda) : Prop where
  sight : InSight s.now s.queue.pending
  sorted : Sorted s.now s.queue.pending
  distinct : (s.queue.pending.map (·.event)).Nodup
  stable : ∀ cycle, (s.queue.pending.filter (·.cycle = cycle)).map Pending.entry =
    a.filter (·.2 = cycle)

namespace Ordered

variable {s t : QueueState} {a : Agenda}

theorem mem_agenda (h : Ordered s a) {x : Event × UInt32} :
    x ∈ a ↔ ∃ p ∈ s.queue.pending, p.entry = x := by
  have hx : x ∈ a ↔ x ∈ a.filter (·.2 = x.2) := by simp
  rw [hx, ← h.stable, List.mem_map]
  refine exists_congr fun p => ?_
  rw [List.mem_filter, decide_eq_true_iff]
  constructor
  · rintro ⟨⟨hp, -⟩, hx⟩
    exact ⟨hp, hx⟩
  · rintro ⟨hp, rfl⟩
    exact ⟨⟨hp, rfl⟩, rfl⟩

theorem of_pending (h : Ordered s a) (hq : t.queue.pending = s.queue.pending) (hn : t.now = s.now) :
    Ordered t a := by
  obtain ⟨h₁, h₂, h₃, h₄⟩ := h
  exact ⟨by rwa [hq, hn], by rwa [hq, hn], by rwa [hq], by rwa [hq]⟩

theorem start (capacity : Int) (now : UInt32) : Ordered ⟨.create capacity, now, #[]⟩ [] where
  sight _ hp := absurd hp List.not_mem_nil
  sorted := List.Pairwise.nil
  distinct := List.nodup_nil
  stable _ := rfl

theorem schedule (h : Ordered s a) {e : Event} {cycle : UInt32} (he : e ≠ .special)
    (hc : cycle - s.now ≤ half) :
    Ordered (s.schedule e cycle).2
      (if (s.schedule e cycle).1 = .flag true then a ++ [(e, cycle)] else a) := by
  rcases schedule_cases s.queue s.now e cycle with ⟨hadd, hp⟩ | ⟨hadd, hnew, slot, hp⟩
  · have hreply : (s.schedule e cycle).1 ≠ .flag true := by
      simp [QueueState.schedule, hadd]
    rw [if_neg hreply]
    exact h.of_pending hp rfl
  · have hreply : (s.schedule e cycle).1 = .flag true := by
      simp [QueueState.schedule, hadd]
    rw [if_pos hreply]
    rw [insert_eq he] at hp
    have hperm : (insertBehind s.queue.specialDone s.now ⟨slot, e, cycle⟩ s.queue.pending).Perm
        (⟨slot, e, cycle⟩ :: s.queue.pending) := perm_insertBehind
    rw [← hp] at hperm
    refine ⟨fun p hm => ?_, ?_, ?_, fun c => ?_⟩
    · rcases List.mem_cons.mp (hperm.mem_iff.mp hm) with rfl | hm
      · refine ⟨he, ?_⟩
        change -2 ^ 28 < distance s.now cycle
        rw [distance_of_le_half hc]
        omega
      · exact h.sight p hm
    · exact hp ▸ h.sorted.insertion h.sight hc
    · refine (hperm.map _).nodup_iff.mpr (List.nodup_cons.mpr ⟨fun hm => ?_, h.distinct⟩)
      obtain ⟨p, hm, hpe⟩ := List.mem_map.mp hm
      exact hnew p hm hpe
    · change (List.filter _ (s.queue.schedule s.now e cycle).2.pending).map _ = _
      rw [hp, h.sorted.filter_insertBehind h.sight (p := ⟨slot, e, cycle⟩) hc, List.map_append,
        h.stable, List.filter_append]
      congr 1
      simp only [List.filter_cons, List.filter_nil]
      split <;> rfl

theorem remove (h : Ordered s a) (e : Event)
    (hq : t.queue.pending = s.queue.pending.filter (·.event ≠ e)) (hn : t.now = s.now) :
    Ordered t (a.without e) := by
  have hsub : t.queue.pending.Sublist s.queue.pending := hq ▸ List.filter_sublist
  refine ⟨fun p hp => hn ▸ h.sight p (hsub.mem hp), ?_, h.distinct.sublist (hsub.map _),
    fun c => ?_⟩
  · unfold Sorted
    rw [hn]
    exact h.sorted.sublist hsub
  · calc (t.queue.pending.filter (·.cycle = c)).map Pending.entry
        = ((s.queue.pending.filter (·.cycle = c)).filter (·.event ≠ e)).map Pending.entry := by
          rw [hq, List.filter_filter, List.filter_filter]
          simp only [Bool.and_comm]
      _ = ((s.queue.pending.filter (·.cycle = c)).map Pending.entry).filter (·.1 ≠ e) := by
          rw [List.filter_map]
          rfl
      _ = (a.without e).filter (·.2 = c) := by
          rw [h.stable, Agenda.without, List.filter_filter, List.filter_filter]
          simp only [Bool.and_comm]

theorem cancel (h : Ordered s a) (e : Event) :
    Ordered (s.run (.cancel e)).2 (a.without e) := by
  refine h.remove e ?_ rfl
  rw [← eraseP_eq_filter h.distinct]
  change (s.queue.cancel e).2.pending = _
  unfold EventQueue.cancel
  cases hf : s.queue.pending.find? (·.event == e) with
  | some p => rfl
  | none =>
    rw [List.find?_eq_none] at hf
    exact (List.eraseP_of_forall_not hf).symm

theorem command (h : Ordered s a) {c : QueueCommand} (hc : Allowed s.now c) :
    Ordered (s.run c).2 (a.after s c) := by
  cases c with
  | schedule e cycle => exact h.schedule hc.1 hc.2
  | scheduleAfter e delay =>
    refine h.schedule hc.1 ?_
    rw [add_sub_cancel_left]
    exact hc.2
  | cancel e => exact h.cancel e
  | clear => exact ⟨fun _ hp => absurd hp List.not_mem_nil, .nil, .nil, fun _ => rfl⟩
  | shift d => exact hc.elim
  | pending | next | size | setSpecialDone => exact h.of_pending rfl rfl

theorem advance (h : Ordered s a) {n : Nat} (hn : ∀ x ∈ a, n < distance s.now x.2 + 2 ^ 28) :
    Ordered { s with now := s.now + UInt32.ofNat n } a := by
  have hd (p : Pending) (hp : p ∈ s.queue.pending) : n < distance s.now p.cycle + 2 ^ 28 :=
    hn p.entry (h.mem_agenda.mpr ⟨p, hp, rfl⟩)
  refine ⟨fun p hp => ⟨(h.sight p hp).1, ?_⟩, ?_, h.distinct, h.stable⟩
  · have := hd p hp
    rw [distance_add (by omega)]
    omega
  · refine h.sorted.imp_of_mem fun {p q} hp hq hle => ?_
    have hp' := hd p hp
    have hq' := hd q hq
    rw [distance_add (by omega), distance_add (by omega)]
    omega

theorem jump (h : Ordered s a) (d : UInt32) :
    Ordered { (s.run (.shift d)).2 with now := s.now + d } (a.moved d) := by
  let f : Pending → Pending := fun p => { p with cycle := p.cycle + d }
  have hf (p : Pending) : distance (s.now + d) (f p).cycle = distance s.now p.cycle :=
    distance_jump s.now p.cycle d
  refine ⟨fun p hp => ?_, ?_, ?_, fun c => ?_⟩
  · obtain ⟨p₀, hp₀, rfl⟩ := List.mem_map.mp hp
    exact ⟨(h.sight p₀ hp₀).1, lt_of_lt_of_eq (h.sight p₀ hp₀).2 (hf p₀).symm⟩
  · refine List.pairwise_map.mpr (h.sorted.imp fun {p q} hle => ?_)
    exact le_of_eq_of_le (hf p) (le_of_le_of_eq hle (hf q).symm)
  · change ((s.queue.pending.map f).map (·.event)).Nodup
    rw [List.map_map]
    exact h.distinct
  · -- An event is at `c` after the jump if it was at `c - d` before.
    have hshift (x : UInt32) : (x + d = c) = (x = c - d) := by
      rw [eq_sub_iff_add_eq]
    calc ((s.queue.pending.map f).filter (·.cycle = c)).map Pending.entry
        = ((s.queue.pending.filter (·.cycle = c - d)).map Pending.entry).map
            fun x => (x.1, x.2 + d) := by
          rw [List.filter_map, List.map_map, List.map_map]
          simp only [f, Function.comp_def, hshift]
          rfl
      _ = (a.moved d).filter (·.2 = c) := by
          rw [h.stable, Agenda.moved, List.filter_map]
          simp only [Function.comp_def, hshift]

theorem fire (h : Ordered s a) {e : Event} {queue : EventQueue}
    (he : s.queue.popDue? s.now = some (e, queue)) (log : Array LogRecord) :
    Ordered { s with queue, log } (a.without e) := by
  refine h.remove e ?_ rfl
  rw [← eraseP_eq_filter h.distinct]
  unfold popDue? at he
  split at he
  · cases he
  · rename_i p rest hp
    split at he
    · cases he
      rw [hp, List.eraseP_cons_of_pos (by simp)]
    · cases he

end Ordered

theorem Reachable.ordered {s : QueueState} {a : Agenda} (h : Reachable s a) : Ordered s a := by
  induction h with
  | start capacity now => exact .start capacity now
  | command _ c hc ih => exact ih.command hc
  | advance _ n hn ih => exact ih.advance hn
  | jump _ d ih => exact ih.jump d
  | fire _ he log ih => exact ih.fire he log

def Dispatch.event? : Dispatch → Option Event
  | .idle => none
  | .unhandled e => some e
  | .fired f => some f.event

theorem event?_dispatch (s : QueueState) (handler : Event → Option (List QueueCommand))
    (now : UInt32) :
    (s.dispatch handler now).1.event? = (s.queue.popDue? now).map Prod.fst := by
  unfold dispatch
  cases s.queue.popDue? now with
  | none => rfl
  | some x =>
    dsimp only
    cases handler x.1 <;> rfl

namespace Ordered

variable {s : QueueState} {a : Agenda}

theorem isEarliest (h : Ordered s a) {p : Pending} {rest : List Pending}
    (hp : s.queue.pending = p :: rest) : a.IsEarliest s.now p.entry := by
  have hsorted : Sorted s.now (p :: rest) := hp ▸ h.sorted
  refine ⟨fun y hy => ?_, ?_⟩
  · obtain ⟨q, hq, rfl⟩ := h.mem_agenda.mp hy
    rw [hp] at hq
    rcases List.mem_cons.mp hq with rfl | hq
    · exact le_refl _
    · exact (List.pairwise_cons.mp hsorted).1 q hq
  · rw [← List.head?_filter, ← h.stable, hp]
    rw [List.filter_cons_of_pos (by simp [Pending.entry])]
    rfl

/-- If an event is due then the earliest one fires, and otherwise none. -/
theorem event?_eq (h : Ordered s a) (handler : Event → Option (List QueueCommand)) :
    ((∃ x ∈ a, distance s.now x.2 ≤ 0) → ∃ x ∈ a, distance s.now x.2 ≤ 0 ∧
      a.IsEarliest s.now x ∧ (s.dispatch handler s.now).1.event? = some x.1) ∧
    ((∀ x ∈ a, 0 < distance s.now x.2) → s.dispatch handler s.now = (.idle, s)) := by
  rw [event?_dispatch]
  cases hp : s.queue.pending with
  | nil =>
    have hnone : s.queue.popDue? s.now = none := by simp [popDue?, hp]
    refine ⟨fun ⟨x, hx, _⟩ => ?_, fun _ => by simp [dispatch, hnone]⟩
    obtain ⟨q, hq, -⟩ := h.mem_agenda.mp hx
    rw [hp] at hq
    cases hq
  | cons p rest =>
    have hmem : p ∈ s.queue.pending := hp ▸ List.mem_cons_self
    have hearly := h.isEarliest hp
    have hdue := isDue_iff s.now p.cycle
    have hentry : p.entry ∈ a := h.mem_agenda.mpr ⟨p, hmem, rfl⟩
    refine ⟨fun ⟨x, hx, hle⟩ => ?_, fun hlate => ?_⟩
    · have hle : distance s.now p.cycle ≤ 0 := le_trans (hearly.1 x hx) hle
      refine ⟨p.entry, hentry, hle, hearly, ?_⟩
      simp [popDue?, hp, hdue.mpr hle, Pending.entry]
    · have hnot : ¬ isDue s.now p.cycle = true := fun hd =>
        absurd (hdue.mp hd) (not_le.mpr (hlate p.entry hentry))
      have hnone : s.queue.popDue? s.now = none := by simp [popDue?, hp, hnot]
      simp [dispatch, hnone]

end Ordered

namespace Reachable

variable {s : QueueState} {a : Agenda}

theorem now_run (s : QueueState) (c : QueueCommand) : (s.run c).2.now = s.now := by
  cases c <;> rfl

theorem runAll (h : Reachable s a) {cs : List QueueCommand} (hc : ∀ c ∈ cs, Allowed s.now c) :
    ∃ a', Reachable (s.runAll cs).2 a' := by
  induction cs generalizing s a with
  | nil => exact ⟨a, h⟩
  | cons c cs ih =>
    refine ih (h.command c (hc c List.mem_cons_self)) fun c' hm => ?_
    exact (now_run s c).symm ▸ hc c' (.tail _ hm)

theorem dispatch (h : Reachable s a) {handler : Event → Option (List QueueCommand)}
    (hc : ∀ e cs, handler e = some cs → ∀ c ∈ cs, Allowed s.now c) :
    ∃ a', Reachable (s.dispatch handler s.now).2 a' := by
  unfold QueueState.dispatch
  cases hp : s.queue.popDue? s.now with
  | none => exact ⟨a, h⟩
  | some x =>
    obtain ⟨e, queue⟩ := x
    dsimp only
    cases hh : handler e with
    | none => exact ⟨_, h.fire hp _⟩
    | some cs => exact (h.fire hp s.log).runAll (hc e cs hh)

end Reachable

/-- The queue stays in order along every run: events lie at distances between `-2 ^ 28` and
`2 ^ 31` and are sorted by them, those of one cycle are in the order of the agenda, and whatever
the handlers are, the earliest event fires if any is due. The handlers' commands go on with the
run. -/
theorem order_of_reachable {s : QueueState} {a : Agenda} (h : Reachable s a) :
    (∀ p ∈ s.queue.pending, -2 ^ 28 < distance s.now p.cycle ∧ distance s.now p.cycle ≤ 2 ^ 31) ∧
    s.queue.pending.Pairwise (fun p q => distance s.now p.cycle ≤ distance s.now q.cycle) ∧
    (∀ cycle, (s.queue.pending.filter (·.cycle = cycle)).map Pending.entry =
      a.filter (·.2 = cycle)) ∧
    ∀ handler : Event → Option (List QueueCommand),
      ((∃ x ∈ a, distance s.now x.2 ≤ 0) → ∃ x ∈ a, distance s.now x.2 ≤ 0 ∧
        a.IsEarliest s.now x ∧ (s.dispatch handler s.now).1.event? = some x.1) ∧
      ((∀ x ∈ a, 0 < distance s.now x.2) → s.dispatch handler s.now = (.idle, s)) ∧
      ((∀ e cs, handler e = some cs → ∀ c ∈ cs, Allowed s.now c) →
        ∃ a', Reachable (s.dispatch handler s.now).2 a') := by
  have ho := h.ordered
  refine ⟨fun p hp => ⟨(ho.sight p hp).2, distance_le _ _⟩, ho.sorted, ho.stable, fun handler => ?_⟩
  obtain ⟨hdue, hidle⟩ := ho.event?_eq handler
  exact ⟨hdue, hidle, fun hc => h.dispatch hc⟩

/-- Three events are scheduled shortly before the clock wraps around, and all are due after it. -/
theorem order_of_wrapped :
    let q : QueueState := ⟨.create 4, 0xfffffff0, #[]⟩
    let s := (((q.run (.schedule .compare 0x10)).2.run (.schedule .reset 0x10)).2.run
      (.scheduleAfter .check 0x15)).2
    let t := { s with now := s.now + UInt32.ofNat 0x30 }
    let a : Agenda := [(.compare, 0x10), (.reset, 0x10), (.check, 0x5)]
    Reachable t a ∧ ∃ x ∈ a, a.IsEarliest t.now x ∧
      (t.dispatch (fun _ => none) t.now).1.event? = some x.1 := by
  intro q s t a
  have hs : Reachable s a :=
    (((Reachable.start 4 0xfffffff0).command (.schedule .compare 0x10) (by decide)).command
      (.schedule .reset 0x10) (by decide)).command (.scheduleAfter .check 0x15) (by decide)
  have h : Reachable t a := hs.advance 0x30 (by decide)
  obtain ⟨x, hx, -, hearly, hfire⟩ :=
    ((order_of_reachable h).2.2.2 fun _ => none).1 ⟨(.check, 0x5), by decide, by decide⟩
  exact ⟨h, x, hx, hearly, hfire⟩

end QueueState

end Recompiler
