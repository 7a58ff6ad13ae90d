import Recompiler.Proofs.EventArena
import Recompiler.Proofs.Headers

/-!
Savestates of the event queue. Every string of bytes reads as pairs of a kind and a cycle up to a
defect or to the terminator, and loading it leaves the first pair of each kind pending, as many as
there are slots. A queue that is saved and loaded has the same events pending. Loading puts them
into place one by one as if the special event had not been seen, so they stand in the same order
exactly if that is the order in which they were saved.
-/

namespace Recompiler

open EventQueue Savestate

namespace Savestate

theorem length_wordBytes (w : UInt32) : (wordBytes w).length = 4 := rfl

theorem setWidth_word (a b c d : BitVec 8) :
    let w := a.setWidth 32 ||| b.setWidth 32 <<< 8 ||| c.setWidth 32 <<< 16 |||
      d.setWidth 32 <<< 24
    w.setWidth 8 = a ∧ (w >>> 8).setWidth 8 = b ∧ (w >>> 16).setWidth 8 = c ∧
      (w >>> 24).setWidth 8 = d := by
  refine ⟨?_, ?_, ?_, ?_⟩
  · ext i hi
    simp
  · ext i hi
    simp [hi]
    grind
  · ext i hi
    simp [hi]
    grind
  · ext i hi
    simp [hi]
    grind

theorem wordBytes_wordOf (a b c d : UInt8) : wordBytes (wordOf a b c d) = [a, b, c, d] := by
  obtain ⟨h₀, h₁, h₂, h₃⟩ := setWidth_word a.toBitVec b.toBitVec c.toBitVec d.toBitVec
  unfold wordBytes
  congr 1
  · exact UInt8.eq_of_toBitVec_eq h₀
  congr 1
  · exact UInt8.eq_of_toBitVec_eq h₁
  congr 1
  · exact UInt8.eq_of_toBitVec_eq h₂
  congr 1
  exact UInt8.eq_of_toBitVec_eq h₃

theorem wordBytes_injective : Function.Injective wordBytes := by
  intro v w h
  rw [← wordOf_bytes v, ← wordOf_bytes w]
  unfold wordBytes at h
  simp only [List.cons.injEq] at h
  rw [h.1, h.2.1, h.2.2.1, h.2.2.2.1]

end Savestate

namespace Agenda

def bytes (a : Agenda) : List UInt8 := a.flatMap fun x => wordBytes x.1.code ++ wordBytes x.2

def Ordinary (a : Agenda) : Prop := ∀ x ∈ a, x.1.code ≠ terminator

def firsts : Agenda → Agenda
  | [] => []
  | x :: a => x :: (firsts a).without x.1

theorem bytes_cons (x : Event × UInt32) (a : Agenda) :
    bytes (x :: a) = wordBytes x.1.code ++ (wordBytes x.2 ++ a.bytes) := by
  rw [bytes, List.flatMap_cons, List.append_assoc]
  rfl

theorem bytes_injective : Function.Injective bytes := by
  intro a
  induction a with
  | nil =>
    intro b h
    cases b with
    | nil => rfl
    | cons y b => cases h
  | cons x a ih =>
    intro b h
    cases b with
    | nil => cases h
    | cons y b =>
      rw [bytes_cons, bytes_cons] at h
      obtain ⟨hcode, htail⟩ := List.append_inj h rfl
      obtain ⟨hcycle, hrest⟩ := List.append_inj htail rfl
      obtain ⟨⟨e⟩, cycle⟩ := x
      obtain ⟨⟨e'⟩, cycle'⟩ := y
      obtain rfl := wordBytes_injective hcode
      obtain rfl := wordBytes_injective hcycle
      rw [ih hrest]

theorem firsts_of_nodup {a : Agenda} (h : (a.map Prod.fst).Nodup) : a.firsts = a := by
  induction a with
  | nil => rfl
  | cons x a ih =>
    obtain ⟨hx, ha⟩ := List.nodup_cons.mp h
    rw [firsts, ih ha, without, List.filter_eq_self.mpr]
    intro y hy
    apply decide_eq_true
    intro he
    exact hx (he ▸ List.mem_map_of_mem hy)

end Agenda

namespace EventQueue

def scheduleAll (q : EventQueue) (now : UInt32) (a : Agenda) : EventQueue :=
  a.foldl (fun q x => (q.schedule now x.1 x.2).2) q

def agenda (q : EventQueue) : Agenda := q.pending.map Pending.entry

variable {q : EventQueue}

theorem save_eq (q : EventQueue) : q.save = q.agenda.bytes ++ wordBytes terminator := by
  unfold save agenda Agenda.bytes
  rw [List.flatMap_map]
  rfl

theorem schedule_of_pending {e : Event} (h : (q.pendingAt? e).isSome = true) (now cycle : UInt32) :
    (q.schedule now e cycle).2 = { q with duplicates := q.duplicates.next.2 } := by
  unfold EventQueue.schedule
  rw [if_pos h]

theorem schedule_of_full {e : Event} (h : (q.pendingAt? e).isSome = false) (hf : q.free = [])
    (now cycle : UInt32) : (q.schedule now e cycle).2 = q := by
  unfold EventQueue.schedule
  rw [if_neg (Bool.eq_false_iff.mp h), hf]

theorem schedule_of_free {e : Event} {slot : Nat} {free : List Nat}
    (h : (q.pendingAt? e).isSome = false) (hf : q.free = slot :: free) (now cycle : UInt32) :
    (q.schedule now e cycle).2 =
      { q with free, pending := insert q.specialDone now ⟨slot, e, cycle⟩ q.pending } := by
  unfold EventQueue.schedule
  rw [if_neg (Bool.eq_false_iff.mp h), hf]

def unseen (q : EventQueue) (a : Agenda) : Agenda := a.filter fun x => x.1 ∉ q.agenda.map Prod.fst

theorem isSome_pendingAt? {e : Event} :
    (q.pendingAt? e).isSome = true ↔ e ∈ q.agenda.map Prod.fst := by
  rw [pendingAt?, Option.isSome_map, List.find?_isSome, agenda, List.map_map, List.mem_map]
  simp only [beq_iff_eq]
  rfl

theorem unseen_firsts_of_mem {x : Event × UInt32} (h : x.1 ∈ q.agenda.map Prod.fst) (a : Agenda) :
    q.unseen (Agenda.firsts (x :: a)) = q.unseen a.firsts := by
  unfold unseen
  rw [Agenda.firsts, List.filter_cons_of_neg (by simpa using h), Agenda.without,
    List.filter_filter]
  apply List.filter_congr
  intro y hy
  by_cases hyx : y.1 = x.1
  · rw [hyx]
    simpa using h
  · simp [hyx]

theorem unseen_firsts_of_not_mem {x : Event × UInt32} (h : x.1 ∉ q.agenda.map Prod.fst)
    (a : Agenda) : q.unseen (Agenda.firsts (x :: a)) = x :: (q.unseen a.firsts).without x.1 := by
  unfold unseen Agenda.without
  rw [Agenda.firsts, List.filter_cons_of_pos (by simpa using h), Agenda.without,
    List.filter_filter, List.filter_filter]
  simp only [Bool.and_comm]

theorem unseen_of_perm {q' : EventQueue} {x : Event × UInt32} (h : q'.agenda.Perm (x :: q.agenda))
    (a : Agenda) : q'.unseen a = (q.unseen a).without x.1 := by
  unfold unseen Agenda.without
  rw [List.filter_filter]
  apply List.filter_congr
  intro y hy
  have hm : y.1 ∈ q'.agenda.map Prod.fst ↔ y.1 = x.1 ∨ y.1 ∈ q.agenda.map Prod.fst := by
    rw [(h.map Prod.fst).mem_iff, List.map_cons, List.mem_cons]
  rw [← Bool.decide_and, decide_eq_decide, hm, not_or]

/-- The events of kinds that are not yet pending are added, while slots are free. -/
theorem agenda_scheduleAll (q : EventQueue) (now : UInt32) (a : Agenda) :
    (q.scheduleAll now a).agenda.Perm (q.agenda ++ (q.unseen a.firsts).take q.free.length) := by
  induction a generalizing q with
  | nil => simp [scheduleAll, Agenda.firsts, unseen]
  | cons x a ih =>
    have hperm := ih (q.schedule now x.1 x.2).2
    change ((q.schedule now x.1 x.2).2.scheduleAll now a).agenda.Perm _
    by_cases hp : (q.pendingAt? x.1).isSome = true
    · rw [unseen_firsts_of_mem (isSome_pendingAt?.mp hp)]
      rw [schedule_of_pending hp] at hperm ⊢
      exact hperm
    · have hnone : (q.pendingAt? x.1).isSome = false := Bool.eq_false_iff.mpr hp
      cases hfree : q.free with
      | nil =>
        rw [schedule_of_full hnone hfree] at hperm ⊢
        rwa [hfree] at hperm
      | cons slot free =>
        rw [unseen_firsts_of_not_mem (isSome_pendingAt?.not.mp hp), List.length_cons,
          List.take_succ_cons]
        rw [schedule_of_free hnone hfree] at hperm ⊢
        have hadd : agenda { q with
            free, pending := insert q.specialDone now ⟨slot, x.1, x.2⟩ q.pending } |>.Perm
              (x :: q.agenda) := (perm_insert ..).map Pending.entry
        rw [unseen_of_perm hadd] at hperm
        exact hperm.trans ((hadd.append_right _).trans List.perm_middle.symm)

theorem agenda_scheduleAll_clear (q : EventQueue) (now : UInt32) (a : Agenda) :
    (q.clear.scheduleAll now a).agenda.Perm (a.firsts.take q.capacity) := by
  have hperm := agenda_scheduleAll q.clear now a
  have hunseen : q.clear.unseen a.firsts = a.firsts := by
    apply List.filter_eq_self.mpr
    intro x hx
    rfl
  have hfree : q.clear.free.length = q.capacity := List.length_range
  rwa [hunseen, hfree] at hperm

theorem loadMore_pair (q : EventQueue) (now : UInt32) (log : List LogRecord) {e : Event}
    (he : e.code ≠ terminator) (cycle : UInt32) (rest : List UInt8) :
    q.loadMore now log (wordBytes e.code ++ (wordBytes cycle ++ rest)) =
      (q.schedule now e cycle).2.loadMore now
        (log ++ (q.schedule now e cycle).1.report e cycle q.capacity) rest := by
  unfold wordBytes
  simp only [List.cons_append, List.nil_append]
  rw [loadMore, wordOf_bytes, wordOf_bytes]
  exact if_neg he

theorem loadMore_terminator (q : EventQueue) (now : UInt32) (log : List LogRecord)
    (rest : List UInt8) : q.loadMore now log (wordBytes terminator ++ rest) = ⟨q, log, none⟩ := by
  unfold wordBytes
  simp only [List.cons_append, List.nil_append]
  unfold loadMore
  rw [wordOf_bytes]
  exact if_pos rfl

theorem loadMore_bytes (q : EventQueue) (now : UInt32) (log : List LogRecord) {a : Agenda}
    (ha : a.Ordinary) (rest : List UInt8) : ∃ log', q.loadMore now log (a.bytes ++ rest) =
      (q.scheduleAll now a).loadMore now log' rest := by
  induction a generalizing q log with
  | nil => exact ⟨log, rfl⟩
  | cons x a ih =>
    obtain ⟨log', h⟩ := ih (q.schedule now x.1 x.2).2
      (log ++ (q.schedule now x.1 x.2).1.report x.1 x.2 q.capacity)
      (fun y hy => ha y (.tail _ hy))
    refine ⟨log', Eq.trans ?_ h⟩
    rw [Agenda.bytes_cons, List.append_assoc, List.append_assoc]
    exact loadMore_pair q now log (ha x (.head _)) x.2 _

theorem exists_word {bytes : List UInt8} (h : 4 ≤ bytes.length) :
    ∃ w rest, bytes = wordBytes w ++ rest := by
  obtain _ | ⟨a, _ | ⟨b, _ | ⟨c, _ | ⟨d, rest⟩⟩⟩⟩ := bytes
  iterate 4 simp at h
  refine ⟨wordOf a b c d, rest, ?_⟩
  rw [wordBytes_wordOf]
  rfl

theorem not_short {a b c d : UInt8} {rest : List UInt8} :
    ¬(a :: b :: c :: d :: rest).length < 4 := by
  simp only [List.length_cons]
  omega

/-- The bytes are pairs up to the terminator, or up to where fewer than eight bytes are left. -/
structure Reads (bytes : List UInt8) (a : Agenda) (rest : List UInt8) : Prop where
  ordinary : a.Ordinary
  eq : bytes = a.bytes ++ rest
  stop : wordBytes terminator <+: rest ∨ rest.length < 8

theorem exists_reads (bytes : List UInt8) : ∃ a rest, Reads bytes a rest := by
  induction hn : bytes.length using Nat.strong_induction_on generalizing bytes with
  | h n ih =>
    by_cases hstop : wordBytes terminator <+: bytes ∨ bytes.length < 8
    · exact ⟨[], bytes, fun x hx => absurd hx List.not_mem_nil, rfl, hstop⟩
    · obtain ⟨hterm, hlen⟩ := not_or.mp hstop
      obtain ⟨code, tail, rfl⟩ := exists_word (show 4 ≤ bytes.length by omega)
      rw [List.length_append, length_wordBytes] at hn hlen
      obtain ⟨cycle, more, rfl⟩ := exists_word (show 4 ≤ tail.length by omega)
      rw [List.length_append, length_wordBytes] at hn
      obtain ⟨a, rest, ha, rfl, hs⟩ := ih more.length (by omega) more rfl
      refine ⟨(⟨code⟩, cycle) :: a, rest, ?_, ?_, hs⟩
      · intro x hx
        rcases List.mem_cons.mp hx with rfl | hx
        · rintro rfl
          exact hterm (List.prefix_append _ _)
        · exact ha x hx
      · rw [Agenda.bytes_cons, List.append_assoc, List.append_assoc]

def defect : List UInt8 → Option LoadError
  | a :: b :: c :: d :: _ =>
    if wordOf a b c d = terminator then none else some (.truncatedEvent ⟨wordOf a b c d⟩)
  | _ => some .missingTerminator

theorem defect_word (w : UInt32) (rest : List UInt8) : defect (wordBytes w ++ rest) =
    if w = terminator then none else some (.truncatedEvent ⟨w⟩) := by
  unfold wordBytes
  simp only [List.cons_append, List.nil_append]
  rw [defect, wordOf_bytes]

theorem defect_of_short {rest : List UInt8} (h : rest.length < 4) :
    defect rest = some .missingTerminator := by
  unfold defect
  split
  · exact absurd h not_short
  · rfl

theorem prefix_word {v w : UInt32} {rest : List UInt8} :
    wordBytes v <+: wordBytes w ++ rest ↔ w = v := by
  constructor
  · rintro ⟨more, h⟩
    exact (wordBytes_injective (List.append_inj h rfl).1).symm
  · rintro rfl
    exact List.prefix_append _ _

theorem defect_eq_none {rest : List UInt8} :
    defect rest = none ↔ wordBytes terminator <+: rest := by
  by_cases h : 4 ≤ rest.length
  · obtain ⟨w, more, rfl⟩ := exists_word h
    rw [defect_word, prefix_word]
    by_cases hw : w = terminator
    · rw [if_pos hw]
      exact iff_of_true rfl hw
    · rw [if_neg hw]
      exact iff_of_false (Option.some_ne_none _) hw
  · rw [defect_of_short (not_le.mp h)]
    constructor
    · intro hd
      cases hd
    · intro hp
      exact absurd hp.length_le h

/-- Without a further pair nothing is scheduled. -/
theorem loadMore_rest {rest : List UInt8} (q : EventQueue) (now : UInt32) (log : List LogRecord)
    (h : wordBytes terminator <+: rest ∨ rest.length < 8) :
    q.loadMore now log rest = ⟨q, log, defect rest⟩ := by
  rcases h with ⟨more, rfl⟩ | h
  · rw [loadMore_terminator, defect_word, if_pos rfl]
  · by_cases h4 : 4 ≤ rest.length
    · obtain ⟨w, more, rfl⟩ := exists_word h4
      rw [List.length_append, length_wordBytes] at h
      have hmore : more.length < 4 := by omega
      rw [defect_word]
      unfold wordBytes
      simp only [List.cons_append, List.nil_append]
      unfold loadMore
      rw [wordOf_bytes]
      dsimp only
      split
      · rfl
      · split
        · exact absurd hmore not_short
        · rfl
    · have hshort := not_le.mp h4
      rw [defect_of_short hshort]
      unfold loadMore
      split
      · exact absurd hshort not_short
      · rfl

/-- What loading does with any bytes, whatever was pending before. It succeeds exactly if they are
pairs and a terminator, whatever follows it. There is one way to read them, up to the terminator
or to a defect, which is reported, and then the first pair of each kind is pending, as many as the
queue has slots. -/
theorem load_grammar (q : EventQueue) (now : UInt32) (bytes : List UInt8) :
    ((q.load now bytes).error = none ↔
      ∃ a rest, Agenda.Ordinary a ∧ bytes = a.bytes ++ (wordBytes terminator ++ rest)) ∧
    (∃ a rest, Reads bytes a rest) ∧
    ∀ a rest, Reads bytes a rest → (q.load now bytes).error = defect rest ∧
      (q.load now bytes).queue.agenda.Perm (a.firsts.take q.capacity) := by
  have hreads (a : Agenda) (rest : List UInt8) (h : Reads bytes a rest) :
      (q.load now bytes).error = defect rest ∧
        (q.load now bytes).queue.agenda.Perm (a.firsts.take q.capacity) := by
    obtain ⟨ha, rfl, hs⟩ := h
    obtain ⟨log, hload⟩ := loadMore_bytes q.clear now [] ha rest
    unfold load
    rw [hload, loadMore_rest _ now log hs]
    exact ⟨rfl, agenda_scheduleAll_clear q now a⟩
  obtain ⟨a, rest, h⟩ := exists_reads bytes
  refine ⟨?_, ⟨a, rest, h⟩, hreads⟩
  rw [(hreads a rest h).1]
  constructor
  · intro hnone
    obtain ⟨rest, rfl⟩ := defect_eq_none.mp hnone
    exact ⟨a, rest, h.ordinary, h.eq⟩
  · rintro ⟨b, more, hb, rfl⟩
    have hstop : wordBytes terminator <+: wordBytes terminator ++ more := List.prefix_append _ _
    have hmore : Reads _ b (wordBytes terminator ++ more) := ⟨hb, rfl, .inl hstop⟩
    rw [← (hreads a rest h).1, (hreads b _ hmore).1]
    exact defect_eq_none.mpr hstop

/-- No event has to go ahead of an earlier one: the special event comes first, and the others come
in the order of their distances, with overdue ones anywhere. -/
def Settled (now : UInt32) (a : Agenda) : Prop :=
  a.Pairwise fun x y => y.1 ≠ .special ∧
    (x.1 = .special ∨ distance now y.2 < 0 ∨ distance now x.2 ≤ distance now y.2)

instance (now : UInt32) (a : Agenda) : Decidable (Settled now a) :=
  inferInstanceAs (Decidable (a.Pairwise _))

theorem distance_nonneg {now cycle : UInt32} : 0 ≤ distance now cycle ↔ cycle - now ≤ half := by
  have hlt := (cycle - now).toNat_lt
  have hle : cycle - now ≤ half ↔ (cycle - now).toNat ≤ 2 ^ 31 := UInt32.le_iff_toNat_le
  rw [hle]
  unfold distance
  split
  · omega
  · omega

/-- With the special event in front until it has been seen, only an event ahead overtakes
another. -/
theorem before_iff_of_sight {done : Bool} {now a : UInt32} {b : Pending}
    (hd : done = true → b.event ≠ .special) (hb : -2 ^ 28 < distance now b.cycle) :
    before done now a b = true ↔
      b.event ≠ .special ∧ 0 ≤ distance now a ∧ distance now a < distance now b.cycle := by
  by_cases hs : b.event = .special
  · have hdone : done = false := Bool.eq_false_iff.mpr fun h => hd h hs
    simp [before, hs, hdone]
  · by_cases ha : a - now ≤ half
    · rw [before_iff done ha hb hs]
      exact ⟨fun h => ⟨hs, distance_nonneg.mpr ha, h⟩, fun h => h.2.2⟩
    · have hfar : half ≤ a - now := UInt32.le_of_lt (UInt32.not_le.mp ha)
      rw [distance_nonneg]
      simp [before, hs, hfar, ha]

section Insertion

variable {done : Bool} {now : UInt32} {p : Pending} {ps : List Pending}

theorem Settled.insertBehind (h : Settled now (ps.map Pending.entry))
    (hs : ∀ b ∈ ps, -2 ^ 28 < distance now b.cycle)
    (hd : done = true → ∀ b ∈ ps, b.event ≠ .special) (hp : p.event ≠ .special) :
    Settled now ((insertBehind done now p ps).map Pending.entry) := by
  induction ps with
  | nil => exact List.pairwise_singleton _ _
  | cons b ps ih =>
    have hbefore := before_iff_of_sight (a := p.cycle) (fun hdone => hd hdone b (.head _))
      (hs b (.head _))
    obtain ⟨hb, hps⟩ := List.pairwise_cons.mp h
    unfold EventQueue.insertBehind
    split
    · rename_i hfirst
      obtain ⟨hspecial, -, hlt⟩ := hbefore.mp hfirst
      refine List.pairwise_cons.mpr ⟨?_, h⟩
      intro y hy
      rcases List.mem_cons.mp hy with rfl | hy
      · exact ⟨hspecial, .inr (.inr (le_of_lt hlt))⟩
      · obtain ⟨hne, hsp | hneg | hle⟩ := hb y hy
        · exact absurd hsp hspecial
        · exact ⟨hne, .inr (.inl hneg)⟩
        · exact ⟨hne, .inr (.inr (le_trans (le_of_lt hlt) hle))⟩
    · rename_i hfirst
      refine List.pairwise_cons.mpr ⟨?_, ih hps (fun c hc => hs c (.tail _ hc))
        (fun hdone c hc => hd hdone c (.tail _ hc))⟩
      intro y hy
      have hperm : ((EventQueue.insertBehind done now p ps).map Pending.entry).Perm
          (p.entry :: ps.map Pending.entry) := perm_insertBehind.map _
      rcases List.mem_cons.mp (hperm.mem_iff.mp hy) with rfl | hy
      · refine ⟨hp, ?_⟩
        by_contra hnot
        obtain ⟨hspecial, hnot⟩ := not_or.mp hnot
        obtain ⟨hneg, hle⟩ := not_or.mp hnot
        exact hfirst (hbefore.mpr ⟨hspecial, not_lt.mp hneg, not_le.mp hle⟩)
      · exact hb y hy

/-- An event that has to go behind all others comes last. -/
theorem insert_of_settled (h : Settled now (ps.map Pending.entry ++ [p.entry]))
    (hs : ∀ b ∈ ps, -2 ^ 28 < distance now b.cycle) :
    insert false now p ps = ps ++ [p] := by
  obtain ⟨-, -, hlast⟩ := List.pairwise_append.mp h
  have hlast (b : Pending) (hb : b ∈ ps) := hlast b.entry (List.mem_map_of_mem hb) p.entry (.head _)
  by_cases hp : p.event = .special
  · cases ps with
    | nil => simp [insert, insertBehind]
    | cons b ps => exact absurd hp (hlast b (.head _)).1
  · rw [insert_eq hp]
    have hsplit : Split (before false now p.cycle) ps [] := by
      refine ⟨?_, fun _ _ hnil => absurd hnil.symm (List.cons_ne_nil _ _)⟩
      intro b hb
      apply Bool.eq_false_iff.mpr
      intro hbefore
      obtain ⟨hspecial, hpos, hlt⟩ :=
        (before_iff_of_sight (fun hdone => absurd hdone Bool.false_ne_true) (hs b hb)).mp hbefore
      obtain ⟨-, hsp | hneg | hle⟩ := hlast b hb
      · exact hspecial hsp
      · exact absurd hneg (not_lt.mpr hpos)
      · exact absurd hle (not_le.mpr hlt)
    have hinsert := hsplit.insertBehind
    rwa [List.append_nil] at hinsert

end Insertion

theorem specialDone_schedule (q : EventQueue) (now : UInt32) (e : Event) (cycle : UInt32) :
    (q.schedule now e cycle).2.specialDone = q.specialDone := by
  unfold EventQueue.schedule
  split
  · rfl
  · split
    · rfl
    · rfl

theorem specialDone_cancel (q : EventQueue) (e : Event) :
    (q.cancel e).2.specialDone = q.specialDone := by
  unfold EventQueue.cancel
  split
  · rfl
  · rfl

/-- The queue is in an order that insertion keeps. -/
structure InOrder (now : UInt32) (q : EventQueue) : Prop where
  sight : ∀ p ∈ q.pending, -2 ^ 28 < distance now p.cycle
  settled : Settled now q.agenda
  special : q.specialDone = true → ∀ p ∈ q.pending, p.event ≠ .special

namespace InOrder

variable {now : UInt32} {q q' : EventQueue}

theorem create (capacity : Int) (now : UInt32) : InOrder now (.create capacity) where
  sight _ hp := absurd hp List.not_mem_nil
  settled := List.Pairwise.nil
  special h := absurd h Bool.false_ne_true

theorem clear (now : UInt32) (q : EventQueue) : InOrder now q.clear where
  sight _ hp := absurd hp List.not_mem_nil
  settled := List.Pairwise.nil
  special h := absurd h Bool.false_ne_true

theorem insert (h : InOrder now q) {p : Pending} (hnew : ∀ b ∈ q.pending, b.event ≠ p.event)
    (hp : p.event = .special → q.specialDone = false) (hs : -2 ^ 28 < distance now p.cycle)
    (hpending : q'.pending = insert q.specialDone now p q.pending)
    (hdone : q'.specialDone = q.specialDone) : InOrder now q' := by
  have hperm : q'.pending.Perm (p :: q.pending) := hpending ▸ perm_insert ..
  refine ⟨?_, ?_, ?_⟩
  · intro b hb
    rcases List.mem_cons.mp (hperm.mem_iff.mp hb) with rfl | hb
    · exact hs
    · exact h.sight b hb
  · unfold agenda
    rw [hpending]
    by_cases he : p.event = .special
    · have hfront : EventQueue.insert q.specialDone now p q.pending = p :: q.pending := by
        simp [EventQueue.insert, he, hp he]
      rw [hfront]
      refine List.pairwise_cons.mpr ⟨?_, h.settled⟩
      intro y hy
      obtain ⟨b, hb, rfl⟩ := List.mem_map.mp hy
      exact ⟨he ▸ hnew b hb, .inl he⟩
    · rw [insert_eq he]
      exact h.settled.insertBehind h.sight h.special he
  · intro hd b hb
    rw [hdone] at hd
    rcases List.mem_cons.mp (hperm.mem_iff.mp hb) with rfl | hb
    · intro he
      exact absurd ((hp he).symm.trans hd) Bool.false_ne_true
    · exact h.special hd b hb

theorem of_sublist (h : InOrder now q) (hp : q'.pending.Sublist q.pending)
    (hd : q'.specialDone = q.specialDone) : InOrder now q' where
  sight b hb := h.sight b (hp.mem hb)
  settled := h.settled.sublist (hp.map _)
  special hdone b hb := h.special (hd ▸ hdone) b (hp.mem hb)

theorem schedule (h : InOrder now q) {e : Event} {cycle : UInt32}
    (he : e = .special → q.specialDone = false) (hc : -2 ^ 28 < distance now cycle) :
    InOrder now (q.schedule now e cycle).2 := by
  have hdone := specialDone_schedule q now e cycle
  obtain ⟨-, hp⟩ | ⟨-, hnew, slot, hp⟩ := schedule_cases q now e cycle
  · exact h.of_sublist (hp ▸ .refl _) hdone
  · exact h.insert (p := ⟨slot, e, cycle⟩) hnew he hc hp hdone

theorem scheduleAll (h : InOrder now q) (hd : q.specialDone = false) {a : Agenda}
    (hs : ∀ x ∈ a, -2 ^ 28 < distance now x.2) :
    InOrder now (q.scheduleAll now a) ∧ (q.scheduleAll now a).specialDone = false := by
  induction a generalizing q with
  | nil => exact ⟨h, hd⟩
  | cons x a ih =>
    have hstep := h.schedule (e := x.1) (fun _ => hd) (hs x (.head _))
    exact ih hstep ((specialDone_schedule ..).trans hd) fun y hy => hs y (.tail _ hy)

theorem advance (h : InOrder now q) {n : Nat}
    (hn : ∀ p ∈ q.pending, n < distance now p.cycle + 2 ^ 28) :
    InOrder (now + UInt32.ofNat n) q := by
  have hd (p : Pending) (hp : p ∈ q.pending) :
      distance (now + UInt32.ofNat n) p.cycle = distance now p.cycle - n := by
    have hlt := hn p hp
    exact distance_add (by omega)
  refine ⟨?_, ?_, h.special⟩
  · intro p hp
    have hlt := hn p hp
    rw [hd p hp]
    omega
  · apply List.pairwise_map.mpr
    apply (List.pairwise_map.mp h.settled).imp_of_mem
    intro x y hx hy hxy
    change y.event ≠ _ ∧ (x.event = _ ∨ distance _ y.cycle < 0 ∨
      distance _ x.cycle ≤ distance _ y.cycle) at hxy ⊢
    rw [hd x hx, hd y hy]
    obtain ⟨hne, hsp | hneg | hle⟩ := hxy
    · exact ⟨hne, .inl hsp⟩
    · exact ⟨hne, .inr (.inl (by omega))⟩
    · exact ⟨hne, .inr (.inr (by omega))⟩

theorem jump (h : InOrder now q) (d : UInt32) : InOrder (now + d) (q.shift d) := by
  refine ⟨?_, ?_, ?_⟩
  · intro b hb
    obtain ⟨p, hp, rfl⟩ := List.mem_map.mp hb
    rw [distance_jump]
    exact h.sight p hp
  · unfold agenda shift
    rw [List.map_map]
    apply List.pairwise_map.mpr
    apply (List.pairwise_map.mp h.settled).imp
    intro x y hxy
    dsimp only [Function.comp, Pending.entry]
    rw [distance_jump, distance_jump]
    exact hxy
  · intro hdone b hb
    obtain ⟨p, hp, rfl⟩ := List.mem_map.mp hb
    exact h.special hdone p hp

end InOrder

end EventQueue

namespace QueueState

/-- Commands that keep events in sight, and the special event apart from the flag that it has been
seen. The events are never moved alone. -/
def Fits (s : QueueState) : QueueCommand → Prop
  | .schedule e cycle =>
    (e = .special → s.queue.specialDone = false) ∧ -2 ^ 28 < distance s.now cycle
  | .scheduleAfter e delay =>
    (e = .special → s.queue.specialDone = false) ∧ -2 ^ 28 < distance s.now (s.now + delay)
  | .setSpecialDone done => done = true → ∀ p ∈ s.queue.pending, p.event ≠ .special
  | .shift _ => False
  | _ => True

/-- The states that a queue and its clock come to when all events stay in sight. When an event
fires, the commands of its handler are the next ones. -/
inductive Orderly : QueueState → Prop
  | start (capacity : Int) (now : UInt32) (log : Array LogRecord) :
    Orderly ⟨.create capacity, now, log⟩
  | command {s : QueueState} (h : Orderly s) (c : QueueCommand) (hc : s.Fits c) :
    Orderly (s.run c).2
  /-- Time passes, and no event becomes overdue by `2 ^ 28` cycles. -/
  | advance {s : QueueState} (h : Orderly s) (n : Nat)
      (hn : ∀ p ∈ s.queue.pending, n < distance s.now p.cycle + 2 ^ 28) :
    Orderly { s with now := s.now + UInt32.ofNat n }
  /-- The clock jumps, and all events with it. -/
  | jump {s : QueueState} (h : Orderly s) (d : UInt32) :
    Orderly { (s.run (.shift d)).2 with now := s.now + d }
  | fire {s : QueueState} (h : Orderly s) {e : Event} {queue : EventQueue}
      (he : s.queue.popDue? s.now = some (e, queue)) (log : Array LogRecord) :
    Orderly { s with queue, log }

theorem Orderly.inOrder {s : QueueState} (h : Orderly s) : InOrder s.now s.queue := by
  induction h with
  | start capacity now log => exact .create capacity now
  | @command s h c hc ih =>
    cases c with
    | schedule e cycle => exact ih.schedule hc.1 hc.2
    | scheduleAfter e delay => exact ih.schedule hc.1 hc.2
    | cancel e =>
      refine ih.of_sublist ?_ ?_
      · change (s.queue.cancel e).2.pending.Sublist _
        rw [cancel_pending]
        exact List.eraseP_sublist
      · exact specialDone_cancel s.queue e
    | clear => exact .clear _ _
    | setSpecialDone done => exact ⟨ih.sight, ih.settled, hc⟩
    | shift d => exact hc.elim
    | pending | next | size => exact ih
  | advance h n hn ih => exact ih.advance hn
  | jump h d ih => exact ih.jump d
  | fire h he log ih =>
    obtain ⟨p, rest, hp, -, -, rfl⟩ := popDue?_some he
    apply ih.of_sublist
    · rw [hp]
      exact List.sublist_cons_self _ _
    · rfl

end QueueState

namespace EventQueue

/-- A list in order is scheduled in that order. -/
theorem agenda_scheduleAll_of_settled {q : EventQueue} {now : UInt32} {a : Agenda}
    (h : Settled now (q.agenda ++ a)) (hs : ∀ x ∈ q.agenda ++ a, -2 ^ 28 < distance now x.2)
    (hk : ((q.agenda ++ a).map Prod.fst).Nodup) (hd : q.specialDone = false)
    (hf : a.length ≤ q.free.length) : (q.scheduleAll now a).agenda = q.agenda ++ a := by
  induction a generalizing q with
  | nil => exact (List.append_nil _).symm
  | cons x a ih =>
    have hnone : (q.pendingAt? x.1).isSome = false := by
      apply Bool.eq_false_iff.mpr
      intro hp
      rw [List.map_append, List.map_cons] at hk
      exact (List.nodup_append.mp hk).2.2 _ (isSome_pendingAt?.mp hp) _ (.head _) rfl
    cases hfree : q.free with
    | nil =>
      rw [hfree] at hf
      cases hf
    | cons slot free =>
      rw [hfree] at hf
      have hagenda : q.agenda ++ x :: a = (q.agenda ++ [x]) ++ a :=
        (List.append_assoc q.agenda [x] a).symm
      rw [hagenda] at h hs hk ⊢
      have hinsert : insert q.specialDone now ⟨slot, x.1, x.2⟩ q.pending =
          q.pending ++ [⟨slot, x.1, x.2⟩] := by
        rw [hd]
        apply insert_of_settled
        · exact (List.pairwise_append.mp h).1
        · intro b hb
          apply hs b.entry
          exact List.mem_append_left _ (List.mem_append_left _ (List.mem_map_of_mem hb))
      have hq : (q.schedule now x.1 x.2).2.agenda = q.agenda ++ [x] := by
        rw [schedule_of_free hnone hfree, hinsert]
        exact List.map_append
      change ((q.schedule now x.1 x.2).2.scheduleAll now a).agenda = _
      rw [← hq] at h hs hk ⊢
      apply ih h hs hk
      · rw [specialDone_schedule]
        exact hd
      · rw [schedule_of_free hnone hfree]
        exact Nat.le_of_succ_le_succ hf

theorem load_save_eq {q : EventQueue} (r : EventQueue) (now : UInt32)
    (hk : ∀ p ∈ q.pending, p.event.code ≠ terminator) :
    ∃ log, r.load now q.save = ⟨r.clear.scheduleAll now q.agenda, log, none⟩ := by
  have hordinary : q.agenda.Ordinary := by
    intro x hx
    obtain ⟨p, hp, rfl⟩ := List.mem_map.mp hx
    exact hk p hp
  obtain ⟨log, hload⟩ := loadMore_bytes r.clear now [] hordinary (wordBytes terminator ++ [])
  refine ⟨log, ?_⟩
  rw [loadMore_terminator, List.append_nil, ← save_eq] at hload
  exact hload

/-- What becomes of a queue that is saved, and loaded into another one that has as many slots,
after any operations. Nothing is wrong with the bytes, and the same events are pending. The special
event is one that has not been seen, and the events come in an order that insertion keeps. So the
order is the same, and the bytes are when the queue is saved again, exactly if they were saved in
such an order, which they are after every orderly run. -/
theorem load_save (capacity : Int) (steps : List QueueStep) (r : EventQueue) (now : UInt32)
    (hcap : ((create capacity).run steps).capacity ≤ r.capacity)
    (hkinds : ∀ p ∈ ((create capacity).run steps).pending, p.event.code ≠ terminator)
    (hsight : ∀ p ∈ ((create capacity).run steps).pending, -2 ^ 28 < distance now p.cycle) :
    let q := (create capacity).run steps
    let loaded := r.load now q.save
    loaded.error = none ∧ loaded.queue.agenda.Perm q.agenda ∧
      loaded.queue.specialDone = false ∧ Settled now loaded.queue.agenda ∧
      (loaded.queue.agenda = q.agenda ↔ Settled now q.agenda) ∧
      (loaded.queue.save = q.save ↔ Settled now q.agenda) ∧
      ∀ log, QueueState.Orderly ⟨q, now, log⟩ → Settled now q.agenda := by
  have hq := (Partitioned.create capacity).run steps
  generalize (create capacity).run steps = q at *
  obtain ⟨log, hload⟩ := load_save_eq r now hkinds
  have hs : ∀ x ∈ q.agenda, -2 ^ 28 < distance now x.2 := by
    intro x hx
    obtain ⟨p, hp, rfl⟩ := List.mem_map.mp hx
    exact hsight p hp
  have hnodup : (q.agenda.map Prod.fst).Nodup := by
    rw [agenda, List.map_map]
    exact hq.distinct
  have hroom : q.agenda.length ≤ r.capacity := by
    rw [agenda, List.length_map]
    exact hq.length_le.trans hcap
  have hperm : (r.clear.scheduleAll now q.agenda).agenda.Perm q.agenda := by
    have hall := agenda_scheduleAll_clear r now q.agenda
    rwa [Agenda.firsts_of_nodup hnodup, List.take_of_length_le hroom] at hall
  obtain ⟨hloaded, hdone⟩ := (InOrder.clear now r).scheduleAll rfl hs
  have horder : (r.clear.scheduleAll now q.agenda).agenda = q.agenda ↔ Settled now q.agenda := by
    constructor
    · intro he
      exact he ▸ hloaded.settled
    · intro h
      exact agenda_scheduleAll_of_settled (q := r.clear) h hs hnodup rfl
        (hroom.trans_eq List.length_range.symm)
  simp only [hload]
  refine ⟨trivial, hperm, hdone, hloaded.settled, horder, ?_, ?_⟩
  · rw [save_eq, save_eq, List.append_cancel_right_eq, Agenda.bytes_injective.eq_iff]
    exact horder
  · intro log h
    exact h.inOrder.settled

/-- The special event that waits behind the timer goes to the front when it is loaded. -/
theorem load_save_reordered :
    let q := (create 4).run [.setSpecialDone true, .schedule 0 .compare 10, .schedule 0 .special 20]
    let loaded := (create 4).load 0 q.save
    (∀ p ∈ q.pending, p.event.code ≠ terminator ∧ -2 ^ 28 < distance 0 p.cycle) ∧
      loaded.error = none ∧ q.agenda = [(.compare, 10), (.special, 20)] ∧
      loaded.queue.agenda = [(.special, 20), (.compare, 10)] ∧ loaded.queue.save ≠ q.save := by
  decide

/-- An event that is no longer in sight when others are scheduled leaves an order behind that
loading changes. -/
example :
    let q := (create 4).run [.schedule 0 ⟨0x8⟩ 0xf0000001, .schedule 0 .compare 3,
      .schedule 1 ⟨0x1⟩ 6, .cancel ⟨0x8⟩]
    q.agenda = [(⟨0x1⟩, 6), (.compare, 3)] ∧
      ((create 4).load 1 q.save).queue.agenda = [(.compare, 3), (⟨0x1⟩, 6)] := by
  decide

/-- The special event in front, an overdue one, and two at the same cycle are loaded as they were
saved. -/
theorem load_save_settled :
    let q := (create 4).run [.schedule 0 ⟨0x40⟩ 30, .schedule 0 .compare 30, .schedule 0 ⟨0x10⟩ 3,
      .schedule 0 .special 20]
    q.agenda = [(.special, 20), (⟨0x10⟩, 3), (⟨0x40⟩, 30), (.compare, 30)] ∧
      ((create 8).load 5 q.save).queue.save = q.save := by
  refine ⟨by decide, ?_⟩
  obtain ⟨-, -, -, -, -, hsave, -⟩ := load_save 4
    [.schedule 0 ⟨0x40⟩ 30, .schedule 0 .compare 30, .schedule 0 ⟨0x10⟩ 3,
      .schedule 0 .special 20] (create 8) 5 (by decide) (by decide) (by decide)
  exact hsave.mpr (by decide)

end EventQueue

end Recompiler
