import Recompiler.EventQueue.Arena
import Recompiler.Proofs.Timer

/-!
The arena of nodes holds the queue. Whatever is done with it, also by handlers while an event
fires, the chain of nodes ends, no node is on it twice or on the stack as well, and read along its
chain the arena is the queue: no operation is ever without a result.
-/

namespace Recompiler

open EventQueue

namespace EventQueue

/-- The first event that is wanted comes right behind `l`. -/
structure Split (wanted : Pending → Bool) (l r : List Pending) : Prop where
  passed : ∀ p ∈ l, wanted p = false
  found : ∀ p rest, r = p :: rest → wanted p = true

namespace Split

variable {wanted : Pending → Bool} {l r : List Pending}

theorem find? (h : Split wanted l r) : (l ++ r).find? wanted = r.head? := by
  induction l with
  | nil =>
    cases r with
    | nil => rfl
    | cons p rest => exact List.find?_cons_of_pos (h.found p rest rfl)
  | cons p l ih =>
    have hp : ¬ wanted p = true := Bool.eq_false_iff.mp (h.passed p (.head _))
    rw [List.cons_append, List.find?_cons_of_neg hp]
    exact ih ⟨fun q hq => h.passed q (.tail _ hq), h.found⟩

theorem eraseP (h : Split wanted l r) : (l ++ r).eraseP wanted = l ++ r.tail := by
  induction l with
  | nil =>
    cases r with
    | nil => rfl
    | cons p rest => exact List.eraseP_cons_of_pos (h.found p rest rfl)
  | cons p l ih =>
    have hp : ¬ wanted p = true := Bool.eq_false_iff.mp (h.passed p (.head _))
    rw [List.cons_append, List.eraseP_cons_of_neg hp,
      ih ⟨fun q hq => h.passed q (.tail _ hq), h.found⟩]
    rfl

theorem insertBehind {done : Bool} {now : UInt32} {p : Pending}
    (h : Split (before done now p.cycle) l r) :
    EventQueue.insertBehind done now p (l ++ r) = l ++ p :: r := by
  induction l with
  | nil =>
    cases r with
    | nil => rfl
    | cons b rest => exact if_pos (h.found b rest rfl)
  | cons b l ih =>
    have hb : ¬ before done now p.cycle b = true := Bool.eq_false_iff.mp (h.passed b (.head _))
    rw [List.cons_append, EventQueue.insertBehind, if_neg hb,
      ih ⟨fun q hq => h.passed q (.tail _ hq), h.found⟩]
    rfl

end Split

end EventQueue

namespace EventArena

/-- The nodes from `i` on hold the events in this order, and the last one leads on to `j`. -/
def Links (nodes : Array EventNode) : Option Nat → List Pending → Option Nat → Prop
  | i, [], j => i = j
  | i, p :: ps, j => i = some p.slot ∧
    ∃ next, nodes[p.slot]? = some ⟨p.event, p.cycle, next⟩ ∧ Links nodes next ps j

section Chains

variable {nodes nodes' : Array EventNode} {i j : Option Nat} {ps l r : List Pending} {p : Pending}

theorem links_append : Links nodes i (l ++ r) j ↔
    ∃ k, Links nodes i l k ∧ Links nodes k r j := by
  induction l generalizing i with
  | nil =>
    constructor
    · intro h
      exact ⟨i, rfl, h⟩
    · rintro ⟨k, rfl, h⟩
      exact h
  | cons p l ih =>
    constructor
    · rintro ⟨hi, next, hn, h⟩
      obtain ⟨k, hl, hr⟩ := ih.mp h
      exact ⟨k, ⟨hi, next, hn, hl⟩, hr⟩
    · rintro ⟨k, ⟨hi, next, hn, hl⟩, hr⟩
      exact ⟨hi, next, hn, ih.mpr ⟨k, hl, hr⟩⟩

theorem Links.congr (h : Links nodes i ps j) (hn : ∀ p ∈ ps, nodes'[p.slot]? = nodes[p.slot]?) :
    Links nodes' i ps j := by
  induction ps generalizing i with
  | nil => exact h
  | cons p ps ih =>
    obtain ⟨hi, next, hp, hps⟩ := h
    refine ⟨hi, next, ?_, ih hps fun q hq => hn q (.tail _ hq)⟩
    rw [hn p (.head _), hp]

theorem Links.head (h : Links nodes i ps none) : i = ps.head?.map (·.slot) := by
  cases ps with
  | nil => exact h
  | cons p ps => exact h.1

theorem Links.redirect (h : Links nodes i (l ++ [p]) j) (hp : p.slot ∉ l.map (·.slot))
    (k : Option Nat) :
    Links (nodes.modify p.slot fun node => { node with next := k }) i (l ++ [p]) k := by
  obtain ⟨m, hl, hm, next, hn, hj⟩ := links_append.mp h
  apply links_append.mpr
  refine ⟨m, hl.congr ?_, hm, k, ?_, rfl⟩
  · intro q hq
    rw [Array.getElem?_modify, if_neg]
    intro he
    exact hp (he ▸ List.mem_map_of_mem hq)
  · rw [Array.getElem?_modify, if_pos rfl, hn]
    rfl

theorem Links.modify_other {n : Nat} {f : EventNode → EventNode} (h : Links nodes i ps j)
    (hn : n ∉ ps.map (·.slot)) : Links (nodes.modify n f) i ps j := by
  apply h.congr
  intro p hp
  rw [Array.getElem?_modify, if_neg]
  intro he
  exact hn (he ▸ List.mem_map_of_mem hp)

end Chains

/-- The chain is followed as far as the first event that is wanted. -/
theorem seek_links {a : EventArena} {wanted : Pending → Bool} {fuel : Nat} {prev i : Option Nat}
    {ps : List Pending} (h : Links a.nodes i ps none) (hf : ps.length ≤ fuel) :
    ∃ l r, ps = l ++ r ∧ Split wanted l r ∧ a.seek wanted fuel prev i =
      some ((l.getLast?.map (·.slot)).or prev, r.head?.map (·.slot)) := by
  induction ps generalizing fuel prev i with
  | nil =>
    obtain rfl : i = none := h
    refine ⟨[], [], rfl, ⟨?_, ?_⟩, ?_⟩
    · intro p hp
      cases hp
    · intro p rest hr
      cases hr
    · cases fuel <;> rfl
  | cons p ps ih =>
    obtain ⟨rfl, next, hp, hps⟩ := h
    cases fuel with
    | zero => cases hf
    | succ fuel =>
      unfold seek
      rw [hp]
      by_cases hw : wanted p = true
      · refine ⟨[], p :: ps, rfl, ⟨?_, ?_⟩, if_pos hw⟩
        · intro q hq
          cases hq
        · intro q rest hr
          cases hr
          exact hw
      · obtain ⟨l, r, rfl, ⟨hl, hr⟩, hs⟩ :=
          @ih fuel (some p.slot) next hps (Nat.le_of_succ_le_succ hf)
        refine ⟨p :: l, r, rfl, ⟨?_, hr⟩, ?_⟩
        · intro q hq
          rcases List.mem_cons.mp hq with rfl | hq
          · exact Bool.eq_false_iff.mpr hw
          · exact hl q hq
        · refine (if_neg hw).trans (hs.trans ?_)
          cases l <;> simp [List.getLast?_cons]

/-- Read along its chain the arena is the queue. -/
structure Holds (a : EventArena) (q : EventQueue) : Prop where
  chain : Links a.nodes a.head q.pending none
  size : a.nodes.size = q.capacity
  free : a.free = q.free
  specialDone : a.specialDone = q.specialDone
  duplicates : a.duplicates = q.duplicates

end EventArena

namespace EventQueue

/-- The slots of the pending events and those on the stack are all slots, each once, and no kind
of event is pending twice. -/
structure Partitioned (q : EventQueue) : Prop where
  slots : (q.pending.map (·.slot) ++ q.free).Perm (List.range q.capacity)
  distinct : (q.pending.map (·.event)).Nodup

namespace Partitioned

variable {q : EventQueue}

theorem nodup (h : Partitioned q) : (q.pending.map (·.slot) ++ q.free).Nodup :=
  h.slots.nodup_iff.mpr List.nodup_range

theorem nodup_slots (h : Partitioned q) : (q.pending.map (·.slot)).Nodup :=
  (List.nodup_append.mp h.nodup).1

theorem slot_lt (h : Partitioned q) {n : Nat} (hn : n ∈ q.pending.map (·.slot) ++ q.free) :
    n < q.capacity := List.mem_range.mp (h.slots.subset hn)

theorem length_add (h : Partitioned q) : q.pending.length + q.free.length = q.capacity := by
  have hl := h.slots.length_eq
  rwa [List.length_append, List.length_map, List.length_range] at hl

theorem length_le (h : Partitioned q) : q.pending.length ≤ q.capacity := by
  have hl := h.length_add
  omega

theorem create (capacity : Int) : Partitioned (.create capacity) where
  slots := .refl _
  distinct := .nil

theorem clear (q : EventQueue) : Partitioned q.clear where
  slots := .refl _
  distinct := .nil

theorem setSpecialDone (h : Partitioned q) (done : Bool) :
    Partitioned { q with specialDone := done } := ⟨h.slots, h.distinct⟩

theorem schedule (h : Partitioned q) (now : UInt32) (e : Event) (cycle : UInt32) :
    Partitioned (q.schedule now e cycle).2 := by
  unfold EventQueue.schedule
  split
  · exact ⟨h.slots, h.distinct⟩
  · rename_i hnone
    split
    · exact h
    · rename_i slot free hfree
      have hperm := perm_insert q.specialDone now ⟨slot, e, cycle⟩ q.pending
      constructor
      · apply List.Perm.trans _ h.slots
        rw [hfree]
        exact ((hperm.map (·.slot)).append_right free).trans List.perm_middle.symm
      · apply (hperm.map (·.event)).nodup_iff.mpr
        apply List.nodup_cons.mpr
        refine ⟨?_, h.distinct⟩
        intro hm
        obtain ⟨p, hp, rfl⟩ := List.mem_map.mp hm
        apply hnone
        rw [pendingAt?, Option.isSome_map, List.find?_isSome]
        exact ⟨p, hp, beq_self_eq_true _⟩

theorem remove (h : Partitioned q) {l r : List Pending} {p : Pending}
    (hp : q.pending = l ++ p :: r) :
    Partitioned { q with pending := l ++ r, free := p.slot :: q.free } := by
  have hperm : (l ++ p :: r).Perm (p :: (l ++ r)) := List.perm_middle
  constructor
  · apply List.Perm.trans _ h.slots
    rw [hp]
    exact List.perm_middle.trans ((hperm.map Pending.slot).append_right q.free).symm
  · have hd := h.distinct
    rw [hp, (hperm.map (·.event)).nodup_iff, List.map_cons, List.nodup_cons] at hd
    exact hd.2

theorem cancel (h : Partitioned q) (e : Event) : Partitioned (q.cancel e).2 := by
  unfold EventQueue.cancel
  split
  · rename_i p hf
    obtain ⟨he, l, r, hp, hl⟩ := List.find?_eq_some_iff_append.mp hf
    have hsplit : Split (·.event == e) l (p :: r) := by
      constructor
      · intro b hb
        simpa using hl b hb
      · intro b rest hb
        cases hb
        exact he
    rw [hp, hsplit.eraseP]
    exact h.remove hp
  · exact h

theorem shift (h : Partitioned q) (d : UInt32) : Partitioned (q.shift d) := by
  constructor
  · change ((q.pending.map _).map _ ++ _).Perm _
    rw [List.map_map]
    exact h.slots
  · change ((q.pending.map _).map _).Nodup
    rw [List.map_map]
    exact h.distinct

theorem pop {e : Event} {now : UInt32} {q' : EventQueue} (h : Partitioned q)
    (he : q.popDue? now = some (e, q')) : Partitioned q' := by
  obtain ⟨p, rest, hp, -, -, rfl⟩ := popDue?_some he
  exact h.remove (l := []) hp

theorem loadMore (h : Partitioned q) (now : UInt32) (log : List LogRecord) (bytes : List UInt8) :
    Partitioned (q.loadMore now log bytes).queue := by
  fun_induction EventQueue.loadMore now q log bytes with
  | case1 => exact h
  | case2 q log a b c d e he a' b' c' d' rest cycle outcome q' hs ih =>
    apply ih
    have hq := h.schedule now e cycle
    rwa [hs] at hq
  | case3 => exact h
  | case4 => exact h

end Partitioned

end EventQueue

namespace EventArena

section Nodes

variable {a : EventArena} {l r : List Pending} {p : Pending}

theorem modify?_of_some {i : Nat} {node : EventNode} (h : a.nodes[i]? = some node)
    (f : EventNode → EventNode) : a.modify? i f = some { a with nodes := a.nodes.modify i f } := by
  obtain ⟨hi, -⟩ := Array.getElem?_eq_some_iff.mp h
  exact if_pos hi

/-- A node is chained behind the events `l`. -/
theorem Links.link {next : Option Nat} (h : Links a.nodes a.head (l ++ r) none)
    (hn : a.nodes[p.slot]? = some ⟨p.event, p.cycle, next⟩)
    (hnew : p.slot ∉ (l ++ r).map (·.slot)) (hnd : ((l ++ r).map (·.slot)).Nodup) :
    ∃ nodes head, a.link (l.getLast?.map (·.slot)) p.slot = some { a with head, nodes } ∧
      nodes.size = a.nodes.size ∧ Links nodes head (l ++ p :: r) none := by
  rcases List.eq_nil_or_concat l with rfl | ⟨l, b, rfl⟩
  · refine ⟨a.nodes.modify p.slot fun node => { node with next := a.head }, some p.slot, ?_, ?_,
      rfl, a.head, ?_, h.modify_other hnew⟩
    · exact modify?_of_some (a := { a with head := some p.slot }) hn _
    · exact Array.size_modify
    · rw [Array.getElem?_modify, if_pos rfl, hn]
      rfl
  · rw [List.concat_eq_append] at h hnew hnd ⊢
    obtain ⟨k, hl, hr⟩ := links_append.mp h
    obtain ⟨m, hl', rfl, k', hb, rfl⟩ := links_append.mp hl
    rw [List.map_append, List.mem_append, not_or] at hnew
    rw [List.map_append, List.nodup_append] at hnd
    have hbl : b.slot ∉ l.map (·.slot) := by
      have hd := hnd.1
      rw [List.map_append, List.nodup_append] at hd
      intro hm
      exact hd.2.2 _ hm _ (List.mem_map_of_mem (List.mem_singleton_self b)) rfl
    have hbr : b.slot ∉ r.map (·.slot) := by
      intro hm
      exact hnd.2.2 _ (List.mem_map_of_mem (by simp)) _ hm rfl
    have hpb : b.slot ≠ p.slot := by
      intro he
      exact hnew.1 (he ▸ List.mem_map_of_mem (by simp))
    let f : EventNode → EventNode := fun node => { node with next := k' }
    let g : EventNode → EventNode := fun node => { node with next := some p.slot }
    have hb' : (a.nodes.modify p.slot f)[b.slot]? = some ⟨b.event, b.cycle, k'⟩ := by
      rw [Array.getElem?_modify, if_neg (Ne.symm hpb), hb]
    refine ⟨(a.nodes.modify p.slot f).modify b.slot g, a.head, ?_, ?_, ?_⟩
    · rw [List.getLast?_append, List.getLast?_singleton]
      unfold EventArena.link
      simp only [Option.some_or, Option.map_some, Option.bind_eq_bind, hb, Option.bind_some]
      rw [modify?_of_some hn]
      exact modify?_of_some (a := { a with nodes := a.nodes.modify p.slot f }) hb' g
    · rw [Array.size_modify, Array.size_modify]
    · apply links_append.mpr
      refine ⟨some p.slot, ?_, rfl, k', ?_, ?_⟩
      · exact (hl.modify_other hnew.1).redirect hbl (some p.slot)
      · rw [Array.getElem?_modify, if_neg hpb, Array.getElem?_modify, if_pos rfl, hn]
        rfl
      · exact (hr.modify_other hnew.2).modify_other hbr

/-- A node is taken off the chain. -/
theorem Links.unlink (h : Links a.nodes a.head (l ++ p :: r) none)
    (hnd : ((l ++ p :: r).map (·.slot)).Nodup) :
    ∃ nodes head, a.unlink (l.getLast?.map (·.slot)) p.slot =
        some { a with head, nodes, free := p.slot :: a.free } ∧
      nodes.size = a.nodes.size ∧ Links nodes head (l ++ r) none := by
  obtain ⟨k, hl, rfl, next, hp, hr⟩ := links_append.mp h
  rw [List.map_append, List.map_cons, List.nodup_append, List.nodup_cons] at hnd
  obtain ⟨hndl, ⟨hpr, -⟩, hdis⟩ := hnd
  have hpl : p.slot ∉ l.map (·.slot) := fun hm => hdis _ hm _ (.head _) rfl
  rcases List.eq_nil_or_concat l with rfl | ⟨l, b, rfl⟩
  · refine ⟨a.nodes.modify p.slot fun _ => .blank, next, ?_, Array.size_modify,
      hr.modify_other hpr⟩
    unfold EventArena.unlink
    simp only [Option.bind_eq_bind, hp, Option.bind_some]
    change ((EventArena.modify? { a with head := next } p.slot _).bind _) = _
    rw [modify?_of_some (a := { a with head := next }) hp]
    rfl
  · rw [List.concat_eq_append] at hl hndl hpl hdis ⊢
    have hbl : b.slot ∉ l.map (·.slot) := by
      rw [List.map_append, List.nodup_append] at hndl
      intro hm
      exact hndl.2.2 _ hm _ (List.mem_map_of_mem (List.mem_singleton_self b)) rfl
    have hbp : b.slot ≠ p.slot := fun he => hpl (he ▸ List.mem_map_of_mem (by simp))
    have hbr : b.slot ∉ r.map (·.slot) := by
      intro hm
      exact hdis _ (List.mem_map_of_mem (by simp)) _ (.tail _ hm) rfl
    obtain ⟨m, -, rfl, k', hb, -⟩ := links_append.mp hl
    let g : EventNode → EventNode := fun before => { before with next := next }
    have hp' : (a.nodes.modify b.slot g)[p.slot]? = some ⟨p.event, p.cycle, next⟩ := by
      rw [Array.getElem?_modify, if_neg hbp, hp]
    refine ⟨(a.nodes.modify b.slot g).modify p.slot fun _ => .blank, a.head, ?_, ?_, ?_⟩
    · rw [List.getLast?_append, List.getLast?_singleton]
      unfold EventArena.unlink
      simp only [Option.some_or, Option.map_some, Option.bind_eq_bind, hp, Option.bind_some]
      rw [modify?_of_some hb]
      change ((EventArena.modify? { a with nodes := a.nodes.modify b.slot g } p.slot _).bind _) = _
      rw [modify?_of_some (a := { a with nodes := a.nodes.modify b.slot g }) hp']
      rfl
    · rw [Array.size_modify, Array.size_modify]
    · apply links_append.mpr
      refine ⟨next, ?_, ?_⟩
      · exact (hl.redirect hbl next).modify_other hpl
      · exact (hr.modify_other hbr).modify_other hpr

/-- All events from a node on are moved. -/
theorem shiftFrom_links (d : UInt32) {fuel : Nat} {i : Option Nat} {ps : List Pending}
    (h : Links a.nodes i ps none) (hnd : (ps.map (·.slot)).Nodup) (hf : ps.length ≤ fuel) :
    ∃ nodes, shiftFrom d fuel i a = some { a with nodes } ∧ nodes.size = a.nodes.size ∧
      Links nodes i (ps.map fun p => { p with cycle := p.cycle + d }) none ∧
      ∀ n ∉ ps.map (·.slot), nodes[n]? = a.nodes[n]? := by
  induction ps generalizing a fuel i with
  | nil =>
    obtain rfl : i = none := h
    refine ⟨a.nodes, ?_, rfl, rfl, fun _ _ => rfl⟩
    cases fuel <;> rfl
  | cons p ps ih =>
    obtain ⟨rfl, next, hp, hps⟩ := h
    obtain ⟨hpp, hnd⟩ := List.nodup_cons.mp hnd
    cases fuel with
    | zero => cases hf
    | succ fuel =>
      let f : EventNode → EventNode := fun node => { node with cycle := node.cycle + d }
      obtain ⟨nodes, hs, hsize, hlinks, hkeep⟩ :=
        ih (a := { a with nodes := a.nodes.modify p.slot f }) (hps.modify_other hpp) hnd
          (Nat.le_of_succ_le_succ hf)
      refine ⟨nodes, ?_, hsize.trans Array.size_modify, ⟨rfl, next, ?_, hlinks⟩, ?_⟩
      · unfold shiftFrom
        simp only [Option.bind_eq_bind, hp, Option.bind_some]
        rw [modify?_of_some hp]
        exact hs
      · rw [hkeep p.slot hpp]
        change (a.nodes.modify p.slot f)[p.slot]? = _
        rw [Array.getElem?_modify, if_pos rfl, hp]
        rfl
      · intro n hn
        rw [List.map_cons, List.mem_cons, not_or] at hn
        rw [hkeep n hn.2]
        change (a.nodes.modify p.slot f)[n]? = _
        rw [Array.getElem?_modify, if_neg (Ne.symm hn.1)]

end Nodes

namespace Holds

variable {a : EventArena} {q : EventQueue}

theorem find? (h : Holds a q) (hq : q.pending.length ≤ q.capacity) (wanted : Pending → Bool) :
    ∃ l r, q.pending = l ++ r ∧ Split wanted l r ∧
      a.find? wanted = some (l.getLast?.map (·.slot), r.head?.map (·.slot)) := by
  have hf : q.pending.length ≤ a.nodes.size := h.size ▸ hq
  obtain ⟨l, r, hp, hs, hseek⟩ := @seek_links a wanted _ none _ _ h.chain hf
  refine ⟨l, r, hp, hs, ?_⟩
  rw [Option.or_none] at hseek
  exact hseek

theorem create (capacity : Int) : Holds (.create capacity) (.create capacity) where
  chain := rfl
  size := Array.size_replicate
  free := rfl
  specialDone := rfl
  duplicates := rfl

theorem clear (h : Holds a q) : Holds a.clear q.clear where
  chain := rfl
  size := h.size
  free := congrArg List.range h.size
  specialDone := rfl
  duplicates := h.duplicates

theorem setSpecialDone (h : Holds a q) (done : Bool) :
    Holds { a with specialDone := done } { q with specialDone := done } :=
  { h with specialDone := rfl }

theorem place? (h : Holds a q) (hq : q.pending.length ≤ q.capacity) (now : UInt32) (p : Pending) :
    ∃ l r, q.pending = l ++ r ∧
      a.place? now p.event p.cycle = some (l.getLast?.map (·.slot)) ∧
      EventQueue.insert q.specialDone now p q.pending = l ++ p :: r := by
  unfold EventArena.place? EventQueue.insert
  rw [h.specialDone]
  by_cases hs : (decide (p.event = .special) && !q.specialDone) = true
  · refine ⟨[], q.pending, rfl, if_pos hs, if_pos hs⟩
  · obtain ⟨l, r, hp, hsplit, hfind⟩ := h.find? hq (before q.specialDone now p.cycle)
    refine ⟨l, r, hp, ?_, ?_⟩
    · rw [if_neg hs, hfind]
      rfl
    · rw [if_neg hs, hp]
      exact hsplit.insertBehind

theorem schedule (h : Holds a q) (hq : Partitioned q) (now : UInt32) (e : Event) (cycle : UInt32) :
    ∃ a', a.schedule now e cycle = some ((q.schedule now e cycle).1, a') ∧
      Holds a' (q.schedule now e cycle).2 := by
  obtain ⟨l, r, hp, hsplit, hfind⟩ := h.find? hq.length_le (·.event == e)
  have hfound : (q.pendingAt? e).isSome = (r.head?.map (·.slot)).isSome := by
    rw [pendingAt?, hp, hsplit.find?, Option.isSome_map, Option.isSome_map]
  unfold EventArena.schedule EventQueue.schedule
  simp only [Option.bind_eq_bind, hfind, Option.bind_some, hfound]
  by_cases hdup : (r.head?.map (·.slot)).isSome = true
  · rw [if_pos hdup, if_pos hdup, h.duplicates]
    exact ⟨_, rfl, { h with duplicates := rfl }⟩
  · rw [if_neg hdup, if_neg hdup, h.free]
    cases hfree : q.free with
    | nil => exact ⟨a, rfl, h⟩
    | cons slot free =>
      have hnodup := hq.nodup
      rw [hfree, List.nodup_append] at hnodup
      have hslot : slot ∉ q.pending.map (·.slot) :=
        fun hm => hnodup.2.2 _ hm _ (.head _) rfl
      have hlt : slot < a.nodes.size := by
        rw [h.size]
        apply hq.slot_lt
        rw [hfree]
        exact List.mem_append_right _ (.head _)
      -- The node is written before the place of the event is looked for.
      let b : EventArena := { a with free, nodes := a.nodes.modify slot fun _ => ⟨e, cycle, none⟩ }
      have hmodify : EventArena.modify? { a with free } slot (fun _ => ⟨e, cycle, none⟩) = some b :=
        if_pos hlt
      have hchain : Links b.nodes b.head q.pending none :=
        h.chain.modify_other (f := fun _ => ⟨e, cycle, none⟩) hslot
      have hb : Holds b { q with free } :=
        { h with
          chain := hchain
          size := Array.size_modify.trans h.size
          free := rfl }
      have hnode : b.nodes[slot]? = some ⟨e, cycle, none⟩ := by
        change (a.nodes.modify slot _)[slot]? = _
        rw [Array.getElem?_modify, if_pos rfl, Array.getElem?_eq_getElem hlt]
        rfl
      obtain ⟨l, r, hp, hplace, hinsert⟩ := hb.place? hq.length_le now ⟨slot, e, cycle⟩
      change q.pending = l ++ r at hp
      change EventQueue.insert q.specialDone now ⟨slot, e, cycle⟩ q.pending = _ at hinsert
      rw [hp] at hchain
      obtain ⟨nodes, head, hlink, hsize, hlinks⟩ := hchain.link (p := ⟨slot, e, cycle⟩) hnode
        (hp ▸ hslot) (hp ▸ hq.nodup_slots)
      rw [← hinsert] at hlinks
      refine ⟨{ b with head, nodes }, ?_, ?_⟩
      · simp only [hmodify, Option.bind_some, hplace, hlink]
        rfl
      · exact { hb with
          chain := hlinks
          size := hsize.trans hb.size }

theorem unlink {l r : List Pending} {p : Pending} (h : Holds a q) (hq : Partitioned q)
    (hp : q.pending = l ++ p :: r) :
    ∃ a', a.unlink (l.getLast?.map (·.slot)) p.slot = some a' ∧
      Holds a' { q with pending := l ++ r, free := p.slot :: q.free } := by
  obtain ⟨nodes, head, hunlink, hsize, hlinks⟩ :=
    Links.unlink (a := a) (hp ▸ h.chain) (hp ▸ hq.nodup_slots)
  refine ⟨_, hunlink, ?_⟩
  exact { h with
    chain := hlinks
    size := hsize.trans h.size
    free := congrArg (p.slot :: ·) h.free }

theorem cancel (h : Holds a q) (hq : Partitioned q) (e : Event) :
    ∃ a', a.cancel e = some ((q.cancel e).1, a') ∧ Holds a' (q.cancel e).2 := by
  obtain ⟨l, r, hp, hsplit, hfind⟩ := h.find? hq.length_le (·.event == e)
  have hfirst : q.pending.find? (·.event == e) = r.head? := by rw [hp, hsplit.find?]
  unfold EventArena.cancel EventQueue.cancel
  simp only [Option.bind_eq_bind, hfind, Option.bind_some, hfirst]
  cases r with
  | nil => exact ⟨a, rfl, h⟩
  | cons p r =>
    obtain ⟨a', hunlink, ha'⟩ := h.unlink hq hp
    have herase : q.pending.eraseP (·.event == e) = l ++ r := by rw [hp, hsplit.eraseP]; rfl
    refine ⟨a', ?_, ?_⟩
    · simp only [List.head?_cons, Option.map_some, hunlink]
      rfl
    · simp only [List.head?_cons, herase]
      exact ha'

theorem shift (h : Holds a q) (hq : Partitioned q) (d : UInt32) :
    ∃ a', a.shift d = some a' ∧ Holds a' (q.shift d) := by
  obtain ⟨nodes, hshift, hsize, hlinks, -⟩ :=
    shiftFrom_links d h.chain hq.nodup_slots (h.size ▸ hq.length_le)
  refine ⟨_, hshift, ?_⟩
  exact { h with
    chain := hlinks
    size := hsize.trans h.size }

theorem popDue (h : Holds a q) (hq : Partitioned q) (now : UInt32) :
    (q.popDue? now = none ∧ a.popDue now = some (none, a)) ∨
    ∃ e q' a', q.popDue? now = some (e, q') ∧ a.popDue now = some (some e, a') ∧ Holds a' q' := by
  unfold EventArena.popDue EventQueue.popDue?
  rw [h.chain.head]
  cases hp : q.pending with
  | nil => exact .inl ⟨rfl, rfl⟩
  | cons p rest =>
    have hchain := h.chain
    rw [hp] at hchain
    obtain ⟨-, next, hn, -⟩ := hchain
    simp only [List.head?_cons, Option.map_some, Option.bind_eq_bind, hn, Option.bind_some]
    by_cases hdue : isDue now p.cycle = true
    · obtain ⟨a', hunlink, ha'⟩ := h.unlink (l := []) hq hp
      rw [if_pos hdue, if_pos hdue]
      refine .inr ⟨p.event, _, a', rfl, ?_, ha'⟩
      change ((a.unlink none p.slot).bind fun a => some (some p.event, a)) = _
      rw [show a.unlink none p.slot = some a' from hunlink]
      rfl
    · rw [if_neg hdue, if_neg hdue]
      exact .inl ⟨rfl, rfl⟩

theorem loadMore (h : Holds a q) (hq : Partitioned q) (now : UInt32) (log : List LogRecord)
    (bytes : List UInt8) : ∃ a', a.loadMore now bytes =
      some (a', (q.loadMore now log bytes).error) ∧ Holds a' (q.loadMore now log bytes).queue := by
  revert a hq
  fun_induction EventQueue.loadMore now q log bytes with
  | case1 =>
    rename_i he
    intro a h hq
    refine ⟨a, ?_, h⟩
    unfold EventArena.loadMore
    exact if_pos he
  | case2 =>
    rename_i e he c₀ c₁ c₂ c₃ rest cycle outcome q' hs ih
    intro a h hq
    obtain ⟨a₁, hs₁, ha₁⟩ := h.schedule hq now e cycle
    have hq' := hq.schedule now e cycle
    rw [hs] at ha₁ hq'
    obtain ⟨a', hload, ha'⟩ := ih ha₁ hq'
    refine ⟨a', ?_, ha'⟩
    unfold EventArena.loadMore
    refine (if_neg he).trans ?_
    dsimp only
    rw [hs₁]
    exact hload
  | case3 =>
    rename_i he hrest
    intro a h hq
    refine ⟨a, ?_, h⟩
    unfold EventArena.loadMore
    refine (if_neg he).trans ?_
    split
    · rename_i c₀ c₁ c₂ c₃ rest'
      exact absurd rfl (hrest c₀ c₁ c₂ c₃ rest')
    · rfl
  | case4 =>
    rename_i hbytes
    intro a h hq
    refine ⟨a, ?_, h⟩
    unfold EventArena.loadMore
    split
    · rename_i b₀ b₁ b₂ b₃ rest
      exact absurd rfl (hbytes b₀ b₁ b₂ b₃ rest)
    · rfl

end Holds

end EventArena

/-- An operation on a queue, with what the clock reads at the time. -/
inductive QueueStep where
  | schedule (now : UInt32) (e : Event) (cycle : UInt32)
  | scheduleAfter (now : UInt32) (e : Event) (delay : UInt32)
  | cancel (e : Event)
  | shift (d : UInt32)
  | clear
  | setSpecialDone (done : Bool)
  | load (now : UInt32) (bytes : List UInt8)
  /-- Removes the event at the head if it is due. The operations of its handler are the next
  steps. -/
  | check (now : UInt32)

namespace EventQueue

def step (q : EventQueue) : QueueStep → EventQueue
  | .schedule now e cycle => (q.schedule now e cycle).2
  | .scheduleAfter now e delay => (q.schedule now e (now + delay)).2
  | .cancel e => (q.cancel e).2
  | .shift d => q.shift d
  | .clear => q.clear
  | .setSpecialDone done => { q with specialDone := done }
  | .load now bytes => (q.load now bytes).queue
  | .check now => (q.popDue? now).elim q Prod.snd

def run (q : EventQueue) (steps : List QueueStep) : EventQueue := steps.foldl step q

theorem step_check (q : EventQueue) (now : UInt32) :
    q.step (.check now) = (q.popDue? now).elim q Prod.snd := rfl

theorem run_append (q : EventQueue) (steps more : List QueueStep) :
    q.run (steps ++ more) = (q.run steps).run more := List.foldl_append

theorem capacity_schedule (q : EventQueue) (now : UInt32) (e : Event) (cycle : UInt32) :
    (q.schedule now e cycle).2.capacity = q.capacity := by
  unfold EventQueue.schedule
  split
  · rfl
  · split <;> rfl

theorem capacity_loadMore (q : EventQueue) (now : UInt32) (log : List LogRecord)
    (bytes : List UInt8) : (q.loadMore now log bytes).queue.capacity = q.capacity := by
  fun_induction EventQueue.loadMore now q log bytes with
  | case1 => rfl
  | case2 q log a b c d e he a' b' c' d' rest cycle outcome q' hs ih =>
    have hq := capacity_schedule q now e cycle
    rw [hs] at hq
    exact ih.trans hq
  | case3 => rfl
  | case4 => rfl

theorem capacity_step (q : EventQueue) (s : QueueStep) : (q.step s).capacity = q.capacity := by
  cases s with
  | schedule now e cycle => exact capacity_schedule q now e cycle
  | scheduleAfter now e delay => exact capacity_schedule q now e (now + delay)
  | cancel e =>
    change (q.cancel e).2.capacity = _
    unfold EventQueue.cancel
    split <;> rfl
  | shift | clear | setSpecialDone => rfl
  | load now bytes => exact capacity_loadMore q.clear now [] bytes
  | check now =>
    rw [step_check]
    cases he : q.popDue? now with
    | none => rfl
    | some x =>
      obtain ⟨p, rest, -, -, -, hx⟩ := popDue?_some he
      rw [Option.elim_some, hx]

theorem capacity_run (q : EventQueue) (steps : List QueueStep) :
    (q.run steps).capacity = q.capacity := by
  induction steps generalizing q with
  | nil => rfl
  | cons s steps ih => exact (ih (q.step s)).trans (capacity_step q s)

theorem Partitioned.step {q : EventQueue} (h : Partitioned q) (s : QueueStep) :
    Partitioned (q.step s) := by
  cases s with
  | schedule now e cycle => exact h.schedule now e cycle
  | scheduleAfter now e delay => exact h.schedule now e (now + delay)
  | cancel e => exact h.cancel e
  | shift d => exact h.shift d
  | clear => exact .clear q
  | setSpecialDone done => exact h.setSpecialDone done
  | load now bytes => exact (Partitioned.clear q).loadMore now [] bytes
  | check now =>
    rw [step_check]
    cases he : q.popDue? now with
    | none => exact h
    | some x => exact h.pop he

theorem Partitioned.run {q : EventQueue} (h : Partitioned q) (steps : List QueueStep) :
    Partitioned (q.run steps) := by
  induction steps generalizing q with
  | nil => exact h
  | cons s steps ih => exact ih (h.step s)

end EventQueue

namespace EventArena

def step (a : EventArena) : QueueStep → Option EventArena
  | .schedule now e cycle => (a.schedule now e cycle).map Prod.snd
  | .scheduleAfter now e delay => (a.schedule now e (now + delay)).map Prod.snd
  | .cancel e => (a.cancel e).map Prod.snd
  | .shift d => a.shift d
  | .clear => some a.clear
  | .setSpecialDone done => some { a with specialDone := done }
  | .load now bytes => (a.load now bytes).map Prod.fst
  | .check now => (a.popDue now).map Prod.snd

def run (a : EventArena) : List QueueStep → Option EventArena
  | [] => some a
  | s :: steps => do (← a.step s).run steps

variable {a : EventArena} {q : EventQueue}

theorem Holds.step (h : Holds a q) (hq : Partitioned q) (s : QueueStep) :
    ∃ a', a.step s = some a' ∧ Holds a' (q.step s) := by
  cases s with
  | schedule now e cycle =>
    obtain ⟨a', hs, ha'⟩ := h.schedule hq now e cycle
    exact ⟨a', congrArg (Option.map Prod.snd) hs, ha'⟩
  | scheduleAfter now e delay =>
    obtain ⟨a', hs, ha'⟩ := h.schedule hq now e (now + delay)
    exact ⟨a', congrArg (Option.map Prod.snd) hs, ha'⟩
  | cancel e =>
    obtain ⟨a', hs, ha'⟩ := h.cancel hq e
    exact ⟨a', congrArg (Option.map Prod.snd) hs, ha'⟩
  | shift d => exact h.shift hq d
  | clear => exact ⟨a.clear, rfl, h.clear⟩
  | setSpecialDone done => exact ⟨_, rfl, h.setSpecialDone done⟩
  | load now bytes =>
    obtain ⟨a', hs, ha'⟩ := h.clear.loadMore (.clear q) now [] bytes
    exact ⟨a', congrArg (Option.map Prod.fst) hs, ha'⟩
  | check now =>
    rw [step_check]
    rcases h.popDue hq now with ⟨hnone, hs⟩ | ⟨e, q', a', hsome, hs, ha'⟩
    · rw [hnone]
      exact ⟨a, congrArg (Option.map Prod.snd) hs, h⟩
    · rw [hsome]
      exact ⟨a', congrArg (Option.map Prod.snd) hs, ha'⟩

theorem Holds.run (h : Holds a q) (hq : Partitioned q) (steps : List QueueStep) :
    ∃ a', a.run steps = some a' ∧ Holds a' (q.run steps) := by
  induction steps generalizing a q with
  | nil => exact ⟨a, rfl, h⟩
  | cons s steps ih =>
    obtain ⟨a₁, hs, h₁⟩ := h.step hq s
    obtain ⟨a', hrun, h'⟩ := ih h₁ (hq.step s)
    refine ⟨a', ?_, h'⟩
    unfold EventArena.run
    rw [hs]
    exact hrun

end EventArena

namespace QueueState

/-- The steps that a command is. -/
def stepsOf (now : UInt32) : QueueCommand → List QueueStep
  | .schedule e cycle => [.schedule now e cycle]
  | .scheduleAfter e delay => [.scheduleAfter now e delay]
  | .cancel e => [.cancel e]
  | .shift d => [.shift d]
  | .clear => [.clear]
  | .setSpecialDone done => [.setSpecialDone done]
  | .pending _ | .next | .size => []

theorem queue_run (s : QueueState) (c : QueueCommand) :
    (s.run c).2.queue = s.queue.run (stepsOf s.now c) := by
  cases c <;> rfl

theorem queue_runAll (s : QueueState) (cs : List QueueCommand) :
    (s.runAll cs).2.queue = s.queue.run (cs.flatMap (stepsOf s.now)) := by
  induction cs generalizing s with
  | nil => rfl
  | cons c cs ih =>
    have hnow : (s.run c).2.now = s.now := Reachable.now_run s c
    change ((s.run c).2.runAll cs).2.queue = _
    rw [ih, hnow, queue_run, List.flatMap_cons, run_append]

theorem queue_dispatch (s : QueueState) (handler : Event → Option (List QueueCommand))
    (now : UInt32) : ∃ steps, (s.dispatch handler now).2.queue =
      s.queue.run (.check now :: steps) := by
  have hcheck := step_check s.queue now
  unfold QueueState.dispatch
  cases hp : s.queue.popDue? now with
  | none =>
    rw [hp] at hcheck
    exact ⟨[], hcheck.symm⟩
  | some x =>
    rw [hp] at hcheck
    dsimp only
    cases handler x.1 with
    | none => exact ⟨[], hcheck.symm⟩
    | some cs =>
      refine ⟨cs.flatMap (stepsOf s.now), ?_⟩
      change (({ s with queue := x.2 } : QueueState).runAll cs).2.queue =
        (s.queue.step (.check now)).run _
      rw [hcheck, queue_runAll]
      rfl

end QueueState

/-- Whatever is done with an arena, it holds a queue: the chain of nodes ends, the nodes on it and
those on the stack are all nodes, each once, and what waits in the chain are the pending events of
the queue that the same steps lead to, of each kind one. A dispatch is such steps, whatever its
handler does. -/
theorem EventArena.partition_of_run (capacity : Int) (steps : List QueueStep) :
    ∃ a ps, (EventArena.create capacity).run steps = some a ∧
      Links a.nodes a.head ps none ∧ (ps.map (·.slot)).Nodup ∧
      (ps.map (·.slot) ++ a.free).Perm (List.range a.nodes.size) ∧ (ps.map (·.event)).Nodup ∧
      a.size = ps.length ∧ a.size ≤ a.nodes.size ∧
      a.nodes.size = (EventArena.create capacity).nodes.size ∧
      ps = ((EventQueue.create capacity).run steps).pending ∧
      ∀ clock log handler now, ∃ more,
        (QueueState.dispatch ⟨(EventQueue.create capacity).run steps, clock, log⟩ handler
            now).2.queue =
          (EventQueue.create capacity).run (steps ++ .check now :: more) := by
  obtain ⟨a, hrun, ha⟩ := (Holds.create capacity).run (.create capacity) steps
  have hq := (Partitioned.create capacity).run steps
  have hslots := hq.slots
  rw [← ha.size, ← ha.free] at hslots
  have hlength := hq.length_add
  rw [← ha.size, ← ha.free] at hlength
  have hsize : a.size = (((EventQueue.create capacity).run steps).pending.length : Int) := by
    unfold EventArena.size
    omega
  refine ⟨a, _, hrun, ha.chain, hq.nodup_slots, hslots, hq.distinct, hsize, ?_, ?_, rfl, ?_⟩
  · rw [hsize, ha.size]
    exact Int.ofNat_le.mpr hq.length_le
  · rw [ha.size, capacity_run]
    exact (Holds.create capacity).size.symm
  · intro clock log handler now
    obtain ⟨more, hm⟩ := QueueState.queue_dispatch ⟨_, clock, log⟩ handler now
    exact ⟨more, hm.trans (run_append _ steps _).symm⟩

end Recompiler
