import Recompiler.Ir.Nodes
import Recompiler.Proofs.BuilderLabels
import Recompiler.Proofs.Ledgers

/-!
Lists of nodes in memory, and what the passes over them do.
-/

namespace Recompiler.Ir

theorem Instr.mapTarget_of_target?_none {L : Type} {f : L → L} {i : Instr L}
    (h : i.target? = none) : i.mapTarget f = i := by
  have hid : i.mapTarget f = i.mapTarget id := by
    apply Instr.mapTarget_congr
    intro l hl
    rw [h] at hl
    cases hl
  rw [hid, Instr.mapTarget_id]

namespace Heap

variable {h g : Heap} {a b z : Nat} {n : Node}

@[simp]
theorem size_set : (h.set a n).nodes.size = h.nodes.size := Array.size_setIfInBounds

@[simp]
theorem pool_set : (h.set a n).pool = h.pool := rfl

theorem node_set_self (ha : a < h.nodes.size) : (h.set a n).node a = n := by
  simp [node, set, ha]

theorem node_set_of_ne (hb : b ≠ a) : (h.set a n).node b = h.node b := by
  simp [node, set, hb.symm]

def Unused (h : Heap) (a : Nat) : Prop := a ∈ h.pool ∨ h.nodes.size ≤ a

@[simp]
theorem unused_set : (h.set a n).Unused b ↔ h.Unused b := by
  simp [Unused]

theorem lt_of_used (ha : ¬ h.Unused a) : a < h.nodes.size :=
  Nat.lt_of_not_le fun hle => ha (.inr hle)

/-- No number of a node is 0, and the nodes that were given back are there once. -/
structure Sound (h : Heap) : Prop where
  zero : h.node 0 = .blank
  zero_used : ¬ h.Unused 0
  nodup : h.pool.Nodup
  lt : ∀ a ∈ h.pool, a < h.nodes.size

theorem sound_empty : Sound empty where
  zero := rfl
  zero_used := by simp [Unused, empty]
  nodup := .nil
  lt := by simp [empty]

/-- Nodes in use stay in use and hold the same. -/
structure Keeps (h g : Heap) : Prop where
  node : ∀ a, ¬ h.Unused a → g.node a = h.node a
  unused : ∀ a, g.Unused a → h.Unused a

namespace Keeps

theorem refl (h : Heap) : h.Keeps h := ⟨fun _ _ => rfl, fun _ => id⟩

theorem trans {k : Heap} (hg : h.Keeps g) (hk : g.Keeps k) : h.Keeps k where
  node a ha := (hk.node a fun hu => ha (hg.unused a hu)).trans (hg.node a ha)
  unused a ha := hg.unused a (hk.unused a ha)

theorem set (hg : h.Keeps g) (ha : h.Unused a) (n : Node) : h.Keeps (g.set a n) where
  node b hb := by
    have hne : b ≠ a := fun he => hb (he ▸ ha)
    rw [node_set_of_ne hne, hg.node b hb]
  unused b hb := hg.unused b (unused_set.mp hb)

end Keeps

theorem Sound.set (hs : h.Sound) (ha : a ≠ 0) (n : Node) : (h.set a n).Sound where
  zero := (node_set_of_ne ha.symm).trans hs.zero
  zero_used hu := hs.zero_used (unused_set.mp hu)
  nodup := hs.nodup
  lt b hb := by
    rw [size_set]
    exact hs.lt b hb

/-- A node was taken for an instruction. -/
structure Takes (h : Heap) (instr : Option (Instr Nat)) (a : Nat) (g : Heap) : Prop where
  sound : g.Sound
  keeps : h.Keeps g
  ne_zero : a ≠ 0
  unused : h.Unused a
  used : ¬ g.Unused a
  node : g.node a = ⟨instr, 0⟩
  others : ∀ b ≠ a, g.node b = h.node b

theorem takes_alloc (hs : h.Sound) (instr : Option (Instr Nat)) :
    Takes h instr (h.alloc instr).1 (h.alloc instr).2 := by
  obtain ⟨nodes, pool⟩ := h
  cases pool with
  | nil =>
    have hsize : nodes.size ≠ 0 := fun h0 => hs.zero_used (.inr (Nat.le_of_eq h0))
    have hother (b : Nat) (hb : b ≠ nodes.size) :
        (Heap.node ⟨nodes.push ⟨instr, 0⟩, []⟩ b) = Heap.node ⟨nodes, []⟩ b := by
      simp [Heap.node, Array.getElem?_push, hb]
    have hunused (b : Nat) (hb : Unused ⟨nodes.push ⟨instr, 0⟩, []⟩ b) : Unused ⟨nodes, []⟩ b := by
      simp only [Unused, List.not_mem_nil, Array.size_push, false_or] at hb ⊢
      omega
    exact {
      sound := ⟨(hother 0 hsize.symm).trans hs.zero, fun h0 => hs.zero_used (hunused 0 h0), .nil,
        fun b hb => absurd hb List.not_mem_nil⟩
      keeps := ⟨fun b hb => hother b fun he => hb (.inr (Nat.le_of_eq he.symm)), hunused⟩
      ne_zero := hsize
      unused := .inr (Nat.le_refl _)
      used := by simp [Unused, alloc]
      node := by simp [Heap.node, alloc]
      others := hother }
  | cons p pool =>
    have hp : p ≠ 0 := fun h0 => hs.zero_used (.inl (h0 ▸ List.mem_cons_self))
    have hlt : p < nodes.size := hs.lt p List.mem_cons_self
    have hnodup : p ∉ pool ∧ pool.Nodup := List.nodup_cons.mp hs.nodup
    have hother (b : Nat) (hb : b ≠ p) :
        (Heap.set ⟨nodes, pool⟩ p ⟨instr, 0⟩).node b = Heap.node ⟨nodes, p :: pool⟩ b :=
      node_set_of_ne hb
    have hunused (b : Nat) (hb : (Heap.set ⟨nodes, pool⟩ p ⟨instr, 0⟩).Unused b) :
        Unused ⟨nodes, p :: pool⟩ b := (unused_set.mp hb).imp_left (List.mem_cons_of_mem _)
    exact {
      sound := ⟨(hother 0 hp.symm).trans hs.zero, fun h0 => hs.zero_used (hunused 0 h0), hnodup.2,
        fun b hb => by
          rw [alloc, size_set]
          exact hs.lt b (List.mem_cons_of_mem _ hb)⟩
      keeps := ⟨fun b hb => hother b fun he => hb (.inl (he ▸ List.mem_cons_self)), hunused⟩
      ne_zero := hp
      unused := .inl List.mem_cons_self
      used := fun hu => (unused_set.mp hu).elim hnodup.1 (Nat.not_le.mpr hlt)
      node := node_set_self hlt
      others := hother }

def first {β : Type} : List (Nat × β) → Nat → Nat
  | [], z => z
  | x :: _, _ => x.1

/-- The nodes hold these instructions, one after the other, and the last of them leads to `z`. -/
def Chain (h : Heap) : List (Nat × Option (Instr Nat)) → Nat → Prop
  | [], _ => True
  | x :: xs, z => h.node x.1 = ⟨x.2, first xs z⟩ ∧ Chain h xs z

/-- The nodes are different, and in use. -/
structure Used (h : Heap) (as : List Nat) : Prop where
  nodup : as.Nodup
  ne_zero : 0 ∉ as
  used : ∀ a ∈ as, ¬ h.Unused a

section Lists

variable {β : Type} {xs ys : List (Nat × Option (Instr Nat))} {x : Nat × Option (Instr Nat)}
  {as bs : List Nat}

theorem first_map {γ : Type} (f : Nat × β → γ) (l : List (Nat × β)) (z : Nat) :
    first (l.map fun x => (x.1, f x)) z = first l z := by
  cases l <;> rfl

theorem first_eq (l : List (Nat × β)) (z : Nat) : first l z = (l.map (·.1)).headD z := by
  cases l <;> rfl

theorem filter_cons_some {γ : Type} {x : β × Option γ} (hx : x.2.isSome = true)
    (l : List (β × Option γ)) : (x :: l).filter (·.2.isSome) = x :: l.filter (·.2.isSome) :=
  List.filter_cons_of_pos hx

theorem filter_cons_none {γ : Type} {x : β × Option γ} (hx : x.2 = none)
    (l : List (β × Option γ)) : (x :: l).filter (·.2.isSome) = l.filter (·.2.isSome) :=
  List.filter_cons_of_neg (by simp [hx])

theorem filter_of_nops {γ : Type} {nops : List (β × Option γ)} (hn : ∀ x ∈ nops, x.2 = none) :
    nops.filter (·.2.isSome) = [] ∧ nops.filter (·.2.isNone) = nops := by
  constructor
  · apply List.filter_eq_nil_iff.mpr
    intro x hx
    simp [hn x hx]
  · apply List.filter_eq_self.mpr
    intro x hx
    simp [hn x hx]

theorem exists_nops {γ : Type} (l : List (β × Option γ)) : ∃ nops rest, l = nops ++ rest ∧
    (∀ y ∈ nops, y.2 = none) ∧ ∀ y ∈ rest.head?, y.2.isSome = true := by
  induction l with
  | nil => exact ⟨[], [], rfl, fun _ hy => absurd hy List.not_mem_nil, fun _ hy => by cases hy⟩
  | cons x l ih =>
    cases hx : x.2 with
    | none =>
      obtain ⟨nops, rest, rfl, hn, hr⟩ := ih
      refine ⟨x :: nops, rest, rfl, ?_, hr⟩
      intro y hy
      rcases List.mem_cons.mp hy with rfl | hy
      · exact hx
      · exact hn y hy
    | some i =>
      refine ⟨[], x :: l, rfl, fun _ hy => absurd hy List.not_mem_nil, ?_⟩
      intro y hy
      cases hy
      rw [hx]
      rfl

theorem Used.tail (hu : h.Used (a :: as)) : h.Used as where
  nodup := hu.nodup.of_cons
  ne_zero h0 := hu.ne_zero (List.mem_cons_of_mem _ h0)
  used b hb := hu.used b (List.mem_cons_of_mem _ hb)

theorem Used.head_ne_zero (hu : h.Used (a :: as)) : a ≠ 0 :=
  fun h0 => hu.ne_zero (h0 ▸ List.mem_cons_self)

theorem Used.head_notMem (hu : h.Used (a :: as)) : a ∉ as := (List.nodup_cons.mp hu.nodup).1

theorem Used.head_lt (hu : h.Used (a :: as)) : a < h.nodes.size :=
  lt_of_used (hu.used a List.mem_cons_self)

theorem Used.sublist (hu : h.Used as) (hs : bs.Sublist as) : h.Used bs where
  nodup := hu.nodup.sublist hs
  ne_zero h0 := hu.ne_zero (hs.subset h0)
  used a ha := hu.used a (hs.subset ha)

theorem Used.mono (hu : h.Used as) (hg : ∀ a ∈ as, g.Unused a → h.Unused a) : g.Used as where
  nodup := hu.nodup
  ne_zero := hu.ne_zero
  used a ha hun := hu.used a ha (hg a ha hun)

/-- Nodes that are not given back stay in use. -/
theorem Used.keep (hu : h.Used as) (hp : ∀ a ∈ as, a ∈ g.pool → a ∈ h.pool)
    (hs : g.nodes.size = h.nodes.size) : g.Used as :=
  hu.mono fun a ha hun => hun.imp (hp a ha) fun hle => hs ▸ hle

theorem Used.concat (hu : h.Used as) (ha : a ∉ as) (hz : a ≠ 0) (hun : ¬ h.Unused a) :
    h.Used (as ++ [a]) where
  nodup := by
    rw [List.nodup_append]
    refine ⟨hu.nodup, List.nodup_singleton a, ?_⟩
    rintro x hx y hy rfl
    exact ha (List.mem_singleton.mp hy ▸ hx)
  ne_zero h0 := (List.mem_append.mp h0).elim hu.ne_zero fun h0 => hz (List.mem_singleton.mp h0).symm
  used x hx := by
    rcases List.mem_append.mp hx with hx | hx
    · exact hu.used x hx
    · rw [List.mem_singleton.mp hx]
      exact hun

theorem Chain.congr (hc : Chain h xs z) (hn : ∀ x ∈ xs, g.node x.1 = h.node x.1) :
    Chain g xs z := by
  induction xs with
  | nil => trivial
  | cons x xs ih =>
    exact ⟨(hn x List.mem_cons_self).trans hc.1,
      ih hc.2 fun y hy => hn y (List.mem_cons_of_mem _ hy)⟩

theorem Chain.congr_notMem (hc : Chain h xs z) (ha : a ∉ xs.map (·.1))
    (hn : ∀ b ≠ a, g.node b = h.node b) : Chain g xs z :=
  hc.congr fun _ hx => hn _ fun he => ha (he ▸ List.mem_map_of_mem hx)

theorem Chain.update {l : List (Nat × β)} {f f' : Nat × β → Option (Instr Nat)}
    (hc : Chain h (l.map fun x => (x.1, f x)) z)
    (hn : ∀ x ∈ l, ∀ next, h.node x.1 = ⟨f x, next⟩ → g.node x.1 = ⟨f' x, next⟩) :
    Chain g (l.map fun x => (x.1, f' x)) z := by
  induction l with
  | nil => trivial
  | cons x l ih =>
    refine ⟨?_, ih hc.2 fun y hy => hn y (List.mem_cons_of_mem _ hy)⟩
    rw [first_map]
    apply hn x List.mem_cons_self
    rw [hc.1, first_map]

theorem Chain.append (hx : Chain h xs (first ys z)) (hy : Chain h ys z) : Chain h (xs ++ ys) z := by
  induction xs with
  | nil => exact hy
  | cons x xs ih =>
    refine ⟨?_, ih hx.2⟩
    rw [hx.1]
    cases xs <;> rfl

theorem Chain.suffix (hc : Chain h (xs ++ ys) z) : Chain h ys z := by
  induction xs with
  | nil => exact hc
  | cons x xs ih => exact ih hc.2

theorem Chain.node_getLast? (hc : Chain h xs z) (hx : xs.getLast? = some x) :
    h.node x.1 = ⟨x.2, z⟩ := by
  obtain ⟨l, rfl⟩ := List.getLast?_eq_some_iff.mp hx
  exact hc.suffix.1

theorem Chain.node_getElem? (hc : Chain h xs z) {k : Nat} (hk : xs[k]? = some x) :
    h.node x.1 = ⟨x.2, first (xs.drop (k + 1)) z⟩ := by
  induction xs generalizing k with
  | nil => cases hk
  | cons y xs ih =>
    cases k with
    | zero =>
      cases hk
      exact hc.1
    | succ k => exact ih hc.2 hk

theorem Chain.redirect (hc : Chain h (xs ++ [x]) z) (hu : h.Used ((xs ++ [x]).map (·.1))) (t : Nat) :
    Chain (h.setNext x.1 t) (xs ++ [x]) t := by
  induction xs with
  | nil =>
    refine ⟨?_, trivial⟩
    rw [setNext, node_set_self hu.head_lt, hc.1]
    rfl
  | cons y xs ih =>
    have hne : y.1 ≠ x.1 := by
      intro he
      apply hu.head_notMem
      change y.1 ∈ (xs ++ [x]).map (·.1)
      rw [he]
      exact List.mem_map_of_mem List.mem_concat_self
    refine ⟨?_, ih hc.2 hu.tail⟩
    rw [setNext, node_set_of_ne hne]
    refine hc.1.trans ?_
    cases xs <;> rfl

end Lists

section Passes

variable {xs nops rest : List (Nat × Option (Instr Nat))} {x : Nat × Option (Instr Nat)}
  {as : List Nat}

theorem follow_chain (hc : Chain h xs 0) (hz : 0 ∉ xs.map (·.1)) :
    h.follow (first xs 0) = some (xs.map (·.1)) := by
  induction xs with
  | nil =>
    rw [first, follow]
    rfl
  | cons x xs ih =>
    obtain ⟨hx, hxs⟩ := List.mem_cons.not.mp hz |> not_or.mp
    rw [first, follow, if_neg (Ne.symm hx), hc.1, ih hc.2 hxs]
    rfl

/-- Where a jump to the first node of a list comes to: the first node with an instruction, or else
the last node. -/
theorem skip_chain (hc : Chain h (x :: xs) 0) (hz : 0 ∉ xs.map (·.1)) :
    h.skip x.1 = some (first ((x :: xs).filter (·.2.isSome)) ((x :: xs).getLast?.elim 0 (·.1))) := by
  induction xs generalizing x with
  | nil =>
    rw [skip, hc.1, if_neg fun hn => hn.1 rfl]
    cases hx : x.2 <;> simp [hx, first]
  | cons y ys ih =>
    obtain ⟨hy, hys⟩ := List.mem_cons.not.mp hz |> not_or.mp
    rw [skip, hc.1]
    cases hx : x.2 with
    | none =>
      rw [if_pos ⟨Ne.symm hy, rfl⟩, first, ih hc.2 hys, filter_cons_none hx]
      rfl
    | some i =>
      rw [if_neg (by simp), List.filter_cons_of_pos (by simp [hx])]
      rfl

theorem skip_of_alike {r : Nat} (hr : h.skip a = some r)
    (hn : ∀ b, (g.node b).next = (h.node b).next)
    (hi : ∀ b, (g.node b).instr.isNone = (h.node b).instr.isNone) : g.skip a = some r := by
  refine Heap.skip.partial_correctness h (fun a r => g.skip a = some r) ?_ a r hr
  intro skip ih a r hr
  rw [Heap.skip, hn a, hi a]
  split
  · rename_i hc
    rw [if_pos hc] at hr
    exact ih _ r hr
  · rename_i hc
    rw [if_neg hc] at hr
    exact hr

/-- Only nodes of the list were changed. -/
structure Within (as : List Nat) (h g : Heap) : Prop where
  pool : g.pool = h.pool
  size : g.nodes.size = h.nodes.size
  node : ∀ b, b ∉ as → g.node b = h.node b

theorem Within.unused (hw : Within as h g) : g.Unused b ↔ h.Unused b := by
  simp [Unused, hw.pool, hw.size]

theorem Within.sound (hw : Within as h g) (hs : h.Sound) (hz : 0 ∉ as) : g.Sound where
  zero := (hw.node 0 hz).trans hs.zero
  zero_used hu := hs.zero_used (hw.unused.mp hu)
  nodup := hw.pool ▸ hs.nodup
  lt a ha := hw.size ▸ hs.lt a (hw.pool ▸ ha)

theorem Within.keeps {h₀ : Heap} (hw : Within as h g) (hk : h₀.Keeps h)
    (hu : ∀ a ∈ as, h₀.Unused a) : h₀.Keeps g where
  node a ha := (hw.node a fun hm => ha (hu a hm)).trans (hk.node a ha)
  unused a ha := hk.unused a (hw.unused.mp ha)

theorem setTarget_alike (h : Heap) (a t b : Nat) :
    ((h.setTarget a t).node b).next = (h.node b).next ∧
      ((h.setTarget a t).node b).instr.isNone = (h.node b).instr.isNone := by
  by_cases hb : b = a
  · subst hb
    by_cases hlt : b < h.nodes.size
    · rw [setTarget, node_set_self hlt]
      exact ⟨rfl, by simp⟩
    · simp [setTarget, set, node, hlt]
  · rw [setTarget, node_set_of_ne hb]
    exact ⟨rfl, rfl⟩

/-- Jumps come to go where passing over nodes leads to. -/
theorem retarget_chain {f : Nat → Nat} (hc : Chain h xs 0) (hu : h.Used (xs.map (·.1)))
    (hf : ∀ x ∈ xs, ∀ t, x.2.bind Instr.target? = some t → h.skip t = some (f t)) :
    ∃ g, h.retarget (first xs 0) = some g ∧
      Chain g (xs.map fun x => (x.1, x.2.map (·.mapTarget f))) 0 ∧ Within (xs.map (·.1)) h g := by
  induction xs generalizing h with
  | nil =>
    refine ⟨h, ?_, trivial, rfl, rfl, fun _ _ => rfl⟩
    rw [first, retarget]
    rfl
  | cons x xs ih =>
    have hx : x.1 ∉ xs.map (·.1) := hu.head_notMem
    rw [first, retarget, if_neg hu.head_ne_zero, hc.1]
    dsimp only
    cases ht : x.2.bind Instr.target? with
    | none =>
      obtain ⟨g, hg, hchain, hw⟩ := ih hc.2 hu.tail fun y hy => hf y (List.mem_cons_of_mem _ hy)
      refine ⟨g, hg, ⟨?_, hchain⟩, hw.pool, hw.size, fun b hb => ?_⟩
      · rw [hw.node _ hx, hc.1, first_map]
        change (⟨x.2, _⟩ : Node) = ⟨x.2.map _, _⟩
        cases hi : x.2 with
        | none => rfl
        | some i =>
          rw [hi] at ht
          rw [Option.map_some, Instr.mapTarget_of_target?_none ht]
      · exact hw.node b fun hm => hb (List.mem_cons_of_mem _ hm)
    | some t =>
      dsimp only
      rw [hf x List.mem_cons_self t ht]
      have hother : ∀ b ≠ x.1, (h.setTarget x.1 (f t)).node b = h.node b := by
        intro b hb
        exact node_set_of_ne hb
      have htail : (h.setTarget x.1 (f t)).Used (xs.map (·.1)) :=
        hu.tail.mono fun a _ ha => unused_set.mp ha
      obtain ⟨g, hg, hchain, hw⟩ := ih (hc.2.congr_notMem hx hother) htail
        fun y hy s hs => skip_of_alike (hf y (List.mem_cons_of_mem _ hy) s hs)
          (fun b => (setTarget_alike h x.1 (f t) b).1) fun b => (setTarget_alike h x.1 (f t) b).2
      refine ⟨g, hg, ⟨?_, hchain⟩, hw.pool, hw.size.trans size_set, fun b hb => ?_⟩
      · rw [hw.node _ hx, setTarget, node_set_self hu.head_lt, hc.1, first_map]
        change (⟨x.2.map _, _⟩ : Node) = ⟨x.2.map _, _⟩
        cases hi : x.2 with
        | none => rfl
        | some i =>
          rw [hi] at ht
          have hcongr : i.mapTarget (fun _ => f t) = i.mapTarget f := by
            apply Instr.mapTarget_congr
            intro s hs
            exact congrArg f (Option.some.inj (ht.symm.trans hs))
          exact congrArg (fun j => (⟨some j, first xs 0⟩ : Node)) hcongr
      · obtain ⟨hb, hbs⟩ := List.mem_cons.not.mp hb |> not_or.mp
        rw [hw.node b hbs, hother b hb]

theorem skipFront_chain (hc : Chain h (nops ++ rest) 0) (hz : 0 ∉ (nops ++ rest).map (·.1))
    (hn : ∀ x ∈ nops, x.2 = none) (hr : ∀ x ∈ rest.head?, x.2.isSome = true) :
    h.skipFront (first (nops ++ rest) 0) = some (first rest 0) := by
  induction nops with
  | nil =>
    cases rest with
    | nil =>
      rw [List.nil_append, first, skipFront]
      rfl
    | cons y rest =>
      have hy : h.node y.1 = ⟨y.2, first rest 0⟩ := hc.1
      have hsome : y.2.isSome = true := hr y rfl
      rw [List.nil_append, first, skipFront, hy, if_neg]
      rintro ⟨-, hi⟩
      exact Option.isSome_iff_ne_none.mp hsome (Option.isNone_iff_eq_none.mp hi)
  | cons x nops ih =>
    obtain ⟨hx, hxs⟩ := List.mem_cons.not.mp hz |> not_or.mp
    rw [List.cons_append, first, skipFront, hc.1, hn x List.mem_cons_self, if_pos ⟨Ne.symm hx, rfl⟩]
    exact ih hc.2 hxs fun y hy => hn y (List.mem_cons_of_mem _ hy)

/-- Nodes without an instruction are taken off behind a node. -/
theorem cutBehind_chain (hc : Chain h (x :: (nops ++ rest)) 0)
    (hu : h.Used ((x :: (nops ++ rest)).map (·.1))) (hn : ∀ y ∈ nops, y.2 = none)
    (hr : ∀ y ∈ rest.head?, y.2.isSome = true) :
    ∃ g, h.cutBehind x.1 = some g ∧ Chain g (x :: rest) 0 ∧
      g.pool = (nops.map (·.1)).reverse ++ h.pool ∧ g.nodes.size = h.nodes.size ∧
      ∀ b ≠ x.1, g.node b = h.node b := by
  induction nops generalizing h with
  | nil =>
    refine ⟨h, ?_, hc, rfl, rfl, fun _ _ => rfl⟩
    rw [cutBehind, hc.1, if_neg]
    rintro ⟨hz, hi⟩
    cases rest with
    | nil => exact hz rfl
    | cons y rest =>
      have hy : h.node y.1 = ⟨y.2, first rest 0⟩ := hc.2.1
      have hsome : y.2.isSome = true := hr y rfl
      change (h.node y.1).instr.isNone = true at hi
      rw [hy] at hi
      exact Option.isSome_iff_ne_none.mp hsome (Option.isNone_iff_eq_none.mp hi)
  | cons y nops ih =>
    obtain ⟨hx, hy, hrest⟩ := hc
    have hnext : (h.node x.1).next = y.1 := by
      rw [hx]
      rfl
    have hyne : y.1 ≠ x.1 := by
      intro he
      apply hu.head_notMem
      change x.1 ∈ y.1 :: _
      rw [he]
      exact List.mem_cons_self
    have hyz : y.1 ≠ 0 := hu.tail.head_ne_zero
    rw [cutBehind, hnext, hy, if_pos ⟨hyz, by rw [hn y List.mem_cons_self]; rfl⟩]
    have hxs : x.1 ∉ (nops ++ rest).map (·.1) := fun hm => hu.head_notMem (List.mem_cons_of_mem _ hm)
    have hother : ∀ b ≠ x.1,
        ((h.setNext x.1 (first (nops ++ rest) 0)).free y.1).node b = h.node b := by
      intro b hb
      exact node_set_of_ne hb
    have hchain : Chain ((h.setNext x.1 (first (nops ++ rest) 0)).free y.1)
        (x :: (nops ++ rest)) 0 := by
      refine ⟨?_, hrest.congr_notMem hxs hother⟩
      change (h.set x.1 _).node x.1 = _
      rw [node_set_self hu.head_lt, hx]
    have hsub : (x :: (nops ++ rest)).map (·.1) |>.Sublist ((x :: (y :: nops ++ rest)).map (·.1)) :=
      ((List.sublist_cons_self y _).cons_cons x).map _
    have hused : ((h.setNext x.1 (first (nops ++ rest) 0)).free y.1).Used
        ((x :: (nops ++ rest)).map (·.1)) := by
      refine (hu.sublist hsub).keep (fun b hb hp => ?_) size_set
      rcases List.mem_cons.mp hp with rfl | hp
      · rcases List.mem_cons.mp hb with he | hb
        · exact absurd he hyne
        · exact absurd hb hu.tail.head_notMem
      · exact hp
    obtain ⟨g, hg, hc', hpool, hsize, hnode⟩ := ih hchain hused
      fun w hw => hn w (List.mem_cons_of_mem _ hw)
    refine ⟨g, hg, hc', ?_, hsize.trans size_set, fun b hb => (hnode b hb).trans (hother b hb)⟩
    rw [hpool, List.map_cons, List.reverse_cons, List.append_assoc]
    rfl

/-- The nodes without an instruction were taken off the list and given back. -/
structure Strips (xs : List (Nat × Option (Instr Nat))) (h g : Heap) : Prop where
  chain : Chain g (xs.filter (·.2.isSome)) 0
  pool : g.pool.Perm ((xs.filter (·.2.isNone)).map (·.1) ++ h.pool)
  size : g.nodes.size = h.nodes.size
  node : ∀ b, b ∉ (xs.filter (·.2.isSome)).map (·.1) → g.node b = h.node b

theorem Strips.mem_pool (hs : Strips xs h g) :
    a ∈ g.pool ↔ a ∈ (xs.filter (·.2.isNone)).map (·.1) ∨ a ∈ h.pool := by
  rw [hs.pool.mem_iff, List.mem_append]

theorem Strips.cons {g₁ : Heap} (hs : Strips rest g₁ g) (hc : Chain g₁ (x :: rest) 0)
    (hx : x.2.isSome = true) (hn : ∀ y ∈ nops, y.2 = none) (hr : ∀ y ∈ rest.head?, y.2.isSome = true)
    (hnot : x.1 ∉ rest.map (·.1)) (hpool : g₁.pool = (nops.map (·.1)).reverse ++ h.pool)
    (hsize : g₁.nodes.size = h.nodes.size) (hnode : ∀ b ≠ x.1, g₁.node b = h.node b) :
    Strips (x :: (nops ++ rest)) h g := by
  obtain ⟨hkept, hall⟩ := filter_of_nops hn
  have hfilter : (x :: (nops ++ rest)).filter (·.2.isSome) = x :: rest.filter (·.2.isSome) := by
    rw [filter_cons_some hx, List.filter_append, hkept, List.nil_append]
  have hfreed : (x :: (nops ++ rest)).filter (·.2.isNone) = nops ++ rest.filter (·.2.isNone) := by
    have hx' : ¬ x.2.isNone = true := by simpa using Option.isSome_iff_ne_none.mp hx
    have hcons : (x :: (nops ++ rest)).filter (·.2.isNone) = (nops ++ rest).filter (·.2.isNone) :=
      List.filter_cons_of_neg hx'
    rw [hcons, List.filter_append, hall]
  refine ⟨?_, ?_, hs.size.trans hsize, fun b hb => ?_⟩
  · rw [hfilter]
    refine ⟨?_, hs.chain⟩
    rw [hs.node x.1 fun hm => hnot ((List.filter_sublist.map _).subset hm), hc.1]
    cases rest with
    | nil => rfl
    | cons y rest =>
      rw [filter_cons_some (hr y rfl)]
      rfl
  · rw [hfreed, List.map_append, List.append_assoc]
    refine hs.pool.trans ?_
    rw [hpool]
    refine List.perm_append_comm_assoc .. |>.trans ?_
    exact (List.reverse_perm _).append_right _
  · rw [hfilter, List.map_cons, List.mem_cons, not_or] at hb
    rw [hs.node b hb.2, hnode b hb.1]

theorem strip_chain (hc : Chain h xs 0)
    (hu : h.Used (xs.map (·.1))) (hx : ∀ x ∈ xs.head?, x.2.isSome = true) :
    ∃ g, h.strip (first xs 0) = some g ∧ Strips xs h g := by
  induction hl : xs.length using Nat.strong_induction_on generalizing xs h with
  | _ n ih =>
    cases xs with
    | nil =>
      refine ⟨h, ?_, trivial, .refl _, rfl, fun _ _ => rfl⟩
      rw [first, strip]
      rfl
    | cons x tail =>
      obtain ⟨nops, rest, rfl, hn, hr⟩ := exists_nops tail
      obtain ⟨g₁, hg₁, hc₁, hpool, hsize, hnode⟩ := cutBehind_chain hc hu hn hr
      have hsub : (rest.map (·.1)).Sublist ((nops ++ rest).map (·.1)) :=
        (List.sublist_append_right nops rest).map _
      have hused : g₁.Used (rest.map (·.1)) := by
        refine (hu.tail.sublist hsub).keep (fun b hb hp => ?_) hsize
        rw [hpool, List.mem_append, List.mem_reverse] at hp
        rcases hp with hp | hp
        · have hd := hu.tail.nodup
          rw [List.map_append, List.nodup_append] at hd
          exact absurd rfl (hd.2.2 b hp b hb)
        · exact hp
      have hlt : rest.length < n := by
        rw [← hl, List.length_cons, List.length_append]
        omega
      obtain ⟨g, hg, hs⟩ := ih rest.length hlt hc₁.2 hused hr rfl
      refine ⟨g, ?_, hs.cons hc₁ (hx x rfl) hn hr (fun hm => hu.head_notMem (hsub.subset hm)) hpool
        hsize hnode⟩
      rw [first, strip, if_neg hu.head_ne_zero, hg₁]
      change g₁.strip (g₁.node x.1).next = _
      rw [hc₁.1]
      exact hg

theorem notMem_kept (hd : (xs.map (·.1)).Nodup) (hx : x ∈ xs) (hn : x.2 = none) :
    x.1 ∉ (xs.filter (·.2.isSome)).map (·.1) := by
  intro hm
  obtain ⟨y, hy, he⟩ := List.mem_map.mp hm
  obtain ⟨hy, hsome⟩ := List.mem_filter.mp hy
  rw [List.inj_on_of_nodup_map hd hy hx he, hn] at hsome
  cases hsome

theorem Strips.used (hs : Strips xs h g) (hu : h.Used (xs.map (·.1))) :
    g.Used ((xs.filter (·.2.isSome)).map (·.1)) := by
  refine (hu.sublist (List.filter_sublist.map _)).keep (fun a ha hp => ?_) hs.size
  rcases hs.mem_pool.mp hp with hp | hp
  · obtain ⟨x, hx, rfl⟩ := List.mem_map.mp hp
    obtain ⟨hx, hnone⟩ := List.mem_filter.mp hx
    exact absurd ha (notMem_kept hu.nodup hx (Option.isNone_iff_eq_none.mp hnone))
  · exact hp

/-- A node that was given back holds what it held. -/
theorem Strips.freed (hs : Strips xs h g) (hu : h.Used (xs.map (·.1))) (hx : x ∈ xs)
    (hn : x.2 = none) : x.1 ∈ g.pool ∧ g.node x.1 = h.node x.1 := by
  refine ⟨hs.mem_pool.mpr (.inl (List.mem_map_of_mem (List.mem_filter.mpr ⟨hx, ?_⟩))),
    hs.node _ (notMem_kept hu.nodup hx hn)⟩
  rw [hn]
  rfl

theorem Strips.sound (hs : Strips xs h g) (hsound : h.Sound) (hu : h.Used (xs.map (·.1))) :
    g.Sound := by
  have hfreed : ((xs.filter (·.2.isNone)).map (·.1)).Sublist (xs.map (·.1)) :=
    List.filter_sublist.map _
  have hkept : ((xs.filter (·.2.isSome)).map (·.1)).Sublist (xs.map (·.1)) :=
    List.filter_sublist.map _
  refine ⟨?_, ?_, ?_, ?_⟩
  · rw [hs.node 0 fun h0 => hu.ne_zero (hkept.subset h0), hsound.zero]
  · rintro (h0 | h0)
    · rcases hs.mem_pool.mp h0 with h0 | h0
      · exact hu.ne_zero (hfreed.subset h0)
      · exact hsound.zero_used (.inl h0)
    · exact hsound.zero_used (.inr (hs.size ▸ h0))
  · rw [hs.pool.nodup_iff, List.nodup_append]
    refine ⟨hu.nodup.sublist hfreed, hsound.nodup, ?_⟩
    rintro a ha b hb rfl
    exact hu.used a (hfreed.subset ha) (.inl hb)
  · intro a ha
    rw [hs.size]
    rcases hs.mem_pool.mp ha with ha | ha
    · exact lt_of_used (hu.used a (hfreed.subset ha))
    · exact hsound.lt a ha

theorem Strips.keeps {h₀ : Heap} (hs : Strips xs h g) (hk : h₀.Keeps h)
    (hu : ∀ a ∈ xs.map (·.1), h₀.Unused a) : h₀.Keeps g where
  node a ha := by
    rw [hs.node a fun hm => ha (hu a ((List.filter_sublist.map _).subset hm)), hk.node a ha]
  unused a ha := by
    rcases ha with ha | ha
    · rcases hs.mem_pool.mp ha with ha | ha
      · exact hu a ((List.filter_sublist.map _).subset ha)
      · exact hk.unused a (.inl ha)
    · exact hk.unused a (.inr (hs.size ▸ ha))

end Passes

end Heap

end Recompiler.Ir
