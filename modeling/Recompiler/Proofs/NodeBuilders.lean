import Recompiler.Proofs.NodeLists

/-!
Builders of lists. The list has a node for each instruction and each label, and once it is built it
has the nodes of the instructions alone, with jumps to the nodes of their positions.
-/

namespace Recompiler.Ir

open Heap

/-- The nodes `as` hold the program. Jumps past its last instruction go to `trail`, a node that does
nothing. -/
structure Heap.Stored (h : Heap) (p : Program) (as : List Nat) (trail : Nat) : Prop where
  length : as.length = p.code.size
  ne_zero : 0 ∉ as
  chain : h.Chain (as.zip (p.code.toList.map fun i => some (i.mapTarget fun t => as[t]?.getD trail))) 0
  trail : (∃ i ∈ p.code.toList, ∃ t, i.target? = some t ∧ p.code.size ≤ t) → h.node trail = .blank

namespace NodeBuilder

/-- Entries of a list: nodes with their instructions, in which jumps name labels. -/
abbrev Entries := List (Nat × Option (Instr String))

def contents (τ : String → Nat) (xs : Entries) : List (Nat × Option (Instr Nat)) :=
  xs.map fun x => (x.1, x.2.map (·.mapTarget τ))

/-- The label has the node of an entry, and stands behind so many instructions. -/
def Marks (xs : Entries) (l m : String × Nat) : Prop :=
  l.1 = m.1 ∧ ∃ before behind, xs = before ++ (l.2, none) :: behind ∧
    m.2 = (before.filterMap (·.2)).length

/-- The node is taken, and if it is on the list it has a jump to the name. -/
structure Waits (h₀ h : Heap) (xs : Entries) (name : String) (a : Nat) : Prop where
  ne_zero : a ≠ 0
  unused : h₀.Unused a
  used : ¬ h.Unused a
  jump : ∀ c, (a, c) ∈ xs → ∃ i, c = some i ∧ i.target? = some name

/-- The list of one builder has the instructions of the other. -/
structure Mirrors (h₀ : Heap) (xs : Entries) (b : Builder) (nb : NodeBuilder) : Prop where
  sound : nb.heap.Sound
  keeps : h₀.Keeps nb.heap
  chain : nb.heap.Chain (contents nb.target xs) 0
  used : nb.heap.Used (xs.map (·.1))
  unused : ∀ a ∈ xs.map (·.1), h₀.Unused a
  head : nb.head = first xs 0
  tail : ∀ l x, xs = l ++ [x] → nb.tail = x.1
  bytes : nb.bytes = b.bytes
  limit : nb.limit = b.limit
  exhausted : nb.exhausted = b.exhausted
  scope : nb.scope = b.scope
  code : b.code.toList = xs.filterMap (·.2)
  size : b.bytes = ((xs.filterMap (·.2)).map Instr.maxBytes).sum
  labels : List.Forall₂ (Marks xs) nb.labels b.labels
  pending : nb.pending.map (·.1) = b.pending
  nodup : b.pending.Nodup
  waiting : ∀ p ∈ nb.pending, nb.labels.lookup p.1 = none ∧
    ∀ a ∈ p.2, Waits h₀ nb.heap xs p.1 a
  patched : ∀ x ∈ xs, ∀ i, x.2 = some i → ∀ name, i.target? = some name →
    nb.labels.lookup name = none → ∃ jumps, (name, jumps) ∈ nb.pending ∧ x.1 ∈ jumps

theorem map_fst_contents (τ : String → Nat) (xs : Entries) :
    (contents τ xs).map (·.1) = xs.map (·.1) := by
  rw [contents, List.map_map]
  rfl

theorem contents_concat (τ : String → Nat) (l : Entries) (x : Nat × Option (Instr String)) :
    contents τ (l ++ [x]) = contents τ l ++ [(x.1, x.2.map (·.mapTarget τ))] := List.map_append

theorem Marks.append {xs : Entries} {l m : String × Nat} (hl : Marks xs l m) (ys : Entries) :
    Marks (xs ++ ys) l m := by
  obtain ⟨he, before, behind, rfl, hk⟩ := hl
  exact ⟨he, before, behind ++ ys, by simp, hk⟩

theorem Waits.congr {h₀ h g : Heap} {xs : Entries} {name : String} {a : Nat}
    (hw : Waits h₀ h xs name a) (hu : ∀ e, g.Unused e → h.Unused e) : Waits h₀ g xs name a :=
  { hw with used := fun hun => hw.used (hu a hun) }

theorem Waits.concat {h₀ h : Heap} {xs : Entries} {name : String} {a e : Nat}
    {c : Option (Instr String)} (hw : Waits h₀ h xs name e)
    (hj : e = a → ∃ i, c = some i ∧ i.target? = some name) : Waits h₀ h (xs ++ [(a, c)]) name e :=
  { hw with
    jump := by
      intro d hd
      rcases List.mem_append.mp hd with hd | hd
      · exact hw.jump d hd
      · obtain ⟨he, rfl⟩ := Prod.mk.inj (List.mem_singleton.mp hd)
        exact hj he }

section Pending

variable {ps : List (String × List Nat)} {p : String × List Nat} {name : String} {a b : Nat}
  {jumps : List Nat}

theorem map_note (name : String) (a : Nat) (ps : List (String × List Nat)) :
    (note name a ps).map (·.1) =
      if (ps.map (·.1)).contains name then ps.map (·.1) else ps.map (·.1) ++ [name] := by
  induction ps with
  | nil => rfl
  | cons p ps ih =>
    obtain ⟨x, jumps⟩ := p
    rw [note]
    by_cases hx : x = name
    · rw [if_pos hx]
      simp [hx]
    · have hx' : ¬ name = x := fun he => hx he.symm
      rw [if_neg hx, List.map_cons, ih]
      simp only [List.map_cons, List.contains_cons, beq_false_of_ne hx', Bool.false_or]
      split
      · rfl
      · rfl

theorem mem_of_mem_note (hp : p ∈ note name a ps) (hb : b ∈ p.2) :
    (b = a ∧ p.1 = name) ∨ ∃ q ∈ ps, q.1 = p.1 ∧ b ∈ q.2 := by
  induction ps with
  | nil =>
    rw [note, List.mem_singleton] at hp
    subst hp
    exact .inl ⟨List.mem_singleton.mp hb, rfl⟩
  | cons q ps ih =>
    obtain ⟨x, jumps⟩ := q
    rw [note] at hp
    by_cases hx : x = name
    · rw [if_pos hx] at hp
      rcases List.mem_cons.mp hp with rfl | hp
      · rcases List.mem_append.mp hb with hb | hb
        · exact .inr ⟨_, List.mem_cons_self, rfl, hb⟩
        · exact .inl ⟨List.mem_singleton.mp hb, hx⟩
      · exact .inr ⟨p, List.mem_cons_of_mem _ hp, rfl, hb⟩
    · rw [if_neg hx] at hp
      rcases List.mem_cons.mp hp with rfl | hp
      · exact .inr ⟨_, List.mem_cons_self, rfl, hb⟩
      · rcases ih hp with h | ⟨q, hq, he⟩
        · exact .inl h
        · exact .inr ⟨q, List.mem_cons_of_mem _ hq, he⟩

theorem name_of_mem_note (hp : p ∈ note name a ps) : p.1 = name ∨ ∃ q ∈ ps, q.1 = p.1 := by
  have hm : p.1 ∈ (note name a ps).map (·.1) := List.mem_map_of_mem hp
  rw [map_note] at hm
  split at hm
  · exact .inr (by simpa using hm)
  · rcases List.mem_append.mp hm with hm | hm
    · exact .inr (by simpa using hm)
    · exact .inl (List.mem_singleton.mp hm)

theorem mem_note_of_mem (hp : (p.1, jumps) ∈ ps) (hb : b ∈ jumps) :
    ∃ more, (p.1, more) ∈ note name a ps ∧ b ∈ more := by
  induction ps with
  | nil => cases hp
  | cons q ps ih =>
    obtain ⟨x, js⟩ := q
    rw [note]
    by_cases hx : x = name
    · rw [if_pos hx]
      rcases List.mem_cons.mp hp with he | hp
      · cases he
        exact ⟨_, List.mem_cons_self, List.mem_append_left _ hb⟩
      · exact ⟨jumps, List.mem_cons_of_mem _ hp, hb⟩
    · rw [if_neg hx]
      rcases List.mem_cons.mp hp with he | hp
      · cases he
        exact ⟨_, List.mem_cons_self, hb⟩
      · obtain ⟨more, hm, hb⟩ := ih hp
        exact ⟨more, List.mem_cons_of_mem _ hm, hb⟩

theorem mem_note_self (name : String) (a : Nat) (ps : List (String × List Nat)) :
    ∃ jumps, (name, jumps) ∈ note name a ps ∧ a ∈ jumps := by
  induction ps with
  | nil => exact ⟨[a], List.mem_singleton.mpr rfl, List.mem_singleton.mpr rfl⟩
  | cons q ps ih =>
    obtain ⟨x, js⟩ := q
    rw [note]
    by_cases hx : x = name
    · subst hx
      rw [if_pos rfl]
      exact ⟨_, List.mem_cons_self, List.mem_concat_self⟩
    · rw [if_neg hx]
      obtain ⟨jumps, hm, ha⟩ := ih
      exact ⟨jumps, List.mem_cons_of_mem _ hm, ha⟩

theorem lookup_of_mem (hd : (ps.map (·.1)).Nodup) (hp : (name, jumps) ∈ ps) :
    ps.lookup name = some jumps := by
  induction ps with
  | nil => cases hp
  | cons q ps ih =>
    obtain ⟨x, js⟩ := q
    obtain ⟨hx, hd⟩ := List.nodup_cons.mp hd
    rcases List.mem_cons.mp hp with he | hps
    · cases he
      exact List.lookup_cons_self
    · have hne : name ≠ x := by
        rintro rfl
        have hm := List.mem_map_of_mem (f := Prod.fst) hps
        exact hx hm
      rw [List.lookup_cons, beq_false_of_ne hne]
      exact ih hd hps

theorem mem_of_lookup (hp : ps.lookup name = some jumps) : (name, jumps) ∈ ps := by
  induction ps with
  | nil => cases hp
  | cons q ps ih =>
    obtain ⟨x, js⟩ := q
    rw [List.lookup_cons] at hp
    by_cases hx : name = x
    · subst hx
      rw [beq_self_eq_true] at hp
      cases hp
      exact List.mem_cons_self
    · rw [beq_false_of_ne hx] at hp
      exact List.mem_cons_of_mem _ (ih hp)

theorem map_eraseP (name : String) (ps : List (String × List Nat)) :
    (ps.eraseP (·.1 == name)).map (·.1) = (ps.map (·.1)).erase name := by
  induction ps with
  | nil => rfl
  | cons q ps ih =>
    rw [List.eraseP_cons, List.map_cons, List.erase_cons]
    cases q.1 == name with
    | true => rfl
    | false =>
      rw [← ih]
      rfl

end Pending

namespace Mirrors

variable {h₀ h : Heap} {xs : Entries} {b : Builder} {nb : NodeBuilder} {name : String} {a : Nat}
  {c : Option (Instr String)}

theorem create (hs : h.Sound) : Mirrors h [] Builder.empty (create h) where
  sound := hs
  keeps := .refl h
  chain := trivial
  used := ⟨.nil, List.not_mem_nil, fun _ ha => absurd ha List.not_mem_nil⟩
  unused _ ha := absurd ha List.not_mem_nil
  head := rfl
  tail l x h := absurd h.symm (List.append_ne_nil_of_right_ne_nil l (List.cons_ne_nil x []))
  bytes := rfl
  limit := rfl
  exhausted := rfl
  scope := rfl
  code := rfl
  size := rfl
  labels := .nil
  pending := rfl
  nodup := .nil
  waiting _ hp := absurd hp List.not_mem_nil
  patched _ hx := absurd hx List.not_mem_nil

theorem mark (hm : Mirrors h₀ xs b nb) : Mirrors h₀ xs b.mark nb.mark :=
  { hm with scope := congrArg (· + 1) hm.scope }

theorem scopedName_eq (hm : Mirrors h₀ xs b nb) : nb.scopedName = b.scopedName := by
  funext name
  rw [NodeBuilder.scopedName, Builder.scopedName, hm.scope]

theorem fits_eq (hm : Mirrors h₀ xs b nb) (n : Nat) : nb.fits n = b.fits n := by
  cases hb : b.limit with
  | none => simp only [NodeBuilder.fits, Builder.fits, hm.limit, hb]
  | some limit =>
    simp only [NodeBuilder.fits, Builder.fits, hm.limit, hb, hm.exhausted, hm.bytes]

theorem lookup_cases (hm : Mirrors h₀ xs b nb) (name : String) :
    (nb.labels.lookup name = none ∧ b.labels.lookup name = none) ∨
    ∃ a k, nb.labels.lookup name = some a ∧ b.labels.lookup name = some k ∧
      Marks xs (name, a) (name, k) := by
  have hlabels := hm.labels
  generalize nb.labels = ls at *
  generalize b.labels = ms at *
  clear hm
  induction hlabels with
  | nil => exact .inl ⟨rfl, rfl⟩
  | @cons l m ls ms hlm _ ih =>
    obtain ⟨x, a⟩ := l
    obtain ⟨y, k⟩ := m
    obtain ⟨rfl, hmarks⟩ := hlm
    rw [List.lookup_cons, List.lookup_cons]
    by_cases hx : name = x
    · subst hx
      rw [beq_self_eq_true]
      exact .inr ⟨a, k, rfl, rfl, rfl, hmarks⟩
    · rw [beq_false_of_ne hx]
      exact ih

theorem isSome_lookup (hm : Mirrors h₀ xs b nb) (name : String) :
    (nb.labels.lookup name).isSome = (b.labels.lookup name).isSome := by
  rcases hm.lookup_cases name with ⟨hn, hb⟩ | ⟨a, k, hn, hb, -⟩
  · rw [hn, hb]
  · rw [hn, hb]
    rfl

/-- A node that was taken is not on the list, and no label waits for it. -/
structure Fresh (h₀ : Heap) (xs : Entries) (nb : NodeBuilder) (a : Nat) : Prop where
  ne_zero : a ≠ 0
  unused : h₀.Unused a
  used : ¬ nb.heap.Unused a
  notMem : a ∉ xs.map (·.1)

theorem alloc (hm : Mirrors h₀ xs b nb) {instr : Option (Instr Nat)} {g : Heap}
    (ht : Takes nb.heap instr a g) :
    Mirrors h₀ xs b { nb with heap := g } ∧ Fresh h₀ xs { nb with heap := g } a ∧
      ∀ p ∈ nb.pending, a ∉ p.2 := by
  have hnew : a ∉ xs.map (·.1) := fun ha => hm.used.used a ha ht.unused
  refine ⟨?_, ⟨ht.ne_zero, hm.keeps.unused a ht.unused, ht.used, hnew⟩,
    fun p hp ha => ((hm.waiting p hp).2 a ha).used ht.unused⟩
  exact {
    hm with
    sound := ht.sound
    keeps := hm.keeps.trans ht.keeps
    chain := hm.chain.congr_notMem ((map_fst_contents ..).symm ▸ hnew) ht.others
    used := hm.used.mono fun a _ hu => ht.keeps.unused a hu
    waiting := fun p hp => ⟨(hm.waiting p hp).1, fun a ha =>
      ((hm.waiting p hp).2 a ha).congr ht.keeps.unused⟩ }

theorem request (hm : Mirrors h₀ xs b nb) (hf : Fresh h₀ xs nb a) (name : String) :
    Mirrors h₀ xs (b.request name) (nb.request name a) := by
  unfold Builder.request NodeBuilder.request
  rw [hm.isSome_lookup]
  cases hl : b.labels.lookup name with
  | some k => exact hm
  | none =>
    have hnone : nb.labels.lookup name = none := by
      rw [← Option.not_isSome_iff_eq_none, hm.isSome_lookup, hl]
      exact Bool.false_ne_true
    have hpending : (note name a nb.pending).map (·.1) =
        if b.pending.contains name then b.pending else b.pending ++ [name] := by
      rw [map_note, hm.pending]
    have hwaiting : ∀ p ∈ note name a nb.pending, nb.labels.lookup p.1 = none ∧
        ∀ c ∈ p.2, Waits h₀ nb.heap xs p.1 c := by
      intro p hp
      constructor
      · rcases name_of_mem_note hp with he | ⟨q, hq, he⟩
        · rw [he, hnone]
        · rw [← he]
          exact (hm.waiting q hq).1
      · intro c hc
        rcases mem_of_mem_note hp hc with ⟨rfl, -⟩ | ⟨q, hq, he, hcq⟩
        · exact ⟨hf.ne_zero, hf.unused, hf.used,
            fun d hd => absurd (List.mem_map_of_mem hd) hf.notMem⟩
        · rw [← he]
          exact (hm.waiting q hq).2 c hcq
    have hpatched : ∀ x ∈ xs, ∀ i, x.2 = some i → ∀ n, i.target? = some n →
        nb.labels.lookup n = none → ∃ jumps, (n, jumps) ∈ note name a nb.pending ∧ x.1 ∈ jumps := by
      intro x hx i hi n hn hnl
      obtain ⟨jumps, hj, hxj⟩ := hm.patched x hx i hi n hn hnl
      exact mem_note_of_mem (p := (n, jumps)) hj hxj
    have hdup : (if b.pending.contains name then b.pending else b.pending ++ [name]).Nodup := by
      split
      · exact hm.nodup
      · rename_i hc
        rw [List.contains_iff_mem] at hc
        rw [List.nodup_append]
        refine ⟨hm.nodup, List.nodup_singleton _, ?_⟩
        rintro x hx y hy rfl
        exact hc (List.mem_singleton.mp hy ▸ hx)
    simp only [Option.isSome_none, Bool.false_or, Bool.false_eq_true, if_false]
    split
    · rename_i hc
      rw [if_pos hc] at hpending hdup
      exact { hm with pending := hpending, waiting := hwaiting, patched := hpatched }
    · rename_i hc
      rw [if_neg hc] at hpending hdup
      exact { hm with pending := hpending, nodup := hdup, waiting := hwaiting, patched := hpatched }

theorem chain_link {τ : String → Nat} {l : Entries} {x : Nat × Option (Instr String)}
    (hc : h.Chain (contents τ (l ++ [x])) 0) (hu : h.Used ((l ++ [x]).map (·.1)))
    (ha : a ∉ (l ++ [x]).map (·.1)) (hnode : h.node a = ⟨c.map (·.mapTarget τ), 0⟩) :
    (h.setNext x.1 a).Chain (contents τ (l ++ [x] ++ [(a, c)])) 0 := by
  have hxa : a ≠ x.1 := fun he => ha (he ▸ List.mem_map_of_mem List.mem_concat_self)
  rw [← map_fst_contents τ] at hu
  rw [contents_concat τ (l ++ [x])]
  rw [contents_concat] at hc hu ⊢
  refine (hc.redirect hu a).append ⟨?_, trivial⟩
  change (h.set x.1 _).node a = _
  rw [node_set_of_ne hxa, hnode]
  rfl

theorem push_concat {l : Entries} {x : Nat × Option (Instr String)}
    (hm : Mirrors h₀ (l ++ [x]) b nb) (a : Nat) :
    nb.push a = { nb with heap := nb.heap.setNext x.1 a, tail := a } := by
  have hhead : nb.head ≠ 0 := by
    rw [hm.head, first_eq]
    intro h0
    apply hm.used.ne_zero
    cases l with
    | nil => exact h0 ▸ List.mem_cons_self
    | cons y l => exact h0 ▸ List.mem_cons_self
  unfold NodeBuilder.push
  rw [if_neg hhead, hm.tail l x rfl]

/-- The list grows by an entry whose node has been linked behind the others. -/
theorem extend (hm : Mirrors h₀ xs b nb) (hf : Fresh h₀ xs nb a) {g : Heap} (hsound : g.Sound)
    (hkeeps : h₀.Keeps g) (hchain : g.Chain (contents nb.target (xs ++ [(a, c)])) 0)
    (hun : ∀ e, g.Unused e → nb.heap.Unused e)
    (hwaits : ∀ p ∈ nb.pending, a ∈ p.2 → ∃ i, c = some i ∧ i.target? = some p.1)
    (hpatched : ∀ i, c = some i → ∀ name, i.target? = some name →
      nb.labels.lookup name = none → ∃ jumps, (name, jumps) ∈ nb.pending ∧ a ∈ jumps)
    (code : Array (Instr String)) (hcode : code.toList = b.code.toList ++ c.toList) :
    Mirrors h₀ (xs ++ [(a, c)])
      { b with code := code, bytes := b.bytes + (c.toList.map Instr.maxBytes).sum }
      { nb with
        heap := g
        head := first (xs ++ [(a, c)]) 0
        tail := a
        bytes := nb.bytes + (c.toList.map Instr.maxBytes).sum } := by
  have hfilter : (xs ++ [(a, c)]).filterMap (·.2) = xs.filterMap (·.2) ++ c.toList := by
    rw [List.filterMap_append]
    cases c <;> rfl
  exact {
    hm with
    sound := hsound
    keeps := hkeeps
    chain := hchain
    used := by
      rw [List.map_append]
      exact (hm.used.concat hf.notMem hf.ne_zero hf.used).mono fun e _ => hun e
    unused := by
      intro e he
      rw [List.map_append] at he
      rcases List.mem_append.mp he with he | he
      · exact hm.unused e he
      · rw [List.mem_singleton.mp he]
        exact hf.unused
    head := rfl
    tail := by
      intro l x hx
      rw [← (List.append_inj' hx rfl).2 |> List.cons.inj |>.1]
    bytes := congrArg (· + _) hm.bytes
    code := hcode.trans (by rw [hfilter, hm.code])
    size := by rw [hfilter, List.map_append, List.sum_append, hm.size]
    labels := hm.labels.imp fun _ _ hl => hl.append _
    waiting := fun p hp => ⟨(hm.waiting p hp).1, fun e he =>
      (((hm.waiting p hp).2 e he).concat fun (hea : e = a) => hwaits p hp (hea ▸ he)).congr hun⟩
    patched := by
      rintro ⟨e, d⟩ hx
      rcases List.mem_append.mp hx with hx | hx
      · exact hm.patched _ hx
      · obtain ⟨rfl, rfl⟩ := Prod.mk.inj (List.mem_singleton.mp hx)
        exact hpatched }

/-- A node is put at the end of the list. -/
theorem push (hm : Mirrors h₀ xs b nb) (hf : Fresh h₀ xs nb a)
    (hnode : nb.heap.node a = ⟨c.map (·.mapTarget nb.target), 0⟩)
    (hwaits : ∀ p ∈ nb.pending, a ∈ p.2 → ∃ i, c = some i ∧ i.target? = some p.1)
    (hpatched : ∀ i, c = some i → ∀ name, i.target? = some name →
      nb.labels.lookup name = none → ∃ jumps, (name, jumps) ∈ nb.pending ∧ a ∈ jumps)
    (code : Array (Instr String)) (hcode : code.toList = b.code.toList ++ c.toList) :
    Mirrors h₀ (xs ++ [(a, c)])
      { b with code := code, bytes := b.bytes + (c.toList.map Instr.maxBytes).sum }
      { nb.push a with bytes := nb.bytes + (c.toList.map Instr.maxBytes).sum } := by
  rcases List.eq_nil_or_concat xs with rfl | ⟨l, x, rfl⟩
  · have hpush : nb.push a = { nb with head := a, tail := a } := if_pos hm.head
    rw [hpush]
    exact hm.extend hf hm.sound hm.keeps ⟨hnode, trivial⟩ (fun _ => id) hwaits hpatched code hcode
  · rw [List.concat_eq_append] at *
    have hxmem : x.1 ∈ (l ++ [x]).map (·.1) := List.mem_map_of_mem List.mem_concat_self
    have hxz : x.1 ≠ 0 := fun he => hm.used.ne_zero (he ▸ hxmem)
    have hhead : first (l ++ [x] ++ [(a, c)]) 0 = nb.head := by
      rw [hm.head]
      cases l <;> rfl
    have hext := hm.extend hf (hm.sound.set hxz _) (hm.keeps.set (hm.unused _ hxmem) _)
      (chain_link hm.chain hm.used hf.notMem hnode) (fun _ => unused_set.mp) hwaits hpatched code hcode
    rw [hhead] at hext
    rw [hm.push_concat a]
    exact hext

theorem append (hm : Mirrors h₀ xs b nb) (hf : Fresh h₀ xs nb a) {i : Instr String}
    (hnode : nb.heap.node a = ⟨some (i.mapTarget nb.target), 0⟩)
    (hwaits : ∀ p ∈ nb.pending, a ∈ p.2 → i.target? = some p.1)
    (hpatched : ∀ name, i.target? = some name →
      nb.labels.lookup name = none → ∃ jumps, (name, jumps) ∈ nb.pending ∧ a ∈ jumps) :
    ∃ ys, Mirrors h₀ ys (b.push i) (if nb.fits i.maxBytes then
      { nb.push a with bytes := nb.bytes + i.maxBytes } else { nb with exhausted := true }) := by
  unfold Builder.push
  rw [hm.fits_eq]
  split
  · refine ⟨_, hm.push (c := some i) hf hnode (fun p hp ha => ⟨i, rfl, hwaits p hp ha⟩) ?_
      (b.code.push i) Array.toList_push⟩
    rintro j hj name hn hl
    cases hj
    exact hpatched name hn hl
  · exact ⟨xs, { hm with exhausted := rfl }⟩

theorem add (hm : Mirrors h₀ xs b nb) (i : Instr String) :
    ∃ ys, Mirrors h₀ ys (b.add i) (nb.add i) := by
  unfold Builder.add NodeBuilder.add
  rw [hm.scopedName_eq]
  generalize (Builder.clip i).mapTarget b.scopedName = i
  have ht := takes_alloc hm.sound (some (i.mapTarget nb.target))
  dsimp only
  generalize nb.heap.alloc (some (i.mapTarget nb.target)) = r at ht ⊢
  obtain ⟨a, g⟩ := r
  obtain ⟨hm', hf, hnot⟩ := hm.alloc ht
  cases htarget : i.target? with
  | none =>
    refine hm'.append hf ht.node (fun p hp ha => absurd ha (hnot p hp)) fun name hn => ?_
    rw [htarget] at hn
    cases hn
  | some name =>
    have hsame : ({ nb with heap := g }.request name a).labels = nb.labels ∧
        ({ nb with heap := g }.request name a).heap = g := by
      unfold NodeBuilder.request
      split
      · exact ⟨rfl, rfl⟩
      · exact ⟨rfl, rfl⟩
    have htargets : ({ nb with heap := g }.request name a).target = nb.target := by
      funext x
      rw [NodeBuilder.target, hsame.1]
      rfl
    refine (hm'.request hf name).append ⟨hf.ne_zero, hf.unused, ?_, hf.notMem⟩ ?_ ?_ ?_
    · rw [hsame.2]
      exact ht.used
    · rw [hsame.2, htargets]
      exact ht.node
    · intro p hp ha
      rw [htarget]
      unfold NodeBuilder.request at hp
      split at hp
      · exact absurd ha (hnot p hp)
      · rcases mem_of_mem_note hp ha with ⟨-, he⟩ | ⟨q, hq, -, haq⟩
        · rw [he]
        · exact absurd haq (hnot q hq)
    · intro x hx hl
      rw [htarget] at hx
      cases hx
      rw [hsame.1] at hl
      unfold NodeBuilder.request
      rw [hl]
      exact mem_note_self name a nb.pending

theorem push_bytes (nb : NodeBuilder) (a : Nat) : { nb.push a with bytes := nb.bytes } = nb.push a := by
  unfold NodeBuilder.push
  split
  · rfl
  · rfl

theorem nop (hm : Mirrors h₀ xs b nb) :
    Mirrors h₀ (xs ++ [(nb.nop.1, none)]) b nb.nop.2 ∧ nb.nop.2.labels = nb.labels ∧
      nb.nop.2.pending = nb.pending := by
  unfold NodeBuilder.nop
  have ht := takes_alloc hm.sound none
  generalize nb.heap.alloc none = r at ht ⊢
  obtain ⟨a, g⟩ := r
  obtain ⟨hm', hf, hnot⟩ := hm.alloc ht
  have hpush := hm'.push (c := none) hf ht.node (fun p hp ha => absurd ha (hnot p hp))
    (fun i hi => by cases hi) b.code (List.append_nil _).symm
  have hkept : ({ nb with heap := g }.push a).labels = nb.labels ∧
      ({ nb with heap := g }.push a).pending = nb.pending := by
    unfold NodeBuilder.push
    split
    · exact ⟨rfl, rfl⟩
    · exact ⟨rfl, rfl⟩
  refine ⟨?_, hkept⟩
  have hbytes := push_bytes { nb with heap := g } a
  dsimp only at hbytes ⊢
  rw [← hbytes]
  exact hpush

theorem node_patch (jumps : List Nat) (t : Nat) {h : Heap} (hlt : ∀ j ∈ jumps, j < h.nodes.size) :
    Within jumps h (jumps.foldl (fun h j => h.setTarget j t) h) ∧
      ∀ b, (jumps.foldl (fun h j => h.setTarget j t) h).node b = if b ∈ jumps then
        { h.node b with instr := (h.node b).instr.map (·.mapTarget fun _ => t) } else h.node b := by
  induction jumps generalizing h with
  | nil => exact ⟨⟨rfl, rfl, fun _ _ => rfl⟩, fun b => (if_neg List.not_mem_nil).symm⟩
  | cons j jumps ih =>
    have hj : j < h.nodes.size := hlt j List.mem_cons_self
    have hsize : (h.setTarget j t).nodes.size = h.nodes.size := size_set
    obtain ⟨hw, hn⟩ := ih (h := h.setTarget j t)
      fun k hk => hsize ▸ hlt k (List.mem_cons_of_mem _ hk)
    have hnode (b : Nat) : ((j :: jumps).foldl (fun h j => h.setTarget j t) h).node b =
        if b ∈ j :: jumps then
          { h.node b with instr := (h.node b).instr.map (·.mapTarget fun _ => t) }
        else h.node b := by
      rw [List.foldl_cons, hn]
      by_cases hb : b = j
      · subst hb
        rw [if_pos List.mem_cons_self, setTarget, node_set_self hj]
        split
        · simp [Function.comp_def, Instr.mapTarget_mapTarget]
        · rfl
      · rw [setTarget, node_set_of_ne hb]
        simp [hb]
    exact ⟨⟨hw.pool, hw.size.trans hsize, fun b hb => (hnode b).trans (if_neg hb)⟩, hnode⟩

theorem waits_of_lookup (hm : Mirrors h₀ xs b nb) (name : String) :
    ∀ j ∈ (nb.pending.lookup name).getD [], Waits h₀ nb.heap xs name j := by
  intro j hj
  cases hl : nb.pending.lookup name with
  | none =>
    rw [hl] at hj
    cases hj
  | some jumps =>
    rw [hl] at hj
    exact (hm.waiting _ (mem_of_lookup hl)).2 j hj

theorem nodup_pending (hm : Mirrors h₀ xs b nb) : (nb.pending.map (·.1)).Nodup :=
  hm.pending.symm ▸ hm.nodup

theorem lookup_cons_eq (name : String) (a : Nat) (ls : List (String × Nat)) (x : String) :
    ((name, a) :: ls).lookup x = if x = name then some a else ls.lookup x := by
  rw [List.lookup_cons]
  by_cases hx : x = name
  · rw [if_pos hx, hx, beq_self_eq_true]
  · rw [if_neg hx, beq_false_of_ne hx]

/-- The jumps to a name go to its label, and the others where they went. -/
theorem chain_patched (hm : Mirrors h₀ xs b nb) (hname : nb.labels.lookup name = none) {g : Heap}
    (hnode : ∀ e, g.node e = if e ∈ (nb.pending.lookup name).getD [] then
      { nb.heap.node e with instr := (nb.heap.node e).instr.map (·.mapTarget fun _ => a) }
      else nb.heap.node e) :
    g.Chain (contents (fun l => (((name, a) :: nb.labels).lookup l).getD 0) xs) 0 := by
  have hbefore : Chain nb.heap (xs.map fun x => (x.1, x.2.map (·.mapTarget nb.target))) 0 :=
    hm.chain
  change Chain g (xs.map fun x =>
    (x.1, x.2.map (·.mapTarget fun l => (((name, a) :: nb.labels).lookup l).getD 0))) 0
  refine hbefore.update ?_
  intro x hx next hold
  rw [hnode, hold]
  cases hi : x.2 with
  | none => split <;> rfl
  | some i =>
    split
    · rename_i hj
      obtain ⟨i', he, ht⟩ := (hm.waits_of_lookup name x.1 hj).jump (some i) (hi ▸ hx)
      cases he
      have hcongr : (i.mapTarget nb.target).mapTarget (fun _ => a) =
          i.mapTarget fun l => (((name, a) :: nb.labels).lookup l).getD 0 := by
        rw [Instr.mapTarget_mapTarget]
        apply Instr.mapTarget_congr
        intro l hl
        rw [ht] at hl
        cases hl
        rw [lookup_cons_eq, if_pos rfl]
        rfl
      exact congrArg (fun j => (⟨some j, next⟩ : Node)) hcongr
    · rename_i hj
      have hcongr : i.mapTarget nb.target =
          i.mapTarget fun l => (((name, a) :: nb.labels).lookup l).getD 0 := by
        apply Instr.mapTarget_congr
        intro l hl
        have hne : l ≠ name := by
          rintro rfl
          obtain ⟨jumps, hp, hxj⟩ := hm.patched x hx i hi l hl hname
          rw [lookup_of_mem hm.nodup_pending hp] at hj
          exact hj hxj
        rw [target, lookup_cons_eq, if_neg hne]
      exact congrArg (fun j => (⟨some j, next⟩ : Node)) hcongr

theorem mem_eraseP (hm : Mirrors h₀ xs b nb) {p : String × List Nat}
    (hp : p ∈ nb.pending.eraseP (·.1 == name)) : p ∈ nb.pending ∧ p.1 ≠ name := by
  refine ⟨List.mem_of_mem_eraseP hp, fun he => ?_⟩
  have hp' : p.1 ∈ (nb.pending.eraseP (·.1 == name)).map (·.1) := List.mem_map_of_mem hp
  rw [map_eraseP, he] at hp'
  exact hm.nodup_pending.not_mem_erase hp'

/-- The label has its node, and the jumps that wait for it are made to go there. -/
theorem resolve (hm : Mirrors h₀ xs b nb) {before : Entries} (hxs : xs = before ++ [(a, none)])
    (hname : nb.labels.lookup name = none) :
    Mirrors h₀ xs
      { b with labels := (name, b.code.size) :: b.labels, pending := b.pending.erase name }
      { nb with
        heap := ((nb.pending.lookup name).getD []).foldl (fun h j => h.setTarget j a) nb.heap
        labels := (name, a) :: nb.labels
        pending := nb.pending.eraseP (·.1 == name) } := by
  have hjumps := hm.waits_of_lookup name
  obtain ⟨hw, hnode⟩ := node_patch ((nb.pending.lookup name).getD []) a
    fun j hj => lt_of_used (hjumps j hj).used
  exact {
    hm with
    sound := hw.sound hm.sound fun h0 => (hjumps 0 h0).ne_zero rfl
    keeps := hw.keeps hm.keeps fun j hj => (hjumps j hj).unused
    chain := hm.chain_patched hname hnode
    used := hm.used.mono fun _ _ he => hw.unused.mp he
    labels := by
      refine .cons ⟨rfl, before, [], hxs, ?_⟩ hm.labels
      rw [← Array.length_toList, hm.code, hxs, List.filterMap_append]
      exact congrArg List.length (List.append_nil _)
    pending := (map_eraseP name nb.pending).trans (congrArg (·.erase name) hm.pending)
    nodup := hm.nodup.erase name
    waiting := fun p hp => by
      obtain ⟨hp, hne⟩ := hm.mem_eraseP hp
      obtain ⟨hl, hwaits⟩ := hm.waiting p hp
      refine ⟨(lookup_cons_eq ..).trans ((if_neg hne).trans hl), fun e he => ?_⟩
      exact (hwaits e he).congr fun _ => hw.unused.mp
    patched := fun x hx i hi l hl hnone => by
      rw [lookup_cons_eq] at hnone
      by_cases hne : l = name
      · rw [if_pos hne] at hnone
        cases hnone
      · rw [if_neg hne] at hnone
        obtain ⟨jumps, hp, hxj⟩ := hm.patched x hx i hi l hl hnone
        have hneq : ¬ ((l, jumps).1 == name) = true := fun he => hne (beq_iff_eq.mp he)
        exact ⟨jumps, (List.mem_eraseP_of_neg (p := fun q => q.1 == name) hneq).mpr hp, hxj⟩ }

theorem label (hm : Mirrors h₀ xs b nb) (name : String) :
    (∃ e, b.label name = .error e ∧ nb.label name = .error e) ∨
    ∃ ys b' nb', b.label name = .ok b' ∧ nb.label name = .ok nb' ∧ Mirrors h₀ ys b' nb' := by
  unfold Builder.label NodeBuilder.label
  rw [hm.scopedName_eq]
  generalize b.scopedName name = name
  dsimp only
  rw [hm.isSome_lookup]
  split
  · exact .inl ⟨_, rfl, rfl⟩
  · rename_i hl
    rw [← hm.isSome_lookup, Option.not_isSome_iff_eq_none] at hl
    obtain ⟨hnop, hlabels, hpending⟩ := hm.nop
    exact .inr ⟨_, _, _, rfl, rfl, hnop.resolve rfl (hlabels ▸ hl)⟩

end Mirrors

section Shape

variable {h : Heap} {xs : Entries} {z : Nat}

def nodesOf (xs : Entries) : List Nat := (xs.filter (·.2.isSome)).map (·.1)

def trailOf (xs : Entries) : Nat := xs.getLast?.elim 0 (·.1)

/-- The node where a jump to the name comes to in the built list. -/
def landing (xs : Entries) (b : Builder) (name : String) : Nat :=
  (nodesOf xs)[(b.labels.lookup name).getD b.code.size]?.getD (trailOf xs)

theorem length_filter_isSome (xs : Entries) :
    (xs.filter (·.2.isSome)).length = (xs.filterMap (·.2)).length := by
  induction xs with
  | nil => rfl
  | cons x xs ih =>
    obtain ⟨a, c⟩ := x
    cases c with
    | none => exact ih
    | some i => exact congrArg (· + 1) ih

theorem length_nodesOf (xs : Entries) : (nodesOf xs).length = (xs.filterMap (·.2)).length := by
  rw [nodesOf, List.length_map, length_filter_isSome]

theorem nodesOf_append (xs ys : Entries) : nodesOf (xs ++ ys) = nodesOf xs ++ nodesOf ys := by
  rw [nodesOf, List.filter_append, List.map_append]
  rfl

theorem filter_contents (τ : String → Nat) (xs : Entries) :
    (contents τ xs).filter (·.2.isSome) = contents τ (xs.filter (·.2.isSome)) := by
  induction xs with
  | nil => rfl
  | cons x xs ih =>
    obtain ⟨a, c⟩ := x
    cases c with
    | none => exact ih
    | some i => exact congrArg _ ih

/-- A jump to a label comes to the instruction that the label stands before, or to the end. -/
theorem skip_label {τ : String → Nat} {before behind : Entries} {a : Nat}
    (hc : h.Chain (contents τ (before ++ (a, none) :: behind)) 0)
    (hz : 0 ∉ (before ++ (a, none) :: behind).map (·.1)) :
    h.skip a = some ((nodesOf (before ++ (a, none) :: behind))[
      (before.filterMap (·.2)).length]?.getD (trailOf (before ++ (a, none) :: behind))) := by
  have hsplit : contents τ (before ++ (a, none) :: behind) =
      contents τ before ++ (a, none) :: contents τ behind := List.map_append
  rw [hsplit] at hc
  have hz' : 0 ∉ (contents τ behind).map (·.1) := by
    rw [map_fst_contents]
    intro h0
    apply hz
    rw [List.map_append]
    exact List.mem_append_right _ (List.mem_cons_of_mem _ h0)
  rw [skip_chain hc.suffix hz']
  congr 1
  have hlast : ((a, none) :: contents τ behind).getLast?.elim 0 (·.1) =
      trailOf (before ++ (a, none) :: behind) := by
    rw [trailOf, List.getLast?_append_cons]
    change (contents τ ((a, none) :: behind)).getLast?.elim 0 (·.1) = _
    rw [contents, List.getLast?_map]
    cases ((a, none) :: behind : Entries).getLast? <;> rfl
  have hnodes : (nodesOf (before ++ (a, none) :: behind))[(before.filterMap (·.2)).length]? =
      (nodesOf behind)[0]? := by
    rw [nodesOf_append, ← length_nodesOf, List.getElem?_append_right (Nat.le_refl _), Nat.sub_self]
    rfl
  rw [hlast, hnodes, List.filter_cons_of_neg (by simp), filter_contents, contents, first_map, first_eq]
  change (nodesOf behind).headD _ = _
  cases nodesOf behind <;> rfl

theorem zip_nodesOf {L : Type} (place : String → L) (f : L → Nat) (xs : Entries) :
    (nodesOf xs).zip (((xs.filterMap (·.2)).map (·.mapTarget place)).map
      fun i => some (i.mapTarget f)) = contents (f ∘ place) (xs.filter (·.2.isSome)) := by
  induction xs with
  | nil => rfl
  | cons x xs ih =>
    obtain ⟨a, c⟩ := x
    cases c with
    | none => exact ih
    | some i =>
      change (a, some ((i.mapTarget place).mapTarget f)) :: _ = (a, some (i.mapTarget (f ∘ place))) :: _
      rw [Instr.mapTarget_mapTarget]
      exact congrArg _ ih

theorem contents_retarget {τ τ' : String → Nat} {f : Nat → Nat}
    (hf : ∀ x ∈ xs, ∀ i, x.2 = some i → ∀ name, i.target? = some name → f (τ name) = τ' name) :
    ((contents τ xs).map fun x => (x.1, x.2.map (·.mapTarget f))) = contents τ' xs := by
  rw [contents, List.map_map]
  refine List.map_congr_left fun x hx => ?_
  cases hi : x.2 with
  | none => simp [hi]
  | some i =>
    have hcongr : (i.mapTarget τ).mapTarget f = i.mapTarget τ' := by
      rw [Instr.mapTarget_mapTarget]
      exact Instr.mapTarget_congr (hf x hx i hi)
    simp [hi, hcongr]

end Shape

/-- The builder has built the program in the nodes `as`. -/
structure Built (h₀ : Heap) (p : Program) (r : NodeProgram) (g : Heap) (as : List Nat)
    (trail : Nat) : Prop where
  sound : g.Sound
  keeps : h₀.Keeps g
  stored : g.Stored p as trail
  head : r.head = as.headD 0
  size : r.size = p.size
  used : ∀ a ∈ as, ¬ g.Unused a
  /-- The node behind the last instruction has been given back. -/
  freed : (∃ i ∈ p.code.toList, ∃ t, i.target? = some t ∧ p.code.size ≤ t) → trail ∈ g.pool

theorem built_nil {h₀ g : Heap} {p : Program} (hs : g.Sound) (hk : h₀.Keeps g)
    (hcode : p.code.size = 0) (hsize : p.size = 0) (trail : Nat) : Built h₀ p .empty g [] trail := by
  have hnone : ∀ i, i ∉ p.code.toList := by
    rw [List.eq_nil_of_length_eq_zero (Array.length_toList.trans hcode)]
    exact fun i => List.not_mem_nil
  exact {
    sound := hs
    keeps := hk
    stored := ⟨hcode.symm, List.not_mem_nil, trivial, fun ⟨i, hi, _⟩ => absurd hi (hnone i)⟩
    head := rfl
    size := hsize.symm
    used := fun a ha => absurd ha List.not_mem_nil
    freed := fun ⟨i, hi, _⟩ => absurd hi (hnone i) }

namespace Mirrors

variable {h₀ : Heap} {xs : Entries} {b : Builder} {nb : NodeBuilder} {name : String} {a : Nat}

theorem resolved (hm : Mirrors h₀ xs b nb) (hp : nb.pending = [])
    {x : Nat × Option (Instr String)} (hx : x ∈ xs) {i : Instr String} (hi : x.2 = some i)
    (hn : i.target? = some name) :
    ∃ a k, nb.labels.lookup name = some a ∧ b.labels.lookup name = some k ∧
      Marks xs (name, a) (name, k) := by
  rcases hm.lookup_cases name with ⟨hnone, -⟩ | h
  · obtain ⟨jumps, hj, -⟩ := hm.patched x hx i hi name hn hnone
    rw [hp] at hj
    cases hj
  · exact h

/-- If a jump goes past the last instruction, the list ends with a node without one. -/
theorem getLast?_trail (hm : Mirrors h₀ xs b nb) (hp : nb.pending = [])
    {x : Nat × Option (Instr String)} (hx : x ∈ xs) {i : Instr String} (hi : x.2 = some i)
    (hn : i.target? = some name)
    (hle : b.code.size ≤ (b.labels.lookup name).getD b.code.size) :
    xs.getLast? = some (trailOf xs, none) := by
  obtain ⟨a, k, -, hk, -, before, behind, hsplit, hcount⟩ := hm.resolved hp hx hi hn
  have hsize : b.code.size = (before.filterMap (·.2)).length + (behind.filterMap (·.2)).length := by
    rw [← Array.length_toList, hm.code, hsplit, List.filterMap_append, List.length_append]
    rfl
  have hnone : ∀ y ∈ (a, none) :: behind, y.2 = none := by
    have hnil : behind.filterMap (·.2) = [] := by
      apply List.eq_nil_of_length_eq_zero
      rw [hk] at hle
      dsimp only [Option.getD_some] at hle hcount
      omega
    exact List.forall_mem_cons.mpr ⟨rfl, List.filterMap_eq_nil_iff.mp hnil⟩
  have hlast : xs.getLast? = ((a, none) :: behind).getLast? := by
    rw [hsplit, List.getLast?_append_cons]
  obtain ⟨y, hy⟩ : ∃ y, ((a, none) :: behind).getLast? = some y :=
    ⟨_, List.getLast?_eq_some_getLast (List.cons_ne_nil _ _)⟩
  rw [trailOf, hlast, hy]
  exact congrArg some (Prod.ext rfl (hnone y (List.mem_of_getLast? hy)))

theorem skip_target (hm : Mirrors h₀ xs b nb) (hp : nb.pending = [])
    {x : Nat × Option (Instr String)} (hx : x ∈ xs) {i : Instr String} (hi : x.2 = some i)
    (hn : i.target? = some name) : nb.heap.skip (nb.target name) = some (landing xs b name) := by
  obtain ⟨a, k, ha, hk, -, before, behind, hsplit, hcount⟩ := hm.resolved hp hx hi hn
  have hc := hm.chain
  have hz := hm.used.ne_zero
  rw [hsplit] at hc hz
  have hland : landing xs b name = (nodesOf (before ++ (a, none) :: behind))[
      (before.filterMap (·.2)).length]?.getD (trailOf (before ++ (a, none) :: behind)) := by
    rw [landing, hk, Option.getD_some, hsplit, ← hcount]
  rw [hland, target, ha]
  exact skip_label hc hz

theorem retarget (hm : Mirrors h₀ xs b nb) (hp : nb.pending = []) :
    ∃ g, nb.heap.retarget nb.head = some g ∧ g.Chain (contents (landing xs b) xs) 0 ∧
      Within (xs.map (·.1)) nb.heap g := by
  have hused : nb.heap.Used ((contents nb.target xs).map (·.1)) := by
    rw [map_fst_contents]
    exact hm.used
  obtain ⟨f, hf⟩ : ∃ f : Nat → Nat, ∀ t, f t = (nb.heap.skip t).getD 0 := ⟨_, fun _ => rfl⟩
  have hskip : ∀ x ∈ contents nb.target xs, ∀ t, x.2.bind Instr.target? = some t →
      nb.heap.skip t = some (f t) := by
    intro x hx t ht
    obtain ⟨y, hy, rfl⟩ := List.mem_map.mp hx
    dsimp only at ht
    cases hi : y.2 with
    | none =>
      rw [hi] at ht
      cases ht
    | some i =>
      rw [hi] at ht
      change (i.mapTarget nb.target).target? = some t at ht
      rw [Instr.target?_mapTarget, Option.map_eq_some_iff] at ht
      obtain ⟨name, hn, rfl⟩ := ht
      rw [hf, hm.skip_target hp hy hi hn]
      rfl
  obtain ⟨g, hg, hc, hw⟩ := retarget_chain hm.chain hused hskip
  rw [map_fst_contents] at hw
  refine ⟨g, ?_, ?_, hw⟩
  · rw [hm.head, ← hg, first_eq, first_eq, map_fst_contents]
  · rwa [contents_retarget fun x hx i hi name hn => ?_] at hc
    rw [hf, hm.skip_target hp hx hi hn]
    rfl

theorem built_of_chain {g : Heap} {xs : List (Nat × Option (Instr Nat))} {p : Program}
    {as : List Nat} {trail : Nat} (hs : g.Sound) (hk : h₀.Keeps g) (hc : g.Chain xs 0)
    (hu : g.Used (xs.map (·.1))) (hun : ∀ a ∈ xs.map (·.1), h₀.Unused a)
    (has : (xs.filter (·.2.isSome)).map (·.1) = as) (hlength : as.length = p.code.size)
    (hzip : as.zip (p.code.toList.map fun i => some (i.mapTarget fun t => as[t]?.getD trail)) =
      xs.filter (·.2.isSome))
    (htrail : (∃ i ∈ p.code.toList, ∃ t, i.target? = some t ∧ p.code.size ≤ t) →
      xs.getLast? = some (trail, none))
    (hsize : p.code.size = 0 → p.size = 0) :
    ∃ r g', NodeProgram.ofList g (first xs 0) p.size = some (r, g') ∧ Built h₀ p r g' as trail := by
  obtain ⟨nops, rest, rfl, hnops, hrest⟩ := exists_nops xs
  rw [List.filter_append, (filter_of_nops hnops).1, List.nil_append] at has hzip
  unfold NodeProgram.ofList
  rw [skipFront_chain hc hu.ne_zero hnops hrest]
  cases rest with
  | nil =>
    subst has
    exact ⟨_, _, rfl, built_nil hs hk hlength.symm (hsize hlength.symm) trail⟩
  | cons y ys =>
    have hsub : ((y :: ys).map (·.1)).Sublist ((nops ++ y :: ys).map (·.1)) :=
      (List.sublist_append_right _ _).map _
    have hused := hu.sublist hsub
    obtain ⟨g', hg', hstrips⟩ := strip_chain hc.suffix hused hrest
    have hlast (hj : ∃ i ∈ p.code.toList, ∃ t, i.target? = some t ∧ p.code.size ≤ t) :
        (trail, none) ∈ y :: ys := by
      apply List.mem_of_getLast?
      rw [← List.getLast?_append_cons nops y ys, htrail hj]
    have hkept := hstrips.used hused
    rw [has] at hkept
    refine ⟨⟨y.1, p.size⟩, g', ?_, {
      sound := hstrips.sound hs hused
      keeps := hstrips.keeps hk fun a ha => hun a (hsub.subset ha)
      stored := ⟨hlength, hkept.ne_zero, hzip ▸ hstrips.chain, fun hj =>
        (hstrips.freed hused (hlast hj) rfl).2.trans (hc.node_getLast? (htrail hj))⟩
      head := ?_
      size := rfl
      used := hkept.used
      freed := fun hj => (hstrips.freed hused (hlast hj) rfl).1 }⟩
    · change (if y.1 = 0 then _ else _) = _
      rw [if_neg hused.head_ne_zero]
      change (g.strip (first (y :: ys) 0)).bind _ = _
      rw [hg']
      rfl
    · rw [← has, filter_cons_some (hrest y rfl)]
      rfl

/-- The list with its jumps at instructions is built without its other nodes. -/
theorem ofList_retargeted (hm : Mirrors h₀ xs b nb) (hp : nb.pending = []) {g : Heap}
    (hc : g.Chain (contents (landing xs b) xs) 0) (hw : Within (xs.map (·.1)) nb.heap g) :
    ∃ r g', NodeProgram.ofList g nb.head nb.bytes = some (r, g') ∧
      Built h₀ ⟨b.code.map (·.mapTarget fun name => (b.labels.lookup name).getD b.code.size), b.bytes⟩
        r g' (nodesOf xs) (trailOf xs) := by
  have hfst := map_fst_contents (landing xs b) xs
  have hcode : (b.code.map (·.mapTarget fun name => (b.labels.lookup name).getD b.code.size)).toList =
      (xs.filterMap (·.2)).map (·.mapTarget fun name => (b.labels.lookup name).getD b.code.size) := by
    rw [Array.toList_map, hm.code]
  have hlength : (nodesOf xs).length = b.code.size := by
    rw [length_nodesOf, ← hm.code, Array.length_toList]
  have hnodes : ((contents (landing xs b) xs).filter (·.2.isSome)).map (·.1) = nodesOf xs := by
    rw [filter_contents, map_fst_contents]
    rfl
  have hempty : b.code.size = 0 → b.bytes = 0 := by
    intro h0
    rw [hm.size, ← hm.code, List.eq_nil_of_length_eq_zero (Array.length_toList.trans h0)]
    rfl
  have htrail : (∃ j ∈ (b.code.map (·.mapTarget fun name =>
      (b.labels.lookup name).getD b.code.size)).toList, ∃ t, j.target? = some t ∧
        (b.code.map (·.mapTarget fun name => (b.labels.lookup name).getD b.code.size)).size ≤ t) →
      (contents (landing xs b) xs).getLast? = some (trailOf xs, none) := by
    rintro ⟨j, hj, t, ht, hle⟩
    rw [hcode] at hj
    obtain ⟨i, hi, rfl⟩ := List.mem_map.mp hj
    obtain ⟨x, hx, hi⟩ := List.mem_filterMap.mp hi
    rw [Instr.target?_mapTarget, Option.map_eq_some_iff] at ht
    obtain ⟨name, hn, rfl⟩ := ht
    rw [Array.size_map] at hle
    rw [contents, List.getLast?_map, hm.getLast?_trail hp hx hi hn hle]
    rfl
  have hzip := zip_nodesOf (fun name => (b.labels.lookup name).getD b.code.size)
    (fun t => (nodesOf xs)[t]?.getD (trailOf xs)) xs
  obtain ⟨r, g', hr, hbuilt⟩ := built_of_chain
    (p := ⟨b.code.map (·.mapTarget fun name => (b.labels.lookup name).getD b.code.size), b.bytes⟩)
    (hw.sound hm.sound hm.used.ne_zero) (hw.keeps hm.keeps hm.unused) hc
    (hfst ▸ hm.used.mono fun a _ ha => hw.unused.mp ha) (hfst ▸ hm.unused) hnodes
    (hlength.trans Array.size_map.symm) (by rw [hcode, hzip, filter_contents]; rfl) htrail
    fun h0 => hempty (Array.size_map.symm.trans h0)
  refine ⟨r, g', ?_, hbuilt⟩
  rw [hm.head, hm.bytes, ← hr, first_eq, first_eq, hfst]

theorem build (hm : Mirrors h₀ xs b nb) :
    (∃ e, b.build = .error e ∧ nb.build = some (.error e)) ∨
    ∃ p r g as trail, b.build = .ok p ∧ nb.build = some (.ok (r, g)) ∧ Built h₀ p r g as trail := by
  unfold Builder.build NodeBuilder.build
  cases hp : nb.pending with
  | cons w ps =>
    have hb : b.pending = w.1 :: ps.map (·.1) := by
      rw [← hm.pending, hp]
      rfl
    rw [hb]
    exact .inl ⟨_, rfl, rfl⟩
  | nil =>
    have hb : b.pending = [] := by
      rw [← hm.pending, hp]
      rfl
    rw [hb]
    obtain ⟨g, hg, hc, hw⟩ := hm.retarget hp
    obtain ⟨r, g', hr, hbuilt⟩ := hm.ofList_retargeted hp hc hw
    refine .inr ⟨_, r, g', _, _, rfl, ?_, hbuilt⟩
    dsimp only
    rw [hg]
    change (NodeProgram.ofList g nb.head nb.bytes).bind _ = _
    rw [hr]
    rfl

end Mirrors

end NodeBuilder

end Recompiler.Ir
