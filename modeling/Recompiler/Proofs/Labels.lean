import Recompiler.Emit.Basic
import Recompiler.Proofs.Slots

/-!
The labels of a program under construction. Each name is a kind with a number that is used once,
so that no label is put twice, and a name is reserved from its first use until its label is put.
-/

namespace Recompiler

open Ir

namespace Text

theorem toDigits_inj {m n : Nat} (h : Nat.toDigits 10 m = Nat.toDigits 10 n) : m = n :=
  calc
    m = Nat.ofDigitChars 10 (Nat.toDigits 10 m) 0 := Nat.ofDigitChars_ten_toDigits.symm
    _ = Nat.ofDigitChars 10 (Nat.toDigits 10 n) 0 := by rw [h]
    _ = n := Nat.ofDigitChars_ten_toDigits

theorem toList_decimal (n : Nat) : (decimal n).toList = Nat.toDigits 10 n :=
  String.toList_ofList

end Text

namespace Ir.Builder

theorem labels_push (b : Builder) (i : Ir.Instr String) : (b.push i).labels = b.labels := by
  unfold push
  split <;> rfl

theorem labels_add (b : Builder) (i : Ir.Instr String) : (b.add i).labels = b.labels := by
  unfold add
  dsimp only
  split
  · rw [labels_push]
    unfold request
    split <;> rfl
  · rw [labels_push]

theorem labels_addAll (b : Builder) (is : List (Ir.Instr String)) :
    (is.foldl add b).labels = b.labels := by
  induction is generalizing b with
  | nil => rfl
  | cons i is ih => rw [List.foldl_cons, ih, labels_add]

end Ir.Builder

namespace Emit

def labelKinds : List String := ["slow", "resume", "join", "due", "cmp", "skip", "nt"]

def tag (kind : String) (n : Nat) : String := "_" ++ kind ++ "_" ++ Text.decimal n

theorem entryLabel_eq (n : Nat) : Stub.entryLabel n = tag "slow" n := rfl

theorem resumeLabel_eq (n : Nat) : Stub.resumeLabel n = tag "resume" n := rfl

theorem joinLabel_eq (n : Nat) : Stub.joinLabel n = tag "join" n := rfl

theorem toList_tag (kind : String) (n : Nat) :
    (tag kind n).toList = '_' :: (kind.toList ++ '_' :: Nat.toDigits 10 n) := by
  simp [tag, Text.toList_decimal]

theorem append_sep_inj {sep : Char} {xs ys xs' ys' : List Char} (hx : sep ∉ xs) (hx' : sep ∉ xs')
    (h : xs ++ sep :: ys = xs' ++ sep :: ys') : xs = xs' ∧ ys = ys' := by
  induction xs generalizing xs' with
  | nil =>
    cases xs' with
    | nil => exact ⟨rfl, (List.cons.inj h).2⟩
    | cons x xs' => exact absurd ((List.cons.inj h).1 ▸ List.mem_cons_self) hx'
  | cons x xs ih =>
    cases xs' with
    | nil => exact absurd ((List.cons.inj h).1 ▸ List.mem_cons_self) hx
    | cons x' xs' =>
      obtain ⟨rfl, ht⟩ := List.cons.inj h
      obtain ⟨rfl, hy⟩ := ih (fun hm => hx (List.mem_cons_of_mem _ hm))
        (fun hm => hx' (List.mem_cons_of_mem _ hm)) ht
      exact ⟨rfl, hy⟩

theorem labelKinds_plain :
    ∀ kind ∈ labelKinds, '_' ∉ kind.toList ∧ '\x7b' ∉ kind.toList := by decide

theorem tag_inj {kind kind' : String} {n n' : Nat} (hk : kind ∈ labelKinds)
    (hk' : kind' ∈ labelKinds) (h : tag kind n = tag kind' n') : kind = kind' ∧ n = n' := by
  have h := congrArg String.toList h
  rw [toList_tag, toList_tag] at h
  obtain ⟨hkind, hn⟩ := append_sep_inj (labelKinds_plain kind hk).1 (labelKinds_plain kind' hk').1
    (List.cons.inj h).2
  exact ⟨String.toList_inj.mp hkind, Text.toDigits_inj hn⟩

theorem fillIn_of_plain {digits cs : List Char} (h : '\x7b' ∉ cs) :
    Builder.fillIn digits cs = cs := by
  induction cs with
  | nil => rfl
  | cons c cs ih =>
    have hc : c ≠ '\x7b' := fun he => h (he ▸ List.mem_cons_self)
    have hcs := ih fun hm => h (List.mem_cons_of_mem _ hm)
    unfold Builder.fillIn
    split
    · rename_i heq
      exact absurd (List.cons.inj heq).1 hc
    · rename_i heq
      obtain ⟨rfl, rfl⟩ := List.cons.inj heq
      rw [hcs]
    · rename_i heq
      cases heq

theorem scopedName_tag (b : Builder) {kind : String} (hk : kind ∈ labelKinds) (n : Nat) :
    b.scopedName (tag kind n) = tag kind n := by
  rw [Builder.scopedName, fillIn_of_plain, String.ofList_toList]
  rw [toList_tag]
  intro hm
  simp only [List.mem_cons, List.mem_append] at hm
  rcases hm with hm | hm | hm | hm
  · exact absurd hm (by decide)
  · exact (labelKinds_plain kind hk).2 hm
  · exact absurd hm (by decide)
  · exact absurd (Nat.isDigit_of_mem_toDigits (by decide) (by decide) hm) (by decide)

/-- The names of `reserved` are still to be put, each of them once. All names have numbers up to
`last`, and every jump goes to a label or to a reserved name. -/
structure Labels (reserved : List String) (last : Nat) (b : Builder) : Prop where
  nodup : reserved.Nodup
  free : ∀ name ∈ reserved, b.labels.lookup name = none
  known : ∀ name, name ∈ reserved ∨ (b.labels.lookup name).isSome = true →
    ∃ kind ∈ labelKinds, ∃ n ≤ last, name = tag kind n
  pending_nodup : b.pending.Nodup
  pending : ∀ name ∈ b.pending, name ∈ reserved

namespace Labels

variable {R R' : List String} {n : Nat} {b : Builder}

theorem perm (h : Labels R n b) (hp : R.Perm R') : Labels R' n b where
  nodup := hp.nodup_iff.mp h.nodup
  free name hm := h.free name (hp.mem_iff.mpr hm)
  known name hm := h.known name (hm.imp hp.mem_iff.mpr id)
  pending_nodup := h.pending_nodup
  pending name hm := hp.mem_iff.mp (h.pending name hm)

theorem reserve (h : Labels R n b) {kind : String} (hk : kind ∈ labelKinds) {m : Nat} (hm : n ≤ m)
    (hfree : b.labels.lookup (tag kind m) = none) (hR : tag kind m ∉ R) :
    Labels (tag kind m :: R) m b where
  nodup := List.nodup_cons.mpr ⟨hR, h.nodup⟩
  free name hname := by
    rcases List.mem_cons.mp hname with rfl | hname
    · exact hfree
    · exact h.free name hname
  known name hname := by
    have hold (ho : name ∈ R ∨ (b.labels.lookup name).isSome = true) :
        ∃ kind ∈ labelKinds, ∃ n ≤ m, name = tag kind n := by
      obtain ⟨kind', hk', n', hn', he⟩ := h.known name ho
      exact ⟨kind', hk', n', Nat.le_trans hn' hm, he⟩
    rcases hname with hname | hname
    · rcases List.mem_cons.mp hname with rfl | hname
      · exact ⟨kind, hk, m, Nat.le_refl m, rfl⟩
      · exact hold (.inl hname)
    · exact hold (.inr hname)
  pending_nodup := h.pending_nodup
  pending name hname := List.mem_cons_of_mem _ (h.pending name hname)

theorem free_next (h : Labels R n b) (kind : String) (hk : kind ∈ labelKinds) :
    b.labels.lookup (tag kind (n + 1)) = none ∧ tag kind (n + 1) ∉ R := by
  have hnew : ¬ (tag kind (n + 1) ∈ R ∨ (b.labels.lookup (tag kind (n + 1))).isSome = true) := by
    intro hm
    obtain ⟨kind', hk', n', hn', he⟩ := h.known _ hm
    have := (tag_inj hk hk' he).2
    omega
  refine ⟨?_, fun hm => hnew (.inl hm)⟩
  cases hl : b.labels.lookup (tag kind (n + 1)) with
  | none => rfl
  | some p => exact absurd (.inr (by rw [hl]; rfl)) hnew

theorem reserve_next (h : Labels R n b) (kind : String) (hk : kind ∈ labelKinds) :
    Labels (tag kind (n + 1) :: R) (n + 1) b :=
  h.reserve hk (Nat.le_succ n) (h.free_next kind hk).1 (h.free_next kind hk).2

theorem reserve_stub (h : Labels R n b) :
    Labels (Stub.entryLabel (n + 1) :: Stub.resumeLabel (n + 1) :: Stub.joinLabel (n + 1) :: R)
      (n + 1) b := by
  rw [entryLabel_eq, resumeLabel_eq, joinLabel_eq]
  have hslow := h.free_next "slow" (by decide)
  have hresume := h.free_next "resume" (by decide)
  have hjoin := h.reserve_next "join" (by decide)
  have hne {kind kind' : String} (hk : kind ∈ labelKinds) (hk' : kind' ∈ labelKinds)
      (hd : kind ≠ kind') : tag kind (n + 1) ≠ tag kind' (n + 1) :=
    fun he => hd (tag_inj hk hk' he).1
  have hboth : Labels (tag "resume" (n + 1) :: tag "join" (n + 1) :: R) (n + 1) b := by
    refine hjoin.reserve (by decide) (Nat.le_refl _) hresume.1 fun hm => ?_
    rcases List.mem_cons.mp hm with he | hm
    · exact hne (by decide) (by decide) (by decide) he
    · exact hresume.2 hm
  refine hboth.reserve (by decide) (Nat.le_refl _) hslow.1 fun hm => ?_
  rcases List.mem_cons.mp hm with he | hm
  · exact hne (by decide) (by decide) (by decide) he
  · rcases List.mem_cons.mp hm with he | hm
    · exact hne (by decide) (by decide) (by decide) he
    · exact hslow.2 hm

theorem push (h : Labels R n b) (i : Ir.Instr String) : Labels R n (b.push i) := by
  unfold Builder.push
  split <;> exact ⟨h.nodup, h.free, h.known, h.pending_nodup, h.pending⟩

theorem add (h : Labels R n b) {i : Ir.Instr String}
    (hi : ∀ name, i.target? = some name → ∃ kind ∈ labelKinds, ∃ m, name = tag kind m ∧
      (name ∈ R ∨ (b.labels.lookup name).isSome = true)) : Labels R n (b.add i) := by
  have hclip : (Builder.clip i).target? = i.target? := by
    unfold Builder.clip
    split <;> rfl
  have hmap : ((Builder.clip i).mapTarget b.scopedName).target? =
      i.target?.map b.scopedName := by
    rw [← hclip]
    cases Builder.clip i <;> rfl
  simp only [Builder.add, hmap]
  cases ht : i.target? with
  | none => exact h.push _
  | some name =>
    obtain ⟨kind, hk, m, hname, hres⟩ := hi name ht
    have hscoped : b.scopedName name = name := by rw [hname, scopedName_tag b hk]
    simp only [Option.map_some, hscoped]
    refine push ?_ _
    unfold Builder.request
    split
    · exact h
    · rename_i hreq
      simp only [Bool.or_eq_true, List.contains_iff_mem, not_or] at hreq
      refine ⟨h.nodup, h.free, h.known, ?_, ?_⟩
      · rw [List.nodup_append]
        refine ⟨h.pending_nodup, by simp, ?_⟩
        rintro x hx y hy rfl
        rw [List.mem_singleton.mp hy] at hx
        exact hreq.2 hx
      · intro x hx
        rcases List.mem_append.mp hx with hx | hx
        · exact h.pending x hx
        · rw [List.mem_singleton.mp hx]
          exact hres.resolve_right hreq.1

theorem add_plain (h : Labels R n b) {i : Ir.Instr String} (hi : i.target? = none) :
    Labels R n (b.add i) :=
  h.add fun name hname => by
    rw [hi] at hname
    cases hname

theorem addAll (h : Labels R n b) {is : List (Ir.Instr String)}
    (hi : ∀ i ∈ is, i.isPlain = true) : Labels R n (is.foldl Builder.add b) := by
  induction is generalizing b with
  | nil => exact h
  | cons i is ih =>
    exact ih (h.add_plain (Instr.target?_of_isPlain (hi i List.mem_cons_self))) fun i hm => hi i (List.mem_cons_of_mem _ hm)

theorem label {name : String} (h : Labels (name :: R) n b) :
    ∃ b', b.label name = .ok b' ∧ Labels R n b' ∧
      b'.labels = (name, b.code.size) :: b.labels := by
  obtain ⟨kind, hk, m, -, hname⟩ := h.known name (.inl List.mem_cons_self)
  have hscoped : b.scopedName name = name := by rw [hname, scopedName_tag b hk]
  have hfree := h.free name List.mem_cons_self
  obtain ⟨hnotin, hnodup⟩ := List.nodup_cons.mp h.nodup
  refine ⟨_, by simp only [Builder.label, hscoped, hfree]; rfl, ?_, rfl⟩
  have hlookup {x : String} (hx : x ≠ name) :
      ((name, b.code.size) :: b.labels).lookup x = b.labels.lookup x := by
    rw [List.lookup_cons, beq_false_of_ne hx]
  refine ⟨hnodup, fun x hx => ?_, fun x hx => ?_, h.pending_nodup.erase name, fun x hx => ?_⟩
  · have hne : x ≠ name := fun he => hnotin (he ▸ hx)
    exact (hlookup hne).trans (h.free x (List.mem_cons_of_mem _ hx))
  · by_cases hne : x = name
    · exact h.known x (.inl (hne ▸ List.mem_cons_self))
    · refine h.known x (hx.imp (List.mem_cons_of_mem _) fun hl => ?_)
      rwa [hlookup hne] at hl
  · obtain ⟨hne, hm⟩ := (List.Nodup.mem_erase_iff h.pending_nodup).mp hx
    exact (List.mem_cons.mp (h.pending x hm)).resolve_left hne

end Labels

end Emit

end Recompiler
