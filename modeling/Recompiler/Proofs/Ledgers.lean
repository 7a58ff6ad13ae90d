import Recompiler.Proofs.Sheets

/-!
Sheets of programs that are being built. Labels that are still to be put come with what machines
that jump to them agree on, and slow paths with what machines agree on where they branch off.
-/

namespace Recompiler

open Ir Emit

namespace Ir

namespace Instr

variable {L M : Type}

theorem mapTarget_of_fixed {f : L → L} {i : Instr L}
    (h : ∀ target, i.target? = some target → f target = target) : i.mapTarget f = i := by
  cases i with
  | branch | branchConst | branchOverflow | jump | callout =>
    rw [mapTarget, h _ rfl]
  | _ => rfl

@[simp] theorem target?_clip (i : Instr String) : (Builder.clip i).target? = i.target? := by
  unfold Builder.clip
  split <;> rfl

@[simp] theorem falls_clip (i : Instr String) : (Builder.clip i).falls = i.falls := by
  unfold Builder.clip
  split <;> rfl

@[simp] theorem sources_clip (i : Instr String) : (Builder.clip i).sources = i.sources := by
  unfold Builder.clip
  split <;> rfl

@[simp] theorem results_clip (i : Instr String) : (Builder.clip i).results = i.results := by
  unfold Builder.clip
  split <;> rfl

theorem isBlind_clip {i : Instr String} (h : i.IsBlind) : (Builder.clip i).IsBlind := by
  unfold Builder.clip
  split <;> exact h

@[simp] theorem target?_mapTarget (f : L → M) (i : Instr L) :
    (i.mapTarget f).target? = i.target?.map f := by
  cases i <;> rfl

@[simp] theorem falls_mapTarget (f : L → M) (i : Instr L) :
    (i.mapTarget f).falls = i.falls := by
  cases i <;> rfl

@[simp] theorem sources_mapTarget (f : L → M) (i : Instr L) :
    (i.mapTarget f).sources = i.sources := by
  cases i <;> rfl

@[simp] theorem results_mapTarget (f : L → M) (i : Instr L) :
    (i.mapTarget f).results = i.results := by
  cases i <;> rfl

theorem isBlind_mapTarget (f : L → M) {i : Instr L} (h : i.IsBlind) : (i.mapTarget f).IsBlind := by
  cases i <;> exact h

end Instr

@[simp] theorem carried_clip (K : Set Loc) (i : Instr String) :
    Carried K (Builder.clip i) = Carried K i := by
  unfold Builder.clip
  split <;> rfl

@[simp] theorem carried_mapTarget {L M : Type} (K : Set Loc) (f : L → M) (i : Instr L) :
    Carried K (i.mapTarget f) = Carried K i := by
  cases i <;> rfl

namespace Passes

variable {K K' K'' : Set Loc}

theorem mono {L : Type} {i : Instr L} (h : Passes K i K') (hk : K'' ⊆ K') : Passes K i K'' := by
  cases h with
  | plain hs hb h => exact .plain hs hb fun l hm => h l (hk hm)
  | save h => exact .save fun l hm => h l (hk hm)
  | restore h => exact .restore fun l hm => h l (hk hm)

theorem clip {i : Instr String} (h : Passes K i K') : Passes K (Builder.clip i) K' := by
  cases h with
  | plain hs hb hk =>
    refine .plain ?_ (Instr.isBlind_clip hb) ?_
    · rwa [Instr.sources_clip]
    · rwa [Instr.results_clip]
  | save hk => exact .save hk
  | restore hk => exact .restore hk

theorem mapTarget {L M : Type} (f : L → M) {i : Instr L} (h : Passes K i K') :
    Passes K (i.mapTarget f) K' := by
  cases h with
  | plain hs hb hk =>
    refine .plain ?_ (Instr.isBlind_mapTarget f hb) ?_
    · rwa [Instr.sources_mapTarget]
    · rwa [Instr.results_mapTarget]
  | save hk => exact .save hk
  | restore hk => exact .restore hk

end Passes

namespace Builder

theorem limit_add (b : Builder) (i : Instr String) : (b.add i).limit = b.limit := by
  have hpush (b : Builder) (i : Instr String) : (b.push i).limit = b.limit := by
    unfold push
    split <;> rfl
  have hrequest (b : Builder) (name : String) : (b.request name).limit = b.limit := by
    unfold request
    split <;> rfl
  unfold add
  dsimp only
  split
  · rw [hpush, hrequest]
  · exact hpush _ _

theorem code_add_of_unlimited {b : Builder} (h : b.limit = none) (i : Instr String) :
    (b.add i).code = b.code.push ((clip i).mapTarget b.scopedName) := by
  have hpush (b : Builder) (i : Instr String) (h : b.limit = none) :
      (b.push i).code = b.code.push i := by
    unfold push fits
    rw [h]
    rfl
  have hrequest (b : Builder) (name : String) :
      (b.request name).code = b.code ∧ (b.request name).limit = b.limit := by
    unfold request
    split <;> exact ⟨rfl, rfl⟩
  unfold add
  dsimp only
  split
  · rw [hpush _ _ ((hrequest _ _).2.trans h), (hrequest _ _).1]
  · exact hpush _ _ h

def Calm (b : Builder) : Prop := ∀ cell, b.code.back? ≠ some (.link cell)

end Builder

end Ir

/-- A sheet that goes on with `K` after its first `n` instructions. -/
def grow (T : Nat → Set Loc) (n : Nat) (K : Set Loc) : Nat → Set Loc :=
  fun k => if k ≤ n then T k else K

theorem grow_of_le {T : Nat → Set Loc} {n k : Nat} {K : Set Loc} (h : k ≤ n) :
    grow T n K k = T k := if_pos h

@[simp] theorem grow_succ (T : Nat → Set Loc) (n : Nat) (K : Set Loc) : grow T n K (n + 1) = K :=
  if_neg (by omega)

def cut (T : Nat → Set Loc) (n : Nat) (S : Set Loc) : Nat → Set Loc :=
  fun k => if k = n then T k ∩ S else T k

theorem cut_subset (T : Nat → Set Loc) (n : Nat) (S : Set Loc) (k : Nat) : cut T n S k ⊆ T k := by
  unfold cut
  split
  · exact Set.inter_subset_left
  · exact Set.Subset.rfl

theorem cut_of_ne {T : Nat → Set Loc} {n k : Nat} {S : Set Loc} (h : k ≠ n) :
    cut T n S k = T k := if_neg h

@[simp] theorem cut_self (T : Nat → Set Loc) (n : Nat) (S : Set Loc) : cut T n S n = T n ∩ S :=
  if_pos rfl

/-- A sheet for the program that has been built so far. -/
structure Ledger (T : Nat → Set Loc) (b : Builder) : Prop where
  unlimited : b.limit = none
  entry : ∀ l ∈ T 0, l = .reg .rz
  pass : ∀ k i, b.code[k]? = some i → i.falls = true → Passes (T k) i (T (k + 1))
  jump : ∀ k i name pos, b.code[k]? = some i → i.target? = some name →
    b.labels.lookup name = some pos → T pos ⊆ Carried (T k) i
  bound : ∀ name pos, b.labels.lookup name = some pos → pos ≤ b.code.size
  exit : ∀ (k : Nat) (status : Int), b.code[k]? = some (Instr.exit status) → status = 0
  link : ∀ (k : Nat) (cell : Int), b.code[k]? = some (Instr.link cell) → k + 1 < b.code.size →
    b.code[k + 1]? = some (Instr.exit 0)

namespace Ledger

variable {T : Nat → Set Loc} {b b' : Builder} {K : Set Loc} {i : Ir.Instr String}

theorem cases_push {k : Nat} {j : Ir.Instr String} (h : (b.code.push i)[k]? = some j) :
    k < b.code.size ∧ b.code[k]? = some j ∨ k = b.code.size ∧ j = i := by
  rw [Array.getElem?_push] at h
  split at h
  · cases h
    exact .inr ⟨‹_›, rfl⟩
  · exact .inl ⟨(Array.getElem?_eq_some_iff.mp h).1, h⟩

theorem push (h : Ledger T b) (hlimit : b'.limit = none) (hcode : b'.code = b.code.push i)
    (hlabels : b'.labels = b.labels) (hcalm : b.Calm ∨ i = .exit 0)
    (hpass : i.falls = true → Passes (T b.code.size) i K)
    (hjump : ∀ name pos, i.target? = some name → b.labels.lookup name = some pos →
      T pos ⊆ Carried (T b.code.size) i)
    (hexit : ∀ status, i = .exit status → status = 0) :
    Ledger (grow T b.code.size K) b' where
  unlimited := hlimit
  entry l hm := h.entry l (by rwa [grow_of_le (Nat.zero_le _)] at hm)
  pass k j hj hf := by
    rw [hcode] at hj
    rcases cases_push hj with ⟨hk, hj⟩ | ⟨rfl, rfl⟩
    · rw [grow_of_le (Nat.le_of_lt hk), grow_of_le hk]
      exact h.pass k j hj hf
    · rw [grow_of_le (Nat.le_refl _), grow_succ]
      exact hpass hf
  jump k j name pos hj ht hl := by
    rw [hlabels] at hl
    rw [grow_of_le (h.bound name pos hl)]
    rw [hcode] at hj
    rcases cases_push hj with ⟨hk, hj⟩ | ⟨rfl, rfl⟩
    · rw [grow_of_le (Nat.le_of_lt hk)]
      exact h.jump k j name pos hj ht hl
    · rw [grow_of_le (Nat.le_refl _)]
      exact hjump name pos ht hl
  bound name pos hl := by
    rw [hlabels] at hl
    have := h.bound name pos hl
    rw [hcode, Array.size_push]
    omega
  exit k status hj := by
    rw [hcode] at hj
    rcases cases_push hj with ⟨hk, hj⟩ | ⟨-, hj⟩
    · exact h.exit k status hj
    · exact hexit status hj.symm
  link k cell hj hk := by
    rw [hcode] at hj hk ⊢
    rw [Array.size_push] at hk
    rcases cases_push hj with ⟨hk', hj⟩ | ⟨rfl, hj⟩
    · by_cases hlast : k + 1 = b.code.size
      · have hback : b.code.back? = some (.link cell) := by
          rw [Array.back?, ← hlast]
          exact hj
        rw [hlast, Array.getElem?_push_size]
        exact congrArg some (hcalm.resolve_left fun hc => hc cell hback)
      · rw [Array.getElem?_push_lt (by omega)]
        have := h.link k cell hj (by omega)
        rwa [Array.getElem?_eq_getElem (by omega)] at this
    · omega

theorem trim (h : Ledger T b) (S : Set Loc) : Ledger (cut T b.code.size S) b where
  unlimited := h.unlimited
  entry l hm := h.entry l (cut_subset T _ S 0 hm)
  pass k j hj hf := by
    have hk := (Array.getElem?_eq_some_iff.mp hj).1
    rw [cut_of_ne (by omega)]
    exact (h.pass k j hj hf).mono (cut_subset T _ S _)
  jump k j name pos hj ht hl := by
    have hk := (Array.getElem?_eq_some_iff.mp hj).1
    rw [cut_of_ne (k := k) (by omega)]
    exact (cut_subset T _ S pos).trans (h.jump k j name pos hj ht hl)
  bound := h.bound
  exit := h.exit
  link := h.link

/-- Where a label is put, machines agree on what they agree on at all jumps to it. -/
theorem label (h : Ledger T b) {name : String} {S : Set Loc} (hlimit : b'.limit = none)
    (hcode : b'.code = b.code) (hlabels : b'.labels = (name, b.code.size) :: b.labels)
    (hS : ∀ k i, b.code[k]? = some i → i.target? = some name → S ⊆ Carried (T k) i) :
    Ledger (cut T b.code.size S) b' where
  unlimited := hlimit
  entry l hm := h.entry l (cut_subset T _ S 0 hm)
  pass k j hj hf := by
    rw [hcode] at hj
    have hk := (Array.getElem?_eq_some_iff.mp hj).1
    rw [cut_of_ne (by omega)]
    exact (h.pass k j hj hf).mono (cut_subset T _ S _)
  jump k j name' pos hj ht hl := by
    rw [hcode] at hj
    have hk := (Array.getElem?_eq_some_iff.mp hj).1
    rw [cut_of_ne (k := k) (by omega)]
    rw [hlabels, List.lookup_cons] at hl
    split at hl
    · rename_i hname
      cases hl
      rw [cut_self]
      rw [beq_iff_eq.mp hname] at ht
      exact fun l hm => hS k j hj ht hm.2
    · exact (cut_subset T _ S pos).trans (h.jump k j name' pos hj ht hl)
  bound name' pos hl := by
    rw [hcode]
    rw [hlabels, List.lookup_cons] at hl
    split at hl
    · cases hl
      exact Nat.le_refl _
    · exact h.bound name' pos hl
  exit := by rw [hcode]; exact h.exit
  link := by rw [hcode]; exact h.link

end Ledger

/-- A register that is to be written before anything else uses it. -/
inductive Due where
  | word (x : HostReg) (value : Content)
  | fp (x : FpReg)

def Due.loc : Due → Loc
  | .word x _ => .reg x
  | .fp x => .fp x

/-- Machines that agree on `K` agree on the register if it holds a value or a constant. The ones of
`owed` are still to be written, and pinned until then. Values are not in the header of the state,
and the registers of `temps` hold temporaries. -/
structure Slot.Backs (K : Set Loc) (temps : List HostReg) (owed : List Due) (r : Fin 9)
    (s : Slot) : Prop where
  known : s.content.isValue = true →
    .reg (.ofSlot r) ∈ K ∨ ∃ value, .word (.ofSlot r) value ∈ owed
  place : s.content.isValue = true → 64 ≤ s.content.offset
  const : s.isConst = true →
    .reg (.ofSlot r) ∈ K ∧ (s.content.isValue = true ∨ .ofSlot r ∈ temps)
  temp : .ofSlot r ∈ temps → s.content = .temp
  due : ∀ value, .word (.ofSlot r) value ∈ owed →
    s.busy = true ∧ s.content.isValue = true ∧ s.content.base = value

structure FpSlot.Backs (K : Set Loc) (owed : List Due) (r : Fin 8) (s : FpSlot) : Prop where
  known : s.content ≠ none → .fp (.ofSlot r) ∈ K ∨ .fp (.ofSlot r) ∈ owed
  place : ∀ size off, s.content = some (size, off) → 64 ≤ off

/-- Machines that agree on `K` agree on all registers that are in use. -/
structure Backs (K : Set Loc) (temps : List HostReg) (owed : List Due) (s : Snapshot) : Prop where
  zero : .reg .rz ∈ K
  held : ∀ x ∈ temps, ∃ r : Fin 9, x = .ofSlot r
  slot : ∀ r, (s.slots.get r).Backs K temps owed r
  fpSlot : ∀ r, (s.fpSlots.get r).Backs K owed r

namespace Emit

/-- What machines agree on after a slow path that keeps `temps`. -/
def Stub.Reloaded (stub : Stub) (temps : List HostReg) : Set Loc := { l |
  l = .reg .rz ∨
  (∃ r, l = .reg (.ofSlot r) ∧ ((stub.leave.slots.get r).content.isValue = true ∨
    (stub.leave.slots.get r).content = .temp ∧ .ofSlot r ∈ temps)) ∨
  ∃ r, l = .fp (.ofSlot r) ∧ (stub.leave.fpSlots.get r).content ≠ none }

/-- The slow path is in order if machines agree on `S` where it branches off. -/
structure Stub.Relies (stub : Stub) (S : Set Loc) (temps : List HostReg) : Prop where
  enter : Backs S temps [] stub.enter
  known : ∀ x ∈ temps, .reg x ∈ S
  addr : .reg stub.addr ∈ S
  place : ∀ r, (stub.leave.slots.get r).content.isValue = true →
    64 ≤ (stub.leave.slots.get r).content.offset
  fpPlace : ∀ r size off, (stub.leave.fpSlots.get r).content = some (size, off) → 64 ≤ off

def Meet (T : Nat → Set Loc) (b : Builder) (name : String) (S : Set Loc) : Prop :=
  ∀ (k : Nat) (i : Ir.Instr String), b.code[k]? = some i → i.target? = some name →
    S ⊆ Carried (T k) i

/-- The name has its label, where machines agree on no more than `S`. -/
def Placed (T : Nat → Set Loc) (b : Builder) (name : String) (S : Set Loc) : Prop :=
  ∃ pos, b.labels.lookup name = some pos ∧ T pos ⊆ S

/-- What is pledged of names that are still in use. -/
structure Pledges where
  /-- The last number in a name. -/
  last : Nat
  /-- The slow paths that are still to be emitted. -/
  stubs : List Stub
  /-- Names that have their label, with the most that machines agree on there. -/
  placed : List (String × Set Loc)
  /-- Names that are to be put, with what machines that jump to them agree on. -/
  awaited : List (String × Set Loc)

namespace Pledges

def reserved (G : Pledges) : List String := G.awaited.map Prod.fst ++ stubLabels G.stubs

end Pledges

/-- A ledger that keeps its pledges. -/
structure Book (G : Pledges) (T : Nat → Set Loc) (b : Builder) : Prop where
  ledger : Ledger T b
  labels : Labels G.reserved G.last b
  targets : ∀ (k : Nat) (i : Ir.Instr String) (name : String), b.code[k]? = some i →
    i.target? = some name → ∃ kind ∈ labelKinds, ∃ m ≤ G.last, name = tag kind m
  awaited : ∀ x ∈ G.awaited, Meet T b x.1 x.2
  placed : ∀ x ∈ G.placed, Placed T b x.1 x.2
  stubs : ∀ stub ∈ G.stubs, ∃ S temps, stub.Relies S temps ∧
    Meet T b (Stub.entryLabel stub.id) S ∧ Placed T b (Stub.joinLabel stub.id) (stub.Reloaded temps)
  unresumed : ∀ stub ∈ G.stubs, Meet T b (Stub.resumeLabel stub.id) Set.univ

namespace Book

variable {G : Pledges} {T : Nat → Set Loc} {b b' : Builder} {K : Set Loc} {i : Ir.Instr String}

theorem clip_scoped (h : Book G T b)
    (ht : ∀ name, i.target? = some name →
      name ∈ G.reserved ∨ (b.labels.lookup name).isSome = true) :
    (Builder.clip i).mapTarget b.scopedName = Builder.clip i := by
  refine Instr.mapTarget_of_fixed fun name hname => ?_
  rw [Instr.target?_clip] at hname
  obtain ⟨kind, hk, m, -, rfl⟩ := h.labels.known name (ht name hname)
  exact scopedName_tag b hk m

/-- Adds an instruction. What it jumps to is reserved and not yet put, or has been put. -/
theorem add (h : Book G T b) (hcalm : b.Calm ∨ i = .exit 0)
    (hpass : i.falls = true → Passes (T b.code.size) i K)
    (ht : ∀ name, i.target? = some name → name ∈ G.reserved ∨ (b.labels.lookup name).isSome = true)
    (hplaced : ∀ name pos, i.target? = some name → b.labels.lookup name = some pos →
      T pos ⊆ Carried (T b.code.size) i)
    (hmeet : ∀ x ∈ G.awaited, i.target? = some x.1 → x.2 ⊆ Carried (T b.code.size) i)
    (hstub : ∀ name, i.target? = some name → name ∉ stubLabels G.stubs)
    (hexit : ∀ status, i = .exit status → status = 0) :
    Book G (grow T b.code.size K) (b.add i) := by
  have hcode := Builder.code_add_of_unlimited h.ledger.unlimited i
  rw [h.clip_scoped ht] at hcode
  have hlabels := Builder.labels_add b i
  have hold {name : String} {S : Set Loc} (hm : Meet T b name S)
      (hnew : i.target? = some name → S ⊆ Carried (T b.code.size) i) :
      Meet (grow T b.code.size K) (b.add i) name S := by
    intro k j hj hname
    rw [hcode] at hj
    rcases Ledger.cases_push hj with ⟨hk, hj⟩ | ⟨rfl, rfl⟩
    · rw [grow_of_le (Nat.le_of_lt hk)]
      exact hm k j hj hname
    · rw [grow_of_le (Nat.le_refl _), carried_clip]
      exact hnew (by rwa [Instr.target?_clip] at hname)
  have hkeep {name : String} {S : Set Loc} (hm : Placed T b name S) :
      Placed (grow T b.code.size K) (b.add i) name S := by
    obtain ⟨pos, hl, hs⟩ := hm
    refine ⟨pos, by rwa [hlabels], ?_⟩
    rwa [grow_of_le (h.ledger.bound name pos hl)]
  have hnot {stub : Stub} {name : String} (hs : stub ∈ G.stubs)
      (hmem : name ∈ [Stub.entryLabel stub.id, Stub.resumeLabel stub.id])
      (hname : i.target? = some name) : False :=
    hstub name hname (List.mem_flatMap.mpr ⟨stub, hs, hmem⟩)
  refine ⟨?_, ?_, ?_, fun x hx => hold (h.awaited x hx) (hmeet x hx),
    fun x hx => hkeep (h.placed x hx), fun stub hs => ?_, fun stub hs => ?_⟩
  · refine h.ledger.push ((Builder.limit_add b i).trans h.ledger.unlimited) hcode hlabels
      ?_ ?_ ?_ ?_
    · exact hcalm.imp_right fun he => by rw [he]; rfl
    · intro hf
      rw [Instr.falls_clip] at hf
      exact (hpass hf).clip
    · intro name pos hname hl
      rw [Instr.target?_clip] at hname
      rw [carried_clip]
      exact hplaced name pos hname hl
    · intro status he
      refine hexit status ?_
      unfold Builder.clip at he
      split at he
      all_goals first | exact he | cases he
  · refine h.labels.add fun name hname => ?_
    obtain ⟨kind, hk, m, -, he⟩ := h.labels.known name (ht name hname)
    exact ⟨kind, hk, m, he, ht name hname⟩
  · intro k j name hj hname
    rw [hcode] at hj
    rcases Ledger.cases_push hj with ⟨-, hj⟩ | ⟨-, rfl⟩
    · exact h.targets k j name hj hname
    · rw [Instr.target?_clip] at hname
      exact h.labels.known name (ht name hname)
  · obtain ⟨S, temps, hr, hentry, hjoin⟩ := h.stubs stub hs
    exact ⟨S, temps, hr, hold hentry fun hn => (hnot hs (by simp) hn).elim, hkeep hjoin⟩
  · exact hold (h.unresumed stub hs) fun hn => (hnot hs (by simp) hn).elim

/-- Where a label is put, machines agree on what they agree on at all jumps to it. -/
theorem label {n : Nat} {stubs : List Stub} {placed J : List (String × Set Loc)} {name : String}
    {S : Set Loc} (h : Book ⟨n, stubs, placed, (name, S) :: J⟩ T b) (hl : b.label name = .ok b') :
    Book ⟨n, stubs, (name, S) :: placed, J⟩ (cut T b.code.size S) b' := by
  have hlabels : Labels (name :: (J.map Prod.fst ++ stubLabels stubs)) n b := h.labels
  obtain ⟨b₁, hb₁, hlabels', hnew⟩ := hlabels.label
  obtain rfl : b₁ = b' := Except.ok.inj (hb₁.symm.trans hl)
  have hfree := hlabels.free name List.mem_cons_self
  obtain ⟨hcode, hlimit⟩ : b₁.code = b.code ∧ b₁.limit = b.limit := by
    unfold Builder.label at hl
    dsimp only at hl
    split at hl <;> cases hl
    exact ⟨rfl, rfl⟩
  have hmeet {name' : String} {S' : Set Loc} (hm : Meet T b name' S') :
      Meet (cut T b.code.size S) b₁ name' S' := by
    intro k i hi
    rw [hcode] at hi
    have hk := (Array.getElem?_eq_some_iff.mp hi).1
    rw [cut_of_ne (by omega)]
    exact hm k i hi
  have hplaced {name' : String} {S' : Set Loc} (hp : Placed T b name' S') :
      Placed (cut T b.code.size S) b₁ name' S' := by
    obtain ⟨pos, hpos, hs⟩ := hp
    have hne : name' ≠ name := by
      rintro rfl
      rw [hfree] at hpos
      cases hpos
    refine ⟨pos, ?_, (cut_subset T _ S pos).trans hs⟩
    rwa [hnew, List.lookup_cons, beq_false_of_ne hne]
  refine ⟨h.ledger.label (hlimit.trans h.ledger.unlimited) hcode hnew
      (h.awaited (name, S) List.mem_cons_self), hlabels', ?_,
    fun x hx => hmeet (h.awaited x (List.mem_cons_of_mem _ hx)), fun x hx => ?_, fun stub hs => ?_,
    fun stub hs => hmeet (h.unresumed stub hs)⟩
  · rw [hcode]
    exact h.targets
  · rcases List.mem_cons.mp hx with rfl | hx
    · refine ⟨b.code.size, ?_, ?_⟩
      · rw [hnew, List.lookup_cons, beq_self_eq_true]
      · rw [cut_self]
        exact Set.inter_subset_right
    · exact hplaced (h.placed x hx)
  · obtain ⟨S', temps, hr, hentry, hjoin⟩ := h.stubs stub hs
    exact ⟨S', temps, hr, hmeet hentry, hplaced hjoin⟩

theorem trim (h : Book G T b) (S : Set Loc) : Book G (cut T b.code.size S) b := by
  have hmeet {name : String} {S' : Set Loc} (hm : Meet T b name S') :
      Meet (cut T b.code.size S) b name S' := by
    intro k i hi
    have hk := (Array.getElem?_eq_some_iff.mp hi).1
    rw [cut_of_ne (by omega)]
    exact hm k i hi
  have hplaced {name : String} {S' : Set Loc} (hp : Placed T b name S') :
      Placed (cut T b.code.size S) b name S' := by
    obtain ⟨pos, hpos, hs⟩ := hp
    exact ⟨pos, hpos, (cut_subset T _ S pos).trans hs⟩
  refine ⟨h.ledger.trim S, h.labels, h.targets, fun x hx => hmeet (h.awaited x hx),
    fun x hx => hplaced (h.placed x hx), fun stub hs => ?_,
    fun stub hs => hmeet (h.unresumed stub hs)⟩
  obtain ⟨S', temps, hr, hentry, hjoin⟩ := h.stubs stub hs
  exact ⟨S', temps, hr, hmeet hentry, hplaced hjoin⟩

theorem meet_next (h : Book G T b) {kind : String} (hk : kind ∈ labelKinds) (S : Set Loc) :
    Meet T b (tag kind (G.last + 1)) S := by
  intro k i hi hname
  obtain ⟨kind', hk', m, hm, he⟩ := h.targets k i _ hi hname
  have := (tag_inj hk hk' he).2
  omega

theorem targets_le (h : Book G T b) {n : Nat} (hn : G.last ≤ n) (k : Nat) (i : Ir.Instr String)
    (name : String) (hi : b.code[k]? = some i) (hname : i.target? = some name) :
    ∃ kind ∈ labelKinds, ∃ m ≤ n, name = tag kind m := by
  obtain ⟨kind, hk, m, hm, he⟩ := h.targets k i name hi hname
  exact ⟨kind, hk, m, Nat.le_trans hm hn, he⟩

end Book

/-- The program so far keeps its pledges, and machines that get to its end agree on `K`. -/
def Page (G : Pledges) (K : Set Loc) (b : Builder) : Prop :=
  ∃ T, Book G T b ∧ T b.code.size = K ∧ b.Calm

namespace Page

variable {G : Pledges} {K K' S : Set Loc} {b b' : Builder} {i : Ir.Instr String} {n : Nat}
  {stubs : List Stub} {placed J : List (String × Set Loc)} {name : String}

theorem mono (h : Page G K b) (hk : K' ⊆ K) : Page G K' b := by
  obtain ⟨T, hb, rfl, hcalm⟩ := h
  refine ⟨_, hb.trim K', ?_, hcalm⟩
  rw [cut_self]
  exact Set.inter_eq_right.mpr hk

theorem perm {J' : List (String × Set Loc)} (h : Page ⟨n, stubs, placed, J⟩ K b)
    (hJ : J.Perm J') : Page ⟨n, stubs, placed, J'⟩ K b := by
  obtain ⟨T, hb, hK, hcalm⟩ := h
  exact ⟨T, ⟨hb.ledger, hb.labels.perm ((hJ.map Prod.fst).append_right _), hb.targets,
    fun x hx => hb.awaited x (hJ.mem_iff.mpr hx), hb.placed, hb.stubs, hb.unresumed⟩, hK, hcalm⟩

theorem calm_add (hb : b.limit = none) (hi : ∀ cell, i ≠ .link cell) : (b.add i).Calm := by
  intro cell hback
  rw [Builder.code_add_of_unlimited hb, Array.back?_push] at hback
  have h : (Builder.clip i).mapTarget b.scopedName = .link cell := Option.some.inj hback
  unfold Builder.clip at h
  split at h
  all_goals first | cases h | skip
  cases i <;> cases h
  exact hi _ rfl

theorem size_add (hb : b.limit = none) : (b.add i).code.size = b.code.size + 1 := by
  rw [Builder.code_add_of_unlimited hb, Array.size_push]

theorem add (h : Page G K b) (ht : i.target? = none) (hi : ∀ cell, i ≠ .link cell)
    (hpass : i.falls = true → Passes K i K') (hexit : ∀ status, i = .exit status → status = 0) :
    Page G K' (b.add i) := by
  obtain ⟨T, hb, rfl, hcalm⟩ := h
  have hlimit := hb.ledger.unlimited
  refine ⟨_, hb.add (.inl hcalm) hpass ?_ ?_ ?_ ?_ hexit, ?_, calm_add hlimit hi⟩
  · simp [ht]
  · simp [ht]
  · simp [ht]
  · simp [ht]
  · rw [size_add hlimit, grow_succ]

theorem pass (h : Page G K b) (hi : i.isPlain = true) (hpass : Passes K i K') :
    Page G K' (b.add i) := by
  refine h.add (Instr.target?_of_isPlain hi) ?_ (fun _ => hpass) ?_
  · rintro cell rfl
    cases hi
  · rintro status rfl
    cases hi

theorem exit (h : Page G K b) : Page G Set.univ (b.add (.exit 0)) :=
  h.add rfl (fun _ he => nomatch he) (fun hf => nomatch hf) fun _ he => by
    cases he
    rfl

theorem save (h : Page G K b) (x : HostReg) (r : Fin 9) :
    Page G { l | l ∈ K ∧ l ≠ .save r ∨ l = .save r ∧ .reg x ∈ K }
      (b.add (.stc x (Layout.save r))) :=
  h.pass rfl (.save fun _ hl => hl)

theorem restore (h : Page G K b) (x : HostReg) (r : Fin 9) :
    Page G { l | l ∈ K ∧ l ≠ .reg x ∨ l = .reg x ∧ .save r ∈ K }
      (b.add (.ldc (Layout.save r) x)) :=
  h.pass rfl (.restore fun _ hl => hl)

/-- A jump to the name that is awaited first. -/
theorem jump (h : Page ⟨n, stubs, placed, (name, S) :: J⟩ K b) (ht : i.target? = some name)
    (hS : S ⊆ Carried K i) (hpass : i.falls = true → Passes K i K') :
    Page ⟨n, stubs, placed, (name, S) :: J⟩ K' (b.add i) := by
  obtain ⟨T, hb, rfl, hcalm⟩ := h
  have hlimit := hb.ledger.unlimited
  have hlabels : Labels (name :: (J.map Prod.fst ++ stubLabels stubs)) n b := hb.labels
  obtain ⟨hnew, -⟩ := List.nodup_cons.mp hlabels.nodup
  have hname {name' : String} (h' : i.target? = some name') : name' = name :=
    Option.some.inj (h'.symm.trans ht)
  refine ⟨_, hb.add (.inl hcalm) hpass ?_ ?_ ?_ ?_ ?_, ?_, calm_add hlimit ?_⟩
  · intro name' h'
    rw [hname h']
    exact .inl List.mem_cons_self
  · intro name' pos h' hpos
    rw [hname h', hlabels.free name List.mem_cons_self] at hpos
    cases hpos
  · intro x hx h'
    rcases List.mem_cons.mp hx with rfl | hx
    · exact hS
    · rw [← hname h'] at hnew
      exact absurd (List.mem_append_left _ (List.mem_map_of_mem hx)) hnew
  · intro name' h' hm
    rw [hname h'] at hm
    exact hnew (List.mem_append_right _ hm)
  · rintro status rfl
    cases ht
  · rw [size_add hlimit, grow_succ]
  · rintro cell rfl
    cases ht

theorem leave (h : Page ⟨n, stubs, placed, (name, S) :: J⟩ K b) (ht : i.target? = some name)
    (hS : S ⊆ Carried K i) (hf : i.falls = false) :
    Page ⟨n, stubs, placed, (name, S) :: J⟩ Set.univ (b.add i) :=
  h.jump ht hS fun h' => absurd h' (by rw [hf]; decide)

/-- A jump to a label that has been put. -/
theorem jumpBack (h : Page ⟨n, stubs, (name, S) :: placed, J⟩ K b) (hS : S ⊆ K) :
    Page ⟨n, stubs, (name, S) :: placed, J⟩ Set.univ (b.add (.jump name)) := by
  obtain ⟨T, hb, rfl, hcalm⟩ := h
  have hlimit := hb.ledger.unlimited
  obtain ⟨pos, hpos, hsub⟩ := hb.placed (name, S) List.mem_cons_self
  have hput : name ∉ J.map Prod.fst ++ stubLabels stubs := by
    intro hm
    have hfree := hb.labels.free name hm
    rw [hpos] at hfree
    cases hfree
  refine ⟨_, hb.add (K := Set.univ) (.inl hcalm) (fun hf => nomatch hf) ?_ ?_ ?_ ?_
    (fun _ he => nomatch he), ?_, calm_add hlimit fun _ he => nomatch he⟩
  · rintro _ ⟨⟩
    exact .inr (by rw [hpos]; rfl)
  · rintro _ pos' ⟨⟩ hpos'
    rw [hpos] at hpos'
    cases hpos'
    exact hsub.trans hS
  · rintro x hx ⟨⟩
    exact absurd (List.mem_append_left _ (List.mem_map_of_mem hx)) hput
  · rintro _ ⟨⟩ hm
    exact hput (List.mem_append_right _ hm)
  · rw [size_add hlimit, grow_succ]

theorem weaken (h : Page ⟨n, stubs, placed, (name, S) :: J⟩ K b) {S' : Set Loc} (hS : S' ⊆ S) :
    Page ⟨n, stubs, placed, (name, S') :: J⟩ K b := by
  obtain ⟨T, hb, hK, hcalm⟩ := h
  refine ⟨T, { hb with awaited := fun x hx => ?_ }, hK, hcalm⟩
  rcases List.mem_cons.mp hx with rfl | hx
  · exact fun k i hi ht => hS.trans (hb.awaited (name, S) List.mem_cons_self k i hi ht)
  · exact hb.awaited x (List.mem_cons_of_mem _ hx)

theorem branch (h : Page ⟨n, stubs, placed, (name, Set.univ) :: J⟩ K b)
    (ht : i.target? = some name) (hf : i.falls = true) (hs : ∀ l ∈ i.sources, l ∈ K) :
    Page ⟨n, stubs, placed, (name, K) :: J⟩ K (b.add i) := by
  have hblind : i.IsBlind ∧ Carried K i = K := by
    cases i with
    | branch | branchConst | branchOverflow => exact ⟨trivial, rfl⟩
    | jump | callout => cases hf
    | _ => cases ht
  refine (h.weaken (Set.subset_univ K)).jump ht (by rw [hblind.2]) fun _ => ?_
  exact .plain hs hblind.1 fun l hm => .inl hm

theorem fresh (h : Page ⟨n, stubs, placed, J⟩ K b) {kind : String} (hk : kind ∈ labelKinds)
    (S : Set Loc) : Page ⟨n + 1, stubs, placed, (tag kind (n + 1), S) :: J⟩ K b := by
  obtain ⟨T, hb, hK, hcalm⟩ := h
  refine ⟨T, ⟨hb.ledger, hb.labels.reserve_next kind hk, hb.targets_le (Nat.le_succ n),
    fun x hx => ?_, hb.placed, hb.stubs, hb.unresumed⟩, hK, hcalm⟩
  rcases List.mem_cons.mp hx with rfl | hx
  · exact hb.meet_next hk S
  · exact hb.awaited x hx

theorem freshStub (h : Page ⟨n, stubs, placed, J⟩ K b) (S : Set Loc) :
    Page ⟨n + 1, stubs, placed, (Stub.entryLabel (n + 1), S) ::
      (Stub.resumeLabel (n + 1), Set.univ) :: (Stub.joinLabel (n + 1), Set.univ) :: J⟩ K b := by
  obtain ⟨T, hb, hK, hcalm⟩ := h
  refine ⟨T, ⟨hb.ledger, hb.labels.reserve_stub, hb.targets_le (Nat.le_succ n),
    fun x hx => ?_, hb.placed, hb.stubs, hb.unresumed⟩, hK, hcalm⟩
  have hslow : "slow" ∈ labelKinds := by decide
  have hresume : "resume" ∈ labelKinds := by decide
  have hjoin : "join" ∈ labelKinds := by decide
  rcases List.mem_cons.mp hx with rfl | hx
  · exact hb.meet_next hslow S
  rcases List.mem_cons.mp hx with rfl | hx
  · exact hb.meet_next hresume Set.univ
  rcases List.mem_cons.mp hx with rfl | hx
  · exact hb.meet_next hjoin Set.univ
  · exact hb.awaited x hx

theorem calm_label (h : b.Calm) (hl : b.label name = .ok b') : b'.Calm := by
  unfold Builder.label at hl
  dsimp only at hl
  split at hl <;> cases hl
  exact h

theorem size_label (hl : b.label name = .ok b') : b'.code.size = b.code.size := by
  unfold Builder.label at hl
  dsimp only at hl
  split at hl <;> cases hl
  rfl

theorem place (h : Page ⟨n, stubs, placed, (name, S) :: J⟩ K b) (hl : b.label name = .ok b') :
    Page ⟨n, stubs, (name, S) :: placed, J⟩ (K ∩ S) b' := by
  obtain ⟨T, hb, rfl, hcalm⟩ := h
  refine ⟨_, hb.label hl, ?_, calm_label hcalm hl⟩
  rw [size_label hl, cut_self]

theorem label (h : Page ⟨n, stubs, placed, (name, S) :: J⟩ K b) (hl : b.label name = .ok b') :
    Page ⟨n, stubs, placed, J⟩ (K ∩ S) b' := by
  obtain ⟨T, hb, hK⟩ := h.place hl
  exact ⟨T, { hb with placed := fun x hx => hb.placed x (List.mem_cons_of_mem _ hx) }, hK⟩

theorem ask {id : Int} (h : Page ⟨n, stubs, placed, (name, Set.univ) :: J⟩ K b)
    (hl : (b.add (.callout id name)).label name = .ok b') :
    Page ⟨n, stubs, placed, J⟩ { l | l = .reg .rz ∨ ∃ r, l = .save r ∧ l ∈ K } b' := by
  have hasked := (h.weaken (Set.subset_univ { l | l = .reg .rz ∨ ∃ r, l = .save r ∧ l ∈ K })).leave
    (i := .callout id name) rfl Set.Subset.rfl rfl
  exact (hasked.label hl).mono (Set.subset_inter (Set.subset_univ _) Set.Subset.rfl)

theorem link {cell : Int} (h : Page ⟨n, stubs, placed, (name, Set.univ) :: J⟩ K b)
    (ht : i.target? = some name) (hf : i.falls = true) (hs : ∀ l ∈ i.sources, l ∈ K)
    (hl : ((b.add i).add (.link cell)).label name = .ok b') :
    Page ⟨n, stubs, placed, J⟩ Set.univ (b'.add (.exit 0)) := by
  obtain ⟨T, hb, hK, hcalm⟩ := h.branch ht hf hs
  have hlinked : Book ⟨n, stubs, placed, (name, K) :: J⟩ (grow T (b.add i).code.size K)
      ((b.add i).add (.link cell)) := by
    refine hb.add (.inl hcalm) (fun _ => ?_) (fun _ he => nomatch he) (fun _ _ he => nomatch he)
      (fun _ _ he => nomatch he) (fun _ he => nomatch he) fun _ he => nomatch he
    exact .plain (fun _ hm => nomatch hm) trivial fun l hm => .inl (by rwa [hK])
  have hdue := hlinked.label hl
  have hlimit := hdue.ledger.unlimited
  have hout : Book ⟨n, stubs, (name, K) :: placed, J⟩ _ (b'.add (.exit 0)) :=
    hdue.add (K := Set.univ) (.inr rfl) (fun he => nomatch he) (fun _ he => nomatch he)
      (fun _ _ he => nomatch he) (fun _ _ he => nomatch he) (fun _ he => nomatch he) fun _ he => by
        cases he
        rfl
  refine ⟨_, { hout with placed := fun x hx => hout.placed x (List.mem_cons_of_mem _ hx) }, ?_,
    calm_add hlimit fun _ he => nomatch he⟩
  rw [size_add hlimit, grow_succ]

/-- The end of a fast path. -/
theorem join {stub : Stub} {temps : List HostReg} (hr : stub.Relies S temps)
    (h : Page ⟨n, stubs, (Stub.joinLabel stub.id, stub.Reloaded temps) :: placed,
      (Stub.entryLabel stub.id, S) :: (Stub.resumeLabel stub.id, Set.univ) :: J⟩ K b) :
    Page ⟨n, stubs ++ [stub], placed, J⟩ K b := by
  obtain ⟨T, hb, hK⟩ := h
  have hperm : (Pledges.mk n stubs ((Stub.joinLabel stub.id, stub.Reloaded temps) :: placed)
      ((Stub.entryLabel stub.id, S) :: (Stub.resumeLabel stub.id, Set.univ) :: J)).reserved.Perm
        (Pledges.mk n (stubs ++ [stub]) placed J).reserved := by
    simp only [Pledges.reserved, stubLabels, List.flatMap_append, List.flatMap_cons,
      List.flatMap_nil, List.append_nil, List.map_cons, ← List.append_assoc]
    change ([Stub.entryLabel stub.id, Stub.resumeLabel stub.id] ++ _).Perm _
    exact List.perm_append_comm
  refine ⟨T, ⟨hb.ledger, hb.labels.perm hperm, hb.targets, fun x hx => ?_, fun x hx => ?_,
    fun stub' hs => ?_, fun stub' hs => ?_⟩, hK⟩
  · exact hb.awaited x (List.mem_cons_of_mem _ (List.mem_cons_of_mem _ hx))
  · exact hb.placed x (List.mem_cons_of_mem _ hx)
  · rcases List.mem_append.mp hs with hs | hs
    · exact hb.stubs stub' hs
    · rw [List.mem_singleton.mp hs]
      exact ⟨S, temps, hr, hb.awaited _ List.mem_cons_self, hb.placed _ List.mem_cons_self⟩
  · rcases List.mem_append.mp hs with hs | hs
    · exact hb.unresumed stub' hs
    · rw [List.mem_singleton.mp hs]
      exact hb.awaited _ (List.mem_cons_of_mem _ List.mem_cons_self)

/-- The next slow path is to be emitted. -/
theorem unstub {stub : Stub} (h : Page ⟨n, stub :: stubs, placed, J⟩ K b) :
    ∃ S temps, stub.Relies S temps ∧
      Page ⟨n, stubs, (Stub.joinLabel stub.id, stub.Reloaded temps) :: placed,
        (Stub.entryLabel stub.id, S) :: (Stub.resumeLabel stub.id, Set.univ) :: J⟩ K b := by
  obtain ⟨T, hb, hK⟩ := h
  obtain ⟨S, temps, hr, hentry, hjoin⟩ := hb.stubs stub List.mem_cons_self
  have hperm : (Pledges.mk n (stub :: stubs) placed J).reserved.Perm
      (Pledges.mk n stubs ((Stub.joinLabel stub.id, stub.Reloaded temps) :: placed)
        ((Stub.entryLabel stub.id, S) :: (Stub.resumeLabel stub.id, Set.univ) :: J)).reserved := by
    simp only [Pledges.reserved, stubLabels, List.flatMap_cons, List.map_cons,
      ← List.append_assoc]
    have hswap (names : List String) :
        (names ++ [Stub.entryLabel stub.id, Stub.resumeLabel stub.id]).Perm
          ([Stub.entryLabel stub.id, Stub.resumeLabel stub.id] ++ names) := List.perm_append_comm
    exact (hswap _).append_right _
  refine ⟨S, temps, hr, T, ⟨hb.ledger, hb.labels.perm hperm, hb.targets, fun x hx => ?_,
    fun x hx => ?_, fun stub' hs => hb.stubs stub' (List.mem_cons_of_mem _ hs),
    fun stub' hs => hb.unresumed stub' (List.mem_cons_of_mem _ hs)⟩, hK⟩
  · rcases List.mem_cons.mp hx with rfl | hx
    · exact hentry
    rcases List.mem_cons.mp hx with rfl | hx
    · exact hb.unresumed stub List.mem_cons_self
    · exact hb.awaited x hx
  · rcases List.mem_cons.mp hx with rfl | hx
    · exact hjoin
    · exact hb.placed x hx

end Page

end Emit

end Recompiler
