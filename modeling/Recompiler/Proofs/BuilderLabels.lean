import Recompiler.Proofs.Steps

/-!
The labels of a builder. A builder drops labels and instructions that do nothing and makes jumps go
to instructions. Its program runs as the sequence of all calls does, in which a jump goes to the
position of its label.
-/

namespace Recompiler.Ir

/-- A call of a builder. -/
inductive Call where
  | instr (i : Instr String)
  | nop
  | label (name : String)
  /-- Starts a new scope for placeholders. -/
  | mark

/-- What a call adds to the sequence, its names final. -/
inductive Entry where
  | instr (i : Instr String)
  | nop
  | label (name : String)
  deriving DecidableEq

namespace Entry

def instr? : Entry → Option (Instr String)
  | .instr i => some i
  | _ => none

def place (es : List Entry) (name : String) : Nat :=
  ((es.take (es.idxOf (.label name))).filterMap instr?).length

def Names (es : List Entry) (name : String) : Prop :=
  ∃ i, .instr i ∈ es ∧ i.target? = some name

def Resolved (es : List Entry) : Prop :=
  ∀ name, Names es name → es.count (.label name) = 1

end Entry

namespace Call

/-- What a call does to a builder. -/
def perform (b : Builder) : Call → Except BuildError Builder
  | .instr i => .ok (b.add i)
  | .nop => .ok b
  | .label name => b.label name
  | .mark => .ok b.mark

def fullName (scope : Nat) (name : String) : String :=
  { Builder.empty with scope := scope }.scopedName name

/-- The sequence that calls make, from a scope on. -/
def entries : Nat → List Call → List Entry
  | _, [] => []
  | n, .instr i :: cs => .instr ((Builder.clip i).mapTarget (fullName n)) :: entries n cs
  | n, .nop :: cs => .nop :: entries n cs
  | n, .label name :: cs => .label (fullName n name) :: entries n cs
  | n, .mark :: cs => entries (n + 1) cs

end Call

def Program.ofCalls (cs : List Call) : Except BuildError Program := do
  let b ← cs.foldlM Call.perform Builder.empty
  b.build

/-- A sequence in which an entry may hold no instruction; jumps go to entries. -/
structure Listing where
  code : List (Option (Instr Nat))
  size : Nat

namespace Listing

/-- The sequence of entries: a jump goes to the position of its label. -/
def ofEntries (es : List Entry) : Listing where
  code := es.map fun e => e.instr?.map (·.mapTarget fun name => es.idxOf (.label name))
  size := ((es.filterMap Entry.instr?).map Instr.maxBytes).sum

def ofProgram (p : Program) : Listing := ⟨p.code.toList.map some, p.size⟩

/-- The number of instructions before a position; positions past the end count on. -/
def before (l : Listing) (n : Nat) : Nat :=
  (l.code.take n).reduceOption.length + (n - l.code.length)

def strip (l : Listing) : Program where
  code := (l.code.reduceOption.map (·.mapTarget l.before)).toArray
  size := l.size

end Listing

/-- The execution of a sequence. -/
structure Walker (σ : Type) where
  listing : Listing
  pc : Nat
  regs : Vector UInt32 16
  fregs : Vector UInt64 8
  ctx : σ

namespace Walker

variable {σ : Type}

def start (l : Listing) (v : View σ) : Walker σ := ⟨l, 0, v.regs, v.fregs, v.ctx⟩

def view (w : Walker σ) : View σ := ⟨w.regs, w.fregs, w.ctx⟩

def put (w : Walker σ) (v : View σ) : Walker σ :=
  { w with regs := v.regs, fregs := v.fregs, ctx := v.ctx }

def goto (w : Walker σ) (n : Nat) : Walker σ := { w with pc := n }

/-- The machine that executes single instructions for the walker. -/
def bare (w : Walker σ) : Machine σ := ⟨.empty, w.pc, w.regs, w.fregs, w.ctx⟩

/-- Continues with the program in a link cell; an empty cell falls through. -/
def follow (w : Walker σ) (links : Links) (cell : Int) :
    Walker σ ⊕ (Except LinkError Int × Walker σ) :=
  let entry := links.cell cell
  if entry = 0 then .inl (w.goto (w.pc + 1))
  else
    match links.resolve with
    | none => .inr (.error .noResolver, w)
    | some resolve =>
      match resolve entry with
      | some p => .inl { w with listing := .ofProgram p, pc := 0 }
      | none => .inr (.error (.deadTrace cell entry), w)

variable [Context σ]

/-- One entry, or the end. An entry without an instruction does nothing. -/
def step (links : Links) (w : Walker σ) : Walker σ ⊕ (Except LinkError Int × Walker σ) :=
  match w.listing.code[w.pc]? with
  | none => .inr (.ok 0, w)
  | some none => .inl (w.goto (w.pc + 1))
  | some (some i) =>
    let (m, next) := w.bare.exec i
    let w := w.put m.view
    match next with
    | .advance => .inl (w.goto (w.pc + 1))
    | .jump target => .inl (w.goto target)
    | .call resume => .inr (.ok exitCall, w.goto resume)
    | .link cell => w.follow links cell
    | .exit status => .inr (.ok status, w.goto w.listing.code.length)

/-- Runs until the sequence exits, ends or asks for a service. -/
def run (links : Links) (w : Walker σ) : Option (Except LinkError Int × Walker σ) :=
  match w.step links with
  | .inl w => w |>.run links
  | .inr r => some r
partial_fixpoint

def settle (w : Walker σ) : Walker σ :=
  w.goto (w.pc + ((w.listing.code.drop w.pc).takeWhile Option.isNone).length)

def history (owner : View σ → View σ) (links : Links) : Nat → Walker σ → List (Moment σ) :=
  Ir.history (fun w => w.settle.step links) view fun w => w.put (owner w.view)

/-- The machine that runs the program of the instructions alone. -/
def machine (w : Walker σ) : Machine σ :=
  ⟨w.listing.strip, w.listing.before w.pc, w.regs, w.fregs, w.ctx⟩

end Walker

theorem Instr.mapTarget_congr {L M : Type} {f g : L → M} {i : Instr L}
    (h : ∀ l, i.target? = some l → f l = g l) : i.mapTarget f = i.mapTarget g := by
  cases i with
  | branch | branchConst | branchOverflow | jump | callout =>
    simp only [Instr.mapTarget]
    rw [h _ rfl]
  | _ => rfl

theorem Instr.mapTarget_id {L : Type} (i : Instr L) : i.mapTarget id = i := by
  cases i <;> rfl

namespace Listing

variable {l : Listing} {n : Nat}

theorem before_of_length_le (h : l.code.length ≤ n) :
    l.before n = l.code.reduceOption.length + (n - l.code.length) := by
  rw [before, List.take_of_length_le h]

theorem before_succ_of_none (h : l.code[n]? = some none) : l.before (n + 1) = l.before n := by
  obtain ⟨hn, he⟩ := List.getElem?_eq_some_iff.mp h
  unfold before
  rw [List.take_succ_eq_append_getElem hn, he, List.reduceOption_append]
  simp
  omega

theorem before_succ_of_some {i : Instr Nat} (h : l.code[n]? = some (some i)) :
    l.before (n + 1) = l.before n + 1 := by
  obtain ⟨hn, he⟩ := List.getElem?_eq_some_iff.mp h
  unfold before
  rw [List.take_succ_eq_append_getElem hn, he, List.reduceOption_append]
  simp
  omega

theorem strip_getElem? {i : Instr Nat} (h : l.code[n]? = some (some i)) :
    l.strip.code[l.before n]? = some (i.mapTarget l.before) := by
  obtain ⟨hn, he⟩ := List.getElem?_eq_some_iff.mp h
  have hsplit : l.code = l.code.take n ++ some i :: l.code.drop (n + 1) := by
    rw [← he, List.cons_getElem_drop_succ, List.take_append_drop]
  have hbefore : l.before n = (l.code.take n).reduceOption.length := by
    unfold before
    omega
  have hcode : l.code.reduceOption
      = (l.code.take n).reduceOption ++ i :: (l.code.drop (n + 1)).reduceOption := by
    conv_lhs => rw [hsplit]
    rw [List.reduceOption_append, List.reduceOption_cons_of_some]
  unfold strip
  simp only [List.getElem?_toArray, List.getElem?_map, hcode, hbefore]
  rw [List.getElem?_append_right (Nat.le_refl _), Nat.sub_self]
  rfl

theorem strip_getElem?_of_none (h : l.code[n]? = none) : l.strip.code[l.before n]? = none := by
  have hn := List.getElem?_eq_none_iff.mp h
  rw [before_of_length_le hn]
  unfold strip
  simp

theorem size_strip (l : Listing) : l.strip.code.size = l.before l.code.length := by
  rw [before_of_length_le (Nat.le_refl _)]
  simp [strip]

theorem reduceOption_map_some {α : Type} (xs : List α) : (xs.map some).reduceOption = xs := by
  induction xs with
  | nil => rfl
  | cons x xs ih => rw [List.map_cons, List.reduceOption_cons_of_some, ih]

theorem before_ofProgram (p : Program) : (ofProgram p).before = id := by
  funext n
  unfold before ofProgram
  simp only [← List.map_take, reduceOption_map_some, List.length_take, List.length_map]
  simp only [Array.length_toList, id]
  omega

theorem strip_ofProgram (p : Program) : (ofProgram p).strip = p := by
  have hcode : (ofProgram p).code.reduceOption = p.code.toList := reduceOption_map_some _
  have hid : (fun i : Instr Nat => i.mapTarget id) = id := funext Instr.mapTarget_id
  unfold strip
  rw [hcode, before_ofProgram, hid, List.map_id]
  rfl

end Listing

namespace Machine

variable {σ : Type}

def relocate (m : Machine σ) (p : Program) (n : Nat) : Machine σ := { m with program := p, pc := n }

theorem relocate_set (m : Machine σ) (p : Program) (n : Nat) (r : HostReg) (v : UInt32) :
    (m.relocate p n).set r v = (m.set r v).relocate p n := by
  unfold set
  split
  · rfl
  · rfl

def Next.map (f : Nat → Nat) : Next → Next
  | .jump target => .jump (f target)
  | .call resume => .call (f resume)
  | next => next

variable [Context σ]

theorem exec_relocate (m : Machine σ) (p : Program) (n : Nat) (i : Instr Nat) :
    (m.relocate p n).exec i = ((m.exec i).1.relocate p n, (m.exec i).2) := by
  cases i with
  | fld size off x => cases size <;> rfl
  | fst size x off => cases size <;> rfl
  | li | mov | ldc | ltab | bin | const | load | fcmp => exact Prod.ext (relocate_set ..) rfl
  | mul =>
    refine Prod.ext ?_ rfl
    simp only [exec, relocate_set]
    rfl
  | _ => rfl

theorem exec_mapTarget (m : Machine σ) (f : Nat → Nat) (i : Instr Nat) :
    m.exec (i.mapTarget f) = ((m.exec i).1, (m.exec i).2.map f) := by
  cases i with
  | fld size off x => cases size <;> rfl
  | fst size x off => cases size <;> rfl
  | branch | branchConst | branchOverflow =>
    simp only [Instr.mapTarget, exec]
    split
    · rfl
    · rfl
  | _ => rfl

end Machine

namespace Walker

variable {σ : Type}

theorem machine_eq (w : Walker σ) :
    w.machine = w.bare.relocate w.listing.strip (w.listing.before w.pc) := rfl

theorem machine_put (w : Walker σ) (m : Machine σ) :
    (w.put m.view).machine = m.relocate w.listing.strip (w.listing.before w.pc) := rfl

theorem machine_goto (w : Walker σ) (n : Nat) :
    (w.goto n).machine = w.machine.relocate w.listing.strip (w.listing.before n) := rfl

theorem machine_of_nop {w : Walker σ} (h : w.listing.code[w.pc]? = some none) :
    (w.goto (w.pc + 1)).machine = w.machine := by
  rw [machine_goto, Listing.before_succ_of_none h]
  rfl

theorem follow_cases {w : Walker σ} {i : Instr Nat} (h : w.listing.code[w.pc]? = some (some i))
    (links : Links) (cell : Int) :
    (∃ w', w.follow links cell = .inl w' ∧ w.machine.follow links cell = .ok w'.machine) ∨
    ∃ e, w.follow links cell = .inr (.error e, w) ∧ w.machine.follow links cell = .error e := by
  unfold follow Machine.follow
  dsimp only
  by_cases hentry : links.cell cell = 0
  · rw [if_pos hentry, if_pos hentry]
    refine .inl ⟨_, rfl, ?_⟩
    rw [machine_goto, Listing.before_succ_of_some h]
    rfl
  · rw [if_neg hentry, if_neg hentry]
    cases links.resolve with
    | none => exact .inr ⟨_, rfl, rfl⟩
    | some resolve =>
      dsimp only
      cases resolve (links.cell cell) with
      | none => exact .inr ⟨_, rfl, rfl⟩
      | some p =>
        refine .inl ⟨_, rfl, ?_⟩
        simp only [machine, Listing.strip_ofProgram, Listing.before_ofProgram]
        rfl

variable {w : Walker σ}

theorem settle_of_nop (h : w.listing.code[w.pc]? = some none) :
    (w.goto (w.pc + 1)).settle = w.settle := by
  obtain ⟨hn, he⟩ := List.getElem?_eq_some_iff.mp h
  unfold settle
  change w.goto (w.pc + 1 + _) = w.goto (w.pc + _)
  rw [List.drop_eq_getElem_cons hn, he, List.takeWhile_cons_of_pos rfl, List.length_cons]
  congr 1
  change _ + ((w.listing.code.drop (w.pc + 1)).takeWhile Option.isNone).length = _
  omega

theorem settle_of_not_nop (h : w.listing.code[w.pc]? ≠ some none) : w.settle = w := by
  unfold settle
  cases hc : w.listing.code[w.pc]? with
  | none =>
    rw [List.drop_eq_nil_of_le (List.getElem?_eq_none_iff.mp hc)]
    rfl
  | some e =>
    obtain ⟨hn, he⟩ := List.getElem?_eq_some_iff.mp hc
    cases e with
    | none => exact absurd hc h
    | some i =>
      rw [List.drop_eq_getElem_cons hn, he, List.takeWhile_cons_of_neg (by simp)]
      rfl

variable [Context σ] {links : Links}

theorem step_of_nop (h : w.listing.code[w.pc]? = some none) :
    w.step links = .inl (w.goto (w.pc + 1)) := by
  unfold step
  rw [h]

/-- At an instruction and at the end, the machine takes the step of the walker. -/
theorem step_machine (h : w.listing.code[w.pc]? ≠ some none) :
    w.machine.step links = (w.step links).map machine (Prod.map id machine) := by
  unfold step Machine.step
  cases hc : w.listing.code[w.pc]? with
  | none =>
    have hend : w.machine.program.code[w.machine.pc]? = none := Listing.strip_getElem?_of_none hc
    rw [hend]
    rfl
  | some e =>
    cases e with
    | none => exact absurd hc h
    | some i =>
      have hcode : w.machine.program.code[w.machine.pc]? = some (i.mapTarget w.listing.before) :=
        Listing.strip_getElem? hc
      rw [hcode]
      dsimp only
      rw [Machine.exec_mapTarget, machine_eq, Machine.exec_relocate]
      rcases w.bare.exec i with ⟨m, next⟩
      dsimp only
      rw [← machine_put]
      cases next with
      | advance =>
        simp only [Machine.Next.map, Sum.map_inl, machine_goto]
        rw [show (w.put m.view).listing.before ((w.put m.view).pc + 1) = w.listing.before w.pc + 1
          from Listing.before_succ_of_some hc]
        rfl
      | jump target => rfl
      | call resume => rfl
      | link cell =>
        simp only [Machine.Next.map]
        rcases follow_cases (w := w.put m.view) hc links cell with ⟨w', hw, hm⟩ | ⟨e, hw, hm⟩
        · rw [hw, hm]
          rfl
        · rw [hw, hm]
          rfl
      | exit status =>
        simp only [Machine.Next.map, Sum.map_inr, Prod.map, id, machine_goto, Machine.halted]
        rw [show (w.put m.view).machine.program.code.size = _ from Listing.size_strip w.listing]
        rfl

theorem run_eq_step (links : Links) (w : Walker σ) :
    w.run links = (w.step links).elim (·.run links) some := by
  rw [run]
  cases w.step links <;> rfl

theorem settle_cases (links : Links) (w : Walker σ) :
    w.settle.listing.code[w.settle.pc]? ≠ some none ∧ w.settle.machine = w.machine ∧
      w.settle.run links = w.run links := by
  by_cases h : w.listing.code[w.pc]? = some none
  · have ih := settle_cases links (w.goto (w.pc + 1))
    rw [settle_of_nop h] at ih
    refine ⟨ih.1, ih.2.1.trans (machine_of_nop h), ih.2.2.trans ?_⟩
    rw [run_eq_step links w, step_of_nop h]
    rfl
  · rw [settle_of_not_nop h]
    exact ⟨h, rfl, rfl⟩
termination_by w.listing.code.length - w.pc
decreasing_by
  have hn := (List.getElem?_eq_some_iff.mp h).1
  change w.listing.code.length - (w.pc + 1) < _
  omega

theorem settle_step (links : Links) (w : Walker σ) :
    w.machine.step links = (w.settle.step links).map machine (Prod.map id machine) := by
  obtain ⟨hn, hm, -⟩ := settle_cases links w
  rw [← hm]
  exact step_machine hn

theorem history_machine (owner : View σ → View σ) (links : Links) (n : Nat) (w : Walker σ) :
    w.machine.history owner links n = w.history owner links n :=
  history_map (settle_step links) (fun _ => rfl) (fun _ => rfl) n w

theorem machine_run_of_run {r : Except LinkError Int × Walker σ} (h : w.run links = some r) :
    w.machine.run links = some (Prod.map id machine r) := by
  refine Walker.run.partial_correctness links
    (fun w r => w.machine.run links = some (Prod.map id machine r)) ?_ w r h
  intro run ih w r hrun
  by_cases hn : w.listing.code[w.pc]? = some none
  · rw [step_of_nop hn] at hrun
    rw [← machine_of_nop hn]
    exact ih _ r hrun
  · rw [Machine.run_eq_step, step_machine hn]
    cases hs : w.step links with
    | inl w' =>
      rw [hs] at hrun
      exact ih w' r hrun
    | inr r' =>
      rw [hs] at hrun
      cases hrun
      rfl

theorem run_of_machine_run {m : Machine σ} {x : Except LinkError Int × Machine σ}
    (h : m.run links = some x) :
    ∀ w : Walker σ, w.machine = m → ∃ r, w.run links = some r := by
  refine Machine.run_induction (motive := fun m _ => ∀ w : Walker σ, w.machine = m →
    ∃ r, w.run links = some r) ?_ ?_ h
  · intro m n r hs ih w hw
    have hstep := settle_step links w
    rw [hw, hs] at hstep
    rw [← (settle_cases links w).2.2, run_eq_step]
    cases hw' : w.settle.step links with
    | inl w' =>
      rw [hw'] at hstep
      exact ih w' (Sum.inl.inj hstep).symm
    | inr r' => exact ⟨r', rfl⟩
  · intro m r hs w hw
    have hstep := settle_step links w
    rw [hw, hs] at hstep
    rw [← (settle_cases links w).2.2, run_eq_step]
    cases hw' : w.settle.step links with
    | inl w' =>
      rw [hw'] at hstep
      cases hstep
    | inr r' => exact ⟨r', rfl⟩

theorem run_machine (links : Links) (w : Walker σ) :
    w.machine.run links = (w.run links).map (Prod.map id machine) := by
  cases hr : w.run links with
  | some r => exact machine_run_of_run hr
  | none =>
    cases hm : w.machine.run links with
    | none => rfl
    | some x =>
      obtain ⟨r, hr'⟩ := run_of_machine_run hm w rfl
      rw [hr] at hr'
      cases hr'

end Walker

namespace Entry

variable {es : List Entry} {e : Entry} {name : String}

theorem place_append (h : .label name ∈ es) (es' : List Entry) :
    place (es ++ es') name = place es name := by
  have hi : es.idxOf (.label name) < es.length := List.idxOf_lt_length_iff.mpr h
  unfold place
  rw [List.idxOf_append_of_mem h, List.take_append_of_le_length (Nat.le_of_lt hi)]

theorem place_concat (h : .label name ∉ es) :
    place (es ++ [.label name]) name = (es.filterMap instr?).length := by
  unfold place
  rw [List.idxOf_append_of_notMem h, List.idxOf_cons_self, Nat.add_zero,
    List.take_append_of_le_length (Nat.le_refl _), List.take_length]

theorem names_concat :
    Names (es ++ [e]) name ↔ Names es name ∨ ∃ i, e = .instr i ∧ i.target? = some name := by
  simp only [Names, List.mem_append, List.mem_singleton]
  grind

end Entry

open Entry

/-- The builder holds the entries, and the number of the scope is `n`. -/
structure Builder.Holds (es : List Entry) (n : Nat) (b : Builder) : Prop where
  scope : b.scope = n
  limit : b.limit = none
  code : b.code.toList = es.filterMap instr?
  bytes : b.bytes = ((es.filterMap instr?).map Instr.maxBytes).sum
  labels : ∀ name, b.labels.lookup name =
    if .label name ∈ es then some (place es name) else none
  nodup : b.pending.Nodup
  pending : ∀ name, name ∈ b.pending ↔ Names es name ∧ .label name ∉ es

namespace Builder.Holds

variable {es : List Entry} {n : Nat} {b : Builder}

theorem nil : Holds [] 0 Builder.empty where
  scope := rfl
  limit := rfl
  code := rfl
  bytes := rfl
  labels _ := rfl
  nodup := List.nodup_nil
  pending name := by simp [Names, Builder.empty]

theorem scopedName_eq (h : Holds es n b) (name : String) :
    b.scopedName name = Call.fullName n name := by
  unfold Call.fullName scopedName
  rw [h.scope]

theorem mark (h : Holds es n b) : Holds es (n + 1) b.mark :=
  { h with scope := congrArg (· + 1) h.scope }

theorem labels_concat (h : Holds es n b) {e : Entry} (he : ∀ name, e ≠ .label name)
    (name : String) : b.labels.lookup name =
      if .label name ∈ es ++ [e] then some (place (es ++ [e]) name) else none := by
  rw [h.labels]
  by_cases hm : .label name ∈ es
  · rw [if_pos hm, if_pos (List.mem_append_left _ hm), place_append hm]
  · have hm' : .label name ∉ es ++ [e] := by
      rw [List.mem_append, List.mem_singleton]
      rintro (hl | hl)
      · exact hm hl
      · exact he name hl.symm
    rw [if_neg hm, if_neg hm']

theorem nop (h : Holds es n b) : Holds (es ++ [.nop]) n b where
  scope := h.scope
  limit := h.limit
  code := by
    rw [List.filterMap_append, h.code]
    exact (List.append_nil _).symm
  bytes := by
    rw [List.filterMap_append, h.bytes]
    exact congrArg (fun xs => (List.map _ xs).sum) (List.append_nil _).symm
  labels := h.labels_concat fun _ => nofun
  nodup := h.nodup
  pending name := by
    rw [h.pending, names_concat]
    simp

theorem push_eq (h : b.limit = none) (i : Instr String) :
    b.push i = { b with code := b.code.push i, bytes := b.bytes + i.maxBytes } := by
  unfold Builder.push fits
  rw [h]
  rfl

theorem mem_request (h : Holds es n b) (name x : String) :
    x ∈ (b.request name).pending ↔ x ∈ b.pending ∨ x = name ∧ .label name ∉ es := by
  have hl : (b.labels.lookup name).isSome = true ↔ .label name ∈ es := by
    rw [h.labels]
    split <;> simp [*]
  unfold Builder.request
  split
  · rename_i hr
    simp only [Bool.or_eq_true, hl, List.contains_iff_mem] at hr
    grind
  · rename_i hr
    simp only [Bool.or_eq_true, hl, List.contains_iff_mem, not_or] at hr
    simp only [List.mem_append, List.mem_singleton]
    grind

theorem nodup_request (h : Holds es n b) (name : String) : (b.request name).pending.Nodup := by
  unfold Builder.request
  split
  · exact h.nodup
  · rename_i hr
    simp only [Bool.or_eq_true, List.contains_iff_mem, not_or] at hr
    rw [List.nodup_append]
    refine ⟨h.nodup, List.nodup_singleton _, ?_⟩
    rintro x hx y hy rfl
    rw [List.mem_singleton.mp hy] at hx
    exact hr.2 hx

theorem push (h : Holds es n b) {i : Instr String} {b' : Builder} {ps : List String}
    (hb : b' = { b with pending := ps }) (hn : ps.Nodup)
    (hp : ∀ name, name ∈ ps ↔ name ∈ b.pending ∨ i.target? = some name ∧ .label name ∉ es) :
    Holds (es ++ [.instr i]) n (b'.push i) := by
  subst hb
  rw [push_eq (b := { b with pending := ps }) h.limit]
  refine ⟨h.scope, h.limit, ?_, ?_, h.labels_concat fun _ => nofun, hn, ?_⟩
  · rw [List.filterMap_append, ← h.code]
    exact Array.toList_push
  · rw [List.filterMap_append, List.map_append, List.sum_append, ← h.bytes]
    rfl
  · intro name
    change name ∈ ps ↔ _
    rw [hp, h.pending, names_concat]
    simp only [Entry.instr.injEq, List.mem_append, List.mem_singleton, reduceCtorEq, or_false]
    grind

theorem add (h : Holds es n b) (i : Instr String) :
    Holds (es ++ [.instr ((clip i).mapTarget (Call.fullName n))]) n (b.add i) := by
  have hname : b.scopedName = Call.fullName n := funext h.scopedName_eq
  unfold Builder.add
  rw [hname]
  dsimp only
  cases ht : ((clip i).mapTarget (Call.fullName n)).target? with
  | none =>
    refine h.push rfl h.nodup fun name => ?_
    rw [ht]
    simp
  | some name =>
    have hb : b.request name = { b with pending := (b.request name).pending } := by
      unfold Builder.request
      split
      · rfl
      · rfl
    refine h.push hb (h.nodup_request name) fun x => ?_
    rw [h.mem_request, ht, Option.some.injEq]
    grind

theorem label (h : Holds es n b) (name : String) :
    (.label (Call.fullName n name) ∈ es ∧
      b.label name = .error (.duplicateLabel (Call.fullName n name))) ∨
    ∃ b', b.label name = .ok b' ∧ Holds (es ++ [.label (Call.fullName n name)]) n b' := by
  unfold Builder.label
  rw [h.scopedName_eq]
  generalize Call.fullName n name = x
  dsimp only
  rw [h.labels]
  by_cases hm : .label x ∈ es
  · rw [if_pos hm]
    exact .inl ⟨hm, rfl⟩
  · rw [if_neg hm]
    refine .inr ⟨_, rfl, h.scope, h.limit, ?_, ?_, ?_, h.nodup.erase x, ?_⟩
    · rw [List.filterMap_append, ← h.code]
      exact (List.append_nil _).symm
    · rw [List.filterMap_append]
      exact h.bytes.trans (congrArg (fun xs => (List.map _ xs).sum) (List.append_nil _).symm)
    · intro y
      change List.lookup y ((x, b.code.size) :: b.labels) = _
      by_cases hy : y = x
      · subst hy
        rw [List.lookup_cons_self, if_pos (by simp), place_concat hm, ← h.code]
        rfl
      · have hne : Entry.label y ∉ [Entry.label x] := by simpa using hy
        rw [List.lookup_cons, beq_false_of_ne hy]
        dsimp only
        rw [h.labels]
        by_cases hl : .label y ∈ es
        · rw [if_pos hl, if_pos (List.mem_append_left _ hl), place_append hl]
        · rw [if_neg hl, if_neg fun hl' => (List.mem_append.mp hl').elim hl hne]
    · intro y
      change y ∈ b.pending.erase x ↔ _
      rw [h.nodup.mem_erase_iff, h.pending, names_concat]
      simp only [reduceCtorEq, false_and, exists_false, or_false, List.mem_append,
        List.mem_singleton, Entry.label.injEq, not_or]
      grind

/-- The calls add their entries, unless one of them puts a label for the second time. -/
theorem calls (cs : List Call) (h : Holds es n b) :
    (∃ name, cs.foldlM Call.perform b = .error (.duplicateLabel name) ∧
      1 < (es ++ Call.entries n cs).count (.label name)) ∨
    ∃ b' n', cs.foldlM Call.perform b = .ok b' ∧ Holds (es ++ Call.entries n cs) n' b' := by
  induction cs generalizing es n b with
  | nil =>
    refine .inr ⟨b, n, rfl, ?_⟩
    rw [Call.entries, List.append_nil]
    exact h
  | cons c cs ih =>
    cases c with
    | instr i =>
      have hcs := ih (h.add i)
      rw [List.append_assoc] at hcs
      exact hcs
    | nop =>
      have hcs := ih h.nop
      rw [List.append_assoc] at hcs
      exact hcs
    | mark => exact ih h.mark
    | label name =>
      rcases h.label name with ⟨hm, he⟩ | ⟨b', hb, hh⟩
      · refine .inl ⟨Call.fullName n name, ?_, ?_⟩
        · rw [List.foldlM_cons, Call.perform, he]
          rfl
        · have hcount := List.count_pos_iff.mpr hm
          rw [Call.entries, List.count_append, List.count_cons_self]
          omega
      · have hcs := ih hh
        rw [List.append_assoc] at hcs
        rw [List.foldlM_cons, Call.perform, hb]
        exact hcs

/-- The program of a builder: its instructions, with the places of their labels. -/
theorem build (h : Holds es n b) (hr : Resolved es) :
    b.build = .ok ⟨((es.filterMap instr?).map (·.mapTarget (place es))).toArray,
      ((es.filterMap instr?).map Instr.maxBytes).sum⟩ := by
  have hdefined {name : String} (hn : Names es name) : .label name ∈ es :=
    List.count_pos_iff.mp (by rw [hr name hn]; exact Nat.one_pos)
  have hpending : b.pending = [] := by
    refine List.eq_nil_iff_forall_not_mem.mpr fun name hm => ?_
    obtain ⟨hn, hl⟩ := (h.pending name).mp hm
    exact hl (hdefined hn)
  have hcode : b.code.map (·.mapTarget fun name => (b.labels.lookup name).getD b.code.size)
      = ((es.filterMap instr?).map (·.mapTarget (place es))).toArray := by
    apply Array.toList_inj.mp
    rw [Array.toList_map, h.code]
    refine List.map_congr_left fun i hi => Instr.mapTarget_congr fun name ht => ?_
    obtain ⟨e, he, hie⟩ := List.mem_filterMap.mp hi
    have hin : .instr i ∈ es := by
      cases e with
      | instr j =>
        cases hie
        exact he
      | nop => cases hie
      | label => cases hie
    rw [h.labels, if_pos (hdefined ⟨i, hin, ht⟩)]
    rfl
  unfold Builder.build
  rw [hpending, ← hcode, ← h.bytes]

end Builder.Holds

theorem reduceOption_entries (es : List Entry) (f : String → Nat) :
    (es.map fun e => e.instr?.map (·.mapTarget f)).reduceOption =
      (es.filterMap instr?).map (·.mapTarget f) := by
  induction es with
  | nil => rfl
  | cons e es ih =>
    cases e with
    | instr i => exact congrArg _ ih
    | nop => exact ih
    | label => exact ih

theorem Listing.before_idxOf (es : List Entry) (name : String) :
    (Listing.ofEntries es).before (es.idxOf (.label name)) = place es name := by
  have hle : es.idxOf (.label name) ≤ es.length := List.idxOf_le_length
  unfold Listing.before Listing.ofEntries place
  dsimp only
  rw [← List.map_take, reduceOption_entries, List.length_map, List.length_map,
    Nat.sub_eq_zero_of_le hle, Nat.add_zero]

theorem Listing.strip_ofEntries (es : List Entry) :
    (Listing.ofEntries es).strip = ⟨((es.filterMap instr?).map (·.mapTarget (place es))).toArray,
      ((es.filterMap instr?).map Instr.maxBytes).sum⟩ := by
  have hplace : (Listing.ofEntries es).before ∘ (fun name => es.idxOf (.label name)) = place es :=
    funext (Listing.before_idxOf es)
  have hcode : (Listing.ofEntries es).code.reduceOption = _ := reduceOption_entries es _
  unfold Listing.strip
  rw [hcode, List.map_map]
  congr 2
  refine List.map_congr_left fun i _ => ?_
  rw [Function.comp_apply, Instr.mapTarget_mapTarget, hplace]

theorem Walker.machine_start {σ : Type} (l : Listing) (v : View σ) :
    (Walker.start l v).machine = Machine.ofView l.strip v := by
  have hzero : l.before 0 = 0 := by
    rw [Listing.before, List.take_zero, Nat.zero_sub]
    rfl
  unfold Walker.machine Walker.start Machine.ofView
  rw [hzero]

/-- The law of labels. Calls in which every label that a jump names is defined once build a
program, unless another label is put twice. It has each instruction once and in order, and it runs
as the sequence with labels does: it ends alike and, whatever the owner does at services, goes
through the same contents of registers and context. -/
theorem Program.ofCalls_walks (cs : List Call) (h : Resolved (Call.entries 0 cs)) :
    (∃ name, Program.ofCalls cs = .error (.duplicateLabel name) ∧
      1 < (Call.entries 0 cs).count (.label name)) ∨
    ∃ p, Program.ofCalls cs = .ok p ∧
      p.code.toList = ((Call.entries 0 cs).filterMap instr?).map
        (·.mapTarget (place (Call.entries 0 cs))) ∧
      ∀ (σ : Type) [Context σ] (links : Links) (v : View σ),
        ((Machine.ofView p v).run links).map (Prod.map id Machine.view) =
          ((Walker.start (.ofEntries (Call.entries 0 cs)) v).run links).map
            (Prod.map id Walker.view) ∧
        ∀ owner n, (Machine.ofView p v).history owner links n =
          (Walker.start (.ofEntries (Call.entries 0 cs)) v).history owner links n := by
  rcases Builder.Holds.nil.calls cs with ⟨name, he, hc⟩ | ⟨b, n, hb, hh⟩
  · refine .inl ⟨name, ?_, hc⟩
    unfold Program.ofCalls
    rw [he]
    rfl
  · refine .inr ⟨(Listing.ofEntries (Call.entries 0 cs)).strip, ?_, ?_, ?_⟩
    · unfold Program.ofCalls
      rw [hb, Listing.strip_ofEntries]
      exact hh.build h
    · rw [Listing.strip_ofEntries]
    · intro σ _ links v
      rw [← Walker.machine_start]
      refine ⟨?_, fun owner n => Walker.history_machine owner links n _⟩
      rw [Walker.run_machine, Option.map_map]
      rfl

end Recompiler.Ir
