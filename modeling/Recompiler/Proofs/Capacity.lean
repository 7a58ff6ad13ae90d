import Recompiler.Proofs.Emission

/-!
Nine registers are enough for every instruction by itself, and for almost every pair of a branch
and its delay slot. The exception is a double word sum or difference of three different registers
behind a branch that keeps a temporary.
-/

namespace Recompiler

open Ir

namespace Emit

/-- Emission in order within an instruction that pins at most six values, five of them with
constants. -/
def Held (R : List String) (d : Int) (e : Emitter) : Prop :=
  ∃ S C n L, Ready R S C n L d e ∧ S.length ≤ 6 ∧ C.length ≤ 5

section

variable {R : List String} {S C : List Content} {n : Nat} {L : List (FpSize × Int)} {d : Int}
  {g : GuestReg} {s : Site} {i : Recompiler.Instr}

theorem Ready.held {e : Emitter} (h : Ready R S C n L d e) (hS : S.length ≤ 6)
    (hC : C.length ≤ 5) : Held R d e := ⟨S, C, n, L, h, hS, hC⟩

theorem Emits.pinning {f : EmitM Unit} (S C : List Content) (m : Nat) (hS : S.length ≤ 6)
    (hC : C.length ≤ 5) (h : Emits (Ready R S C n L d) f fun _ => Ready R S C m L d) :
    Emits (Ready R [] [] n L d) f fun _ => Held R d :=
  h.imp (fun _ he => he.mono (List.nil_subset S) (List.nil_subset C) (Nat.le_refl n)
    (List.Subset.refl L)) fun _ _ he => he.held hS hC

theorem emits_writeBoth (h l : HostReg) (hg : g.val ≠ 0 → .high g ∈ S ∧ .low g none ∈ S)
    (hn : S.length + n ≤ 9) :
    Emits (Ready R S C n L d) (writeBoth g h l) fun _ => Ready R S C n L d := by
  refine .bind (emits_outHigh (fun h0 => (hg h0).1) hn) fun _ => .bind (emits_high rfl) fun _ => ?_
  exact .bind (emits_outLow (fun h0 => (hg h0).2) hn) fun _ => emits_plain rfl

theorem emits_move (dst src : GuestReg) (hn : n ≤ 2) :
    Emits (Ready R [] [] n L d) (move s dst src) fun _ => Held R d := by
  have h9 : 4 + n ≤ 9 := by omega
  refine .pinning [.high src, .low src none, .high dst, .low dst none]
    [.high src, .low src none] n (by simp) (by simp) (.ite (fun _ => ?_) fun _ => ?_)
  · refine .bind (emits_inLow (fun _ => by simp) h9) fun _ => ?_
    exact .bind (emits_outSigned (fun _ => by simp) h9) fun _ => emits_plain rfl
  · refine .bind (emits_inHigh (fun _ => by simp) h9) fun _ => ?_
    refine .bind (emits_inLow (fun _ => by simp) h9) fun _ => ?_
    exact emits_writeBoth _ _ (fun _ => by simp) h9

theorem emits_shiftWord (op : ShiftOp) (hn : n ≤ 2) :
    Emits (Ready R [] [] n L d) (shiftWord op i) fun _ => Held R d := by
  have h9 : 2 + n ≤ 9 := by omega
  refine .pinning [.low (rt i) none, .low (rd i) none] [.low (rt i) none] n (by simp) (by simp) ?_
  refine .bind (emits_inLow (fun _ => by simp) h9) fun _ => ?_
  exact .bind (emits_outSigned (fun _ => by simp) h9) fun _ => emits_plain rfl

theorem emits_shiftWordVar (op : ShiftOp) (hn : n ≤ 2) :
    Emits (Ready R [] [] n L d) (shiftWordVar op i) fun _ => Held R d := by
  have h9 : 3 + n ≤ 9 := by omega
  refine .pinning [.low (rt i) none, .low (rs i) none, .low (rd i) none]
    [.low (rt i) none, .low (rs i) none] n (by simp) (by simp) ?_
  refine .bind (emits_inLow (fun _ => by simp) h9) fun _ => ?_
  refine .bind (emits_inLow (fun _ => by simp) h9) fun _ => ?_
  exact .bind (emits_outSigned (fun _ => by simp) h9) fun _ => emits_plain rfl

theorem emits_shiftDouble32 (op : ShiftOp) (hn : n ≤ 2) :
    Emits (Ready R [] [] n L d) (shiftDouble32 op i) fun _ => Held R d := by
  have h9 : 4 + n ≤ 9 := by omega
  refine .pinning [.high (rt i), .low (rt i) none, .high (rd i), .low (rd i) none]
    [.high (rt i), .low (rt i) none] n (by simp) (by simp) ?_
  cases op with
  | left =>
    refine .bind (emits_inLow (fun _ => by simp) h9) fun _ => ?_
    refine .bind (emits_outHigh (fun _ => by simp) h9) fun _ => .bind (emits_high rfl) fun _ => ?_
    exact .bind (emits_outLow (fun _ => by simp) h9) fun _ => emits_plain rfl
  | right =>
    refine .bind (emits_inHigh (fun _ => by simp) h9) fun _ => ?_
    exact .bind (emits_outUnsigned (fun _ => by simp) h9) fun _ => emits_plain rfl
  | arith =>
    refine .bind (emits_inHigh (fun _ => by simp) h9) fun _ => ?_
    exact .bind (emits_outSigned (fun _ => by simp) h9) fun _ => emits_plain rfl

theorem emits_temps {α : Type} {f : HostReg → HostReg → HostReg → EmitM α}
    {Q : α → Emitter → Prop} (hn : S.length + (n + 3) ≤ 9)
    (h : ∀ x y z, Emits (Ready R S C (n + 3) L d) (f x y z) Q) :
    Emits (Ready R S C n L d) (do
      let x ← temp
      let y ← temp
      let z ← temp
      f x y z) Q :=
  .bind (emits_temp (by omega)) fun x => .bind (emits_temp (by omega)) fun y =>
    .bind (emits_temp (by omega)) fun z => h x y z

theorem emits_shiftDouble (op : ShiftOp) (hn : n ≤ 2) :
    Emits (Ready R [] [] n L d) (shiftDouble s op i) fun _ => Held R d := by
  refine .ite (fun _ => emits_move _ _ hn) fun _ => ?_
  have h9 : 4 + (n + 3) ≤ 9 := by omega
  refine .pinning [.high (rt i), .low (rt i) none, .high (rd i), .low (rd i) none]
    [.high (rt i), .low (rt i) none] (n + 3) (by simp) (by simp) ?_
  refine .bind (emits_inHigh (fun _ => by simp) (by simp; omega)) fun _ => ?_
  refine .bind (emits_inLow (fun _ => by simp) (by simp; omega)) fun _ => ?_
  refine emits_temps h9 fun h l carry => ?_
  have hwrite : Emits (Ready R [.high (rt i), .low (rt i) none, .high (rd i), .low (rd i) none]
      [.high (rt i), .low (rt i) none] (n + 3) L d) (writeBoth (rd i) h l)
      fun _ => Ready R [.high (rt i), .low (rt i) none, .high (rd i), .low (rd i) none]
        [.high (rt i), .low (rt i) none] (n + 3) L d :=
    emits_writeBoth h l (fun _ => by simp) h9
  cases op with
  | left | right | arith =>
    refine .bind (emits_plain rfl) fun _ => .bind (emits_plain rfl) fun _ => ?_
    exact .bind (emits_plain rfl) fun _ => .bind (emits_plain rfl) fun _ => hwrite

theorem emits_multiply (signed : Bool) (hn : n ≤ 2) :
    Emits (Ready R [] [] n L d) (multiply signed i) fun _ => Held R d := by
  have h9 : 4 + n ≤ 9 := by omega
  refine .pinning [.low (rs i) none, .low (rt i) none, .low .lo none, .low .hi none]
    [.low (rs i) none, .low (rt i) none] n (by simp) (by simp) ?_
  refine .bind (emits_inLow (fun _ => by simp) h9) fun _ => ?_
  refine .bind (emits_inLow (fun _ => by simp) h9) fun _ => ?_
  refine .bind (emits_outSigned (fun _ => by simp) h9) fun _ => ?_
  exact .bind (emits_outSigned (fun _ => by simp) h9) fun _ => emits_plain rfl

theorem emits_toSlow {i : Ir.Instr String} {id : Nat} (hi : i.target? = some (Stub.entryLabel id)) :
    Emits (Ready (stubNames id ++ R) S C n L d) (emit i)
      fun _ => Ready (stubNames id ++ R) S C n L d := by
  refine emits_emit fun name hname => ?_
  rw [hi] at hname
  cases hname
  exact List.mem_append_left _ List.mem_cons_self

theorem emits_addTrapping (sub : Bool) (hn : n ≤ 2) :
    Emits (Ready R [] [] n L d) (addTrapping s sub i) fun _ => Held R d := by
  have h9 : 3 + n ≤ 9 := by omega
  refine .pinning [.low (rs i) none, .low (rt i) none, .low (rd i) none]
    [.low (rs i) none, .low (rt i) none] n (by simp) (by simp) ?_
  refine .bind (emits_inLow (fun _ => by simp) h9) fun _ => ?_
  refine .bind (emits_inLow (fun _ => by simp) h9) fun _ => ?_
  refine .bind (emits_branchOff s i .rz) fun stub => .bind (emits_toSlow rfl) fun _ => ?_
  refine .bind (emits_outSigned (fun _ => by simp) h9) fun _ => ?_
  exact .bind (emits_plain rfl) fun _ => emits_join stub

theorem emits_addWord (op : BinOp) (hn : n ≤ 2) :
    Emits (Ready R [] [] n L d) (addWord op i) fun _ => Held R d := by
  have h9 : 3 + n ≤ 9 := by omega
  refine .pinning [.low (rs i) none, .low (rt i) none, .low (rd i) none]
    [.low (rs i) none, .low (rt i) none] n (by simp) (by simp) ?_
  refine .bind (emits_inLow (fun _ => by simp) h9) fun _ => ?_
  refine .bind (emits_inLow (fun _ => by simp) h9) fun _ => ?_
  exact .bind (emits_outSigned (fun _ => by simp) h9) fun _ => emits_plain rfl

theorem emits_logic (op : BinOp) (hn : n ≤ 2) :
    Emits (Ready R [] [] n L d) (logic s op i) fun _ => Held R d := by
  have h9 : 6 + n ≤ 9 := by omega
  refine .pinning [.high (rs i), .low (rs i) none, .high (rt i), .low (rt i) none, .high (rd i),
    .low (rd i) none] [.high (rs i), .low (rs i) none, .high (rt i), .low (rt i) none] n
    (by simp) (by simp) (.ite (fun _ => ?_) fun _ => ?_)
  · refine .bind (emits_inLow (fun _ => by simp) h9) fun _ => ?_
    refine .bind (emits_inLow (fun _ => by simp) h9) fun _ => ?_
    exact .bind (emits_outSigned (fun _ => by simp) h9) fun _ => emits_plain rfl
  · refine .bind (emits_inHigh (fun _ => by simp) h9) fun _ => ?_
    refine .bind (emits_inHigh (fun _ => by simp) h9) fun _ => ?_
    refine .bind (emits_inLow (fun _ => by simp) h9) fun _ => ?_
    refine .bind (emits_inLow (fun _ => by simp) h9) fun _ => ?_
    refine .bind (emits_outHigh (fun _ => by simp) h9) fun _ => .bind (emits_high rfl) fun _ => ?_
    exact .bind (emits_outLow (fun _ => by simp) h9) fun _ => emits_plain rfl

theorem emits_compareBoth (signed : Bool) (xh xl yh yl t : HostReg) :
    Emits (Ready R S C n L d) (compareBoth signed xh xl yh yl t) fun _ => Ready R S C n L d := by
  refine .bind (emits_freshLabel (by decide)) fun done => .bind (emits_plain rfl) fun _ => ?_
  refine .bind (emits_emit fun name hname => ?_) fun _ => ?_
  · cases hname
    exact List.mem_cons_self
  exact .bind (emits_plain rfl) fun _ => emits_putLabel done

theorem emits_setLess (signed : Bool) (hn : n ≤ 2) :
    Emits (Ready R [] [] n L d) (setLess s signed i) fun _ => Held R d := by
  refine .ite (fun _ => ?_) fun _ => ?_
  · have h9 : 3 + n ≤ 9 := by omega
    refine .pinning [.low (rs i) none, .low (rt i) none, .low (rd i) none]
      [.low (rs i) none, .low (rt i) none] n (by simp) (by simp) ?_
    refine .bind (emits_inLow (fun _ => by simp) h9) fun _ => ?_
    refine .bind (emits_inLow (fun _ => by simp) h9) fun _ => ?_
    exact .bind (emits_outUnsigned (fun _ => by simp) h9) fun _ => emits_plain rfl
  · have h9 : 5 + n ≤ 9 := by omega
    refine .pinning [.high (rs i), .low (rs i) none, .high (rt i), .low (rt i) none,
      .low (rd i) none] [.high (rs i), .low (rs i) none, .high (rt i), .low (rt i) none] (n + 1)
      (by simp) (by simp) ?_
    refine .bind (emits_inHigh (fun _ => by simp) h9) fun _ => ?_
    refine .bind (emits_inLow (fun _ => by simp) h9) fun _ => ?_
    refine .bind (emits_inHigh (fun _ => by simp) h9) fun _ => ?_
    refine .bind (emits_inLow (fun _ => by simp) h9) fun _ => ?_
    refine .bind (emits_temp (by simp; omega)) fun t => ?_
    refine .bind (emits_compareBoth signed _ _ _ _ t) fun _ => ?_
    exact .bind (emits_outUnsigned (fun _ => by simp) (by simp; omega)) fun _ => emits_plain rfl

theorem emits_addDouble_of (sub : Bool)
    (hs : (rs i).val ≠ 0 → (.high (rs i) ∈ S ∧ .high (rs i) ∈ C) ∧ .low (rs i) none ∈ S ∧
      .low (rs i) none ∈ C)
    (ht : (rt i).val ≠ 0 → (.high (rt i) ∈ S ∧ .high (rt i) ∈ C) ∧ .low (rt i) none ∈ S ∧
      .low (rt i) none ∈ C)
    (hd : (rd i).val ≠ 0 → .high (rd i) ∈ S ∧ .low (rd i) none ∈ S)
    (hn : S.length + (n + 3) ≤ 9) :
    Emits (Ready R S C n L d) (addDouble sub i) fun _ => Ready R S C (n + 3) L d := by
  have h9 : S.length + n ≤ 9 := by omega
  refine .bind (emits_inHigh hs h9) fun _ => .bind (emits_inLow (fun h0 => (hs h0).2) h9) fun _ => ?_
  refine .bind (emits_inHigh ht h9) fun _ => .bind (emits_inLow (fun h0 => (ht h0).2) h9) fun _ => ?_
  refine emits_temps hn fun h l carry => ?_
  have hwrite : Emits (Ready R S C (n + 3) L d) (writeBoth (rd i) h l)
      fun _ => Ready R S C (n + 3) L d := emits_writeBoth h l hd hn
  cases sub with
  | true | false =>
    refine .bind (emits_plain rfl) fun _ => .bind (emits_plain rfl) fun _ => ?_
    exact .bind (emits_plain rfl) fun _ => .bind (emits_plain rfl) fun _ => hwrite

def Spread (i : Recompiler.Instr) : Prop :=
  i.rs ≠ .zero ∧ i.rt ≠ .zero ∧ i.rd ≠ .zero ∧ i.rs ≠ i.rt ∧ i.rs ≠ i.rd ∧ i.rt ≠ i.rd

instance (i : Recompiler.Instr) : Decidable (Spread i) :=
  inferInstanceAs (Decidable (_ ∧ _))

theorem val_ofReg_ne_zero {r : Reg} (h : (GuestReg.ofReg r).val ≠ 0) : r ≠ .zero := by
  rintro rfl
  exact h rfl

/-- Otherwise two registers stand for all. -/
theorem exists_pair (h : ¬ Spread i) : ∃ x y : GuestReg, ∀ g,
    g = rs i ∨ g = rt i ∨ g = rd i → g.val ≠ 0 → g = x ∨ g = y := by
  simp only [Spread, ne_eq, Decidable.not_and_iff_not_or_not, Decidable.not_not] at h
  have hzero {r : Reg} (hr : r = .zero) (h0 : (GuestReg.ofReg r).val ≠ 0) : False :=
    val_ofReg_ne_zero h0 hr
  rcases h with h | h | h | h | h | h
  · refine ⟨rt i, rd i, ?_⟩
    rintro g (rfl | rfl | rfl) h0
    · exact (hzero h h0).elim
    · exact .inl rfl
    · exact .inr rfl
  · refine ⟨rs i, rd i, ?_⟩
    rintro g (rfl | rfl | rfl) h0
    · exact .inl rfl
    · exact (hzero h h0).elim
    · exact .inr rfl
  · refine ⟨rs i, rt i, ?_⟩
    rintro g (rfl | rfl | rfl) h0
    · exact .inl rfl
    · exact .inr rfl
    · exact (hzero h h0).elim
  · refine ⟨rs i, rd i, ?_⟩
    rintro g (rfl | rfl | rfl) -
    · exact .inl rfl
    · exact .inl (congrArg GuestReg.ofReg h.symm)
    · exact .inr rfl
  · refine ⟨rs i, rt i, ?_⟩
    rintro g (rfl | rfl | rfl) -
    · exact .inl rfl
    · exact .inr rfl
    · exact .inl (congrArg GuestReg.ofReg h.symm)
  · refine ⟨rs i, rt i, ?_⟩
    rintro g (rfl | rfl | rfl) -
    · exact .inl rfl
    · exact .inr rfl
    · exact .inr (congrArg GuestReg.ofReg h.symm)

theorem emits_addDouble (sub : Bool) (hn : n ≤ 2) (hfit : n = 0 ∨ ¬ Spread i) :
    Emits (Ready R [] [] n L d) (addDouble sub i) fun _ => Held R d := by
  rcases hfit with rfl | hspread
  · refine .pinning [.high (rs i), .low (rs i) none, .high (rt i), .low (rt i) none, .high (rd i),
      .low (rd i) none] [.high (rs i), .low (rs i) none, .high (rt i), .low (rt i) none] 3
      (by simp) (by simp) (emits_addDouble_of sub ?_ ?_ ?_ (by simp)) <;> exact fun _ => by simp
  · obtain ⟨x, y, hxy⟩ := exists_pair hspread
    refine .pinning [.high x, .low x none, .high y, .low y none]
      [.high x, .low x none, .high y, .low y none] (n + 3) (by simp) (by simp)
      (emits_addDouble_of sub (fun h0 => ?_) (fun h0 => ?_) (fun h0 => ?_) (by simp; omega))
    · rcases hxy _ (.inl rfl) h0 with h | h <;> simp [h]
    · rcases hxy _ (.inr (.inl rfl)) h0 with h | h <;> simp [h]
    · rcases hxy _ (.inr (.inr rfl)) h0 with h | h <;> simp [h]

theorem emits_addImmTrapping (hn : n ≤ 2) :
    Emits (Ready R [] [] n L d) (addImmTrapping s i) fun _ => Held R d := by
  have hrest {S C : List Content} {m : Nat} (x y : HostReg) (hS : .low (rt i) none ∈ S)
      (hlen : S.length ≤ 3) (hC : C.length ≤ 3) (hm : m ≤ 3) :
      Emits (Ready R S C m L d) (do
        let stub ← branchOff s i .rz
        emit (.branchOverflow false x y (Stub.entryLabel stub.id))
        const .add x (simm i) (← outSigned (rt i))
        join stub) fun _ => Held R d := by
    refine .bind (emits_branchOff s i .rz) fun stub => .bind (emits_toSlow rfl) fun _ => ?_
    refine .bind (emits_outSigned (fun _ => hS) (by omega)) fun _ => ?_
    exact .bind (emits_plain rfl) fun _ => (emits_join stub).post fun _ _ he =>
      he.held (by omega) (by omega)
  refine .pre (P := Ready R [.low (rs i) none, .low (rt i) none] [.low (rs i) none] n L d) ?_
    fun e he => he.mono (List.nil_subset _) (List.nil_subset _) (Nat.le_refl n)
      (List.Subset.refl L)
  refine .bind (emits_inLow (fun _ => by simp) (by simp; omega)) fun x => ?_
  refine .bind (emits_constant (simm i) (by simp; omega)) fun y e he => ?_
  rcases he with ⟨k, he⟩ | he
  · exact hrest x y (by simp) (by simp) (by simp) (by omega) e he
  · exact hrest x y (by simp) (by simp) (by simp) (by omega) e he

theorem emits_addImm (hn : n ≤ 2) :
    Emits (Ready R [] [] n L d) (addImm i) fun _ => Held R d := by
  have h9 : 2 + n ≤ 9 := by omega
  refine .pinning [.low (rs i) none, .low (rt i) none] [.low (rs i) none] n (by simp) (by simp) ?_
  refine .bind (emits_inLow (fun _ => by simp) h9) fun _ => ?_
  exact .bind (emits_outSigned (fun _ => by simp) h9) fun _ => emits_plain rfl

theorem emits_addImmDouble (hn : n ≤ 2) :
    Emits (Ready R [] [] n L d) (addImmDouble i) fun _ => Held R d := by
  have h9 : 4 + (n + 3) ≤ 9 := by omega
  refine .pinning [.high (rs i), .low (rs i) none, .high (rt i), .low (rt i) none]
    [.high (rs i), .low (rs i) none] (n + 3) (by simp) (by simp) ?_
  refine .bind (emits_inHigh (fun _ => by simp) (by simp; omega)) fun _ => ?_
  refine .bind (emits_inLow (fun _ => by simp) (by simp; omega)) fun _ => ?_
  refine emits_temps h9 fun h l carry => ?_
  refine .bind (emits_plain rfl) fun _ => .bind (emits_plain rfl) fun _ => ?_
  refine .bind (emits_plain rfl) fun _ => .bind (emits_plain rfl) fun _ => ?_
  exact emits_writeBoth h l (fun _ => by simp) h9

theorem emits_setLessImm (signed : Bool) (hn : n ≤ 2) :
    Emits (Ready R [] [] n L d) (setLessImm s signed i) fun _ => Held R d := by
  refine .ite (fun _ => ?_) fun _ => ?_
  · have h9 : 2 + n ≤ 9 := by omega
    refine .pinning [.low (rs i) none, .low (rt i) none] [.low (rs i) none] n (by simp) (by simp) ?_
    refine .bind (emits_inLow (fun _ => by simp) h9) fun _ => ?_
    exact .bind (emits_outUnsigned (fun _ => by simp) h9) fun _ => emits_plain rfl
  · refine .pinning [.high (rs i), .low (rs i) none, .low (rt i) none]
      [.high (rs i), .low (rs i) none] (n + 1) (by simp) (by simp) ?_
    refine .bind (emits_inHigh (fun _ => by simp) (by simp; omega)) fun _ => ?_
    refine .bind (emits_inLow (fun _ => by simp) (by simp; omega)) fun _ => ?_
    refine .bind (emits_temp (by simp; omega)) fun t => ?_
    refine .bind (emits_freshLabel (by decide)) fun done => .bind (emits_plain rfl) fun _ => ?_
    refine .bind (emits_emit fun name hname => ?_) fun _ => ?_
    · cases hname
      exact List.mem_cons_self
    refine .bind (emits_plain rfl) fun _ => .bind (emits_putLabel done) fun _ => ?_
    exact .bind (emits_outUnsigned (fun _ => by simp) (by simp; omega)) fun _ => emits_plain rfl

theorem emits_andImm (hn : n ≤ 2) :
    Emits (Ready R [] [] n L d) (andImm i) fun _ => Held R d := by
  have h9 : 2 + n ≤ 9 := by omega
  refine .pinning [.low (rs i) none, .low (rt i) none] [.low (rs i) none] n (by simp) (by simp) ?_
  refine .bind (emits_inLow (fun _ => by simp) h9) fun _ => ?_
  exact .bind (emits_outUnsigned (fun _ => by simp) h9) fun _ => emits_plain rfl

theorem emits_orImm (op : ConstOp) (hn : n ≤ 2) :
    Emits (Ready R [] [] n L d) (orImm s op i) fun _ => Held R d := by
  have h9 : 4 + n ≤ 9 := by omega
  refine .pinning [.high (rs i), .low (rs i) none, .high (rt i), .low (rt i) none]
    [.high (rs i), .low (rs i) none] n (by simp) (by simp) (.ite (fun _ => ?_) fun _ => ?_)
  · refine .bind (emits_inLow (fun _ => by simp) h9) fun _ => ?_
    exact .bind (emits_outSigned (fun _ => by simp) h9) fun _ => emits_plain rfl
  · refine .bind (emits_inHigh (fun _ => by simp) h9) fun _ => ?_
    refine .bind (emits_inLow (fun _ => by simp) h9) fun _ => ?_
    refine .bind (emits_outHigh (fun _ => by simp) h9) fun _ => .bind (emits_high rfl) fun _ => ?_
    exact .bind (emits_outLow (fun _ => by simp) h9) fun _ => emits_plain rfl

theorem emits_setConst (x : HostReg) (v : UInt32) :
    Emits (Ready R S S n L d) (modifyCache (·.setConst x v)) fun _ => Ready R S S n L d := by
  intro e he
  have hext := Extends.setConst e.cache x v
  exact ⟨(), _, rfl, he.appends hext.toAppends (he.pins.setConst v fun r _ hb hv =>
    he.pins.busy r hb hv) (he.fpPins.of_fpSlots hext.fpSlots)⟩

theorem emits_loadUpper (hn : n ≤ 2) :
    Emits (Ready R [] [] n L d) (loadUpper i) fun _ => Held R d := by
  refine .pinning [.low (rt i) none] [.low (rt i) none] n (by simp) (by simp) ?_
  refine .bind (emits_outSigned (fun _ => by simp) (by simp; omega)) fun x => ?_
  exact .bind (emits_plain rfl) fun _ => emits_setConst x _

theorem emits_access (size : Size) (hS : .low (rs i) none ∈ S) (hC : .low (rs i) none ∈ C)
    (hn : S.length + (n + 3) ≤ 9) :
    Emits (Ready R S C n L d) (access size i) fun _ => Ready R S C (n + 3) L d := by
  refine .bind (emits_inLow (fun _ => ⟨hS, hC⟩) (by omega)) fun base => ?_
  exact emits_temps hn fun _ _ _ => .pure fun _ he => he

theorem emits_guard (cfg : Config) (a : Access) (id : Nat) (isStore : Bool) :
    Emits (Ready (stubNames id ++ R) S C n L d) (guard cfg i a (Stub.entryLabel id) isStore)
      fun _ => Ready (stubNames id ++ R) S C n L d := by
  have hstore : Emits (Ready (stubNames id ++ R) S C n L d) (do
      emit (.branchConst .geu a.offset (cfg.ramSize - a.size + 1) (Stub.entryLabel id))
      if isStore then
        const .srl a.offset 12 a.scratch
        emit (.ltab Layout.codePages a.scratch a.scratch)
        emit (.branchConst .ne a.scratch 0 (Stub.entryLabel id)))
      fun _ => Ready (stubNames id ++ R) S C n L d := by
    refine .bind (emits_toSlow rfl) fun _ => .ite (fun _ => ?_) fun _ => .pure fun _ he => he
    exact .bind (emits_plain rfl) fun _ => .bind (emits_plain rfl) fun _ => emits_toSlow rfl
  refine .bind (emits_plain rfl) fun _ => .ite (fun _ => emits_toSlow rfl) fun _ => ?_
  refine .bind (emits_plain rfl) fun _ => .bind (emits_toSlow rfl) fun _ => ?_
  refine .bind (emits_plain rfl) fun _ => ?_
  dsimp only
  split
  · exact .bind (emits_plain rfl) fun _ => .bind (emits_toSlow rfl) fun _ => hstore
  · exact hstore

theorem emits_swizzle (size : Size) (a : Access) :
    Emits (Ready R S C n L d) (swizzle size a) fun _ => Ready R S C n L d := by
  cases size with
  | byte | half => exact emits_plain rfl
  | word | double => exact .pure fun _ he => he

theorem emits_load (cfg : Config) (op : LoadOp) (hn : n ≤ 2) :
    Emits (Ready R [] [] n L d) (load cfg s op i) fun _ => Held R d := by
  have h9 : 3 + (n + 3) ≤ 9 := by omega
  refine .pinning [.low (rs i) none, .high (rt i), .low (rt i) none] [.low (rs i) none] (n + 3)
    (by simp) (by simp) ?_
  refine .bind (emits_access _ (by simp) (by simp) h9) fun a => ?_
  refine .bind (emits_branchOff s i a.addr) fun stub => ?_
  refine .bind (emits_guard cfg a stub.id false) fun _ => .bind (emits_swizzle _ a) fun _ => ?_
  cases op with
  | ld =>
    refine .bind (emits_outHigh (fun _ => by simp) h9) fun _ => ?_
    refine .bind (emits_outLow (fun _ => by simp) h9) fun _ => ?_
    refine .bind (emits_plain rfl) fun _ => .bind (emits_plain rfl) fun _ => emits_join stub
  | lb | lh | lw =>
    refine .bind (emits_outSigned (fun _ => by simp) h9) fun _ => ?_
    exact .bind (emits_plain rfl) fun _ => emits_join stub
  | lbu | lhu | lwu =>
    refine .bind (emits_outUnsigned (fun _ => by simp) h9) fun _ => ?_
    exact .bind (emits_plain rfl) fun _ => emits_join stub

theorem emits_store (cfg : Config) (size : Size) (hn : n ≤ 2) :
    Emits (Ready R [] [] n L d) (store cfg s size i) fun _ => Held R d := by
  have h9 : 3 + n ≤ 9 := by omega
  refine .pinning [.high (rt i), .low (rt i) none, .low (rs i) none]
    [.high (rt i), .low (rt i) none, .low (rs i) none] (n + 3) (by simp) (by simp) ?_
  unfold store
  dsimp only
  refine .iteBind (emits_inHigh (fun _ => by simp) h9) (.pure fun _ he => he) fun high => ?_
  refine .bind (emits_inLow (fun _ => by simp) h9) fun low => ?_
  refine .bind (emits_access _ (by simp) (by simp) (by simp; omega)) fun a => ?_
  refine .bind (emits_branchOff s i a.addr) fun stub => ?_
  refine .bind (emits_guard cfg a stub.id true) fun _ => .bind (emits_swizzle _ a) fun _ => ?_
  cases size with
  | byte | half | word => exact .bind (emits_plain rfl) fun _ => emits_join stub
  | double =>
    exact .bind (emits_plain rfl) fun _ => .bind (emits_plain rfl) fun _ => emits_join stub

theorem Ready.clobberFp {e : Emitter} (h : Ready R S C n L d e) (off size : Int) :
    Ready R S C n L d { e with cache := e.cache.clobberFp off size } :=
  h.appends (.clobberFp e.cache off size)
    (h.pins.of_slots fun r => by rw [HostCache.slot, HostCache.slots_clobberFp, HostCache.slot])
    (h.fpPins.clobberFp off size)

theorem emits_clobberFp (off size : Int) :
    Emits (Ready R S C n L d) (modifyCache (·.clobberFp off size)) fun _ => Ready R S C n L d :=
  fun _ he => ⟨(), _, rfl, he.clobberFp off size⟩

theorem emits_clobber (words : List (Int × Int)) :
    Emits (Ready R S C n L d) (clobber words) fun _ => Ready R S C n L d := by
  intro e he
  have hslots (c : HostCache) : (words.foldl (fun c w => c.clobberFp w.2 4) c).slots = c.slots := by
    induction words generalizing c with
    | nil => rfl
    | cons w words ih => rw [List.foldl_cons, ih, HostCache.slots_clobberFp]
  have hpins : Pins S C n (words.foldl (fun c w => c.clobberFp w.2 4) e.cache) :=
    he.pins.of_slots fun r => by rw [HostCache.slot, hslots, HostCache.slot]
  have happ : Appends e.cache (words.foldl (fun c w => c.clobberFp w.2 4) e.cache) := by
    refine Appends.foldl (fun c w => ?_) words e.cache
    exact Appends.clobberFp c w.2 4
  refine ⟨(), _, modifyCache_eq _ e, he.appends happ hpins ?_⟩
  refine FpPins.foldl (fun c w h => ?_) words he.fpPins
  exact h.clobberFp w.2 4

theorem emits_loadFp (cfg : Config) (width : Width) (hn : n ≤ 2) :
    Emits (Ready R [] [] n L d) (loadFp cfg s width i) fun _ => Held R d := by
  refine .pinning [.low (rs i) none] [.low (rs i) none] (n + 4) (by simp) (by simp) ?_
  refine .bind (emits_clobber _) fun _ => ?_
  refine .bind (emits_access _ (by simp) (by simp) (by simp; omega)) fun a => ?_
  refine .bind (emits_temp (by simp; omega)) fun v => .bind (emits_branchOff s i a.addr) fun stub => ?_
  refine .bind (emits_guard cfg a stub.id false) fun _ => .bind ?_ fun _ => emits_join stub
  exact .forIn _ fun w => .bind (emits_plain rfl) fun _ => emits_plain rfl

theorem emits_storeFp (cfg : Config) (width : Width) (hn : n ≤ 2) :
    Emits (Ready R [] [] n L d) (storeFp cfg s width i) fun _ => Held R d := by
  refine .pinning [.low (rs i) none] [.low (rs i) none] (n + 4) (by simp) (by simp) ?_
  refine .bind (emits_clobber _) fun _ => ?_
  refine .bind (emits_access _ (by simp) (by simp) (by simp; omega)) fun a => ?_
  refine .bind (emits_temp (by simp; omega)) fun v => .bind (emits_branchOff s i a.addr) fun stub => ?_
  refine .bind (emits_guard cfg a stub.id true) fun _ => .bind ?_ fun _ => emits_join stub
  exact .forIn _ fun w => .bind (emits_plain rfl) fun _ => emits_plain rfl

theorem fpOffset_apart (cfg : Config) (size : FpSize) (r r' : Reg) :
    (size, fpOffset cfg size r') = (size, fpOffset cfg size r) ∨
      fpOffset cfg size r' + FpSlot.sizeBytes size ≤ fpOffset cfg size r ∨
      fpOffset cfg size r + FpSlot.sizeBytes size ≤ fpOffset cfg size r' := by
  simp only [Prod.mk.injEq, true_and]
  cases size with
  | single =>
    simp only [fpOffset, FpSlot.sizeBytes, Layout.single, Layout.doubleHigh, Layout.doubleLow,
      Layout.double]
    split <;> split <;> omega
  | double =>
    simp only [fpOffset, FpSlot.sizeBytes, Layout.double]
    omega

def fpValues (cfg : Config) (size : FpSize) (rs : List Reg) : List (FpSize × Int) :=
  rs.map fun r => (size, fpOffset cfg size r)

theorem fpValues_apart (cfg : Config) (size : FpSize) (rs : List Reg) (r : Reg) :
    FpApart (fpValues cfg size rs) size (fpOffset cfg size r) := by
  intro x hx
  obtain ⟨r', -, rfl⟩ := List.mem_map.mp hx
  exact fpOffset_apart cfg size r r'

theorem emits_inFp (cfg : Config) (size : FpSize) (rs : List Reg) (r : Reg) (h : rs.length < 8) :
    Emits (Ready R S C n (fpValues cfg size rs) d) (inFp cfg size r)
      fun _ => Ready R S C n (fpValues cfg size (r :: rs)) d := by
  intro e he
  obtain ⟨x, c, hx, hp, happ, hs⟩ := he.fpPins.allocInFp (fpValues_apart cfg size rs r)
    (by simpa [fpValues] using h)
  refine ⟨x, { e with cache := c }, by rw [inFp, onCache_eq, hx], he.appends happ ?_ hp⟩
  exact he.pins.of_slots fun r => by rw [HostCache.slot, hs, HostCache.slot]

theorem emits_outFp (cfg : Config) (size : FpSize) (rs : List Reg) (r : Reg) (h : rs.length < 8) :
    Emits (Ready R S C n (fpValues cfg size rs) d) (outFp cfg size r)
      fun _ => Ready R S C n (fpValues cfg size (r :: rs)) d := by
  intro e he
  obtain ⟨x, c, hx, hp, happ, hs⟩ := he.fpPins.allocOutFp (fpValues_apart cfg size rs r)
    (by simpa [fpValues] using h)
  refine ⟨x, { e with cache := c }, by rw [outFp, onCache_eq, hx], he.appends happ ?_ hp⟩
  exact he.pins.of_slots fun r => by rw [HostCache.slot, hs, HostCache.slot]

theorem emits_fpBinary (cfg : Config) (size : FpSize) (op : FpBinOp) :
    Emits (Ready R [] [] n [] d) (fpBinary cfg size op i) fun _ => Held R d := by
  refine .bind (emits_inFp cfg size [] i.fs (by simp)) fun _ => ?_
  refine .bind (emits_inFp cfg size [i.fs] i.ft (by simp)) fun _ => ?_
  refine .bind (emits_outFp cfg size [i.ft, i.fs] i.fd (by simp)) fun _ => ?_
  exact (emits_plain rfl).post fun _ _ he => he.held (by simp) (by simp)

theorem emits_fpUnary (cfg : Config) (size : FpSize) (op : FpUnOp) :
    Emits (Ready R [] [] n [] d) (fpUnary cfg size op i) fun _ => Held R d := by
  refine .bind (emits_inFp cfg size [] i.fs (by simp)) fun _ => ?_
  refine .bind (emits_outFp cfg size [i.fs] i.fd (by simp)) fun _ => ?_
  exact (emits_plain rfl).post fun _ _ he => he.held (by simp) (by simp)

theorem emits_fpCompare (cfg : Config) (size : FpSize) (hn : n ≤ 2) :
    Emits (Ready R [] [] n [] d) (fpCompare cfg size i) fun _ => Held R d := by
  refine .pre (P := Ready R [.word Layout.fcr31] [.word Layout.fcr31] n (fpValues cfg size []) d) ?_
    fun e he => he.mono (List.nil_subset _) (List.nil_subset _) (Nat.le_refl n)
      (List.Subset.refl [])
  refine .bind (emits_inFp cfg size [] i.fs (by simp)) fun _ => ?_
  refine .bind (emits_inFp cfg size [i.fs] i.ft (by simp)) fun _ => ?_
  refine .bind (emits_temp (by simp; omega)) fun _ => .bind (emits_plain rfl) fun _ => ?_
  refine .bind (emits_inWord (by simp) (by simp) (by simp; omega)) fun _ => ?_
  refine .bind (emits_outWord (by simp) (by simp; omega)) fun _ => .bind (emits_plain rfl) fun _ => ?_
  refine .bind (emits_plain rfl) fun _ => ?_
  exact (emits_plain rfl).post fun _ _ he => he.held (by simp) (by simp)

theorem emits_storeContext (x : HostReg) (off : Int) :
    Emits (Ready R S C n L d) (storeContext x off) fun _ => Ready R S C n L d :=
  .ite (fun _ => emits_plain rfl) fun _ => emits_plain rfl

theorem emits_moveFromFp (cfg : Config) (width : Width) (hn : n ≤ 2) :
    Emits (Ready R [] [] n L d) (moveFromFp cfg width i) fun _ => Held R d := by
  have h9 : 2 + n ≤ 9 := by omega
  refine .pinning [.high (rt i), .low (rt i) none] [] n (by simp) (by simp) ?_
  cases width with
  | word =>
    refine .bind (emits_clobberFp _ 4) fun _ => ?_
    exact .bind (emits_outSigned (fun _ => by simp) h9) fun _ => emits_plain rfl
  | double =>
    refine .bind (emits_clobberFp _ 8) fun _ => ?_
    refine .bind (emits_outHigh (fun _ => by simp) h9) fun _ => ?_
    refine .bind (emits_outLow (fun _ => by simp) h9) fun _ => ?_
    exact .bind (emits_plain rfl) fun _ => emits_plain rfl

theorem emits_moveToFp (cfg : Config) (width : Width) (hn : n ≤ 2) :
    Emits (Ready R [] [] n L d) (moveToFp cfg width i) fun _ => Held R d := by
  have h9 : 2 + n ≤ 9 := by omega
  refine .pinning [.high (rt i), .low (rt i) none] [.high (rt i), .low (rt i) none] n (by simp)
    (by simp) ?_
  cases width with
  | word =>
    refine .bind (emits_clobberFp _ 4) fun _ => ?_
    exact .bind (emits_inLow (fun _ => by simp) h9) fun _ => emits_storeContext _ _
  | double =>
    refine .bind (emits_clobberFp _ 8) fun _ => ?_
    refine .bind (emits_inHigh (fun _ => by simp) h9) fun _ => ?_
    refine .bind (emits_storeContext _ _) fun _ => ?_
    exact .bind (emits_inLow (fun _ => by simp) h9) fun _ => emits_storeContext _ _

theorem emits_moveFromControl (hn : n ≤ 2) :
    Emits (Ready R [] [] n L d) (moveFromControl i) fun _ => Held R d := by
  have h9 : 2 + n ≤ 9 := by omega
  refine .pinning [.word Layout.fcr31, .low (rt i) none] [.word Layout.fcr31] n (by simp) (by simp) ?_
  refine .bind (emits_inWord (by simp) (by simp) h9) fun _ => ?_
  exact .bind (emits_outSigned (fun _ => by simp) h9) fun _ => emits_plain rfl

/-- Double word sums and differences of three different registers. -/
def Greedy (i : Recompiler.Instr) : Prop :=
  (i.kind = .alu .daddu ∨ i.kind = .alu .dsubu) ∧ Spread i

instance (i : Recompiler.Instr) : Decidable (Greedy i) :=
  inferInstanceAs (Decidable (_ ∧ _))

theorem emits_inlineAlu {op : AluOp} (hk : i.kind = .alu op) {f : EmitM Unit}
    (hf : inlineAlu? s op i = some f) (hn : n ≤ 2) (hfit : n = 0 ∨ ¬ Greedy i) :
    Emits (Ready R [] [] n L d) f fun _ => Held R d := by
  cases op with
  | add | sub => cases hf; exact emits_addTrapping _ hn
  | addu | subu => cases hf; exact emits_addWord _ hn
  | and | or | xor | nor => cases hf; exact emits_logic _ hn
  | slt | sltu => cases hf; exact emits_setLess _ hn
  | daddu =>
    cases hf
    exact emits_addDouble false hn (hfit.imp_right fun h hs => h ⟨.inl hk, hs⟩)
  | dsubu =>
    cases hf
    exact emits_addDouble true hn (hfit.imp_right fun h hs => h ⟨.inr hk, hs⟩)
  | dadd | dsub => cases hf

theorem emits_inlineImm {op : ImmOp} {f : EmitM Unit} (hf : inlineImm? s op i = some f)
    (hn : n ≤ 2) : Emits (Ready R [] [] n L d) f fun _ => Held R d := by
  cases op with
  | addi => cases hf; exact emits_addImmTrapping hn
  | addiu => cases hf; exact emits_addImm hn
  | slti | sltiu => cases hf; exact emits_setLessImm _ hn
  | andi => cases hf; exact emits_andImm hn
  | ori | xori => cases hf; exact emits_orImm _ hn
  | lui => cases hf; exact emits_loadUpper hn
  | daddiu => cases hf; exact emits_addImmDouble hn
  | daddi => cases hf

theorem emits_inlineShift {op : ShiftOp} {amount : ShiftAmount} {width : Width} {f : EmitM Unit}
    (hf : inlineShift? s op amount width i = some f) (hn : n ≤ 2) :
    Emits (Ready R [] [] n L d) f fun _ => Held R d := by
  cases amount <;> cases width <;> cases hf
  · exact emits_shiftWord op hn
  · exact emits_shiftDouble op hn
  · exact emits_shiftDouble32 op hn
  · exact emits_shiftWordVar op hn

theorem emits_inlineFp (cfg : Config) {size : FpSize} {op : FpOp} {f : EmitM Unit}
    (hf : inlineFp? cfg size op i = some f) (hn : n ≤ 2) :
    Emits (Ready R [] [] n [] d) f fun _ => Held R d := by
  cases op with
  | add | sub | mul | div => cases hf; exact emits_fpBinary cfg size _
  | sqrt | abs | mov | neg => cases hf; exact emits_fpUnary cfg size _
  | compare => cases hf; exact emits_fpCompare cfg size hn
  | round mode width => cases hf
  | convert format => cases hf
  | undefined => cases hf

theorem emits_inline (cfg : Config) {f : EmitM Unit} (hf : inline? cfg s i = some f) (hn : n ≤ 2)
    (hfit : n = 0 ∨ ¬ Greedy i) : Emits (Ready R [] [] n [] d) f fun _ => Held R d := by
  unfold inline? at hf
  cases hk : i.kind <;> simp only [hk] at hf <;> try cases hf
  case shift op amount width => exact emits_inlineShift hf hn
  case alu op => exact emits_inlineAlu hk hf hn hfit
  case imm op => exact emits_inlineImm hf hn
  case mulDiv op => cases op <;> cases hf <;> exact emits_multiply _ hn
  case mfhi => exact emits_move _ _ hn
  case mflo => exact emits_move _ _ hn
  case mthi => exact emits_move _ _ hn
  case mtlo => exact emits_move _ _ hn
  case sync => exact .pure fun _ he => he.held (by simp) (by simp)
  case load op => exact emits_load cfg op hn
  case store size => exact emits_store cfg size hn
  case loadFp width => exact emits_loadFp cfg width hn
  case storeFp width => exact emits_storeFp cfg width hn
  case mfc1 width => exact emits_moveFromFp cfg width hn
  case mtc1 width => exact emits_moveToFp cfg width hn
  case cfc1 =>
    split at hf
    · cases hf
      exact emits_moveFromControl hn
    · cases hf
  case fp format op =>
    cases format <;> simp only [fpFormatSize?, Option.bind_some, Option.bind_none] at hf
    · exact emits_inlineFp cfg hf hn
    · exact emits_inlineFp cfg hf hn
    · cases hf
    · cases hf

theorem emits_instr (cfg : Config) (hd : 0 ≤ d) (hn : n ≤ 2) (hfit : n = 0 ∨ ¬ Greedy i)
    (h0 : d = 0 → n = 0) :
    Emits (Ready R [] [] n [] d) (instr cfg s i)
      fun _ e => Held R d e ∧ (d = 0 → Ready R [] [] 0 [] 0 e) := by
  refine .ite (fun _ => ?_) fun _ => .pure fun e he => ⟨he.held (by simp) (by simp), fun h => ?_⟩
  · have hcode : Emits (Ready R [] [] n [] (d + 1)) ((inline? cfg s i).getD (request .exec s i))
        fun _ => Held R (d + 1) := by
      cases hf : inline? cfg s i with
      | some f => exact emits_inline cfg hf hn hfit
      | none => exact (emits_request _ s i).post fun _ _ he => he.held (by simp) (by simp)
    refine .bind emits_startOp fun _ => .bind hcode fun _ => ?_
    rintro e ⟨S, C, n, L, he, hS, hC⟩
    obtain ⟨a, e', h, he', hlast⟩ := emits_endOp (by omega) e he
    rw [show d + 1 - 1 = d by omega] at he'
    exact ⟨a, e', h, he'.held hS hC, fun h => hlast (by omega)⟩
  · cases h
    cases h0 rfl
    exact he

end

end Emit

end Recompiler
