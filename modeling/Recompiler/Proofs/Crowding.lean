import Recompiler.Proofs.Capacity
import Recompiler.Proofs.Fields

/-!
When emission runs out of registers. A branch and its delay slot are one scope; emission fails
exactly if the branch keeps a temporary and the delay slot needs all nine registers.
-/

namespace Recompiler

open Ir

namespace Pins

open HostCache

variable {S C : List Content} {n : Nat} {c c' : HostCache}

theorem all_consts (h : Pins S C n c) : Pins S S n c :=
  { h with consts := fun r hb hv _ => h.busy r hb hv }

theorem unpinAll (h : Pins S C n c) : Pins [] [] n (Emit.unpinAll c) := by
  have hslot (r : Fin 9) : (Emit.unpinAll c).slot r = Emit.unpinned (c.slot r) :=
    Vector.get_map _ _ _
  have hkeep (r : Fin 9) : ((Emit.unpinAll c).slot r).content = (c.slot r).content ∧
      (((Emit.unpinAll c).slot r).content.isValue = true →
        ((Emit.unpinAll c).slot r).busy = false) := by
    rw [hslot r, Emit.unpinned]
    split
    · rename_i ht
      refine ⟨rfl, fun hv => ?_⟩
      rw [ht] at hv
      cases hv
    · exact ⟨rfl, fun _ => rfl⟩
  refine ⟨fun r r' => ?_, fun r hb hv => ?_, fun r hb hv => ?_, ?_⟩
  · rw [(hkeep r).1, (hkeep r').1]
    exact h.distinct r r'
  · rw [(hkeep r).2 hv] at hb
    cases hb
  · rw [(hkeep r).2 hv] at hb
    cases hb
  · obtain ⟨rs, hl, hrs⟩ := h.temps
    refine ⟨rs, hl, fun r hr => hrs r ?_⟩
    rwa [(hkeep r).1] at hr

end Pins

namespace Emit

theorem slot_retired (keep : HostReg) (c : HostCache) (r : Fin 9) :
    (c.temps.foldl (fun c x => if x = keep then c else c.drop x) c).slot r =
      if (c.slot r).content = .temp ∧ HostReg.ofSlot r ≠ keep then .empty else c.slot r := by
  have hfold (rs : List (Fin 9)) (hrs : rs.Nodup) (c : HostCache) :
      ((rs.map HostReg.ofSlot).foldl (fun c x => if x = keep then c else c.drop x) c).slot r =
        if r ∈ rs ∧ HostReg.ofSlot r ≠ keep then .empty else c.slot r := by
    rw [List.foldl_map, HostCache.slot_foldl
      (F := fun r s => if HostReg.ofSlot r ≠ keep then .empty else s) ?_ ?_ hrs]
    · by_cases hm : r ∈ rs <;> simp [hm]
    · intro c r
      by_cases hk : HostReg.ofSlot r = keep
      · simp [hk]
      · simp only [hk, if_false, ne_eq, not_false_eq_true, if_true, HostCache.drop,
          HostCache.modifySlot_ofSlot, HostCache.slot_setSlot_self]
    · intro c r r' hr
      by_cases hk : HostReg.ofSlot r = keep
      · simp [hk]
      · simp only [hk, if_false, HostCache.drop, HostCache.modifySlot_ofSlot,
          HostCache.slot_setSlot_of_ne _ _ hr]
  rw [HostCache.temps, hfold _ (List.Pairwise.filter _ (List.nodup_finRange 9))]
  simp only [List.mem_filter, List.mem_finRange, true_and, beq_iff_eq]

section

variable {R : List String} {S C : List Content} {n : Nat} {L : List (FpSize × Int)} {d : Int}
  {g : GuestReg} {s : Site} {i : Recompiler.Instr}

theorem Ready.all_consts {e : Emitter} (h : Ready R S C n L d e) : Ready R S S n L d e :=
  { h with pins := h.pins.all_consts }

theorem emits_unpinAll : Emits (Ready R S C n L d) (modifyCache unpinAll)
    fun _ => Ready R [] [] n L d :=
  fun _ he => ⟨(), _, rfl, he.withCache rfl he.depth he.pins.unpinAll (he.fpPins.of_fpSlots rfl)⟩

/-- At most one temporary stays, and none if `keep` is no register. -/
theorem emits_retire (keep : HostReg) : Emits (Ready R S C n L d) (retire keep)
    fun _ => Ready R S C (if keep = .rz then 0 else 1) L d := by
  intro e he
  let c := e.cache.temps.foldl (fun c x => if x = keep then c else c.drop x) e.cache
  have hext : Extends e.cache c := by
    have hfold (xs : List HostReg) (c₀ : HostCache) : Extends c₀
        (xs.foldl (fun c x => if x = keep then c else c.drop x) c₀) := by
      induction xs generalizing c₀ with
      | nil => exact .refl c₀
      | cons x xs ih =>
        refine Extends.trans ?_ (ih _)
        dsimp only
        split
        · exact .refl c₀
        · unfold HostCache.drop HostCache.modifySlot
          split
          · exact .setSlot c₀ _ _
          · exact .refl c₀
    exact hfold _ _
  have hslot (r : Fin 9) : c.slot r = .empty ∨ c.slot r = e.cache.slot r ∧
      ((c.slot r).content = .temp → HostReg.ofSlot r = keep) := by
    have hr := slot_retired keep e.cache r
    split at hr
    · exact .inl hr
    · rename_i hk
      refine .inr ⟨hr, fun ht => Decidable.byContradiction fun hne => hk ⟨?_, hne⟩⟩
      rw [← hr]
      exact ht
  have hpins : Pins S C n c := he.pins.relax fun r => by
    rcases hslot r with h | ⟨h, -⟩
    · exact .inl h
    · rw [h]
      exact .inr ⟨rfl, id, id⟩
  have htemp {r : Fin 9} (ht : (c.slot r).content = .temp) : HostReg.ofSlot r = keep := by
    rcases hslot r with h | ⟨-, h⟩
    · rw [h] at ht
      cases ht
    · exact h ht
  refine ⟨(), { e with cache := c }, rfl, he.appends hext.toAppends
    { hpins with temps := ?_ } (he.fpPins.of_fpSlots hext.fpSlots)⟩
  split
  · rename_i hk
    refine ⟨[], Nat.le_refl 0, fun r ht => ?_⟩
    have := htemp ht
    rw [hk] at this
    have := congrArg HostReg.num this
    simp only [HostReg.ofSlot, HostReg.rz] at this
    omega
  · by_cases hex : ∃ r, (c.slot r).content = .temp
    · obtain ⟨r₀, h₀⟩ := hex
      refine ⟨[r₀], Nat.le_refl 1, fun r ht => ?_⟩
      have := congrArg HostReg.num ((htemp ht).trans (htemp h₀).symm)
      exact List.mem_singleton.mpr (Fin.ext this)
    · exact ⟨[], Nat.zero_le 1, fun r ht => absurd ⟨r, ht⟩ hex⟩

/-- Emission in order after a test that pins at most five values and has at most `m`
temporaries. -/
def Tested (R : List String) (m : Nat) (d : Int) (e : Emitter) : Prop :=
  ∃ S C, Ready R S C m [] d e ∧ S.length ≤ 4

theorem Ready.tested {e : Emitter} {m : Nat} (h : Ready R S C n [] d e) (hS : S.length ≤ 4)
    (hn : n ≤ m) : Tested R m d e :=
  ⟨S, C, h.mono (List.Subset.refl S) (List.Subset.refl C) hn (List.Subset.refl []), hS⟩

theorem emits_tested {m : Nat} {i : Ir.Instr String} (hi : i.target? = none) :
    Emits (Tested R m d) (emit i) fun _ => Tested R m d := by
  rintro e ⟨S, C, he, hS⟩
  obtain ⟨a, e', h, he'⟩ := emits_plain hi e he
  exact ⟨a, e', h, S, C, he', hS⟩

theorem emits_differ (x y : GuestReg) (t : HostReg) :
    Emits (Ready R [.high x, .low x none, .high y, .low y none]
      [.high x, .low x none, .high y, .low y none] 1 [] d) (differ s x y t)
      fun _ => Tested R 2 d := by
  refine .bind (emits_inLow (fun _ => by simp) (by simp)) fun _ => ?_
  refine .bind (emits_inLow (fun _ => by simp) (by simp)) fun _ => .bind (emits_plain rfl) fun _ => ?_
  refine .ite (fun _ => ?_) fun _ => .pure fun _ he => he.tested (by simp) (by decide)
  refine .bind (emits_temp (by simp)) fun _ => ?_
  refine .bind (emits_inHigh (fun _ => by simp) (by simp)) fun _ => ?_
  refine .bind (emits_inHigh (fun _ => by simp) (by simp)) fun _ => .bind (emits_plain rfl) fun _ => ?_
  exact (emits_plain rfl).post fun _ _ he => he.tested (by simp) (by decide)

theorem emits_lessThanOne (g : GuestReg) (t : HostReg) :
    Emits (Ready R [.high g, .low g none] [.high g, .low g none] 1 [] d) (lessThanOne s g t)
      fun _ => Tested R 2 d := by
  refine .ite (fun _ => ?_) fun _ => ?_
  · refine .bind (emits_inLow (fun _ => by simp) (by simp)) fun _ => ?_
    exact (emits_plain rfl).post fun _ _ he => he.tested (by simp) (by decide)
  · refine .bind (emits_inHigh (fun _ => by simp) (by simp)) fun high => ?_
    refine .bind (emits_inLow (fun _ => by simp) (by simp)) fun low => ?_
    refine .bind (emits_constant 1 (by simp)) fun one e he => ?_
    rcases he with ⟨k, he⟩ | he
    · exact (emits_compareBoth true high low .rz one t).post
        (fun _ _ he => he.tested (by simp) (by decide)) e he
    · exact (emits_compareBoth true high low .rz one t).post
        (fun _ _ he => he.tested (by simp) (by decide)) e he

theorem emits_signWord (g : GuestReg) :
    Emits (Ready R [.high g, .low g none] [.high g, .low g none] 1 [] d) (signWord s g)
      fun _ => Tested R 2 d := by
  unfold signWord
  split
  · exact (emits_inLow (fun _ => by simp) (by simp)).post fun _ _ he =>
      he.tested (by simp) (by decide)
  · exact (emits_inHigh (fun _ => by simp) (by simp)).post fun _ _ he =>
      he.tested (by simp) (by decide)

theorem Emits.testing {α : Type} {f : EmitM α} {Q : α → Emitter → Prop} (S : List Content)
    (h : Emits (Ready R S S 1 [] d) f Q) : Emits (Ready R [] [] 1 [] d) f Q :=
  h.pre fun _ he => he.mono (List.nil_subset S) (List.nil_subset S) (Nat.le_refl 1)
    (List.Subset.refl [])

theorem emits_condition : Emits (Ready R [] [] 0 [] d) (condition s i) fun _ => Tested R 2 d := by
  refine .bind (emits_temp (by simp)) fun t => ?_
  have hret : Emits (Tested R 2 d) (pure t : EmitM HostReg) fun _ => Tested R 2 d :=
    .pure fun _ he => he
  dsimp only
  split
  · rename_i value _
    refine .testing [.word Layout.fcr31] (.bind (emits_inWord (by simp) (by simp) (by simp))
      fun _ => .bind ((emits_plain rfl).post fun _ _ he => he.tested (m := 2) (by simp) (by decide))
        fun _ => ?_)
    split
    · exact .bind (emits_tested rfl) fun _ => hret
    · exact hret
  · exact .testing _ (.bind (emits_differ _ _ t) fun _ => .bind (emits_tested rfl) fun _ => hret)
  · exact .testing _ (.bind (emits_differ _ _ t) fun _ => hret)
  · exact .testing _ (.bind (emits_lessThanOne _ t) fun _ => hret)
  · exact .testing _ (.bind (emits_lessThanOne _ t) fun _ => .bind (emits_tested rfl) fun _ => hret)
  · exact .testing _ (.bind (emits_signWord _) fun _ => .bind (emits_tested rfl) fun _ => hret)
  · exact .testing _ (.bind (emits_signWord _) fun _ => .bind (emits_tested rfl) fun _ =>
      .bind (emits_tested rfl) fun _ => hret)

def IsDirect (i : Recompiler.Instr) : Prop := i.isJump = true ∧ i.opcode ≠ 0

instance (i : Recompiler.Instr) : Decidable (IsDirect i) :=
  inferInstanceAs (Decidable (_ ∧ _))

/-- The most temporaries that a branch keeps for after its delay slot. -/
def tempsKept (i : Recompiler.Instr) : Nat := if IsDirect i then 0 else 2

theorem emits_evaluate :
    Emits (Ready R [] [] 0 [] d) (evaluate s i) fun _ => Tested R (tempsKept i) d := by
  unfold evaluate tempsKept
  split
  · rename_i hop
    rw [if_neg fun h : IsDirect i => h.2 hop]
    refine .bind (emits_temp (by simp)) fun t => .testing [.low (rs i) none] ?_
    refine .bind (emits_inLow (fun _ => by simp) (by simp)) fun _ => .bind (emits_plain rfl) fun _ => ?_
    exact .pure fun _ he => he.tested (by simp) (by decide)
  · rename_i hop
    split
    · rename_i hj
      rw [if_pos (show IsDirect i from ⟨hj, hop⟩)]
      exact .pure fun _ he => he.tested (by simp) (by decide)
    · rename_i hj
      rw [if_neg fun h : IsDirect i => hj h.1]
      exact .bind emits_condition fun _ => .pure fun _ he => he

theorem emits_writeLink {m : Nat} (hm : m ≤ 2) :
    Emits (Tested R m d) (writeLink s i) fun _ e => ∃ S C, Ready R S C m [] d e := by
  have hlink (S C : List Content) (hS : S.length ≤ 4) : Emits (Ready R S C m [] d) (writeLink s i)
      fun _ e => ∃ S C, Ready R S C m [] d e := by
    unfold writeLink
    split
    · rename_i r _
      refine .ite (fun _ => ?_) fun _ => .pure fun _ he => ⟨S, C, he⟩
      refine .pre (P := Ready R (.low (.ofReg r) none :: S) (.low (.ofReg r) none :: S) m [] d) ?_
        fun e he => he.all_consts.mono (List.subset_cons_self _ S) (List.subset_cons_self _ S)
          (Nat.le_refl m) (List.Subset.refl [])
      refine .bind (emits_outSigned (fun _ => by simp) (by simp; omega)) fun x => ?_
      exact .bind (emits_plain rfl) fun _ => (emits_setConst x _).post fun _ _ he => ⟨_, _, he⟩
    · exact .pure fun _ he => ⟨S, C, he⟩
  rintro e ⟨S, C, he, hS⟩
  exact hlink S C hS e he

theorem emits_restore {e₀ : Emitter} (hp : Pins S C n e₀.cache) (hf : FpPins L e₀.cache) :
    Emits (Settled R d) (modifyCache (·.restore e₀.cache.snapshot)) fun _ => Ready R S C n L d := by
  rintro e ⟨S', C', n', L', he⟩
  exact ⟨(), _, rfl, he.withCache rfl he.depth (hp.of_slots fun _ => rfl) (hf.of_fpSlots rfl)⟩

theorem Emits.get {α : Type} {P : Emitter → Prop} {f : Emitter → EmitM α} {Q : α → Emitter → Prop}
    (h : ∀ e₀, P e₀ → Emits P (f e₀) Q) : Emits P (get >>= f) Q :=
  fun e he => h e he e he

theorem emits_slot (cfg : Config) (slot : Recompiler.Instr) (keep : HostReg) (hn : n ≤ 2)
    (hfit : n = 0 ∨ ¬ Greedy slot) {α : Type} {f : EmitM α} {Q : α → Emitter → Prop}
    (hf : ∀ S C L, S.length ≤ 6 → C.length ≤ 5 →
      Emits (Ready R S C (if keep = .rz then 0 else 1) L 1) f Q) :
    Emits (Ready R [] [] n [] 1) (do
      instr cfg s slot
      retire keep
      f) Q := by
  refine .bind (emits_instr cfg (by decide) hn hfit fun h => absurd h (by decide)) fun _ => ?_
  rintro e ⟨⟨S, C, m, L, he, hS, hC⟩, -⟩
  exact Emits.bind (emits_retire keep) (fun _ => hf S C L hS hC) e he

theorem emits_exits (cfg : Config) (target : UInt32) (k : Nat) {m : Nat} (hS : S.length ≤ 6)
    (hC : C.length ≤ 5) (hm : m ≤ 1) :
    Emits (Ready R S C m L 1) (exitDirect cfg target k true) fun _ => Settled R 1 :=
  emits_exitDirect cfg target k true (by decide) (by omega) (by omega)

theorem emits_close : Emits (Settled R 1) (onCache HostCache.endOp) fun _ => Settled R 0 := by
  rintro e ⟨S, C, n, L, he⟩
  obtain ⟨a, e', h, he', -⟩ := emits_endOp (by decide) e he
  exact ⟨a, e', h, he'.settled⟩

/-- A branch and its delay slot fit, unless the one keeps a temporary and the other needs all
registers. -/
theorem emits_branchAndSlot (cfg : Config) (slot : TraceOp)
    (hfit : IsDirect i ∨ ¬ Greedy slot.instr) :
    Emits (Ready R [] [] 0 [] 0) (branchAndSlot cfg s i slot) fun _ => Settled R 0 := by
  have hkept : tempsKept i ≤ 2 := by
    unfold tempsKept
    split <;> decide
  have hfit' : tempsKept i = 0 ∨ ¬ Greedy slot.instr := hfit.imp_left fun h => if_pos h
  have hone (x : HostReg) : (if x = .rz then 0 else 1) ≤ 1 := by split <;> decide
  refine .bind emits_startOp fun _ => .bind emits_evaluate fun out => ?_
  refine .bind (emits_writeLink hkept) fun _ => ?_
  refine .bind (Q := fun _ => Ready R [] [] (tempsKept i) [] 1) ?_ fun _ => ?_
  · rintro e ⟨S, C, he⟩
    exact emits_unpinAll e he
  dsimp only
  split
  · refine emits_slot cfg _ _ hkept hfit' fun S C L hS hC => .ite (fun _ => ?_) fun _ => ?_
    · have hlen : S.length + 1 + (if out.target = .rz then 0 else 1) ≤ 9 := by
        have := hone out.target
        omega
      exact .bind (emits_exitReg cfg _ _ (by decide) hlen) fun _ => emits_close
    · exact .bind (emits_exits cfg _ _ hS hC (hone _)) fun _ => emits_close
  split
  · refine .bind (emits_freshLabel (by decide)) fun skip => ?_
    refine .bind (emits_emit fun name hname => ?_) fun _ => ?_
    · cases hname
      exact List.mem_cons_self
    refine .get fun e₀ he₀ => emits_slot cfg _ _ hkept hfit' fun S C L hS hC => ?_
    refine .bind (emits_exits cfg _ _ hS hC (hone _)) fun _ => ?_
    refine .bind (emits_restore he₀.pins he₀.fpPins) fun _ => .bind (emits_putLabel skip) fun _ => ?_
    exact .bind (emits_exitDirect cfg _ _ _ (by decide) (by simp; omega) (by simp; omega))
      fun _ => emits_close
  · refine .bind (emits_freshLabel (by decide)) fun notTaken => ?_
    refine emits_slot cfg _ _ hkept hfit' fun S C L hS hC => ?_
    refine .bind (emits_emit fun name hname => ?_) fun _ => ?_
    · cases hname
      exact List.mem_cons_self
    refine .get fun e₀ he₀ => .bind (emits_exits cfg _ _ hS hC (hone _)) fun _ => ?_
    refine .bind (emits_restore he₀.pins he₀.fpPins) fun _ => ?_
    refine .bind (emits_putLabel notTaken) fun _ => ?_
    exact .bind (emits_exits cfg _ _ hS hC (hone _)) fun _ => emits_close

theorem emits_branchServed (cfg : Config) :
    Emits (Ready R [] [] 0 [] 0) (branchServed cfg s i) fun _ => Settled R 0 := by
  refine .bind emits_startOp fun _ => .bind (emits_request _ s i) fun _ => ?_
  refine .bind (Q := fun _ => Ready R [] [] 0 [] 0) ?_ fun _ =>
    emits_exitServed cfg _ (by decide) (by simp)
  exact (emits_endOp (by decide)).post fun _ _ he => he.2 rfl

def HasTemp (e : Emitter) : Prop := ∃ r, (e.cache.slot r).content = .temp

def KeepsTemp {α : Type} (f : EmitM α) : Prop := ∀ e a e', HasTemp e → f e = .ok a e' → HasTemp e'

theorem HasTemp.kept {e : Emitter} {c : HostCache} (h : HasTemp e) (hk : Kept e.cache c) :
    HasTemp { e with cache := c } := by
  obtain ⟨r, hr⟩ := h
  have hbase := (hk r ⟨by rw [hr]; exact fun h => (nomatch h), .inr hr⟩).2
  refine ⟨r, ?_⟩
  change (c.slot r).content = .temp
  rw [hr] at hbase
  cases hc : (c.slot r).content <;> rw [hc] at hbase <;> cases hbase

namespace KeepsTemp

variable {α β : Type}

theorem pure (a : α) : KeepsTemp (Pure.pure a : EmitM α) := by
  intro e a' e' h he
  cases he
  exact h

theorem bind {f : EmitM α} {k : α → EmitM β} (hf : KeepsTemp f) (hk : ∀ a, KeepsTemp (k a)) :
    KeepsTemp (f >>= k) := by
  intro e b e' h he
  simp only [Bind.bind, EStateM.bind] at he
  cases hfe : f e with
  | ok a e₁ =>
    rw [hfe] at he
    exact hk a e₁ b e' (hf e a e₁ h hfe) he
  | error err e₁ =>
    rw [hfe] at he
    cases he

theorem onCache {m : CacheM α}
    (hm : ∀ {c a c'}, m c = .ok a c' → Kept c c') : KeepsTemp (Emit.onCache m) := by
  intro e a e' h he
  obtain ⟨c, hc, rfl⟩ := onCache_ok he
  exact h.kept (hm hc)

theorem modifyCache {f : HostCache → HostCache} (hf : ∀ c, Kept c (f c)) :
    KeepsTemp (Emit.modifyCache f) := by
  intro e a e' h he
  cases he
  exact h.kept (hf e.cache)

theorem emit (i : Ir.Instr String) : KeepsTemp (Emit.emit i) := modifyCache fun c => .emit c i

theorem inLow (g : GuestReg) : KeepsTemp (Emit.inLow g) :=
  onCache fun {c x c'} h => by
    by_cases h0 : g.val = 0
    · rw [HostCache.allocInLow, if_pos h0] at h
      cases h
      exact .refl c
    · exact (Kept.allocInLow h0 h).1

theorem inHigh (g : GuestReg) : KeepsTemp (Emit.inHigh g) :=
  onCache fun {c x c'} h => by
    by_cases h0 : g.val = 0
    · rw [HostCache.allocInHigh, if_pos h0] at h
      cases h
      exact .refl c
    · exact (Kept.allocInHigh h0 h).1

theorem inWord (off : Int) : KeepsTemp (Emit.inWord off) :=
  onCache fun {c x c'} h => by
    rw [HostCache.allocIn32_eq] at h
    split at h
    · cases h
      exact .touch c _
    · exact (Kept.claimLoaded h).1

theorem temp : KeepsTemp Emit.temp := onCache fun h => (Kept.claimReg h).1

theorem constant (v : UInt32) : KeepsTemp (Emit.constant v) :=
  onCache fun {c x c'} h => by
    by_cases hv : v = 0
    · rw [HostCache.allocConst, if_pos hv] at h
      cases h
      exact .refl c
    · rw [HostCache.allocConst_eq c hv] at h
      split at h
      · cases h
        exact .touch c _
      · split at h
        · rename_i ht
          cases h
          exact ((Kept.claimReg ht).1.trans (.emit _ _)).trans (.setConst _ x v)
        · cases h

theorem freshLabel (kind : String) : KeepsTemp (Emit.freshLabel kind) := by
  intro e a e' h he
  cases he
  exact h

theorem putLabel (name : String) : KeepsTemp (Emit.putLabel name) := by
  rintro ⟨⟨builder, clock, depth, slots, fpSlots⟩, labels, stubs, exits, cells⟩ a e' h he
  simp only [Emit.putLabel] at he
  split at he <;> cases he
  exact h

theorem compareBoth (signed : Bool) (xh xl yh yl t : HostReg) :
    KeepsTemp (Emit.compareBoth signed xh xl yh yl t) :=
  bind (freshLabel _) fun _ => bind (emit _) fun _ => bind (emit _) fun _ =>
    bind (emit _) fun _ => putLabel _

theorem differ (s : Site) (x y : GuestReg) (t : HostReg) : KeepsTemp (Emit.differ s x y t) := by
  refine bind (inLow x) fun _ => bind (inLow y) fun _ => bind (emit _) fun _ => ?_
  split
  · exact bind temp fun _ => bind (inHigh x) fun _ => bind (inHigh y) fun _ =>
      bind (emit _) fun _ => emit _
  · exact pure ()

theorem lessThanOne (s : Site) (g : GuestReg) (t : HostReg) :
    KeepsTemp (Emit.lessThanOne s g t) := by
  unfold Emit.lessThanOne
  split
  · exact bind (inLow g) fun _ => emit _
  · exact bind (inHigh g) fun _ => bind (inLow g) fun _ => bind (constant 1) fun _ =>
      compareBoth _ _ _ _ _ _

theorem signWord (s : Site) (g : GuestReg) : KeepsTemp (Emit.signWord s g) := by
  unfold Emit.signWord
  split
  · exact inLow g
  · exact inHigh g

end KeepsTemp

theorem hasTemp_temp {e e' : Emitter} {x : HostReg} (h : temp e = .ok x e') : HasTemp e' := by
  rw [temp, onCache_eq] at h
  cases hc : HostCache.allocTemp e.cache with
  | error err c =>
    rw [hc] at h
    cases h
  | ok y c =>
    rw [hc] at h
    cases h
    obtain ⟨r, -, -, rfl⟩ := HostCache.claimReg_ok hc
    refine ⟨r, ?_⟩
    change ((e.cache.replace r (.fresh .temp false)).slot r).content = .temp
    rw [HostCache.slot_replace_self]
    rfl

theorem hasTemp_first {α : Type} {k : HostReg → EmitM α} (hk : ∀ x, KeepsTemp (k x))
    {e e' : Emitter} {a : α} (h : (temp >>= k) e = .ok a e') : HasTemp e' := by
  simp only [bind, EStateM.bind] at h
  cases ht : temp e with
  | error err e₁ =>
    rw [ht] at h
    cases h
  | ok x e₁ =>
    rw [ht] at h
    exact hk x e₁ a e' (hasTemp_temp ht) h

theorem hasTemp_condition {e e' : Emitter} {t : HostReg} (h : condition s i e = .ok t e') :
    HasTemp e' := by
  refine hasTemp_first (fun t => ?_) h
  split
  · refine .bind (.inWord _) fun _ => .bind (.emit _) fun _ => ?_
    split
    · exact .bind (.emit _) fun _ => .pure _
    · exact .pure _
  · exact .bind (.differ _ _ _ _) fun _ => .bind (.emit _) fun _ => .pure _
  · exact .bind (.differ _ _ _ _) fun _ => .pure _
  · exact .bind (.lessThanOne _ _ _) fun _ => .pure _
  · exact .bind (.lessThanOne _ _ _) fun _ => .bind (.emit _) fun _ => .pure _
  · exact .bind (.signWord _ _) fun _ => .bind (.emit _) fun _ => .pure _
  · exact .bind (.signWord _ _) fun _ => .bind (.emit _) fun _ => .bind (.emit _) fun _ => .pure _

theorem hasTemp_evaluate {e e' : Emitter} {out : Outcome} (hi : ¬ IsDirect i)
    (h : evaluate s i e = .ok out e') : HasTemp e' := by
  unfold evaluate at h
  split at h
  · refine hasTemp_first (fun x => ?_) h
    exact .bind (.inLow _) fun _ => .bind (.emit _) fun _ => .pure _
  · rename_i hop
    split at h
    · rename_i hj
      exact absurd ⟨hj, hop⟩ hi
    · simp only [bind, EStateM.bind] at h
      cases hc : condition s i e with
      | error err e₁ =>
        rw [hc] at h
        cases h
      | ok t e₁ =>
        rw [hc] at h
        cases h
        exact hasTemp_condition hc

theorem keepsTemp_writeLink : KeepsTemp (writeLink s i) := by
  have hout (g : GuestReg) : KeepsTemp (outSigned g) := by
    intro e x e' h he
    rw [outSigned, onCache_eq] at he
    cases hc : HostCache.allocOutExt g .sign e.cache with
    | error err c =>
      rw [hc] at he
      cases he
    | ok y c =>
      rw [hc] at he
      cases he
      by_cases h0 : g.val = 0
      · rw [HostCache.allocOutExt, if_pos h0] at hc
        cases hc
        exact h
      · have hdrop : HasTemp { e with cache := e.cache.dropHigh g } := by
          obtain ⟨r, hr⟩ := h
          refine ⟨r, ?_⟩
          change ((e.cache.dropHigh g).slot r).content = .temp
          unfold HostCache.dropHigh
          split
          · rename_i hi hf
            have hne : hi ≠ r := by
              rintro rfl
              have := HostCache.findHigh?_some hf
              rw [hr] at this
              cases this
            rw [HostCache.slot_setSlot_of_ne _ _ hne]
            exact hr
          · exact hr
        rw [HostCache.allocOutExt_eq _ _ h0] at hc
        split at hc
        · rename_i hf
          exact hdrop.kept (Kept.overwrite (HostCache.findLow?_some hf) hc).1
        · exact hdrop.kept (Kept.claimReg hc).1
  unfold writeLink
  split
  · split
    · exact .bind (hout _) fun _ => .bind (.emit _) fun _ => .modifyCache fun c => .setConst c _ _
    · exact .pure ()
  · exact .pure ()

theorem keepsTemp_unpinAll : KeepsTemp (modifyCache unpinAll) := by
  rintro e a e' ⟨r, hr⟩ he
  cases he
  refine ⟨r, ?_⟩
  change ((unpinAll e.cache).slot r).content = .temp
  rw [show (unpinAll e.cache).slot r = unpinned (e.cache.slot r) from Vector.get_map _ _ _,
    unpinned, if_pos hr]
  exact hr

/-- Different registers are pinned with the values or temporaries of `ks`. -/
def Occupied (ks : List Content) (e : Emitter) : Prop :=
  ∃ rs : List (Fin 9), rs.Nodup ∧ rs.map (fun r => (e.cache.slot r).content.base) = ks ∧
    ∀ r ∈ rs, (e.cache.slot r).Pinned

theorem HasTemp.occupied {e : Emitter} (h : HasTemp e) : Occupied [.temp] e := by
  obtain ⟨r, hr⟩ := h
  refine ⟨[r], by simp, by simp [hr, Content.base], fun r' hr' => ?_⟩
  rw [List.mem_singleton.mp hr']
  refine ⟨?_, .inr hr⟩
  rw [hr]
  intro hu
  cases hu

theorem Occupied.kept {ks : List Content} {e : Emitter} {c : HostCache} (h : Occupied ks e)
    (hk : Kept e.cache c) : Occupied ks { e with cache := c } := by
  obtain ⟨rs, hnd, hks, hpin⟩ := h
  refine ⟨rs, hnd, ?_, fun r hr => (hk r (hpin r hr)).1⟩
  rw [← hks]
  exact List.map_congr_left fun r hr => (hk r (hpin r hr)).2

theorem Occupied.cons {ks : List Content} {e : Emitter} (h : Occupied ks e) {r : Fin 9}
    {k : Content} (hr : (e.cache.slot r).Pinned) (hk : (e.cache.slot r).content.base = k)
    (hnew : ∀ rs : List (Fin 9), rs.map (fun r => (e.cache.slot r).content.base) = ks →
      (∀ r ∈ rs, (e.cache.slot r).Pinned) → r ∉ rs) : Occupied (k :: ks) e := by
  obtain ⟨rs, hnd, hks, hpin⟩ := h
  refine ⟨r :: rs, List.nodup_cons.mpr ⟨hnew rs hks hpin, hnd⟩, by rw [List.map_cons, hks, hk], ?_⟩
  intro r' hr'
  rcases List.mem_cons.mp hr' with rfl | hr'
  · exact hr
  · exact hpin r' hr'

/-- Emission either succeeds with `Q` or runs out of registers. -/
def Squeezes {α : Type} (P : Emitter → Prop) (f : EmitM α) (Q : α → Emitter → Prop) : Prop :=
  ∀ e, P e → (∃ a e', f e = .ok a e' ∧ Q a e') ∨
    ∃ e', f e = .error (.cache .outOfRegisters) e'

def Overflows {α : Type} (P : Emitter → Prop) (f : EmitM α) : Prop :=
  ∀ e, P e → ∃ e', f e = .error (.cache .outOfRegisters) e'

theorem Overflows.bind {α β : Type} {P : Emitter → Prop} {f : EmitM α} {Q : α → Emitter → Prop}
    {k : α → EmitM β} (hf : Squeezes P f Q) (hk : ∀ a, Overflows (Q a) (k a)) :
    Overflows P (f >>= k) := by
  intro e he
  simp only [Bind.bind, EStateM.bind]
  rcases hf e he with ⟨a, e₁, h, hq⟩ | ⟨e₁, h⟩
  · rw [h]
    exact hk a e₁ hq
  · rw [h]
    exact ⟨e₁, rfl⟩

theorem Overflows.first {α β : Type} {P : Emitter → Prop} {f : EmitM α} {k : α → EmitM β}
    (hf : Overflows P f) : Overflows P (f >>= k) :=
  .bind (Q := fun _ _ => False) (fun e he => .inr (hf e he)) fun _ _ h => h.elim

theorem squeezes_emit {P : Emitter → Prop} (i : Ir.Instr String)
    (hP : ∀ e, P e → P { e with cache := e.cache.emit i }) :
    Squeezes P (emit i) fun _ => P :=
  fun e he => .inl ⟨(), _, rfl, hP e he⟩

theorem Occupied.emit {ks : List Content} (i : Ir.Instr String) (e : Emitter)
    (h : Occupied ks e) : Occupied ks { e with cache := e.cache.emit i } :=
  h.kept (.emit _ i)

theorem squeezes_onCache {m : CacheM HostReg} {ks : List Content} {k : Content} (hk : k ∉ ks)
    (hkv : k.isValue = true)
    (hok : ∀ {c x c'}, m c = .ok x c' → Kept c c' ∧ Kept.Gives c' x k)
    (herr : ∀ {c err c'}, m c = .error err c' → err = .outOfRegisters) :
    Squeezes (Occupied ks) (onCache m) fun _ => Occupied (k :: ks) := by
  intro e he
  rw [onCache_eq]
  cases hm : m e.cache with
  | error err c =>
    cases herr hm
    exact .inr ⟨_, rfl⟩
  | ok x c =>
    obtain ⟨hkept, r, -, hb, hbase⟩ := hok hm
    refine .inl ⟨_, _, rfl, (he.kept hkept).cons (r := r) ⟨fun hu => ?_, .inl hb⟩ hbase ?_⟩
    · rw [show (c.slot r).content = .unused from hu] at hbase
      rw [← hbase] at hkv
      cases hkv
    · intro rs hks _ hr
      refine hk (hks ▸ List.mem_map.mpr ⟨r, hr, hbase⟩)

theorem squeezes_inLow {ks : List Content} (h0 : g.val ≠ 0) (hk : .low g none ∉ ks) :
    Squeezes (Occupied ks) (inLow g) fun _ => Occupied (.low g none :: ks) := by
  refine squeezes_onCache hk rfl (Kept.allocInLow h0) fun {c err c'} h => ?_
  rw [HostCache.allocInLow_eq c h0] at h
  split at h
  · cases h
  · exact HostCache.claimLoaded_error h

theorem squeezes_inHigh {ks : List Content} (h0 : g.val ≠ 0) (hk : .high g ∉ ks) :
    Squeezes (Occupied ks) (inHigh g) fun _ => Occupied (.high g :: ks) := by
  refine squeezes_onCache hk rfl (Kept.allocInHigh h0) fun {c err c'} h => ?_
  rw [HostCache.allocInHigh_eq c h0] at h
  split at h
  · cases h
  · split at h
    · split at h
      · exact HostCache.materialize_error h
      · exact HostCache.claimLoaded_error h
    · exact HostCache.claimLoaded_error h

theorem squeezes_outHigh {ks : List Content} (h0 : g.val ≠ 0) (hk : .high g ∉ ks) :
    Squeezes (Occupied ks) (outHigh g) fun _ => Occupied (.high g :: ks) := by
  refine squeezes_onCache hk rfl (Kept.allocOutHigh h0) fun {c err c'} h => ?_
  rw [HostCache.allocOutHigh_eq c h0] at h
  split at h
  · cases h
  · exact HostCache.claimReg_error h

theorem squeezes_temp {ks : List Content} :
    Squeezes (Occupied ks) temp fun _ => Occupied (.temp :: ks) := by
  intro e he
  rw [temp, onCache_eq]
  cases hm : HostCache.allocTemp e.cache with
  | error err c =>
    cases HostCache.claimReg_error hm
    exact .inr ⟨_, rfl⟩
  | ok x c =>
    obtain ⟨r, hr, -, rfl⟩ := HostCache.claimReg_ok hm
    obtain ⟨rs, hnd, hks, hpin⟩ := he
    have hkept : Kept e.cache (e.cache.replace r (.fresh .temp false)) := .replace hr
    have hself : ((e.cache.replace r (.fresh .temp false)).slot r).content = .temp := by
      rw [HostCache.slot_replace_self]
      rfl
    refine .inl ⟨_, _, rfl, r :: rs, List.nodup_cons.mpr ⟨fun hm => hr (hpin r hm), hnd⟩, ?_, ?_⟩
    · rw [List.map_cons, ← hks]
      refine congr (congrArg List.cons (congrArg Content.base hself)) ?_
      exact List.map_congr_left fun r hr => (hkept r (hpin r hr)).2
    · intro r' hr'
      rcases List.mem_cons.mp hr' with rfl | hr'
      · exact ⟨fun hu => Content.noConfusion (hself.symm.trans hu), .inr hself⟩
      · exact (hkept r' (hpin r' hr')).1

/-- With nine registers pinned there is none for another value. -/
theorem overflows_outLow {ks : List Content} (h0 : g.val ≠ 0) (hk : .low g none ∉ ks)
    (hlen : ks.length = 9) : Overflows (Occupied ks) (outLow g) := by
  rintro e ⟨rs, hnd, hks, hpin⟩
  have hall (r : Fin 9) : r ∈ rs := by
    apply Classical.byContradiction
    intro hr
    have hle := List.Nodup.length_le_of_subset (List.nodup_cons.mpr ⟨hr, hnd⟩)
      (fun r' _ => List.mem_finRange r' : r :: rs ⊆ List.finRange 9)
    rw [← hks, List.length_map] at hlen
    simp only [List.length_cons, List.length_finRange] at hle
    omega
  have hfind : e.cache.findLow? g = none := by
    cases hf : e.cache.findLow? g with
    | none => rfl
    | some r =>
      exact absurd (hks ▸ List.mem_map.mpr ⟨r, hall r, HostCache.findLow?_some hf⟩) hk
  have hclaim : HostCache.claim (.fresh (.low g none) true) e.cache =
      .error .outOfRegisters e.cache := by
    rcases HostCache.claim_cases e.cache (.fresh (.low g none) true) with ⟨r, hr, -⟩ | ⟨-, hc⟩
    · exact absurd (hpin r (hall r)) hr
    · exact hc
  have hout : HostCache.allocOutLow g e.cache = .error .outOfRegisters e.cache := by
    rw [HostCache.allocOutLow_eq _ h0, hfind]
    simp only [HostCache.claimReg, bind, EStateM.bind, hclaim]
  exact ⟨e, by rw [outLow, onCache_eq, hout]⟩

theorem ofReg_ne_zero {r : Reg} (h : r ≠ .zero) : (GuestReg.ofReg r).val ≠ 0 :=
  fun h' => h (Fin.ext h')

/-- Seven registers for the operands and temporaries, two for the result, and the one of the
branch are too many. -/
theorem overflows_addDouble (sub : Bool) (hi : Spread i) :
    Overflows (Occupied [.temp]) (addDouble sub i) := by
  obtain ⟨hs, ht, hd, hst, hsd, htd⟩ := hi
  have hne {r r' : Reg} (h : r ≠ r') : GuestReg.ofReg r ≠ GuestReg.ofReg r' :=
    fun h' => h (Fin.ext (Fin.mk.inj h'))
  have hst := hne hst
  have hsd := hne hsd
  have htd := hne htd
  refine .bind (squeezes_inHigh (ofReg_ne_zero hs) (by simp)) fun _ => ?_
  refine .bind (squeezes_inLow (ofReg_ne_zero hs) (by simp)) fun _ => ?_
  refine .bind (squeezes_inHigh (ofReg_ne_zero ht) (by simp [hst.symm, rs, rt])) fun _ => ?_
  refine .bind (squeezes_inLow (ofReg_ne_zero ht) (by simp [hst.symm, rs, rt])) fun _ => ?_
  refine .bind squeezes_temp fun h => .bind squeezes_temp fun l => .bind squeezes_temp fun _ => ?_
  have hwrite : Overflows (Occupied [.temp, .temp, .temp, .low (rt i) none, .high (rt i),
      .low (rs i) none, .high (rs i), .temp]) (writeBoth (rd i) h l) := by
    refine .bind (squeezes_outHigh (ofReg_ne_zero hd) (by simp [hsd.symm, htd.symm, rs, rt, rd]))
      fun _ => .bind (squeezes_emit _ (Occupied.emit _)) fun _ => ?_
    exact .first (overflows_outLow (ofReg_ne_zero hd) (by simp [hsd.symm, htd.symm, rs, rt, rd]) rfl)
  have hemit (j : Ir.Instr String) : Squeezes (Occupied [.temp, .temp, .temp, .low (rt i) none,
      .high (rt i), .low (rs i) none, .high (rs i), .temp]) (emit j) fun _ => Occupied [.temp, .temp,
      .temp, .low (rt i) none, .high (rt i), .low (rs i) none, .high (rs i), .temp] :=
    squeezes_emit j (Occupied.emit j)
  cases sub with
  | true | false =>
    exact .bind (hemit _) fun _ => .bind (hemit _) fun _ => .bind (hemit _) fun _ =>
      .bind (hemit _) fun _ => hwrite

theorem overflows_instr (cfg : Config) (hi : Greedy i) : Overflows HasTemp (instr cfg s i) := by
  have hnop : i.isNop = false := by
    cases hn : i.isNop with
    | false => rfl
    | true =>
      have he : i = .nop := by simpa [Instr.isNop] using hn
      rcases hi.1 with hk | hk <;> rw [he, Instr.kind_nop] at hk <;> cases hk
  have hcode : Overflows (Occupied [.temp]) ((inline? cfg s i).getD (request .exec s i)) := by
    obtain ⟨hk | hk, hspread⟩ := hi
    · simp only [inline?, hk]
      exact overflows_addDouble false hspread
    · simp only [inline?, hk]
      exact overflows_addDouble true hspread
  intro e he
  simp only [instr, hnop, Bool.not_false, if_true]
  refine Overflows.bind (P := HasTemp) (Q := fun _ => Occupied [.temp]) ?_
    (fun _ => hcode.first) e he
  exact fun e he => .inl ⟨(), _, rfl, he.occupied.kept fun _ h => ⟨h, rfl⟩⟩

/-- A pair that does not fit. -/
theorem overflows_branchAndSlot (cfg : Config) (slot : TraceOp) (hi : ¬ IsDirect i)
    (hslot : Greedy slot.instr) :
    Overflows (Ready R [] [] 0 [] 0) (branchAndSlot cfg s i slot) := by
  have hemits {α : Type} {P : Emitter → Prop} {f : EmitM α} {Q : α → Emitter → Prop}
      (h : Emits P f Q) : Squeezes P f Q := fun e he => .inl (h e he)
  have hkept : tempsKept i ≤ 2 := by
    unfold tempsKept
    split <;> decide
  refine .bind (hemits emits_startOp) fun _ => ?_
  refine .bind (Q := fun _ e => Tested R (tempsKept i) 1 e ∧ HasTemp e) ?_ fun out => ?_
  · intro e he
    obtain ⟨a, e', h, he'⟩ := emits_evaluate e he
    exact .inl ⟨a, e', h, he', hasTemp_evaluate hi h⟩
  refine .bind (Q := fun _ => HasTemp) ?_ fun _ => .bind (Q := fun _ => HasTemp) ?_ fun _ => ?_
  · rintro e ⟨he, ht⟩
    obtain ⟨a, e', h, -⟩ := emits_writeLink hkept e he
    exact .inl ⟨a, e', h, keepsTemp_writeLink e a e' ht h⟩
  · exact fun e he => .inl ⟨(), _, rfl, keepsTemp_unpinAll e () _ he rfl⟩
  have hfresh (kind : String) : Squeezes HasTemp (freshLabel kind) fun _ => HasTemp :=
    fun e he => .inl ⟨_, _, rfl, KeepsTemp.freshLabel kind e _ _ he rfl⟩
  have hemit (j : Ir.Instr String) : Squeezes HasTemp (emit j) fun _ => HasTemp :=
    squeezes_emit j fun e he => he.kept (.emit _ j)
  have hinstr {s : Site} : Overflows HasTemp (instr cfg s slot.instr) := overflows_instr cfg hslot
  dsimp only
  split
  · exact hinstr.first
  split
  · refine .bind (hfresh _) fun skip => .bind (hemit _) fun _ => ?_
    exact .bind (Q := fun _ => HasTemp) (fun e he => .inl ⟨e, e, rfl, he⟩) fun _ => hinstr.first
  · exact .bind (hfresh _) fun _ => hinstr.first

end

/-- The trace goes on, with its last branch and delay slot emitted inline, and the two do not
fit the registers. -/
def Crowded (ops : List TraceOp) : Prop :=
  ∃ before branch slot after, ops = before ++ branch :: slot :: after ∧
    (∀ op ∈ before, op.boundary = .continue ∧ op.inDelaySlot = false) ∧
    branch.boundary = .endDelay ∧ branch.inDelaySlot = false ∧ branch.delaySlotOmitted = false ∧
    slot.boundary = .continue ∧ slot.inDelaySlot = true ∧
    ¬ IsDirect branch.instr ∧ Greedy slot.instr

theorem Crowded.cons {op : TraceOp} {ops : List TraceOp} (h : Crowded ops)
    (hb : op.boundary = .continue) (hs : op.inDelaySlot = false) : Crowded (op :: ops) := by
  obtain ⟨before, branch, slot, after, rfl, hbefore, hrest⟩ := h
  refine ⟨op :: before, branch, slot, after, rfl, ?_, hrest⟩
  intro op' hm
  rcases List.mem_cons.mp hm with rfl | hm
  · exact ⟨hb, hs⟩
  · exact hbefore op' hm

def Finishes (R : List String) (f : EmitM Unit) : Prop :=
  ∀ e, Ready R [] [] 0 [] 0 e → (∃ e', f e = .ok () e' ∧ Settled R 0 e') ∨
    ∃ err e', f e = .error err e' ∧ err.isRecoverable = true

theorem Emits.finishes {R : List String} {f : EmitM Unit}
    (h : Emits (Ready R [] [] 0 [] 0) f fun _ => Settled R 0) : Finishes R f := by
  intro e he
  obtain ⟨a, e', h, he'⟩ := h e he
  exact .inl ⟨e', h, he'⟩

theorem finishes_throw {R : List String} {err : EmitError} (h : err.isRecoverable = true) :
    Finishes R (throw err) :=
  fun e _ => .inr ⟨err, e, rfl, h⟩

theorem Finishes.after {R : List String} {f g : EmitM Unit}
    (hf : Emits (Ready R [] [] 0 [] 0) f fun _ => Ready R [] [] 0 [] 0) (hg : Finishes R g) :
    Finishes R (do
      f
      g) := by
  intro e he
  obtain ⟨a, e', h, he'⟩ := hf e he
  simp only [bind, EStateM.bind, h]
  exact hg e' he'

theorem finishes_branch (cfg : Config) (s : Site) {op : TraceOp} {rest : List TraceOp}
    {R : List String} (hb : op.boundary = .endDelay) (hs : op.inDelaySlot = false)
    (hops : ¬ Crowded (op :: rest)) : Finishes R (branch cfg s op rest) := by
  unfold branch
  split
  · split
    · exact (emits_branchServed cfg).finishes
    · exact finishes_throw rfl
  · rename_i slot after
    split
    · exact (emits_branchServed cfg).finishes
    · rename_i hinline
      simp only [Bool.or_eq_true, decide_eq_true_eq, not_or, Bool.not_eq_true, ne_eq,
        Decidable.not_not] at hinline
      split
      · rename_i hslot
        refine (emits_branchAndSlot cfg slot ?_).finishes
        by_cases hi : IsDirect op.instr
        · exact .inl hi
        · exact .inr fun hg => hops ⟨[], op, slot, after, rfl, by simp, hb, hs, hinline.1,
            hinline.2, hslot, hi, hg⟩
      · exact finishes_throw rfl

theorem emits_instrAlone (cfg : Config) (s : Site) (i : Recompiler.Instr) {R : List String} :
    Emits (Ready R [] [] 0 [] 0) (instr cfg s i) fun _ => Ready R [] [] 0 [] 0 :=
  (emits_instr cfg (by decide) (by decide) (.inl rfl) fun _ => rfl).post fun _ _ h => h.2 rfl

theorem finishes_body (cfg : Config) (base : UInt32) {R : List String} (ops : List TraceOp)
    (k : Nat) (hops : ¬ Crowded ops) : Finishes R (body cfg base k ops) := by
  induction ops generalizing k with
  | nil => exact (emits_exitDirect cfg _ _ _ (by decide) (by simp) (by simp)).finishes
  | cons op rest ih =>
    unfold body
    dsimp only
    split
    · exact finishes_throw rfl
    · rename_i hslot
      rw [Bool.not_eq_true] at hslot
      cases hb : op.boundary with
      | endDelay => exact finishes_branch cfg _ hb hslot hops
      | endNow =>
        refine .after (emits_instrAlone cfg _ _) (Emits.finishes ?_)
        exact emits_exitDirect cfg _ _ _ (by decide) (by simp) (by simp)
      | «continue» =>
        exact .after (emits_instrAlone cfg _ _) (ih (k + 1) fun h => hops (h.cons hb hslot))

theorem overflows_body (cfg : Config) (base : UInt32) {R : List String} {ops : List TraceOp}
    (h : Crowded ops) (k : Nat) : Overflows (Ready R [] [] 0 [] 0) (body cfg base k ops) := by
  obtain ⟨before, br, slot, after, rfl, hbefore, hb, hs, homit, hsb, hss, hdirect, hgreedy⟩ := h
  induction before generalizing k with
  | nil =>
    simp only [List.nil_append, body, hs, Bool.false_eq_true, if_false, hb, branch, homit, hsb,
      hss, if_true, Bool.false_or, ne_eq, not_true_eq_false, decide_false]
    exact overflows_branchAndSlot cfg slot hdirect hgreedy
  | cons op before ih =>
    obtain ⟨hob, hos⟩ := hbefore op List.mem_cons_self
    simp only [List.cons_append, body, hos, Bool.false_eq_true, if_false, hob]
    exact .bind (fun e he => .inl (emits_instrAlone cfg _ _ e he)) fun _ =>
      ih (k + 1) fun op' hm => hbefore op' (List.mem_cons_of_mem _ hm)

/-- The names of `R` are reserved, and those of `J` have their labels. -/
structure Named (R J : List String) (e : Emitter) : Prop where
  labels : Labels R e.labels e.cache.builder
  put : ∀ name ∈ J, (e.cache.builder.labels.lookup name).isSome = true

namespace Named

variable {R J : List String}

theorem addAll {e : Emitter} {c : HostCache} (h : Named R J e) {is : List (Ir.Instr String)}
    (hi : ∀ i ∈ is, i.isPlain = true) (hb : c.builder = is.foldl Builder.add e.cache.builder) :
    Named R J { e with cache := c } := by
  refine ⟨?_, fun name hm => ?_⟩
  · change Labels R _ c.builder
    rw [hb]
    exact h.labels.addAll hi
  · change (c.builder.labels.lookup name).isSome = true
    rw [hb, Builder.labels_addAll]
    exact h.put name hm

theorem appends {e : Emitter} {c : HostCache} (h : Named R J e) (ha : Appends e.cache c) :
    Named R J { e with cache := c } := by
  obtain ⟨is, hi, hb⟩ := ha.code
  exact h.addAll (fun i hm => Instr.isPlain_of_isTransfer (hi i hm)) hb

theorem emits_plain {i : Ir.Instr String} (hi : i.isPlain = true) :
    Emits (Named R J) (emit i) fun _ => Named R J := by
  have hplain : ∀ j ∈ [i], j.isPlain = true := fun _ hm => List.mem_singleton.mp hm ▸ hi
  exact fun _ he => ⟨(), _, rfl, he.addAll hplain rfl⟩

theorem emits_jump {i : Ir.Instr String} {name : String} (hi : i.target? = some name)
    (hname : name ∈ R ∨ name ∈ J) : Emits (Named R J) (emit i) fun _ => Named R J := by
  refine fun e he => ⟨(), _, rfl, he.labels.add fun name' hname' => ?_, fun name hm => ?_⟩
  · rw [hi] at hname'
    cases hname'
    have hres := hname.imp_right (he.put name)
    obtain ⟨kind, hk, m, -, rfl⟩ := he.labels.known name hres
    exact ⟨kind, hk, m, rfl, hres⟩
  · change ((e.cache.builder.add i).labels.lookup name).isSome = true
    rw [Builder.labels_add]
    exact he.put name hm

theorem emits_putLabel (name : String) :
    Emits (Named (name :: R) J) (putLabel name) fun _ => Named R J := by
  intro e he
  obtain ⟨b, hb, hlabels, hnew⟩ := Labels.label he.labels
  refine ⟨(), _, putLabel_eq hb, hlabels, fun name' hm => ?_⟩
  change (b.labels.lookup name').isSome = true
  rw [hnew, List.lookup_cons]
  split
  · rfl
  · exact he.put name' hm

theorem emits_spill : Emits (Named R J) spill fun _ => Named R J := by
  refine .bind (Q := fun _ => Named R J)
    (fun e he => ⟨(), _, rfl, he.appends (.flushAll e.cache)⟩) fun _ => .get fun e₀ _ => ?_
  exact .bind (.forIn _ fun _ => emits_plain rfl) fun _ => .pure fun _ he => he

theorem emits_emitStub (stub : Stub) (hj : Stub.joinLabel stub.id ∈ J) :
    Emits (Named (Stub.entryLabel stub.id :: Stub.resumeLabel stub.id :: R) J) (emitStub stub)
      fun _ => Named R J := by
  refine .bind (emits_putLabel _) fun _ => ?_
  refine .bind (Q := fun _ => Named (Stub.resumeLabel stub.id :: R) J)
    (fun e he => ⟨(), _, rfl, he.appends (.of_builder rfl rfl)⟩) fun _ => ?_
  refine .bind emits_spill fun temps => .bind (emits_plain rfl) fun _ => .bind (Q := fun _ => Named
    (Stub.resumeLabel stub.id :: R) J) ?_ fun _ => ?_
  · exact .bind (emits_plain rfl) fun _ => .bind (emits_plain rfl) fun _ =>
      .bind (emits_plain rfl) fun _ => emits_plain rfl
  refine .bind (emits_jump rfl (.inl List.mem_cons_self)) fun _ => .bind (emits_putLabel _) fun _ => ?_
  refine .bind (.forIn _ fun r => ?_) fun _ => .bind (.forIn _ fun r => ?_) fun _ =>
    emits_jump rfl (.inr hj)
  · unfold reload
    split
    · exact .pure fun _ he => he
    · exact .ite (fun _ => emits_plain rfl) fun _ => .pure fun _ he => he
    · exact emits_plain rfl
  · unfold reloadFp
    split
    · exact .pure fun _ he => he
    · exact emits_plain rfl

theorem emits_stubs (stubs : List Stub) (hj : ∀ stub ∈ stubs, Stub.joinLabel stub.id ∈ J) :
    Emits (Named (stubLabels stubs) J) (forIn stubs PUnit.unit fun stub (_ : PUnit) => do
      emitStub stub
      pure (ForInStep.yield PUnit.unit)) fun _ => Named [] J := by
  induction stubs with
  | nil => exact .pure fun _ he => he
  | cons stub stubs ih =>
    rw [List.forIn_cons]
    refine .bind (.bind (emits_emitStub stub (hj stub List.mem_cons_self)) fun _ => .pure
      (Q := fun s e => s = ForInStep.yield PUnit.unit ∧ Named (stubLabels stubs) J e)
      fun _ he => ⟨rfl, he⟩) fun s => ?_
    rintro e ⟨rfl, he⟩
    exact ih (fun stub hm => hj stub (List.mem_cons_of_mem _ hm)) e he

end Named

theorem ready_create (cfg : Config) (cells : List Nat) :
    Ready [] [] [] 0 [] 0 (.create cfg cells) where
  labels := by
    refine ⟨List.nodup_nil, fun _ h => ?_, fun name h => ?_, List.nodup_nil, fun _ h => ?_⟩
    · cases h
    · rcases h with h | h <;> cases h
    · cases h
  joins := fun stub h => absurd h (by simp [Emitter.create])
  pins := by
    have hslot (r : Fin 9) : (Emitter.create cfg cells).cache.slot r = .empty :=
      Vector.get_replicate _ _ _
    refine ⟨fun r r' hv => ?_, fun r hb => ?_, fun r hb => ?_, [], Nat.le_refl 0, fun r ht => ?_⟩
    · rw [hslot r] at hv
      cases hv
    · rw [hslot r] at hb
      cases hb
    · rw [hslot r] at hb
      cases hb
    · rw [hslot r] at ht
      cases ht
  fpPins := by
    have hslot (r : Fin 8) : (Emitter.create cfg cells).cache.fpSlots.get r = .empty :=
      Vector.get_replicate _ _ _
    refine ⟨fun r r' x hx => ?_, fun r x hb => ?_⟩
    · rw [hslot r] at hx
      cases hx
    · rw [hslot r] at hb
      cases hb
  depth := rfl

theorem whole_of_body {cfg : Config} {pc : UInt32} {ops : List TraceOp} {e₀ e₁ : Emitter}
    (h₁ : body cfg pc 0 ops e₀ = .ok () e₁) (hsettled : Settled [] 0 e₁) :
    ∃ e, whole cfg pc ops e₀ = .ok () e ∧ e.cache.builder.pending = [] := by
  obtain ⟨S, C, n, L, he₁⟩ := hsettled
  have hnamed : Named (stubLabels e₁.stubs.toList)
      (e₁.stubs.toList.map fun stub => Stub.joinLabel stub.id) e₁ := by
    refine ⟨he₁.labels, fun name hm => ?_⟩
    obtain ⟨stub, hs, rfl⟩ := List.mem_map.mp hm
    exact he₁.joins stub (Array.mem_toList_iff.mp hs)
  obtain ⟨a, e₂, h₂, he₂⟩ := Named.emits_stubs e₁.stubs.toList
    (fun stub hs => List.mem_map.mpr ⟨stub, hs, rfl⟩) e₁ hnamed
  refine ⟨e₂, ?_, List.eq_nil_iff_forall_not_mem.mpr fun name hm => ?_⟩
  · simp only [whole, bind, EStateM.bind, h₁, get, getThe, MonadStateOf.get, EStateM.get]
    rw [← Array.forIn_toList]
    simp only [bind] at h₂
    rw [h₂]
    rfl
  · exact absurd (he₂.labels.pending name hm) (by simp)

theorem whole_cases (cfg : Config) (cells : List Nat) (pc : UInt32) {ops : List TraceOp}
    (hops : ¬ Crowded ops) :
    (∃ e, whole cfg pc ops (.create cfg cells) = .ok () e ∧ e.cache.builder.pending = []) ∨
      ∃ err e, whole cfg pc ops (.create cfg cells) = .error err e ∧ err.isRecoverable = true := by
  rcases finishes_body cfg pc ops 0 hops _ (ready_create cfg cells) with
    ⟨e₁, h₁, he₁⟩ | ⟨err, e₁, h₁, herr⟩
  · exact .inl (whole_of_body h₁ he₁)
  · refine .inr ⟨err, e₁, ?_, herr⟩
    simp only [whole, bind, EStateM.bind, h₁]

theorem ofTrace_of_crowded (cfg : Config) (cells : List Nat) (pc : UInt32) {ops : List TraceOp}
    (hops : Crowded ops) : ∃ e : Emitter,
      TraceProgram.ofTrace cfg cells pc ops = .error (e.fail (.cache .outOfRegisters)) := by
  have hne : ops.isEmpty = false := by
    obtain ⟨before, branch, slot, after, rfl, -⟩ := hops
    cases before <;> rfl
  obtain ⟨e, he⟩ := overflows_body cfg pc hops 0 _ (ready_create cfg cells)
  have hwhole : whole cfg pc ops (.create cfg cells) = .error (.cache .outOfRegisters) e := by
    simp only [whole, bind, EStateM.bind, he]
  refine ⟨e, ?_⟩
  simp only [TraceProgram.ofTrace, hne, Bool.false_eq_true, if_false, hwhole]

end Emit

open Emit

/-- The program of a trace cannot be emitted, for a reason that no caller recovers from, exactly
if the trace is crowded. The reason is then that the registers do not suffice. -/
theorem TraceProgram.outOfRegisters_iff_crowded (cfg : Config) (cells : List Nat) (pc : UInt32)
    (raw : List Instr) (limit : Nat) :
    ((∃ failure, ofTrace cfg cells pc (Trace.build raw limit) = .error failure ∧
        failure.error.isRecoverable = false) ↔ Crowded (Trace.build raw limit)) ∧
      ∀ failure, ofTrace cfg cells pc (Trace.build raw limit) = .error failure →
        failure.error.isRecoverable = false → failure.error = .cache .outOfRegisters := by
  generalize Trace.build raw limit = ops
  by_cases hops : Crowded ops
  · obtain ⟨e, hfail⟩ := ofTrace_of_crowded cfg cells pc hops
    rw [hfail]
    refine ⟨⟨fun _ => hops, fun _ => ⟨_, rfl, rfl⟩⟩, fun failure hf _ => ?_⟩
    cases hf
    rfl
  · have hrecover (failure : EmitFailure) (hf : ofTrace cfg cells pc ops = .error failure) :
        failure.error.isRecoverable = true := by
      unfold ofTrace at hf
      split at hf
      · cases hf
        rfl
      · rcases whole_cases cfg cells pc hops with ⟨e, he, hpending⟩ | ⟨err, e, he, herr⟩
        · rw [he] at hf
          simp only [Emitter.finish, Builder.build, hpending] at hf
          split at hf <;> cases hf
          rfl
        · rw [he] at hf
          cases hf
          exact herr
    refine ⟨⟨?_, fun h => absurd h hops⟩, fun failure hf hr => ?_⟩
    · rintro ⟨failure, hf, hr⟩
      rw [hrecover failure hf] at hr
      cases hr
    · rw [hrecover failure hf] at hr
      cases hr

/-- A branch on two registers, with the sum of two others in its delay slot. -/
example : Crowded (Trace.build [⟨0x14220004⟩, ⟨0x0085182d⟩] 2) := by
  refine ⟨[], _, _, [], rfl, fun _ h => (nomatch h), ?_, ?_, ?_, ?_, ?_, ?_, ?_⟩ <;>
    decide

end Recompiler
