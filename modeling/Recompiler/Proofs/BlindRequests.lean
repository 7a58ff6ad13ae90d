import Recompiler.Proofs.Slots

/-!
Requests for words do not look at all of a register assignment. Two assignments that differ in the
rest go the same way.
-/

namespace Recompiler

open Ir

section

variable {ε σ α β γ : Type} {S : σ → σ → Prop}

/-- Both computations have the same result and leave related states. -/
inductive Mirrors (S : σ → σ → Prop) : EStateM.Result ε σ α → EStateM.Result ε σ α → Prop
  | ok (a : α) {s s' : σ} : S s s' → Mirrors S (.ok a s) (.ok a s')
  | error (e : ε) {s s' : σ} : S s s' → Mirrors S (.error e s) (.error e s')

def Blind (S : σ → σ → Prop) (m : EStateM ε σ α) : Prop :=
  ∀ s s', S s s' → Mirrors S (m s) (m s')

namespace Blind

theorem pure (a : α) : Blind S (Pure.pure a : EStateM ε σ α) := fun _ _ h => .ok a h

theorem throw (e : ε) : Blind S (throw e : EStateM ε σ α) := fun _ _ h => .error e h

theorem throwBind (e : ε) (k : α → EStateM ε σ β) :
    Blind S ((MonadExcept.throw e : EStateM ε σ α) >>= k) := fun _ _ h => .error e h

theorem bind {m : EStateM ε σ α} {k : α → EStateM ε σ β} (hm : Blind S m)
    (hk : ∀ a, Blind S (k a)) : Blind S (m >>= k) := by
  intro s s' h
  simp only [Bind.bind, EStateM.bind]
  have hs := hm s s' h
  generalize m s = x at hs
  generalize m s' = x' at hs
  cases hs with
  | ok a ht => exact hk a _ _ ht
  | error e ht => exact .error e ht

theorem modify {f : σ → σ} (hf : ∀ s s', S s s' → S (f s) (f s')) :
    Blind S (modify f : EStateM ε σ PUnit) := fun s s' h => .ok _ (hf s s' h)

theorem get {k : σ → EStateM ε σ β} (hread : ∀ s s', S s s' → k s' = k s)
    (hk : ∀ s, Blind S (k s)) : Blind S (MonadState.get >>= k) := by
  intro s s' h
  have hs : Mirrors S (k s s) (k s s') := hk s s s' h
  rw [← hread s s' h] at hs
  simpa only [Bind.bind, EStateM.bind, MonadState.get, getThe, MonadStateOf.get, EStateM.get,
    hread s s' h] using hs

theorem getSet {k : σ → EStateM ε σ β} (hk : ∀ s s', S s s' → Mirrors S (k s s) (k s' s')) :
    Blind S (MonadState.get >>= k) := hk

theorem ite {p : Prop} [Decidable p] {m m' : EStateM ε σ α} (hm : Blind S m) (hm' : Blind S m') :
    Blind S (if p then m else m') := by
  split
  · exact hm
  · exact hm'

theorem forIn {f : γ → EStateM ε σ PUnit} (xs : List γ) (hf : ∀ x, Blind S (f x)) :
    Blind S (forIn xs PUnit.unit fun x (_ : PUnit) => do
      f x
      Pure.pure (ForInStep.yield PUnit.unit)) := by
  induction xs with
  | nil => exact pure _
  | cons x xs ih =>
    rw [List.forIn_cons]
    refine bind (bind (hf x) fun _ => pure _) fun step => ?_
    cases step with
    | done => exact pure _
    | yield => exact ih

end Blind

end

namespace HostCache

/-- Related assignments hold the same words in the same registers, and stay related when their
programs grow and when these registers change. -/
class Parallel (S : HostCache → HostCache → Prop) : Prop where
  slots : ∀ {c c' : HostCache}, S c c' → c'.slots = c.slots
  clock : ∀ {c c' : HostCache}, S c c' → c'.clock = c.clock
  emit : ∀ {c c' : HostCache}, S c c' → ∀ i, S (c.emit i) (c'.emit i)
  assign : ∀ {c c' : HostCache}, S c c' → ∀ slots, S { c with slots } { c' with slots }
  tick : ∀ {c c' : HostCache}, S c c' → ∀ clock, S { c with clock } { c' with clock }

namespace Parallel

variable {S : HostCache → HostCache → Prop} [Parallel S] {c c' : HostCache}

theorem slot_eq (h : S c c') : c'.slot = c.slot := by
  funext r
  rw [slot, slot, slots h]

theorem find_eq (h : S c c') : c'.find? = c.find? := by
  funext p
  unfold HostCache.find?
  rw [slot_eq h]

theorem findLow_eq (h : S c c') : c'.findLow? = c.findLow? := by
  funext g
  exact congrFun (find_eq h) _

theorem findHigh_eq (h : S c c') : c'.findHigh? = c.findHigh? := by
  funext g
  exact congrFun (find_eq h) _

theorem findWord_eq (h : S c c') : c'.findWord? = c.findWord? := by
  funext off
  exact congrFun (find_eq h) _

theorem setSlot (h : S c c') (r : Fin 9) (s : Slot) : S (c.setSlot r s) (c'.setSlot r s) := by
  unfold HostCache.setSlot
  rw [slots h]
  exact assign h _

theorem touch (h : S c c') (r : Fin 9) : S (c.touch r) (c'.touch r) := by
  unfold HostCache.touch
  dsimp only
  rw [slot_eq h, clock h]
  exact tick (setSlot h r _) _

theorem modifySlot (h : S c c') (r : HostReg) (f : Slot → Slot) :
    S (c.modifySlot r f) (c'.modifySlot r f) := by
  unfold HostCache.modifySlot
  rw [slot_eq h]
  split
  · exact setSlot h _ _
  · exact h

theorem emitAll (h : S c c') (is : List (Ir.Instr String)) : S (c.emitAll is) (c'.emitAll is) := by
  induction is generalizing c c' with
  | nil => exact h
  | cons i is ih => exact ih (emit h i)

theorem writeback (h : S c c') (r : Fin 9) : S (c.writeback r) (c'.writeback r) := by
  rw [writeback_eq, writeback_eq, slot_eq h]
  exact setSlot (emitAll h _) r _

theorem freeSlot (h : S c c') (r : Fin 9) : S (c.freeSlot r) (c'.freeSlot r) :=
  setSlot (writeback h r) r _

theorem setConst (h : S c c') (r : HostReg) (v : UInt32) :
    S (c.setConst r v) (c'.setConst r v) :=
  modifySlot h r _

theorem emitImplied (h : S c c') (lo r : Fin 9) (ext : Extension) :
    S (c.emitImplied lo r ext) (c'.emitImplied lo r ext) := by
  cases ext with
  | sign => exact emit h _
  | zero => exact setConst (emit h _) _ _
  | one => exact setConst (emit h _) _ _

end Parallel

open Parallel

variable {S : HostCache → HostCache → Prop} [Parallel S] {g : GuestReg}

theorem blind_alloc : Blind S alloc := by
  refine .getSet fun c c' h => ?_
  have hvictim : c'.victim? = c.victim? := by
    unfold victim?
    rw [slot_eq h]
  rw [find_eq h, hvictim]
  cases c.find? (· == .unused) with
  | some r => exact .ok r h
  | none =>
    cases c.victim? with
    | some r => exact .ok r (Parallel.freeSlot h r)
    | none => exact .error _ h

theorem blind_claim (s : Slot) : Blind S (claim s) :=
  .bind blind_alloc fun r => .bind (.modify fun _ _ h => Parallel.touch (Parallel.setSlot h r s) r) fun _ => .pure r

theorem blind_reuse (r : Fin 9) : Blind S (reuse r) :=
  .bind (.modify fun _ _ h => Parallel.touch h r) fun _ => .pure _

theorem blind_claimReg (content : Content) (dirty : Bool) :
    Blind S (claimReg content dirty) :=
  .bind (blind_claim _) fun _ => .pure _

theorem blind_claimLoaded (content : Content) : Blind S (claimLoaded content) :=
  .bind (blind_claimReg _ _) fun _ => .bind (.modify fun _ _ h => Parallel.emit h _) fun _ => .pure _

theorem blind_overwrite (r : Fin 9) (content : Content) :
    Blind S (overwrite r content) := by
  refine .bind (.modify fun c c' h => ?_) fun _ => .pure _
  rw [slot_eq h]
  exact Parallel.touch (Parallel.setSlot h r _) r

theorem blind_materialize (lo : Fin 9) (ext : Extension) :
    Blind S (materialize g lo ext) := by
  refine .bind (.modify fun _ _ h => Parallel.touch h lo) fun _ => .get (fun c c' h => ?_) fun c => ?_
  · rw [slot_eq h]
  · refine .bind (blind_claim _) fun r => .bind (.modify fun c c' h => ?_) fun _ => .pure _
    have hi := Parallel.emitImplied h lo r ext
    dsimp only
    rw [slot_eq hi]
    exact Parallel.setSlot hi lo _

theorem blind_allocInLow (g : GuestReg) : Blind S (allocInLow g) := by
  refine .ite (.pure _) (.get (fun c c' h => ?_) fun c => ?_)
  · rw [findLow_eq h]
  · cases c.findLow? g with
    | some r => exact blind_reuse r
    | none => exact blind_claimLoaded _

theorem blind_allocInHigh (g : GuestReg) : Blind S (allocInHigh g) := by
  refine .ite (.pure _) (.get (fun c c' h => ?_) fun c => ?_)
  · rw [findHigh_eq h, findLow_eq h, slot_eq h]
  · cases c.findHigh? g with
    | some r => exact blind_reuse r
    | none =>
      cases c.findLow? g with
      | none => exact blind_claimLoaded _
      | some lo =>
        dsimp only
        split
        · exact blind_materialize lo _
        · exact blind_claimLoaded _

theorem blind_allocOutLow (g : GuestReg) : Blind S (allocOutLow g) := by
  refine .ite (.pure _) (.get (fun c c' h => ?_) fun c => ?_)
  · rw [findHigh_eq h, findLow_eq h, slot_eq h]
  · cases c.findLow? g with
    | none => exact blind_claimReg _ _
    | some r =>
      dsimp only
      split
      · exact .ite (.bind (blind_materialize r _) fun _ => blind_overwrite r _)
          (blind_overwrite r _)
      · exact blind_overwrite r _

theorem blind_allocOutHigh (g : GuestReg) : Blind S (allocOutHigh g) := by
  refine .ite (.pure _) (.bind (.modify fun c c' h => ?_) fun _ =>
    .get (fun c c' h => ?_) fun c => ?_)
  · rw [findLow_eq h, slot_eq h]
    cases c.findLow? g with
    | some lo => exact Parallel.setSlot h lo _
    | none => exact h
  · rw [findHigh_eq h]
  · cases c.findHigh? g with
    | some r => exact blind_overwrite r _
    | none => exact blind_claimReg _ _

theorem blind_allocOutExt (g : GuestReg) (ext : Extension) :
    Blind S (allocOutExt g ext) := by
  refine .ite (.pure _) (.bind (.modify fun c c' h => ?_) fun _ =>
    .get (fun c c' h => ?_) fun c => ?_)
  · rw [findHigh_eq h]
    cases c.findHigh? g with
    | some hi => exact Parallel.setSlot h hi _
    | none => exact h
  · rw [findLow_eq h]
  · cases c.findLow? g with
    | some r => exact blind_overwrite r _
    | none => exact blind_claimReg _ _

theorem blind_allocIn32 (off : Int) : Blind S (allocIn32 off) := by
  refine .get (fun c c' h => ?_) fun c => ?_
  · rw [findWord_eq h]
  · cases c.findWord? off with
    | some r => exact blind_reuse r
    | none => exact blind_claimLoaded _

theorem blind_allocOut32 (off : Int) : Blind S (allocOut32 off) := by
  refine .get (fun c c' h => ?_) fun c => ?_
  · rw [findWord_eq h]
  · cases c.findWord? off with
    | some r => exact blind_overwrite r _
    | none => exact blind_claimReg _ _

theorem blind_allocTemp : Blind S allocTemp := blind_claimReg _ _

theorem blind_allocConst (v : UInt32) : Blind S (allocConst v) := by
  refine .ite (.pure _) (.get (fun c c' h => ?_) fun c => ?_)
  · rw [slot_eq h]
  · split
    · exact blind_reuse _
    · exact .bind blind_allocTemp fun r =>
        .bind (.modify fun _ _ h => Parallel.setConst (Parallel.emit h _) r v) fun _ => .pure r

end HostCache

end Recompiler
