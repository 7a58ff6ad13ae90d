import Recompiler.Proofs.BlindRequests
import Recompiler.Proofs.Crowding

/-!
Register assignments do not look at the program that they emit. Two of them whose builders differ
only in their budgets go the same way, and the builder with a budget drops what does not fit.
-/

namespace Recompiler

open Ir

namespace Ir.Builder

/-- The second builder follows the first one with a budget of `limit` bytes. -/
structure Within (limit : Nat) (b b' : Builder) : Prop where
  unlimited : b.limit = none
  limited : b'.limit = some limit
  scope : b'.scope = b.scope
  pending : b'.pending = b.pending
  names : ∀ name, (b'.labels.lookup name).isSome = (b.labels.lookup name).isSome
  dropped : b.exhausted = false
  fits : b.bytes ≤ limit → b' = { b with limit := some limit }
  full : limit < b.bytes → b'.exhausted = true

namespace Within

variable {limit : Nat} {b b' : Builder}

theorem empty (limit : Nat) :
    Within limit (Builder.empty.setBudget none) (Builder.empty.setBudget (some limit)) where
  unlimited := rfl
  limited := rfl
  scope := rfl
  pending := rfl
  names _ := rfl
  dropped := rfl
  fits _ := by simp [setBudget, Builder.empty]
  full h := absurd h (Nat.not_lt_zero _)

theorem push (h : Within limit b b') (i : Instr String) :
    Within limit (b.push i) (b'.push i) := by
  have hb : b.push i = { b with code := b.code.push i, bytes := b.bytes + i.maxBytes } := by
    unfold Builder.push Builder.fits
    rw [h.unlimited]
    rfl
  rw [hb]
  by_cases hle : b.bytes + i.maxBytes ≤ limit
  · have hb' : b'.push i = { b with
        code := b.code.push i, bytes := b.bytes + i.maxBytes, limit := some limit } := by
      rw [h.fits (by omega)]
      unfold Builder.push Builder.fits
      simp [h.dropped, hle]
    rw [hb']
    exact ⟨h.unlimited, rfl, rfl, rfl, fun _ => rfl, h.dropped, fun _ => rfl,
      fun hlt => absurd hle (Nat.not_le.mpr hlt)⟩
  · have hb' : b'.push i = { b' with exhausted := true } := by
      unfold Builder.push Builder.fits
      rw [h.limited]
      by_cases hfit : b.bytes ≤ limit
      · rw [h.fits hfit]
        simp [hle]
      · simp [h.full (by omega)]
    rw [hb']
    exact ⟨h.unlimited, h.limited, h.scope, h.pending, h.names, h.dropped,
      fun hfit => absurd hfit hle, fun _ => rfl⟩

theorem request (h : Within limit b b') (name : String) :
    Within limit (b.request name) (b'.request name) := by
  unfold Builder.request
  rw [h.names, h.pending]
  split
  · exact h
  · refine ⟨h.unlimited, h.limited, h.scope, rfl, h.names, h.dropped, fun hfit => ?_, h.full⟩
    rw [h.fits hfit]

theorem add (h : Within limit b b') (i : Instr String) : Within limit (b.add i) (b'.add i) := by
  have hname : b'.scopedName = b.scopedName := by
    funext name
    unfold scopedName
    rw [h.scope]
  unfold Builder.add
  rw [hname]
  dsimp only
  split
  · exact (h.request _).push _
  · exact h.push _

/-- A label is put in both programs or in none. -/
theorem label (h : Within limit b b') (name : String) :
    (∃ d d', b.label name = .ok d ∧ b'.label name = .ok d' ∧ Within limit d d') ∨
    ∃ e, b.label name = .error e ∧ b'.label name = .error e := by
  have hname : b'.scopedName name = b.scopedName name := by
    unfold scopedName
    rw [h.scope]
  unfold Builder.label
  rw [hname]
  generalize b.scopedName name = name
  dsimp only
  rw [h.names]
  split
  · exact .inr ⟨_, rfl, rfl⟩
  · refine .inl ⟨_, _, rfl, rfl, h.unlimited, h.limited, h.scope, ?_, fun x => ?_, h.dropped,
      fun hfit => ?_, h.full⟩
    · exact congrArg (List.erase · name) h.pending
    · change (List.lookup x ((name, b'.code.size) :: b'.labels)).isSome =
        (List.lookup x ((name, b.code.size) :: b.labels)).isSome
      rw [List.lookup_cons, List.lookup_cons]
      split
      · rfl
      · exact h.names x
    · rw [h.fits hfit]

end Within

end Ir.Builder

namespace HostCache

/-- The assignments differ in their builders, of which the second has a budget. -/
def Within (limit : Nat) (c c' : HostCache) : Prop :=
  ∃ b, c.builder.Within limit b ∧ c' = { c with builder := b }

namespace Within

variable {limit : Nat} {c c' : HostCache}

theorem emit (h : Within limit c c') (i : Ir.Instr String) :
    Within limit (c.emit i) (c'.emit i) := by
  obtain ⟨b, hb, rfl⟩ := h
  exact ⟨_, hb.add i, rfl⟩

theorem quiet (h : Within limit c c') {f : HostCache → HostCache}
    (hf : ∀ c b, f { c with builder := b } = { f c with builder := b }) :
    Within limit (f c) (f c') := by
  obtain ⟨b, hb, rfl⟩ := h
  refine ⟨b, ?_, hf c b⟩
  have hkeep := congrArg HostCache.builder (hf c c.builder)
  change (f c).builder = c.builder at hkeep
  rwa [hkeep]

theorem foldl {γ : Type} {f : HostCache → γ → HostCache}
    (hf : ∀ c c' x, Within limit c c' → Within limit (f c x) (f c' x)) (xs : List γ)
    (h : Within limit c c') : Within limit (xs.foldl f c) (xs.foldl f c') := by
  induction xs generalizing c c' with
  | nil => exact h
  | cons x xs ih => exact ih (hf c c' x h)

instance : Parallel (Within limit) where
  slots := by
    rintro c _ ⟨b, -, rfl⟩
    rfl
  clock := by
    rintro c _ ⟨b, -, rfl⟩
    rfl
  emit h i := h.emit i
  assign h slots := h.quiet (f := fun c => { c with slots }) fun _ _ => rfl
  tick h clock := h.quiet (f := fun c => { c with clock }) fun _ _ => rfl

theorem fpSlots_eq (h : Within limit c c') : c'.fpSlots = c.fpSlots := by
  obtain ⟨b, -, rfl⟩ := h
  rfl

theorem putFp (h : Within limit c c') (r : Fin 8) (s : FpSlot) :
    Within limit { c with fpSlots := c.fpSlots.put r s }
      { c' with fpSlots := c'.fpSlots.put r s } :=
  h.quiet (f := fun c => { c with fpSlots := c.fpSlots.put r s }) fun _ _ => rfl

theorem fpTouch (h : Within limit c c') (r : Fin 8) : Within limit (c.fpTouch r) (c'.fpTouch r) :=
  h.quiet (f := (·.fpTouch r)) fun _ _ => rfl

theorem fpWriteback (h : Within limit c c') (r : Fin 8) :
    Within limit (c.fpWriteback r) (c'.fpWriteback r) := by
  unfold HostCache.fpWriteback
  rw [h.fpSlots_eq]
  dsimp only
  split
  · cases (c.fpSlots.get r).content with
    | none => exact h.putFp r _
    | some x => exact (h.emit _).putFp r _
  · exact h

theorem fpFree (h : Within limit c c') (r : Fin 8) : Within limit (c.fpFree r) (c'.fpFree r) :=
  (h.fpWriteback r).putFp r _

theorem flushPass (h : Within limit c c') (mask : UInt32) (extended : Bool) :
    Within limit (c.flushPass mask extended) (c'.flushPass mask extended) := by
  refine foldl (fun c c' r h => ?_) _ h
  rw [Parallel.slot_eq h]
  split
  · exact Parallel.writeback h r
  · exact h

theorem releaseIdle (h : Within limit c c') (mask : UInt32) :
    Within limit (c.releaseIdle mask) (c'.releaseIdle mask) := by
  refine foldl (fun c c' r h => ?_) _ h
  rw [Parallel.slot_eq h]
  dsimp only
  split
  · exact Parallel.setSlot h r _
  · exact h

theorem flushFp (h : Within limit c c') : Within limit c.flushFp c'.flushFp :=
  foldl (fun _ _ r h => h.fpFree r) _ h

theorem flushAll (h : Within limit c c') : Within limit c.flushAll c'.flushAll :=
  (((h.flushPass 0 false).flushPass 0 true).flushFp).releaseIdle 0

theorem dropAll (h : Within limit c c') : Within limit c.dropAll c'.dropAll :=
  h.quiet fun _ _ => rfl

theorem startOp (h : Within limit c c') : Within limit c.startOp c'.startOp :=
  h.quiet fun _ _ => rfl

theorem restore (h : Within limit c c') (s : Snapshot) :
    Within limit (c.restore s) (c'.restore s) :=
  h.quiet (f := (·.restore s)) fun _ _ => rfl

theorem clobberFp (h : Within limit c c') (off size : Int) :
    Within limit (c.clobberFp off size) (c'.clobberFp off size) := by
  refine foldl (fun c c' r h => ?_) _ h
  rw [h.fpSlots_eq]
  split
  · exact h.fpFree r
  · exact h

end Within

variable {limit : Nat}

theorem blind_endOp : Blind (Within limit) endOp := by
  refine .bind (.modify fun _ _ h =>
    h.quiet (f := fun c => { c with depth := c.depth - 1 }) fun _ _ => rfl)
    fun _ => .getSet fun c _ h => ?_
  obtain ⟨b, hb, rfl⟩ := h
  by_cases hneg : c.depth < 0
  · simp only [hneg, ↓reduceIte]
    exact .error _ ⟨b, hb, rfl⟩
  · simp only [hneg, ↓reduceIte]
    split
    · exact .ok _ ⟨b, hb, rfl⟩
    · exact .ok _ ⟨b, hb, rfl⟩

theorem blind_fpEvictPartial (size : FpSize) (off : Int) (r : Fin 8) :
    Blind (Within limit) (fpEvictPartial size off r) := by
  refine .getSet fun c c' h => ?_
  rw [h.fpSlots_eq]
  dsimp only
  split
  · split
    · exact .error _ h
    · exact .ok _ (h.fpFree r)
  · exact .ok _ h

theorem blind_fpFind? (size : FpSize) (off : Int) :
    Blind (Within limit) (fpFind? size off) := by
  refine .bind (.forIn _ (blind_fpEvictPartial size off)) fun _ =>
    .get (fun c c' h => ?_) fun c => .pure _
  rw [h.fpSlots_eq]

theorem blind_fpClaim (size : FpSize) (off : Int) (dirty : Bool) :
    Blind (Within limit) (fpClaim size off dirty) := by
  refine .getSet fun c c' h => ?_
  have hvictim : c'.fpVictim? = c.fpVictim? := by
    obtain ⟨b, -, rfl⟩ := h
    rfl
  rw [hvictim, h.fpSlots_eq]
  dsimp only
  cases (List.finRange 8).find? fun r => (c.fpSlots.get r).content.isNone with
  | some r =>
    have hput := (h.putFp r { FpSlot.empty with content := some (size, off), dirty }).fpTouch r
    rw [h.fpSlots_eq] at hput
    exact .ok _ hput
  | none =>
    cases c.fpVictim? with
    | some r => exact .ok _ (((h.fpWriteback r).putFp r _).fpTouch r)
    | none => exact .error _ h

theorem blind_allocInFp (off : Int) (size : FpSize) :
    Blind (Within limit) (allocInFp off size) := by
  refine .bind (blind_fpFind? size off) fun r => ?_
  cases r with
  | some r => exact .bind (.modify fun _ _ h => h.fpTouch r) fun _ => .pure _
  | none =>
    exact .bind (blind_fpClaim _ _ _) fun _ => .bind (.modify fun _ _ h => h.emit _) fun _ =>
      .pure _

theorem blind_allocOutFp (off : Int) (size : FpSize) :
    Blind (Within limit) (allocOutFp off size) := by
  refine .bind (blind_fpFind? size off) fun r => ?_
  cases r with
  | some r =>
    refine .bind (.modify fun c c' h => ?_) fun _ => .pure _
    rw [h.fpSlots_eq]
    have hput := (h.putFp r { c.fpSlots.get r with dirty := true }).fpTouch r
    rw [h.fpSlots_eq] at hput
    exact hput
  | none => exact blind_fpClaim _ _ _

end HostCache

end Recompiler
