import Recompiler.HostCache.Float
import Recompiler.Proofs.Registers

/-!
The slots across the operations of the register assignment. An allocation takes a slot that no
one has pinned, after storing what it held, and leaves every other slot alone.
-/

namespace Vector

theorem put_put {α : Type} {n : Nat} (xs : Vector α n) (i : Fin n) (x y : α) :
    (xs.put i x).put i y = xs.put i y := by
  apply Vector.ext
  intro j hj
  change ((xs.set i.val x i.isLt).set i.val y i.isLt)[j] = (xs.set i.val y i.isLt)[j]
  rw [Vector.getElem_set, Vector.getElem_set, Vector.getElem_set]
  split <;> rfl

end Vector

namespace Recompiler

open Ir

namespace Content

def base : Content → Content
  | .low g _ => .low g none
  | content => content

def isValue : Content → Bool
  | .unused | .temp => false
  | _ => true

theorem isLow_iff {content : Content} {g : GuestReg} :
    content.isLow g = true ↔ content.base = .low g none := by
  cases content <;> simp [isLow, base]

theorem beq_high_iff {content : Content} {g : GuestReg} :
    (content == .high g) = true ↔ content.base = .high g := by
  cases content <;> simp [base]

theorem beq_word_iff {content : Content} {off : Int} :
    (content == .word off) = true ↔ content.base = .word off := by
  cases content <;> simp [base]

theorem isValue_base (content : Content) : content.base.isValue = content.isValue := by
  cases content <;> rfl

theorem base_eq_low {content : Content} {g : GuestReg} (h : content.base = .low g none) :
    ∃ ext, content = .low g ext := by
  cases content with
  | low g' ext =>
    cases h
    exact ⟨ext, rfl⟩
  | unused | temp | high g' | word off => cases h

theorem base_eq_high {content : Content} {g : GuestReg} (h : content.base = .high g) :
    content = .high g := by
  cases content <;> cases h
  rfl

theorem base_eq_temp {content : Content} (h : content.base = .temp) : content = .temp := by
  cases content <;> cases h
  rfl

theorem base_eq_word {content : Content} {off : Int} (h : content.base = .word off) :
    content = .word off := by
  cases content <;> cases h
  rfl

end Content

/-- A register that may not be taken away within the current instruction. -/
def Slot.Pinned (s : Slot) : Prop :=
  s.content ≠ .unused ∧ (s.busy = true ∨ s.content = .temp)

namespace HostCache

variable {c c' : HostCache} {r r' : Fin 9} {s : Slot} {g : GuestReg}

@[simp] theorem slot_emit (c : HostCache) (i : Ir.Instr String) (r : Fin 9) :
    (c.emit i).slot r = c.slot r := rfl

@[simp] theorem slot_setSlot_self (c : HostCache) (r : Fin 9) (s : Slot) :
    (c.setSlot r s).slot r = s := Vector.get_put_self _ _ _

theorem slot_setSlot_of_ne (c : HostCache) (s : Slot) (h : r ≠ r') :
    (c.setSlot r s).slot r' = c.slot r' := Vector.get_put_of_ne _ _ h

theorem setSlot_slot (c : HostCache) (r : Fin 9) : c.setSlot r (c.slot r) = c := by
  simp only [setSlot, slot, Vector.put_get_self]

theorem setSlot_setSlot (c : HostCache) (r : Fin 9) (s s' : Slot) :
    (c.setSlot r s).setSlot r s' = c.setSlot r s' := by
  simp only [setSlot, Vector.put_put]

@[simp] theorem slot_touch_self (c : HostCache) (r : Fin 9) :
    (c.touch r).slot r = { c.slot r with stamp := c.clock + 1, busy := true } :=
  Vector.get_put_self _ _ _

theorem slot_touch_of_ne (c : HostCache) (h : r ≠ r') : (c.touch r).slot r' = c.slot r' :=
  Vector.get_put_of_ne _ _ h

@[simp] theorem slotOf?_ofSlot (r : Fin 9) : slotOf? (.ofSlot r) = some r := by
  simp [slotOf?, HostReg.ofSlot]

theorem modifySlot_ofSlot (c : HostCache) (r : Fin 9) (f : Slot → Slot) :
    c.modifySlot (.ofSlot r) f = c.setSlot r (f (c.slot r)) := by
  simp only [modifySlot, slotOf?_ofSlot]

theorem slot_emitImplied_of_ne (c : HostCache) (lo : Fin 9) (ext : Extension) (h : r ≠ r') :
    (c.emitImplied lo r ext).slot r' = c.slot r' := by
  cases ext with
  | sign => rfl
  | zero | one =>
    rw [emitImplied, setConst, modifySlot_ofSlot, slot_setSlot_of_ne _ _ h, slot_emit]

/-- What storing a dirty register adds to the program. -/
def writebackCode (r : Fin 9) (s : Slot) : List (Ir.Instr String) :=
  if s.dirty then
    match s.content with
    | .unused | .temp => []
    | .low g (some ext) => [.stc (.ofSlot r) (Layout.lowWord g),
        match ext with
        | .sign => .stcx (.ofSlot r) (Layout.highWord g)
        | .zero => .stci 0 (Layout.highWord g)
        | .one => .stci 0xffffffff (Layout.highWord g)]
    | content => [.stc (.ofSlot r) content.offset]
  else []

def emitAll (c : HostCache) (is : List (Ir.Instr String)) : HostCache := is.foldl emit c

@[simp] theorem slot_emitAll (c : HostCache) (is : List (Ir.Instr String)) (r : Fin 9) :
    (c.emitAll is).slot r = c.slot r := by
  induction is generalizing c with
  | nil => rfl
  | cons i is ih => exact ih (c.emit i)

theorem writeback_eq (c : HostCache) (r : Fin 9) :
    c.writeback r = (c.emitAll (writebackCode r (c.slot r))).setSlot r
      { c.slot r with dirty := false } := by
  unfold writeback writebackCode
  generalize hs : c.slot r = s
  obtain ⟨content, dirty, isConst, value, stamp, busy⟩ := s
  cases dirty with
  | false =>
    exact ((congrArg (c.setSlot r) hs.symm).trans (setSlot_slot c r)).symm
  | true =>
    cases content with
    | unused | temp | high g | word off => rfl
    | low g ext =>
      cases ext with
      | none => rfl
      | some ext => cases ext <;> rfl

theorem slot_writeback_self (c : HostCache) (r : Fin 9) :
    (c.writeback r).slot r = { c.slot r with dirty := false } := by
  rw [writeback_eq, slot_setSlot_self]

theorem slot_writeback_of_ne (c : HostCache) (h : r ≠ r') :
    (c.writeback r).slot r' = c.slot r' := by
  rw [writeback_eq, slot_setSlot_of_ne _ _ h, slot_emitAll]

theorem slot_freeSlot_self (c : HostCache) (r : Fin 9) : (c.freeSlot r).slot r = .empty :=
  slot_setSlot_self _ r _

theorem slot_freeSlot_of_ne (c : HostCache) (h : r ≠ r') : (c.freeSlot r).slot r' = c.slot r' := by
  rw [freeSlot, slot_setSlot_of_ne _ _ h, slot_writeback_of_ne _ h]

theorem find?_some {p : Content → Bool} (h : c.find? p = some r) :
    p (c.slot r).content = true := by
  simpa using List.find?_some h

theorem find?_none {p : Content → Bool} (h : c.find? p = none) (r : Fin 9) :
    p (c.slot r).content = false := by
  simpa using List.find?_eq_none.mp h r (List.mem_finRange r)

theorem findLow?_some (h : c.findLow? g = some r) : (c.slot r).content.base = .low g none :=
  Content.isLow_iff.mp (find?_some h)

theorem findLow?_none (h : c.findLow? g = none) (r : Fin 9) :
    (c.slot r).content.base ≠ .low g none := by
  intro hr
  have := find?_none h r
  rw [Content.isLow_iff.mpr hr] at this
  cases this

theorem findHigh?_some (h : c.findHigh? g = some r) : (c.slot r).content.base = .high g :=
  Content.beq_high_iff.mp (find?_some h)

theorem findHigh?_none (h : c.findHigh? g = none) (r : Fin 9) :
    (c.slot r).content.base ≠ .high g := by
  intro hr
  have := find?_none h r
  rw [Content.beq_high_iff.mpr hr] at this
  cases this

theorem findWord?_some {off : Int} (h : c.findWord? off = some r) :
    (c.slot r).content.base = .word off :=
  Content.beq_word_iff.mp (find?_some h)

theorem findWord?_none {off : Int} (h : c.findWord? off = none) (r : Fin 9) :
    (c.slot r).content.base ≠ .word off := by
  intro hr
  have := find?_none h r
  rw [Content.beq_word_iff.mpr hr] at this
  cases this

/-- The choice of a victim goes on from `v` over the registers of `rs`. -/
def victimFrom (c : HostCache) (v : Option (Fin 9)) (rs : List (Fin 9)) : Option (Fin 9) :=
  rs.foldl (fun v r =>
    let s := c.slot r
    if s.busy || s.content == .temp then v
    else
      match v with
      | some v' => if s.stamp < (c.slot v').stamp then some r else v
      | none => some r) v

def Evictable (c : HostCache) (r : Fin 9) : Prop :=
  (c.slot r).busy = false ∧ (c.slot r).content ≠ .temp

theorem victimFrom_some {v : Option (Fin 9)} {rs : List (Fin 9)}
    (hv : ∀ r, v = some r → c.Evictable r) (h : c.victimFrom v rs = some r) : c.Evictable r := by
  induction rs generalizing v with
  | nil => exact hv r h
  | cons r₀ rs ih =>
    refine ih ?_ h
    intro r₁ h₁
    dsimp only at h₁
    split at h₁
    · exact hv r₁ h₁
    · rename_i hr₀
      have hr₀ : c.Evictable r₀ := by simpa [Evictable] using hr₀
      split at h₁
      · split at h₁
        · cases h₁
          exact hr₀
        · exact hv r₁ h₁
      · cases h₁
        exact hr₀

theorem victimFrom_none {v : Option (Fin 9)} {rs : List (Fin 9)}
    (h : c.victimFrom v rs = none) : v = none ∧ ∀ r ∈ rs, ¬ c.Evictable r := by
  induction rs generalizing v with
  | nil => exact ⟨h, fun r hr => absurd hr (by simp)⟩
  | cons r₀ rs ih =>
    obtain ⟨hv, hrs⟩ := ih h
    dsimp only at hv
    split at hv
    · rename_i hr₀
      refine ⟨hv, fun r hr => ?_⟩
      rcases List.mem_cons.mp hr with rfl | hr
      · rintro ⟨hb, ht⟩
        simp [hb, ht] at hr₀
      · exact hrs r hr
    · split at hv
      · split at hv <;> cases hv
      · cases hv

theorem victim?_some (h : c.victim? = some r) : c.Evictable r :=
  victimFrom_some (v := none) (fun _ h => nomatch h) h

theorem victim?_none (h : c.victim? = none) (r : Fin 9) : ¬ c.Evictable r :=
  (victimFrom_none h).2 r (List.mem_finRange r)

/-- The choice of a victim goes on from `v` over the floating point registers of `rs`. -/
def fpVictimFrom (c : HostCache) (v : Option (Fin 8)) (rs : List (Fin 8)) : Option (Fin 8) :=
  rs.foldl (fun v r =>
    let s := c.fpSlots.get r
    if s.busy then v
    else
      match v with
      | some v' => if s.stamp < (c.fpSlots.get v').stamp then some r else v
      | none => some r) v

theorem fpVictimFrom_some {v : Option (Fin 8)} {rs : List (Fin 8)} {r : Fin 8}
    (hv : ∀ r, v = some r → (c.fpSlots.get r).busy = false) (h : c.fpVictimFrom v rs = some r) :
    (c.fpSlots.get r).busy = false := by
  induction rs generalizing v with
  | nil => exact hv r h
  | cons r₀ rs ih =>
    refine ih (fun r₁ hr₁ => ?_) h
    dsimp only at hr₁
    split at hr₁
    · exact hv r₁ hr₁
    · rename_i hidle
      split at hr₁
      · split at hr₁
        · cases hr₁
          exact Bool.eq_false_iff.mpr hidle
        · exact hv r₁ hr₁
      · cases hr₁
        exact Bool.eq_false_iff.mpr hidle

theorem fpVictimFrom_none {v : Option (Fin 8)} {rs : List (Fin 8)}
    (h : c.fpVictimFrom v rs = none) :
    v = none ∧ ∀ r ∈ rs, (c.fpSlots.get r).busy = true := by
  induction rs generalizing v with
  | nil => exact ⟨h, fun r hr => absurd hr (by simp)⟩
  | cons r₀ rs ih =>
    obtain ⟨hv, hrs⟩ := ih h
    dsimp only at hv
    split at hv
    · rename_i hb
      refine ⟨hv, fun r hr => ?_⟩
      rcases List.mem_cons.mp hr with rfl | hr
      · exact hb
      · exact hrs r hr
    · split at hv
      · split at hv <;> cases hv
      · cases hv

/-- A register that is given a new content, after storing the old one. -/
def replace (c : HostCache) (r : Fin 9) (s : Slot) : HostCache :=
  ((c.writeback r).setSlot r s).touch r

/-- A claim takes a register that is not pinned, if there is one. -/
theorem claim_cases (c : HostCache) (s : Slot) :
    (∃ r, ¬ (c.slot r).Pinned ∧ claim s c = .ok r (c.replace r s)) ∨
      ((∀ r, (c.slot r).Pinned) ∧ claim s c = .error .outOfRegisters c) := by
  have hclaim : claim s c = match alloc c with
      | .ok r c => .ok r ((c.setSlot r s).touch r)
      | .error e c => .error e c := by
    simp only [claim, bind, EStateM.bind]
    cases alloc c <;> rfl
  have halloc : alloc c = match c.find? (· == .unused) with
      | some r => .ok r c
      | none =>
        match c.victim? with
        | some r => .ok r (c.freeSlot r)
        | none => .error .outOfRegisters c := by
    simp only [alloc, bind, EStateM.bind, get, getThe, MonadStateOf.get, EStateM.get]
    cases c.find? (· == .unused) with
    | some r => rfl
    | none => cases c.victim? <;> rfl
  rw [hclaim, halloc]
  cases hu : c.find? (· == .unused) with
  | some r =>
    have hr : (c.slot r).content = .unused := by simpa using find?_some hu
    refine .inl ⟨r, fun h => h.1 hr, ?_⟩
    have hcode : writebackCode r (c.slot r) = [] := by
      unfold writebackCode
      rw [hr]
      split <;> rfl
    dsimp only
    rw [replace, writeback_eq, hcode, setSlot_setSlot]
    rfl
  | none =>
    have hused (r : Fin 9) : (c.slot r).content ≠ .unused := by
      simpa using find?_none hu r
    cases hv : c.victim? with
    | some r =>
      obtain ⟨hb, ht⟩ := victim?_some hv
      refine .inl ⟨r, fun h => ?_, ?_⟩
      · rcases h.2 with h | h
        · simp [hb] at h
        · exact ht h
      · dsimp only
        rw [replace, freeSlot, setSlot_setSlot]
    | none =>
      refine .inr ⟨fun r => ⟨hused r, ?_⟩, rfl⟩
      have := victim?_none hv r
      by_cases hb : (c.slot r).busy
      · exact .inl hb
      · exact .inr (Decidable.byContradiction fun ht => this ⟨by simpa using hb, ht⟩)

@[simp] theorem slot_replace_self (c : HostCache) (r : Fin 9) (s : Slot) :
    (c.replace r s).slot r =
      { s with stamp := ((c.writeback r).setSlot r s).clock + 1, busy := true } := by
  rw [replace, slot_touch_self, slot_setSlot_self]

theorem slot_replace_of_ne (c : HostCache) (s : Slot) (h : r ≠ r') :
    (c.replace r s).slot r' = c.slot r' := by
  rw [replace, slot_touch_of_ne _ h, slot_setSlot_of_ne _ _ h, slot_writeback_of_ne _ h]

theorem overwrite_eq (c : HostCache) (r : Fin 9) (content : Content) :
    overwrite r content c = .ok (.ofSlot r)
      ((c.setSlot r { c.slot r with content, dirty := true, isConst := false }).touch r) := rfl

theorem claimReg_eq {content : Content} {dirty : Bool}
    (h : claim (.fresh content dirty) c = .ok r c') :
    claimReg content dirty c = .ok (.ofSlot r) c' := by
  simp only [claimReg, bind, EStateM.bind, h]
  rfl

theorem claimLoaded_eq {content : Content} (h : claim (.fresh content false) c = .ok r c') :
    claimLoaded content c = .ok (.ofSlot r) (c'.emit (.ldc content.offset (.ofSlot r))) := by
  simp only [claimLoaded, bind, EStateM.bind, claimReg_eq h]
  rfl

theorem claimReg_ok {content : Content} {dirty : Bool} {x : HostReg}
    (h : claimReg content dirty c = .ok x c') :
    ∃ r, ¬ (c.slot r).Pinned ∧ x = .ofSlot r ∧ c' = c.replace r (.fresh content dirty) := by
  rcases claim_cases c (.fresh content dirty) with ⟨r, hr, hc⟩ | ⟨-, hc⟩
  · rw [claimReg_eq hc] at h
    cases h
    exact ⟨r, hr, rfl, rfl⟩
  · simp only [claimReg, bind, EStateM.bind, hc] at h
    cases h

theorem claimLoaded_ok {content : Content} {x : HostReg}
    (h : claimLoaded content c = .ok x c') :
    ∃ r, ¬ (c.slot r).Pinned ∧ x = .ofSlot r ∧
      c' = (c.replace r (.fresh content false)).emit (.ldc content.offset x) := by
  rcases claim_cases c (.fresh content false) with ⟨r, hr, hc⟩ | ⟨-, hc⟩
  · rw [claimLoaded_eq hc] at h
    cases h
    exact ⟨r, hr, rfl, rfl⟩
  · simp only [claimLoaded, claimReg, bind, EStateM.bind, hc] at h
    cases h

theorem claimReg_error {content : Content} {dirty : Bool} {err : CacheError}
    (h : claimReg content dirty c = .error err c') : err = .outOfRegisters := by
  rcases claim_cases c (.fresh content dirty) with ⟨r, -, hc⟩ | ⟨-, hc⟩
  · rw [claimReg_eq hc] at h
    cases h
  · simp only [claimReg, bind, EStateM.bind, hc] at h
    cases h
    rfl

theorem claimLoaded_error {content : Content} {err : CacheError}
    (h : claimLoaded content c = .error err c') : err = .outOfRegisters := by
  rcases claim_cases c (.fresh content false) with ⟨r, -, hc⟩ | ⟨-, hc⟩
  · rw [claimLoaded_eq hc] at h
    cases h
  · simp only [claimLoaded, claimReg, bind, EStateM.bind, hc] at h
    cases h
    rfl

theorem allocInLow_eq (c : HostCache) (h : g.val ≠ 0) :
    allocInLow g c = match c.findLow? g with
      | some r => .ok (.ofSlot r) (c.touch r)
      | none => claimLoaded (.low g none) c := by
  simp only [allocInLow, if_neg h, bind, EStateM.bind, get, getThe, MonadStateOf.get, EStateM.get]
  cases c.findLow? g <;> rfl

theorem allocIn32_eq (c : HostCache) (off : Int) :
    allocIn32 off c = match c.findWord? off with
      | some r => .ok (.ofSlot r) (c.touch r)
      | none => claimLoaded (.word off) c := by
  simp only [allocIn32, bind, EStateM.bind, get, getThe, MonadStateOf.get, EStateM.get]
  cases c.findWord? off <;> rfl

theorem allocOut32_eq (c : HostCache) (off : Int) :
    allocOut32 off c = match c.findWord? off with
      | some r => overwrite r (.word off) c
      | none => claimReg (.word off) true c := by
  simp only [allocOut32, bind, EStateM.bind, get, getThe, MonadStateOf.get, EStateM.get]
  cases c.findWord? off <;> rfl

/-- The state in which an implied high word has got its register `r`. -/
def materialized (c : HostCache) (g : GuestReg) (lo r : Fin 9) (ext : Extension) : HostCache :=
  let c := (c.touch lo).replace r (.fresh (.high g) (c.slot lo).dirty)
  let c := c.emitImplied lo r ext
  c.setSlot lo { c.slot lo with content := .low g none }

theorem materialize_eq {lo : Fin 9} {ext : Extension}
    (h : claim (.fresh (.high g) (c.slot lo).dirty) (c.touch lo) =
      .ok r ((c.touch lo).replace r (.fresh (.high g) (c.slot lo).dirty))) :
    materialize g lo ext c = .ok (.ofSlot r) (c.materialized g lo r ext) := by
  have hdirty : ((c.touch lo).slot lo).dirty = (c.slot lo).dirty := by rw [slot_touch_self]
  simp only [materialize, bind, EStateM.bind, modify, modifyGet, MonadStateOf.modifyGet,
    EStateM.modifyGet, get, getThe, MonadStateOf.get, EStateM.get, hdirty, h]
  rfl

theorem materialize_ok {lo : Fin 9} {ext : Extension} {x : HostReg}
    (h : materialize g lo ext c = .ok x c') :
    ∃ r, ¬ ((c.touch lo).slot r).Pinned ∧ x = .ofSlot r ∧ c' = c.materialized g lo r ext := by
  rcases claim_cases (c.touch lo) (.fresh (.high g) (c.slot lo).dirty) with ⟨r, hr, hc⟩ | ⟨-, hc⟩
  · rw [materialize_eq hc] at h
    cases h
    exact ⟨r, hr, rfl, rfl⟩
  · have hdirty : ((c.touch lo).slot lo).dirty = (c.slot lo).dirty := by rw [slot_touch_self]
    simp only [materialize, bind, EStateM.bind, modify, modifyGet, MonadStateOf.modifyGet,
      EStateM.modifyGet, get, getThe, MonadStateOf.get, EStateM.get, hdirty, hc] at h
    cases h

theorem materialize_error {lo : Fin 9} {ext : Extension} {err : CacheError}
    (h : materialize g lo ext c = .error err c') : err = .outOfRegisters := by
  rcases claim_cases (c.touch lo) (.fresh (.high g) (c.slot lo).dirty) with ⟨r, -, hc⟩ | ⟨-, hc⟩
  · rw [materialize_eq hc] at h
    cases h
  · have hdirty : ((c.touch lo).slot lo).dirty = (c.slot lo).dirty := by rw [slot_touch_self]
    simp only [materialize, bind, EStateM.bind, modify, modifyGet, MonadStateOf.modifyGet,
      EStateM.modifyGet, get, getThe, MonadStateOf.get, EStateM.get, hdirty, hc] at h
    cases h
    rfl

theorem allocInHigh_eq (c : HostCache) (h : g.val ≠ 0) :
    allocInHigh g c = match c.findHigh? g with
      | some r => .ok (.ofSlot r) (c.touch r)
      | none =>
        match c.findLow? g with
        | some lo =>
          match (c.slot lo).content with
          | .low _ (some ext) => materialize g lo ext c
          | _ => claimLoaded (.high g) c
        | none => claimLoaded (.high g) c := by
  simp only [allocInHigh, if_neg h, bind, EStateM.bind, get, getThe, MonadStateOf.get, EStateM.get]
  cases c.findHigh? g with
  | some r => rfl
  | none =>
    cases c.findLow? g with
    | none => rfl
    | some lo =>
      dsimp only
      cases (c.slot lo).content with
      | low g' ext => cases ext <;> rfl
      | unused | temp | high g' | word off => rfl

theorem allocOutLow_eq (c : HostCache) (h : g.val ≠ 0) :
    allocOutLow g c = match c.findLow? g with
      | none => claimReg (.low g none) true c
      | some r =>
        match (c.slot r).content with
        | .low _ (some ext) =>
          if (c.findHigh? g).isNone && (c.slot r).dirty then
            match materialize g r ext c with
            | .ok _ c => overwrite r (.low g none) c
            | .error e c => .error e c
          else overwrite r (.low g none) c
        | _ => overwrite r (.low g none) c := by
  simp only [allocOutLow, if_neg h, bind, EStateM.bind, get, getThe, MonadStateOf.get, EStateM.get]
  cases c.findLow? g with
  | none => rfl
  | some r =>
    dsimp only
    cases (c.slot r).content with
    | unused | temp | high g' | word off => rfl
    | low g' ext =>
      cases ext with
      | none => rfl
      | some ext =>
        dsimp only
        split
        · change EStateM.bind (materialize g r ext) (fun _ => overwrite r (.low g none)) c = _
          simp only [EStateM.bind]
          cases materialize g r ext c <;> rfl
        · rfl

def splitLow (c : HostCache) (g : GuestReg) : HostCache :=
  match c.findLow? g with
  | some lo => c.setSlot lo { c.slot lo with content := .low g none }
  | none => c

def dropHigh (c : HostCache) (g : GuestReg) : HostCache :=
  match c.findHigh? g with
  | some hi => c.setSlot hi .empty
  | none => c

theorem allocOutHigh_eq (c : HostCache) (h : g.val ≠ 0) :
    allocOutHigh g c = match (c.splitLow g).findHigh? g with
      | some r => overwrite r (.high g) (c.splitLow g)
      | none => claimReg (.high g) true (c.splitLow g) := by
  simp only [allocOutHigh, if_neg h, bind, EStateM.bind, get, getThe, MonadStateOf.get,
    EStateM.get, modify, modifyGet, MonadStateOf.modifyGet, EStateM.modifyGet]
  change (match (c.splitLow g).findHigh? g with
    | some r => overwrite r (.high g)
    | none => claimReg (.high g) true) (c.splitLow g) = _
  cases (c.splitLow g).findHigh? g <;> rfl

theorem allocOutExt_eq (c : HostCache) (ext : Extension) (h : g.val ≠ 0) :
    allocOutExt g ext c = match (c.dropHigh g).findLow? g with
      | some r => overwrite r (.low g (some ext)) (c.dropHigh g)
      | none => claimReg (.low g (some ext)) true (c.dropHigh g) := by
  simp only [allocOutExt, if_neg h, bind, EStateM.bind, get, getThe, MonadStateOf.get,
    EStateM.get, modify, modifyGet, MonadStateOf.modifyGet, EStateM.modifyGet]
  change (match (c.dropHigh g).findLow? g with
    | some r => overwrite r (.low g (some ext))
    | none => claimReg (.low g (some ext)) true) (c.dropHigh g) = _
  cases (c.dropHigh g).findLow? g <;> rfl

def findConst? (c : HostCache) (v : UInt32) : Option (Fin 9) :=
  (List.finRange 9).find? fun r => (c.slot r).isConst && (c.slot r).value == v

theorem allocConst_eq (c : HostCache) {v : UInt32} (h : v ≠ 0) :
    allocConst v c = match c.findConst? v with
      | some r => .ok (.ofSlot r) (c.touch r)
      | none =>
        match allocTemp c with
        | .ok r c => .ok r ((c.emit (.li v r)).setConst r v)
        | .error e c => .error e c := by
  simp only [allocConst, if_neg h, bind, EStateM.bind, get, getThe, MonadStateOf.get, EStateM.get]
  change (match c.findConst? v with
    | some r => reuse r
    | none => _) c = _
  cases c.findConst? v with
  | some r => rfl
  | none =>
    simp only [EStateM.bind]
    cases allocTemp c <;> rfl

/-- The state after a scope has been closed. -/
def ended (c : HostCache) : HostCache :=
  let c' : HostCache := { c with depth := c.depth - 1 }
  if c.depth = 1 then
    { c' with slots := c.slots.map endSlot, fpSlots := c.fpSlots.map endFpSlot }
  else c'

theorem endOp_eq (h : 0 < c.depth) : endOp c = .ok () c.ended := by
  simp only [endOp, bind, EStateM.bind, modify, modifyGet, MonadStateOf.modifyGet,
    EStateM.modifyGet, get, getThe, MonadStateOf.get, EStateM.get, ended]
  rw [if_neg (by omega)]
  by_cases h1 : c.depth = 1
  · rw [if_pos (by omega), if_pos h1]
    rfl
  · rw [if_neg (by omega), if_neg h1]
    rfl

def freeFound (c : HostCache) : Option (Fin 9) → HostCache
  | some r => c.freeSlot r
  | none => c

theorem invalidateGuest_eq (c : HostCache) (g : GuestReg) :
    c.invalidateGuest g = (c.freeFound (c.findHigh? g)).freeFound
      ((c.freeFound (c.findHigh? g)).findLow? g) := by
  unfold invalidateGuest
  cases c.findHigh? g <;> rfl

theorem slot_foldl {f : HostCache → Fin 9 → HostCache} {F : Fin 9 → Slot → Slot}
    (hself : ∀ c r, (f c r).slot r = F r (c.slot r))
    (hrest : ∀ c r r', r ≠ r' → (f c r).slot r' = c.slot r') {rs : List (Fin 9)} (hrs : rs.Nodup)
    (c : HostCache) (r : Fin 9) :
    (rs.foldl f c).slot r = if r ∈ rs then F r (c.slot r) else c.slot r := by
  induction rs generalizing c with
  | nil => rfl
  | cons r₀ rs ih =>
    obtain ⟨hr₀, hrs⟩ := List.nodup_cons.mp hrs
    rw [List.foldl_cons, ih hrs]
    by_cases he : r₀ = r
    · subst he
      rw [if_neg hr₀, if_pos List.mem_cons_self, hself]
    · simp only [hrest c r₀ r he, List.mem_cons, Ne.symm he, false_or]

theorem slot_flushPass (c : HostCache) (mask : UInt32) (extended : Bool) (r : Fin 9) :
    (c.flushPass mask extended).slot r =
      if outside mask r && (c.slot r).content.isExtended == extended then
        { c.slot r with dirty := false }
      else c.slot r := by
  refine (slot_foldl (F := fun r s => if outside mask r && s.content.isExtended == extended then
    { s with dirty := false } else s) ?_ ?_ (List.nodup_finRange 9) c r).trans
    (if_pos (List.mem_finRange r))
  · intro c r
    split
    · rw [slot_writeback_self]
    · rfl
  · intro c r r' hr
    split
    · rw [slot_writeback_of_ne _ hr]
    · rfl

theorem slots_fpWriteback (c : HostCache) (r : Fin 8) : (c.fpWriteback r).slots = c.slots := by
  unfold fpWriteback
  dsimp only
  split
  · split <;> rfl
  · rfl

theorem fpSlots_fpWriteback (c : HostCache) (r : Fin 8) :
    (c.fpWriteback r).fpSlots = c.fpSlots.put r { c.fpSlots.get r with dirty := false } := by
  unfold fpWriteback
  dsimp only
  split
  · split <;> rfl
  · rename_i hd
    have hsame : { c.fpSlots.get r with dirty := false } = c.fpSlots.get r := by
      generalize c.fpSlots.get r = s at hd
      obtain ⟨content, dirty, stamp, busy⟩ := s
      cases dirty with
      | false => rfl
      | true => exact absurd rfl hd
    rw [hsame, Vector.put_get_self]

theorem slots_flushFp (c : HostCache) : c.flushFp.slots = c.slots := by
  unfold flushFp
  induction List.finRange 8 generalizing c with
  | nil => rfl
  | cons r rs ih =>
    rw [List.foldl_cons, ih]
    exact slots_fpWriteback c r

theorem slots_clobberFp (c : HostCache) (off size : Int) :
    (c.clobberFp off size).slots = c.slots := by
  unfold clobberFp
  induction List.finRange 8 generalizing c with
  | nil => rfl
  | cons r rs ih =>
    rw [List.foldl_cons, ih]
    split
    · exact slots_fpWriteback c r
    · rfl

theorem slot_releaseIdle (c : HostCache) (mask : UInt32) (r : Fin 9) :
    (c.releaseIdle mask).slot r =
      if outside mask r && (c.slot r).content != .temp && !(c.slot r).isConst then .empty
      else c.slot r := by
  refine (slot_foldl (F := fun r s => if outside mask r && s.content != .temp && !s.isConst then
    .empty else s) ?_ ?_ (List.nodup_finRange 9) c r).trans (if_pos (List.mem_finRange r))
  · intro c r
    dsimp only
    split
    · rw [slot_setSlot_self]
    · rfl
  · intro c r r' hr
    dsimp only
    split
    · rw [slot_setSlot_of_ne _ _ hr]
    · rfl

theorem outside_zero (r : Fin 9) : outside 0 r = true := by
  simp [outside]

theorem slot_stored (c : HostCache) (mask : UInt32) (r : Fin 9) :
    ((c.flushPass mask false).flushPass mask true).flushFp.slot r =
      if outside mask r then { c.slot r with dirty := false } else c.slot r := by
  change (((c.flushPass mask false).flushPass mask true).flushFp.slots).get r = _
  rw [slots_flushFp]
  change ((c.flushPass mask false).flushPass mask true).slot r = _
  rw [slot_flushPass, slot_flushPass]
  cases outside mask r with
  | false => rfl
  | true => cases hext : (c.slot r).content.isExtended <;> simp [hext]

theorem slot_flushExcept (c : HostCache) (mask : UInt32) (r : Fin 9) :
    (c.flushExcept mask).slot r =
      if outside mask r then
        if (c.slot r).content != .temp && !(c.slot r).isConst then .empty
        else { c.slot r with dirty := false }
      else c.slot r := by
  rw [flushExcept, slot_releaseIdle, slot_stored]
  cases outside mask r with
  | false => rfl
  | true => rfl

theorem slot_flushAll (c : HostCache) (r : Fin 9) :
    c.flushAll.slot r =
      if (c.slot r).content != .temp && !(c.slot r).isConst then .empty
      else { c.slot r with dirty := false } := by
  rw [flushAll, slot_flushExcept, outside_zero, if_pos rfl]

end HostCache

/-- Instructions after which control goes on with the next one. -/
def Ir.Instr.isPlain {L : Type} : Ir.Instr L → Bool
  | .branch .. | .branchConst .. | .branchOverflow .. | .jump _ | .callout .. => false
  | .link _ | .exit _ => false
  | _ => true

theorem Ir.Instr.target?_of_isPlain {L : Type} {i : Ir.Instr L} (h : i.isPlain = true) :
    i.target? = none := by
  cases i <;> first | rfl | cases h

/-- Instructions that move words between the registers and the context, perhaps changed by a
constant. -/
def Ir.Instr.isMove {L : Type} : Ir.Instr L → Bool
  | .li .. | .mov .. | .ldc .. | .stc .. | .stci .. | .stcx .. | .const .. => true
  | _ => false

def Ir.Instr.isTransfer {L : Type} : Ir.Instr L → Bool
  | .fld .. | .fst .. => true
  | i => i.isMove

theorem Ir.Instr.isTransfer_of_isMove {L : Type} {i : Ir.Instr L} (h : i.isMove = true) :
    i.isTransfer = true := by
  cases i <;> first | rfl | cases h

theorem Ir.Instr.isPlain_of_isTransfer {L : Type} {i : Ir.Instr L} (h : i.isTransfer = true) :
    i.isPlain = true := by
  cases i <;> first | rfl | cases h

/-- The program grows by transfers, in the same scope. -/
structure Appends (c c' : HostCache) : Prop where
  depth : c'.depth = c.depth
  code : ∃ is : List (Ir.Instr String), (∀ i ∈ is, i.isTransfer = true) ∧
    c'.builder = is.foldl Builder.add c.builder

namespace Appends

open HostCache

variable {c c' c'' : HostCache}

theorem refl (c : HostCache) : Appends c c := ⟨rfl, [], by simp, rfl⟩

theorem trans (h : Appends c c') (h' : Appends c' c'') : Appends c c'' := by
  obtain ⟨is, hi, hc⟩ := h.code
  obtain ⟨is', hi', hc'⟩ := h'.code
  refine ⟨h'.depth.trans h.depth, is ++ is', ?_, ?_⟩
  · intro i hm
    rcases List.mem_append.mp hm with hm | hm
    · exact hi i hm
    · exact hi' i hm
  · rw [hc', hc, List.foldl_append]

theorem of_builder (hd : c'.depth = c.depth) (hb : c'.builder = c.builder) : Appends c c' :=
  ⟨hd, [], by simp, hb⟩

theorem emit (c : HostCache) {i : Ir.Instr String} (h : i.isTransfer = true) :
    Appends c (c.emit i) :=
  ⟨rfl, [i], by simpa using h, rfl⟩

theorem foldl {α : Type} {f : HostCache → α → HostCache} (hf : ∀ c a, Appends c (f c a))
    (as : List α) (c : HostCache) : Appends c (as.foldl f c) := by
  induction as generalizing c with
  | nil => exact refl c
  | cons a as ih => exact (hf c a).trans (ih (f c a))

end Appends

/-- The program grows by moves, and floating-point registers are left alone. -/
structure Extends (c c' : HostCache) : Prop where
  depth : c'.depth = c.depth
  fpSlots : c'.fpSlots = c.fpSlots
  moves : ∃ is : List (Ir.Instr String), (∀ i ∈ is, i.isMove = true) ∧
    c'.builder = is.foldl Builder.add c.builder

namespace Extends

open HostCache

variable {c c' c'' : HostCache} {x : HostReg} {g : GuestReg}

theorem toAppends (h : Extends c c') : Appends c c' := by
  obtain ⟨is, hi, hb⟩ := h.moves
  exact ⟨h.depth, is, fun i hm => Ir.Instr.isTransfer_of_isMove (hi i hm), hb⟩

theorem refl (c : HostCache) : Extends c c := ⟨rfl, rfl, [], by simp, rfl⟩

theorem trans (h : Extends c c') (h' : Extends c' c'') : Extends c c'' := by
  obtain ⟨is, hi, hb⟩ := h.moves
  obtain ⟨is', hi', hb'⟩ := h'.moves
  refine ⟨h'.depth.trans h.depth, h'.fpSlots.trans h.fpSlots, is ++ is', fun i hm => ?_, ?_⟩
  · exact (List.mem_append.mp hm).elim (hi i) (hi' i)
  · rw [hb', hb, List.foldl_append]

theorem setSlot (c : HostCache) (r : Fin 9) (s : Slot) : Extends c (c.setSlot r s) :=
  ⟨rfl, rfl, [], by simp, rfl⟩

theorem touch (c : HostCache) (r : Fin 9) : Extends c (c.touch r) := ⟨rfl, rfl, [], by simp, rfl⟩

theorem emit (c : HostCache) {i : Ir.Instr String} (h : i.isMove = true) :
    Extends c (c.emit i) :=
  ⟨rfl, rfl, [i], by simpa using h, rfl⟩

theorem emitAll (c : HostCache) {is : List (Ir.Instr String)} (h : ∀ i ∈ is, i.isMove = true) :
    Extends c (c.emitAll is) := by
  induction is generalizing c with
  | nil => exact refl c
  | cons i is ih =>
    exact (emit c (h i List.mem_cons_self)).trans
      (ih (c.emit i) fun i hi => h i (List.mem_cons_of_mem _ hi))

theorem writeback (c : HostCache) (r : Fin 9) : Extends c (c.writeback r) := by
  rw [writeback_eq]
  refine (emitAll c fun i hi => ?_).trans (setSlot _ r _)
  unfold writebackCode at hi
  split at hi
  · split at hi
    · cases hi
    · cases hi
    · rename_i ext _
      rcases List.mem_cons.mp hi with rfl | hi
      · rfl
      · rw [List.mem_singleton.mp hi]
        cases ext <;> rfl
    · rw [List.mem_singleton.mp hi]
      rfl
  · cases hi

theorem replace (c : HostCache) (r : Fin 9) (s : Slot) : Extends c (c.replace r s) :=
  ((writeback c r).trans (setSlot _ r s)).trans (touch _ r)

theorem setConst (c : HostCache) (x : HostReg) (v : UInt32) : Extends c (c.setConst x v) := by
  unfold HostCache.setConst modifySlot
  split
  · exact setSlot c _ _
  · exact refl c

theorem claimReg {content : Content} {dirty : Bool}
    (h : HostCache.claimReg content dirty c = .ok x c') : Extends c c' := by
  obtain ⟨r, -, -, rfl⟩ := claimReg_ok h
  exact replace c r _

theorem claimLoaded {content : Content} (h : HostCache.claimLoaded content c = .ok x c') :
    Extends c c' := by
  obtain ⟨r, -, -, rfl⟩ := claimLoaded_ok h
  exact (replace c r _).trans (emit _ rfl)

theorem overwrite {content : Content} {r : Fin 9}
    (h : HostCache.overwrite r content c = .ok x c') : Extends c c' := by
  cases h
  exact (setSlot c r _).trans (touch _ r)

theorem materialize {lo : Fin 9} {ext : Extension}
    (h : HostCache.materialize g lo ext c = .ok x c') : Extends c c' := by
  obtain ⟨r, -, -, rfl⟩ := materialize_ok h
  refine (((touch c lo).trans (replace _ r (.fresh (.high g) (c.slot lo).dirty))).trans ?_).trans
    (setSlot _ lo _)
  cases ext with
  | sign => exact emit _ rfl
  | zero => exact (emit _ (i := .li 0 (.ofSlot r)) rfl).trans (setConst _ _ _)
  | one => exact (emit _ (i := .li 0xffffffff (.ofSlot r)) rfl).trans (setConst _ _ _)

theorem of_zero {α : Type} {m : CacheM α} {a a' : α} (h : m c = .ok a c')
    (hm : m c = .ok a' c) : Extends c c' := by
  rw [hm] at h
  cases h
  exact refl c

theorem allocInLow (h : HostCache.allocInLow g c = .ok x c') : Extends c c' := by
  by_cases h0 : g.val = 0
  · exact of_zero h (by rw [HostCache.allocInLow, if_pos h0]; rfl)
  · rw [allocInLow_eq c h0] at h
    split at h
    · cases h
      exact touch c _
    · exact claimLoaded h

theorem allocInHigh (h : HostCache.allocInHigh g c = .ok x c') : Extends c c' := by
  by_cases h0 : g.val = 0
  · exact of_zero h (by rw [HostCache.allocInHigh, if_pos h0]; rfl)
  · rw [allocInHigh_eq c h0] at h
    split at h
    · cases h
      exact touch c _
    · split at h
      · split at h
        · exact materialize h
        · exact claimLoaded h
      · exact claimLoaded h

theorem allocOutLow (h : HostCache.allocOutLow g c = .ok x c') : Extends c c' := by
  by_cases h0 : g.val = 0
  · exact of_zero h (by rw [HostCache.allocOutLow, if_pos h0]; rfl)
  · rw [allocOutLow_eq c h0] at h
    split at h
    · exact claimReg h
    · split at h
      · split at h
        · split at h
          · rename_i hm
            exact (materialize hm).trans (overwrite h)
          · cases h
        · exact overwrite h
      · exact overwrite h

theorem allocOutHigh (h : HostCache.allocOutHigh g c = .ok x c') : Extends c c' := by
  by_cases h0 : g.val = 0
  · exact of_zero h (by rw [HostCache.allocOutHigh, if_pos h0]; rfl)
  · have hsplit : Extends c (c.splitLow g) := by
      unfold HostCache.splitLow
      split
      · exact setSlot c _ _
      · exact refl c
    rw [allocOutHigh_eq c h0] at h
    split at h
    · exact hsplit.trans (overwrite h)
    · exact hsplit.trans (claimReg h)

theorem allocOutExt {ext : Extension} (h : HostCache.allocOutExt g ext c = .ok x c') :
    Extends c c' := by
  by_cases h0 : g.val = 0
  · exact of_zero h (by rw [HostCache.allocOutExt, if_pos h0]; rfl)
  · have hdrop : Extends c (c.dropHigh g) := by
      unfold HostCache.dropHigh
      split
      · exact setSlot c _ _
      · exact refl c
    rw [allocOutExt_eq c ext h0] at h
    split at h
    · exact hdrop.trans (overwrite h)
    · exact hdrop.trans (claimReg h)

theorem allocIn32 {off : Int} (h : HostCache.allocIn32 off c = .ok x c') : Extends c c' := by
  rw [allocIn32_eq] at h
  split at h
  · cases h
    exact touch c _
  · exact claimLoaded h

theorem allocOut32 {off : Int} (h : HostCache.allocOut32 off c = .ok x c') : Extends c c' := by
  rw [allocOut32_eq] at h
  split at h
  · exact overwrite h
  · exact claimReg h

theorem allocTemp (h : HostCache.allocTemp c = .ok x c') : Extends c c' := claimReg h

theorem allocConst {v : UInt32} (h : HostCache.allocConst v c = .ok x c') : Extends c c' := by
  by_cases hv : v = 0
  · exact of_zero h (by rw [HostCache.allocConst, if_pos hv]; rfl)
  · rw [allocConst_eq c hv] at h
    split at h
    · cases h
      exact touch c _
    · split at h
      · rename_i ht
        cases h
        exact ((allocTemp ht).trans (emit _ (i := .li v x) rfl)).trans (setConst _ x v)
      · cases h

end Extends

namespace Appends

open HostCache

theorem fpWriteback (c : HostCache) (r : Fin 8) : Appends c (c.fpWriteback r) := by
  unfold HostCache.fpWriteback
  dsimp only
  split
  · split
    · rename_i size off _
      exact (emit c (i := .fst size (FpReg.ofSlot r) off) rfl).trans (of_builder rfl rfl)
    · exact of_builder rfl rfl
  · exact refl c

theorem fpFree (c : HostCache) (r : Fin 8) : Appends c (c.fpFree r) :=
  (fpWriteback c r).trans (of_builder rfl rfl)

theorem flushPass (c : HostCache) (mask : UInt32) (extended : Bool) :
    Appends c (c.flushPass mask extended) := by
  refine foldl (fun c r => ?_) _ c
  split
  · exact (Extends.writeback c r).toAppends
  · exact refl c

theorem flushAll (c : HostCache) : Appends c c.flushAll := by
  have hrelease (c : HostCache) : Appends c (c.releaseIdle 0) := by
    refine foldl (fun c r => ?_) _ c
    dsimp only
    split
    · exact of_builder rfl rfl
    · exact refl c
  have hstored := (flushPass c 0 false).trans (flushPass (c.flushPass 0 false) 0 true)
  have hfp := hstored.trans (foldl fpFree (List.finRange 8) _)
  exact hfp.trans (hrelease _)

theorem clobberFp (c : HostCache) (off size : Int) : Appends c (c.clobberFp off size) := by
  refine foldl (fun c r => ?_) _ c
  split
  · exact fpFree c r
  · exact refl c

end Appends

def Kept (c c' : HostCache) : Prop :=
  ∀ r, (c.slot r).Pinned → (c'.slot r).Pinned ∧ (c'.slot r).content.base = (c.slot r).content.base

namespace Kept

open HostCache

variable {c c' c'' : HostCache} {r : Fin 9} {x : HostReg} {g : GuestReg}

theorem refl (c : HostCache) : Kept c c := fun _ h => ⟨h, rfl⟩

theorem trans (h : Kept c c') (h' : Kept c' c'') : Kept c c'' := fun r hr =>
  ⟨(h' r (h r hr).1).1, (h' r (h r hr).1).2.trans (h r hr).2⟩

theorem touch (c : HostCache) (r : Fin 9) : Kept c (c.touch r) := by
  intro r' hr'
  by_cases he : r = r'
  · subst he
    rw [slot_touch_self]
    exact ⟨⟨hr'.1, .inl rfl⟩, rfl⟩
  · rw [slot_touch_of_ne _ he]
    exact ⟨hr', rfl⟩

theorem replace {s : Slot} (hr : ¬ (c.slot r).Pinned) : Kept c (c.replace r s) := by
  intro r' hr'
  have he : r ≠ r' := fun he => hr (he ▸ hr')
  rw [slot_replace_of_ne _ _ he]
  exact ⟨hr', rfl⟩

theorem recast {s : Slot} (hs : s.content.base = (c.slot r).content.base)
    (hb : (c.slot r).busy = true → s.busy = true) : Kept c (c.setSlot r s) := by
  intro r' hr'
  by_cases he : r = r'
  · subst he
    rw [slot_setSlot_self]
    refine ⟨⟨fun hu => hr'.1 ?_, hr'.2.imp hb fun ht => ?_⟩, hs⟩
    · rw [hu] at hs
      cases hc : (c.slot r).content <;> rw [hc] at hs <;> cases hs
    · rw [ht] at hs
      cases hc : s.content <;> rw [hc] at hs <;> cases hs
  · rw [slot_setSlot_of_ne _ _ he]
    exact ⟨hr', rfl⟩

theorem emit (c : HostCache) (i : Ir.Instr String) : Kept c (c.emit i) := fun _ h => ⟨h, rfl⟩

theorem setConst (c : HostCache) (x : HostReg) (v : UInt32) : Kept c (c.setConst x v) := by
  unfold HostCache.setConst modifySlot
  split
  · exact recast rfl id
  · exact refl c

def Gives (c : HostCache) (x : HostReg) (k : Content) : Prop :=
  ∃ r, x = .ofSlot r ∧ (c.slot r).busy = true ∧ (c.slot r).content.base = k

theorem claimReg {content : Content} {dirty : Bool}
    (h : HostCache.claimReg content dirty c = .ok x c') :
    Kept c c' ∧ Gives c' x content.base ∧ ∃ r, x = .ofSlot r ∧ ¬ (c.slot r).Pinned := by
  obtain ⟨r, hr, rfl, rfl⟩ := claimReg_ok h
  refine ⟨replace hr, ⟨r, rfl, ?_⟩, r, rfl, hr⟩
  rw [slot_replace_self]
  exact ⟨rfl, rfl⟩

theorem claimLoaded {content : Content} (h : HostCache.claimLoaded content c = .ok x c') :
    Kept c c' ∧ Gives c' x content.base := by
  obtain ⟨r, hr, rfl, rfl⟩ := claimLoaded_ok h
  refine ⟨(replace hr).trans (emit _ _), r, rfl, ?_⟩
  rw [slot_emit, slot_replace_self]
  exact ⟨rfl, rfl⟩

theorem touch_gives (c : HostCache) {k : Content} (hr : (c.slot r).content.base = k) :
    Gives (c.touch r) (.ofSlot r) k := by
  refine ⟨r, rfl, ?_⟩
  rw [slot_touch_self]
  exact ⟨rfl, hr⟩

theorem overwrite {content : Content} (hr : (c.slot r).content.base = content.base)
    (h : HostCache.overwrite r content c = .ok x c') : Kept c c' ∧ Gives c' x content.base := by
  cases h
  have hk : Kept c (c.setSlot r { c.slot r with content, dirty := true, isConst := false }) :=
    recast hr.symm id
  refine ⟨hk.trans (touch _ r), touch_gives _ ?_⟩
  rw [slot_setSlot_self]

theorem materialize {lo : Fin 9} {ext : Extension} (hlo : (c.slot lo).content.base = .low g none)
    (h : HostCache.materialize g lo ext c = .ok x c') : Kept c c' ∧ Gives c' x (.high g) := by
  obtain ⟨r, hr, rfl, rfl⟩ := materialize_ok h
  have hlo' : ((c.touch lo).slot lo).Pinned := by
    obtain ⟨ext', he⟩ := Content.base_eq_low hlo
    refine ⟨?_, .inl ?_⟩ <;> rw [slot_touch_self]
    rw [he]
    exact fun hu => nomatch hu
  have hne : r ≠ lo := fun he => hr (he ▸ hlo')
  let c₁ := (c.touch lo).replace r (.fresh (.high g) (c.slot lo).dirty)
  have himp : Kept c₁ (c₁.emitImplied lo r ext) ∧ ∀ r', ((c₁.emitImplied lo r ext).slot r').content =
      (c₁.slot r').content ∧ ((c₁.emitImplied lo r ext).slot r').busy = (c₁.slot r').busy := by
    have hconst (c₂ : HostCache) (v : UInt32) (r' : Fin 9) :
        ((c₂.setConst (.ofSlot r) v).slot r').content = (c₂.slot r').content ∧
          ((c₂.setConst (.ofSlot r) v).slot r').busy = (c₂.slot r').busy := by
      rw [HostCache.setConst, modifySlot_ofSlot]
      by_cases he : r = r'
      · subst he
        rw [slot_setSlot_self]
        exact ⟨rfl, rfl⟩
      · rw [slot_setSlot_of_ne _ _ he]
        exact ⟨rfl, rfl⟩
    cases ext with
    | sign => exact ⟨emit _ _, fun _ => ⟨rfl, rfl⟩⟩
    | zero => exact ⟨(emit _ _).trans (setConst _ _ _), hconst _ _⟩
    | one => exact ⟨(emit _ _).trans (setConst _ _ _), hconst _ _⟩
  have hbase : ((c₁.emitImplied lo r ext).slot lo).content.base = .low g none := by
    rw [(himp.2 lo).1, slot_replace_of_ne _ _ hne, slot_touch_self]
    exact hlo
  refine ⟨(((touch c lo).trans (replace hr)).trans himp.1).trans (recast hbase.symm id), r, rfl, ?_⟩
  change (((c₁.emitImplied lo r ext).setSlot lo _).slot r).busy = true ∧
    (((c₁.emitImplied lo r ext).setSlot lo _).slot r).content.base = _
  rw [slot_setSlot_of_ne _ _ hne.symm, (himp.2 r).1, (himp.2 r).2, slot_replace_self]
  exact ⟨rfl, rfl⟩

theorem allocInLow (h0 : g.val ≠ 0) (h : HostCache.allocInLow g c = .ok x c') :
    Kept c c' ∧ Gives c' x (.low g none) := by
  rw [allocInLow_eq c h0] at h
  split at h
  · rename_i hf
    cases h
    exact ⟨touch c _, touch_gives c (findLow?_some hf)⟩
  · exact claimLoaded h

theorem allocInHigh (h0 : g.val ≠ 0) (h : HostCache.allocInHigh g c = .ok x c') :
    Kept c c' ∧ Gives c' x (.high g) := by
  rw [allocInHigh_eq c h0] at h
  split at h
  · rename_i hf
    cases h
    exact ⟨touch c _, touch_gives c (findHigh?_some hf)⟩
  · split at h
    · rename_i hl
      split at h
      · exact materialize (findLow?_some hl) h
      · exact claimLoaded h
    · exact claimLoaded h

theorem allocOutHigh (h0 : g.val ≠ 0) (h : HostCache.allocOutHigh g c = .ok x c') :
    Kept c c' ∧ Gives c' x (.high g) := by
  have hsplit : Kept c (c.splitLow g) := by
    unfold HostCache.splitLow
    split
    · rename_i hf
      exact recast (findLow?_some hf).symm id
    · exact refl c
  rw [allocOutHigh_eq c h0] at h
  split at h
  · rename_i hf
    obtain ⟨hk, hg⟩ := overwrite (findHigh?_some hf) h
    exact ⟨hsplit.trans hk, hg⟩
  · obtain ⟨hk, hg, -⟩ := claimReg h
    exact ⟨hsplit.trans hk, hg⟩

end Kept

end Recompiler
