import Recompiler.Proofs.FpAgreement

/-!
What requests for registers do, one thing at a time. A request stores registers, fills one, and
gives registers new contents, and nothing else. What each of these keeps every request keeps.
-/

namespace Recompiler

open Ir

/-- Instructions that write a register, and read at most another one or the context. -/
def Ir.Instr.isFill {L : Type} : Ir.Instr L → Bool
  | .li .. | .ldc .. | .const .. | .fld .. => true
  | _ => false

namespace HostCache

/-- The way from one assignment to another. The words that get a register have their offsets in
`P`, and the floating-point values their size and offset in `F`. -/
inductive Assigns (P : Int → Prop) (F : FpSize → Int → Prop) : HostCache → HostCache → Prop
  | refl (c : HostCache) : Assigns P F c c
  | trans {c c' c'' : HostCache} : Assigns P F c c' → Assigns P F c' c'' → Assigns P F c c''
  | recast {c c' : HostCache} (hb : c'.builder = c.builder)
      (hw : ∀ r off, (c'.slot r).content = .word off →
        (∃ r', (c.slot r').content = .word off) ∨ P off)
      (hf : ∀ r size off, (c'.fpSlots.get r).content = some (size, off) →
        (∃ r', (c.fpSlots.get r').content = some (size, off)) ∨ F size off) : Assigns P F c c'
  | fill (c : HostCache) {i : Ir.Instr String} (h : i.isFill = true) : Assigns P F c (c.emit i)
  | writeback (c : HostCache) (r : Fin 9) : Assigns P F c (c.writeback r)
  | fpWriteback (c : HostCache) (r : Fin 8) : Assigns P F c (c.fpWriteback r)

namespace Assigns

variable {P : Int → Prop} {F : FpSize → Int → Prop} {c c' : HostCache} {x : HostReg} {y : FpReg}
  {g : GuestReg} {content : Content} {size : FpSize} {off : Int}

theorem shed (hb : c'.builder = c.builder)
    (hw : ∀ r, (c'.slot r).content = .unused ∨ (c'.slot r).content = (c.slot r).content)
    (hf : ∀ r, (c'.fpSlots.get r).content = none ∨
      (c'.fpSlots.get r).content = (c.fpSlots.get r).content) : Assigns P F c c' := by
  refine .recast hb (fun r off ho => .inl ⟨r, ?_⟩) fun r size off ho => .inl ⟨r, ?_⟩
  · rcases hw r with h | h
    · rw [h] at ho
      cases ho
    · exact h ▸ ho
  · rcases hf r with h | h
    · rw [h] at ho
      cases ho
    · exact h ▸ ho

theorem foldl {α : Type} {f : HostCache → α → HostCache} (hf : ∀ c a, Assigns P F c (f c a))
    (as : List α) (c : HostCache) : Assigns P F c (as.foldl f c) := by
  induction as generalizing c with
  | nil => exact .refl c
  | cons a as ih => exact (hf c a).trans (ih _)

theorem setSlot (c : HostCache) (r : Fin 9) (s : Slot)
    (h : ∀ off, s.content = .word off → (c.slot r).content = .word off ∨ P off) :
    Assigns P F c (c.setSlot r s) := by
  refine .recast rfl (fun r' off hr' => ?_) fun r' _ _ hr' => .inl ⟨r', hr'⟩
  by_cases he : r = r'
  · subst he
    rw [slot_setSlot_self] at hr'
    exact (h off hr').imp_left fun hr => ⟨r, hr⟩
  · rw [slot_setSlot_of_ne _ _ he] at hr'
    exact .inl ⟨r', hr'⟩

theorem touch (c : HostCache) (r : Fin 9) : Assigns P F c (c.touch r) := by
  refine shed rfl (fun r' => .inr ?_) fun _ => .inr rfl
  by_cases he : r = r'
  · subst he
    rw [slot_touch_self]
  · rw [slot_touch_of_ne _ he]

theorem replace (c : HostCache) (r : Fin 9) {s : Slot} (h : ∀ off, s.content = .word off → P off) :
    Assigns P F c (c.replace r s) :=
  .trans (.trans (.writeback c r) (setSlot _ r s fun off ho => .inr (h off ho))) (touch _ r)

theorem setConst (c : HostCache) (x : HostReg) (v : UInt32) : Assigns P F c (c.setConst x v) := by
  unfold HostCache.setConst modifySlot
  split
  · exact setSlot c _ _ fun _ h => .inl h
  · exact .refl c

theorem fpPut (c : HostCache) (r : Fin 8) (clock : Nat) {s : FpSlot}
    (h : ∀ size off, s.content = some (size, off) →
      (c.fpSlots.get r).content = some (size, off) ∨ F size off) :
    Assigns P F c { c with clock := clock, fpSlots := c.fpSlots.put r s } := by
  refine .recast rfl (fun r' _ hr' => .inl ⟨r', hr'⟩) fun r' size off hr' => ?_
  change ((c.fpSlots.put r s).get r').content = _ at hr'
  by_cases he : r = r'
  · subst he
    rw [Vector.get_put_self] at hr'
    exact (h size off hr').imp_left fun hr => ⟨r, hr⟩
  · rw [Vector.get_put_of_ne _ _ he] at hr'
    exact .inl ⟨r', hr'⟩

theorem fpTouch (c : HostCache) (r : Fin 8) : Assigns P F c (c.fpTouch r) :=
  fpPut c r _ fun _ _ h => .inl h

theorem fpFree (c : HostCache) (r : Fin 8) : Assigns P F c (c.fpFree r) :=
  .trans (.fpWriteback c r) (fpPut _ r _ (s := .empty) (by rintro _ _ ⟨⟩))

theorem freeWhere (c : HostCache) (p : FpSlot → Bool) (rs : List (Fin 8)) :
    Assigns P F c (c.freeWhere p rs) := by
  refine foldl (fun c r => ?_) rs c
  split
  · exact fpFree c r
  · exact .refl c

theorem claimReg {dirty : Bool} (h : HostCache.claimReg content dirty c = .ok x c')
    (hc : ∀ off, content = .word off → P off) : Assigns P F c c' := by
  obtain ⟨r, -, -, rfl⟩ := claimReg_ok h
  exact replace c r hc

theorem claimLoaded (h : HostCache.claimLoaded content c = .ok x c')
    (hc : ∀ off, content = .word off → P off) : Assigns P F c c' := by
  obtain ⟨r, -, -, rfl⟩ := claimLoaded_ok h
  exact (replace c r (s := .fresh content false) hc).trans (.fill _ rfl)

theorem overwrite {r : Fin 9} (h : HostCache.overwrite r content c = .ok x c')
    (hc : ∀ off, content = .word off → P off) : Assigns P F c c' := by
  cases h
  exact .trans (setSlot c r _ fun off ho => .inr (hc off ho)) (touch _ r)

theorem materialize {lo : Fin 9} {ext : Extension}
    (h : HostCache.materialize g lo ext c = .ok x c') : Assigns P F c c' := by
  obtain ⟨r, -, -, rfl⟩ := materialize_ok h
  have hclaimed : Assigns P F c ((c.touch lo).replace r (.fresh (.high g) (c.slot lo).dirty)) :=
    .trans (touch c lo) (replace _ r (s := .fresh (.high g) (c.slot lo).dirty) (by rintro _ ⟨⟩))
  refine (hclaimed.trans ?_).trans (setSlot _ lo _ (by rintro _ ⟨⟩))
  cases ext with
  | sign => exact .fill _ rfl
  | zero => exact .trans (.fill _ (i := .li 0 (.ofSlot r)) rfl) (setConst _ _ _)
  | one => exact .trans (.fill _ (i := .li 0xffffffff (.ofSlot r)) rfl) (setConst _ _ _)

theorem allocInLow (h : HostCache.allocInLow g c = .ok x c') : Assigns P F c c' := by
  by_cases h0 : g.val = 0
  · rw [HostCache.allocInLow, if_pos h0] at h
    cases h
    exact .refl c
  · rw [allocInLow_eq c h0] at h
    split at h
    · cases h
      exact touch c _
    · exact claimLoaded h (by rintro _ ⟨⟩)

theorem allocInHigh (h : HostCache.allocInHigh g c = .ok x c') : Assigns P F c c' := by
  by_cases h0 : g.val = 0
  · rw [HostCache.allocInHigh, if_pos h0] at h
    cases h
    exact .refl c
  · rw [allocInHigh_eq c h0] at h
    split at h
    · cases h
      exact touch c _
    · split at h
      · split at h
        · exact materialize h
        · exact claimLoaded h (by rintro _ ⟨⟩)
      · exact claimLoaded h (by rintro _ ⟨⟩)

theorem allocOutLow (h : HostCache.allocOutLow g c = .ok x c') : Assigns P F c c' := by
  by_cases h0 : g.val = 0
  · rw [HostCache.allocOutLow, if_pos h0] at h
    cases h
    exact .refl c
  · rw [allocOutLow_eq c h0] at h
    split at h
    · exact claimReg h (by rintro _ ⟨⟩)
    · split at h
      · split at h
        · split at h
          · rename_i hm
            exact (materialize hm).trans (overwrite h (by rintro _ ⟨⟩))
          · cases h
        · exact overwrite h (by rintro _ ⟨⟩)
      · exact overwrite h (by rintro _ ⟨⟩)

theorem allocOutHigh (h : HostCache.allocOutHigh g c = .ok x c') : Assigns P F c c' := by
  by_cases h0 : g.val = 0
  · rw [HostCache.allocOutHigh, if_pos h0] at h
    cases h
    exact .refl c
  · have hsplit : Assigns P F c (c.splitLow g) := by
      unfold splitLow
      split
      · exact setSlot c _ _ (by rintro _ ⟨⟩)
      · exact .refl c
    rw [allocOutHigh_eq c h0] at h
    split at h
    · exact hsplit.trans (overwrite h (by rintro _ ⟨⟩))
    · exact hsplit.trans (claimReg h (by rintro _ ⟨⟩))

theorem allocOutExt {ext : Extension} (h : HostCache.allocOutExt g ext c = .ok x c') :
    Assigns P F c c' := by
  by_cases h0 : g.val = 0
  · rw [HostCache.allocOutExt, if_pos h0] at h
    cases h
    exact .refl c
  · have hdrop : Assigns P F c (c.dropHigh g) := by
      unfold dropHigh
      split
      · exact setSlot c _ _ (by rintro _ ⟨⟩)
      · exact .refl c
    rw [allocOutExt_eq c ext h0] at h
    split at h
    · exact hdrop.trans (overwrite h (by rintro _ ⟨⟩))
    · exact hdrop.trans (claimReg h (by rintro _ ⟨⟩))

theorem allocIn32 (h : HostCache.allocIn32 off c = .ok x c') (ho : P off) : Assigns P F c c' := by
  rw [allocIn32_eq] at h
  split at h
  · cases h
    exact touch c _
  · refine claimLoaded h ?_
    rintro _ ⟨⟩
    exact ho

theorem allocOut32 (h : HostCache.allocOut32 off c = .ok x c') (ho : P off) :
    Assigns P F c c' := by
  have hword : ∀ off', Content.word off = .word off' → P off' := by
    rintro _ ⟨⟩
    exact ho
  rw [allocOut32_eq] at h
  split at h
  · exact overwrite h hword
  · exact claimReg h hword

theorem allocTemp (h : HostCache.allocTemp c = .ok x c') : Assigns P F c c' :=
  claimReg h (by rintro _ ⟨⟩)

theorem allocConst {v : UInt32} (h : HostCache.allocConst v c = .ok x c') : Assigns P F c c' := by
  by_cases hv : v = 0
  · rw [HostCache.allocConst, if_pos hv] at h
    cases h
    exact .refl c
  · rw [allocConst_eq c hv] at h
    split at h
    · cases h
      exact touch c _
    · split at h
      · rename_i ht
        cases h
        exact ((allocTemp ht).trans (.fill _ (i := .li v x) rfl)).trans (setConst _ x v)
      · cases h

theorem fpReplace (c : HostCache) (r : Fin 8) {s : FpSlot}
    (h : ∀ size off, s.content = some (size, off) → F size off) :
    Assigns P F c (c.fpReplace r s) := by
  have hput : Assigns P F (c.fpWriteback r)
      { c.fpWriteback r with fpSlots := (c.fpWriteback r).fpSlots.put r s } :=
    fpPut _ r (c.fpWriteback r).clock fun size off ho => .inr (h size off ho)
  exact ((Assigns.fpWriteback c r).trans hput).trans (fpTouch _ r)

theorem fpClaim {dirty : Bool} (h : HostCache.fpClaim size off dirty c = .ok y c')
    (hf : F size off) : Assigns P F c c' := by
  obtain ⟨r, -, -, rfl⟩ := fpClaim_ok h
  refine fpReplace c r ?_
  rintro _ _ ⟨⟩
  exact hf

theorem fpSearched (c : HostCache) (size : FpSize) (off : Int) :
    Assigns P F c (c.fpSearched size off) :=
  freeWhere c (FpSlot.isPartial size off) (List.finRange 8)

theorem allocInFp (h : HostCache.allocInFp off size c = .ok y c') (hf : F size off) :
    Assigns P F c c' := by
  have hsearch : Assigns P F c (c.fpSearched size off) := fpSearched c size off
  generalize hc₁ : c.fpSearched size off = c₁ at hsearch
  have hstate := allocInFp_state h
  rw [hc₁] at hstate
  rcases hstate with ⟨r, -, -, rfl⟩ | ⟨-, c₂, hc₂, rfl⟩
  · exact hsearch.trans (fpTouch c₁ r)
  · exact (hsearch.trans (fpClaim hc₂ hf)).trans (.fill c₂ rfl)

theorem allocOutFp (h : HostCache.allocOutFp off size c = .ok y c') (hf : F size off) :
    Assigns P F c c' := by
  have hsearch : Assigns P F c (c.fpSearched size off) := fpSearched c size off
  generalize hc₁ : c.fpSearched size off = c₁ at hsearch
  have hstate := allocOutFp_state h
  rw [hc₁] at hstate
  rcases hstate with ⟨r, -, -, rfl⟩ | ⟨-, hc⟩
  · have hput : Assigns P F c₁
        { c₁ with fpSlots := c₁.fpSlots.put r { (c₁.fpSlots.get r) with dirty := true } } :=
      fpPut c₁ r c₁.clock fun _ _ ho => .inl ho
    exact (hsearch.trans hput).trans (fpTouch _ r)
  · exact hsearch.trans (fpClaim hc hf)

theorem clobberFp (c : HostCache) (off size : Int) : Assigns P F c (c.clobberFp off size) := by
  rw [clobberFp_eq]
  exact freeWhere c _ _

theorem flushPass (c : HostCache) (mask : UInt32) (extended : Bool) :
    Assigns P F c (c.flushPass mask extended) := by
  refine foldl (fun c r => ?_) _ c
  split
  · exact .writeback c r
  · exact .refl c

theorem flushAll (c : HostCache) : Assigns P F c c.flushAll := by
  have hrelease (c : HostCache) : Assigns P F c (c.releaseIdle 0) := by
    refine foldl (fun c r => ?_) _ c
    dsimp only
    split
    · exact setSlot c r .empty (by rintro _ ⟨⟩)
    · exact .refl c
  have hstored : Assigns P F c ((c.flushPass 0 false).flushPass 0 true) :=
    (flushPass c 0 false).trans (flushPass _ 0 true)
  have hfp (c : HostCache) : Assigns P F c c.flushFp := by
    rw [flushFp_eq]
    exact freeWhere c _ _
  exact (hstored.trans (hfp _)).trans (hrelease _)

theorem dropAll (c : HostCache) : Assigns P F c c.dropAll := by
  refine shed rfl (fun r => ?_) fun r => .inl ?_
  · rw [show c.dropAll.slot r = if (c.slot r).content == .temp then c.slot r else .empty from
      Vector.get_map _ _ _]
    split
    · exact .inr rfl
    · exact .inl rfl
  · rw [HostCache.dropAll, Vector.get_replicate]
    rfl

theorem ended (c : HostCache) : Assigns P F c c.ended := by
  unfold HostCache.ended
  dsimp only
  split
  · refine shed rfl (fun r => ?_) fun r => .inr ?_
    · change ((c.slots.map endSlot).get r).content = _ ∨ ((c.slots.map endSlot).get r).content = _
      rw [Vector.get_map, endSlot]
      split
      · exact .inl rfl
      · exact .inr rfl
    · rw [Vector.get_map]
      rfl
  · exact shed rfl (fun _ => .inr rfl) fun _ => .inr rfl

/-- Words and floating-point values that have a register are among those that had one or got
one. -/
theorem contents (h : Assigns P F c c') :
    (∀ r off, (c'.slot r).content = .word off → (∃ r', (c.slot r').content = .word off) ∨ P off) ∧
      ∀ r size off, (c'.fpSlots.get r).content = some (size, off) →
        (∃ r', (c.fpSlots.get r').content = some (size, off)) ∨ F size off := by
  induction h with
  | refl c => exact ⟨fun r _ hr => .inl ⟨r, hr⟩, fun r _ _ hr => .inl ⟨r, hr⟩⟩
  | trans _ _ ih ih' =>
    refine ⟨fun r off hr => ?_, fun r size off hr => ?_⟩
    · rcases ih'.1 r off hr with ⟨r', hr'⟩ | hp
      · exact ih.1 r' off hr'
      · exact .inr hp
    · rcases ih'.2 r size off hr with ⟨r', hr'⟩ | hf
      · exact ih.2 r' size off hr'
      · exact .inr hf
  | recast _ hw hf => exact ⟨hw, hf⟩
  | fill c => exact ⟨fun r _ hr => .inl ⟨r, hr⟩, fun r _ _ hr => .inl ⟨r, hr⟩⟩
  | writeback c r =>
    have hfp : (c.writeback r).fpSlots = c.fpSlots := (Extends.writeback c r).fpSlots
    refine ⟨fun r' off hr' => .inl ⟨r', ?_⟩, fun r' _ _ hr' => .inl ⟨r', hfp ▸ hr'⟩⟩
    by_cases he : r = r'
    · subst he
      rwa [slot_writeback_self] at hr'
    · rwa [slot_writeback_of_ne _ he] at hr'
  | fpWriteback c r =>
    have hslots : (c.fpWriteback r).slots = c.slots := slots_fpWriteback c r
    refine ⟨fun r' _ hr' => .inl ⟨r', ?_⟩, fun r' _ _ hr' => .inl ⟨r', ?_⟩⟩
    · rwa [slot, hslots] at hr'
    · rw [fpSlots_fpWriteback] at hr'
      by_cases he : r = r'
      · subst he
        rwa [Vector.get_put_self] at hr'
      · rwa [Vector.get_put_of_ne _ _ he] at hr'

theorem words (h : Assigns P F c c') {Q : Int → Prop} (hp : ∀ off, P off → Q off)
    (hc : ∀ r off, (c.slot r).content = .word off → Q off) (r : Fin 9) (off : Int)
    (hr : (c'.slot r).content = .word off) : Q off := by
  rcases h.contents.1 r off hr with ⟨r', hr'⟩ | ho
  · exact hc r' off hr'
  · exact hp off ho

end Assigns

end HostCache

end Recompiler
