import Recompiler.Cpu.Layout
import Recompiler.Proofs.Registers
import Recompiler.Proofs.Slots
import Recompiler.Proofs.Words

/-!
The words of the CPU state as variables: a write changes one of them, and the words with the
rest of the machine make up the state.
-/

namespace Recompiler

theorem lowWord_joinWords (hi lo : UInt32) : lowWord (joinWords hi lo) = lo := by
  apply UInt32.eq_of_toBitVec_eq
  rw [lowWord_toBitVec, joinWords_toBitVec, BitVec.setWidth_append]
  simp

theorem highWord_joinWords (hi lo : UInt32) : highWord (joinWords hi lo) = hi := by
  apply UInt32.eq_of_toBitVec_eq
  rw [highWord_toBitVec, joinWords_toBitVec]
  apply BitVec.eq_of_getLsbD_eq
  intro i hi'
  rw [BitVec.getLsbD_extractLsb', BitVec.getLsbD_append]
  simp [hi']

theorem joinWords_high_low (v : UInt64) : joinWords (highWord v) (lowWord v) = v := by
  apply UInt64.eq_of_toBitVec_eq
  rw [joinWords_toBitVec, highWord_toBitVec, lowWord_toBitVec]
  apply BitVec.eq_of_getLsbD_eq
  intro i hi
  rw [BitVec.getLsbD_append]
  by_cases h : i < 32
  · simp [h]
  · simp [h, show i - 32 < 32 by omega, show 32 + (i - 32) = i by omega]

theorem eq_of_words {v w : UInt64} (hh : highWord v = highWord w) (hl : lowWord v = lowWord w) :
    v = w := by
  rw [← joinWords_high_low v, ← joinWords_high_low w, hh, hl]

namespace Cpu

namespace Field

/-- The byte offset of a word of the state. -/
def offset : Field → Int
  | .callId => 16
  | .save slot => 24 + 4 * slot.val
  | .gpr r high => 64 + 8 * r.val + if high then 4 else 0
  | .hi high => 320 + if high then 4 else 0
  | .lo high => 328 + if high then 4 else 0
  | .fpr r high => 336 + 8 * r.val + if high then 4 else 0
  | .pc => 592
  | .delay => 596
  | .cycle => 600
  | .nextEvent => 604
  | .leave => 608
  | .lastCell => 612
  | .callAddr => 616
  | .callOp => 620
  | .callCount => 624
  | .fcr0 => 628
  | .fcr31 => 632
  | .llBit => 636
  | .ramSize => 640

def ofGuest (g : GuestReg) (high : Bool) : Field :=
  if h : g.val < 32 then .gpr ⟨g.val, h⟩ high else if g = .hi then .hi high else .lo high

end Field

theorem field?_offset (f : Field) : field? f.offset = some f := by
  cases f with
  | gpr r high => revert r high; decide
  | fpr r high => revert r high; decide
  | save slot => revert slot; decide
  | hi high => revert high; decide
  | lo high => revert high; decide
  | _ => rfl

theorem offset_fieldAt? {w : Nat} {f : Field} (h : fieldAt? w = some f) : f.offset = 4 * w := by
  unfold fieldAt? at h
  split at h
  · cases h
    subst_vars
    rfl
  split at h
  · cases h
    simp only [Field.offset]
    omega
  split at h
  · cases h
    simp only [Field.offset, beq_iff_eq]
    split <;> omega
  split at h
  · cases h
    simp only [Field.offset, beq_iff_eq]
    split <;> omega
  split at h
  · cases h
    simp only [Field.offset, beq_iff_eq]
    split <;> omega
  split at h
  · cases h
    simp only [Field.offset, beq_iff_eq]
    split <;> omega
  split at h <;> cases h <;> rfl

theorem offset_of_field? {off : Int} {f : Field} (h : field? off = some f) : f.offset = off := by
  unfold field? at h
  split at h
  · rw [offset_fieldAt? h]
    omega
  · cases h

theorem getField_setField_self (c : Cpu) {f : Field} (v : UInt32) (h : f ≠ .ramSize) :
    (c.setField f v).getField f = v := by
  cases f with
  | gpr r high => cases high <;> simp [getField, setField, half, setHalf, lowWord_joinWords,
      highWord_joinWords]
  | fpr r high => cases high <;> simp [getField, setField, half, setHalf, lowWord_joinWords,
      highWord_joinWords]
  | hi high => cases high <;> simp [getField, setField, half, setHalf, lowWord_joinWords,
      highWord_joinWords]
  | lo high => cases high <;> simp [getField, setField, half, setHalf, lowWord_joinWords,
      highWord_joinWords]
  | save slot => simp [getField, setField]
  | ramSize => exact absurd rfl h
  | _ => rfl

theorem half_setHalf (v : UInt64) {a b : Bool} (w : UInt32) (h : a ≠ b) :
    half (setHalf v a w) b = half v b := by
  cases a <;> cases b <;> first | exact absurd rfl h | skip
  · simp [half, setHalf, highWord_joinWords]
  · simp [half, setHalf, lowWord_joinWords]

theorem setHalf_setHalf (v : UInt64) (a : Bool) (w w' : UInt32) :
    setHalf (setHalf v a w) a w' = setHalf v a w' := by
  cases a <;> simp [setHalf, highWord_joinWords, lowWord_joinWords]

theorem half_get_put {n : Nat} (xs : Vector UInt64 n) {r r' : Fin n} {a b : Bool} (w : UInt32)
    (h : r = r' → a ≠ b) :
    half ((xs.put r (setHalf (xs.get r) a w)).get r') b = half (xs.get r') b := by
  by_cases hr : r = r'
  · subst hr
    rw [Vector.get_put_self, half_setHalf _ _ (h rfl)]
  · rw [Vector.get_put_of_ne _ _ hr]

theorem getField_setField_of_ne (c : Cpu) {f f' : Field} (v : UInt32) (h : f ≠ f') :
    (c.setField f v).getField f' = c.getField f' := by
  cases f with
  | gpr r a =>
    cases f' with
    | gpr r' b => exact half_get_put c.gpr v fun hr ha => h (by rw [hr, ha])
    | _ => rfl
  | fpr r a =>
    cases f' with
    | fpr r' b => exact half_get_put c.fpr v fun hr ha => h (by rw [hr, ha])
    | _ => rfl
  | hi a =>
    cases f' with
    | hi b => exact half_setHalf c.hi v fun ha => h (by rw [ha])
    | _ => rfl
  | lo a =>
    cases f' with
    | lo b => exact half_setHalf c.lo v fun ha => h (by rw [ha])
    | _ => rfl
  | save s =>
    cases f' with
    | save s' => exact Vector.get_put_of_ne _ _ fun hs => h (by rw [hs])
    | _ => rfl
  | _ =>
    cases f'
    all_goals first | exact absurd rfl h | rfl

theorem setField_setField_self (c : Cpu) (f : Field) (v w : UInt32) :
    (c.setField f v).setField f w = c.setField f w := by
  cases f with
  | gpr r a => simp only [setField, Vector.get_put_self, setHalf_setHalf, Vector.put_put]
  | fpr r a => simp only [setField, Vector.get_put_self, setHalf_setHalf, Vector.put_put]
  | hi a => simp only [setField, setHalf_setHalf]
  | lo a => simp only [setField, setHalf_setHalf]
  | save s => simp only [setField, Vector.put_put]
  | _ => rfl

theorem loadWord_of_field? (c : Cpu) {off : Int} {f : Field} (h : field? off = some f) :
    c.loadWord off = c.getField f := by
  rw [loadWord, h]

theorem storeWord_of_field? (c : Cpu) {off : Int} {f : Field} (v : UInt32)
    (h : field? off = some f) : c.storeWord off v = c.setField f v := by
  rw [storeWord, h]

/-- The offset of a word that can be written: the size of the RAM cannot. -/
def IsWord (off : Int) : Prop := ∃ f : Field, f ≠ .ramSize ∧ f.offset = off

theorem IsWord.field? {off : Int} (h : IsWord off) :
    ∃ f, Cpu.field? off = some f ∧ f ≠ .ramSize := by
  obtain ⟨f, hf, rfl⟩ := h
  exact ⟨f, field?_offset f, hf⟩

instance (off : Int) : Decidable (IsWord off) :=
  decidable_of_iff (∃ f ∈ field? off, f ≠ .ramSize)
    ⟨fun ⟨f, hf, hne⟩ => ⟨f, hne, offset_of_field? hf⟩, fun h => h.field?⟩

theorem loadWord_storeWord_self (c : Cpu) {off : Int} (v : UInt32) (h : IsWord off) :
    (c.storeWord off v).loadWord off = v := by
  obtain ⟨f, hf, hg⟩ := h.field?
  rw [storeWord_of_field? c v hf, loadWord_of_field? _ hf, getField_setField_self c v hg]

theorem loadWord_storeWord_of_ne (c : Cpu) {off off' : Int} (v : UInt32) (h : off ≠ off') :
    (c.storeWord off v).loadWord off' = c.loadWord off' := by
  cases hf : field? off with
  | none => rw [storeWord, hf]
  | some f =>
    rw [storeWord_of_field? c v hf]
    cases hf' : field? off' with
    | none => rw [loadWord, loadWord, hf']
    | some f' =>
      rw [loadWord_of_field? _ hf', loadWord_of_field? _ hf', getField_setField_of_ne]
      rintro rfl
      exact h ((offset_of_field? hf).symm.trans (offset_of_field? hf'))

theorem storeWord_storeWord_self (c : Cpu) (off : Int) (v w : UInt32) :
    (c.storeWord off v).storeWord off w = c.storeWord off w := by
  cases hf : field? off with
  | none => simp only [storeWord, hf]
  | some f =>
    rw [storeWord_of_field? c v hf, storeWord_of_field? _ w hf, storeWord_of_field? c w hf,
      setField_setField_self]

/-- All of the state but its words. -/
structure SameRest (c d : Cpu) : Prop where
  cop0 : c.cop0 = d.cop0
  tlb : c.tlb = d.tlb
  mem : c.mem = d.mem
  window : c.window = d.window
  effects : c.effects = d.effects

theorem SameRest.refl (c : Cpu) : SameRest c c := ⟨rfl, rfl, rfl, rfl, rfl⟩

theorem SameRest.trans {c d e : Cpu} (h : SameRest c d) (h' : SameRest d e) : SameRest c e :=
  ⟨h.cop0.trans h'.cop0, h.tlb.trans h'.tlb, h.mem.trans h'.mem, h.window.trans h'.window,
    h.effects.trans h'.effects⟩

theorem SameRest.symm {c d : Cpu} (h : SameRest c d) : SameRest d c :=
  ⟨h.cop0.symm, h.tlb.symm, h.mem.symm, h.window.symm, h.effects.symm⟩

theorem sameRest_setField (c : Cpu) (f : Field) (v : UInt32) : SameRest (c.setField f v) c := by
  cases f <;> exact ⟨rfl, rfl, rfl, rfl, rfl⟩

theorem sameRest_storeWord (c : Cpu) (off : Int) (v : UInt32) : SameRest (c.storeWord off v) c := by
  unfold storeWord
  split
  · exact sameRest_setField c _ v
  · exact .refl c

theorem eq_of_half {n : Nat} {xs ys : Vector UInt64 n}
    (h : ∀ r b, half (xs.get r) b = half (ys.get r) b) : xs = ys := by
  apply Vector.ext
  intro i hi
  exact eq_of_words (h ⟨i, hi⟩ true) (h ⟨i, hi⟩ false)

/-- The words and the rest make up the state. -/
theorem ext_words {c d : Cpu} (hw : ∀ off, IsWord off → c.loadWord off = d.loadWord off)
    (hr : SameRest c d) : c = d := by
  have hf (f : Field) (hg : f ≠ .ramSize) : c.getField f = d.getField f := by
    have h := hw f.offset ⟨f, hg, rfl⟩
    rwa [loadWord_of_field? c (field?_offset f), loadWord_of_field? d (field?_offset f)] at h
  have hgpr : c.gpr = d.gpr := eq_of_half fun r b => hf (.gpr r b) nofun
  have hfpr : c.fpr = d.fpr := eq_of_half fun r b => hf (.fpr r b) nofun
  have hhi : c.hi = d.hi := eq_of_words (hf (.hi true) nofun) (hf (.hi false) nofun)
  have hlo : c.lo = d.lo := eq_of_words (hf (.lo true) nofun) (hf (.lo false) nofun)
  have hpc : c.pc = d.pc := hf .pc nofun
  have hdelay : c.delay = d.delay := hf .delay nofun
  have hcycle : c.cycle = d.cycle := hf .cycle nofun
  have hnext : c.nextEvent = d.nextEvent := hf .nextEvent nofun
  have hleave : c.leave = d.leave := hf .leave nofun
  have h0 : c.fcr0 = d.fcr0 := hf .fcr0 nofun
  have h31 : c.fcr31 = d.fcr31 := hf .fcr31 nofun
  have hll : c.llBit = d.llBit := hf .llBit nofun
  have hframe : c.frame = d.frame := by
    have hid : c.frame.callId = d.frame.callId := hf .callId nofun
    have hcell : c.frame.lastCell = d.frame.lastCell := hf .lastCell nofun
    have haddr : c.frame.callAddr = d.frame.callAddr := hf .callAddr nofun
    have hop : c.frame.callOp = d.frame.callOp := hf .callOp nofun
    have hcount : c.frame.callCount = d.frame.callCount := hf .callCount nofun
    have hsave : c.frame.save = d.frame.save :=
      Vector.ext fun i hi => hf (.save ⟨i, hi⟩) nofun
    cases hc : c.frame
    cases hd : d.frame
    simp only [hc, hd] at hid hcell haddr hop hcount hsave
    subst_vars
    rfl
  obtain ⟨hcop0, htlb, hmem, hwindow, heffects⟩ := hr
  cases c
  cases d
  simp only at *
  subst_vars
  rfl

theorem storeWord_loadWord (c : Cpu) {off : Int} (h : IsWord off) :
    c.storeWord off (c.loadWord off) = c := by
  refine ext_words (fun off' _ => ?_) (sameRest_storeWord c _ _)
  by_cases he : off = off'
  · subst he
    exact loadWord_storeWord_self c _ h
  · exact loadWord_storeWord_of_ne c _ he

theorem storeWord_comm (c : Cpu) {off off' : Int} (v w : UInt32) (h : IsWord off)
    (h' : IsWord off') (hne : off ≠ off') :
    (c.storeWord off v).storeWord off' w = (c.storeWord off' w).storeWord off v := by
  refine ext_words (fun o _ => ?_) ?_
  · by_cases he : o = off'
    · subst he
      rw [loadWord_storeWord_self _ _ h', loadWord_storeWord_of_ne _ _ hne,
        loadWord_storeWord_self _ _ h']
    · rw [loadWord_storeWord_of_ne _ _ (Ne.symm he)]
      by_cases ho : o = off
      · subst ho
        rw [loadWord_storeWord_self _ _ h, loadWord_storeWord_self _ _ h]
      · rw [loadWord_storeWord_of_ne _ _ (Ne.symm ho), loadWord_storeWord_of_ne _ _ (Ne.symm ho),
          loadWord_storeWord_of_ne _ _ (Ne.symm he)]
  · exact ((sameRest_storeWord _ _ _).trans (sameRest_storeWord _ _ _)).trans
      ((sameRest_storeWord _ _ _).trans (sameRest_storeWord _ _ _)).symm

theorem field?_lowWord (g : GuestReg) : field? (Layout.lowWord g) = some (.ofGuest g false) := by
  revert g
  decide

theorem field?_highWord (g : GuestReg) : field? (Layout.highWord g) = some (.ofGuest g true) := by
  revert g
  decide

theorem ofGuest_ne_ramSize (g : GuestReg) (high : Bool) : Field.ofGuest g high ≠ .ramSize := by
  unfold Field.ofGuest
  split
  · nofun
  · split <;> nofun

theorem isWord_lowWord (g : GuestReg) : IsWord (Layout.lowWord g) :=
  ⟨.ofGuest g false, ofGuest_ne_ramSize g false, offset_of_field? (field?_lowWord g)⟩

theorem isWord_highWord (g : GuestReg) : IsWord (Layout.highWord g) :=
  ⟨.ofGuest g true, ofGuest_ne_ramSize g true, offset_of_field? (field?_highWord g)⟩

theorem getField_ofGuest (c : Cpu) (g : GuestReg) (high : Bool) :
    c.getField (.ofGuest g high) = half (c.guest g) high := by
  unfold Field.ofGuest guest
  split
  · rfl
  · split <;> rfl

theorem loadWord_lowWord (c : Cpu) (g : GuestReg) :
    c.loadWord (Layout.lowWord g) = lowWord (c.guest g) := by
  rw [loadWord_of_field? c (field?_lowWord g), getField_ofGuest]
  rfl

theorem loadWord_highWord (c : Cpu) (g : GuestReg) :
    c.loadWord (Layout.highWord g) = highWord (c.guest g) := by
  rw [loadWord_of_field? c (field?_highWord g), getField_ofGuest]
  rfl

theorem lowWord_ne_highWord (g h : GuestReg) : Layout.lowWord g ≠ Layout.highWord h := by
  unfold Layout.lowWord Layout.highWord
  omega

theorem lowWord_inj {g h : GuestReg} (e : Layout.lowWord g = Layout.lowWord h) : g = h := by
  unfold Layout.lowWord at e
  exact Fin.ext (by omega)

theorem highWord_inj {g h : GuestReg} (e : Layout.highWord g = Layout.highWord h) : g = h := by
  unfold Layout.highWord at e
  exact Fin.ext (by omega)

theorem setField_ofGuest (c : Cpu) {g : GuestReg} (h : g.val ≠ 0) (high : Bool) (v : UInt32) :
    c.setField (.ofGuest g high) v = c.setGuest g (setHalf (c.guest g) high v) := by
  unfold Field.ofGuest setGuest guest
  split
  · rw [setReg_of_ne]
    · rfl
    · intro hz
      exact h (congrArg Fin.val hz)
  · split <;> rfl

theorem setGuest_guest (c : Cpu) (g : GuestReg) (v w : UInt64) (h : g.val ≠ 0) :
    (c.setGuest g v).guest g = v ∧ (c.setGuest g v).setGuest g w = c.setGuest g w := by
  unfold setGuest guest
  split
  · have hz : (⟨g.val, ‹_›⟩ : Reg) ≠ Reg.zero := fun hz => h (congrArg Fin.val hz)
    rw [setReg_of_ne hz, setReg_of_ne hz, setReg_of_ne hz]
    simp only [reg, Vector.get_put_self, Vector.put_put, and_self]
  · split <;> exact ⟨rfl, rfl⟩

theorem setGuest_eq (c : Cpu) {g : GuestReg} (h : g.val ≠ 0) (v : UInt64) :
    c.setGuest g v = (c.storeWord (Layout.lowWord g) (lowWord v)).storeWord (Layout.highWord g)
      (highWord v) := by
  rw [storeWord_of_field? _ _ (field?_lowWord g), storeWord_of_field? _ _ (field?_highWord g),
    setField_ofGuest c h, setField_ofGuest _ h, (setGuest_guest c g _ 0 h).1,
    (setGuest_guest c g _ _ h).2]
  simp only [setHalf, reduceIte, Bool.false_eq_true, lowWord_joinWords, joinWords_high_low]

end Cpu

end Recompiler
