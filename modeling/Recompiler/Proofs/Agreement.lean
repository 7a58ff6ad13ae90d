import Recompiler.Proofs.Context
import Recompiler.Proofs.Running

/-!
What the registers of a running program hold. At each point of its emission the register
assignment says which words of the guest are in which registers, and which of them the context
lacks; together with the context they make up one state of the guest.
-/

namespace Recompiler

open Ir

namespace Extension

def word (v : UInt32) : Extension → UInt32
  | .sign => sar32 v 31
  | .zero => 0
  | .one => 0xffffffff

end Extension

namespace Content

/-- The words of the context that a register with the value `v` stands for. -/
def words (v : UInt32) : Content → List (Int × UInt32)
  | .unused | .temp => []
  | .high g => [(Layout.highWord g, v)]
  | .low g none => [(Layout.lowWord g, v)]
  | .low g (some ext) => [(Layout.lowWord g, v), (Layout.highWord g, ext.word v)]
  | .word off => [(off, v)]

/-- The offsets of these words. -/
def offsets : Content → List Int
  | .unused | .temp => []
  | .high g => [Layout.highWord g]
  | .low g none => [Layout.lowWord g]
  | .low g (some _) => [Layout.lowWord g, Layout.highWord g]
  | .word off => [off]

theorem map_words (v : UInt32) (content : Content) :
    (content.words v).map (·.1) = content.offsets := by
  cases content with
  | low g ext => cases ext <;> rfl
  | _ => rfl

theorem nodup_offsets (content : Content) : content.offsets.Nodup := by
  cases content with
  | low g ext =>
    cases ext with
    | none => simp [offsets]
    | some ext => simp [offsets, Cpu.lowWord_ne_highWord]
  | _ => simp [offsets]

theorem mem_offsets_of_words {v : UInt32} {content : Content} {p : Int × UInt32}
    (h : p ∈ content.words v) : p.1 ∈ content.offsets := by
  rw [← map_words v content]
  exact List.mem_map_of_mem h

theorem mem_words_of_offsets {v : UInt32} {content : Content} {off : Int}
    (h : off ∈ content.offsets) : ∃ w, (off, w) ∈ content.words v := by
  rw [← map_words v content] at h
  obtain ⟨⟨_, w⟩, hp, rfl⟩ := List.mem_map.mp h
  exact ⟨w, hp⟩

end Content

namespace Cpu

def storeWords (c : Cpu) (ws : List (Int × UInt32)) : Cpu :=
  ws.foldl (fun c p => c.storeWord p.1 p.2) c

theorem loadWord_storeWords_of_not_mem (c : Cpu) {ws : List (Int × UInt32)} {off : Int}
    (h : off ∉ ws.map (·.1)) : (c.storeWords ws).loadWord off = c.loadWord off := by
  induction ws generalizing c with
  | nil => rfl
  | cons p ws ih =>
    rw [List.map_cons, List.mem_cons] at h
    have hne : p.1 ≠ off := fun he => h (.inl he.symm)
    exact (ih _ fun hm => h (.inr hm)).trans (loadWord_storeWord_of_ne c p.2 hne)

theorem loadWord_storeWords (c : Cpu) {ws : List (Int × UInt32)} {p : Int × UInt32}
    (hp : p ∈ ws) (hn : (ws.map (·.1)).Nodup) (hw : IsWord p.1) :
    (c.storeWords ws).loadWord p.1 = p.2 := by
  induction ws generalizing c with
  | nil => cases hp
  | cons q ws ih =>
    rw [List.map_cons, List.nodup_cons] at hn
    rcases List.mem_cons.mp hp with rfl | hp
    · exact (loadWord_storeWords_of_not_mem _ hn.1).trans (loadWord_storeWord_self c p.2 hw)
    · exact ih _ hp hn.2

theorem loadWord_storeWords_congr {c d : Cpu} {ws : List (Int × UInt32)} {off : Int}
    (hw : off ∈ ws.map (·.1) → IsWord off)
    (h : off ∉ ws.map (·.1) → c.loadWord off = d.loadWord off) :
    (c.storeWords ws).loadWord off = (d.storeWords ws).loadWord off := by
  induction ws generalizing c d with
  | nil => exact h List.not_mem_nil
  | cons p ws ih =>
    rw [List.map_cons, List.mem_cons] at hw h
    refine ih (fun hm => hw (.inr hm)) fun hm => ?_
    by_cases he : off = p.1
    · subst he
      rw [loadWord_storeWord_self c _ (hw (.inl rfl)), loadWord_storeWord_self d _ (hw (.inl rfl))]
    · rw [loadWord_storeWord_of_ne c _ (Ne.symm he), loadWord_storeWord_of_ne d _ (Ne.symm he)]
      exact h fun ho => ho.elim he hm

theorem storeWords_append (c : Cpu) (ws ws' : List (Int × UInt32)) :
    c.storeWords (ws ++ ws') = (c.storeWords ws).storeWords ws' := List.foldl_append

theorem sameRest_storeWords (c : Cpu) (ws : List (Int × UInt32)) : SameRest (c.storeWords ws) c := by
  induction ws generalizing c with
  | nil => exact .refl c
  | cons p ws ih => exact (ih _).trans (sameRest_storeWord c p.1 p.2)

def IsZeroWord (off : Int) : Prop := 64 ≤ off ∧ off < 72

theorem reg_zero_of_words {c d : Cpu}
    (h : ∀ off, IsZeroWord off → c.loadWord off = d.loadWord off) : c.reg .zero = d.reg .zero := by
  have hh := h (Layout.highWord 0) ⟨by decide, by decide⟩
  have hl := h (Layout.lowWord 0) ⟨by decide, by decide⟩
  rw [loadWord_highWord, loadWord_highWord] at hh
  rw [loadWord_lowWord, loadWord_lowWord] at hl
  exact Recompiler.eq_of_words hh hl

end Cpu

namespace Content

/-- What a register may hold: no word of register zero, and as a word of the context none of a
guest register. -/
def Valid : Content → Prop
  | .unused | .temp => True
  | .high g | .low g _ => g.val ≠ 0
  | .word off => off < 64 ∨ 336 ≤ off

def Writable : Content → Prop
  | .word off => Cpu.IsWord off
  | _ => True

theorem valid_of_offsets {content : Content} (h : content.offsets = []) :
    content.Valid ∧ content.Writable := by
  cases content with
  | unused | temp => exact ⟨trivial, trivial⟩
  | high g => cases h
  | low g ext => cases ext <;> cases h
  | word off => cases h

theorem Valid.not_isZeroWord {content : Content} (h : content.Valid) {off : Int}
    (ho : off ∈ content.offsets) : ¬ Cpu.IsZeroWord off := by
  have hhigh {g : GuestReg} (hg : g.val ≠ 0) : ¬ Cpu.IsZeroWord (Layout.highWord g) := by
    unfold Cpu.IsZeroWord Layout.highWord
    omega
  have hlow {g : GuestReg} (hg : g.val ≠ 0) : ¬ Cpu.IsZeroWord (Layout.lowWord g) := by
    unfold Cpu.IsZeroWord Layout.lowWord
    omega
  cases content with
  | unused => cases ho
  | temp => cases ho
  | high g =>
    cases List.mem_singleton.mp ho
    exact hhigh h
  | low g ext =>
    cases ext with
    | none =>
      cases List.mem_singleton.mp ho
      exact hlow h
    | some ext =>
      rcases List.mem_cons.mp ho with rfl | ho
      · exact hlow h
      · cases List.mem_singleton.mp ho
        exact hhigh h
  | word off' =>
    obtain rfl := List.mem_singleton.mp ho
    have hoff : off < 64 ∨ 336 ≤ off := h
    unfold Cpu.IsZeroWord
    omega

theorem Writable.isWord {content : Content} (h : content.Writable) {off : Int}
    (ho : off ∈ content.offsets) : Cpu.IsWord off := by
  cases content with
  | unused => cases ho
  | temp => cases ho
  | high g =>
    cases List.mem_singleton.mp ho
    exact Cpu.isWord_highWord g
  | low g ext =>
    cases ext with
    | none =>
      cases List.mem_singleton.mp ho
      exact Cpu.isWord_lowWord g
    | some ext =>
      rcases List.mem_cons.mp ho with rfl | ho
      · exact Cpu.isWord_lowWord g
      · cases List.mem_singleton.mp ho
        exact Cpu.isWord_highWord g
  | word off' =>
    obtain rfl := List.mem_singleton.mp ho
    exact h

theorem Valid.lowWord_mem {content : Content} (h : content.Valid) {g : GuestReg} :
    Layout.lowWord g ∈ content.offsets ↔ content.base = .low g none := by
  cases content with
  | unused | temp => simp [offsets, base]
  | high g' => simp [offsets, base, Cpu.lowWord_ne_highWord]
  | low g' ext =>
    have hiff : Layout.lowWord g = Layout.lowWord g' ↔ g' = g :=
      ⟨fun he => (Cpu.lowWord_inj he).symm, fun he => by rw [he]⟩
    cases ext <;> simp [offsets, base, Cpu.lowWord_ne_highWord, hiff]
  | word off =>
    have hoff : off < 64 ∨ 336 ≤ off := h
    have hne : Layout.lowWord g ≠ off := by
      unfold Layout.lowWord
      omega
    simp [offsets, base, hne]

theorem Valid.highWord_mem {content : Content} (h : content.Valid) {g : GuestReg} :
    Layout.highWord g ∈ content.offsets ↔
      content = .high g ∨ ∃ ext, content = .low g (some ext) := by
  have hiff (g' : GuestReg) : Layout.highWord g = Layout.highWord g' ↔ g' = g :=
    ⟨fun he => (Cpu.highWord_inj he).symm, fun he => by rw [he]⟩
  cases content with
  | unused | temp => simp [offsets]
  | high g' => simp [offsets, hiff]
  | low g' ext =>
    have hne := (Cpu.lowWord_ne_highWord g' g).symm
    cases ext <;> simp [offsets, hiff, hne]
  | word off =>
    have hoff : off < 64 ∨ 336 ≤ off := h
    have hne : Layout.highWord g ≠ off := by
      unfold Layout.highWord
      omega
    simp [offsets, hne]

theorem word_mem {content : Content} {off : Int} (hoff : off < 64 ∨ 336 ≤ off) :
    off ∈ content.offsets ↔ content = .word off := by
  have hlow (g : GuestReg) : off ≠ Layout.lowWord g := by
    unfold Layout.lowWord
    omega
  have hhigh (g : GuestReg) : off ≠ Layout.highWord g := by
    unfold Layout.highWord
    omega
  cases content with
  | unused | temp => simp [offsets]
  | high g => simp [offsets, hhigh]
  | low g ext => cases ext <;> simp [offsets, hlow, hhigh]
  | word off' => simp [offsets, eq_comm]

end Content

namespace Ir.Machine

variable {σ : Type}

@[simp] theorem get_rz (m : Machine σ) : m.get .rz = 0 := rfl

@[simp] theorem set_rz (m : Machine σ) (v : UInt32) : m.set .rz v = m := rfl

theorem ofSlot_ne_rz (r : Fin 9) : HostReg.ofSlot r ≠ .rz := by
  intro h
  have := congrArg HostReg.num h
  simp only [HostReg.ofSlot, HostReg.rz] at this
  omega

theorem ofSlot_inj {r r' : Fin 9} (h : HostReg.ofSlot r = .ofSlot r') : r = r' :=
  Fin.ext (congrArg HostReg.num h)

@[simp] theorem get_set_self (m : Machine σ) (r : Fin 9) (v : UInt32) :
    (m.set (.ofSlot r) v).get (.ofSlot r) = v := by
  have hr : r.val < 16 := by omega
  unfold set get
  rw [if_neg (ofSlot_ne_rz r), if_neg (ofSlot_ne_rz r)]
  simp [HostReg.ofSlot, hr]

theorem get_set_of_ne (m : Machine σ) {x y : HostReg} (v : UInt32) (h : x ≠ y) :
    (m.set x v).get y = m.get y := by
  have hn : x.num ≠ y.num := fun he => h (by cases x; cases y; cases he; rfl)
  unfold set get
  split
  · rfl
  · split
    · rfl
    · simp [Array.getD_eq_getD_getElem?, Array.getElem?_setIfInBounds_ne hn]

@[simp] theorem get_next (m : Machine σ) (x : HostReg) : m.next.get x = m.get x := rfl

@[simp] theorem ctx_next (m : Machine σ) : m.next.ctx = m.ctx := rfl

end Ir.Machine

/-- The slots say the same about their register. -/
structure Slot.Same (s s' : Slot) : Prop where
  content : s'.content = s.content
  dirty : s'.dirty = s.dirty
  isConst : s'.isConst = s.isConst
  value : s'.value = s.value

theorem Slot.Same.refl (s : Slot) : Same s s := ⟨rfl, rfl, rfl, rfl⟩

/-- The registers and the context of a machine make up the state `g` of the guest. -/
structure Agrees (c : HostCache) (m : Machine Cpu) (g : Cpu) : Prop where
  held : ∀ r, ∀ p ∈ (c.slot r).content.words (m.get (.ofSlot r)), g.loadWord p.1 = p.2
  const : ∀ r, (c.slot r).isConst = true →
    (c.slot r).content ≠ .unused ∧ m.get (.ofSlot r) = (c.slot r).value
  apart : ∀ r r' off, off ∈ (c.slot r).content.offsets → off ∈ (c.slot r').content.offsets → r = r'
  valid : ∀ r, (c.slot r).content.Valid
  writable : ∀ r, (c.slot r).dirty = true → (c.slot r).content.Writable
  /-- A word that no dirty register holds is in the context. -/
  synced : ∀ off, (∀ r, (c.slot r).dirty = true → off ∉ (c.slot r).content.offsets) →
    m.ctx.loadWord off = g.loadWord off
  rest : Cpu.SameRest m.ctx g
  zero : g.reg .zero = 0
  fp : c.fpSlots = Vector.replicate 8 .empty

namespace Agrees

variable {c c' : HostCache} {m m' : Machine Cpu} {g g' : Cpu} {r : Fin 9}

theorem create (b : Builder) (m : Machine Cpu) (hz : m.ctx.reg .zero = 0) :
    Agrees (.create b) m m.ctx := by
  have hslot (r : Fin 9) : (HostCache.create b).slot r = .empty := Vector.get_replicate ..
  refine ⟨fun r p hp => ?_, fun r hc => ?_, fun r r' off ho => ?_, fun r => ?_, fun r hd => ?_,
    fun _ _ => rfl, .refl _, hz, rfl⟩
  · rw [hslot] at hp
    cases hp
  · rw [hslot] at hc
    cases hc
  · rw [hslot] at ho
    cases ho
  · rw [hslot]
    trivial
  · rw [hslot] at hd
    cases hd

/-- One register changes, and the guest in words that no other register holds. -/
theorem update (h : Agrees c m g) (r : Fin 9)
    (hslots : ∀ r', r' ≠ r → (c.slot r').Same (c'.slot r'))
    (hregs : ∀ r', r' ≠ r → m'.get (.ofSlot r') = m.get (.ofSlot r'))
    (hfp : c'.fpSlots = c.fpSlots)
    (hconst : (c'.slot r).isConst = true →
      (c'.slot r).content ≠ .unused ∧ m'.get (.ofSlot r) = (c'.slot r).value)
    (hvalid : (c'.slot r).content.Valid)
    (hwritable : (c'.slot r).dirty = true → (c'.slot r).content.Writable)
    (hfree : ∀ off ∈ (c'.slot r).content.offsets,
      ∀ r', r' ≠ r → off ∉ (c.slot r').content.offsets)
    (hheld : ∀ p ∈ (c'.slot r).content.words (m'.get (.ofSlot r)), g'.loadWord p.1 = p.2)
    (hghost : ∀ off, (Cpu.IsZeroWord off ∨ ∃ r', r' ≠ r ∧ off ∈ (c.slot r').content.offsets) →
      g'.loadWord off = g.loadWord off)
    (hsync : ∀ off,
      (∀ r', r' ≠ r → (c.slot r').dirty = true → off ∉ (c.slot r').content.offsets) →
      ((c'.slot r).dirty = true → off ∉ (c'.slot r).content.offsets) →
      m'.ctx.loadWord off = g'.loadWord off)
    (hrest : Cpu.SameRest m'.ctx g') : Agrees c' m' g' where
  held := by
    intro r' p hp
    by_cases he : r' = r
    · subst he
      exact hheld p hp
    · rw [(hslots r' he).content, hregs r' he] at hp
      rw [hghost p.1 (.inr ⟨r', he, Content.mem_offsets_of_words hp⟩)]
      exact h.held r' p hp
  const := by
    intro r' hr'
    by_cases he : r' = r
    · subst he
      exact hconst hr'
    · rw [(hslots r' he).isConst] at hr'
      rw [hregs r' he, (hslots r' he).value, (hslots r' he).content]
      exact h.const r' hr'
  apart := by
    intro r₁ r₂ off h₁ h₂
    by_cases he₁ : r₁ = r
    · by_cases he₂ : r₂ = r
      · exact he₁.trans he₂.symm
      · subst he₁
        rw [(hslots r₂ he₂).content] at h₂
        exact absurd h₂ (hfree off h₁ r₂ he₂)
    · rw [(hslots r₁ he₁).content] at h₁
      by_cases he₂ : r₂ = r
      · subst he₂
        exact absurd h₁ (hfree off h₂ r₁ he₁)
      · rw [(hslots r₂ he₂).content] at h₂
        exact h.apart r₁ r₂ off h₁ h₂
  valid := by
    intro r'
    by_cases he : r' = r
    · subst he
      exact hvalid
    · rw [(hslots r' he).content]
      exact h.valid r'
  writable := by
    intro r' hd
    by_cases he : r' = r
    · subst he
      exact hwritable hd
    · rw [(hslots r' he).dirty] at hd
      rw [(hslots r' he).content]
      exact h.writable r' hd
  synced := by
    intro off hclean
    refine hsync off (fun r' he hd => ?_) (hclean r)
    have := hclean r'
    rw [(hslots r' he).content, (hslots r' he).dirty] at this
    exact this hd
  rest := hrest
  zero := (Cpu.reg_zero_of_words fun off hoff => hghost off (.inl hoff)).trans h.zero
  fp := hfp.trans h.fp

/-- Registers may be forgotten, unless the context lacks what they hold. -/
theorem relax (h : Agrees c m g) (hfp : c'.fpSlots = c.fpSlots)
    (hslots : ∀ r, (c.slot r).Same (c'.slot r) ∨
      (c'.slot r).content.offsets = [] ∧ (c'.slot r).isConst = false ∧
        ((c.slot r).dirty = true → (c.slot r).content.offsets = [])) : Agrees c' m g := by
  have hvalid (r : Fin 9) : (c'.slot r).content.Valid := by
    rcases hslots r with hs | ⟨he, -, -⟩
    · rw [hs.content]
      exact h.valid r
    · exact (Content.valid_of_offsets he).1
  have hwritable (r : Fin 9) (hd : (c'.slot r).dirty = true) : (c'.slot r).content.Writable := by
    rcases hslots r with hs | ⟨he, -, -⟩
    · rw [hs.dirty] at hd
      rw [hs.content]
      exact h.writable r hd
    · exact (Content.valid_of_offsets he).2
  have hnone {content : Content} (he : content.offsets = []) (v : UInt32) (p : Int × UInt32) :
      p ∉ content.words v := by
    intro hp
    have := Content.mem_offsets_of_words hp
    rw [he] at this
    exact List.not_mem_nil this
  have hoff (r : Fin 9) (off : Int) (ho : off ∈ (c'.slot r).content.offsets) :
      off ∈ (c.slot r).content.offsets := by
    rcases hslots r with hs | ⟨he, -, -⟩
    · rwa [hs.content] at ho
    · rw [he] at ho
      cases ho
  refine ⟨?_, ?_, fun r r' off h₁ h₂ => h.apart r r' off (hoff r off h₁) (hoff r' off h₂),
    hvalid, hwritable, ?_, h.rest, h.zero, hfp.trans h.fp⟩
  · intro r p hp
    rcases hslots r with hs | ⟨he, -, -⟩
    · rw [hs.content] at hp
      exact h.held r p hp
    · exact absurd hp (hnone he _ p)
  · intro r hr
    rcases hslots r with hs | ⟨-, he, -⟩
    · rw [hs.isConst] at hr
      rw [hs.value, hs.content]
      exact h.const r hr
    · rw [he] at hr
      cases hr
  · intro off hclean
    refine h.synced off fun r hd => ?_
    rcases hslots r with hs | ⟨-, -, he⟩
    · have := hclean r
      rw [hs.content, hs.dirty] at this
      exact this hd
    · rw [he hd]
      exact List.not_mem_nil

theorem of_slots (h : Agrees c m g) (hs : ∀ r, (c.slot r).Same (c'.slot r))
    (hfp : c'.fpSlots = c.fpSlots) : Agrees c' m g :=
  h.relax hfp fun r => .inl (hs r)

theorem touch (h : Agrees c m g) (r : Fin 9) : Agrees (c.touch r) m g := by
  refine h.of_slots (fun r' => ?_) rfl
  by_cases he : r = r'
  · subst he
    rw [HostCache.slot_touch_self]
    exact ⟨rfl, rfl, rfl, rfl⟩
  · rw [HostCache.slot_touch_of_ne _ he]
    exact .refl _

theorem emit (h : Agrees c m g) (i : Ir.Instr String) : Agrees (c.emit i) m g :=
  h.of_slots (fun _ => .refl _) rfl

theorem of_machine (h : Agrees c m g) (hregs : ∀ r, m'.get (.ofSlot r) = m.get (.ofSlot r))
    (hctx : m'.ctx = m.ctx) : Agrees c m' g where
  held := by
    intro r p hp
    rw [hregs] at hp
    exact h.held r p hp
  const := fun r hr => ⟨(h.const r hr).1, (hregs r).trans (h.const r hr).2⟩
  apart := h.apart
  valid := h.valid
  writable := h.writable
  synced := by
    rw [hctx]
    exact h.synced
  rest := by
    rw [hctx]
    exact h.rest
  zero := h.zero
  fp := h.fp

/-- A register is to be given another value, which becomes the one of the guest. -/
theorem put (h : Agrees c m g) {s : Slot} (hconst : s.isConst = false)
    (hdirty : s.dirty = true ∨ s.content.offsets = [])
    (hcover : (c.slot r).dirty = true →
      ∀ off ∈ (c.slot r).content.offsets, off ∈ s.content.offsets)
    (hvalid : s.content.Valid) (hwritable : s.content.Writable)
    (hfree : ∀ off ∈ s.content.offsets, ∀ r', r' ≠ r → off ∉ (c.slot r').content.offsets) :
    Agrees (c.setSlot r s) m (g.storeWords (s.content.words (m.get (.ofSlot r)))) := by
  have hslot : (c.setSlot r s).slot r = s := HostCache.slot_setSlot_self c r s
  have hother {off : Int} (ho : off ∉ s.content.offsets) :
      (g.storeWords (s.content.words (m.get (.ofSlot r)))).loadWord off = g.loadWord off :=
    Cpu.loadWord_storeWords_of_not_mem g (by rwa [Content.map_words])
  apply h.update r
  · intro r' he
    rw [HostCache.slot_setSlot_of_ne _ _ he.symm]
    exact .refl _
  · exact fun _ _ => rfl
  · rfl
  · rw [hslot, hconst]
    exact fun hf => nomatch hf
  · rw [hslot]
    exact hvalid
  · rw [hslot]
    exact fun _ => hwritable
  · rw [hslot]
    exact hfree
  · rw [hslot]
    intro p hp
    refine Cpu.loadWord_storeWords g hp ?_ (hwritable.isWord (Content.mem_offsets_of_words hp))
    rw [Content.map_words]
    exact Content.nodup_offsets _
  · rintro off (hzero | ⟨r', he, hoff⟩)
    · exact hother fun ho => hvalid.not_isZeroWord ho hzero
    · exact hother fun ho => hfree off ho r' he hoff
  · rw [hslot]
    intro off hclean hs
    have ho : off ∉ s.content.offsets := by
      rcases hdirty with hd | he
      · exact hs hd
      · rw [he]
        exact List.not_mem_nil
    rw [hother ho]
    refine h.synced off fun r' hd => ?_
    by_cases he : r' = r
    · subst he
      exact fun hm => ho (hcover hd off hm)
    · exact hclean r' he hd
  · exact h.rest.trans (Cpu.sameRest_storeWords g _).symm

/-- A register that the guest has a word in is written. -/
theorem write (h : Agrees c m g) (v : UInt32) (hd : (c.slot r).dirty = true)
    (hc : (c.slot r).isConst = false) :
    Agrees c (m.set (.ofSlot r) v) (g.storeWords ((c.slot r).content.words v)) := by
  have hother {off : Int} (ho : off ∉ (c.slot r).content.offsets) :
      (g.storeWords ((c.slot r).content.words v)).loadWord off = g.loadWord off :=
    Cpu.loadWord_storeWords_of_not_mem g (by rwa [Content.map_words])
  apply h.update r
  · exact fun _ _ => .refl _
  · intro r' he
    exact Machine.get_set_of_ne m v fun heq => he (Machine.ofSlot_inj heq).symm
  · rfl
  · rw [hc]
    exact fun hf => nomatch hf
  · exact h.valid r
  · exact h.writable r
  · exact fun off ho r' he ho' => he (h.apart r' r off ho' ho)
  · rw [Machine.get_set_self]
    intro p hp
    refine Cpu.loadWord_storeWords g hp ?_
      ((h.writable r hd).isWord (Content.mem_offsets_of_words hp))
    rw [Content.map_words]
    exact Content.nodup_offsets _
  · rintro off (hzero | ⟨r', he, hoff⟩)
    · exact hother fun ho => (h.valid r).not_isZeroWord ho hzero
    · exact hother fun ho => he (h.apart r' r off hoff ho)
  · intro off hclean hs
    rw [Machine.ctx_set, hother (hs hd)]
    refine h.synced off fun r' hd' => ?_
    by_cases he : r' = r
    · subst he
      exact hs hd
    · exact hclean r' he hd'
  · rw [Machine.ctx_set]
    exact h.rest.trans (Cpu.sameRest_storeWords g _).symm

/-- A temporary is written. -/
theorem writeTemp (h : Agrees c m g) (v : UInt32) (ht : (c.slot r).content.offsets = [])
    (hc : (c.slot r).isConst = false) : Agrees c (m.set (.ofSlot r) v) g := by
  have hnone (off : Int) : off ∉ (c.slot r).content.offsets := by
    rw [ht]
    exact List.not_mem_nil
  apply h.update r
  · exact fun _ _ => .refl _
  · intro r' he
    exact Machine.get_set_of_ne m v fun heq => he (Machine.ofSlot_inj heq).symm
  · rfl
  · rw [hc]
    exact fun hf => nomatch hf
  · exact h.valid r
  · exact h.writable r
  · exact fun off ho => absurd ho (hnone off)
  · exact fun p hp => absurd (Content.mem_offsets_of_words hp) (hnone p.1)
  · exact fun _ _ => rfl
  · intro off hclean _
    rw [Machine.ctx_set]
    refine h.synced off fun r' hd => ?_
    by_cases he : r' = r
    · subst he
      exact hnone off
    · exact hclean r' he hd
  · rw [Machine.ctx_set]
    exact h.rest

/-- A register gets a word that no register holds from the context. -/
theorem fill (h : Agrees c m g) {s : Slot} {off : Int} (hconst : s.isConst = false)
    (hd : s.dirty = false) (hw : ∀ v, s.content.words v = [(off, v)])
    (hclean : (c.slot r).dirty = true → (c.slot r).content.offsets = [])
    (hvalid : s.content.Valid) (hfree : ∀ r', r' ≠ r → off ∉ (c.slot r').content.offsets) :
    Agrees (c.setSlot r s) (m.set (.ofSlot r) (m.ctx.loadWord off)) g := by
  have hslot : (c.setSlot r s).slot r = s := HostCache.slot_setSlot_self c r s
  have hsync (off : Int)
      (hc : ∀ r', r' ≠ r → (c.slot r').dirty = true → off ∉ (c.slot r').content.offsets) :
      m.ctx.loadWord off = g.loadWord off := by
    refine h.synced off fun r' hd => ?_
    by_cases he : r' = r
    · subst he
      rw [hclean hd]
      exact List.not_mem_nil
    · exact hc r' he hd
  have hoffsets : s.content.offsets = [off] := by
    rw [← Content.map_words 0, hw]
    rfl
  apply h.update r
  · intro r' he
    rw [HostCache.slot_setSlot_of_ne _ _ he.symm]
    exact .refl _
  · intro r' he
    exact Machine.get_set_of_ne m _ fun heq => he (Machine.ofSlot_inj heq).symm
  · rfl
  · rw [hslot, hconst]
    exact fun hf => nomatch hf
  · rw [hslot]
    exact hvalid
  · rw [hslot, hd]
    exact fun hf => nomatch hf
  · rw [hslot, hoffsets]
    intro off' ho
    cases List.mem_singleton.mp ho
    exact hfree
  · rw [hslot, hw, Machine.get_set_self]
    intro p hp
    cases List.mem_singleton.mp hp
    exact (hsync off fun r' he _ => hfree r' he).symm
  · exact fun _ _ => rfl
  · rw [hslot, hd]
    intro off' hc _
    rw [Machine.ctx_set]
    exact hsync off' hc
  · rw [Machine.ctx_set]
    exact h.rest

theorem perform_writebackCode (m : Machine Cpu) (r : Fin 9) (s : Slot) :
    (∀ x, ((HostCache.writebackCode r s).foldl Machine.perform m).get x = m.get x) ∧
      ((HostCache.writebackCode r s).foldl Machine.perform m).ctx =
        m.ctx.storeWords (if s.dirty then s.content.words (m.get (.ofSlot r)) else []) := by
  unfold HostCache.writebackCode
  split
  · split
    · rename_i hc
      rw [hc]
      exact ⟨fun _ => rfl, rfl⟩
    · rename_i hc
      rw [hc]
      exact ⟨fun _ => rfl, rfl⟩
    · rename_i g ext hc
      rw [hc]
      cases ext <;> exact ⟨fun _ => rfl, rfl⟩
    · rename_i hu ht hx
      refine ⟨fun _ => rfl, ?_⟩
      cases hc : s.content with
      | unused => exact absurd hc hu
      | temp => exact absurd hc ht
      | high g => rfl
      | low g ext =>
        cases ext with
        | none => rfl
        | some ext => exact absurd hc (hx g ext)
      | word off => rfl
  · exact ⟨fun _ => rfl, rfl⟩

theorem isPlain_writebackCode (r : Fin 9) (s : Slot) :
    ∀ i ∈ HostCache.writebackCode r s, i.isPlain = true := by
  unfold HostCache.writebackCode
  split
  · split
    · exact fun _ hi => absurd hi List.not_mem_nil
    · exact fun _ hi => absurd hi List.not_mem_nil
    · rename_i ext _
      cases ext <;> simp [Instr.isPlain]
    · simp [Instr.isPlain]
  · exact fun _ hi => absurd hi List.not_mem_nil

theorem builder_emitAll (c : HostCache) (is : List (Ir.Instr String)) :
    (c.emitAll is).builder = is.foldl Builder.add c.builder := by
  induction is generalizing c with
  | nil => rfl
  | cons i is ih => exact ih (c.emit i)

theorem fpSlots_emitAll (c : HostCache) (is : List (Ir.Instr String)) :
    (c.emitAll is).fpSlots = c.fpSlots := by
  induction is generalizing c with
  | nil => rfl
  | cons i is ih => exact ih (c.emit i)

/-- A dirty register is stored. -/
theorem writeback (h : Agrees c m g) (r : Fin 9) :
    ∃ m', Emitted c.builder m (c.writeback r).builder m' ∧ Agrees (c.writeback r) m' g ∧
      ∀ x, m'.get x = m.get x := by
  obtain ⟨hget, hctx⟩ := perform_writebackCode m r (c.slot r)
  generalize hm : (HostCache.writebackCode r (c.slot r)).foldl Machine.perform m = m' at hget hctx
  refine ⟨m', ⟨_, isPlain_writebackCode r (c.slot r), ?_, hm.symm⟩, ?_, hget⟩
  · rw [HostCache.writeback_eq]
    exact builder_emitAll c _
  have hslot := HostCache.slot_writeback_self c r
  have hwords : ∀ p ∈ (c.slot r).content.words (m.get (.ofSlot r)), g.loadWord p.1 = p.2 := h.held r
  apply h.update r
  · intro r' he
    rw [HostCache.slot_writeback_of_ne _ he.symm]
    exact .refl _
  · exact fun r' _ => hget _
  · rw [HostCache.writeback_eq]
    exact fpSlots_emitAll c _
  · rw [hslot, hget]
    exact h.const r
  · rw [hslot]
    exact h.valid r
  · rw [hslot]
    exact fun hf => nomatch hf
  · rw [hslot]
    exact fun off ho r' he ho' => he (h.apart r' r off ho' ho)
  · rw [hslot, hget]
    exact hwords
  · exact fun _ _ => rfl
  · intro off hclean _
    rw [hctx]
    by_cases hd : (c.slot r).dirty = true
    · rw [if_pos hd]
      by_cases ho : off ∈ (c.slot r).content.offsets
      · obtain ⟨w, hp⟩ := Content.mem_words_of_offsets (v := m.get (.ofSlot r)) ho
        have hload := Cpu.loadWord_storeWords m.ctx hp
          (by rw [Content.map_words]; exact Content.nodup_offsets _) ((h.writable r hd).isWord ho)
        exact hload.trans (hwords _ hp).symm
      · rw [Cpu.loadWord_storeWords_of_not_mem _ (by rwa [Content.map_words])]
        refine h.synced off fun r' hd' => ?_
        by_cases he : r' = r
        · subst he
          exact ho
        · exact hclean r' he hd'
    · rw [if_neg hd]
      refine h.synced off fun r' hd' => ?_
      by_cases he : r' = r
      · subst he
        exact absurd hd' hd
      · exact hclean r' he hd'
  · rw [hctx]
    exact (Cpu.sameRest_storeWords _ _).trans h.rest

end Agrees

end Recompiler
