import Recompiler.Proofs.Assignments
import Recompiler.Proofs.BlindRequests
import Recompiler.Proofs.Operands
import Recompiler.Proofs.StraightCode

/-!
The state of the guest that a running program stands for, with values in registers of both kinds.
The general registers over the context make up a state, and the floating-point registers over that
state make up the guest.
-/

namespace Recompiler

open Ir

namespace HostCache

def bare (c : HostCache) : HostCache := { c with fpSlots := Vector.replicate 8 .empty }

instance : Parallel fun c c' => c' = c.bare where
  slots := by
    rintro c _ rfl
    rfl
  clock := by
    rintro c _ rfl
    rfl
  emit := by
    rintro c _ rfl i
    rfl
  assign := by
    rintro c _ rfl slots
    rfl
  tick := by
    rintro c _ rfl clock
    rfl

theorem bare_ok {α : Type} {f : CacheM α} (hf : Blind (fun c c' => c' = c.bare) f)
    {c c' : HostCache} {a : α} (h : f c = .ok a c') : f c.bare = .ok a c'.bare := by
  have hs := hf c c.bare rfl
  rw [h] at hs
  generalize f c.bare = x at hs
  cases hs with
  | ok _ ht => rw [ht]

/-- No general register holds a word of a floating-point register of the guest. -/
def FpClear (c : HostCache) : Prop :=
  ∀ r off, (c.slot r).content = .word off → off < 336 ∨ 592 ≤ off

namespace FpClear

variable {c c' : HostCache}

theorem not_mem (h : FpClear c) {w : Int} (hlow : 336 ≤ w) (hhigh : w < 592) (r : Fin 9) :
    w ∉ (c.slot r).content.offsets := by
  intro hw
  have hoff := h r w ((Content.word_mem (.inr hlow)).mp hw)
  omega

theorem assigns (h : FpClear c)
    (ha : Assigns (fun off => off < 336 ∨ 592 ≤ off) (fun _ _ => False) c c') : FpClear c' :=
  ha.words (fun _ ho => ho) h

end FpClear

end HostCache

namespace Ir

theorem Builder.code_addAll {b : Builder} {is : List (Instr String)}
    (h : (is.foldl Builder.add b).exhausted = false) : (is.foldl Builder.add b).code =
      b.code ++ (is.map fun i => (clip i).mapTarget b.scopedName).toArray := by
  induction is generalizing b with
  | nil => simp
  | cons i is ih =>
    have hfit : (b.add i).exhausted = false := by
      refine Bool.eq_false_iff.mpr fun he => ?_
      rw [List.foldl_cons, (Precedes.addAll (b.add i) is).exhausted he] at h
      cases h
    have hname : (b.add i).scopedName = b.scopedName := by
      funext name
      rw [scopedName, scopedName, (Precedes.add b i).scope]
    rw [List.foldl_cons, ih h, code_add hfit, hname]
    simp

theorem Machine.fregs_perform (m : Machine Cpu) {i : Instr String} (h : i.isMove = true) :
    (m.perform i).fregs = m.fregs := by
  have hset (x : HostReg) (v : UInt32) : (m.set x v).next.fregs = m.fregs := by
    unfold set
    split <;> rfl
  cases i with
  | li | mov | ldc => exact hset _ _
  | const op => cases op <;> exact hset _ _
  | stc | stci | stcx => rfl
  | _ => cases h

end Ir

namespace Emitted

variable {b b' : Builder} {m m' : Machine Cpu} {is : List (Ir.Instr String)}

theorem eq_of_addAll (h : Emitted b m b' m') (hfit : b'.exhausted = false)
    (hb : b' = is.foldl Builder.add b) : m' = is.foldl Machine.perform m := by
  obtain ⟨is', -, rfl, rfl⟩ := h
  have hcode := Builder.code_addAll hfit
  rw [hb, Builder.code_addAll (hb ▸ hfit)] at hcode
  have hsame := congrArg Array.toList hcode
  rw [Array.toList_append, Array.toList_append] at hsame
  have hsame := List.append_cancel_left hsame
  have hplay (is : List (Ir.Instr String)) (m : Machine Cpu) :
      (is.map fun i => (Builder.clip i).mapTarget b.scopedName).foldl Machine.perform m =
        is.foldl Machine.perform m := by
    simp only [List.foldl_map, Builder.perform_clip]
  rw [← hplay is', ← hplay is]
  exact congrArg _ hsame.symm

theorem fregs_eq {c c' : HostCache} (h : Emitted c.builder m c'.builder m') (he : Extends c c')
    (hfit : c'.builder.exhausted = false) : m'.fregs = m.fregs := by
  obtain ⟨is, hi, hb⟩ := he.moves
  rw [h.eq_of_addAll hfit hb]
  clear h hb hfit he
  induction is generalizing m with
  | nil => rfl
  | cons i is ih =>
    rw [List.foldl_cons, ih fun j hj => hi j (List.mem_cons_of_mem _ hj)]
    exact m.fregs_perform (hi i List.mem_cons_self)

end Emitted

namespace Cpu

def withRam (c : Cpu) (ram : Array UInt32) : Cpu := { c with mem := { c.mem with ram } }

theorem loadWord_withRam (c : Cpu) {ram : Array UInt32} (h : ram.size = c.mem.ram.size) (off : Int) :
    (c.withRam ram).loadWord off = c.loadWord off := by
  unfold loadWord
  cases field? off with
  | none => rfl
  | some f =>
    cases f with
    | ramSize => simp only [getField, Memory.size, withRam, h]
    | _ => rfl

theorem SameRest.withRam {c d : Cpu} (h : SameRest c d) (ram : Array UInt32) :
    SameRest (c.withRam ram) (d.withRam ram) := by
  obtain ⟨hcop0, htlb, hmem, hwindow, heffects⟩ := h
  refine ⟨hcop0, htlb, ?_, hwindow, heffects⟩
  rw [Cpu.withRam, Cpu.withRam, hmem]

end Cpu

theorem Agrees.withRam {c : HostCache} {m m' : Machine Cpu} {g : Cpu} (h : Agrees c m g)
    {ram : Array UInt32} (hsize : ram.size = g.mem.ram.size)
    (hregs : ∀ r, m'.get (.ofSlot r) = m.get (.ofSlot r)) (hctx : m'.ctx = m.ctx.withRam ram) :
    Agrees c m' (g.withRam ram) := by
  have hload := g.loadWord_withRam hsize
  have hmem : m.ctx.mem = g.mem := h.rest.mem
  constructor
  · intro r p hp
    rw [hregs] at hp
    rw [hload]
    exact h.held r p hp
  · intro r hr
    rw [hregs]
    exact h.const r hr
  · exact h.apart
  · exact h.valid
  · exact h.writable
  · intro off hclean
    rw [hctx, m.ctx.loadWord_withRam (by rw [hmem]; exact hsize), hload]
    exact h.synced off hclean
  · rw [hctx]
    exact h.rest.withRam ram
  · exact h.zero
  · exact h.fp

theorem FpAgrees.withRam {c : HostCache} {m m' : Machine Cpu} {g : Cpu} (h : FpAgrees c m g)
    {ram : Array UInt32} (hsize : ram.size = g.mem.ram.size)
    (hregs : ∀ r : Fin 8, m'.getFp (.ofSlot r) = m.getFp (.ofSlot r))
    (hctx : m'.ctx = m.ctx.withRam ram) : FpAgrees c m' (g.withRam ram) := by
  have hload := g.loadWord_withRam hsize
  have hmem : m.ctx.mem = g.mem := h.rest.mem
  constructor
  · intro r p hp
    rw [hregs] at hp
    rw [hload]
    exact h.held r p hp
  · exact h.apart
  · exact h.fits
  · intro off hclean
    rw [hctx, m.ctx.loadWord_withRam (by rw [hmem]; exact hsize), hload]
    exact h.synced off hclean
  · rw [hctx]
    exact h.rest.withRam ram

/-- Words of the context that no register holds may be written there. -/
theorem Agrees.storeContext {c : HostCache} {m m' : Machine Cpu} {g : Cpu} (h : Agrees c m g)
    {ws : List (Int × UInt32)} (hfree : ∀ w ∈ ws.map (·.1), ∀ r, w ∉ (c.slot r).content.offsets)
    (hword : ∀ w ∈ ws.map (·.1), Cpu.IsWord w ∧ ¬ Cpu.IsZeroWord w)
    (hregs : ∀ r, m'.get (.ofSlot r) = m.get (.ofSlot r))
    (hctx : m'.ctx = m.ctx.storeWords ws) : Agrees c m' (g.storeWords ws) := by
  constructor
  · intro r p hp
    rw [hregs] at hp
    rw [Cpu.loadWord_storeWords_of_not_mem g fun hmem =>
      hfree p.1 hmem r (Content.mem_offsets_of_words hp)]
    exact h.held r p hp
  · intro r hr
    rw [hregs]
    exact h.const r hr
  · exact h.apart
  · exact h.valid
  · exact h.writable
  · intro w hclean
    rw [hctx]
    exact Cpu.loadWord_storeWords_congr (fun hw => (hword w hw).1) fun _ => h.synced w hclean
  · rw [hctx]
    exact (Cpu.sameRest_storeWords _ _).trans (h.rest.trans (Cpu.sameRest_storeWords g _).symm)
  · refine (Cpu.reg_zero_of_words fun off hoff => ?_).trans h.zero
    exact Cpu.loadWord_storeWords_of_not_mem g fun hw => (hword off hw).2 hoff
  · exact h.fp

/-- The registers of both kinds and the context of a machine make up the state `g` of the
guest. -/
structure Embodies (c : HostCache) (m : Machine Cpu) (g : Cpu) : Prop where
  layers : ∃ g₀, Agrees c.bare m g₀ ∧ FpAgrees c { m with ctx := g₀ } g
  clear : c.FpClear

theorem FpAgrees.loadWord_eq {c : HostCache} {m : Machine Cpu} {g : Cpu} (h : FpAgrees c m g)
    {w : Int} (hw : w < 336 ∨ 592 ≤ w) : m.ctx.loadWord w = g.loadWord w := by
  refine h.synced w fun r _ hmem => ?_
  obtain ⟨k, hk, hmem⟩ := FpSlot.exists_of_mem_offsets hmem
  obtain ⟨hlow, hhigh, -⟩ := FpSize.bounds_of_mem hmem
  obtain ⟨-, hl, hh⟩ := h.fits r k hk
  omega

namespace Embodies

open HostCache

variable {c c' : HostCache} {m m' : Machine Cpu} {g : Cpu} {x : HostReg} {gr : GuestReg}

theorem guest_eq {g₀ : Cpu} (h : FpAgrees c { m with ctx := g₀ } g) (gr : GuestReg) :
    g₀.guest gr = g.guest gr := by
  have hhigh := h.loadWord_eq (w := Layout.highWord gr) (.inl (by unfold Layout.highWord; omega))
  have hlow := h.loadWord_eq (w := Layout.lowWord gr) (.inl (by unfold Layout.lowWord; omega))
  change g₀.loadWord _ = _ at hhigh hlow
  rw [Cpu.loadWord_highWord, Cpu.loadWord_highWord] at hhigh
  rw [Cpu.loadWord_lowWord, Cpu.loadWord_lowWord] at hlow
  exact Recompiler.eq_of_words hhigh hlow

theorem create (b : Builder) (m : Machine Cpu) (hz : m.ctx.reg .zero = 0) :
    Embodies (.create b) m m.ctx := by
  refine ⟨⟨m.ctx, .create b m hz, .create b m⟩, fun r off hr => ?_⟩
  rw [show (HostCache.create b).slot r = .empty from Vector.get_replicate ..] at hr
  cases hr

theorem mem_eq (h : Embodies c m g) : m.ctx.mem = g.mem := by
  obtain ⟨g₀, ha, hf⟩ := h.layers
  exact ha.rest.mem.trans hf.rest.mem

theorem congr (h : Embodies c m g) (hslots : c'.slots = c.slots) (hfp : c'.fpSlots = c.fpSlots)
    (hregs : ∀ r, m'.get (.ofSlot r) = m.get (.ofSlot r)) (hfregs : m'.fregs = m.fregs)
    (hctx : m'.ctx = m.ctx) : Embodies c' m' g := by
  obtain ⟨g₀, ha, hf⟩ := h.layers
  have hslot (r : Fin 9) : c'.slot r = c.slot r := by rw [slot, hslots, slot]
  have hget (r : Fin 8) : m'.getFp (.ofSlot r) = m.getFp (.ofSlot r) := by
    rw [Machine.getFp, hfregs, Machine.getFp]
  refine ⟨⟨g₀, ?_, ?_⟩, fun r off hr => h.clear r off (hslot r ▸ hr)⟩
  · refine (ha.of_machine hregs hctx).of_slots (fun r => ?_) rfl
    change (c.slot r).Same (c'.slot r)
    rw [hslot]
    exact .refl _
  · exact (hf.of_slots fun r => by rw [hfp]; exact ⟨rfl, rfl⟩).of_machine hget rfl

theorem of_agrees {g₀ : Cpu} {ws : List (Int × UInt32)} (hf : FpAgrees c { m with ctx := g₀ } g)
    (ha : Agrees c'.bare m' (g₀.storeWords ws)) (hslots : c'.fpSlots = c.fpSlots)
    (hfregs : m'.fregs = m.fregs) (hws : ∀ w ∈ ws.map (·.1), Cpu.IsWord w ∧ w < 336)
    (hclear : c'.FpClear) : Embodies c' m' (g.storeWords ws) := by
  have hget (r : Fin 8) : m'.getFp (.ofSlot r) = m.getFp (.ofSlot r) := by
    rw [Machine.getFp, hfregs, Machine.getFp]
  have hf' : FpAgrees c' { m with ctx := g₀ } g :=
    hf.of_slots fun r => by rw [hslots]; exact ⟨rfl, rfl⟩
  refine ⟨⟨_, ha, hf'.storeWords (fun w hw r hmem => ?_) (fun w hw => (hws w hw).1) hget rfl⟩, hclear⟩
  obtain ⟨k, hk, hmem⟩ := FpSlot.exists_of_mem_offsets hmem
  have hlow := (FpSize.bounds_of_mem hmem).1
  have hfits := (hf'.fits r k hk).low
  have hlt := (hws w hw).2
  omega

theorem of_agrees_self {g₀ : Cpu} (hf : FpAgrees c { m with ctx := g₀ } g) (ha : Agrees c'.bare m' g₀)
    (hslots : c'.fpSlots = c.fpSlots) (hfregs : m'.fregs = m.fregs) (hclear : c'.FpClear) :
    Embodies c' m' g := by
  have hsame : Agrees c'.bare m' (g₀.storeWords []) := ha
  exact of_agrees hf hsame hslots hfregs (fun _ hw => absurd hw List.not_mem_nil) hclear

end Embodies

/-- Code for operands: it leads to the state `g`, and the operands that there are keep. -/
structure Equips (c : HostCache) (m : Machine Cpu) (c' : HostCache) (m' : Machine Cpu)
    (g : Cpu) : Prop where
  emitted : Emitted c.builder m c'.builder m'
  moves : Extends c c'
  embodies : Embodies c' m' g
  stable : Stable c m c' m'

theorem Stable.of_bare {c c' : HostCache} {m m' : Machine Cpu} (h : Stable c.bare m c'.bare m') :
    Stable c m c' m' :=
  ⟨h.kept, h.regs, h.dirty, h.const⟩

theorem Owns.of_bare {c : HostCache} {d : HostReg} {o : Option Content} (h : Owns c.bare d o) :
    Owns c d o := by
  cases o <;> exact h

/-- The words of a result are those of a general register. -/
theorem isWord_resultWords {gr : GuestReg} {content : Content} {v : UInt32}
    (hc : content = .high gr ∨ ∃ ext, content = .low gr ext) :
    ∀ w ∈ (resultWords (target gr content) v).map (·.1), Cpu.IsWord w ∧ w < 336 := by
  have hhigh : Cpu.IsWord (Layout.highWord gr) ∧ Layout.highWord gr < 336 :=
    ⟨Cpu.isWord_highWord gr, by unfold Layout.highWord; omega⟩
  have hlow : Cpu.IsWord (Layout.lowWord gr) ∧ Layout.lowWord gr < 336 :=
    ⟨Cpu.isWord_lowWord gr, by unfold Layout.lowWord; omega⟩
  intro w hw
  unfold target at hw
  split at hw
  · cases hw
  · rw [resultWords, Option.elim, Content.map_words] at hw
    rcases hc with rfl | ⟨ext, rfl⟩
    · obtain rfl := List.mem_singleton.mp hw
      exact hhigh
    · cases ext with
      | none =>
        obtain rfl := List.mem_singleton.mp hw
        exact hlow
      | some ext =>
        rcases List.mem_cons.mp hw with rfl | hw
        · exact hlow
        · obtain rfl := List.mem_singleton.mp hw
          exact hhigh

namespace Embodies

open HostCache

variable {c c' : HostCache} {m m' : Machine Cpu} {g : Cpu} {x : HostReg} {gr : GuestReg}
  {r : Fin 9}

theorem equips (h : Embodies c m g) {g₀ : Cpu} {ws : List (Int × UInt32)}
    (hf : FpAgrees c { m with ctx := g₀ } g) (ha : Allocates c.bare m c'.bare m' (g₀.storeWords ws))
    (hws : ∀ w ∈ ws.map (·.1), Cpu.IsWord w ∧ w < 336) (hext : Extends c c')
    (hclear : c.FpClear → c'.FpClear) (hfit : c'.builder.exhausted = false) :
    Equips c m c' m' (g.storeWords ws) := by
  have hemitted : Emitted c.builder m c'.builder m' := ha.emitted
  exact ⟨hemitted, hext, of_agrees hf ha.agrees hext.fpSlots (hemitted.fregs_eq hext hfit) hws
    (hclear h.clear), .of_bare ha.stable⟩

theorem equips_self (h : Embodies c m g) {g₀ : Cpu} (hf : FpAgrees c { m with ctx := g₀ } g)
    (ha : Allocates c.bare m c'.bare m' g₀) (hext : Extends c c')
    (hclear : c.FpClear → c'.FpClear) (hfit : c'.builder.exhausted = false) :
    Equips c m c' m' g := by
  have hsame : Allocates c.bare m c'.bare m' (g₀.storeWords []) := ha
  exact h.equips hf hsame (fun _ hw => absurd hw List.not_mem_nil) hext hclear hfit

theorem allocInLow (h : Embodies c m g) (hx : HostCache.allocInLow gr c = .ok x c')
    (hfit : c'.builder.exhausted = false) :
    ∃ m', Equips c m c' m' g ∧ Reads c' m' x (.low gr none) (lowWord (g.guest gr)) := by
  obtain ⟨g₀, ha, hf⟩ := h.layers
  obtain ⟨m', hal, hr⟩ := ha.allocInLow (bare_ok (blind_allocInLow gr) hx)
  rw [guest_eq hf] at hr
  exact ⟨m', h.equips_self hf hal (.allocInLow hx) (·.assigns (.allocInLow hx)) hfit, hr⟩

theorem allocInHigh (h : Embodies c m g) (hx : HostCache.allocInHigh gr c = .ok x c')
    (hfit : c'.builder.exhausted = false) :
    ∃ m', Equips c m c' m' g ∧ Reads c' m' x (.high gr) (highWord (g.guest gr)) := by
  obtain ⟨g₀, ha, hf⟩ := h.layers
  obtain ⟨m', hal, hr⟩ := ha.allocInHigh (bare_ok (blind_allocInHigh gr) hx)
  rw [guest_eq hf] at hr
  exact ⟨m', h.equips_self hf hal (.allocInHigh hx) (·.assigns (.allocInHigh hx)) hfit, hr⟩

theorem allocTemp (h : Embodies c m g) (hx : HostCache.allocTemp c = .ok x c')
    (hfit : c'.builder.exhausted = false) :
    ∃ r m', x = .ofSlot r ∧ ¬ (c.slot r).Pinned ∧ (c'.slot r).content = .temp ∧
      (c'.slot r).isConst = false ∧ Equips c m c' m' g := by
  obtain ⟨g₀, ha, hf⟩ := h.layers
  obtain ⟨r, m', hr, hp, ht, hk, hal⟩ := ha.allocTemp (bare_ok blind_allocTemp hx)
  exact ⟨r, m', hr, hp, ht, hk,
    h.equips_self hf hal (.allocTemp hx) (·.assigns (.allocTemp hx)) hfit⟩

theorem allocOutLow (h : Embodies c m g) (hx : HostCache.allocOutLow gr c = .ok x c')
    (hfit : c'.builder.exhausted = false) :
    ∃ m', Equips c m c' m' (g.storeWords (resultWords (target gr (.low gr none)) (m'.get x))) ∧
      Owns c' x (target gr (.low gr none)) := by
  obtain ⟨g₀, ha, hf⟩ := h.layers
  obtain ⟨m', hal, ho⟩ := ha.allocOutLow (bare_ok (blind_allocOutLow gr) hx)
  exact ⟨m', h.equips hf hal (isWord_resultWords (.inr ⟨none, rfl⟩)) (.allocOutLow hx)
    (·.assigns (.allocOutLow hx)) hfit, ho.of_bare⟩

theorem allocOutHigh (h : Embodies c m g) (hx : HostCache.allocOutHigh gr c = .ok x c')
    (hfit : c'.builder.exhausted = false) :
    ∃ m', Equips c m c' m' (g.storeWords (resultWords (target gr (.high gr)) (m'.get x))) ∧
      Owns c' x (target gr (.high gr)) := by
  obtain ⟨g₀, ha, hf⟩ := h.layers
  obtain ⟨m', hal, ho⟩ := ha.allocOutHigh (bare_ok (blind_allocOutHigh gr) hx)
  exact ⟨m', h.equips hf hal (isWord_resultWords (.inl rfl)) (.allocOutHigh hx)
    (·.assigns (.allocOutHigh hx)) hfit, ho.of_bare⟩

theorem allocOutExt (h : Embodies c m g) {ext : Extension}
    (hx : HostCache.allocOutExt gr ext c = .ok x c') (hfit : c'.builder.exhausted = false) :
    ∃ m', Emitted c.builder m c'.builder m' ∧
      Embodies c' m' (g.storeWords (resultWords (target gr (.low gr (some ext))) (m'.get x))) ∧
      Owns c' x (target gr (.low gr (some ext))) ∧ ∀ y, m'.get y = m.get y := by
  obtain ⟨g₀, ha, hf⟩ := h.layers
  obtain ⟨m', he, ha', ho, hget, -⟩ := ha.allocOutExt (bare_ok (blind_allocOutExt gr ext) hx)
  have hemitted : Emitted c.builder m c'.builder m' := he
  have hext := Extends.allocOutExt hx
  exact ⟨m', hemitted, of_agrees hf ha' hext.fpSlots (hemitted.fregs_eq hext hfit)
    (isWord_resultWords (.inr ⟨some ext, rfl⟩)) (h.clear.assigns (.allocOutExt hx)), ho.of_bare, hget⟩

theorem fregs_set (m : Machine Cpu) (x : HostReg) (v : UInt32) : (m.set x v).fregs = m.fregs := by
  unfold Machine.set
  split <;> rfl

theorem writeTemp (h : Embodies c m g) (v : UInt32) (ht : (c.slot r).content = .temp)
    (hk : (c.slot r).isConst = false) : Embodies c (m.set (.ofSlot r) v) g := by
  obtain ⟨g₀, ha, hf⟩ := h.layers
  have ha' := ha.writeTemp v (r := r) (by change (c.slot r).content.offsets = []; rw [ht]; rfl) hk
  exact of_agrees_self hf ha' rfl (fregs_set m _ v) h.clear

theorem write (h : Embodies c m g) {o : Option Content} {d : HostReg} (ho : Owns c d o)
    (v : UInt32) (hws : ∀ w ∈ (resultWords o v).map (·.1), Cpu.IsWord w ∧ w < 336) :
    Embodies c (m.set d v) (g.storeWords (resultWords o v)) := by
  obtain ⟨g₀, ha, hf⟩ := h.layers
  have ho' : Owns c.bare d o := by cases o <;> exact ho
  exact of_agrees hf (ho'.write ha v) rfl (fregs_set m d v) hws h.clear

theorem withRam (h : Embodies c m g) {ram : Array UInt32} (hsize : ram.size = g.mem.ram.size)
    (hregs : ∀ r, m'.get (.ofSlot r) = m.get (.ofSlot r)) (hfregs : m'.fregs = m.fregs)
    (hctx : m'.ctx = m.ctx.withRam ram) : Embodies c m' (g.withRam ram) := by
  obtain ⟨g₀, ha, hf⟩ := h.layers
  have hsize₀ : ram.size = g₀.mem.ram.size := by
    rw [show g₀.mem = g.mem from hf.rest.mem]
    exact hsize
  have hget (r : Fin 8) : m'.getFp (.ofSlot r) = m.getFp (.ofSlot r) := by
    rw [Machine.getFp, hfregs, Machine.getFp]
  exact ⟨⟨_, ha.withRam hsize₀ hregs hctx, hf.withRam hsize hget rfl⟩, h.clear⟩

theorem loadWord_eq (h : Embodies c m g) {w : Int} (hlow : 336 ≤ w) (hhigh : w < 592)
    (hfree : ∀ r, w ∉ (c.fpSlots.get r).offsets) : m.ctx.loadWord w = g.loadWord w := by
  obtain ⟨g₀, ha, hf⟩ := h.layers
  exact (ha.synced w fun r _ => h.clear.not_mem hlow hhigh r).trans
    (hf.synced w fun r _ => hfree r)

theorem storeContext (h : Embodies c m g) {ws : List (Int × UInt32)}
    (hws : ∀ w ∈ ws.map (·.1), Cpu.IsWord w ∧ 336 ≤ w ∧ w < 592)
    (hfree : ∀ w ∈ ws.map (·.1), ∀ r, w ∉ (c.fpSlots.get r).offsets)
    (hregs : ∀ r, m'.get (.ofSlot r) = m.get (.ofSlot r)) (hfregs : m'.fregs = m.fregs)
    (hctx : m'.ctx = m.ctx.storeWords ws) : Embodies c m' (g.storeWords ws) := by
  obtain ⟨g₀, ha, hf⟩ := h.layers
  have hget (r : Fin 8) : m'.getFp (.ofSlot r) = m.getFp (.ofSlot r) := by
    rw [Machine.getFp, hfregs, Machine.getFp]
  refine ⟨⟨_, ha.storeContext (fun w hw r => ?_) (fun w hw => ⟨(hws w hw).1, ?_⟩) hregs hctx,
    hf.storeWords hfree (fun w hw => (hws w hw).1) hget rfl⟩, h.clear⟩
  · exact h.clear.not_mem (hws w hw).2.1 (hws w hw).2.2 r
  · have hlow := (hws w hw).2.1
    unfold Cpu.IsZeroWord
    omega

/-- A floating-point register is stored and forgotten. -/
theorem fpFree (h : Embodies c m g) (r : Fin 8) :
    ∃ m', Emitted c.builder m (c.fpFree r).builder m' ∧ Embodies (c.fpFree r) m' g ∧
      m'.regs = m.regs := by
  obtain ⟨g₀, ha, hf⟩ := h.layers
  obtain ⟨hregs, hfregs, hctx⟩ := m.perform_storeCode r (c.fpSlots.get r)
  generalize hm : ((c.fpSlots.get r).storeCode r).foldl Machine.perform m = m' at hregs hfregs hctx
  have hemitted : Emitted c.builder m (c.fpFree r).builder m' :=
    ⟨_, fun i hi => Instr.isPlain_of_isTransfer (FpSlot.isTransfer_storeCode r _ i hi),
      builder_fpWriteback c r, hm.symm⟩
  have hslot (r' : Fin 9) : (c.fpFree r).slot r' = c.slot r' := by
    have hslots : (c.fpFree r).slots = c.slots := slots_fpWriteback c r
    rw [slot, hslots, slot]
  -- What is stored are words of a floating-point register.
  have hwords : ∀ w ∈ (if (c.fpSlots.get r).dirty = true then
      (c.fpSlots.get r).words (m.getFp (.ofSlot r)) else []).map (·.1),
      Cpu.IsWord w ∧ 336 ≤ w ∧ w < 592 := by
    intro w hw
    split at hw
    · rw [FpSlot.map_words] at hw
      obtain ⟨k, hk, hmem⟩ := FpSlot.exists_of_mem_offsets hw
      have hfits := hf.fits r k hk
      obtain ⟨hl, hh, -⟩ := FpSize.bounds_of_mem hmem
      have hlow := hfits.low
      have hhigh := hfits.high
      exact ⟨hfits.isWord hmem, by omega, by omega⟩
    · cases hw
  have hstored : Agrees c.bare m' (g₀.storeWords (if (c.fpSlots.get r).dirty = true then
      (c.fpSlots.get r).words (m.getFp (.ofSlot r)) else [])) := by
    refine ha.storeContext (fun w hw r' => ?_) (fun w hw => ⟨(hwords w hw).1, ?_⟩)
      (fun r' => by rw [Machine.get, hregs, Machine.get]) hctx
    · exact h.clear.not_mem (hwords w hw).2.1 (hwords w hw).2.2 r'
    · have hlow := (hwords w hw).2.1
      unfold Cpu.IsZeroWord
      omega
  have hfp : FpAgrees (c.fpWriteback r) { m' with
      ctx := g₀.storeWords (if (c.fpSlots.get r).dirty = true then
        (c.fpSlots.get r).words (m.getFp (.ofSlot r)) else []) } g :=
    hf.stored r hfregs rfl
  refine ⟨m', hemitted, ⟨⟨_, hstored.of_slots (fun r' => ?_) rfl, hfp.forget⟩,
    fun r' off hr' => h.clear r' off (hslot r' ▸ hr')⟩, hregs⟩
  change (c.slot r').Same ((c.fpFree r).slot r')
  rw [hslot]
  exact .refl _

theorem freeWhere (h : Embodies c m g) (P : FpSlot → Bool) (rs : List (Fin 8)) :
    ∃ m', Emitted c.builder m (c.freeWhere P rs).builder m' ∧ Embodies (c.freeWhere P rs) m' g ∧
      m'.regs = m.regs := by
  induction rs generalizing c m with
  | nil => exact ⟨m, .refl _ _, h, rfl⟩
  | cons r rs ih =>
    have hstep : ∃ m', Emitted c.builder m
        (if P (c.fpSlots.get r) then c.fpFree r else c).builder m' ∧
        Embodies (if P (c.fpSlots.get r) then c.fpFree r else c) m' g ∧ m'.regs = m.regs := by
      split
      · exact h.fpFree r
      · exact ⟨m, .refl _ _, h, rfl⟩
    obtain ⟨m₁, he₁, h₁, hregs₁⟩ := hstep
    obtain ⟨m₂, he₂, h₂, hregs₂⟩ := ih h₁
    exact ⟨m₂, he₁.trans he₂, h₂, hregs₂.trans hregs₁⟩

theorem clobberFp (h : Embodies c m g) (off size : Int) :
    ∃ m', Emitted c.builder m (c.clobberFp off size).builder m' ∧
      Embodies (c.clobberFp off size) m' g ∧ m'.regs = m.regs := by
  rw [clobberFp_eq]
  exact h.freeWhere _ _

end Embodies

end Recompiler
