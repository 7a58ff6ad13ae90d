import Recompiler.Proofs.ExitClocks
import Recompiler.Proofs.Instructions

/-!
Exits of programs. At an exit every register is stored, so that the CPU is the guest with the
cycles counted; whether the exit is linked does not matter while the link cells are empty.
-/

namespace Recompiler

open Ir Emit Interp

variable {W : Finished} {Q : Cpu → Prop} {c₀ : HostCache} {m₀ m : Machine Cpu} {env : Operands}
  {e : Emitter} {g c : Cpu} {cfg : Config} {n : Nat} {v : UInt32}

/-- The states differ at most in the cycles that are counted, and in what programs and services
leave behind. -/
def Cpu.SameGuest (c d : Cpu) : Prop :=
  ∃ cycle delay leave f, d = { c with cycle, delay, leave, frame := f }

def Cpu.atCycle (c : Cpu) (cycle : UInt32) : Cpu := { c with cycle }

theorem Cpu.Stands.sameGuest (h : g.Stands c) (pc cycle : UInt32) (f : Frame) :
    (c.goto pc).SameGuest (((g.atCycle cycle).goto pc).framed f) := by
  obtain ⟨_, delay, leave, _, rfl⟩ := h
  exact ⟨cycle, delay, leave, f, rfl⟩

def HostCache.Clean (c : HostCache) : Prop := ∀ r, (c.slot r).dirty = false

namespace HostCache.Clean

variable {c c' : HostCache} {x : HostReg} {off : Int}

theorem of_slots (h : c.Clean) (hs : c'.slots = c.slots) : c'.Clean := by
  intro r
  rw [slot, hs]
  exact h r

theorem update {r : Fin 9} (h : c.Clean) (hs : (c'.slot r).dirty = false)
    (ho : ∀ r', r ≠ r' → c'.slot r' = c.slot r') : c'.Clean := by
  intro r'
  by_cases he : r = r'
  · subst he
    exact hs
  · rw [ho r' he]
    exact h r'

theorem touch (h : c.Clean) (r : Fin 9) : (c.touch r).Clean :=
  h.update (by rw [slot_touch_self]; exact h r) fun _ he => slot_touch_of_ne c he

theorem replace {r : Fin 9} {s : Slot} (h : c.Clean) (hs : s.dirty = false) : (c.replace r s).Clean :=
  h.update (by rw [slot_replace_self]; exact hs) fun _ he => slot_replace_of_ne c s he

theorem allocIn32 (h : c.Clean) (hx : HostCache.allocIn32 off c = .ok x c') : c'.Clean := by
  rw [allocIn32_eq] at hx
  split at hx
  · cases hx
    exact h.touch _
  · obtain ⟨r, -, -, rfl⟩ := claimLoaded_ok hx
    exact (h.replace (s := .fresh (.word off) false) rfl).of_slots rfl

theorem allocTemp (h : c.Clean) (hx : HostCache.allocTemp c = .ok x c') : c'.Clean := by
  obtain ⟨r, -, -, rfl⟩ := claimReg_ok hx
  exact h.replace rfl

end HostCache.Clean

theorem HostCache.ofSlot_of_allocIn32 {off : Int} {x : HostReg} {e e' : Emitter}
    (h : inWord off e = .ok x e') : ∃ r, x = .ofSlot r := by
  obtain ⟨c', hx, -⟩ := onCache_ok h
  rw [allocIn32_eq] at hx
  split at hx
  · cases hx
    exact ⟨_, rfl⟩
  · obtain ⟨r, -, rfl, -⟩ := claimLoaded_ok hx
    exact ⟨r, rfl⟩

theorem HostCache.Clean.inWord {off : Int} {x : HostReg} {e e' : Emitter} (hc : e.cache.Clean)
    (h : inWord off e = .ok x e') : e'.cache.Clean := by
  obtain ⟨c', hx, rfl⟩ := onCache_ok h
  exact hc.allocIn32 hx

theorem HostCache.Clean.temp {x : HostReg} {e e' : Emitter} (hc : e.cache.Clean)
    (h : temp e = .ok x e') : e'.cache.Clean := by
  obtain ⟨c', hx, rfl⟩ := onCache_ok h
  exact hc.allocTemp hx

namespace Emit.Runs

variable {α : Type} {K : Unit → Emitter → Machine Cpu → Prop}

/-- An empty link cell that a branch may pass by is passed by in any case. -/
theorem linking {j : Ir.Instr String} {name : String} {taken : Bool} {cell : Int}
    (hj : j.Decides m name taken)
    (hk : ∀ b pc, K () { e with cache := { e.cache with builder := b } } { m with pc := pc }) :
    Runs W Q (do
      Emit.emit j
      Emit.emit (.link cell)
      Emit.putLabel name) e m K := by
  intro a e' h hp hm
  obtain ⟨_, e₁, hx, h⟩ := bind_ok h
  obtain ⟨_, e₂, hx', h⟩ := bind_ok h
  cases hx
  cases hx'
  obtain ⟨b, hb, rfl⟩ := putLabel_ok h
  have hlink : ((e.cache.builder.add j).add (.link cell)).Precedes W.builder :=
    (Builder.Precedes.label hb).trans hp.builder
  have hadd : (e.cache.builder.add j).Precedes W.builder := (Builder.Precedes.add _ _).trans hlink
  have hcode := Finished.code_at hadd hm
  have hsize : b.code.size = ((e.cache.builder.add j).add (.link cell)).code.size :=
    congrArg Array.size (Builder.label_ok hb).1
  cases taken with
  | true =>
    refine fun hk' => .jump hcode (hj W.position) (hk' _ ⟨⟨hm.program, ?_⟩, hk b (W.position name)⟩)
    exact (Finished.position_eq hb hp.builder).trans hsize.symm
  | false =>
    have hat : W.At (e.cache.builder.add j) m.next := Finished.at_add hadd hm ⟨rfl, rfl⟩
    have hat' : W.At ((e.cache.builder.add j).add (.link cell)) m.next.next :=
      Finished.at_add hlink hat ⟨rfl, rfl⟩
    refine fun hk' => .advance hcode (hj W.position) (.link (Finished.code_at hlink hat)
      (hk' _ ⟨⟨hat'.program, hat'.pc.trans hsize.symm⟩, hk b _⟩))

theorem result {f : EmitM α} {K : α → Emitter → Machine Cpu → Prop} (h : Runs W Q f e m K) :
    Runs W Q f e m fun a e' m' => K a e' m' ∧ f e = .ok a e' :=
  fun a e' hx hp hat => (h a e' hx hp hat).imp fun _ ⟨hat', hk⟩ => ⟨hat', hk, hx⟩

theorem endOp (hk : ∀ e', K () e' m) : Runs W Q (Emit.onCache HostCache.endOp) e m K := by
  refine .onCache fun _ c hended => ?_
  obtain rfl := endOp_ok hended
  refine ⟨m, ?_, hk _⟩
  unfold HostCache.ended
  split <;> exact .refl _ _

end Emit.Runs

namespace Emit

/-- Counts cycles, if there are any. -/
def count (d : UInt32) : EmitM Unit := do
  if d ≠ 0 then
    let cycle ← inWord Layout.cycle
    let _ ← outWord Layout.cycle
    const .add cycle d cycle

instance (d : UInt32) : Nests (count d) := by
  unfold count
  infer_instance

theorem account_eq (cfg : Config) (n : Nat) : account cfg n = (do
    modifyCache (·.startOp)
    count (UInt32.ofNat n * cfg.countPerOp)
    onCache HostCache.endOp
    modifyCache (·.flushAll)) := by
  unfold account count
  dsimp only
  split <;> simp only [bind_assoc, pure_bind]

/-- How far the next event is. -/
def distance : EmitM HostReg := do
  let now ← inWord Layout.cycle
  let next ← inWord Layout.nextEvent
  let diff ← temp
  bin .sub now next diff
  return diff

def follow (cell : Nat) (due : String) (diff : HostReg) : EmitM Unit := do
  emit (.branchConst .ge diff 0 due)
  emit (.link cell)
  putLabel due

theorem exitLinked_eq (cell : Nat) : exitLinked cell = (do
    let due ← freshLabel "due"
    emit (.stci (UInt32.ofNat (cell + 1)) Layout.lastCell)
    modifyCache (·.startOp)
    let diff ← distance
    follow cell due diff
    onCache HostCache.endOp
    emit (.exit 0)) := by
  unfold exitLinked distance follow
  simp only [bind_assoc, pure_bind]

instance : Grows distance := by
  unfold distance
  infer_instance

instance (cell : Nat) (due : String) (diff : HostReg) : Grows (follow cell due diff) := by
  unfold follow
  infer_instance

def leaveBy : Option Nat → EmitM Unit
  | some cell => exitLinked cell
  | none => exitUnlinked

instance (cell : Option Nat) : Grows (leaveBy cell) := by
  cases cell with
  | some cell => exact inferInstanceAs (Grows (exitLinked cell))
  | none => exact inferInstanceAs (Grows exitUnlinked)

def cellFor (target : UInt32) (linkable : Bool) : EmitM (Option Nat) :=
  if linkable then takeCell target else pure none

instance (target : UInt32) (linkable : Bool) : Grows (cellFor target linkable) := by
  unfold cellFor
  infer_instance

theorem exitDirect_eq (cfg : Config) (target : UInt32) (n : Nat) (linkable : Bool) :
    exitDirect cfg target n linkable = (do
      account cfg n
      emit (.stci target Layout.pc)
      let cell ← cellFor target linkable
      leaveBy cell) := by
  cases linkable <;> rfl

end Emit

namespace Working

protected theorem outWord (h : Working c₀ m₀ env e m g) {off : Int} (hoff : HostCache.IsShared off) :
    Runs W Q (outWord off) e m fun d e' m' => Awaits c₀ m₀ env env e' m' g (some (.word off)) d := by
  refine Runs.onCache fun d c hd => ?_
  obtain ⟨m', ha, ho⟩ := h.agrees.allocOut32 (by rcases hoff with rfl | rfl | rfl <;> decide)
    (by rcases hoff with rfl | rfl | rfl <;> decide) hd
  exact ⟨m', ha.emitted, h.awaits ha (.allocOut32 hd hoff) ho⟩

/-- The cycles are counted in the register that has the counter. -/
protected theorem count (h : Working c₀ m₀ [] e m g) (d : UInt32) :
    Runs W Q (count d) e m fun _ e' m' => ∃ cycle, Working c₀ m₀ [] e' m' (g.atCycle cycle) := by
  refine .ite (fun _ => ?_) fun _ => .pure ⟨g.cycle, h⟩
  refine .bind (h.inWord (.inl rfl)).result fun x e₁ m₁ hin => ?_
  obtain ⟨h, hx⟩ := hin
  refine .bind (h.outWord (.inl rfl)) fun y e₂ m₂ h => ?_
  -- Both registers hold the counter.
  obtain rfl : y = x := by
    obtain ⟨r, rfl⟩ := HostCache.ofSlot_of_allocIn32 hx
    obtain ⟨r', rfl, hword, -⟩ := h.owns
    rcases h.working.operands _ _ _ List.mem_cons_self with ⟨hz, -⟩ | ⟨r₁, he, -, hbase, -⟩
    · exact absurd hz (Machine.ofSlot_ne_rz r)
    · cases Machine.ofSlot_inj he
      refine congrArg HostReg.ofSlot (h.working.agrees.apart _ _ Layout.cycle ?_ ?_)
      · rw [hword]
        exact List.mem_singleton_self _
      · rw [Content.base_eq_word hbase]
        exact List.mem_singleton_self _
  have hload : g.loadWord Layout.cycle = g.cycle := Cpu.loadWord_of_field? _ (Cpu.field?_offset .cycle)
  have hstore (v : UInt32) : g.storeWords (resultWords (some (.word Layout.cycle)) v) =
      g.atCycle v := by
    simp only [resultWords, Option.elim, Content.words, Cpu.storeWords, List.foldl]
    exact Cpu.storeWord_of_field? g v (Cpu.field?_offset .cycle)
  refine (h.write (by simp) rfl (perform_const .add (h.valueAt 0 rfl) (by simp))).imp
    fun _ e₃ m₃ h => ?_
  rw [hload, hstore] at h
  exact ⟨_, h.forget⟩

theorem flushAll (h : Working c₀ m₀ [] e m g) :
    Runs W Q (modifyCache (·.flushAll)) e m fun _ e' m' =>
      Working c₀ m₀ [] e' m' g ∧ e'.cache.Clean := by
  obtain ⟨m', hem, ha, hregs⟩ := Releases.flushAll e.cache m g h.agrees
  have hp : e.cache.flushAll.Proper := h.proper.assigns (.flushAll e.cache)
  have hk : TempsKept c₀ m₀ e.cache.flushAll m' :=
    ⟨fun r hr => (e.cache.temp_flushAll r).mpr (h.kept.content r hr),
      fun r hr => (hregs _).trans (h.kept.regs r hr)⟩
  have hstored (c' : HostCache) (ha : Agrees c' m' g) (hp : c'.Proper)
      (hk : TempsKept c₀ m₀ c' m') (hc : c'.Clean) :
      Working c₀ m₀ [] { e with cache := c' } m' g ∧
        ({ e with cache := c' } : Emitter).cache.Clean :=
    ⟨⟨ha, hp, hk, nofun, nofun, .nil⟩, hc⟩
  exact .modifyCache hem (hstored _ ha hp hk e.cache.dirty_flushAll)

protected theorem account (h : Working c₀ m₀ [] e m g)
    (hd : e.cache.depth = 0 → ∀ r, (c₀.slot r).content ≠ .temp) :
    Runs W Q (account cfg n) e m fun _ e' m' =>
      ∃ cycle, Working c₀ m₀ [] e' m' (g.atCycle cycle) ∧ e'.cache.Clean := by
  rw [account_eq]
  have hopen : Working c₀ m₀ [] { e with cache := e.cache.startOp } m g :=
    h.congr rfl rfl (fun _ => rfl) rfl
  refine .bind (.modifyCache (L := fun _ e' m' => Working c₀ m₀ [] e' m' g ∧
    e'.cache.depth = e.cache.depth + 1) (.refl _ _) ⟨hopen, rfl⟩) fun _ e₁ m₁ ⟨h, hdepth⟩ => ?_
  refine .bind (h.count _).nested fun _ e₂ m₂ ⟨⟨cycle, h⟩, hdepth'⟩ => ?_
  refine .bind (h.endScope fun hone => hd (by omega)) fun _ e₃ m₃ h => ?_
  exact h.flushAll.imp fun _ _ _ h => ⟨cycle, h⟩

theorem writePc {j : Ir.Instr String} (h : Working c₀ m₀ env e m g)
    (hx : m.perform j = { m with ctx := m.ctx.storeWord Layout.pc v }.next)
    (hi : j.isPlain = true) :
    Runs W Q (emit j) e m fun _ e' m' =>
      Working c₀ m₀ env e' m' (g.goto v) ∧ (e.cache.Clean → e'.cache.Clean) := by
  have hstore : g.storeWord Layout.pc v = (g.goto v) :=
    Cpu.storeWord_of_field? _ _ (Cpu.field?_offset .pc)
  rw [← hstore]
  refine (h.writeContext (by decide) (by decide) (not_isShared (by decide)) hi hx).result.imp
    fun _ e' m' ⟨h, he⟩ => ⟨h, fun hc => ?_⟩
  cases he
  exact hc.of_slots rfl

theorem writeLastCell (h : Working c₀ m₀ env e m g) (v : UInt32) :
    Runs W Q (emit (.stci v Layout.lastCell)) e m fun _ e' m' =>
      Working c₀ m₀ env e' m' (g.framed { g.frame with lastCell := v }) ∧
        (e.cache.Clean → e'.cache.Clean) := by
  have hstore : g.storeWord Layout.lastCell v = g.framed { g.frame with lastCell := v } :=
    Cpu.storeWord_of_field? _ _ (Cpu.field?_offset .lastCell)
  rw [← hstore]
  refine (h.writeContext (by decide) (by decide) (by simp [HostCache.IsShared, Layout.lastCell, Layout.cycle, Layout.nextEvent, Layout.fcr31]) rfl rfl).result.imp
    fun _ e' m' ⟨h, he⟩ => ⟨h, fun hc => ?_⟩
  cases he
  exact hc.of_slots rfl

protected theorem distance (h : Working c₀ m₀ [] e m g) (hc : e.cache.Clean) :
    Runs W Q distance e m fun diff e' m' =>
      (∃ v, Working c₀ m₀ [(diff, .temp, v)] e' m' g) ∧ e'.cache.Clean := by
  unfold Emit.distance
  refine .bind (h.inWord (.inl rfl)).result fun x e₁ m₁ ⟨h, hx⟩ => ?_
  have hc := hc.inWord hx
  refine .bind (h.inWord (.inr (.inl rfl))).result fun y e₂ m₂ ⟨h, hx⟩ => ?_
  have hc := hc.inWord hx
  refine .bind h.temp.result fun t e₃ m₃ ⟨h, hx⟩ => ?_
  have hc := hc.temp hx
  refine .bind (h.setTemp 0 rfl (i := .bin .sub x y t) rfl
    (perform_bin .sub (h.valueAt 2 rfl) (h.valueAt 1 rfl))).result fun _ e₄ m₄ ⟨h, hx⟩ => ?_
  refine .pure ⟨⟨_, h.weaken (List.sublist_append_left [_] _)⟩, ?_⟩
  cases hx
  exact hc.of_slots rfl

protected theorem exitUnlinked (h : Working c₀ m₀ [] e m g) (hc : e.cache.Clean)
    (hq : ∀ f, Q (g.framed f)) : Runs W Q exitUnlinked e m fun _ _ _ => False := by
  unfold Emit.exitUnlinked
  refine .bind (h.writeLastCell 0) fun _ e₁ m₁ ⟨h, hclean⟩ => .exit ?_
  rw [h.agrees.ctx_eq (hclean hc)]
  exact hq _

protected theorem exitLinked {cell : Nat} (h : Working c₀ m₀ [] e m g) (hc : e.cache.Clean)
    (hq : ∀ f, Q (g.framed f)) : Runs W Q (exitLinked cell) e m fun _ _ _ => False := by
  rw [exitLinked_eq]
  refine .bind h.freshLabel.result fun due e₁ m₁ ⟨⟨h₁, _⟩, he⟩ => ?_
  have hc : e₁.cache.Clean := by
    cases he
    exact hc
  refine .bind (h₁.writeLastCell _) fun _ e₂ m₂ ⟨h₂, hclean⟩ => ?_
  refine .bind (.modifyCache (L := fun _ e' m' => Working c₀ m₀ [] e' m' _ ∧ e'.cache.Clean)
    (.refl _ _) ⟨h₂.congr rfl rfl (fun _ => rfl) rfl, (hclean hc).of_slots rfl⟩)
    fun _ e₃ m₃ ⟨h₃, hc⟩ => ?_
  refine .bind (h₃.distance hc) fun diff e₄ m₄ ⟨⟨v, h₄⟩, hc⟩ => ?_
  have hend : Q m₄.ctx := by
    rw [h₄.agrees.ctx_eq hc]
    exact hq _
  refine .bind (.linking (K := fun _ _ m' => Q m'.ctx) (fun _ => rfl) fun _ _ => hend)
    fun _ e₅ m₅ hend => ?_
  exact .bind (.endOp (K := fun _ _ m' => Q m'.ctx) fun _ => hend) fun _ _ _ hend => .exit hend

protected theorem cellFor {target : UInt32} {linkable : Bool} (h : Working c₀ m₀ env e m g)
    (hc : e.cache.Clean) : Runs W Q (cellFor target linkable) e m fun _ e' m' =>
      Working c₀ m₀ env e' m' g ∧ e'.cache.Clean := by
  refine .ite (fun _ => .of_emitted fun cell e' hx => ?_) fun _ => .pure ⟨h, hc⟩
  obtain ⟨hcache, -⟩ := takeCell_ok hx
  rw [hcache]
  exact ⟨m, .refl _ _, h.congr (by rw [hcache]) (by rw [hcache]) (fun _ => rfl) rfl, hc⟩

theorem leaveBy {cell : Option Nat} (h : Working c₀ m₀ [] e m g) (hc : e.cache.Clean)
    (hq : ∀ f, Q (g.framed f)) : Runs W Q (leaveBy cell) e m fun _ _ _ => False := by
  cases cell with
  | some cell => exact h.exitLinked hc hq
  | none => exact h.exitUnlinked hc hq

protected theorem exitDirect {target : UInt32} {linkable : Bool} (h : Working c₀ m₀ [] e m g)
    (hs : g.Stands c) (hd : e.cache.depth = 0 → ∀ r, (c₀.slot r).content ≠ .temp)
    (hq : ∀ d, (c.goto target).SameGuest d → Q d) :
    Runs W Q (exitDirect cfg target n linkable) e m fun _ _ _ => False := by
  rw [exitDirect_eq]
  refine .bind (h.account hd) fun _ e₁ m₁ ⟨cycle, h, hc⟩ => ?_
  refine .bind (h.writePc rfl rfl) fun _ e₂ m₂ ⟨h, hclean⟩ => ?_
  have hleft : ∀ f, Q (Cpu.framed ((g.atCycle cycle).goto target) f) :=
    fun f => hq _ (hs.sameGuest target cycle f)
  refine .bind (h.cellFor (hclean hc)) fun cell e₃ m₃ ⟨h, hc⟩ => ?_
  exact h.leaveBy hc hleft

protected theorem exitReg {r : Fin 9} (h : Working c₀ m₀ [] e m g) (hs : g.Stands c)
    (hd : e.cache.depth ≠ 0) (hr : (c₀.slot r).content = .temp)
    (hq : ∀ d, (c.goto (m₀.get (.ofSlot r))).SameGuest d → Q d) :
    Runs W Q (exitReg cfg (.ofSlot r) n) e m fun _ _ _ => False := by
  unfold Emit.exitReg
  refine .bind (h.account fun hz => absurd hz hd) fun _ e₁ m₁ ⟨cycle, h, hc⟩ => ?_
  have hx : m₁.perform (.stc (.ofSlot r) Layout.pc) =
      { m₁ with ctx := m₁.ctx.storeWord Layout.pc (m₀.get (.ofSlot r)) }.next := by
    rw [← h.kept.regs r hr]
    rfl
  refine .bind (h.writePc hx rfl) fun _ e₂ m₂ ⟨h, hclean⟩ => ?_
  exact h.exitUnlinked (hclean hc) fun f => hq _ (hs.sameGuest _ cycle f)

protected theorem exitServed {f : Frame} (h : Working c₀ m₀ [] e m (c.framed f))
    (hd : e.cache.depth = 0 → ∀ r, (c₀.slot r).content ≠ .temp)
    (hq : ∀ d, c.SameGuest d → Q d) :
    Runs W Q (exitServed cfg n) e m fun _ _ _ => False := by
  unfold Emit.exitServed
  refine .bind (h.account hd) fun _ e₁ m₁ ⟨cycle, h, hc⟩ => ?_
  exact h.exitUnlinked hc fun f => hq _ ⟨cycle, c.delay, c.leave, f, rfl⟩

end Working

end Recompiler
