import Recompiler.Proofs.Frames
import Recompiler.Proofs.Releases
import Recompiler.Proofs.Workings

/-!
Services that running code asks for. All guest registers are in the context then, and the owner of
the program interprets the instruction on it. The temporaries come back from the save area, and
everything else is read again.
-/

namespace Recompiler

open Ir Emit

namespace Cpu

/-- The state with another program counter, mark of a delay slot and frame. -/
def placed (c : Cpu) (pc delay : UInt32) (f : Frame) : Cpu := { c with pc, delay, frame := f }

/-- The state `g`, which code stands for, is the state `c` but for what is written before services
only, and for what the last service has left. -/
def Stands (g c : Cpu) : Prop := ∃ pc delay leave f, g = { c with leave }.placed pc delay f

theorem Stands.framed (c : Cpu) (f : Frame) : (c.framed f).Stands c :=
  ⟨c.pc, c.delay, c.leave, f, rfl⟩

theorem Stands.placed {g c : Cpu} (h : g.Stands c) (f : Frame) :
    ∃ leave, g.placed c.pc c.delay f = { c with leave }.framed f := by
  obtain ⟨_, _, leave, _, rfl⟩ := h
  exact ⟨leave, rfl⟩

theorem storeWord_saveSlot (c : Cpu) (r : Fin 9) (v : UInt32) : c.storeWord (saveSlot (.ofSlot r)) v =
    c.framed { c.frame with save := c.frame.save.put r v } :=
  storeWord_of_field? _ _ (field?_offset (.save r))

theorem loadWord_saveSlot (c : Cpu) (r : Fin 9) :
    c.loadWord (saveSlot (.ofSlot r)) = c.frame.save.get r :=
  loadWord_of_field? _ (field?_offset (.save r))

end Cpu

namespace Interp

/-- What a service does for the instruction at the program counter. -/
def service (c : Cpu) (i : Instr) : Service → Cpu
  | .exec => (exec c i).2
  | .step => (step c).2

theorem service_leave (c : Cpu) (leave : UInt32) (i : Instr) (s : Service) :
    service { c with leave } i s = service c i s := by
  cases s <;> rfl

theorem serve_framed (c : Cpu) {f : Frame} {i : Instr} (h : f.callOp = i.word) (s : Service) :
    (c.framed f).serve s = (service c i s).framed f := by
  have hi : (⟨f.callOp⟩ : Instr) = i := by rw [h]
  cases s with
  | exec =>
    unfold Cpu.serve
    rw [show (c.framed f).frame.callOp = f.callOp from rfl, hi]
    exact effect_framed { c with leave := 0 } f i c.pc
  | step => exact congrArg Prod.snd (step_framed c f)

end Interp

theorem Agrees.ctx_eq {c : HostCache} {m : Machine Cpu} {g : Cpu} (h : Agrees c m g)
    (hclean : ∀ r, (c.slot r).dirty = false) : m.ctx = g := by
  refine Cpu.ext_words (fun off _ => h.synced off fun r hd => ?_) h.rest
  rw [hclean r] at hd
  cases hd

theorem HostCache.dirty_flushAll (c : HostCache) (r : Fin 9) : (c.flushAll.slot r).dirty = false := by
  rw [slot_flushAll]
  split <;> rfl

theorem HostCache.mem_temps {c : HostCache} {x : HostReg} :
    x ∈ c.temps ↔ ∃ r, x = .ofSlot r ∧ (c.slot r).content = .temp := by
  simp only [temps, List.mem_map, List.mem_filter, List.mem_finRange, true_and, beq_iff_eq]
  exact ⟨fun ⟨r, hr, hx⟩ => ⟨r, hx.symm, hr⟩, fun ⟨r, hx, hr⟩ => ⟨r, hr, hx.symm⟩⟩

theorem HostCache.temp_flushAll (c : HostCache) (r : Fin 9) :
    (c.flushAll.slot r).content = .temp ↔ (c.slot r).content = .temp := by
  rw [slot_flushAll]
  split
  · rename_i hd
    refine ⟨nofun, fun ht => ?_⟩
    rw [ht] at hd
    cases hd
  · exact Iff.rfl

theorem HostCache.temps_flushAll (c : HostCache) : c.flushAll.temps = c.temps := by
  refine congrArg (List.map HostReg.ofSlot) (List.filter_congr fun r _ => ?_)
  rw [Bool.eq_iff_iff, beq_iff_eq, beq_iff_eq]
  exact c.temp_flushAll r

namespace Emit.Runs

variable {W : Finished} {Q : Cpu → Prop} {α γ : Type} {e : Emitter} {m : Machine Cpu}
  {i : Recompiler.Instr} {c g : Cpu} {f : Frame} {s : Site}

theorem get {K : Emitter → Emitter → Machine Cpu → Prop} (hk : K e e m) :
    Runs W Q (MonadState.get : EmitM Emitter) e m K := by
  intro _ _ he _ hm
  cases he
  exact .here ⟨hm, hk⟩

theorem forIn {I : List γ → Emitter → Machine Cpu → Prop} {f : γ → EmitM Unit}
    [∀ x, Grows (f x)] {xs : List γ}
    (hf : ∀ ys x zs, xs = ys ++ x :: zs → ∀ e m, I ys e m →
      Runs W Q (f x) e m fun _ => I (ys ++ [x])) (h : I [] e m) :
    Runs W Q (ForIn.forIn xs PUnit.unit fun x (_ : PUnit) => do
      f x
      Pure.pure (ForInStep.yield PUnit.unit)) e m fun _ => I xs := by
  suffices hloop : ∀ zs ys e m, xs = ys ++ zs → I ys e m →
      Runs W Q (ForIn.forIn zs PUnit.unit fun x (_ : PUnit) => do
        f x
        Pure.pure (ForInStep.yield PUnit.unit)) e m fun _ => I xs from hloop xs [] e m rfl h
  intro zs
  induction zs with
  | nil =>
    intro ys e m hxs h
    rw [List.forIn_nil, hxs, List.append_nil]
    exact .pure h
  | cons x zs ih =>
    intro ys e m hxs h
    simp only [List.forIn_cons, bind_assoc, pure_bind]
    refine .bind (hf ys x zs hxs e m h) fun _ e m h => ?_
    exact ih (ys ++ [x]) e m (by rw [hxs, List.append_assoc]; rfl) h

end Emit.Runs

def Saved (c : HostCache) (m : Machine Cpu) (f : Frame) : Prop :=
  ∀ r, (c.slot r).content = .temp → f.save.get r = m.get (.ofSlot r)

/-- All registers have been stored, those in `xs` to the save area. -/
structure Spilling (c : HostCache) (m : Machine Cpu) (g : Cpu) (xs : List HostReg) (e' : Emitter)
    (m' : Machine Cpu) : Prop where
  slots : e'.cache.slots = c.flushAll.slots
  fpSlots : e'.cache.fpSlots = c.flushAll.fpSlots
  regs : ∀ x, m'.get x = m.get x
  ctx : ∃ f, m'.ctx = g.framed f ∧ ∀ r, .ofSlot r ∈ xs → f.save.get r = m.get (.ofSlot r)

/-- Everything is stored, and the service gets to know the instruction. -/
structure Describing (c : HostCache) (m : Machine Cpu) (g : Cpu) (s : Site)
    (i : Recompiler.Instr) (e' : Emitter) (m' : Machine Cpu) : Prop where
  slots : e'.cache.slots = c.flushAll.slots
  fpSlots : e'.cache.fpSlots = c.flushAll.fpSlots
  ctx : ∃ f, m'.ctx = g.placed s.pc (ofBool32 s.inDelaySlot) f ∧ f.callOp = i.word ∧ Saved c m f

namespace Emit.Runs

variable {W : Finished} {Q : Cpu → Prop} {α γ : Type} {e : Emitter} {m : Machine Cpu}
  {i : Recompiler.Instr} {c g : Cpu} {f : Frame} {s : Site}

theorem spill (h : Agrees e.cache m g) : Runs W Q spill e m fun xs e' m' =>
    xs = e.cache.temps ∧ Spilling e.cache m g xs e' m' := by
  unfold Emit.spill
  obtain ⟨m₁, hem, ha, hregs⟩ := Releases.flushAll e.cache m g h
  refine .bind (.modifyCache (L := fun _ e' m' => e' = { e with cache := e.cache.flushAll } ∧
    (∀ x, m'.get x = m.get x) ∧ m'.ctx = g) hem
    ⟨rfl, hregs, ha.ctx_eq e.cache.dirty_flushAll⟩) ?_
  rintro _ _ m₁ ⟨rfl, hregs, hctx⟩
  refine .bind (get (K := fun e' e'' m'' => e' = { e with cache := e.cache.flushAll } ∧
    e'' = e' ∧ m'' = m₁) ⟨rfl, rfl, rfl⟩) ?_
  rintro _ _ m₁ ⟨rfl, rfl, rfl⟩
  rw [HostCache.temps_flushAll]
  refine .bind (forIn (I := fun ys e' m' => Spilling e.cache m g ys e' m')
    (fun ys x zs hx e' m' hs => .emit rfl ?_)
    ⟨rfl, rfl, hregs, ⟨g.frame, hctx, nofun⟩⟩)
    fun _ e' m' hs => .pure ⟨rfl, hs⟩
  obtain ⟨hslots, hfp, hregs, f, hctx, hsave⟩ := hs
  obtain ⟨r, rfl, -⟩ := HostCache.mem_temps.mp
    (show x ∈ e.cache.temps from hx ▸ List.mem_append_right _ List.mem_cons_self)
  refine ⟨hslots, hfp, hregs, { f with save := f.save.put r (m.get (.ofSlot r)) }, ?_, ?_⟩
  · change m'.ctx.storeWord (saveSlot (.ofSlot r)) (m'.get (.ofSlot r)) = _
    rw [hctx, Cpu.storeWord_saveSlot, hregs]
    rfl
  · intro r' hr'
    by_cases he : r = r'
    · subst he
      exact Vector.get_put_self _ _ _
    · rw [Vector.get_put_of_ne _ _ he]
      refine hsave r' ?_
      rcases List.mem_append.mp hr' with h | h
      · exact h
      · exact absurd (Machine.ofSlot_inj (List.mem_singleton.mp h)).symm he

theorem describe {xs : List HostReg} {c : HostCache} {m₀ : Machine Cpu}
    (h : Spilling c m₀ g xs e m) (hxs : xs = c.temps) : Runs W Q (describe s i) e m fun _ e' m' =>
      Describing c m₀ g s i e' m' := by
  unfold Emit.describe
  obtain ⟨hslots, hfp, hregs, f, hctx, hsave⟩ := h
  have hstore (off : Int) (k : Cpu.Field) (v : UInt32) (h : k.offset = off) (e' : Emitter)
      (m' : Machine Cpu) : Runs W Q (Emit.emit (.stci v off)) e' m' fun _ e'' m'' =>
        (e''.cache.slots = e'.cache.slots ∧ e''.cache.fpSlots = e'.cache.fpSlots) ∧
          m''.ctx = m'.ctx.setField k v := by
    subst h
    exact .emit rfl ⟨⟨rfl, rfl⟩, Cpu.storeWord_of_field? _ _ (Cpu.field?_offset k)⟩
  refine .bind (hstore Layout.pc .pc _ rfl e m) fun _ e₁ m₁ ⟨hs₁, h₁⟩ => ?_
  refine .bind (hstore Layout.delay .delay _ rfl e₁ m₁) fun _ e₂ m₂ ⟨hs₂, h₂⟩ => ?_
  refine .bind (hstore Layout.callOp .callOp _ rfl e₂ m₂) fun _ e₃ m₃ ⟨hs₃, h₃⟩ => ?_
  refine (hstore Layout.callCount .callCount _ rfl e₃ m₃).imp fun _ e₄ m₄ ⟨hs₄, h₄⟩ => ?_
  rw [h₃, h₂, h₁, hctx] at h₄
  refine ⟨?_, ?_, _, h₄, rfl, fun r hr => hsave r ?_⟩
  · rw [hs₄.1, hs₃.1, hs₂.1, hs₁.1, hslots]
  · rw [hs₄.2, hs₃.2, hs₂.2, hs₁.2, hfp]
  · rw [hxs]
    exact HostCache.mem_temps.mpr ⟨r, rfl, hr⟩

/-- The service either ends the run or comes back at the label. -/
theorem callout {name : String} {service : Service} {K : Unit → Emitter → Machine Cpu → Prop}
    (hctx : m.ctx = c.framed f) (hop : f.callOp = i.word)
    (hraise : (Interp.service c i service).leave ≠ 0 →
      ∀ f, Q ((Interp.service c i service).framed f))
    (hk : (Interp.service c i service).leave = 0 → ∀ b (m' : Machine Cpu),
      m'.ctx = (Interp.service c i service).framed { f with callId := UInt32.ofInt service.id } →
      K () { e with cache := { e.cache with builder := b } } m') :
    Runs W Q (do
      Emit.emit (.callout service.id name)
      Emit.putLabel name) e m K := by
  intro a e' h hp hm
  obtain ⟨_, e₁, hx, h⟩ := bind_ok h
  cases hx
  obtain ⟨b, hb, rfl⟩ := putLabel_ok h
  have hadd : (e.cache.builder.add (.callout service.id name)).Precedes W.builder :=
    (Builder.Precedes.label hb).trans hp.builder
  have hcode := Finished.code_at hadd hm
  have hcalled : Cpu.storeWord m.ctx 16 (UInt32.ofInt service.id) =
      c.framed { f with callId := UInt32.ofInt service.id } := by
    rw [hctx]
    exact Cpu.storeWord_of_field? _ _ (Cpu.field?_offset .callId)
  have hexec := congrArg (fun ctx => ((⟨m.program, m.pc, Vector.ofFn fun r : Fin 16 =>
    if r.val < 9 then poison else m.regs.get r, m.fregs, ctx⟩, .call (W.position name)) :
      Machine Cpu × Machine.Next)) hcalled
  have hserve : (c.framed { f with callId := UInt32.ofInt service.id }).serve service =
      (Interp.service c i service).framed { f with callId := UInt32.ofInt service.id } :=
    Interp.serve_framed c (f := { f with callId := UInt32.ofInt service.id }) hop service
  have hrequested : (c.framed { f with callId := UInt32.ofInt service.id }).requested? =
      some service := by
    cases service <;> rfl
  have hend : W.position name = b.code.size :=
    (Finished.position_eq hb hp.builder).trans (congrArg Array.size (Builder.label_ok hb).1).symm
  refine fun hk' => .call hcode hexec hrequested (fun hl => ?_) fun hl => ?_
  · rw [hserve] at hl ⊢
    exact hraise hl _
  · rw [hserve] at hl ⊢
    exact hk' _ ⟨⟨hm.program, hend⟩, hk hl b _ rfl⟩

theorem ask {name : String} {service : Service} {k : EmitM α} [Grows k]
    {K : α → Emitter → Machine Cpu → Prop}
    (hctx : m.ctx = c.framed f) (hop : f.callOp = i.word)
    (hraise : (Interp.service c i service).leave ≠ 0 →
      ∀ f, Q ((Interp.service c i service).framed f))
    (hk : (Interp.service c i service).leave = 0 → ∀ (e' : Emitter) (m' : Machine Cpu),
      e'.cache.slots = e.cache.slots → e'.cache.fpSlots = e.cache.fpSlots →
      m'.ctx = (Interp.service c i service).framed { f with callId := UInt32.ofInt service.id } →
      Runs W Q k e' m' K) :
    Runs W Q (do
      Emit.emit (.callout service.id name)
      Emit.putLabel name
      k) e m K := by
  rw [← bind_assoc]
  refine .bind (callout (K := fun _ e' m' => (Interp.service c i service).leave = 0 ∧
    (e'.cache.slots = e.cache.slots ∧ e'.cache.fpSlots = e.cache.fpSlots) ∧
      m'.ctx = (Interp.service c i service).framed { f with callId := UInt32.ofInt service.id })
    hctx hop hraise fun hl b m' hm' => ⟨hl, ⟨rfl, rfl⟩, hm'⟩) ?_
  rintro _ e' m' ⟨hl, ⟨hslots, hfp⟩, hm'⟩
  exact hk hl e' m' hslots hfp hm'

end Emit.Runs

theorem Agrees.idle {c : HostCache} {m : Machine Cpu} {g : Cpu}
    (hoff : ∀ r, (c.slot r).content.offsets = [])
    (hconst : ∀ r, (c.slot r).isConst = true →
      (c.slot r).content ≠ .unused ∧ m.get (.ofSlot r) = (c.slot r).value)
    (hctx : m.ctx = g) (hzero : g.reg .zero = 0) (hfp : c.fpSlots = Vector.replicate 8 .empty) :
    Agrees c m g where
  held r p hp := by
    have hm := Content.mem_offsets_of_words hp
    rw [hoff r] at hm
    cases hm
  const := hconst
  apart r _ off hr _ := by
    rw [hoff r] at hr
    cases hr
  valid r := (Content.valid_of_offsets (hoff r)).1
  writable r _ := (Content.valid_of_offsets (hoff r)).2
  synced _ _ := by rw [hctx]
  rest := hctx ▸ .refl _
  zero := hzero
  fp := hfp

theorem HostCache.slot_dropAll (c : HostCache) (r : Fin 9) :
    c.dropAll.slot r = if (c.slot r).content = .temp then c.slot r else .empty := by
  rw [slot, dropAll, Vector.get_map]
  simp only [beq_iff_eq]
  rfl

/-- The instruction `i` at `s` is to be run from the state `c`, for which the code stands in `g`.
The run ends well if a service ends it. -/
structure Begins (Q : Cpu → Prop) (service : Service) (s : Site) (i : Recompiler.Instr)
    (c g : Cpu) : Prop where
  stands : g.Stands c
  pc : c.pc = s.pc
  delay : c.delay = ofBool32 s.inDelaySlot
  raises : (Interp.service c i service).leave ≠ 0 →
    ∀ f, Q ((Interp.service c i service).framed f)
  zero : (Interp.service c i service).leave = 0 → (Interp.service c i service).reg .zero = 0

/-- The state `c` of the interpreter has been reached. The instruction has raised nothing, and the
code stands for it. -/
def Arrives (c₀ : HostCache) (m₀ : Machine Cpu) (c : Cpu) (_ : Unit) (e : Emitter)
    (m : Machine Cpu) : Prop :=
  c.leave = 0 ∧ ∃ g, Working c₀ m₀ [] e m g ∧ g.Stands c

/-- A service has led to the state `c` of the interpreter, and has raised nothing. -/
def Returns (c₀ : HostCache) (m₀ : Machine Cpu) (c : Cpu) (_ : Unit) (e : Emitter)
    (m : Machine Cpu) : Prop :=
  c.leave = 0 ∧ ∃ f, Working c₀ m₀ [] e m (c.framed f)

theorem Returns.arrives {c₀ : HostCache} {m₀ m : Machine Cpu} {c : Cpu} {u : Unit} {e : Emitter}
    (h : Returns c₀ m₀ c u e m) : Arrives c₀ m₀ c u e m := by
  obtain ⟨hl, f, h⟩ := h
  exact ⟨hl, _, h, .framed c f⟩

/-- The instruction has been run by a service: the guest is where the interpreter takes it, and
the temporaries are where they were. -/
theorem Working.request {W : Finished} {Q : Cpu → Prop} {c₀ : HostCache} {m₀ m : Machine Cpu}
    {e : Emitter} {g c : Cpu} {s : Site} {i : Recompiler.Instr} {service : Service}
    (h : Working c₀ m₀ [] e m g) (hb : Begins Q service s i c g) :
    Runs W Q (request service s i) e m (Returns c₀ m₀ (Interp.service c i service)) := by
  obtain ⟨hc, hpc, hdelay, hraise, hzero⟩ := hb
  unfold Emit.request
  refine .bind h.freshLabel fun resume e m hfresh => ?_
  obtain ⟨h, -⟩ := hfresh
  refine .bind (.spill h.agrees) fun xs e₁ m₁ hspilled => ?_
  obtain ⟨hxs, hspill⟩ := hspilled
  refine .bind (.describe hspill hxs) fun _ e₂ m₂ hdescribe => ?_
  obtain ⟨hslots, hfp, f, hctx, hop, hsaved⟩ := hdescribe
  obtain ⟨leave, hplaced⟩ := hc.placed f
  rw [← hpc, ← hdelay, hplaced] at hctx
  rw [← Interp.service_leave c leave] at hraise hzero ⊢
  refine .ask hctx hop hraise fun hleave e₃ m₃ hslots₃ hfp₃ hctx₃ => ?_
  subst hxs
  refine .bind (.forIn (I := fun ys e' m' => (e'.cache.slots = e₃.cache.slots ∧
      e'.cache.fpSlots = e₃.cache.fpSlots) ∧ m'.ctx = m₃.ctx ∧
      ∀ r, .ofSlot r ∈ ys → m'.get (.ofSlot r) = m.get (.ofSlot r))
    (fun ys x zs hx e' m' hs => .emit rfl ?_)
    ⟨⟨rfl, rfl⟩, rfl, fun _ h => absurd h List.not_mem_nil⟩) ?_
  · -- The next temporary comes back from the save area.
    obtain ⟨hsame, hctx', hregs⟩ := hs
    obtain ⟨r, rfl, hr⟩ := HostCache.mem_temps.mp
      (show x ∈ e.cache.temps from hx ▸ List.mem_append_right _ List.mem_cons_self)
    have hload : m'.ctx.loadWord (saveSlot (.ofSlot r)) = m.get (.ofSlot r) := by
      rw [hctx', hctx₃, Cpu.loadWord_saveSlot]
      exact hsaved r hr
    rw [perform_ldc hload]
    refine ⟨hsame, (Machine.ctx_set _ _ _).trans hctx', fun r' hr' => ?_⟩
    by_cases he : r = r'
    · subst he
      exact m'.get_set_self r _
    · refine (m'.get_set_of_ne _ fun hs => he (Machine.ofSlot_inj hs)).trans (hregs r' ?_)
      rcases List.mem_append.mp hr' with h | h
      · exact h
      · exact absurd (Machine.ofSlot_inj (List.mem_singleton.mp h)).symm he
  rintro _ e₄ m₄ ⟨⟨hslots₄, hfp₄⟩, hctx₄, hregs⟩
  have hslot (r : Fin 9) : e₄.cache.dropAll.slot r =
      if (e.cache.slot r).content = .temp then { e.cache.slot r with dirty := false }
      else .empty := by
    have heq : e₄.cache.slot r = e.cache.flushAll.slot r := by
      rw [HostCache.slot, hslots₄, hslots₃, hslots, HostCache.slot]
    simp only [HostCache.slot_dropAll, heq, e.cache.temp_flushAll r]
    split
    · rename_i ht
      rw [HostCache.slot_flushAll, if_neg (by simp [ht])]
    · rfl
  refine .modifyCache (.refl _ _) ⟨hleave, _, ⟨.idle (fun r => ?_) (fun r hr => ?_)
    (hctx₄.trans hctx₃) (hzero hleave) rfl, ?_, ?_, fun _ _ _ h => absurd h List.not_mem_nil,
    fun _ _ h => absurd h List.not_mem_nil, .nil⟩⟩
  · rw [hslot]
    split
    · rename_i ht
      exact congrArg Content.offsets ht
    · rfl
  · rw [hslot] at hr ⊢
    split at hr
    · rename_i ht
      rw [if_pos ht]
      refine ⟨by rw [ht]; exact Content.noConfusion, ?_⟩
      rw [hregs r (HostCache.mem_temps.mpr ⟨r, rfl, ht⟩)]
      exact (h.agrees.const r hr).2
    · cases hr
  · intro r off hr
    rw [hslot] at hr
    split at hr
    · rename_i ht
      cases ht.symm.trans hr
    · cases hr
  · refine h.kept.trans ⟨fun r hr => ?_, fun r hr => ?_⟩
    · rw [hslot, if_pos hr]
      exact hr
    · exact hregs r (HostCache.mem_temps.mpr ⟨r, rfl, hr⟩)

theorem Emit.Runs.jump {W : Finished} {Q : Cpu → Prop} {e : Emitter} {m : Machine Cpu}
    {name : String} {K : Unit → Emitter → Machine Cpu → Prop}
    (h : m.program = W.program → Ends Q { m with pc := W.position name }) :
    Runs W Q (Emit.emit (.jump name)) e m K := by
  intro a e' ha hp hm
  cases ha
  have hcode := Finished.code_at (b := e.cache.builder) (i := .jump name) hp.builder hm
  exact fun _ => .jump hcode rfl (h hm.program)

/-- The machine comes back from the slow path of an instruction that takes the guest to `c`. -/
structure Emit.Stub.Reloads (stub : Stub) (m : Machine Cpu) (c : Cpu) (m' : Machine Cpu) :
    Prop where
  ctx : ∃ f, m'.ctx = c.framed f
  temps : ∀ r, (stub.enter.slots.get r).content = .temp →
    (stub.leave.slots.get r).content = .temp → m'.get (.ofSlot r) = m.get (.ofSlot r)
  words : ∀ r, (stub.leave.slots.get r).content ≠ .unused →
    (stub.leave.slots.get r).content ≠ .temp →
      m'.get (.ofSlot r) = m'.ctx.loadWord (stub.leave.slots.get r).content.offset

/-- One register is loaded. -/
theorem Emit.Runs.reload {W : Finished} {Q : Cpu → Prop} {e : Emitter} {m : Machine Cpu} {r : Fin 9}
    {xs : List HostReg} {sl : Slot} {K : Unit → Emitter → Machine Cpu → Prop}
    (hk : ∀ e' m', m'.ctx = m.ctx → (∀ r', r' ≠ r → m'.get (.ofSlot r') = m.get (.ofSlot r')) →
      (sl.content = .temp → .ofSlot r ∈ xs →
        m'.get (.ofSlot r) = m.ctx.loadWord (saveSlot (.ofSlot r))) →
      (sl.content ≠ .unused → sl.content ≠ .temp →
        m'.get (.ofSlot r) = m.ctx.loadWord sl.content.offset) → K () e' m') :
    Runs W Q (reload xs (.ofSlot r) sl) e m K := by
  have hload (off : Int) : (m.perform (.ldc off (.ofSlot r))).ctx = m.ctx ∧
      (m.perform (.ldc off (.ofSlot r))).get (.ofSlot r) = m.ctx.loadWord off ∧
      ∀ r', r' ≠ r → (m.perform (.ldc off (.ofSlot r))).get (.ofSlot r') = m.get (.ofSlot r') := by
    rw [perform_ldc rfl]
    exact ⟨m.ctx_set _ _, m.get_set_self r _,
      fun r' hr' => m.get_set_of_ne _ fun he => hr' (Machine.ofSlot_inj he).symm⟩
  unfold Emit.reload
  split
  · rename_i hu
    exact .pure (hk _ _ rfl (fun _ _ => rfl)
      (fun ht => absurd (hu.symm.trans ht) Content.noConfusion) fun hn _ => absurd hu hn)
  · rename_i ht
    refine .ite (fun hx => ?_) fun hx => ?_
    · obtain ⟨hctx, hself, hother⟩ := hload (saveSlot (.ofSlot r))
      exact .emit rfl (hk _ _ hctx hother (fun _ _ => hself) fun _ hn => absurd ht hn)
    · exact .pure (hk _ _ rfl (fun _ _ => rfl)
        (fun _ hmem => absurd (List.contains_iff_mem.mpr hmem) hx) fun _ hn => absurd ht hn)
  · rename_i hu ht
    obtain ⟨hctx, hself, hother⟩ := hload sl.content.offset
    exact .emit rfl (hk _ _ hctx hother (fun h => absurd h ht) fun _ _ => hself)

namespace Emit

/-- The end of a slow path, where registers are loaded. -/
def comeBack (stub : Stub) (temps : List HostReg) : EmitM Unit := do
  for r in List.finRange 9 do
    reload temps (.ofSlot r) (stub.leave.slots.get r)
  for r in List.finRange 8 do
    reloadFp (.ofSlot r) (stub.leave.fpSlots.get r)
  emit (.jump (Stub.joinLabel stub.id))

instance (stub : Stub) (temps : List HostReg) : Grows (comeBack stub temps) := by
  unfold comeBack
  infer_instance

/-- The code of a slow path after its label. -/
def stubCode (stub : Stub) : EmitM Unit := do
  modifyCache (·.restore stub.enter)
  let temps ← spill
  emit (.stc stub.addr Layout.callAddr)
  describe stub.site stub.op
  emit (.callout Service.exec.id (Stub.resumeLabel stub.id))
  putLabel (Stub.resumeLabel stub.id)
  comeBack stub temps

instance (stub : Stub) : Grows (stubCode stub) := by
  unfold stubCode
  infer_instance

theorem emitStub_eq (stub : Stub) :
    emitStub stub = putLabel (Stub.entryLabel stub.id) >>= fun _ => stubCode stub := rfl

end Emit

section

variable {W : Finished} {Q : Cpu → Prop} {stub : Stub} {e : Emitter} {m m₀ : Machine Cpu}
  {g c : Cpu} {f : Frame} {K : Unit → Emitter → Machine Cpu → Prop}

/-- The registers are loaded, and the run goes on where the fast path ends. -/
theorem Emit.Stub.comesBack {xs : List HostReg} (hctx : m.ctx = c.framed f)
    (hxs : ∀ r, (stub.enter.slots.get r).content = .temp →
      .ofSlot r ∈ xs ∧ f.save.get r = m₀.get (.ofSlot r))
    (hfp : stub.leave.fpSlots = Vector.replicate 8 .empty)
    (hk : ∀ m', m'.program = W.program → m'.pc = W.position (Stub.joinLabel stub.id) →
      stub.Reloads m₀ c m' → Ends Q m') : Runs W Q (comeBack stub xs) e m K := by
  unfold comeBack
  refine .bind (.forIn (I := fun ys _ m' => m'.ctx = m.ctx ∧ ∀ r ∈ ys,
    ((stub.enter.slots.get r).content = .temp → (stub.leave.slots.get r).content = .temp →
      m'.get (.ofSlot r) = m₀.get (.ofSlot r)) ∧
    ((stub.leave.slots.get r).content ≠ .unused → (stub.leave.slots.get r).content ≠ .temp →
      m'.get (.ofSlot r) = m'.ctx.loadWord (stub.leave.slots.get r).content.offset))
    (fun ys r zs hrs e' m' hs => .reload fun e'' m'' hctx'' hother htemp hword => ?_)
    ⟨rfl, nofun⟩) fun _ e₁ m₁ hs => ?_
  · obtain ⟨hctx', hs⟩ := hs
    refine ⟨hctx''.trans hctx', fun r' hr' => ?_⟩
    by_cases he : r' = r
    · subst he
      refine ⟨fun ht hl => ?_, fun hu ht => ?_⟩
      · rw [htemp hl (hxs r' ht).1, hctx', hctx, Cpu.loadWord_saveSlot]
        exact (hxs r' ht).2
      · rw [hctx'']
        exact hword hu ht
    · rw [hother r' he, hctx'']
      refine hs r' ?_
      rcases List.mem_append.mp hr' with h | h
      · exact h
      · exact absurd (List.mem_singleton.mp h) he
  · obtain ⟨hctx₁, hs⟩ := hs
    refine .bind (.forIn (I := fun _ _ m' => m' = m₁) (fun ys r zs hrs e' m' hs => ?_) rfl)
      fun _ e₂ m₂ hm₂ => .jump fun hprogram => ?_
    · rw [hfp, Vector.get_replicate]
      exact .pure hs
    · subst hm₂
      exact hk _ hprogram rfl ⟨⟨f, hctx₁.trans hctx⟩,
        fun r => (hs r (List.mem_finRange r)).1, fun r => (hs r (List.mem_finRange r)).2⟩

/-- The slow path ends the run, or leads to where the fast path ends. -/
theorem Emit.Stub.ends {e₁ e₂ : Emitter}
    (hx : emitStub stub e₁ = .ok () e₂) (hp : e₂.Precedes W.emitter)
    (hprogram : m.program = W.program) (hpc : m.pc = W.position (Stub.entryLabel stub.id))
    (ha : ∀ c : HostCache, Agrees (c.restore stub.enter) m g)
    (hfp : stub.leave.fpSlots = Vector.replicate 8 .empty)
    (hbegins : Begins Q .exec stub.site stub.op c g)
    (hk : (Interp.service c stub.op .exec).leave = 0 → ∀ m', m'.program = W.program →
      m'.pc = W.position (Stub.joinLabel stub.id) →
        stub.Reloads m (Interp.service c stub.op .exec) m' → Ends Q m') : Ends Q m := by
  rw [emitStub_eq] at hx
  obtain ⟨_, e, hlabel, hx⟩ := bind_ok hx
  obtain ⟨b, hb, rfl⟩ := putLabel_ok hlabel
  have hprecedes : b.Precedes W.builder := ((Grows.precedes hx).trans hp).builder
  have hat : W.At b m := by
    refine ⟨hprogram, hpc.trans ((Finished.position_eq hb hprecedes).trans ?_)⟩
    rw [(Builder.label_ok hb).1]
  suffices hruns : Runs W Q (stubCode stub) { e₁ with cache := { e₁.cache with builder := b } } m
      fun _ _ _ => False from hruns _ _ hx hp hat fun _ h => h.2.elim
  unfold stubCode
  refine .bind (.modifyCache (L := fun _ e' m' =>
    e'.cache = HostCache.restore { e₁.cache with builder := b } stub.enter ∧ m' = m) (.refl _ _)
      ⟨rfl, rfl⟩) ?_
  rintro _ e m ⟨hcache, rfl⟩
  have hm : Agrees e.cache m g := by
    rw [hcache]
    exact ha _
  have henter (r : Fin 9) : e.cache.slot r = stub.enter.slots.get r := by
    rw [hcache]
    rfl
  refine .bind (.spill hm) fun xs e₃ m₃ ⟨hxs, hspill⟩ => ?_
  have haddr : Runs W Q (Emit.emit (.stc stub.addr Layout.callAddr)) e₃ m₃ fun _ e' m' =>
      Spilling e.cache m g xs e' m' := by
    obtain ⟨hslots, hfp, hregs, f, hctx, hsave⟩ := hspill
    refine .emit rfl ⟨hslots, hfp, hregs, { f with callAddr := m₃.get stub.addr }, ?_, hsave⟩
    change m₃.ctx.storeWord Layout.callAddr (m₃.get stub.addr) = _
    rw [hctx]
    exact Cpu.storeWord_of_field? _ _ (Cpu.field?_offset .callAddr)
  refine .bind haddr fun _ e₄ m₄ hspill => ?_
  refine .bind (.describe hspill hxs) fun _ e₅ m₅ hdescribe => ?_
  obtain ⟨-, -, f, hctx, hop, hsaved⟩ := hdescribe
  obtain ⟨hc, hpc, hdelay, hraise, -⟩ := hbegins
  obtain ⟨leave, hplaced⟩ := hc.placed f
  rw [← hpc, ← hdelay, hplaced] at hctx
  rw [← Interp.service_leave c leave] at hraise hk
  refine .ask hctx hop hraise fun hleave e₆ m₆ _ _ hctx₆ => ?_
  refine stub.comesBack hctx₆ (fun r hr => ?_) hfp (hk hleave)
  rw [← henter] at hr
  exact ⟨hxs ▸ HostCache.mem_temps.mpr ⟨r, rfl, hr⟩, hsaved r hr⟩

end

end Recompiler
