import Recompiler.Proofs.CalledServices

/-!
Code with a slow path. The slow path branches off with what the registers held there, and comes
back with every register as the fast path leaves it, so that the code after both goes on from
either.
-/

namespace Recompiler

open Ir Emit

/-- The words that registers may hold: those of guest registers, and a few others. -/
def HostCache.IsHeld (off : Int) : Prop := (64 ≤ off ∧ off < 336) ∨ IsShared off

namespace Cpu

/-- The states have the same words as far as registers may hold them. -/
def SameHeld (c d : Cpu) : Prop := ∀ off, HostCache.IsHeld off → c.loadWord off = d.loadWord off

variable {c d : Cpu}

theorem SameHeld.of_fields (hgpr : c.gpr = d.gpr) (hhi : c.hi = d.hi) (hlo : c.lo = d.lo)
    (hcycle : c.cycle = d.cycle) (hevent : c.nextEvent = d.nextEvent) (hfcr : c.fcr31 = d.fcr31) :
    SameHeld c d := by
  intro off h
  unfold loadWord
  cases hk : field? off with
  | none => rfl
  | some k =>
    have hoff := offset_of_field? hk
    subst hoff
    cases k <;> first
      | simp only [getField, hgpr, hhi, hlo, hcycle, hevent, hfcr]; done
      | exfalso
        simp only [HostCache.IsHeld, HostCache.IsShared, Field.offset, Layout.cycle,
          Layout.nextEvent, Layout.fcr31] at h
        omega

theorem Stands.sameHeld (h : c.Stands d) : SameHeld c d := by
  obtain ⟨pc, delay, leave, f, rfl⟩ := h
  exact .of_fields rfl rfl rfl rfl rfl rfl

theorem SameHeld.symm (h : SameHeld c d) : SameHeld d c := fun off hoff => (h off hoff).symm

theorem SameHeld.trans {e : Cpu} (h : SameHeld c d) (h' : SameHeld d e) : SameHeld c e :=
  fun off hoff => (h off hoff).trans (h' off hoff)

end Cpu

def HostCache.TempsWithin (c c' : HostCache) : Prop :=
  ∀ r, (c'.slot r).content = .temp → (c.slot r).content = .temp

namespace HostCache.TempsWithin

variable {c c' c'' : HostCache} {x : HostReg} {content : Content} {gr : GuestReg}

theorem refl (c : HostCache) : c.TempsWithin c := fun _ h => h

theorem trans (h : c.TempsWithin c') (h' : c'.TempsWithin c'') : c.TempsWithin c'' :=
  fun r hr => h r (h' r hr)

theorem of_contents (h : ∀ r, (c'.slot r).content = (c.slot r).content) : c.TempsWithin c' :=
  fun r hr => (h r).symm.trans hr

theorem update {r : Fin 9} (hs : (c'.slot r).content ≠ .temp)
    (ho : ∀ r', r ≠ r' → c'.slot r' = c.slot r') : c.TempsWithin c' := by
  intro r' hr'
  by_cases he : r = r'
  · subst he
    exact absurd hr' hs
  · rwa [← ho r' he]

theorem setSlot {r : Fin 9} {s : Slot} (hs : s.content ≠ .temp) : c.TempsWithin (c.setSlot r s) :=
  .update (by rwa [slot_setSlot_self]) fun _ he => slot_setSlot_of_ne c s he

theorem touch (c : HostCache) (r : Fin 9) : c.TempsWithin (c.touch r) := by
  refine .of_contents fun r' => ?_
  by_cases he : r = r'
  · rw [← he, slot_touch_self]
  · rw [slot_touch_of_ne c he]

theorem replace {r : Fin 9} {s : Slot} (hs : s.content ≠ .temp) : c.TempsWithin (c.replace r s) :=
  .update (by rwa [slot_replace_self]) fun _ he => slot_replace_of_ne c s he

theorem claimReg {dirty : Bool} (h : HostCache.claimReg content dirty c = .ok x c')
    (hc : content ≠ .temp) : c.TempsWithin c' := by
  obtain ⟨r, -, -, rfl⟩ := claimReg_ok h
  exact .replace hc

theorem overwrite {r : Fin 9} (h : HostCache.overwrite r content c = .ok x c')
    (hc : content ≠ .temp) : c.TempsWithin c' := by
  cases h
  exact .trans (.setSlot hc) (.touch _ r)

theorem materialize {lo : Fin 9} {ext : Extension}
    (h : HostCache.materialize gr lo ext c = .ok x c') : c.TempsWithin c' := by
  obtain ⟨r, -, -, rfl⟩ := materialize_ok h
  have himplied (c : HostCache) : c.TempsWithin (c.emitImplied lo r ext) := by
    refine .of_contents fun r' => ?_
    by_cases he : r = r'
    · subst he
      cases ext with
      | sign => rfl
      | zero | one =>
        rw [emitImplied, setConst, modifySlot_ofSlot, slot_setSlot_self]
        rfl
    · rw [slot_emitImplied_of_ne c lo ext he]
  refine (((touch c lo).trans (.replace (s := .fresh (.high gr) _) ?_)).trans (himplied _)).trans
    (.setSlot ?_)
  · exact Content.noConfusion
  · exact Content.noConfusion

theorem allocOutExt {ext : Extension} (h : HostCache.allocOutExt gr ext c = .ok x c') :
    c.TempsWithin c' := by
  by_cases h0 : gr.val = 0
  · rw [HostCache.allocOutExt, if_pos h0] at h
    cases h
    exact .refl c
  · have hdrop : c.TempsWithin (c.dropHigh gr) := by
      unfold dropHigh
      split
      · exact .setSlot nofun
      · exact .refl c
    rw [allocOutExt_eq c ext h0] at h
    split at h
    · exact hdrop.trans (overwrite h nofun)
    · exact hdrop.trans (claimReg h nofun)

theorem allocOutHigh (h : HostCache.allocOutHigh gr c = .ok x c') : c.TempsWithin c' := by
  by_cases h0 : gr.val = 0
  · rw [HostCache.allocOutHigh, if_pos h0] at h
    cases h
    exact .refl c
  · have hsplit : c.TempsWithin (c.splitLow gr) := by
      unfold splitLow
      split
      · exact .setSlot nofun
      · exact .refl c
    rw [allocOutHigh_eq c h0] at h
    split at h
    · exact hsplit.trans (overwrite h nofun)
    · exact hsplit.trans (claimReg h nofun)

theorem allocOutLow (h : HostCache.allocOutLow gr c = .ok x c') : c.TempsWithin c' := by
  by_cases h0 : gr.val = 0
  · rw [HostCache.allocOutLow, if_pos h0] at h
    cases h
    exact .refl c
  · rw [allocOutLow_eq c h0] at h
    split at h
    · exact claimReg h Content.noConfusion
    · split at h
      · split at h
        · split at h
          · rename_i hm
            exact (materialize hm).trans (overwrite h Content.noConfusion)
          · cases h
        · exact overwrite h Content.noConfusion
      · exact overwrite h Content.noConfusion

end HostCache.TempsWithin

/-- The registers are assigned as if the machine stood for `g`. Temporaries are those that were
there where the slow path branches off. -/
structure Planned (c : HostCache) (m : Machine Cpu) (c' : HostCache) (g : Cpu) : Prop where
  temps : c.TempsWithin c'
  proper : c'.Proper
  agrees : ∃ m', Agrees c' m' g ∧ TempsKept c m c' m'

namespace Planned

variable {c c' c'' : HostCache} {m : Machine Cpu} {g : Cpu} {x y : HostReg} {gr : GuestReg}

theorem start (h : Agrees c m g) (hp : c.Proper) : Planned c m c g :=
  ⟨.refl c, hp, m, h, .refl c m⟩

theorem of_slots (h : Planned c m c' g) (hs : c''.slots = c'.slots)
    (hf : c''.fpSlots = c'.fpSlots) : Planned c m c'' g := by
  have hslot (r : Fin 9) : c''.slot r = c'.slot r := by rw [HostCache.slot, hs, HostCache.slot]
  obtain ⟨htemps, hproper, n, hn, hkept⟩ := h
  refine ⟨htemps.trans (.of_contents fun r => by rw [hslot]), hproper.of_slots hs, n,
    hn.of_slots (fun r => ?_) hf, hkept.trans (.of_slots (fun r => by rw [hslot]) fun _ => rfl)⟩
  rw [hslot]
  exact .refl _

theorem outExt (h : Planned c m c' g) {ext : Extension}
    (hx : HostCache.allocOutExt gr ext c' = .ok x c'') (v : UInt32) :
    Planned c m c'' (g.setGuest gr (joinWords (ext.word v) v)) := by
  obtain ⟨htemps, hproper, n, hn, hkept⟩ := h
  obtain ⟨n', -, hn', howns, hregs, hsame⟩ := hn.allocOutExt hx
  refine ⟨htemps.trans (.allocOutExt hx), hproper.assigns (.allocOutExt hx), n'.set x v, ?_,
    hkept.trans (.set ⟨fun r ht => ?_, fun r _ => hregs _⟩ (fun r ht => ?_) v)⟩
  · have hset := howns.write hn' v
    rwa [storeWords_resultWords, storeWords_ext] at hset
  all_goals
    have hkeep : c''.slot r = c'.slot r :=
      hsame r (TempsKept.pinned ht) (by rw [ht]; nofun) (by rw [ht]; nofun)
  · rwa [hkeep]
  · exact Working.ne_temp_of_owns howns (Awaits.target_ne_temp (by nofun)) r (by rwa [hkeep])

theorem outBoth {c₁ : HostCache} (h : Planned c m c' g)
    (hx : HostCache.allocOutHigh gr c' = .ok x c₁) (hy : HostCache.allocOutLow gr c₁ = .ok y c'')
    (v : UInt64) : Planned c m c'' (g.setGuest gr v) := by
  obtain ⟨htemps, hproper, n, hn, hkept⟩ := h
  obtain ⟨n₁, hhigh, hownsHigh⟩ := hn.allocOutHigh hx
  obtain ⟨n₂, hlow, hownsLow⟩ := hhigh.agrees.allocOutLow hy
  have hownsHigh := hownsHigh.stable hlow.stable
  have hset := hownsLow.write (hownsHigh.write hlow.agrees (highWord v)) (lowWord v)
  rw [storeWords_words, joinWords_high_low] at hset
  have hassigns : HostCache.Assigns HostCache.IsShared (fun _ _ => False) c' c'' :=
    .trans (.allocOutHigh hx) (.allocOutLow hy)
  have hkept := (hkept.trans (.of_stable hhigh.stable)).trans (.of_stable hlow.stable)
  refine ⟨htemps.trans (.trans (.allocOutHigh hx) (.allocOutLow hy)), hproper.assigns hassigns, _, hset,
    (hkept.set (fun r ht => ?_) _).set (fun r ht => ?_) _⟩
  · exact Working.ne_temp_of_owns hownsHigh (Awaits.target_ne_temp (by nofun)) r (hkept.content r ht)
  · exact Working.ne_temp_of_owns hownsLow (Awaits.target_ne_temp (by nofun)) r (hkept.content r ht)

end Planned

theorem Content.offset_mem {content : Content} (hu : content ≠ .unused) (ht : content ≠ .temp)
    (v : UInt32) : (content.offset, v) ∈ content.words v := by
  cases content with
  | unused => exact absurd rfl hu
  | temp => exact absurd rfl ht
  | low g ext => cases ext <;> exact List.mem_cons_self
  | _ => exact List.mem_cons_self

variable {W : Finished} {Q : Cpu → Prop} {c₀ : HostCache} {m₀ m m' : Machine Cpu} {env : Operands}
  {e e' : Emitter} {g c : Cpu} {s : Site} {i : Recompiler.Instr} {stub : Stub}

/-- A register holds a word of the guest that is no word of the frame. -/
theorem HostCache.Proper.word_of_mem {c : HostCache} (hp : c.Proper) {r : Fin 9} {off : Int}
    (ho : off ∈ (c.slot r).content.offsets) : HostCache.IsHeld off := by
  have hguest (gr : GuestReg) : (64 ≤ Layout.lowWord gr ∧ Layout.lowWord gr < 336) ∧
      64 ≤ Layout.highWord gr ∧ Layout.highWord gr < 336 := by
    unfold Layout.lowWord Layout.highWord
    omega
  have hproper := hp r
  generalize (c.slot r).content = content at ho hproper
  match content with
  | .unused | .temp => cases ho
  | .high gr =>
    obtain rfl := List.mem_singleton.mp ho
    exact .inl (hguest gr).2
  | .low gr none =>
    obtain rfl := List.mem_singleton.mp ho
    exact .inl (hguest gr).1
  | .low gr (some _) =>
    rcases List.mem_cons.mp ho with rfl | ho
    · exact .inl (hguest gr).1
    · obtain rfl := List.mem_singleton.mp ho
      exact .inl (hguest gr).2
  | .word off' =>
    obtain rfl := List.mem_singleton.mp ho
    exact .inr (hproper _ rfl)

/-- Where the slow path comes back the registers are right for what the interpreter has left. -/
theorem Planned.rejoin {t : Stub} (hd : Planned e.cache m e'.cache g) (hk : TempsKept c₀ m₀ e.cache m)
    (henter : t.enter = e.cache.snapshot) (hleave : t.leave = e'.cache.snapshot)
    (hr : t.Reloads m c m') (hzero : c.reg .zero = 0) (hwords : c.SameHeld g) :
    ∃ f, Working c₀ m₀ [] e' m' (c.framed f) := by
  obtain ⟨htemps, hproper, n, hn, hkept⟩ := hd
  obtain ⟨⟨f, hctx⟩, hsaved, hloaded⟩ := hr
  have henters (r : Fin 9) : t.enter.slots.get r = e.cache.slot r := by
    rw [henter]
    rfl
  have hleaves (r : Fin 9) : t.leave.slots.get r = e'.cache.slot r := by
    rw [hleave]
    rfl
  simp only [henters, hleaves] at hsaved hloaded
  have hsame {r : Fin 9} {off : Int} (ho : off ∈ (e'.cache.slot r).content.offsets) :
      (c.framed f).loadWord off = g.loadWord off :=
    ((Cpu.Stands.framed c f).sameHeld.trans hwords) off (hproper.word_of_mem ho)
  -- A register has what it has as if the machine stood for `g`.
  have hget {r : Fin 9} (hu : (e'.cache.slot r).content ≠ .unused) :
      m'.get (.ofSlot r) = n.get (.ofSlot r) := by
    by_cases ht : (e'.cache.slot r).content = .temp
    · rw [hsaved r (htemps r ht) ht, hkept.regs r (htemps r ht)]
    · have hmem := Content.offset_mem hu ht (n.get (.ofSlot r))
      rw [hloaded r hu ht, hctx, hsame (Content.mem_offsets_of_words hmem)]
      exact hn.held r _ hmem
  refine ⟨f, ⟨fun r p hp => ?_, fun r hc => ?_, hn.apart, hn.valid, hn.writable, fun _ _ => ?_, ?_,
    hzero, hn.fp⟩, hproper, hk.trans ⟨hkept.content, fun r ht => ?_⟩, nofun, nofun, .nil⟩
  · have hu : (e'.cache.slot r).content ≠ .unused := fun hu => by
      rw [hu] at hp
      cases hp
    rw [hget hu] at hp
    rw [hsame (Content.mem_offsets_of_words hp)]
    exact hn.held r p hp
  · obtain ⟨hu, hv⟩ := hn.const r hc
    exact ⟨hu, (hget hu).trans hv⟩
  · rw [hctx]
  · rw [hctx]
    exact .refl _
  · exact hsaved r ht (hkept.content r ht)

namespace Emit

section

variable {α β γ : Type}

/-- No slow path is added. -/
class KeepsStubs (f : EmitM α) : Prop where
  stubs : ∀ {e e' : Emitter} {a : α}, f e = .ok a e' → e'.stubs = e.stubs

instance (a : α) : KeepsStubs (pure a : EmitM α) where
  stubs h := by
    cases h
    rfl

theorem KeepsStubs.bind {f : EmitM α} {g : α → EmitM β} (hf : KeepsStubs f)
    (hg : ∀ a, KeepsStubs (g a)) : KeepsStubs (f >>= g) where
  stubs h := by
    obtain ⟨a, e₁, h₁, h₂⟩ := bind_ok h
    rw [(hg a).stubs h₂, hf.stubs h₁]

instance {f : EmitM α} {g : α → EmitM β} [KeepsStubs f] [∀ a, KeepsStubs (g a)] :
    KeepsStubs (f >>= g) :=
  .bind ‹_› ‹_›

instance {p : Prop} [Decidable p] {f g : EmitM α} [hf : KeepsStubs f] [hg : KeepsStubs g] :
    KeepsStubs (if p then f else g) := by
  split
  · exact hf
  · exact hg

instance {f : γ → EmitM Unit} [∀ x, KeepsStubs (f x)] (xs : List γ) :
    KeepsStubs (forIn xs PUnit.unit fun x (_ : PUnit) => do
      f x
      pure (ForInStep.yield PUnit.unit)) := by
  induction xs with
  | nil => exact inferInstanceAs (KeepsStubs (pure _))
  | cons x xs ih =>
    rw [List.forIn_cons]
    refine .bind inferInstance fun step => ?_
    cases step with
    | done b => exact inferInstanceAs (KeepsStubs (pure b))
    | «yield» b => exact ih

instance : KeepsStubs (get : EmitM Emitter) where
  stubs h := by
    cases h
    rfl

instance (f : HostCache → HostCache) : KeepsStubs (modifyCache f) where
  stubs h := by
    cases h
    rfl

instance (i : Ir.Instr String) : KeepsStubs (emit i) := inferInstanceAs (KeepsStubs (modifyCache _))

instance (name : String) : KeepsStubs (putLabel name) where
  stubs h := by
    obtain ⟨b, -, rfl⟩ := putLabel_ok h
    rfl

instance : KeepsStubs spill := by
  unfold spill
  infer_instance

instance (s : Site) (op : Recompiler.Instr) : KeepsStubs (describe s op) := by
  unfold describe
  infer_instance

instance (temps : List HostReg) (r : HostReg) (s : Slot) : KeepsStubs (reload temps r s) := by
  unfold reload
  split <;> infer_instance

instance (r : FpReg) (s : FpSlot) : KeepsStubs (reloadFp r s) := by
  unfold reloadFp
  split <;> infer_instance

instance (stub : Stub) (temps : List HostReg) : KeepsStubs (comeBack stub temps) := by
  unfold comeBack
  infer_instance

instance (stub : Stub) : KeepsStubs (stubCode stub) := by
  unfold stubCode
  infer_instance

instance (stub : Stub) : KeepsStubs (emitStub stub) := by
  rw [emitStub_eq]
  infer_instance

end

end Emit

def Finished.Stubbed (W : Finished) : Prop :=
  ∀ stub ∈ W.emitter.stubs, ∃ e₁ e₂, emitStub stub e₁ = .ok () e₂ ∧ e₂.Precedes W.emitter

theorem Emit.emitStubs_ok {stubs : List Stub} {e e' : Emitter}
    (h : (forIn stubs PUnit.unit fun stub (_ : PUnit) => do
      emitStub stub
      pure (ForInStep.yield PUnit.unit)) e = .ok PUnit.unit e') {stub : Stub} (hs : stub ∈ stubs) :
    ∃ e₁ e₂, emitStub stub e₁ = .ok () e₂ ∧ e₂.Precedes e' := by
  induction stubs generalizing e with
  | nil => cases hs
  | cons stub' stubs ih =>
    rw [List.forIn_cons] at h
    obtain ⟨step, e₁, h₁, h₂⟩ := bind_ok h
    obtain ⟨_, e₂, hstub, hstep⟩ := bind_ok h₁
    cases hstep
    rcases List.mem_cons.mp hs with rfl | hs
    · exact ⟨e, e₁, hstub, Grows.precedes h₂⟩
    · exact ih h₂ hs

theorem Finished.stubbed_of_whole {cfg : Config} {pc : UInt32} {ops : List TraceOp} {e : Emitter}
    (h : whole cfg pc ops e = .ok () W.emitter) : W.Stubbed := by
  intro stub hs
  obtain ⟨_, e₁, -, h₁⟩ := bind_ok h
  obtain ⟨_, _, hget, hstubs⟩ := bind_ok h₁
  cases hget
  rw [← Array.forIn_toList] at hstubs
  rw [KeepsStubs.stubs hstubs] at hs
  obtain ⟨_, e₂, hloop, hunit⟩ := bind_ok hstubs
  cases hunit
  exact emitStubs_ok hloop (Array.mem_toList_iff.mpr hs)

/-- Code with a slow path that interprets the instruction. Either path leads to where the
interpreter takes the guest. -/
theorem Emit.Runs.fork {x : HostReg} {body : Stub → EmitM Unit} [∀ stub, Grows (body stub)]
    (hW : W.Stubbed) (hb : Begins Q .exec s i c g)
    (hbody : ∀ stub e₁, e₁.cache = e.cache → (∀ m₁, m₁.program = W.program →
        m₁.pc = W.position (Stub.entryLabel stub.id) → Agrees e.cache m₁ g →
        TempsKept c₀ m₀ e.cache m₁ → Ends Q m₁) →
      Runs W Q (body stub) e₁ m (Arrives c₀ m₀ (Interp.service c i .exec)))
    (hplan : ∀ stub e₁ e₂ m₁, e₁.cache = e.cache → body stub e₁ = .ok () e₂ →
      Agrees e.cache m₁ g → ∃ g', Planned e.cache m₁ e₂.cache g' ∧
        ((Interp.service c i .exec).leave = 0 → (Interp.service c i .exec).SameHeld g')) :
    Runs W Q (do
      let stub ← branchOff s i x
      body stub
      join stub) e m (Arrives c₀ m₀ (Interp.service c i .exec)) := by
  intro _ e₃ hx hp hat hcont
  obtain ⟨stub, e₁, hoff, hx⟩ := bind_ok hx
  obtain ⟨_, e₂, hrun, hjoin⟩ := bind_ok hx
  obtain ⟨hsite, hop, -, henter, hcache⟩ := Recompiler.branchOff_ok hoff
  obtain ⟨hmem, hslots, hfp, hcode⟩ := join_ok hjoin
  have hp₂ : e₂.Precedes W.emitter := (Grows.precedes hjoin).trans hp
  -- The slow path ends the run, or goes on from where the fast path ends.
  have haway : ∀ m₁, m₁.program = W.program → m₁.pc = W.position (Stub.entryLabel stub.id) →
      Agrees e.cache m₁ g → TempsKept c₀ m₀ e.cache m₁ → Ends Q m₁ := by
    intro m₁ hprogram hentry ha hk
    obtain ⟨g', hplanned, hwords⟩ := hplan stub e₁ e₂ m₁ hcache hrun ha
    obtain ⟨e₄, e₅, hstub, hp₅⟩ := hW _ (hp.stubs _ hmem)
    have hfp₂ : e₂.cache.fpSlots = Vector.replicate 8 .empty := by
      obtain ⟨n, hn, -⟩ := hplanned.agrees
      exact hn.fp
    subst hsite hop
    refine Stub.ends (g := g) (c := c) hstub hp₅ hprogram hentry (fun c' => ?_) hfp₂ hb
      fun hleave m₂ hprogram₂ hpc₂ hreload => hcont m₂ ⟨⟨hprogram₂, ?_⟩, hleave, ?_⟩
    · refine ha.of_slots (fun r => ?_) ?_
      · change (e.cache.slot r).Same (stub.enter.slots.get r)
        rw [henter]
        exact .refl _
      · exact congrArg Snapshot.fpSlots henter
    · obtain ⟨_, e₆, hpush, hlabel⟩ := bind_ok hjoin
      cases hpush
      obtain ⟨b, hput, rfl⟩ := putLabel_ok hlabel
      rw [hpc₂]
      refine (Finished.position_eq hput hp.builder).trans ?_
      rw [(Builder.label_ok hput).1]
    · have hplanned₃ : Planned e.cache m₁ e₃.cache g' := hplanned.of_slots hslots hfp
      obtain ⟨f, hf⟩ := hplanned₃.rejoin (t := { stub with leave := e₂.cache.snapshot }) hk henter
        (by rw [HostCache.snapshot, HostCache.snapshot, hslots, hfp]) hreload (hb.zero hleave) (hwords hleave)
      exact ⟨_, hf, .framed _ f⟩
  refine hbody stub e₁ hcache haway () e₂ hrun hp₂ ?_ fun m₂ ⟨hat₂, hleave, g', hg, hstands⟩ =>
    hcont m₂ ⟨⟨hat₂.program, ?_⟩, hleave, g', hg.congr hslots hfp (fun _ => rfl) rfl, hstands⟩
  · rw [hcache]
    exact hat
  · rw [hcode]
    exact hat₂.pc

end Recompiler
