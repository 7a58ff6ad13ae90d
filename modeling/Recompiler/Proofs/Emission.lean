import Recompiler.Emit.Program
import Recompiler.Proofs.Labels
import Recompiler.Proofs.Pins

/-!
Emission that succeeds. The building blocks keep the labels in order and allocate as long as
registers are left.
-/

namespace Recompiler

open Ir

namespace Emit

/-- From a state with `P`, emission succeeds and leaves a state with `Q`. -/
def Emits {α : Type} (P : Emitter → Prop) (f : EmitM α) (Q : α → Emitter → Prop) : Prop :=
  ∀ e, P e → ∃ a e', f e = .ok a e' ∧ Q a e'

namespace Emits

variable {α β : Type} {P P' : Emitter → Prop} {Q Q' : α → Emitter → Prop}
  {R : β → Emitter → Prop}

theorem pure {a : α} (h : ∀ e, P e → Q a e) : Emits P (Pure.pure a) Q :=
  fun e he => ⟨a, e, rfl, h e he⟩

theorem bind {f : EmitM α} {g : α → EmitM β} (hf : Emits P f Q)
    (hg : ∀ a, Emits (Q a) (g a) R) : Emits P (f >>= g) R := by
  intro e he
  obtain ⟨a, e₁, h₁, hq⟩ := hf e he
  obtain ⟨b, e₂, h₂, hr⟩ := hg a e₁ hq
  refine ⟨b, e₂, ?_, hr⟩
  simp only [Bind.bind, EStateM.bind, h₁]
  exact h₂

theorem imp {f : EmitM α} (hf : Emits P f Q) (hp : ∀ e, P' e → P e)
    (hq : ∀ a e, Q a e → Q' a e) : Emits P' f Q' := by
  intro e he
  obtain ⟨a, e', h, hq'⟩ := hf e (hp e he)
  exact ⟨a, e', h, hq a e' hq'⟩

theorem pre {f : EmitM α} (hf : Emits P f Q) (hp : ∀ e, P' e → P e) : Emits P' f Q :=
  hf.imp hp fun _ _ h => h

theorem post {f : EmitM α} (hf : Emits P f Q) (hq : ∀ a e, Q a e → Q' a e) : Emits P f Q' :=
  hf.imp (fun _ h => h) hq

theorem ite {p : Prop} [Decidable p] {f g : EmitM α} (hf : p → Emits P f Q)
    (hg : ¬ p → Emits P g Q) : Emits P (if p then f else g) Q := by
  split
  · exact hf ‹_›
  · exact hg ‹_›

theorem iteBind {p : Prop} [Decidable p] {f g : EmitM α} {k : α → EmitM β} (hf : Emits P f Q)
    (hg : Emits P g Q) (hk : ∀ a, Emits (Q a) (k a) R) :
    Emits P (if p then f >>= k else g >>= k) R :=
  .ite (fun _ => .bind hf hk) fun _ => .bind hg hk

theorem forIn {γ : Type} {f : γ → EmitM Unit} (as : List γ)
    (hf : ∀ a, Emits P (f a) fun _ => P) :
    Emits P (forIn as PUnit.unit fun a (_ : PUnit) => do
      f a
      Pure.pure (ForInStep.yield PUnit.unit)) fun _ => P := by
  induction as with
  | nil => exact pure fun _ h => h
  | cons a as ih =>
    rw [List.forIn_cons]
    exact bind (bind (hf a) fun _ => pure (Q := fun s e => s = ForInStep.yield PUnit.unit ∧ P e)
      fun _ h => ⟨rfl, h⟩) fun s => by
        intro e he
        obtain ⟨rfl, he⟩ := he
        exact ih e he

end Emits

def stubLabels (stubs : List Stub) : List String :=
  stubs.flatMap fun stub => [Stub.entryLabel stub.id, Stub.resumeLabel stub.id]

/-- Emission in order: the names of `R` are reserved, the current instruction pins values of `S`,
those of `C` as constants, `n` temporaries and the floating-point values of `L`, and `d` scopes
are open. -/
structure Ready (R : List String) (S C : List Content) (n : Nat) (L : List (FpSize × Int))
    (d : Int) (e : Emitter) : Prop where
  labels : Labels (R ++ stubLabels e.stubs.toList) e.labels e.cache.builder
  joins : ∀ stub ∈ e.stubs,
    (e.cache.builder.labels.lookup (Stub.joinLabel stub.id)).isSome = true
  pins : Pins S C n e.cache
  fpPins : FpPins L e.cache
  depth : e.cache.depth = d

theorem onCache_eq {α : Type} (m : CacheM α) (e : Emitter) :
    onCache m e = match m e.cache with
      | .ok a c => .ok a { e with cache := c }
      | .error err c => .error (.cache err) { e with cache := c } := by
  obtain ⟨cache, labels, stubs, exits, cells⟩ := e
  rfl

theorem onCache_ok {α : Type} {m : CacheM α} {e e' : Emitter} {a : α}
    (h : onCache m e = .ok a e') : ∃ c, m e.cache = .ok a c ∧ e' = { e with cache := c } := by
  rw [onCache_eq] at h
  split at h
  · rename_i c hc
    cases h
    exact ⟨c, hc, rfl⟩
  · cases h

theorem modifyCache_eq (f : HostCache → HostCache) (e : Emitter) :
    modifyCache f e = .ok () { e with cache := f e.cache } := rfl

namespace Ready

variable {R R' : List String} {S S' C C' : List Content} {n n' : Nat} {L L' : List (FpSize × Int)}
  {d : Int} {e : Emitter} {c : HostCache}

theorem mono (h : Ready R S C n L d e) (hS : S ⊆ S') (hC : C ⊆ C') (hn : n ≤ n')
    (hL : L ⊆ L') : Ready R S' C' n' L' d e :=
  { h with pins := h.pins.mono hS hC hn, fpPins := h.fpPins.mono hL }

theorem appends (h : Ready R S C n L d e) (ha : Appends e.cache c) (hp : Pins S' C' n' c)
    (hf : FpPins L' c) : Ready R S' C' n' L' d { e with cache := c } := by
  obtain ⟨is, hi, hb⟩ := ha.code
  refine ⟨?_, ?_, hp, hf, ha.depth.trans h.depth⟩
  · change Labels _ _ c.builder
    rw [hb]
    exact h.labels.addAll fun i hm => Instr.isPlain_of_isTransfer (hi i hm)
  · intro stub hm
    change (c.builder.labels.lookup _).isSome = true
    rw [hb, Builder.labels_addAll]
    exact h.joins stub hm

theorem withCache (h : Ready R S C n L d e) (hb : c.builder = e.cache.builder)
    (hd : c.depth = d) (hp : Pins S' C' n' c) (hf : FpPins L' c) :
    Ready R S' C' n' L' d { e with cache := c } where
  labels := by
    change Labels _ _ c.builder
    rw [hb]
    exact h.labels
  joins := by
    intro stub hm
    change (c.builder.labels.lookup _).isSome = true
    rw [hb]
    exact h.joins stub hm
  pins := hp
  fpPins := hf
  depth := hd

theorem onCache {α : Type} {m : CacheM α} {a : α} (h : Ready R S C n L d e)
    (hm : m e.cache = .ok a c) (he : Extends e.cache c) (hp : Pins S' C' n' c) :
    ∃ a e', Emit.onCache m e = .ok a e' ∧ Ready R S' C' n' L d e' := by
  refine ⟨a, { e with cache := c }, ?_,
    h.appends he.toAppends hp (h.fpPins.of_fpSlots he.fpSlots)⟩
  rw [onCache_eq, hm]

end Ready

section

variable {R : List String} {S C : List Content} {n : Nat} {L : List (FpSize × Int)} {d : Int}
  {g : GuestReg}

theorem emits_inLow (hg : g.val ≠ 0 → .low g none ∈ S ∧ .low g none ∈ C)
    (hn : S.length + n ≤ 9) :
    Emits (Ready R S C n L d) (inLow g) fun _ => Ready R S C n L d := by
  intro e he
  obtain ⟨x, c, hx, hp⟩ := he.pins.allocInLow hg hn
  exact he.onCache hx (.allocInLow hx) hp

theorem emits_inHigh
    (hg : g.val ≠ 0 → (.high g ∈ S ∧ .high g ∈ C) ∧ .low g none ∈ S ∧ .low g none ∈ C)
    (hn : S.length + n ≤ 9) :
    Emits (Ready R S C n L d) (inHigh g) fun _ => Ready R S C n L d := by
  intro e he
  obtain ⟨x, c, hx, hp⟩ := he.pins.allocInHigh hg hn
  exact he.onCache hx (.allocInHigh hx) hp

def HighReady (g : GuestReg) (R : List String) (S C : List Content) (n : Nat)
    (L : List (FpSize × Int)) (d : Int) (e : Emitter) : Prop :=
  Ready R S C n L d e ∧ (g.val ≠ 0 → e.cache.HasHigh g)

theorem emits_outHigh (hg : g.val ≠ 0 → .high g ∈ S) (hn : S.length + n ≤ 9) :
    Emits (Ready R S C n L d) (outHigh g) fun _ => HighReady g R S C n L d := by
  intro e he
  obtain ⟨x, c, hx, hp, hhigh⟩ := he.pins.allocOutHigh hg hn
  have hext := Extends.allocOutHigh hx
  refine ⟨x, { e with cache := c }, ?_,
    he.appends hext.toAppends hp (he.fpPins.of_fpSlots hext.fpSlots), hhigh⟩
  rw [outHigh, onCache_eq, hx]

theorem emits_outLow (hg : g.val ≠ 0 → .low g none ∈ S) (hn : S.length + n ≤ 9) :
    Emits (HighReady g R S C n L d) (outLow g) fun _ => Ready R S C n L d := by
  rintro e ⟨he, hhigh⟩
  obtain ⟨x, c, hx, hp⟩ := he.pins.allocOutLow (fun h0 => ⟨hg h0, hhigh h0⟩) hn
  exact he.onCache hx (.allocOutLow hx) hp

theorem emits_outExt (ext : Extension) (hg : g.val ≠ 0 → .low g none ∈ S)
    (hn : S.length + n ≤ 9) :
    Emits (Ready R S C n L d) (onCache (HostCache.allocOutExt g ext))
      fun _ => Ready R S C n L d := by
  intro e he
  obtain ⟨x, c, hx, hp⟩ := he.pins.allocOutExt hg hn
  exact he.onCache hx (.allocOutExt hx) hp

theorem emits_outSigned (hg : g.val ≠ 0 → .low g none ∈ S) (hn : S.length + n ≤ 9) :
    Emits (Ready R S C n L d) (outSigned g) fun _ => Ready R S C n L d :=
  emits_outExt .sign hg hn

theorem emits_outUnsigned (hg : g.val ≠ 0 → .low g none ∈ S) (hn : S.length + n ≤ 9) :
    Emits (Ready R S C n L d) (outUnsigned g) fun _ => Ready R S C n L d :=
  emits_outExt .zero hg hn

theorem emits_inWord {off : Int} (hS : .word off ∈ S) (hC : .word off ∈ C)
    (hn : S.length + n ≤ 9) :
    Emits (Ready R S C n L d) (inWord off) fun _ => Ready R S C n L d := by
  intro e he
  obtain ⟨x, c, hx, hp⟩ := he.pins.allocIn32 hS hC hn
  exact he.onCache hx (.allocIn32 hx) hp

theorem emits_outWord {off : Int} (hS : .word off ∈ S) (hn : S.length + n ≤ 9) :
    Emits (Ready R S C n L d) (outWord off) fun _ => Ready R S C n L d := by
  intro e he
  obtain ⟨x, c, hx, hp⟩ := he.pins.allocOut32 hS hn
  exact he.onCache hx (.allocOut32 hx) hp

theorem emits_temp (hn : S.length + n < 9) :
    Emits (Ready R S C n L d) temp fun _ => Ready R S C (n + 1) L d := by
  intro e he
  obtain ⟨x, c, hx, hp⟩ := he.pins.allocTemp hn
  exact he.onCache hx (.allocTemp hx) hp

theorem emits_constant (v : UInt32) (hn : S.length + n < 9) :
    Emits (Ready R S C n L d) (constant v) fun _ e =>
      (∃ k, Ready R (k :: S) (k :: C) n L d e) ∨ Ready R S C (n + 1) L d e := by
  intro e he
  obtain ⟨x, c, hx, hp⟩ := he.pins.allocConst v hn
  have hext := Extends.allocConst hx
  refine ⟨x, { e with cache := c }, ?_, ?_⟩
  · rw [constant, onCache_eq, hx]
  · have hfp := he.fpPins.of_fpSlots hext.fpSlots
    rcases hp with ⟨k, hp⟩ | hp
    · exact .inl ⟨k, he.appends hext.toAppends hp hfp⟩
    · exact .inr (he.appends hext.toAppends hp hfp)

theorem Ready.emit {e : Emitter} (h : Ready R S C n L d e) {i : Ir.Instr String}
    (hi : ∀ name, i.target? = some name → name ∈ R ∨
      (∃ stub ∈ e.stubs, name = Stub.entryLabel stub.id ∨ name = Stub.joinLabel stub.id)) :
    Ready R S C n L d { e with cache := e.cache.emit i } where
  labels := by
    refine h.labels.add fun name hname => ?_
    have hres : name ∈ R ++ stubLabels e.stubs.toList ∨
        (e.cache.builder.labels.lookup name).isSome = true := by
      rcases hi name hname with hm | ⟨stub, hs, rfl | rfl⟩
      · exact .inl (List.mem_append_left _ hm)
      · refine .inl (List.mem_append_right _ (List.mem_flatMap.mpr ⟨stub, ?_, ?_⟩))
        · exact Array.mem_toList_iff.mpr hs
        · exact List.mem_cons_self
      · exact .inr (h.joins stub hs)
    obtain ⟨kind, hk, m, -, rfl⟩ := h.labels.known name hres
    exact ⟨kind, hk, m, rfl, hres⟩
  joins := by
    intro stub hm
    change ((e.cache.builder.add i).labels.lookup _).isSome = true
    rw [Builder.labels_add]
    exact h.joins stub hm
  pins := h.pins.emit i
  fpPins := h.fpPins.of_fpSlots rfl
  depth := h.depth

theorem emits_emit {i : Ir.Instr String} (hi : ∀ name, i.target? = some name → name ∈ R) :
    Emits (Ready R S C n L d) (emit i) fun _ => Ready R S C n L d :=
  fun _ he => ⟨(), _, rfl, he.emit fun name hname => .inl (hi name hname)⟩

theorem emits_plain {i : Ir.Instr String} (hi : i.target? = none) :
    Emits (Ready R S C n L d) (emit i) fun _ => Ready R S C n L d :=
  emits_emit fun name hname => by
    rw [hi] at hname
    cases hname

theorem emits_high {i : Ir.Instr String} (hi : i.target? = none) :
    Emits (HighReady g R S C n L d) (emit i) fun _ => HighReady g R S C n L d := by
  rintro e ⟨he, hhigh⟩
  obtain ⟨a, e', h, he'⟩ := emits_plain hi e he
  cases h
  exact ⟨(), _, rfl, he', hhigh⟩

theorem putLabel_eq {e : Emitter} {name : String} {b : Builder}
    (h : e.cache.builder.label name = .ok b) :
    putLabel name e = .ok () { e with cache := { e.cache with builder := b } } := by
  obtain ⟨⟨builder, clock, depth, slots, fpSlots⟩, labels, stubs, exits, cells⟩ := e
  simp only [putLabel, show builder.label name = .ok b from h]

theorem Ready.label {e : Emitter} {name : String} (h : Ready (name :: R) S C n L d e) :
    ∃ e', putLabel name e = .ok () e' ∧ Ready R S C n L d e' ∧
      (e'.cache.builder.labels.lookup name).isSome = true := by
  obtain ⟨b, hb, hlabels, hnew⟩ := Labels.label h.labels
  refine ⟨_, putLabel_eq hb, ⟨hlabels, ?_, h.pins.of_slots fun _ => rfl, h.fpPins.of_fpSlots rfl,
    h.depth⟩, ?_⟩
  · intro stub hm
    change (b.labels.lookup _).isSome = true
    rw [hnew, List.lookup_cons]
    split
    · rfl
    · exact h.joins stub hm
  · change (b.labels.lookup _).isSome = true
    rw [hnew, List.lookup_cons, beq_self_eq_true]
    rfl

theorem emits_putLabel (name : String) :
    Emits (Ready (name :: R) S C n L d) (putLabel name) fun _ => Ready R S C n L d := by
  intro e he
  obtain ⟨e', h, he', -⟩ := he.label
  exact ⟨(), e', h, he'⟩

theorem emits_freshLabel {kind : String} (hk : kind ∈ labelKinds) :
    Emits (Ready R S C n L d) (freshLabel kind) fun name => Ready (name :: R) S C n L d :=
  fun e he => ⟨tag kind (e.labels + 1), { e with labels := e.labels + 1 }, rfl,
    he.labels.reserve_next kind hk, he.joins, he.pins, he.fpPins, he.depth⟩

/-- The names that a slow path has reserved before it is added. -/
def stubNames (id : Nat) : List String :=
  [Stub.entryLabel id, Stub.resumeLabel id, Stub.joinLabel id]

theorem emits_branchOff (s : Site) (op : Recompiler.Instr) (addr : HostReg) :
    Emits (Ready R S C n L d) (branchOff s op addr)
      fun stub => Ready (stubNames stub.id ++ R) S C n L d :=
  fun e he => ⟨⟨e.labels + 1, s, op, addr, e.cache.snapshot, e.cache.snapshot⟩,
    { e with labels := e.labels + 1 }, rfl, he.labels.reserve_stub, he.joins, he.pins, he.fpPins,
    he.depth⟩

theorem emits_join (stub : Stub) :
    Emits (Ready (stubNames stub.id ++ R) S C n L d) (join stub) fun _ => Ready R S C n L d := by
  intro e he
  let e₁ : Emitter := { e with stubs := e.stubs.push { stub with leave := e.cache.snapshot } }
  have hstubs : stubLabels e₁.stubs.toList = stubLabels e.stubs.toList ++
      [Stub.entryLabel stub.id, Stub.resumeLabel stub.id] := by
    simp [e₁, stubLabels]
  have hlabels : Labels (Stub.joinLabel stub.id :: R ++ stubLabels e₁.stubs.toList) e₁.labels
      e₁.cache.builder := by
    refine he.labels.perm ?_
    rw [hstubs]
    simp only [stubNames, List.cons_append, List.nil_append]
    generalize Stub.entryLabel stub.id = a
    generalize Stub.resumeLabel stub.id = b
    generalize Stub.joinLabel stub.id = c
    generalize stubLabels e.stubs.toList = T
    have h₁ : (a :: b :: c :: (R ++ T)).Perm (c :: a :: b :: (R ++ T)) :=
      ((List.Perm.swap c b (R ++ T)).cons a).trans (.swap c a _)
    refine h₁.trans (.cons c ?_)
    rw [← List.append_assoc]
    exact (List.perm_append_comm : ([a, b] ++ (R ++ T)).Perm ((R ++ T) ++ [a, b]))
  obtain ⟨b, hb, hlabels', hnew⟩ := Labels.label hlabels
  refine ⟨(), _, putLabel_eq (e := e₁) hb, hlabels', ?_, he.pins.of_slots fun _ => rfl,
    he.fpPins.of_fpSlots rfl, he.depth⟩
  intro stub' hm
  change (b.labels.lookup _).isSome = true
  rw [hnew, List.lookup_cons]
  split
  · rfl
  · rename_i hne
    rcases Array.mem_push.mp hm with hm | rfl
    · exact he.joins stub' hm
    · simp at hne

theorem emits_startOp : Emits (Ready R S C n L d) (modifyCache (·.startOp))
    fun _ => Ready R S C n L (d + 1) :=
  fun _ he => ⟨(), _, rfl, he.labels, he.joins, he.pins.of_slots fun _ => rfl,
    he.fpPins.of_fpSlots rfl, by rw [← he.depth]; rfl⟩

theorem emits_flushAll : Emits (Ready R S C n L d) (modifyCache (·.flushAll))
    fun _ => Ready R C C n L d := by
  exact fun e he => ⟨(), _, rfl, he.appends (.flushAll e.cache) he.pins.flushAll he.fpPins.flushAll⟩

theorem emits_endOp (hd : 0 < d) : Emits (Ready R S C n L d) (onCache HostCache.endOp)
    fun _ e => Ready R S C n L (d - 1) e ∧ (d = 1 → Ready R [] [] 0 [] 0 e) := by
  intro e he
  have hd' := he.depth
  rw [onCache_eq, HostCache.endOp_eq (by omega), HostCache.ended]
  refine ⟨(), _, rfl, ?_⟩
  by_cases h1 : d = 1
  · rw [if_pos (by omega)]
    have hready : Ready R [] [] 0 [] 0 { e with cache := { e.cache with
        depth := e.cache.depth - 1
        slots := e.cache.slots.map HostCache.endSlot
        fpSlots := e.cache.fpSlots.map HostCache.endFpSlot } } :=
      ⟨he.labels, he.joins, he.pins.endSlots fun r => Vector.get_map _ _ _,
        he.fpPins.endSlots rfl, show e.cache.depth - 1 = 0 by omega⟩
    refine ⟨?_, fun _ => hready⟩
    rw [h1]
    exact hready.mono (List.nil_subset S) (List.nil_subset C) (Nat.zero_le n) (List.nil_subset L)
  · rw [if_neg (by omega)]
    exact ⟨⟨he.labels, he.joins, he.pins.of_slots fun _ => rfl, he.fpPins.of_fpSlots rfl,
      show e.cache.depth - 1 = d - 1 by omega⟩, fun h => absurd h h1⟩

theorem emits_get {P : Emitter → Prop} : Emits P get fun e₀ e => e₀ = e ∧ P e :=
  fun e he => ⟨e, e, rfl, rfl, he⟩

theorem emits_spill : Emits (Ready R S C n L d) spill fun _ => Ready R C C n L d := by
  refine .bind emits_flushAll fun _ => .bind emits_get fun e₀ => ?_
  refine .bind (.pre (.forIn _ fun _ => emits_plain rfl) fun e he => he.2) fun _ => ?_
  exact .pure fun _ he => he

theorem emits_describe (s : Site) (op : Recompiler.Instr) :
    Emits (Ready R S C n L d) (describe s op) fun _ => Ready R S C n L d :=
  .bind (emits_plain rfl) fun _ => .bind (emits_plain rfl) fun _ =>
    .bind (emits_plain rfl) fun _ => emits_plain rfl

theorem emits_dropAll : Emits (Ready R S C n L d) (modifyCache (·.dropAll))
    fun _ => Ready R S C n L d := by
  refine fun e he => ⟨(), _, rfl, he.withCache rfl he.depth (he.pins.relax fun r => ?_) ⟨?_, ?_⟩⟩
  · rw [show e.cache.dropAll.slot r =
      if (e.cache.slot r).content == .temp then e.cache.slot r else .empty from Vector.get_map _ _ _]
    split
    · exact .inr ⟨rfl, id, id⟩
    · exact .inl rfl
  · intro r r' x hx
    rw [show (e.cache.dropAll.fpSlots.get r).content = none by
      rw [HostCache.dropAll, Vector.get_replicate]; rfl] at hx
    cases hx
  · intro r x hb
    rw [show (e.cache.dropAll.fpSlots.get r).busy = false by
      rw [HostCache.dropAll, Vector.get_replicate]; rfl] at hb
    cases hb

theorem emits_request (service : Service) (s : Site) (op : Recompiler.Instr) :
    Emits (Ready R S C n L d) (request service s op) fun _ => Ready R C C n L d := by
  refine .bind (emits_freshLabel (by decide)) fun resume => ?_
  refine .bind emits_spill fun temps => ?_
  refine .bind (emits_describe s op) fun _ => ?_
  refine .bind (emits_emit fun name hname => ?_) fun _ => ?_
  · cases hname
    exact List.mem_cons_self
  refine .bind (emits_putLabel resume) fun _ => ?_
  exact .bind (.forIn temps fun _ => emits_plain rfl) fun _ => emits_dropAll

def Settled (R : List String) (d : Int) (e : Emitter) : Prop := ∃ S C n L, Ready R S C n L d e

theorem Ready.settled {e : Emitter} (h : Ready R S C n L d e) : Settled R d e := ⟨S, C, n, L, h⟩

theorem emits_account (cfg : Config) (k : Nat) (hd : 0 ≤ d) (hn : S.length + 1 + n ≤ 9) :
    Emits (Ready R S C n L d) (account cfg k)
      fun _ => Ready R (.word Layout.cycle :: C) (.word Layout.cycle :: C) n L d := by
  refine .pre (P := Ready R (.word Layout.cycle :: S) (.word Layout.cycle :: C) n L d) ?_
    fun e he => he.mono (List.subset_cons_self _ S) (List.subset_cons_self _ C) (Nat.le_refl n)
      (List.Subset.refl L)
  have hrest : Emits (Ready R (.word Layout.cycle :: S) (.word Layout.cycle :: C) n L (d + 1))
      (do
        onCache HostCache.endOp
        modifyCache (·.flushAll))
      fun _ => Ready R (.word Layout.cycle :: C) (.word Layout.cycle :: C) n L d := by
    refine .bind (.post (emits_endOp (by omega)) fun _ e he => he.1) fun _ => ?_
    rw [show d + 1 - 1 = d by omega]
    exact emits_flushAll
  refine .bind emits_startOp fun _ => ?_
  dsimp only
  split
  · refine .bind (emits_inWord List.mem_cons_self List.mem_cons_self hn) fun _ => ?_
    refine .bind (emits_outWord List.mem_cons_self hn) fun _ => ?_
    exact .bind (emits_plain rfl) fun _ => hrest
  · exact hrest

theorem emits_exitUnlinked : Emits (Ready R S C n L d) exitUnlinked fun _ => Settled R d :=
  .bind (emits_plain rfl) fun _ => (emits_plain rfl).post fun _ _ he => he.settled

theorem emits_exitLinked (cell : Nat) (hd : 0 ≤ d) (hS : .word Layout.cycle ∈ S)
    (hC : .word Layout.cycle ∈ C) (hn : S.length + 1 + n < 9) :
    Emits (Ready R S C n L d) (exitLinked cell) fun _ => Settled R d := by
  refine .pre (P := Ready R (.word Layout.nextEvent :: S) (.word Layout.nextEvent :: C) n L d) ?_
    fun e he => he.mono (List.subset_cons_self _ S) (List.subset_cons_self _ C) (Nat.le_refl n)
      (List.Subset.refl L)
  refine .bind (emits_freshLabel (by decide)) fun due => ?_
  refine .bind (emits_plain rfl) fun _ => .bind emits_startOp fun _ => ?_
  refine .bind (emits_inWord (List.mem_cons_of_mem _ hS) (List.mem_cons_of_mem _ hC)
    (Nat.le_of_lt hn)) fun _ => ?_
  refine .bind (emits_inWord List.mem_cons_self List.mem_cons_self (Nat.le_of_lt hn)) fun _ => ?_
  refine .bind (emits_temp hn) fun _ => .bind (emits_plain rfl) fun _ => ?_
  refine .bind (emits_emit fun name hname => ?_) fun _ => ?_
  · cases hname
    exact List.mem_cons_self
  refine .bind (emits_plain rfl) fun _ => .bind (emits_putLabel due) fun _ => ?_
  refine .bind (.post (emits_endOp (by omega)) fun _ e he => he.1) fun _ => ?_
  rw [show d + 1 - 1 = d by omega]
  exact (emits_plain rfl).post fun _ _ he => he.settled

theorem emits_takeCell (target : UInt32) :
    Emits (Ready R S C n L d) (takeCell target) fun _ => Ready R S C n L d := by
  refine .bind emits_get fun e₀ => ?_
  split
  · exact .pure fun e he => he.2
  · rintro e ⟨-, he⟩
    exact ⟨_, _, rfl, he.labels, he.joins, he.pins, he.fpPins, he.depth⟩

theorem emits_exitDirect (cfg : Config) (target : UInt32) (k : Nat) (linkable : Bool) (hd : 0 ≤ d)
    (hS : S.length + 1 + n ≤ 9) (hC : C.length + 2 + n < 9) :
    Emits (Ready R S C n L d) (exitDirect cfg target k linkable) fun _ => Settled R d := by
  refine .bind (emits_account cfg k hd hS) fun _ => .bind (emits_plain rfl) fun _ => ?_
  dsimp only
  refine .iteBind (emits_takeCell target) (.pure fun _ he => he) fun cell => ?_
  split
  · exact emits_exitLinked _ hd List.mem_cons_self List.mem_cons_self hC
  · exact emits_exitUnlinked

theorem emits_exitReg (cfg : Config) (x : HostReg) (k : Nat) (hd : 0 ≤ d)
    (hS : S.length + 1 + n ≤ 9) :
    Emits (Ready R S C n L d) (exitReg cfg x k) fun _ => Settled R d :=
  .bind (emits_account cfg k hd hS) fun _ => .bind (emits_plain rfl) fun _ => emits_exitUnlinked

theorem emits_exitServed (cfg : Config) (k : Nat) (hd : 0 ≤ d) (hS : S.length + 1 + n ≤ 9) :
    Emits (Ready R S C n L d) (exitServed cfg k) fun _ => Settled R d :=
  .bind (emits_account cfg k hd hS) fun _ => emits_exitUnlinked

end

end Emit

end Recompiler
