import Recompiler.Emit.Program
import Recompiler.Emit.Run
import Recompiler.Proofs.Emission

/-!
Runs of programs while they are being emitted. The code between two states of emission leads a
machine from the place of the one to the place of the other, or to the end of the run.
-/

namespace Recompiler

open Ir Emit

namespace Ir

namespace Instr

theorem mapTarget_mapTarget {L M N : Type} (f : L → M) (g : M → N) (i : Instr L) :
    (i.mapTarget f).mapTarget g = i.mapTarget (g ∘ f) := by
  cases i <;> rfl

end Instr

namespace Builder

/-- The program goes on from one state to the other. -/
structure Precedes (b b' : Builder) : Prop where
  code : ∀ (k : Nat) i, b.code[k]? = some i → b'.code[k]? = some i
  labels : ∀ name k, b.labels.lookup name = some k → b'.labels.lookup name = some k
  scope : b'.scope = b.scope
  exhausted : b.exhausted = true → b'.exhausted = true

namespace Precedes

variable {b b' b'' : Builder}

theorem refl (b : Builder) : Precedes b b :=
  ⟨fun _ _ h => h, fun _ _ h => h, rfl, id⟩

theorem trans (h : Precedes b b') (h' : Precedes b' b'') : Precedes b b'' where
  code := fun k i hi => h'.code k i (h.code k i hi)
  labels := fun name k hk => h'.labels name k (h.labels name k hk)
  scope := h'.scope.trans h.scope
  exhausted := fun he => h'.exhausted (h.exhausted he)

theorem push (b : Builder) (i : Instr String) : Precedes b (b.push i) := by
  unfold Builder.push
  split
  · refine ⟨fun k j hj => ?_, fun _ _ h => h, rfl, id⟩
    obtain ⟨hk, -⟩ := Array.getElem?_eq_some_iff.mp hj
    rw [Array.getElem?_push_lt hk, ← hj, Array.getElem?_eq_getElem hk]
  · exact ⟨fun _ _ h => h, fun _ _ h => h, rfl, fun _ => rfl⟩

theorem request (b : Builder) (name : String) : Precedes b (b.request name) := by
  unfold Builder.request
  split
  · exact refl b
  · exact ⟨fun _ _ h => h, fun _ _ h => h, rfl, id⟩

theorem add (b : Builder) (i : Instr String) : Precedes b (b.add i) := by
  unfold Builder.add
  dsimp only
  split
  · exact (request b _).trans (push _ _)
  · exact push b _

theorem addAll (b : Builder) (is : List (Instr String)) : Precedes b (is.foldl Builder.add b) := by
  induction is generalizing b with
  | nil => exact refl b
  | cons i is ih => exact (add b i).trans (ih (b.add i))

theorem label {name : String} (h : b.label name = .ok b') : Precedes b b' := by
  unfold Builder.label at h
  dsimp only at h
  split at h
  · cases h
  · rename_i hnone
    cases h
    refine ⟨fun _ _ h => h, fun other k hk => ?_, rfl, id⟩
    rw [List.lookup_cons]
    split
    · rename_i he
      rw [beq_iff_eq.mp he] at hk
      rw [hk] at hnone
      exact absurd rfl hnone
    · exact hk

end Precedes

theorem code_add {b : Builder} {i : Instr String} (h : (b.add i).exhausted = false) :
    (b.add i).code = b.code.push ((clip i).mapTarget b.scopedName) := by
  have hpush (b : Builder) (i : Instr String) (h : (b.push i).exhausted = false) :
      (b.push i).code = b.code.push i := by
    unfold push at h ⊢
    split at h
    · rename_i hf
      rw [if_pos hf]
    · cases h
  have hrequest (b : Builder) (name : String) : (b.request name).code = b.code := by
    unfold request
    split <;> rfl
  unfold add at h ⊢
  dsimp only at h ⊢
  split at h
  · rw [hpush _ _ h, hrequest]
  · exact hpush b _ h

theorem label_ok {b b' : Builder} {name : String} (h : b.label name = .ok b') :
    b'.code = b.code ∧ b'.labels.lookup (b.scopedName name) = some b.code.size := by
  unfold label at h
  dsimp only at h
  split at h
  · cases h
  · cases h
    refine ⟨rfl, ?_⟩
    rw [List.lookup_cons, beq_self_eq_true]

theorem build_ok {b : Builder} {p : Program} (h : b.build = .ok p) :
    p.code = b.code.map (·.mapTarget fun name => (b.labels.lookup name).getD b.code.size) := by
  unfold build at h
  split at h
  · cases h
  · cases h
    rfl

end Builder

namespace Machine

variable {σ : Type}

/-- The machine after an instruction that goes on with the next one. -/
def next (m : Machine σ) : Machine σ := { m with pc := m.pc + 1 }

@[simp] theorem program_set (m : Machine σ) (r : HostReg) (v : UInt32) :
    (m.set r v).program = m.program := by
  unfold set
  split <;> rfl

@[simp] theorem pc_set (m : Machine σ) (r : HostReg) (v : UInt32) : (m.set r v).pc = m.pc := by
  unfold set
  split <;> rfl

@[simp] theorem ctx_set (m : Machine σ) (r : HostReg) (v : UInt32) : (m.set r v).ctx = m.ctx := by
  unfold set
  split <;> rfl

variable [Context σ]

def perform (m : Machine σ) (i : Instr String) : Machine σ :=
  (m.exec ((Builder.clip i).mapTarget fun _ => 0)).1.next

theorem exec_place (m : Machine σ) (i : Instr Nat) :
    (m.exec i).1.program = m.program ∧ (m.exec i).1.pc = m.pc := by
  unfold exec
  split <;> simp [setFp]

theorem exec_plain (m : Machine σ) {i : Instr String} (h : i.isPlain = true) (f : String → Nat) :
    m.exec ((Builder.clip i).mapTarget f) =
      ((m.exec ((Builder.clip i).mapTarget fun _ => 0)).1, .advance) := by
  cases i with
  | const op x v y => cases op <;> rfl
  | fld size off x => cases size <;> rfl
  | fst size x off => cases size <;> rfl
  | branch | branchConst | branchOverflow | jump | callout | link | exit => cases h
  | _ => rfl

theorem run_advance {m m' : Machine σ} {i : Instr Nat} (links : Links)
    (hc : m.program.code[m.pc]? = some i) (hx : m.exec i = (m', .advance)) :
    m.run links = m'.next.run links := by
  rw [run, hc]
  simp only [hx]
  rfl

end Machine

end Ir

/-- The run of a machine with empty link cells ends, in a state of the CPU with `Q`. -/
def Ends (Q : Cpu → Prop) (m : Machine Cpu) : Prop :=
  ∀ calls, ∃ r, Machine.resume .none m calls = some (.ok r) ∧ Q r.cpu

namespace Ends

variable {Q : Cpu → Prop} {m m' : Machine Cpu} {i : Ir.Instr Nat}

theorem of_run (hr : m.run .none = m'.run .none) (h : Ends Q m') : Ends Q m := by
  intro calls
  obtain ⟨r, hres, hq⟩ := h calls
  refine ⟨r, ?_, hq⟩
  rw [Machine.resume, hr, ← Machine.resume]
  exact hres

theorem advance (hc : m.program.code[m.pc]? = some i) (hx : m.exec i = (m', .advance))
    (h : Ends Q m'.next) : Ends Q m :=
  of_run (Machine.run_advance .none hc hx) h

theorem jump {target : Nat} (hc : m.program.code[m.pc]? = some i)
    (hx : m.exec i = (m', .jump target)) (h : Ends Q { m' with pc := target }) : Ends Q m := by
  refine of_run ?_ h
  rw [Machine.run, hc]
  simp only [hx]

theorem link {cell : Int} (hc : m.program.code[m.pc]? = some (.link cell))
    (h : Ends Q m.next) : Ends Q m := by
  refine of_run ?_ h
  rw [Machine.run, hc]
  rfl

theorem exit {status : Int} (hc : m.program.code[m.pc]? = some (.exit status))
    (hs : status ≠ exitCall) (h : Q m.ctx) : Ends Q m := by
  intro calls
  refine ⟨⟨status, calls, m.ctx⟩, ?_, h⟩
  rw [Machine.resume, Machine.run, hc]
  simp only [Machine.exec, if_neg hs]
  rfl

theorem call {k : Nat} {service : Service} (hc : m.program.code[m.pc]? = some i)
    (hx : m.exec i = (m', .call k)) (hs : m'.ctx.requested? = some service)
    (hleave : (m'.ctx.serve service).leave ≠ 0 → Q (m'.ctx.serve service))
    (hback : (m'.ctx.serve service).leave = 0 →
      Ends Q { m' with pc := k, ctx := m'.ctx.serve service }) : Ends Q m := by
  intro calls
  have hrun : m.run .none = some (.ok exitCall, { m' with pc := k }) := by
    rw [Machine.run, hc]
    simp only [hx]
  have hres : Machine.resume .none m calls =
      if (m'.ctx.serve service).leave ≠ 0 then
        some (.ok ⟨exitCall, calls.push (.ofCpu m'.ctx), m'.ctx.serve service⟩)
      else Machine.resume .none { m' with pc := k, ctx := m'.ctx.serve service }
        (calls.push (.ofCpu m'.ctx)) := by
    rw [Machine.resume, hrun]
    simp only [reduceIte, hs]
  rw [hres]
  split
  · rename_i hl
    exact ⟨_, rfl, hleave hl⟩
  · rename_i hl
    exact hback (Classical.not_not.mp hl) _

end Ends

/-- From a machine, the run comes to a machine with `K`, or ends. -/
def Leads (Q : Cpu → Prop) (m : Machine Cpu) (K : Machine Cpu → Prop) : Prop :=
  (∀ m', K m' → Ends Q m') → Ends Q m

namespace Leads

variable {Q : Cpu → Prop} {m : Machine Cpu} {K K' : Machine Cpu → Prop}

theorem here (h : K m) : Leads Q m K := fun hk => hk m h

theorem bind (h : Leads Q m K) (hk : ∀ m', K m' → Leads Q m' K') : Leads Q m K' :=
  fun hk' => h fun m' hm' => hk m' hm' hk'

theorem imp (h : Leads Q m K) (hk : ∀ m', K m' → K' m') : Leads Q m K' :=
  h.bind fun m' hm' => here (hk m' hm')

end Leads

/-- A state of emission with its program. -/
structure Finished where
  emitter : Emitter
  program : Program
  fits : emitter.cache.builder.exhausted = false
  built : emitter.cache.builder.build = .ok program

theorem TraceProgram.ofTrace_ok {cfg : Config} {cells : List Nat} {pc : UInt32}
    {ops : List TraceOp} {t : TraceProgram} (h : TraceProgram.ofTrace cfg cells pc ops = .ok t) :
    ∃ W : Finished, whole cfg pc ops (.create cfg cells) = .ok () W.emitter ∧
      W.program = t.program := by
  unfold TraceProgram.ofTrace at h
  split at h
  · cases h
  split at h
  · cases h
  · rename_i e hwhole
    unfold Emitter.finish at h
    split at h
    · cases h
    · rename_i hfit
      split at h
      · rename_i program hbuild
        cases h
        exact ⟨⟨e, program, Bool.eq_false_iff.mpr hfit, hbuild⟩, hwhole, rfl⟩
      · cases h

namespace Finished

variable (W : Finished)

def builder : Builder := W.emitter.cache.builder

def position (name : String) : Nat :=
  (W.builder.labels.lookup (W.builder.scopedName name)).getD W.builder.code.size

/-- The machine has come to the end of a part of the program. -/
structure At (b : Builder) (m : Machine Cpu) : Prop where
  program : m.program = W.program
  pc : m.pc = b.code.size

variable {W} {b b' : Builder} {m m' : Machine Cpu} {i : Ir.Instr String}

theorem fits_of_precedes (h : b.Precedes W.builder) : b.exhausted = false := by
  cases he : b.exhausted with
  | false => rfl
  | true =>
    have hw : W.builder.exhausted = false := W.fits
    rw [h.exhausted he] at hw
    cases hw

theorem scopedName_eq (h : b.Precedes W.builder) (name : String) :
    b.scopedName name = W.builder.scopedName name := by
  rw [Builder.scopedName, Builder.scopedName, h.scope]

theorem code_at (h : (b.add i).Precedes W.builder) (hm : W.At b m) :
    m.program.code[m.pc]? = some ((Builder.clip i).mapTarget W.position) := by
  have hcode := Builder.code_add (fits_of_precedes h)
  have hlast : (b.add i).code[b.code.size]? = some ((Builder.clip i).mapTarget b.scopedName) := by
    rw [hcode, Array.getElem?_push_size]
  have hfinal : W.emitter.cache.builder.code[b.code.size]? = _ := h.code _ _ hlast
  rw [hm.program, hm.pc, Builder.build_ok W.built, Array.getElem?_map, hfinal, Option.map_some,
    Instr.mapTarget_mapTarget]
  congr 2
  funext name
  change ((W.builder.labels.lookup (b.scopedName name)).getD _) = _
  rw [scopedName_eq ((Builder.Precedes.add b i).trans h)]
  rfl

theorem at_add (h : (b.add i).Precedes W.builder) (hm : W.At b m)
    (hm' : m'.program = m.program ∧ m'.pc = m.pc) : W.At (b.add i) m'.next where
  program := hm'.1.trans hm.program
  pc := by
    rw [Builder.code_add (fits_of_precedes h), Array.size_push]
    change m'.pc + 1 = _
    rw [hm'.2, hm.pc]

theorem position_eq {name : String} (h : b.label name = .ok b') (hp : b'.Precedes W.builder) :
    W.position name = b.code.size := by
  have hl := (Builder.label_ok h).2
  rw [scopedName_eq ((Builder.Precedes.label h).trans hp)] at hl
  rw [position, hp.labels _ _ hl]
  rfl

end Finished

/-- The code that has been added to `b` leads from `m` to `m'`. -/
def Emitted (b : Builder) (m : Machine Cpu) (b' : Builder) (m' : Machine Cpu) : Prop :=
  ∃ is : List (Ir.Instr String), (∀ i ∈ is, i.isPlain = true) ∧ b' = is.foldl Builder.add b ∧
    m' = is.foldl Machine.perform m

namespace Emitted

variable {b b' b'' : Builder} {m m' m'' : Machine Cpu}

theorem refl (b : Builder) (m : Machine Cpu) : Emitted b m b m :=
  ⟨[], fun _ h => absurd h List.not_mem_nil, rfl, rfl⟩

theorem trans (h : Emitted b m b' m') (h' : Emitted b' m' b'' m'') : Emitted b m b'' m'' := by
  obtain ⟨is, hi, rfl, rfl⟩ := h
  obtain ⟨is', hi', rfl, rfl⟩ := h'
  refine ⟨is ++ is', ?_, List.foldl_append.symm, List.foldl_append.symm⟩
  intro i hm
  exact (List.mem_append.mp hm).elim (hi i) (hi' i)

theorem add (b : Builder) (m : Machine Cpu) {i : Ir.Instr String} (h : i.isPlain = true) :
    Emitted b m (b.add i) (m.perform i) :=
  ⟨[i], fun _ hj => List.mem_singleton.mp hj ▸ h, rfl, rfl⟩

theorem run_eq {W : Finished} (h : Emitted b m b' m') (hp : b'.Precedes W.builder) (hm : W.At b m)
    (links : Links) : W.At b' m' ∧ m.run links = m'.run links := by
  obtain ⟨is, hi, rfl, rfl⟩ := h
  induction is generalizing b m with
  | nil => exact ⟨hm, rfl⟩
  | cons i is ih =>
    have hadd : (b.add i).Precedes W.builder := (Builder.Precedes.addAll _ is).trans hp
    have hat : W.At (b.add i) (m.perform i) := Finished.at_add hadd hm (m.exec_place _)
    obtain ⟨hat', hrun⟩ := ih hat (fun j hj => hi j (List.mem_cons_of_mem _ hj)) hp
    refine ⟨hat', Eq.trans ?_ hrun⟩
    exact Machine.run_advance links (Finished.code_at hadd hm)
      (m.exec_plain (hi i List.mem_cons_self) _)

theorem leads {Q : Cpu → Prop} {W : Finished} (h : Emitted b m b' m')
    (hp : b'.Precedes W.builder) (hm : W.At b m) :
    W.At b' m' ∧ (Ends Q m' → Ends Q m) := by
  obtain ⟨hat, hrun⟩ := h.run_eq hp hm .none
  exact ⟨hat, .of_run hrun⟩

end Emitted

/-- Emission goes on from one state to the other. -/
structure Emitter.Precedes (e e' : Emitter) : Prop where
  builder : e.cache.builder.Precedes e'.cache.builder
  stubs : ∀ stub ∈ e.stubs, stub ∈ e'.stubs

namespace Emitter.Precedes

variable {e e' e'' : Emitter}

theorem refl (e : Emitter) : Precedes e e := ⟨.refl _, fun _ h => h⟩

theorem trans (h : Precedes e e') (h' : Precedes e' e'') : Precedes e e'' :=
  ⟨h.builder.trans h'.builder, fun stub hs => h'.stubs stub (h.stubs stub hs)⟩

end Emitter.Precedes

theorem Appends.precedes {c c' : HostCache} (h : Appends c c') :
    c.builder.Precedes c'.builder := by
  obtain ⟨is, -, hb⟩ := h.code
  rw [hb]
  exact .addAll _ is

theorem Extends.precedes {c c' : HostCache} (h : Extends c c') :
    c.builder.Precedes c'.builder :=
  h.toAppends.precedes

namespace Emit

/-- Whatever is emitted is added to what there is. -/
class Grows {α : Type} (f : EmitM α) : Prop where
  precedes : ∀ {e e' : Emitter} {a : α}, f e = .ok a e' → e.Precedes e'

section

variable {α β : Type} {f : EmitM α} {g : α → EmitM β}

theorem bind_ok {e e'' : Emitter} {b : β} (h : (f >>= g) e = .ok b e'') :
    ∃ a e', f e = .ok a e' ∧ g a e' = .ok b e'' := by
  change EStateM.bind f g e = .ok b e'' at h
  unfold EStateM.bind at h
  split at h
  · rename_i a e' hf
    exact ⟨a, e', hf, h⟩
  · cases h

instance (a : α) : Grows (pure a : EmitM α) where
  precedes h := by
    cases h
    exact .refl _

theorem Grows.bind (hf : Grows f) (hg : ∀ a, Grows (g a)) : Grows (f >>= g) where
  precedes h := by
    obtain ⟨a, e', hfa, hga⟩ := bind_ok h
    exact (hf.precedes hfa).trans ((hg a).precedes hga)

instance [Grows f] [∀ a, Grows (g a)] : Grows (f >>= g) := .bind ‹_› ‹_›

instance {p : Prop} [Decidable p] {f g : EmitM α} [Grows f] [Grows g] :
    Grows (if p then f else g) := by
  split <;> infer_instance

instance : Grows (get : EmitM Emitter) where
  precedes h := by
    cases h
    exact .refl _

instance (err : EmitError) : Grows (throw err : EmitM α) where
  precedes h := by cases h

theorem Grows.forIn {γ : Type} {f : γ → β → EmitM (ForInStep β)} (xs : List γ)
    (hf : ∀ x b, Grows (f x b)) (b : β) : Grows (forIn xs b f) := by
  induction xs generalizing b with
  | nil =>
    rw [List.forIn_nil]
    infer_instance
  | cons x xs ih =>
    rw [List.forIn_cons]
    refine .bind (hf x b) fun s => ?_
    cases s with
    | done b => exact inferInstanceAs (Grows (pure b))
    | yield b => exact ih b

instance {γ : Type} {f : γ → EmitM Unit} [∀ x, Grows (f x)] (xs : List γ) :
    Grows (forIn xs PUnit.unit fun x (_ : PUnit) => do
      f x
      pure (ForInStep.yield PUnit.unit)) :=
  .forIn xs (fun _ _ => inferInstance) _

theorem grows_modifyCache {f : HostCache → HostCache}
    (h : ∀ c : HostCache, c.builder.Precedes (f c).builder) : Grows (modifyCache f) where
  precedes := by
    intro e e' a he
    cases he
    exact ⟨h e.cache, fun _ hs => hs⟩

theorem grows_onCache {f : CacheM α}
    (h : ∀ c a c', f c = .ok a c' → c.builder.Precedes c'.builder) : Grows (onCache f) where
  precedes := by
    intro e e' a he
    obtain ⟨c, hc, rfl⟩ := onCache_ok he
    exact ⟨h _ _ _ hc, fun _ hs => hs⟩

end

section

variable (g : GuestReg) (off : Int) (v : UInt32)

instance : Grows (inLow g) := grows_onCache fun _ _ _ h => (Extends.allocInLow h).precedes

instance : Grows (inHigh g) := grows_onCache fun _ _ _ h => (Extends.allocInHigh h).precedes

instance : Grows (outLow g) := grows_onCache fun _ _ _ h => (Extends.allocOutLow h).precedes

instance : Grows (outHigh g) := grows_onCache fun _ _ _ h => (Extends.allocOutHigh h).precedes

instance : Grows (outSigned g) := grows_onCache fun _ _ _ h => (Extends.allocOutExt h).precedes

instance : Grows (outUnsigned g) := grows_onCache fun _ _ _ h => (Extends.allocOutExt h).precedes

instance : Grows (inWord off) := grows_onCache fun _ _ _ h => (Extends.allocIn32 h).precedes

instance : Grows (outWord off) := grows_onCache fun _ _ _ h => (Extends.allocOut32 h).precedes

instance : Grows temp := grows_onCache fun _ _ _ h => (Extends.allocTemp h).precedes

instance : Grows (constant v) := grows_onCache fun _ _ _ h => (Extends.allocConst h).precedes

end

theorem endOp_ok {c c' : HostCache} (h : HostCache.endOp c = .ok () c') : c' = c.ended := by
  by_cases hd : 0 < c.depth
  · rw [HostCache.endOp_eq hd] at h
    cases h
    rfl
  · exfalso
    unfold HostCache.endOp at h
    simp only [bind, EStateM.bind, modify, modifyGet, MonadStateOf.modifyGet, EStateM.modifyGet,
      get, getThe, MonadStateOf.get, EStateM.get, if_pos (show c.depth - 1 < 0 by omega), throw,
      throwThe, MonadExceptOf.throw, EStateM.throw] at h
    cases h

instance : Grows (onCache HostCache.endOp) :=
  grows_onCache fun c _ _ h => by
    rw [endOp_ok h, HostCache.ended]
    split <;> exact .refl _

instance (i : Ir.Instr String) : Grows (emit i) := grows_modifyCache fun c => .add c.builder i

instance (op : BinOp) (x y z : HostReg) : Grows (bin op x y z) := inferInstanceAs (Grows (emit _))

instance (op : ConstOp) (x : HostReg) (v : UInt32) (y : HostReg) : Grows (const op x v y) :=
  inferInstanceAs (Grows (emit _))

instance (x y : HostReg) : Grows (mov x y) := inferInstanceAs (Grows (emit _))

instance : Grows (modifyCache (·.startOp)) := grows_modifyCache fun _ => .refl _

instance : Grows (modifyCache (·.flushAll)) := grows_modifyCache fun c => (Appends.flushAll c).precedes

instance : Grows (modifyCache (·.dropAll)) := grows_modifyCache fun _ => .refl _

instance (s : Snapshot) : Grows (modifyCache (·.restore s)) := grows_modifyCache fun _ => .refl _

instance (x : HostReg) (v : UInt32) : Grows (modifyCache (·.setConst x v)) :=
  grows_modifyCache fun c => (Extends.setConst c x v).precedes

instance (off size : Int) : Grows (modifyCache (·.clobberFp off size)) :=
  grows_modifyCache fun c => (Appends.clobberFp c off size).precedes

instance : Grows (modifyCache unpinAll) := grows_modifyCache fun _ => .refl _

theorem putLabel_ok {name : String} {e e' : Emitter} (h : putLabel name e = .ok () e') :
    ∃ b, e.cache.builder.label name = .ok b ∧
      e' = { e with cache := { e.cache with builder := b } } := by
  cases hb : e.cache.builder.label name with
  | ok b =>
    rw [putLabel_eq hb] at h
    cases h
    exact ⟨b, rfl, rfl⟩
  | error err =>
    obtain ⟨⟨builder, clock, depth, slots, fpSlots⟩, labels, stubs, exits, cells⟩ := e
    simp only [putLabel, show builder.label name = .error err from hb] at h
    cases h

instance (name : String) : Grows (putLabel name) where
  precedes h := by
    obtain ⟨b, hb, rfl⟩ := putLabel_ok h
    exact ⟨.label hb, fun _ hs => hs⟩

instance (name : String) : Grows (freshLabel name) where
  precedes h := by
    cases h
    exact ⟨.refl _, fun _ hs => hs⟩

instance (s : Site) (op : Recompiler.Instr) (addr : HostReg) : Grows (branchOff s op addr) where
  precedes h := by
    cases h
    exact ⟨.refl _, fun _ hs => hs⟩

instance (target : UInt32) : Grows (takeCell target) where
  precedes := by
    intro e e' a h
    cases hc : e.cells with
    | nil =>
      have : takeCell target e = .ok none e := by
        simp only [takeCell, bind, EStateM.bind, get, getThe, MonadStateOf.get, EStateM.get, hc]
        rfl
      rw [this] at h
      cases h
      exact .refl _
    | cons cell rest =>
      have : takeCell target e =
          .ok (some cell) { e with cells := rest, exits := e.exits.push ⟨target, cell⟩ } := by
        simp only [takeCell, bind, EStateM.bind, get, getThe, MonadStateOf.get, EStateM.get, hc]
        rfl
      rw [this] at h
      cases h
      exact ⟨.refl _, fun _ hs => hs⟩

instance (stub : Stub) : Grows (join stub) where
  precedes := by
    intro e e' a h
    obtain ⟨u, e₁, h₁, h₂⟩ := bind_ok h
    cases h₁
    obtain ⟨b, hb, rfl⟩ := putLabel_ok h₂
    exact ⟨.label hb, fun _ hs => Array.mem_push_of_mem _ hs⟩

instance (s : Site) (op : Recompiler.Instr) : Grows (describe s op) := by
  unfold describe
  infer_instance

instance : Grows spill := by
  unfold spill
  infer_instance

instance (service : Service) (s : Site) (op : Recompiler.Instr) : Grows (request service s op) := by
  unfold request
  infer_instance

instance (temps : List HostReg) (r : HostReg) (s : Slot) : Grows (reload temps r s) := by
  unfold reload
  split <;> infer_instance

instance (r : FpReg) (s : FpSlot) : Grows (reloadFp r s) := by
  unfold reloadFp
  split <;> infer_instance

instance (stub : Stub) : Grows (emitStub stub) := by
  unfold emitStub
  refine .bind inferInstance fun _ => .bind inferInstance fun _ => .bind inferInstance fun temps => ?_
  refine .bind inferInstance fun _ => .bind inferInstance fun _ => .bind inferInstance fun _ => ?_
  refine .bind inferInstance fun _ => .bind inferInstance fun _ => ?_
  infer_instance

instance (cfg : Config) (n : Nat) : Grows (account cfg n) := by
  unfold account
  infer_instance

instance : Grows exitUnlinked := by
  unfold exitUnlinked
  infer_instance

instance (cell : Nat) : Grows (exitLinked cell) := by
  unfold exitLinked
  refine .bind inferInstance fun _ => .bind inferInstance fun _ => .bind inferInstance fun _ => ?_
  infer_instance

instance (cfg : Config) (target : UInt32) (n : Nat) (linkable : Bool) :
    Grows (exitDirect cfg target n linkable) := by
  have hexit (cell : Option Nat) : Grows (match cell with
      | some cell => exitLinked cell
      | none => exitUnlinked) := by
    cases cell <;> infer_instance
  unfold exitDirect
  infer_instance

instance (cfg : Config) (r : HostReg) (n : Nat) : Grows (exitReg cfg r n) := by
  unfold exitReg
  infer_instance

instance (cfg : Config) (n : Nat) : Grows (exitServed cfg n) := by
  unfold exitServed
  infer_instance

/-- The code of `f` leads a machine at its start to one at its end with `K`. -/
def Runs (W : Finished) (Q : Cpu → Prop) {α : Type} (f : EmitM α) (e : Emitter) (m : Machine Cpu)
    (K : α → Emitter → Machine Cpu → Prop) : Prop :=
  ∀ a e', f e = .ok a e' → e'.Precedes W.emitter → W.At e.cache.builder m →
    Leads Q m fun m' => W.At e'.cache.builder m' ∧ K a e' m'

namespace Runs

variable {W : Finished} {Q : Cpu → Prop} {α β : Type} {e : Emitter} {m : Machine Cpu}
  {K K' : α → Emitter → Machine Cpu → Prop} {L : β → Emitter → Machine Cpu → Prop}

theorem pure {a : α} (h : K a e m) : Runs W Q (Pure.pure a) e m K := by
  intro a' e' ha _ hm
  cases ha
  exact .here ⟨hm, h⟩

theorem bind {f : EmitM α} {g : α → EmitM β} (hf : Runs W Q f e m K)
    (hg : ∀ a e' m', K a e' m' → Runs W Q (g a) e' m' L) [hgrows : ∀ a, Grows (g a)] :
    Runs W Q (f >>= g) e m L := by
  intro b e'' h hp hm
  obtain ⟨a, e', hfa, hga⟩ := bind_ok h
  refine (hf a e' hfa (((hgrows a).precedes hga).trans hp) hm).bind ?_
  rintro m' ⟨hm', hk⟩
  exact hg a e' m' hk b e'' hga hp hm'

theorem imp {f : EmitM α} (hf : Runs W Q f e m K) (hk : ∀ a e' m', K a e' m' → K' a e' m') :
    Runs W Q f e m K' :=
  fun a e' ha hp hm => (hf a e' ha hp hm).imp fun m' h => ⟨h.1, hk a e' m' h.2⟩

theorem ite {p : Prop} [Decidable p] {f g : EmitM α} (hf : p → Runs W Q f e m K)
    (hg : ¬ p → Runs W Q g e m K) : Runs W Q (if p then f else g) e m K := by
  split
  · exact hf ‹_›
  · exact hg ‹_›

theorem of_emitted {f : EmitM α}
    (h : ∀ a e', f e = .ok a e' → ∃ m', Emitted e.cache.builder m e'.cache.builder m' ∧ K a e' m') :
    Runs W Q f e m K := by
  intro a e' ha hp hm
  obtain ⟨m', he, hk⟩ := h a e' ha
  intro hk'
  obtain ⟨hat, hends⟩ := he.leads hp.builder hm
  exact hends (hk' m' ⟨hat, hk⟩)

theorem onCache {f : CacheM α} (h : ∀ a c, f e.cache = .ok a c →
      ∃ m', Emitted e.cache.builder m c.builder m' ∧ K a { e with cache := c } m') :
    Runs W Q (Emit.onCache f) e m K := by
  refine of_emitted fun a e' ha => ?_
  obtain ⟨c, hc, rfl⟩ := onCache_ok ha
  exact h _ _ hc

theorem modifyCache {f : HostCache → HostCache} {L : Unit → Emitter → Machine Cpu → Prop}
    {m' : Machine Cpu} (he : Emitted e.cache.builder m (f e.cache).builder m')
    (hk : L () { e with cache := f e.cache } m') : Runs W Q (Emit.modifyCache f) e m L := by
  refine of_emitted fun a e' ha => ?_
  cases ha
  exact ⟨m', he, hk⟩

theorem emit {i : Ir.Instr String} {L : Unit → Emitter → Machine Cpu → Prop}
    (hi : i.isPlain = true) (hk : L () { e with cache := e.cache.emit i } (m.perform i)) :
    Runs W Q (Emit.emit i) e m L :=
  modifyCache (.add _ _ hi) hk

theorem exit {L : Unit → Emitter → Machine Cpu → Prop} (h : Q m.ctx) :
    Runs W Q (Emit.emit (.exit 0)) e m L := by
  intro a e' ha hp hm
  cases ha
  intro _
  have hcode : m.program.code[m.pc]? = some (.exit 0) :=
    Finished.code_at (b := e.cache.builder) (i := .exit 0) hp.builder hm
  exact .exit hcode (by decide) h

end Runs

end Emit

end Recompiler
