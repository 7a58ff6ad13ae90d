import Recompiler.Proofs.InlineAccess

/-!
Rules for emitted code. A translator takes operands and temporaries one after the other, computes
with them, and writes its results; the rules say what each of these steps makes of what is known
about the registers of a machine that runs the code.
-/

namespace Recompiler

open Ir Emit

namespace HostCache

/-- The words of the context that may be in registers, besides those of guest registers. -/
def IsShared (off : Int) : Prop :=
  off = Layout.cycle ∨ off = Layout.nextEvent ∨ off = Layout.fcr31

def Proper (c : HostCache) : Prop := ∀ r off, (c.slot r).content = .word off → IsShared off

variable {c c' : HostCache}

theorem Proper.assigns (h : c.Proper) (ha : Assigns IsShared (fun _ _ => False) c c') :
    c'.Proper :=
  fun r off => ha.words (fun _ hoff => hoff) h r off

theorem Proper.of_slots (h : c.Proper) (hs : c'.slots = c.slots) : c'.Proper := by
  intro r off hr
  rw [slot, hs] at hr
  exact h r off hr

theorem Proper.not_mem (h : c.Proper) {off : Int} (hoff : off < 64 ∨ 336 ≤ off)
    (hn : ¬ IsShared off) (r : Fin 9) : off ∉ (c.slot r).content.offsets :=
  fun hm => hn (h r off ((Content.word_mem hoff).mp hm))

end HostCache

theorem not_isShared {off : Int} (h : off < 600) : ¬ HostCache.IsShared off := by
  rintro (rfl | rfl | rfl) <;> simp only [Layout.cycle, Layout.nextEvent, Layout.fcr31] at h <;>
    omega

/-- The temporaries of one point are still there at another one, with their values. -/
structure TempsKept (c : HostCache) (m : Machine Cpu) (c' : HostCache) (m' : Machine Cpu) :
    Prop where
  content : ∀ r, (c.slot r).content = .temp → (c'.slot r).content = .temp
  regs : ∀ r, (c.slot r).content = .temp → m'.get (.ofSlot r) = m.get (.ofSlot r)

namespace TempsKept

variable {c c' c'' : HostCache} {m m' m'' : Machine Cpu}

theorem refl (c : HostCache) (m : Machine Cpu) : TempsKept c m c m :=
  ⟨fun _ h => h, fun _ _ => rfl⟩

theorem trans (h : TempsKept c m c' m') (h' : TempsKept c' m' c'' m'') :
    TempsKept c m c'' m'' :=
  ⟨fun r hr => h'.content r (h.content r hr),
    fun r hr => (h'.regs r (h.content r hr)).trans (h.regs r hr)⟩

theorem pinned {s : Slot} (h : s.content = .temp) : s.Pinned :=
  ⟨by rw [h]; nofun, .inr h⟩

theorem of_stable (h : Stable c m c' m') : TempsKept c m c' m' where
  content r hr := by
    have hbase := (h.kept r (pinned hr)).2
    rw [hr] at hbase
    exact Content.base_eq_temp hbase
  regs r hr := h.regs r (pinned hr)

theorem of_slots (hs : ∀ r, (c'.slot r).content = (c.slot r).content)
    (hm : ∀ r, m'.get (.ofSlot r) = m.get (.ofSlot r)) : TempsKept c m c' m' :=
  ⟨fun r hr => (hs r).trans hr, fun r _ => hm r⟩

theorem set (h : TempsKept c m c' m') {d : HostReg}
    (hd : ∀ r, (c.slot r).content = .temp → d ≠ .ofSlot r) (v : UInt32) :
    TempsKept c m c' (m'.set d v) :=
  ⟨h.content, fun r hr => (Machine.get_set_of_ne m' v (hd r hr)).trans (h.regs r hr)⟩

end TempsKept

def OwnTemp (c₀ c : HostCache) (x : HostReg) : Prop :=
  ∃ r, x = .ofSlot r ∧ (c₀.slot r).content ≠ .temp ∧ (c.slot r).content = .temp ∧
    (c.slot r).isConst = false

namespace OwnTemp

variable {c₀ c c' : HostCache} {m m' : Machine Cpu} {x : HostReg}

theorem isTemp (h : OwnTemp c₀ c x) : IsTemp c x := by
  obtain ⟨r, hx, -, ht, hc⟩ := h
  exact ⟨r, hx, ht, hc⟩

theorem stable (h : OwnTemp c₀ c x) (hs : Stable c m c' m') : OwnTemp c₀ c' x := by
  obtain ⟨r, rfl, h₀, ht, hc⟩ := h
  exact ⟨r, rfl, h₀, (TempsKept.of_stable hs).content r ht, hs.const r (TempsKept.pinned ht) hc⟩

end OwnTemp

abbrev Operands := List (HostReg × Content × UInt32)

/-- At a point of emission the machine stands for the state `g` of the guest, the temporaries that
were there at the beginning are kept, and the operands `env` are in their registers, the
temporaries among them in different ones. -/
structure Working (c₀ : HostCache) (m₀ : Machine Cpu) (env : Operands) (e : Emitter)
    (m : Machine Cpu) (g : Cpu) : Prop where
  agrees : Agrees e.cache m g
  proper : e.cache.Proper
  kept : TempsKept c₀ m₀ e.cache m
  operands : ∀ x k v, (x, k, v) ∈ env → Reads e.cache m x k v
  temps : ∀ x v, (x, .temp, v) ∈ env → OwnTemp c₀ e.cache x
  distinct : env.Pairwise fun p q => p.2.1 = .temp → q.2.1 = .temp → p.1 ≠ q.1

/-- The register `d` is to be written, for a result with the content `o`. The machine has the
values of `env`, of which the operands `rest` stay. -/
structure Awaits (c₀ : HostCache) (m₀ : Machine Cpu) (env rest : Operands) (e : Emitter)
    (m : Machine Cpu) (g : Cpu) (o : Option Content) (d : HostReg) : Prop where
  working : Working c₀ m₀ rest e m (g.storeWords (resultWords o (m.get d)))
  owns : Owns e.cache d o
  values : ∀ x k v, (x, k, v) ∈ env → m.get x = v

theorem Ir.Machine.set_next {σ : Type} (m : Machine σ) (x : HostReg) (v : UInt32) :
    m.next.set x v = (m.set x v).next := by
  unfold Machine.set
  split <;> rfl

section

variable {m : Machine Cpu} {x y d : HostReg} {u w v : UInt32}

theorem perform_mov (hx : m.get x = u) : m.perform (.mov x d) = (m.set d u).next := by
  subst hx
  rfl

theorem perform_bin (op : BinOp) (hx : m.get x = u) (hy : m.get y = w) :
    m.perform (.bin op x y d) = (m.set d (Machine.evalBin op u w)).next := by
  subst hx hy
  rfl

theorem perform_const (op : ConstOp) (hx : m.get x = u) {a : UInt32}
    (ha : op = .sll ∨ op = .srl ∨ op = .sra → a.toNat < 32) :
    m.perform (.const op x a d) = (m.set d (Machine.evalConst op u a)).next := by
  have hclip (h : a.toNat < 32) : a &&& 31 = a := by
    rw [← UInt32.toNat_inj, UInt32.toNat_and]
    exact (Nat.and_two_pow_sub_one_eq_mod a.toNat 5).trans (Nat.mod_eq_of_lt h)
  subst hx
  cases op
  case sll | srl | sra =>
    simp only [Machine.perform, Builder.clip, hclip (ha (by simp)), Instr.mapTarget, Machine.exec]
  all_goals rfl

theorem perform_ldc {off : Int} (hv : m.ctx.loadWord off = v) :
    m.perform (.ldc off d) = (m.set d v).next := by
  subst hv
  rfl

end

theorem map_resultWords (o : Option Content) (v : UInt32) :
    (resultWords o v).map (·.1) = o.elim [] Content.offsets := by
  cases o with
  | none => rfl
  | some content => exact Content.map_words v content

theorem storeWords_resultWords (c : Cpu) (o : Option Content) (u v : UInt32) :
    (c.storeWords (resultWords o u)).storeWords (resultWords o v) =
      c.storeWords (resultWords o v) := by
  refine Cpu.ext_words (fun off hw => ?_) ?_
  · refine Cpu.loadWord_storeWords_congr (fun _ => hw) fun hm => ?_
    refine Cpu.loadWord_storeWords_of_not_mem c ?_
    rwa [map_resultWords] at hm ⊢
  · exact ((Cpu.sameRest_storeWords _ _).trans (Cpu.sameRest_storeWords _ _)).trans
      (Cpu.sameRest_storeWords c _).symm

theorem storeWords_ext (c : Cpu) (gr : GuestReg) (ext : Extension) (v : UInt32) :
    c.storeWords (resultWords (target gr (.low gr (some ext))) v) =
      c.setGuest gr (joinWords (ext.word v) v) := by
  rw [← storeWords_extended c gr ext 0 v, storeWords_resultWords]

theorem storeWords_pair (c : Cpu) (gr : GuestReg) (hi lo : UInt32) :
    (c.storeWords (resultWords (target gr (.high gr)) hi)).storeWords
      (resultWords (target gr (.low gr none)) lo) = c.setGuest gr (joinWords hi lo) := by
  by_cases h0 : gr.val = 0
  · rw [setGuest_zero c h0, target, target, if_pos h0, if_pos h0]
    rfl
  · rw [c.setGuest_eq h0, lowWord_joinWords, highWord_joinWords, target, target, if_neg h0,
      if_neg h0]
    exact Cpu.storeWord_comm c _ _ (Cpu.isWord_highWord gr) (Cpu.isWord_lowWord gr)
      (Cpu.lowWord_ne_highWord gr gr).symm

def Ir.Instr.Decides (j : Ir.Instr String) (m : Machine Cpu) (name : String) (taken : Bool) : Prop :=
  ∀ f : String → Nat, m.exec ((Builder.clip j).mapTarget f) =
    (m, if taken then .jump (f name) else .advance)

namespace Emit.Runs

variable {W : Finished} {Q : Cpu → Prop} {α : Type} {e : Emitter} {m : Machine Cpu}
  {i j : Ir.Instr String} {name : String} {taken : Bool}

theorem freshLabel {kind : String} {K : String → Emitter → Machine Cpu → Prop}
    (hk : ∀ name labels, K name { e with labels := labels } m) :
    Runs W Q (Emit.freshLabel kind) e m K := by
  intro _ _ h _ hm
  cases h
  exact .here ⟨hm, hk _ _⟩

/-- A branch over an instruction. -/
theorem skipping {K : Unit → Emitter → Machine Cpu → Prop} (hj : j.Decides m name taken)
    (hi : i.isPlain = true) (hk : ∀ b pc, K () { e with cache := { e.cache with builder := b } }
      (if taken then { m with pc := pc } else m.next.perform i)) :
    Runs W Q (do
      Emit.emit j
      Emit.emit i
      Emit.putLabel name) e m K := by
  intro a e' h hp hm
  obtain ⟨_, e₁, hx, h⟩ := bind_ok h
  obtain ⟨_, e₂, hx', h⟩ := bind_ok h
  cases hx
  cases hx'
  obtain ⟨b, hb, rfl⟩ := putLabel_ok h
  have hlabel : (((e.cache.builder.add j).add i)).Precedes W.builder :=
    (Builder.Precedes.label hb).trans hp.builder
  have hadd : (e.cache.builder.add j).Precedes W.builder := (Builder.Precedes.add _ i).trans hlabel
  have hcode := Finished.code_at hadd hm
  have hexec := hj W.position
  cases taken with
  | true =>
    refine fun hk' => .jump hcode hexec (hk' _ ⟨⟨hm.program, ?_⟩, hk b (W.position name)⟩)
    exact (Finished.position_eq hb hp.builder).trans
      (congrArg Array.size (Builder.label_ok hb).1).symm
  | false =>
    have hat : W.At (e.cache.builder.add j) m.next := Finished.at_add hadd hm ⟨rfl, rfl⟩
    obtain ⟨hat, hends⟩ := (Emitted.add _ m.next hi).leads hlabel hat
    refine fun hk' => .advance hcode hexec (hends (hk' _ ⟨⟨hat.program, ?_⟩, hk b 0⟩))
    exact hat.pc.trans (congrArg Array.size (Builder.label_ok hb).1).symm

end Emit.Runs

namespace Working

variable {W : Finished} {Q : Cpu → Prop} {c₀ : HostCache} {m₀ : Machine Cpu} {env rest : Operands}
  {e e' : Emitter} {m m' : Machine Cpu} {g g' : Cpu} {x d t : HostReg} {k : Content}
  {u v : UInt32} {i : Ir.Instr String} {gr : GuestReg}

theorem start (h : Agrees e.cache m g) (hp : e.cache.Proper) : Working e.cache m [] e m g :=
  ⟨h, hp, .refl _ _, nofun, nofun, .nil⟩

theorem value (h : Working c₀ m₀ env e m g) (hx : (x, k, v) ∈ env) : m.get x = v :=
  (h.operands x k v hx).get

theorem valueAt (h : Working c₀ m₀ env e m g) (n : Nat) (hx : env[n]? = some (x, k, v)) :
    m.get x = v :=
  h.value (List.mem_of_getElem? hx)

theorem weaken (h : Working c₀ m₀ env e m g) (hr : rest.Sublist env) :
    Working c₀ m₀ rest e m g :=
  ⟨h.agrees, h.proper, h.kept, fun x k v hx => h.operands x k v (hr.subset hx),
    fun x v hx => h.temps x v (hr.subset hx), h.distinct.sublist hr⟩

theorem forget (h : Working c₀ m₀ env e m g) : Working c₀ m₀ [] e m g := h.weaken env.nil_sublist

theorem cons (h : Working c₀ m₀ env e m g) (hx : Reads e.cache m x k v) (hk : k ≠ .temp) :
    Working c₀ m₀ ((x, k, v) :: env) e m g := by
  refine ⟨h.agrees, h.proper, h.kept, fun y k' w hy => ?_, fun y w hy => ?_,
    List.pairwise_cons.mpr ⟨fun p _ ht => absurd ht hk, h.distinct⟩⟩
  · rcases List.mem_cons.mp hy with he | hy
    · cases he
      exact hx
    · exact h.operands y k' w hy
  · rcases List.mem_cons.mp hy with he | hy
    · cases he
      exact absurd rfl hk
    · exact h.temps y w hy

theorem moves (h : Working c₀ m₀ env e m g) (ha : Agrees e'.cache m' g') (hp : e'.cache.Proper)
    (hs : Stable e.cache m e'.cache m') : Working c₀ m₀ env e' m' g' :=
  ⟨ha, hp, h.kept.trans (.of_stable hs), fun x k v hx => hs.reads (h.operands x k v hx),
    fun x v hx => (h.temps x v hx).stable hs, h.distinct⟩

theorem allocates {c : HostCache} (h : Working c₀ m₀ env e m g) (ha : Allocates e.cache m c m' g')
    (hp : HostCache.Assigns HostCache.IsShared (fun _ _ => False) e.cache c) :
    Working c₀ m₀ env { e with cache := c } m' g' :=
  h.moves ha.agrees (h.proper.assigns hp) ha.stable

protected theorem inLow (h : Working c₀ m₀ env e m g) (gr : GuestReg) :
    Runs W Q (inLow gr) e m fun x e' m' =>
      Working c₀ m₀ ((x, .low gr none, lowWord (g.guest gr)) :: env) e' m' g := by
  refine Runs.onCache fun x c hx => ?_
  obtain ⟨m', ha, hr⟩ := h.agrees.allocInLow hx
  exact ⟨m', ha.emitted, (h.allocates ha (.allocInLow hx)).cons hr nofun⟩

protected theorem inHigh (h : Working c₀ m₀ env e m g) (gr : GuestReg) :
    Runs W Q (inHigh gr) e m fun x e' m' =>
      Working c₀ m₀ ((x, .high gr, highWord (g.guest gr)) :: env) e' m' g := by
  refine Runs.onCache fun x c hx => ?_
  obtain ⟨m', ha, hr⟩ := h.agrees.allocInHigh hx
  exact ⟨m', ha.emitted, (h.allocates ha (.allocInHigh hx)).cons hr nofun⟩

protected theorem inWord (h : Working c₀ m₀ env e m g) {off : Int} (hoff : HostCache.IsShared off) :
    Runs W Q (inWord off) e m fun x e' m' =>
      Working c₀ m₀ ((x, .word off, g.loadWord off) :: env) e' m' g := by
  refine Runs.onCache fun x c hx => ?_
  obtain ⟨m', ha, hr⟩ := h.agrees.allocIn32 (by rcases hoff with rfl | rfl | rfl <;> decide) hx
  exact ⟨m', ha.emitted, (h.allocates ha (.allocIn32 hx hoff)).cons hr nofun⟩

/-- A temporary, in a register of its own. -/
protected theorem temp (h : Working c₀ m₀ env e m g) :
    Runs W Q temp e m fun x e' m' => Working c₀ m₀ ((x, .temp, m'.get x) :: env) e' m' g := by
  refine Runs.onCache fun x c hx => ?_
  obtain ⟨r, m', rfl, hr, ht, hc, ha⟩ := h.agrees.allocTemp hx
  have hw := h.allocates ha (.allocTemp hx)
  have hreads : Reads c m' (.ofSlot r) .temp (m'.get (.ofSlot r)) :=
    .inr ⟨r, rfl, TempsKept.pinned ht, by rw [ht]; rfl, rfl⟩
  have hown : OwnTemp c₀ c (.ofSlot r) :=
    ⟨r, rfl, fun h₀ => hr (TempsKept.pinned (h.kept.content r h₀)), ht, hc⟩
  refine ⟨m', ha.emitted, ⟨hw.agrees, hw.proper, hw.kept, fun y k w hy => ?_, fun y w hy => ?_,
    List.pairwise_cons.mpr ⟨fun ⟨y, k, w⟩ hy _ hk he => ?_, h.distinct⟩⟩⟩
  · rcases List.mem_cons.mp hy with he | hy
    · cases he
      exact hreads
    · exact hw.operands y k w hy
  · rcases List.mem_cons.mp hy with he | hy
    · cases he
      exact hown
    · exact hw.temps y w hy
  · cases hk
    obtain ⟨r', rfl, -, ht', -⟩ := h.temps y w hy
    cases Machine.ofSlot_inj he
    exact hr (TempsKept.pinned ht')

theorem congr (h : Working c₀ m₀ env e m g) (hs : e'.cache.slots = e.cache.slots)
    (hf : e'.cache.fpSlots = e.cache.fpSlots) (hregs : ∀ x, m'.get x = m.get x)
    (hctx : m'.ctx = m.ctx) : Working c₀ m₀ env e' m' g := by
  have hslot (r : Fin 9) : e'.cache.slot r = e.cache.slot r := by
    rw [HostCache.slot, HostCache.slot, hs]
  refine h.moves ((h.agrees.of_machine (fun r => hregs _) hctx).of_slots (fun r => ?_) hf)
    (h.proper.of_slots hs) (.of_same (fun r hr => ?_) (fun r _ => ?_) fun r _ => hregs _)
  all_goals rw [hslot]
  · exact .refl _
  · exact ⟨hr, rfl⟩
  · exact .refl _

/-- The operand at place `n` is a temporary, which has been written. -/
theorem wrote (h : Working c₀ m₀ env e m g) (n : Nat) (hn : env[n]? = some (t, .temp, u))
    (v : UInt32) : Working c₀ m₀ (env.set n (t, .temp, v)) e (m.set t v) g := by
  obtain ⟨r, rfl, h₀, htemp, hc⟩ := h.temps t u (List.mem_of_getElem? hn)
  obtain ⟨hlt, hget⟩ := List.getElem?_eq_some_iff.mp hn
  have hother {j : Nat} {p : HostReg × Content × UInt32} (hj : (env.set n (.ofSlot r, .temp, v))[j]? = some p) :
      p = (.ofSlot r, .temp, v) ∨ (p ∈ env ∧ (p.2.1 = .temp → p.1 ≠ .ofSlot r)) := by
    rw [List.getElem?_set] at hj
    split at hj
    · exact .inl (Option.some.inj hj).symm
    · rename_i hne
      refine .inr ⟨List.mem_of_getElem? hj, fun hk => ?_⟩
      obtain ⟨hjlt, hjget⟩ := List.getElem?_eq_some_iff.mp hj
      have hd := List.pairwise_iff_getElem.mp h.distinct
      rcases Nat.lt_or_gt_of_ne hne with hlt' | hlt'
      · have := hd n j hlt hjlt hlt'
        rw [hget, hjget] at this
        exact (this rfl hk).symm
      · have := hd j n hjlt hlt hlt'
        rw [hget, hjget] at this
        exact this hk rfl
  refine ⟨h.agrees.writeTemp v (by rw [htemp]; rfl) hc, h.proper, ?_, fun x k w hp => ?_,
    fun x w hp => ?_, ?_⟩
  · refine h.kept.set (fun r' hr' he => h₀ ?_) v
    exact Machine.ofSlot_inj he ▸ hr'
  · obtain ⟨j, hj⟩ := List.getElem?_of_mem hp
    rcases hother hj with he | ⟨hp, hne⟩
    · cases he
      exact .inr ⟨r, rfl, TempsKept.pinned htemp, congrArg Content.base htemp, m.get_set_self r v⟩
    · have hreads := h.operands x k w hp
      refine hreads.set (fun he => ?_) v
      by_cases hk : k = .temp
      · exact hne hk he
      · exact hreads.ne (.inr (by rw [htemp]; exact Ne.symm hk)) he
  · obtain ⟨j, hj⟩ := List.getElem?_of_mem hp
    rcases hother hj with he | ⟨hp, -⟩
    · cases he
      exact ⟨r, rfl, h₀, htemp, hc⟩
    · exact h.temps x w hp
  · -- The registers and kinds of the operands are the same as before.
    have hsame (j : Nat) (hj : j < (env.set n (.ofSlot r, .temp, v)).length) (hj' : j < env.length) :
        (env.set n (.ofSlot r, .temp, v))[j].1 = env[j].1 ∧
          (env.set n (.ofSlot r, .temp, v))[j].2.1 = env[j].2.1 := by
      rw [List.getElem_set]
      split
      · subst n
        rw [hget]
        exact ⟨rfl, rfl⟩
      · exact ⟨rfl, rfl⟩
    refine List.pairwise_iff_getElem.mpr fun j k hj hk hjk => ?_
    have hj' : j < env.length := List.length_set ▸ hj
    have hk' : k < env.length := List.length_set ▸ hk
    rw [(hsame j hj hj').1, (hsame j hj hj').2, (hsame k hk hk').1, (hsame k hk hk').2]
    exact List.pairwise_iff_getElem.mp h.distinct j k hj' hk' hjk

theorem setTemp (h : Working c₀ m₀ env e m g) (n : Nat) (hn : env[n]? = some (t, .temp, u))
    (hi : i.isPlain = true) (hx : m.perform i = (m.set t v).next) :
    Runs W Q (emit i) e m fun _ e' m' => Working c₀ m₀ (env.set n (t, .temp, v)) e' m' g := by
  refine Runs.emit hi ?_
  rw [hx]
  exact (h.wrote n hn v).congr rfl rfl (fun _ => rfl) rfl

protected theorem freshLabel {kind : String} (h : Working c₀ m₀ env e m g) :
    Runs W Q (freshLabel kind) e m fun _ e' m' => Working c₀ m₀ env e' m' g ∧ m' = m :=
  .freshLabel fun _ _ => ⟨h.congr rfl rfl (fun _ => rfl) rfl, rfl⟩

/-- A temporary gets its value from the first instruction if the branch `j` is taken, and else
from the second one. -/
theorem decide {i₁ i₂ j : Ir.Instr String} {name : String} {taken : Bool} {u₁ u₂ : UInt32}
    (h : Working c₀ m₀ env e m g) (n : Nat) (hn : env[n]? = some (t, .temp, u))
    (hi₁ : i₁.isPlain = true) (hx₁ : m.perform i₁ = (m.set t u₁).next)
    (hj : j.Decides (m.set t u₁).next name taken) (hi₂ : i₂.isPlain = true)
    (hx₂ : (m.set t u₁).next.next.perform i₂ = ((m.set t u₁).next.next.set t u₂).next) :
    Runs W Q (do
      emit i₁
      emit j
      emit i₂
      putLabel name) e m fun _ e' m' =>
        Working c₀ m₀ (env.set n (t, .temp, if taken then u₁ else u₂)) e' m' g := by
  refine .bind (Runs.emit hi₁ (L := fun _ e' m' => e' = { e with cache := e.cache.emit i₁ } ∧
    m' = (m.set t u₁).next) ⟨rfl, hx₁⟩) ?_
  rintro _ _ _ ⟨rfl, rfl⟩
  have h₁ : Working c₀ m₀ (env.set n (t, .temp, u₁)) { e with cache := e.cache.emit i₁ }
      (m.set t u₁).next g :=
    (h.wrote n hn u₁).congr rfl rfl (fun _ => rfl) rfl
  refine .skipping hj hi₂ fun b pc => ?_
  cases taken with
  | true => exact h₁.congr rfl rfl (fun _ => rfl) rfl
  | false =>
    rw [if_neg nofun, if_neg nofun, hx₂]
    have hn' : (env.set n (t, .temp, u₁))[n]? = some (t, .temp, u₁) :=
      List.getElem?_set_self (List.getElem?_eq_some_iff.mp hn).1
    have h₂ := h₁.wrote n hn' u₂
    rw [List.set_set] at h₂
    rw [Machine.set_next]
    exact h₂.congr rfl rfl (fun _ => rfl) rfl

theorem ne_temp (h : Working c₀ m₀ env e m g) (n j : Nat) (hx : env[n]? = some (x, k, v))
    (hk : k ≠ .temp) (ht : env[j]? = some (t, .temp, u)) : x ≠ t :=
  (h.temps t u (List.mem_of_getElem? ht)).isTemp.ne_of_reads
    (h.operands x k v (List.mem_of_getElem? hx)) hk

theorem ne_temp_of_owns {c : HostCache} {o : Option Content} (h : Owns c d o) (ho : o ≠ some .temp)
    (r : Fin 9) (hr : (c.slot r).content = .temp) : d ≠ .ofSlot r := by
  cases o with
  | none =>
    cases h
    exact (Machine.ofSlot_ne_rz r).symm
  | some content =>
    obtain ⟨r', rfl, hc, -⟩ := h
    intro he
    cases Machine.ofSlot_inj he
    exact ho (by rw [← hc, hr])

theorem wroteResult {o : Option Content} (h : Working c₀ m₀ env e m g) (hd : Owns e.cache d o)
    (ho : o ≠ some .temp) (v : UInt32) :
    Working c₀ m₀ (env.filter fun p => o.all fun content => content.base ≠ p.2.1) e (m.set d v)
      (g.storeWords (resultWords o v)) := by
  have hother {x : HostReg} {k : Content} {w : UInt32}
      (hp : (x, k, w) ∈ env.filter fun p => o.all fun content => content.base ≠ p.2.1) :
      (x, k, w) ∈ env ∧ ∀ content, o = some content → content.base ≠ k := by
    obtain ⟨hp, ha⟩ := List.mem_filter.mp hp
    refine ⟨hp, ?_⟩
    rintro content rfl
    simpa using ha
  refine ⟨hd.write h.agrees v, h.proper, h.kept.set (fun r hr => ?_) v, fun x k w hp => ?_,
    fun x w hp => h.temps x w (hother hp).1, h.distinct.sublist List.filter_sublist⟩
  · exact ne_temp_of_owns hd ho r (h.kept.content r hr)
  · obtain ⟨hp, hk⟩ := hother hp
    exact hd.reads hk (h.operands x k w hp) v

theorem awaits {o : Option Content} {c : HostCache} (h : Working c₀ m₀ env e m g)
    (ha : Allocates e.cache m c m' (g.storeWords (resultWords o (m'.get d))))
    (hp : HostCache.Assigns HostCache.IsShared (fun _ _ => False) e.cache c)
    (ho : Owns c d o) : Awaits c₀ m₀ env env { e with cache := c } m' g o d :=
  ⟨h.allocates ha hp, ho, fun _ _ _ hx => (h.allocates ha hp).value hx⟩

protected theorem outHigh (h : Working c₀ m₀ env e m g) (gr : GuestReg) :
    Runs W Q (outHigh gr) e m fun d e' m' =>
      Awaits c₀ m₀ env env e' m' g (target gr (.high gr)) d := by
  refine Runs.onCache fun d c hd => ?_
  obtain ⟨m', ha, ho⟩ := h.agrees.allocOutHigh hd
  exact ⟨m', ha.emitted, h.awaits ha (.allocOutHigh hd) ho⟩

protected theorem outLow (h : Working c₀ m₀ env e m g) (gr : GuestReg) :
    Runs W Q (outLow gr) e m fun d e' m' =>
      Awaits c₀ m₀ env env e' m' g (target gr (.low gr none)) d := by
  refine Runs.onCache fun d c hd => ?_
  obtain ⟨m', ha, ho⟩ := h.agrees.allocOutLow hd
  exact ⟨m', ha.emitted, h.awaits ha (.allocOutLow hd) ho⟩

protected theorem outExt (h : Working c₀ m₀ env e m g) (gr : GuestReg) (ext : Extension) :
    Runs W Q (onCache (HostCache.allocOutExt gr ext)) e m fun d e' m' =>
      Awaits c₀ m₀ env [] e' m' g (target gr (.low gr (some ext))) d := by
  refine Runs.onCache fun d c hd => ?_
  obtain ⟨m', hem, ha, ho, hget, hslot⟩ := h.agrees.allocOutExt hd
  have hkept : TempsKept e.cache m c m' := by
    refine ⟨fun r hr => ?_, fun r _ => hget _⟩
    rw [hslot r (TempsKept.pinned hr) (by rw [hr]; nofun) (by rw [hr]; nofun), hr]
  exact ⟨m', hem, ⟨ha, h.proper.assigns (.allocOutExt hd), h.kept.trans hkept, nofun, nofun, .nil⟩,
    ho, fun x _ _ hx => (hget x).trans (h.value hx)⟩

protected theorem outSigned (h : Working c₀ m₀ env e m g) (gr : GuestReg) :
    Runs W Q (outSigned gr) e m fun d e' m' =>
      Awaits c₀ m₀ env [] e' m' g (target gr (.low gr (some .sign))) d :=
  h.outExt gr .sign

protected theorem outUnsigned (h : Working c₀ m₀ env e m g) (gr : GuestReg) :
    Runs W Q (outUnsigned gr) e m fun d e' m' =>
      Awaits c₀ m₀ env [] e' m' g (target gr (.low gr (some .zero))) d :=
  h.outExt gr .zero

end Working

namespace Awaits

variable {W : Finished} {Q : Cpu → Prop} {c₀ : HostCache} {m₀ : Machine Cpu} {env rest : Operands}
  {e : Emitter} {m : Machine Cpu} {g : Cpu} {o : Option Content} {d : HostReg} {v hi : UInt32}
  {i : Ir.Instr String} {gr : GuestReg}

theorem valueAt {x : HostReg} {k : Content} (h : Awaits c₀ m₀ env rest e m g o d) (n : Nat)
    (hx : env[n]? = some (x, k, v)) : m.get x = v :=
  h.values x k v (List.mem_of_getElem? hx)

theorem outExt (h : Awaits c₀ m₀ env rest e m g o d) (gr : GuestReg) (ext : Extension)
    (ho : ∀ content, o = some content →
      content ≠ .unused ∧ content.base ≠ .low gr none ∧ content.base ≠ .high gr) :
    Runs W Q (onCache (HostCache.allocOutExt gr ext)) e m fun d' e' m' =>
      Awaits c₀ m₀ env [] e' m' (g.storeWords (resultWords o (m'.get d)))
        (target gr (.low gr (some ext))) d' ∧ Owns e'.cache d o := by
  refine Runs.onCache fun d' c hd => ?_
  obtain ⟨m', hem, ha, howns, hget, hslot⟩ := h.working.agrees.allocOutExt hd
  have hkept : TempsKept e.cache m c m' := by
    refine ⟨fun r hr => ?_, fun r _ => hget _⟩
    rw [hslot r (TempsKept.pinned hr) (by rw [hr]; nofun) (by rw [hr]; nofun), hr]
  rw [← hget d] at ha
  refine ⟨m', hem, ⟨⟨ha, h.working.proper.assigns (.allocOutExt hd), h.working.kept.trans hkept,
    nofun, nofun, .nil⟩, howns, fun x k v hx => (hget x).trans (h.values x k v hx)⟩, ?_⟩
  cases o with
  | none => exact h.owns
  | some content =>
    obtain ⟨r, rfl, hc, hdirty, hconst, hbusy⟩ := h.owns
    obtain ⟨hused, hlow, hhigh⟩ := ho content rfl
    rw [← hc] at hused hlow hhigh
    have heq := hslot r ⟨hused, .inl hbusy⟩ hlow hhigh
    exact ⟨r, rfl, by rw [heq, hc], by rw [heq, hdirty], by rw [heq, hconst], by rw [heq, hbusy]⟩

theorem wrote (h : Awaits c₀ m₀ env rest e m g o d) (ho : o ≠ some .temp) (v : UInt32) :
    Working c₀ m₀ (rest.filter fun p => o.all fun content => content.base ≠ p.2.1) e (m.set d v)
      (g.storeWords (resultWords o v)) := by
  rw [← storeWords_resultWords g o (m.get d) v]
  exact h.working.wroteResult h.owns ho v

theorem write (h : Awaits c₀ m₀ env rest e m g o d) (ho : o ≠ some .temp) (hi : i.isPlain = true)
    (hx : m.perform i = (m.set d v).next) : Runs W Q (emit i) e m fun _ e' m' =>
      Working c₀ m₀ (rest.filter fun p => o.all fun content => content.base ≠ p.2.1) e' m'
        (g.storeWords (resultWords o v)) := by
  refine Runs.emit hi ?_
  rw [hx]
  exact (h.wrote ho v).congr rfl rfl (fun _ => rfl) rfl

theorem target_ne_temp {content : Content} (h : content ≠ .temp) :
    target gr content ≠ some .temp := by
  unfold target
  split
  · nofun
  · exact fun he => h (Option.some.inj he)

theorem writeHigh (h : Awaits c₀ m₀ env rest e m g (target gr (.high gr)) d)
    (hi : i.isPlain = true) (hx : m.perform i = (m.set d v).next) :
    Runs W Q (emit i) e m fun _ e' m' =>
      Working c₀ m₀ (rest.filter fun p => p.2.1 ≠ .high gr) e' m'
        (g.storeWords (resultWords (target gr (.high gr)) v)) := by
  refine (h.write (target_ne_temp nofun) hi hx).imp fun _ e' m' h => h.weaken ?_
  refine List.monotone_filter_right _ fun p hk => ?_
  unfold target
  split
  · rfl
  · exact decide_eq_true (Ne.symm (of_decide_eq_true hk))

theorem writeLow (h : Awaits c₀ m₀ env rest e m
      (g.storeWords (resultWords (target gr (.high gr)) hi)) (target gr (.low gr none)) d)
    (hp : i.isPlain = true) (hx : m.perform i = (m.set d v).next) :
    Runs W Q (emit i) e m fun _ e' m' =>
      Working c₀ m₀ [] e' m' (g.setGuest gr (joinWords hi v)) := by
  refine (h.write (target_ne_temp nofun) hp hx).imp fun _ e' m' h => ?_
  rw [storeWords_pair] at h
  exact h.forget

theorem writeExt {ext : Extension} (h : Awaits c₀ m₀ env rest e m g
      (target gr (.low gr (some ext))) d) (hp : i.isPlain = true)
    (hx : m.perform i = (m.set d v).next) : Runs W Q (emit i) e m fun _ e' m' =>
      Working c₀ m₀ [] e' m' (g.setGuest gr (joinWords (ext.word v) v)) := by
  refine (h.write (target_ne_temp nofun) hp hx).imp fun _ e' m' h => ?_
  rw [storeWords_ext] at h
  exact h.forget

theorem writeSigned (h : Awaits c₀ m₀ env rest e m g (target gr (.low gr (some .sign))) d)
    (hp : i.isPlain = true) (hx : m.perform i = (m.set d v).next) :
    Runs W Q (emit i) e m fun _ e' m' => Working c₀ m₀ [] e' m' (g.setGuest gr (sextWord v)) := by
  rw [sextWord_eq]
  exact h.writeExt hp hx

theorem writeUnsigned (h : Awaits c₀ m₀ env rest e m g (target gr (.low gr (some .zero))) d)
    (hp : i.isPlain = true) (hx : m.perform i = (m.set d v).next) :
    Runs W Q (emit i) e m fun _ e' m' => Working c₀ m₀ [] e' m' (g.setGuest gr v.toUInt64) := by
  rw [toUInt64_eq_joinWords]
  exact h.writeExt hp hx

/-- The register is known to hold the result. -/
theorem writeConst (h : Awaits c₀ m₀ env rest e m g (target gr (.low gr (some .sign))) d)
    (v : UInt32) : Runs W Q (do
      emit (.li v d)
      modifyCache (·.setConst d v)) e m fun _ e' m' =>
        Working c₀ m₀ [] e' m' (g.setGuest gr (sextWord v)) := by
  have hw := (h.wrote (target_ne_temp nofun) v).forget
  rw [storeWords_ext] at hw
  rw [sextWord_eq]
  refine .bind (Runs.emit rfl (L := fun _ e' m' => e' = { e with cache := e.cache.emit (.li v d) } ∧
    m' = (m.set d v).next) ⟨rfl, rfl⟩) ?_
  rintro _ _ _ ⟨rfl, rfl⟩
  have howns := h.owns
  unfold target at howns
  split at howns
  · cases howns
    exact .modifyCache (.refl _ _) (hw.congr rfl rfl (fun _ => rfl) rfl)
  · obtain ⟨r, rfl, hc, -⟩ := howns
    have hcontent (r' : Fin 9) : ((e.cache.setConst (.ofSlot r) v).slot r').content =
        (e.cache.slot r').content := by
      rw [Agrees.setConst_ofSlot]
      by_cases he : r = r'
      · subst he
        rw [HostCache.slot_setSlot_self]
      · rw [HostCache.slot_setSlot_of_ne _ _ he]
    have hset : Agrees (e.cache.setConst (.ofSlot r) v) (m.set (.ofSlot r) v) _ :=
      hw.agrees.setConst (by rw [hc]; nofun) (m.get_set_self r v)
    have hkept : TempsKept c₀ m₀ (e.cache.setConst (.ofSlot r) v) (m.set (.ofSlot r) v) :=
      hw.kept.trans (.of_slots hcontent fun _ => rfl)
    have hproper : (e.cache.setConst (.ofSlot r) v).Proper :=
      fun r' off hr => hw.proper r' off (hcontent r' ▸ hr)
    have hdone : Working c₀ m₀ [] { e with cache := e.cache.setConst (.ofSlot r) v }
        (m.set (.ofSlot r) v) _ := ⟨hset, hproper, hkept, nofun, nofun, .nil⟩
    simp only [Agrees.setConst_ofSlot] at hdone ⊢
    exact .modifyCache (.refl _ _) (hdone.congr rfl rfl (fun _ => rfl) rfl)

end Awaits

end Recompiler
