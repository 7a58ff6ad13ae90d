import Recompiler.Proofs.ForkedPaths
import Recompiler.Proofs.InlineArithmetic

/-!
Inline code with a slow path: sums that may overflow, and accesses to memory. The fast path leaves
what the interpreter leaves where it does not need the slow path, which does the rest.
-/

namespace Recompiler

open Ir Emit Interp

def Cpu.begun (c : Cpu) : Cpu := { c with leave := 0 }

theorem Cpu.mem_begun (c : Cpu) : c.begun.mem = c.mem := rfl

theorem Cpu.effective_begun (c : Cpu) (i : Recompiler.Instr) :
    effective c.begun i = effective c i := rfl

namespace Cpu.Stands

variable {g c : Cpu}

theorem begun (h : g.Stands c) : g.Stands c.begun := by
  obtain ⟨pc, delay, leave, f, rfl⟩ := h
  exact ⟨pc, delay, leave, f, rfl⟩

theorem guest (h : g.Stands c) (gr : GuestReg) : g.guest gr = c.guest gr := by
  obtain ⟨pc, delay, leave, f, rfl⟩ := h
  rfl

theorem setGuest (h : g.Stands c) (gr : GuestReg) (v : UInt64) :
    (g.setGuest gr v).Stands (c.setGuest gr v) := by
  obtain ⟨pc, delay, leave, f, rfl⟩ := h
  refine ⟨pc, delay, leave, f, ?_⟩
  unfold Cpu.setGuest Cpu.setReg
  split
  · split <;> rfl
  · split <;> rfl

end Cpu.Stands

theorem Cpu.leave_setGuest (c : Cpu) (gr : GuestReg) (v : UInt64) :
    (c.setGuest gr v).leave = c.leave := by
  unfold setGuest
  split
  · exact c.setReg_leave _ v
  · split <;> rfl

theorem Cpu.mem_setGuest (c : Cpu) (gr : GuestReg) (v : UInt64) :
    (c.setGuest gr v).mem = c.mem := by
  unfold setGuest setReg
  split <;> split <;> rfl

variable {W : Finished} {Q : Cpu → Prop} {c₀ : HostCache} {m₀ m : Machine Cpu} {env : Operands}
  {e : Emitter} {g c : Cpu} {s : Site} {i : Recompiler.Instr} {gr : GuestReg} {cfg : Config}

theorem Emit.Runs.leaving {j : Ir.Instr String} {name : String} {taken : Bool}
    {K : Unit → Emitter → Machine Cpu → Prop} (hj : j.Decides m name taken)
    (haway : taken = true → m.program = W.program → Ends Q { m with pc := W.position name })
    (hk : taken = false → K () { e with cache := e.cache.emit j } m.next) :
    Runs W Q (Emit.emit j) e m K := by
  intro _ _ hx hp hat
  cases hx
  have hcode := Finished.code_at (b := e.cache.builder) (i := j) hp.builder hat
  have hexec := hj W.position
  cases taken with
  | true => exact fun _ => .jump hcode hexec (haway rfl hat.program)
  | false =>
    exact fun hk' => .advance hcode hexec
      (hk' m.next ⟨Finished.at_add hp.builder hat ⟨rfl, rfl⟩, hk rfl⟩)

protected theorem Working.constant (h : Working c₀ m₀ env e m g) (v : UInt32) :
    Runs W Q (constant v) e m fun y e' m' => Working c₀ m₀ env e' m' g ∧ m'.get y = v ∧
      ∀ x w, (x, .temp, w) ∈ env → y ≠ x := by
  refine Runs.onCache fun y c hy => ?_
  obtain ⟨m', ha, hknows⟩ := h.agrees.allocConst hy
  have hw := h.allocates ha (.allocConst hy)
  refine ⟨m', ha.emitted, hw, ?_⟩
  rcases hknows with ⟨rfl, rfl⟩ | ⟨r, rfl, -, hconst, hv⟩
  · refine ⟨rfl, fun x w hx he => ?_⟩
    obtain ⟨r, rfl, -⟩ := hw.temps x w hx
    exact Machine.ofSlot_ne_rz r he.symm
  · refine ⟨hv, fun x w hx he => ?_⟩
    obtain ⟨r', rfl, -, -, hfree⟩ := hw.temps x w hx
    cases Machine.ofSlot_inj he
    cases hconst.symm.trans hfree

/-- Word arithmetic with a test for an overflow. -/
theorem Working.trapping {x y : HostReg} {u v : UInt64} {w : UInt32} {sub : Bool}
    {j : HostReg → Ir.Instr String} (hW : W.Stubbed) (h : Working c₀ m₀ env e m g)
    (hb : Begins Q .exec s i c g) (hx : m.get x = lowWord u) (hy : m.get y = lowWord v)
    (hs : Interp.service c i .exec =
      if Machine.overflows sub (lowWord u) (lowWord v) then c.begun.raise .overflow
      else c.begun.setGuest gr (sextWord w))
    (hplain : ∀ d, (j d).isPlain = true)
    (hj : ∀ d (m' : Machine Cpu), (∀ x k v, (x, k, v) ∈ env → m'.get x = v) →
      m'.perform (j d) = (m'.set d w).next) :
    Runs W Q (do
      let stub ← branchOff s i .rz
      emit (.branchOverflow sub x y (Stub.entryLabel stub.id))
      let d ← outSigned gr
      emit (j d)
      join stub) e m (Arrives c₀ m₀ (Interp.service c i .exec)) := by
  have hstands := (hb.stands.begun).setGuest gr (sextWord w)
  suffices hfork : Runs W Q (do
      let stub ← branchOff s i .rz
      (do
        emit (.branchOverflow sub x y (Stub.entryLabel stub.id))
        let d ← outSigned gr
        emit (j d))
      join stub) e m (Arrives c₀ m₀ (Interp.service c i .exec)) by
    simpa only [bind_assoc] using hfork
  refine .fork hW hb (fun stub e₁ hcache haway => ?_) fun stub e₁ e₂ m₁ hcache hrun ha => ?_
  all_goals
    have hslots : e₁.cache.slots = e.cache.slots := congrArg HostCache.slots hcache
    have hfp : e₁.cache.fpSlots = e.cache.fpSlots := congrArg HostCache.fpSlots hcache
  · have hdecides : Ir.Instr.Decides (.branchOverflow sub x y (Stub.entryLabel stub.id)) m
        (Stub.entryLabel stub.id) (Machine.overflows sub (lowWord u) (lowWord v)) := by
      intro f
      rw [← hx, ← hy]
      rfl
    refine .bind (.leaving (K := fun _ e' m' => Machine.overflows sub (lowWord u) (lowWord v) = false ∧
      Working c₀ m₀ env e' m' g) hdecides (fun _ hprogram => ?_) fun hno =>
      ⟨hno, h.congr hslots hfp (fun _ => rfl) rfl⟩) fun _ e₂ m₂ ⟨hno, h₂⟩ => ?_
    · exact haway _ hprogram rfl (h.agrees.of_machine (fun _ => rfl) rfl)
        (h.kept.trans (.of_slots (fun _ => rfl) fun _ => rfl))
    · rw [hno, if_neg nofun] at hs
      refine .bind (h₂.outSigned gr) fun d e₃ m₃ hd => ?_
      refine (hd.writeSigned (hplain d) (hj d m₃ hd.values)).imp fun _ e₄ m₄ h₄ => ?_
      rw [hs]
      exact ⟨Cpu.leave_setGuest _ _ _, _, h₄, hstands⟩
  · obtain ⟨_, e₃, hbranch, hrun⟩ := bind_ok hrun
    obtain ⟨d, e₄, hout, hemit⟩ := bind_ok hrun
    cases hbranch
    cases hemit
    have hbranched : Planned e.cache m₁
        (e₁.cache.emit (.branchOverflow sub x y (Stub.entryLabel stub.id))) g :=
      (Planned.start ha h.proper).of_slots hslots hfp
    refine ⟨_, (hbranched.outExt (onCache_run hout).1 w).of_slots rfl rfl, fun hleave => ?_⟩
    rw [hs] at hleave ⊢
    split at hleave
    · cases hleave
    · rename_i hno
      rw [if_neg hno]
      change Cpu.SameHeld _ (g.setGuest gr (joinWords (sar32 w 31) w))
      rw [← sextWord_eq]
      exact hstands.sameHeld.symm

theorem execAlu_trapping (c : Cpu) (i : Recompiler.Instr) (sub : Bool) :
    execAlu c i (if sub then .sub else .add) =
      if Machine.overflows sub (lowWord (c.reg i.rs)) (lowWord (c.reg i.rt)) then c.raise .overflow
      else c.setReg i.rd (sextWord (Machine.evalBin (if sub then .sub else .add)
        (lowWord (c.reg i.rs)) (lowWord (c.reg i.rt)))) := by
  rw [overflows_lowWord]
  cases sub with
  | false =>
    change writeUnless _ _ _ (add32 _ _) = _
    rw [add32_eq_sext32]
    change writeUnless _ _ _ (sextWord (lowWord (_ + _))) = _
    rw [lowWord_add]
    rfl
  | true =>
    change writeUnless _ _ _ (sub32 _ _) = _
    rw [sub32_eq_sext32]
    change writeUnless _ _ _ (sextWord (lowWord (_ - _))) = _
    rw [lowWord_sub]
    rfl

protected theorem Working.addTrapping (hW : W.Stubbed) (h : Working c₀ m₀ [] e m g) {sub : Bool}
    (hk : i.kind = .alu (if sub then .sub else .add)) (hb : Begins Q .exec s i c g) :
    Runs W Q (addTrapping s sub i) e m (Arrives c₀ m₀ (Interp.service c i .exec)) := by
  unfold Emit.addTrapping
  refine .bind (h.inLow (rs i)) fun x e m h => .bind (h.inLow (rt i)) fun y e m h => ?_
  have hs : Interp.service c i .exec = execAlu c.begun i (if sub then .sub else .add) := by
    change Interp.effect c.begun i c.pc = _
    unfold Interp.effect
    rw [hk]
  refine h.trapping (w := Machine.evalBin (if sub then .sub else .add) (lowWord (g.guest (rs i)))
    (lowWord (g.guest (rt i)))) hW hb (h.valueAt 1 rfl) (h.valueAt 0 rfl) ?_ (fun d => rfl)
      fun d m' hv => perform_bin _ (hv x _ _ (List.mem_cons_of_mem _ List.mem_cons_self))
        (hv y _ _ List.mem_cons_self)
  rw [hs, execAlu_trapping, hb.stands.guest, hb.stands.guest, rs, rt, rd, Cpu.guest_ofReg,
    Cpu.guest_ofReg, Cpu.setGuest_ofReg]
  rfl

theorem execImm_trapping (c : Cpu) (i : Recompiler.Instr) : execImm c i .addi =
    if Machine.overflows false (lowWord (c.reg i.rs)) (simm i) then c.raise .overflow
    else c.setReg i.rt (sextWord (lowWord (c.reg i.rs) + simm i)) := by
  have hsimm : lowWord i.simm = simm i := rfl
  rw [← hsimm, overflows_lowWord]
  change writeUnless _ _ _ (add32 _ _) = _
  rw [add32_eq_sext32]
  change writeUnless _ _ _ (sextWord (lowWord (_ + _))) = _
  rw [lowWord_add]
  rfl

protected theorem Working.addImmTrapping (hW : W.Stubbed) (h : Working c₀ m₀ [] e m g)
    (hk : i.kind = .imm .addi) (hb : Begins Q .exec s i c g) :
    Runs W Q (addImmTrapping s i) e m (Arrives c₀ m₀ (Interp.service c i .exec)) := by
  unfold Emit.addImmTrapping
  refine .bind (h.inLow (rs i)) fun x e m h => .bind (h.constant (simm i)) fun y e m ⟨h, hy, _⟩ => ?_
  have hs : Interp.service c i .exec = execImm c.begun i .addi := by
    change Interp.effect c.begun i c.pc = _
    unfold Interp.effect
    rw [hk]
  refine h.trapping (w := lowWord (g.guest (rs i)) + simm i) (v := i.simm) hW hb (h.valueAt 0 rfl)
    hy ?_ (fun d => rfl) fun d m' hv => perform_const _ (hv x _ _ List.mem_cons_self) (by simp)
  rw [hs, execImm_trapping, hb.stands.guest, rs, rt, Cpu.guest_ofReg, Cpu.setGuest_ofReg]
  rfl

theorem Agrees.of_temps {c : HostCache} {m m' : Machine Cpu} {g : Cpu} (h : Agrees c m g)
    (hregs : ∀ r, (c.slot r).content ≠ .temp ∨ (c.slot r).isConst = true →
      m'.get (.ofSlot r) = m.get (.ofSlot r)) (hctx : m'.ctx = m.ctx) : Agrees c m' g where
  held r p hp := by
    rw [hregs r (.inl fun ht => by rw [ht] at hp; cases hp)] at hp
    exact h.held r p hp
  const r hc := by
    rw [hregs r (.inr hc)]
    exact h.const r hc
  apart := h.apart
  valid := h.valid
  writable := h.writable
  synced off hoff := hctx ▸ h.synced off hoff
  rest := hctx ▸ h.rest
  zero := h.zero
  fp := h.fp

theorem Agrees.mem_eq {c : HostCache} {m : Machine Cpu} {g : Cpu} (h : Agrees c m g) :
    m.ctx.mem = g.mem := h.rest.mem

/-- The operands with the values that temporaries have in a machine. -/
def Operands.reread (m : Machine Cpu) (env : Operands) : Operands :=
  env.map fun (x, k, v) => (x, k, if k = .temp then m.get x else v)

theorem Memory.Created.fits {mem : Memory} {size : Size} {bytes : UInt32} (h : mem.Created)
    (hram : cfg.ramSize = UInt32.ofNat mem.size) (hsize : bytes = size.bytes) :
    ¬ cfg.ramSize < bytes := by
  obtain ⟨k, hlow, hhigh, hpages, -⟩ := h.pages
  have hbytes : size.bytes.toNat ≤ 8 := by cases size <;> decide
  have hnat : (UInt32.ofNat mem.size).toNat = mem.size := UInt32.toNat_ofNat_of_lt' (by
    change mem.size < 4294967296
    omega)
  rw [hram, hsize, UInt32.lt_iff_toNat_lt, hnat]
  omega

theorem Planned.guarded {c₁ : HostCache} {a : Access} {size : Size} {slow : String} {isStore : Bool}
    {e e₁ e₂ : Emitter} (h : Planned c₁ m e.cache g) (hfits : ¬ cfg.ramSize < a.size)
    (hguard : guard cfg i a slow isStore e = .ok () e₁) (hswizzle : swizzle size a e₁ = .ok () e₂) :
    Planned c₁ m e₂.cache g := by
  obtain ⟨-, hslots, hfp⟩ := guard_ok hfits hguard
  rw [swizzle_ok hswizzle]
  exact h.of_slots ((slots_emitAll _ _).trans hslots) ((Agrees.fpSlots_emitAll _ _).trans hfp)

/-- The registers of an access are temporaries of its own. -/
structure Emit.Access.OwnTemps (c₀ c : HostCache) (a : Access) : Prop where
  temps : a.Temps c
  own : ∀ x, x = a.addr ∨ x = a.offset ∨ x = a.scratch → OwnTemp c₀ c x

namespace Working

/-- The registers of an access have changed. -/
theorem differs {a : Access} {m' : Machine Cpu} (h : Working c₀ m₀ env e m g)
    (ht : a.OwnTemps c₀ e.cache) (hd : a.Differs m m') :
    Working c₀ m₀ (env.reread m') e m' g := by
  have hregs (x : HostReg) (hx : ∀ y, y = a.addr ∨ y = a.offset ∨ y = a.scratch → x ≠ y) :
      m'.get x = m.get x :=
    hd.others x (hx _ (.inl rfl)) (hx _ (.inr (.inl rfl))) (hx _ (.inr (.inr rfl)))
  have hmem {x : HostReg} {k : Content} {v : UInt32} (hx : (x, k, v) ∈ env.reread m') :
      ∃ u, (x, k, u) ∈ env ∧ v = if k = .temp then m'.get x else u := by
    obtain ⟨⟨x, k, u⟩, hp, he⟩ := List.mem_map.mp hx
    cases he
    exact ⟨u, hp, rfl⟩
  refine ⟨h.agrees.of_temps (fun r hr => hregs _ fun y hy => (ht.own y hy).isTemp.ne_ofSlot hr)
    hd.ctx, h.proper, ⟨h.kept.content, fun r hr => ?_⟩, fun x k v hx => ?_, fun x v hx => ?_, ?_⟩
  · refine (hregs _ fun y hy he => ?_).trans (h.kept.regs r hr)
    obtain ⟨r', hr', hn, -⟩ := ht.own y hy
    cases Machine.ofSlot_inj (he.trans hr')
    exact hn hr
  · obtain ⟨u, hu, rfl⟩ := hmem hx
    have hreads := h.operands x k u hu
    split
    · rename_i hk
      subst hk
      obtain ⟨r, rfl, -, hr, -⟩ := h.temps x u hu
      exact .inr ⟨r, rfl, TempsKept.pinned hr, by rw [hr]; rfl, rfl⟩
    · rename_i hk
      have hsame := hregs x fun y hy => (ht.own y hy).isTemp.ne_of_reads hreads hk
      rcases hreads with ⟨hz, hv⟩ | ⟨r, hr, hp, hb, hv⟩
      · exact .inl ⟨hz, hv⟩
      · exact .inr ⟨r, hr, hp, hb, hsame.trans hv⟩
  · obtain ⟨u, hu, -⟩ := hmem hx
    exact h.temps x u hu
  · exact List.pairwise_map.mpr h.distinct

theorem ownTemps {a : Access} {u v w : UInt32}
    (h : Working c₀ m₀ [(a.scratch, .temp, u), (a.offset, .temp, v), (a.addr, .temp, w)] e m g) :
    a.OwnTemps c₀ e.cache := by
  have hscratch := h.temps a.scratch u (by simp)
  have hoffset := h.temps a.offset v (by simp)
  have haddr := h.temps a.addr w (by simp)
  have hdistinct : (a.scratch ≠ a.offset ∧ a.scratch ≠ a.addr) ∧ a.offset ≠ a.addr := by
    simpa using h.distinct
  obtain ⟨⟨hso, hsa⟩, hoa⟩ := hdistinct
  refine ⟨⟨haddr.isTemp, hoffset.isTemp, hscratch.isTemp, hoa.symm, hsa.symm, hso.symm⟩, ?_⟩
  rintro x (rfl | rfl | rfl)
  exacts [haddr, hoffset, hscratch]

protected theorem access (h : Working c₀ m₀ env e m g) (size : Size) :
    Runs W Q (access size i) e m fun a e' m' => a.size = size.bytes ∧ ∃ u v w,
      Working c₀ m₀ ((a.scratch, .temp, u) :: (a.offset, .temp, v) :: (a.addr, .temp, w) ::
        (a.base, .low (rs i) none, lowWord (g.guest (rs i))) :: env) e' m' g := by
  unfold Emit.access
  refine .bind (h.inLow (rs i)) fun base e m h => .bind h.temp fun addr e m h =>
    .bind h.temp fun offset e m h => .bind h.temp fun scratch e m h => .pure ⟨?_, _, _, _, h⟩
  cases size <;> rfl

/-- The access is one for the fast path, unless the run goes on with the slow one. -/
protected theorem guard {a : Access} {size : Size} {slow : String} {isStore : Bool}
    (h : Working c₀ m₀ env e m g) (ht : a.OwnTemps c₀ e.cache) (hsize : a.size = size.bytes)
    (hbase : m.get a.base = lowWord (g.guest (rs i))) (hmem : g.mem.Created)
    (hram : cfg.ramSize = UInt32.ofNat g.mem.size)
    (haway : ∀ m₁, m₁.program = W.program → m₁.pc = W.position slow → Agrees e.cache m₁ g →
      TempsKept c₀ m₀ e.cache m₁ → Ends Q m₁) :
    Runs W Q (guard cfg i a slow isStore) e m fun _ e' m' =>
      Direct g.mem (effective g i) size isStore ∧ m'.get a.offset = physical (effective g i) ∧
        Working c₀ m₀ (env.reread m') e' m' g := by
  intro _ e' hx hp hat hcont
  have hmem_eq := h.agrees.mem_eq
  obtain ⟨hbuilder, hslots, hfp⟩ := guard_ok (hmem.fits hram hsize) hx
  have haddr : m.get a.base + simm i = effective g i := by
    rw [hbase, rs, Cpu.guest_ofReg]
    rfl
  obtain ⟨ts, n, o, hn, hdiff, -, -, houtcome⟩ := Access.passes_guardCode slow isStore ht.temps
    (hmem_eq ▸ hmem) (hmem_eq ▸ hram) hsize haddr
  rw [hmem_eq] at houtcome
  have hworking := h.differs ht hdiff
  obtain ⟨hend, hexit⟩ := hn.walk .none (hbuilder ▸ hp.builder) hat
  rcases houtcome with ⟨rfl, hdirect, hoffset⟩ | ⟨rfl, hdirect⟩
  · obtain ⟨hwalk, hat'⟩ := hend rfl
    rw [← hbuilder] at hat'
    exact .of_run hwalk.run_eq (hcont n ⟨hat', hdirect, hoffset,
      hworking.congr hslots hfp (fun _ => rfl) rfl⟩)
  · obtain ⟨hwalk, hprogram⟩ := hexit _ rfl
    exact .of_run hwalk.run_eq (haway _ hprogram rfl (hworking.agrees.of_machine (fun _ => rfl) rfl)
      (hworking.kept.trans (.of_slots (fun _ => rfl) fun _ => rfl)))

protected theorem swizzle {a : Access} {p : UInt32} (h : Working c₀ m₀ env e m g) (n : Nat)
    (hn : env[n]? = some (a.offset, .temp, p)) (size : Size) :
    Runs W Q (swizzle size a) e m fun _ e' m' =>
      Working c₀ m₀ (env.set n (a.offset, .temp, Memory.place p size)) e' m' g := by
  have hsame : env.set n (a.offset, .temp, p) = env := by
    obtain ⟨hlt, he⟩ := List.getElem?_eq_some_iff.mp hn
    rw [← he]
    exact List.set_getElem_self hlt
  cases size with
  | byte | half => exact h.setTemp n hn rfl (perform_const .xor (h.valueAt n hn) (by simp))
  | word | double => exact .pure (hsame.symm ▸ h)

end Working

/-- The guest is one that the program has been made for. -/
structure Emit.Config.Suits (cfg : Config) (c : Cpu) : Prop where
  created : c.mem.Created
  ramSize : cfg.ramSize = UInt32.ofNat c.mem.size
  noDevice : ∀ p : UInt32, p.toNat < c.mem.size → c.mem.deviceAt? p = none
  devices : c.mem.DevicesFit
  wideFp : cfg.wideFp = c.wideFpRegs

theorem Cpu.Stands.mem (h : g.Stands c) : g.mem = c.mem := by
  obtain ⟨pc, delay, leave, f, rfl⟩ := h
  rfl

theorem Cpu.Stands.effective (h : g.Stands c) : effective g i = effective c i := by
  obtain ⟨pc, delay, leave, f, rfl⟩ := h
  rfl

theorem perform_load {op : RamLoad} {x d : HostReg} {off : Int} {v : UInt32}
    (hv : Machine.evalLoad op m.ctx.mem.ram (m.address x off) = v) :
    m.perform (.load op x off d) = (m.set d v).next := by
  subst hv
  rfl

theorem Cpu.readPhys_state (c : Cpu) (paddr : UInt32) (size : Size) :
    ∃ effects, (c.readPhys paddr size).2 = { c with effects } := by
  unfold readPhys
  split
  · exact ⟨_, rfl⟩
  · exact ⟨c.effects, rfl⟩

theorem execLoad_sameHeld {op : LoadOp} (hm : c.mem.DevicesFit)
    (hleave : (execLoad c i op).leave = 0) : ∃ v : UInt64,
      v.toNat < 2 ^ (8 * (Interp.loadSize op).bytes.toNat) ∧
        (execLoad c i op).SameHeld (c.setReg i.rt (extendLoad op v)) := by
  unfold execLoad at hleave ⊢
  rcases c.load_cases (Interp.effective c i) (Interp.loadSize op) with
    ⟨p, hload⟩ | ⟨c', hload, -, hraised⟩
  · obtain ⟨effects, hstate⟩ := c.readPhys_state p (Interp.loadSize op)
    rw [hload]
    refine ⟨_, c.readPhys_lt hm p _, ?_⟩
    dsimp only
    rw [hstate]
    unfold Cpu.setReg
    split <;> exact .of_fields rfl rfl rfl rfl rfl rfl
  · rw [hload] at hleave
    cases hraised.symm.trans hleave

theorem extendLoad_eq_joinWords {op : LoadOp} (hop : op ≠ .ld) {v : UInt64}
    (hv : v.toNat < 2 ^ (8 * (Interp.loadSize op).bytes.toNat)) :
    ∃ w, extendLoad op v = joinWords (op.extension.word w) w := by
  obtain ⟨w, rfl⟩ : ∃ w : UInt32, v = w.toUInt64 := by
    have hlt : v.toNat < 2 ^ 32 := Nat.lt_of_lt_of_le hv (by
      cases op <;> first | exact absurd rfl hop | decide)
    refine ⟨v.toUInt32, UInt64.toNat_inj.mp ?_⟩
    rw [UInt32.toNat_toUInt64, UInt64.toNat_toUInt32]
    exact (Nat.mod_eq_of_lt hlt).symm
  cases op with
  | ld => exact absurd rfl hop
  | lb => exact ⟨_, (sext8_eq w).trans (sextWord_eq _)⟩
  | lh => exact ⟨_, (sext16_eq w).trans (sextWord_eq _)⟩
  | lw => exact ⟨w, (sext32_eq_sextWord _).trans ((congrArg sextWord w.toUInt32_toUInt64).trans (sextWord_eq w))⟩
  | lbu | lhu | lwu => exact ⟨w, toUInt64_eq_joinWords w⟩

theorem storeWords_high (c : Cpu) (gr : GuestReg) (v : UInt64) (hi : UInt32) :
    (c.setGuest gr v).storeWords (resultWords (target gr (.high gr)) hi) =
      c.setGuest gr (joinWords hi (lowWord v)) := by
  by_cases h0 : gr.val = 0
  · rw [setGuest_zero c h0, setGuest_zero c h0, target, if_pos h0]
    rfl
  · rw [c.setGuest_eq h0, c.setGuest_eq h0, lowWord_joinWords, highWord_joinWords, target,
      if_neg h0]
    exact Cpu.storeWord_storeWord_self ..

theorem storeWords_low (c : Cpu) (gr : GuestReg) (v : UInt64) (lo : UInt32) :
    (c.setGuest gr v).storeWords (resultWords (target gr (.low gr none)) lo) =
      c.setGuest gr (joinWords (highWord v) lo) := by
  by_cases h0 : gr.val = 0
  · rw [setGuest_zero c h0, setGuest_zero c h0, target, if_pos h0]
    rfl
  · rw [c.setGuest_eq h0, c.setGuest_eq h0, lowWord_joinWords, highWord_joinWords, target,
      if_neg h0, ← Cpu.storeWord_storeWord_self c (Layout.lowWord gr) (lowWord v) lo]
    exact Cpu.storeWord_comm _ _ _ (Cpu.isWord_highWord gr) (Cpu.isWord_lowWord gr)
      (Cpu.lowWord_ne_highWord gr gr).symm

theorem Awaits.outLow {rest : Operands} {d : HostReg}
    (h : Awaits c₀ m₀ env rest e m g (target gr (.high gr)) d) :
    Runs W Q (outLow gr) e m fun d' e' m' => ∃ v, Working c₀ m₀ rest e' m' (g.setGuest gr v) ∧
      Owns e'.cache d (target gr (.high gr)) ∧ Owns e'.cache d' (target gr (.low gr none)) := by
  refine Runs.onCache fun d' c hd => ?_
  obtain ⟨m', ha, ho⟩ := h.working.agrees.allocOutLow hd
  have hw := (h.working.awaits ha (.allocOutLow hd) ho).working
  rw [storeWords_pair] at hw
  exact ⟨m', ha.emitted, _, hw, h.owns.stable ha.stable, ho⟩

/-- Both words of a register are read from where the temporaries `env` say. -/
theorem Working.readBoth {i₁ i₂ : HostReg → Ir.Instr String} {hi lo : UInt32}
    (h : Working c₀ m₀ env e m g) (henv : ∀ p ∈ env, p.2.1 = .temp)
    (hp₁ : ∀ d, (i₁ d).isPlain = true) (hp₂ : ∀ d, (i₂ d).isPlain = true)
    (hx₁ : ∀ d e' m' v, Working c₀ m₀ env e' m' (g.setGuest gr v) →
      m'.perform (i₁ d) = (m'.set d hi).next)
    (hx₂ : ∀ d e' m' v, Working c₀ m₀ env e' m' (g.setGuest gr v) →
      m'.perform (i₂ d) = (m'.set d lo).next) :
    Runs W Q (do
      let high ← outHigh gr
      let low ← outLow gr
      emit (i₁ high)
      emit (i₂ low)) e m fun _ e' m' => Working c₀ m₀ [] e' m' (g.setGuest gr (joinWords hi lo)) := by
  refine .bind (h.outHigh gr) fun x e m h => .bind h.outLow fun y e m ⟨v, h, hx, hy⟩ => ?_
  have hsame : env.filter (fun p => (target gr (.high gr)).all fun content =>
      content.base ≠ p.2.1) = env := by
    refine List.filter_eq_self.mpr fun p hp => ?_
    rw [henv p hp]
    unfold target
    split <;> rfl
  have hhigh := h.wroteResult hx (Awaits.target_ne_temp nofun) hi
  rw [hsame, storeWords_high] at hhigh
  refine .bind (Runs.emit (L := fun _ e' m' => Working c₀ m₀ env e' m'
    (g.setGuest gr (joinWords hi (lowWord v))) ∧ Owns e'.cache y (target gr (.low gr none))) (hp₁ x) ?_)
      fun _ e m ⟨h, hy⟩ => .emit (hp₂ y) ?_
  · rw [hx₁ x _ _ _ h]
    exact ⟨hhigh.congr rfl rfl (fun _ => rfl) rfl, hy⟩
  · rw [hx₂ y _ _ _ h]
    have hlow := h.wroteResult hy (Awaits.target_ne_temp nofun) lo
    rw [storeWords_low, highWord_joinWords] at hlow
    exact hlow.forget.congr rfl rfl (fun _ => rfl) rfl

/-- The code of an access; `rest` is the fast path after the guard. -/
def Emit.accessed (cfg : Config) (s : Site) (i : Recompiler.Instr) (size : Size) (isStore : Bool)
    (a : Access) (rest : EmitM Unit) : EmitM Unit := do
  let stub ← branchOff s i a.addr
  guard cfg i a (Stub.entryLabel stub.id) isStore
  swizzle size a
  rest
  join stub

instance {size : Size} {isStore : Bool} {a : Access} {rest : EmitM Unit} [Grows rest] :
    Grows (accessed cfg s i size isStore a rest) := by
  unfold accessed
  infer_instance

instance (ext : Extension) : Emit.Grows (onCache (HostCache.allocOutExt gr ext)) :=
  grows_onCache fun _ _ _ h => (Extends.allocOutExt h).precedes

namespace Working

theorem withCache {e' : Emitter} (h : Working c₀ m₀ env e m g) (hc : e'.cache = e.cache) :
    Working c₀ m₀ env e' m g :=
  h.congr (congrArg HostCache.slots hc) (congrArg HostCache.fpSlots hc) (fun _ => rfl) rfl

/-- An access with its slow path. -/
theorem accessing {a : Access} {size : Size} {isStore : Bool} {rest : EmitM Unit} [Grows rest]
    {n : Nat} {u : UInt32} (hW : W.Stubbed) (h : Working c₀ m₀ env e m g)
    (hb : Begins Q .exec s i c g) (hc : cfg.Suits c) (ht : a.OwnTemps c₀ e.cache)
    (hsize : a.size = size.bytes) (hbase : m.get a.base = lowWord (g.guest (rs i)))
    (hn : env[n]? = some (a.offset, .temp, u))
    (hrest : ∀ e₁ m₁ m₂, Direct c.mem (Interp.effective c i) size isStore →
      Working c₀ m₀ ((env.reread m₁).set n (a.offset, .temp,
        Memory.place (physical (Interp.effective c i)) size)) e₁ m₂ g →
      Runs W Q rest e₁ m₂ (Arrives c₀ m₀ (Interp.service c i .exec)))
    (hplan : ∀ e₁ e₂ m₁, rest e₁ = .ok () e₂ → Planned e.cache m₁ e₁.cache g →
      ∃ g', Planned e.cache m₁ e₂.cache g' ∧
        ((Interp.service c i .exec).leave = 0 → (Interp.service c i .exec).SameHeld g')) :
    Runs W Q (accessed cfg s i size isStore a rest) e m
      (Arrives c₀ m₀ (Interp.service c i .exec)) := by
  have hstands := hb.stands
  suffices hfork : Runs W Q (do
      let stub ← branchOff s i a.addr
      (do
        guard cfg i a (Stub.entryLabel stub.id) isStore
        swizzle size a
        rest)
      join stub) e m (Arrives c₀ m₀ (Interp.service c i .exec)) by
    simpa only [accessed, bind_assoc] using hfork
  refine .fork hW hb (fun stub e₁ hcache haway => ?_) fun stub e₁ e₂ m₁ hcache hrun ha => ?_
  · refine .bind ((h.withCache hcache).guard (hcache ▸ ht) hsize hbase (hstands.mem ▸ hc.created)
      (hstands.mem ▸ hc.ramSize) (by rwa [hcache])) fun _ e₂ m₂ ⟨hd, hoffset, h₂⟩ => ?_
    rw [hstands.mem, hstands.effective] at hd
    rw [hstands.effective] at hoffset
    refine .bind (h₂.swizzle (p := physical (Interp.effective c i)) n ?_ size) fun _ e₃ m₃ h₃ =>
      hrest e₃ _ m₃ hd h₃
    rw [Operands.reread, List.getElem?_map, hn, ← hoffset]
    rfl
  · obtain ⟨_, e₃, hguard, hrun⟩ := bind_ok hrun
    obtain ⟨_, e₄, hswizzle, hrun⟩ := bind_ok hrun
    exact hplan e₄ e₂ m₁ hrun (((Planned.start ha h.proper).of_slots (congrArg HostCache.slots hcache)
      (congrArg HostCache.fpSlots hcache)).guarded (hc.created.fits hc.ramSize hsize) hguard hswizzle)

theorem service_load {op : LoadOp} (hk : i.kind = .load op) :
    Interp.service c i .exec = execLoad c.begun i op := by
  change Interp.effect c.begun i c.pc = _
  unfold Interp.effect
  rw [hk]

/-- A load of at most a word. -/
theorem loadNarrow (op : LoadOp) (hop : op ≠ .ld) (hW : W.Stubbed) (h : Working c₀ m₀ [] e m g)
    (hk : i.kind = .load op) (hb : Begins Q .exec s i c g) (hc : cfg.Suits c) : Runs W Q (do
      let a ← access (Interp.loadSize op) i
      let stub ← branchOff s i a.addr
      guard cfg i a (Stub.entryLabel stub.id) false
      swizzle (Interp.loadSize op) a
      let d ← onCache (HostCache.allocOutExt (rt i) op.extension)
      Emit.loadWord op.ramLoad a 0 d
      join stub) e m (Arrives c₀ m₀ (Interp.service c i .exec)) := by
  refine .bind (h.access (Interp.loadSize op)) fun a e m ⟨hsize, u, v, w, h⟩ => ?_
  have hstands := hb.stands.begun
  suffices hfork : Runs W Q (accessed cfg s i (Interp.loadSize op) false a do
      let d ← onCache (HostCache.allocOutExt (rt i) op.extension)
      Emit.loadWord op.ramLoad a 0 d) e m (Arrives c₀ m₀ (Interp.service c i .exec)) by
    simpa only [accessed, bind_assoc] using hfork
  refine h.accessing (n := 1) hW hb hc (h.weaken (List.sublist_append_left [_, _, _] _)).ownTemps
    hsize (h.valueAt 3 rfl) rfl (fun e₁ m₁ m₂ hd h => ?_) fun e₁ e₂ m₁ hrun hplan => ?_
  · refine .bind (h.outExt (rt i) op.extension) fun d e m hout => ?_
    have hmem : m.ctx.mem = c.mem :=
      (hout.working.agrees.mem_eq.trans (mem_storeWords _ _)).trans hb.stands.mem
    have haddr : m.address a.offset 0 =
        (Memory.place (physical (Interp.effective c i)) (Interp.loadSize op)).toNat := by
      rw [Machine.address_zero, hout.valueAt 1 rfl]
    refine (hout.writeExt rfl (perform_load rfl)).imp fun _ e m h => ?_
    rw [service_load hk, execLoad_of_direct (g := c.begun) hd hc.noDevice, ← Cpu.setGuest_ofReg]
    refine ⟨Cpu.leave_setGuest _ _ _, _, h, ?_⟩
    rw [hmem, haddr]
    rw [c.mem_begun, c.effective_begun, Interp.extendLoad_readRam hd.holds hop rfl]
    exact hstands.setGuest _ _
  · obtain ⟨d, e₅, hout, hload⟩ := bind_ok hrun
    cases hload
    rw [service_load hk]
    by_cases hleave : (execLoad c.begun i op).leave = 0
    · obtain ⟨v, hv, hsame⟩ := execLoad_sameHeld (c := c.begun) hc.devices hleave
      obtain ⟨w, hw⟩ := extendLoad_eq_joinWords hop hv
      refine ⟨_, (hplan.outExt (onCache_run hout).1 w).of_slots rfl rfl, fun _ => hsame.trans ?_⟩
      rw [hw, ← Cpu.setGuest_ofReg]
      exact (hstands.setGuest _ _).sameHeld.symm
    · exact ⟨_, (hplan.outExt (onCache_run hout).1 0).of_slots rfl rfl, fun h0 => absurd h0 hleave⟩

/-- A load of a double word. -/
theorem loadDouble (hW : W.Stubbed) (h : Working c₀ m₀ [] e m g) (hk : i.kind = .load .ld)
    (hb : Begins Q .exec s i c g) (hc : cfg.Suits c) : Runs W Q (do
      let a ← access .double i
      let stub ← branchOff s i a.addr
      guard cfg i a (Stub.entryLabel stub.id) false
      swizzle .double a
      let high ← outHigh (rt i)
      let low ← outLow (rt i)
      Emit.loadWord .lw a 0 high
      Emit.loadWord .lw a 4 low
      join stub) e m (Arrives c₀ m₀ (Interp.service c i .exec)) := by
  refine .bind (h.access .double) fun a e m ⟨hsize, u, v, w, h⟩ => ?_
  have hstands := hb.stands.begun
  suffices hfork : Runs W Q (accessed cfg s i .double false a do
      let high ← outHigh (rt i)
      let low ← outLow (rt i)
      Emit.loadWord .lw a 0 high
      Emit.loadWord .lw a 4 low) e m (Arrives c₀ m₀ (Interp.service c i .exec)) by
    simpa only [accessed, bind_assoc] using hfork
  refine h.accessing (n := 1) hW hb hc (h.weaken (List.sublist_append_left [_, _, _] _)).ownTemps
    hsize (h.valueAt 3 rfl) rfl (fun e₁ m₁ m₂ hd h => ?_) fun e₁ e₂ m₁ hrun hplan => ?_
  · have hword (off : Nat) {d : HostReg} {e : Emitter} {m : Machine Cpu} {v : UInt64}
        (h : Working c₀ m₀ [(a.offset, .temp, physical (Interp.effective c i))] e m
          (g.setGuest (rt i) v)) : m.perform (.load .lw a.offset off d) =
            (m.set d (HostRam.word c.mem.ram ((physical (Interp.effective c i)).toNat + off))).next := by
      refine perform_load ?_
      have hmem : m.ctx.mem = c.mem :=
        h.agrees.mem_eq.trans (((hb.stands.setGuest _ _).mem).trans (Cpu.mem_setGuest _ _ _))
      rw [hmem, Machine.address, h.valueAt 0 rfl]
      rfl
    have h₁ : Working c₀ m₀ [(a.offset, .temp, physical (Interp.effective c i))] e₁ m₂ g :=
      h.weaken (.cons _ (.cons_cons _ (List.nil_sublist _)))
    refine (h₁.readBoth (by simp) (fun _ => rfl) (fun _ => rfl) (fun d e m v h => hword 0 h)
      fun d e m v h => hword 4 h).imp fun _ e m h => ?_
    have hdirect : Direct c.begun.mem (Interp.effective c.begun i) (Interp.loadSize .ld) false := hd
    rw [service_load hk, execLoad_of_direct hdirect hc.noDevice, ← Cpu.setGuest_ofReg]
    refine ⟨Cpu.leave_setGuest _ _ _, _, h, ?_⟩
    rw [c.mem_begun, c.effective_begun, Interp.extendLoad, Interp.loadSize,
      Memory.readRam_double hd.holds]
    exact hstands.setGuest _ _
  · obtain ⟨high, e₅, hhigh, hrun⟩ := bind_ok hrun
    obtain ⟨low, e₆, hlow, hrun⟩ := bind_ok hrun
    obtain ⟨_, e₇, hload, hrun⟩ := bind_ok hrun
    cases hload
    cases hrun
    rw [service_load hk]
    by_cases hleave : (execLoad c.begun i .ld).leave = 0
    · obtain ⟨v, -, hsame⟩ := execLoad_sameHeld (c := c.begun) hc.devices hleave
      refine ⟨_, (hplan.outBoth (onCache_run hhigh).1 (onCache_run hlow).1 v).of_slots rfl rfl,
        fun _ => hsame.trans ?_⟩
      rw [← Cpu.setGuest_ofReg]
      exact (hstands.setGuest _ _).sameHeld.symm
    · exact ⟨_, (hplan.outBoth (onCache_run hhigh).1 (onCache_run hlow).1 0).of_slots rfl rfl,
        fun h0 => absurd h0 hleave⟩

protected theorem load {op : LoadOp} (hW : W.Stubbed) (h : Working c₀ m₀ [] e m g)
    (hk : i.kind = .load op) (hb : Begins Q .exec s i c g) (hc : cfg.Suits c) :
    Runs W Q (load cfg s op i) e m (Arrives c₀ m₀ (Interp.service c i .exec)) := by
  unfold Emit.load
  cases op with
  | ld => exact h.loadDouble hW hk hb hc
  | lb => exact h.loadNarrow .lb nofun hW hk hb hc
  | lbu => exact h.loadNarrow .lbu nofun hW hk hb hc
  | lh => exact h.loadNarrow .lh nofun hW hk hb hc
  | lhu => exact h.loadNarrow .lhu nofun hW hk hb hc
  | lw => exact h.loadNarrow .lw nofun hW hk hb hc
  | lwu => exact h.loadNarrow .lwu nofun hW hk hb hc

end Working

end Recompiler
