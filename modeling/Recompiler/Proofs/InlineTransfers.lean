import Recompiler.Proofs.FpTransfers
import Recompiler.Proofs.InlineForks

/-!
Inline stores, and transfers of floating-point registers. The words of floating-point registers are
in the context, where no register of the machine holds them.
-/

namespace Recompiler

open Ir Emit Interp

variable {W : Finished} {Q : Cpu → Prop} {c₀ : HostCache} {m₀ m m' : Machine Cpu} {env : Operands}
  {e : Emitter} {g g' c : Cpu} {s : Site} {i : Recompiler.Instr} {cfg : Config}

theorem Working.context (h : Working c₀ m₀ env e m g) (ha : Agrees e.cache m' g')
    (hregs : ∀ x, m'.get x = m.get x) : Working c₀ m₀ env e m' g' where
  agrees := ha
  proper := h.proper
  kept := h.kept.trans (.of_slots (fun _ => rfl) fun _ => hregs _)
  operands x k v hx := by
    rcases h.operands x k v hx with ⟨hz, hv⟩ | ⟨r, hr, hp, hb, hv⟩
    · exact .inl ⟨hz, hv⟩
    · exact .inr ⟨r, hr, hp, hb, (hregs _).trans hv⟩
  temps := h.temps
  distinct := h.distinct

protected theorem Working.storeWord {op : RamStore} {a : Access} {off : Int} {x : HostReg}
    {ram : Array UInt32} (h : Working c₀ m₀ env e m g)
    (hram : Machine.evalStore op (m.address a.offset off) (m.get x) g.mem.ram = ram) :
    Runs W Q (Emit.storeWord op a off x) e m fun _ e' m' =>
      Working c₀ m₀ env e' m' (g.withRam ram) := by
  subst hram
  have ha : Agrees e.cache (m.perform (.store op x a.offset off)) (g.withRam
      (Machine.evalStore op (m.address a.offset off) (m.get x) g.mem.ram)) := by
    refine h.agrees.withRam (Machine.size_evalStore _ _ _ _) (fun _ => rfl) ?_
    rw [← h.agrees.mem_eq]
    rfl
  exact Runs.emit rfl ((h.context ha fun _ => rfl).congr rfl rfl (fun _ => rfl) rfl)

def Cpu.IsFpWord (off : Int) : Prop := ∃ r high, Cpu.field? off = some (.fpr r high)

namespace Cpu.IsFpWord

variable {off : Int} {v : UInt32}

theorem bounds (h : Cpu.IsFpWord off) : Cpu.IsWord off ∧ 336 ≤ off ∧ off < 592 := by
  obtain ⟨r, high, hf⟩ := h
  have hoff : (Field.fpr r high).offset = off := Cpu.offset_of_field? hf
  refine ⟨⟨.fpr r high, by nofun, hoff⟩, ?_⟩
  rw [← hoff]
  unfold Field.offset
  dsimp only
  split <;> omega

theorem not_mem (h : Cpu.IsFpWord off) {c : HostCache} (hp : c.Proper) (r : Fin 9) :
    off ∉ (c.slot r).content.offsets :=
  hp.not_mem (.inr h.bounds.2.1) (not_isShared (by have := h.bounds.2.2; omega)) r

theorem stands (h : Cpu.IsFpWord off) (hg : g.Stands c) :
    (g.storeWord off v).Stands (c.storeWord off v) := by
  obtain ⟨r, high, hf⟩ := h
  obtain ⟨pc, delay, leave, f, rfl⟩ := hg
  refine ⟨pc, delay, leave, f, ?_⟩
  unfold Cpu.storeWord
  rw [hf]
  cases high <;> rfl

theorem load (h : Cpu.IsFpWord off) (hg : g.Stands c) : g.loadWord off = c.loadWord off := by
  obtain ⟨r, high, hf⟩ := h
  obtain ⟨pc, delay, leave, f, rfl⟩ := hg
  rw [Cpu.loadWord_of_field? _ hf, Cpu.loadWord_of_field? _ hf]
  cases high <;> rfl

theorem load_setGuest (h : Cpu.IsFpWord off) (gr : GuestReg) (v : UInt64) :
    (g.setGuest gr v).loadWord off = g.loadWord off := by
  obtain ⟨r, high, hf⟩ := h
  have hfpr : (g.setGuest gr v).fpr = g.fpr := by
    unfold Cpu.setGuest Cpu.setReg
    split <;> split <;> rfl
  rw [Cpu.loadWord_of_field? _ hf, Cpu.loadWord_of_field? _ hf]
  cases high <;> simp only [Cpu.getField, hfpr]

theorem guest (h : Cpu.IsFpWord off) (gr : GuestReg) : (g.storeWord off v).guest gr = g.guest gr := by
  obtain ⟨r, high, hf⟩ := h
  unfold Cpu.storeWord
  rw [hf]
  cases high <;> rfl

theorem leave (h : Cpu.IsFpWord off) : (c.storeWord off v).leave = c.leave := by
  obtain ⟨r, high, hf⟩ := h
  unfold Cpu.storeWord
  rw [hf]
  cases high <;> rfl

end Cpu.IsFpWord

theorem isFpWord_single (wide : Bool) (r : Reg) : Cpu.IsFpWord (Layout.single wide r) :=
  ⟨_, _, Cpu.field?_single wide r⟩

theorem isFpWord_doubleHigh (wide : Bool) (r : Reg) : Cpu.IsFpWord (Layout.doubleHigh wide r) :=
  ⟨_, _, Cpu.field?_doubleHigh wide r⟩

theorem isFpWord_doubleLow (wide : Bool) (r : Reg) : Cpu.IsFpWord (Layout.doubleLow wide r) :=
  ⟨_, _, Cpu.field?_doubleLow wide r⟩

theorem isFpWord_of_mem {width : Width} {r : Reg} {w : Int × Int} (hw : w ∈ fpWords cfg width r) :
    Cpu.IsFpWord w.2 := by
  cases width with
  | word =>
    obtain rfl := List.mem_singleton.mp hw
    exact isFpWord_single _ _
  | double =>
    rcases List.mem_cons.mp hw with rfl | hw
    · exact isFpWord_doubleHigh _ _
    · obtain rfl := List.mem_singleton.mp hw
      exact isFpWord_doubleLow _ _

theorem Cpu.Stands.withRam (h : g.Stands c) (ram : Array UInt32) :
    (g.withRam ram).Stands (c.withRam ram) := by
  obtain ⟨pc, delay, leave, f, rfl⟩ := h
  exact ⟨pc, delay, leave, f, rfl⟩

theorem Cpu.writePhys_sameHeld (c : Cpu) (paddr : UInt32) (size : Size) (v : UInt64) :
    (c.writePhys paddr size v).SameHeld c := by
  unfold writePhys
  dsimp only
  split
  · exact .of_fields rfl rfl rfl rfl rfl rfl
  · split
    · split <;> exact .of_fields rfl rfl rfl rfl rfl rfl
    · exact .of_fields rfl rfl rfl rfl rfl rfl

theorem Cpu.store_sameHeld {vaddr : UInt32} {size : Size} {v : UInt64}
    (hleave : (c.store vaddr size v).2.leave = 0) : (c.store vaddr size v).2.SameHeld c := by
  unfold store at hleave ⊢
  split at hleave
  · rename_i haligned
    rw [if_pos haligned]
    cases hp : c.toPhysical vaddr true with
    | mk p c' =>
      cases p with
      | none =>
        rw [hp] at hleave
        cases (toPhysical_none hp).symm.trans hleave
      | some paddr =>
        cases toPhysical_some hp
        exact c.writePhys_sameHeld _ _ _
  · cases hleave

theorem service_store {size : Size} (hk : i.kind = .store size) :
    Interp.service c i .exec = execStore c.begun i size := by
  change Interp.effect c.begun i c.pc = _
  unfold Interp.effect
  rw [hk]

namespace Working

/-- A store of at most a word. -/
theorem storeNarrow {size : Size} (hs : size ≠ .double) (hW : W.Stubbed)
    (h : Working c₀ m₀ [] e m g) (hk : i.kind = .store size) (hb : Begins Q .exec s i c g)
    (hc : cfg.Suits c) : Runs W Q (do
      let low ← inLow (rt i)
      let a ← access size i
      let stub ← branchOff s i a.addr
      guard cfg i a (Stub.entryLabel stub.id) true
      swizzle size a
      Emit.storeWord size.ramStore a 0 low
      join stub) e m (Arrives c₀ m₀ (Interp.service c i .exec)) := by
  refine .bind (h.inLow (rt i)) fun x e m h => .bind (h.access size) fun a e m ⟨hsize, u, v, w, h⟩ =>
    ?_
  have hstands := hb.stands.begun
  refine h.accessing (n := 1) hW hb hc (h.weaken (List.sublist_append_left [_, _, _] _)).ownTemps
    hsize (h.valueAt 3 rfl) rfl (fun e₁ m₁ m₂ hd h => ?_) fun e₁ e₂ m₁ hrun hplan => ?_
  · have hx : m₂.get x = lowWord (c.reg i.rt) := by
      rw [h.valueAt (k := .low (rt i) none) 4 rfl, if_neg nofun, hb.stands.guest, rt, Cpu.guest_ofReg]
    refine (h.storeWord rfl).imp fun _ e m h' => ?_
    rw [service_store hk, execStore_of_direct (g := c.begun) hd hc.noDevice, c.mem_begun,
      c.effective_begun, ← Memory.writeRam_evalStore hd.holds hs]
    refine ⟨rfl, _, h'.forget, ?_⟩
    rw [hx, Machine.address_zero, h.valueAt 1 rfl, hb.stands.mem]
    exact hstands.withRam _
  · cases hrun
    refine ⟨g, hplan.of_slots rfl rfl, fun hleave => ?_⟩
    rw [service_store hk] at hleave ⊢
    exact (Cpu.store_sameHeld hleave).trans hstands.sameHeld.symm

/-- A store of a double word. -/
theorem storeDouble (hW : W.Stubbed) (h : Working c₀ m₀ [] e m g) (hk : i.kind = .store .double)
    (hb : Begins Q .exec s i c g) (hc : cfg.Suits c) : Runs W Q (do
      let high ← inHigh (rt i)
      let low ← inLow (rt i)
      let a ← access .double i
      let stub ← branchOff s i a.addr
      guard cfg i a (Stub.entryLabel stub.id) true
      swizzle .double a
      Emit.storeWord .sw a 0 high
      Emit.storeWord .sw a 4 low
      join stub) e m (Arrives c₀ m₀ (Interp.service c i .exec)) := by
  refine .bind (h.inHigh (rt i)) fun x e m h => .bind (h.inLow (rt i)) fun y e m h =>
    .bind (h.access .double) fun a e m haccess => ?_
  obtain ⟨hsize, u, v, w, h⟩ := haccess
  have hstands := hb.stands.begun
  suffices hfork : Runs W Q (accessed cfg s i .double true a do
      Emit.storeWord .sw a 0 x
      Emit.storeWord .sw a 4 y) e m (Arrives c₀ m₀ (Interp.service c i .exec)) by
    simpa only [accessed, bind_assoc] using hfork
  refine h.accessing (n := 1) hW hb hc (h.weaken (List.sublist_append_left [_, _, _] _)).ownTemps
    hsize (h.valueAt 3 rfl) rfl (fun e₁ m₁ m₂ hd h => ?_) fun e₁ e₂ m₁ hrun hplan => ?_
  · have hhigh : m₂.get x = highWord (c.reg i.rt) := by
      rw [h.valueAt (k := .high (rt i)) 5 rfl, if_neg Content.noConfusion, hb.stands.guest, rt,
        Cpu.guest_ofReg]
    refine .bind (h.storeWord rfl) fun _ e m h' => ?_
    have hlow : m.get y = lowWord (c.reg i.rt) := by
      rw [h'.valueAt (k := .low (rt i) none) 4 rfl, if_neg Content.noConfusion, hb.stands.guest, rt,
        Cpu.guest_ofReg]
    refine (h'.storeWord rfl).imp fun _ e m h'' => ?_
    rw [service_store hk, execStore_of_direct (g := c.begun) hd hc.noDevice, c.mem_begun,
      c.effective_begun, Memory.writeRam_double hd.holds]
    refine ⟨rfl, _, h''.forget, ?_⟩
    rw [hhigh, hlow, Machine.address_zero, Machine.address, h.valueAt 1 rfl, h'.valueAt 1 rfl,
      hb.stands.mem]
    exact (hstands.withRam _).withRam _
  · obtain ⟨_, e₅, hstore, hrun⟩ := bind_ok hrun
    cases hstore
    cases hrun
    refine ⟨g, hplan.of_slots rfl rfl, fun hleave => ?_⟩
    rw [service_store hk] at hleave ⊢
    exact (Cpu.store_sameHeld hleave).trans hstands.sameHeld.symm

protected theorem store {size : Size} (hW : W.Stubbed) (h : Working c₀ m₀ [] e m g)
    (hk : i.kind = .store size) (hb : Begins Q .exec s i c g) (hc : cfg.Suits c) :
    Runs W Q (store cfg s size i) e m (Arrives c₀ m₀ (Interp.service c i .exec)) := by
  unfold Emit.store
  cases size with
  | double =>
    rw [if_pos rfl]
    exact h.storeDouble hW hk hb hc
  | byte | half | word =>
    rw [if_neg nofun, pure_bind]
    exact h.storeNarrow nofun hW hk hb hc

end Working

namespace Working

variable {j : Ir.Instr String} {off : Int} {v : UInt32}

theorem writeContext (h : Working c₀ m₀ env e m g) (hword : Cpu.IsWord off)
    (hoff : off < 64 ∨ 336 ≤ off) (hn : ¬ HostCache.IsShared off) (hi : j.isPlain = true)
    (hx : m.perform j = { m with ctx := m.ctx.storeWord off v }.next) :
    Runs W Q (emit j) e m fun _ e' m' => Working c₀ m₀ env e' m' (g.storeWord off v) := by
  refine Runs.emit hi ?_
  rw [hx]
  have ha : Agrees e.cache { m with ctx := m.ctx.storeWord off v } (g.storeWords [(off, v)]) := by
    refine h.agrees.storeContext (fun w hw => ?_) (fun w hw => ?_) (fun _ => rfl) rfl
    · obtain rfl := List.mem_singleton.mp hw
      exact h.proper.not_mem hoff hn
    · obtain rfl := List.mem_singleton.mp hw
      exact ⟨hword, fun hz => by obtain ⟨_, _⟩ := hz; omega⟩
  exact (h.context ha fun _ => rfl).congr rfl rfl (fun _ => rfl) rfl

theorem writeFp (h : Working c₀ m₀ env e m g) (hoff : Cpu.IsFpWord off) (hi : j.isPlain = true)
    (hx : m.perform j = { m with ctx := m.ctx.storeWord off v }.next) :
    Runs W Q (emit j) e m fun _ e' m' => Working c₀ m₀ env e' m' (g.storeWord off v) := by
  obtain ⟨hword, hlow, hhigh⟩ := hoff.bounds
  exact h.writeContext hword (.inr hlow) (not_isShared (by omega)) hi hx

theorem readFp (h : Working c₀ m₀ env e m g) (hoff : Cpu.IsFpWord off) :
    m.ctx.loadWord off = g.loadWord off :=
  h.agrees.synced off fun r _ => hoff.not_mem h.proper r

/-- The words of a floating-point register are read from RAM. -/
theorem loadFpWords {a : Access} {x : HostReg} {p : UInt32} {n k : Nat} {u : UInt32}
    {ws : List (Int × Int)} (hws : ∀ w ∈ ws, Cpu.IsFpWord w.2) (h : Working c₀ m₀ env e m g)
    (hx : env[n]? = some (x, .temp, u)) (ha : env[k]? = some (a.offset, .temp, p)) (hne : n ≠ k) :
    Runs W Q (forIn ws PUnit.unit fun w (_ : PUnit) => do
      (do
        Emit.loadWord .lw a w.1 x
        emit (.stc x w.2))
      pure (ForInStep.yield PUnit.unit)) e m fun _ e' m' => Working c₀ m₀ [] e' m'
        (g.storeWords (ws.map fun w =>
          (w.2, HostRam.word g.mem.ram ((p.toNat : Int) + w.1).toNat))) := by
  have hlt : n < env.length := (List.getElem?_eq_some_iff.mp hx).1
  refine (Emit.Runs.forIn (I := fun (ws : List (Int × Int)) e m => ∃ u,
    Working c₀ m₀ (env.set n (x, .temp, u)) e m (g.storeWords (ws.map fun w =>
      (w.2, HostRam.word g.mem.ram ((p.toNat : Int) + w.1).toNat)))) ?_ ?_).imp
        fun _ e m ⟨u, h⟩ => h.forget
  · rintro ys w zs rfl e m ⟨u, h⟩
    have hread : m.perform (.load .lw a.offset w.1 x) =
        (m.set x (HostRam.word g.mem.ram ((p.toNat : Int) + w.1).toNat)).next := by
      refine perform_load ?_
      rw [h.agrees.mem_eq, mem_storeWords, Machine.address,
        h.valueAt k ((List.getElem?_set_ne hne).trans ha)]
      rfl
    have hn (u : UInt32) : (env.set n (x, .temp, u))[n]? = some (x, .temp, u) :=
      List.getElem?_set_self hlt
    refine .bind (h.setTemp n (hn u) rfl hread) fun _ e m h => ?_
    rw [List.set_set] at h
    refine (h.writeFp (hws w (by simp)) rfl (v := HostRam.word g.mem.ram ((p.toNat : Int) + w.1).toNat)
      ?_).imp fun _ e m h => ⟨HostRam.word g.mem.ram ((p.toNat : Int) + w.1).toNat, ?_⟩
    · rw [← h.valueAt n (hn _)]
      rfl
    · rw [List.map_append, Cpu.storeWords_append]
      exact h
  · refine ⟨u, ?_⟩
    have hsame : env.set n (x, .temp, u) = env := by
      rw [← (List.getElem?_eq_some_iff.mp hx).2]
      exact List.set_getElem_self hlt
    rw [hsame]
    exact h

/-- The words of a floating-point register are written to RAM. -/
theorem storeFpWords {a : Access} {x : HostReg} {p : UInt32} {n k : Nat} {u : UInt32}
    {ws : List (Int × Int)} (hws : ∀ w ∈ ws, Cpu.IsFpWord w.2) (h : Working c₀ m₀ env e m g)
    (hx : env[n]? = some (x, .temp, u)) (ha : env[k]? = some (a.offset, .temp, p)) (hne : n ≠ k) :
    Runs W Q (forIn ws PUnit.unit fun w (_ : PUnit) => do
      (do
        emit (.ldc w.2 x)
        Emit.storeWord .sw a w.1 x)
      pure (ForInStep.yield PUnit.unit)) e m fun _ e' m' => Working c₀ m₀ [] e' m'
        (g.withRam (ws.foldl (fun ram w =>
          HostRam.setWord ram ((p.toNat : Int) + w.1).toNat (g.loadWord w.2)) g.mem.ram)) := by
  have hlt : n < env.length := (List.getElem?_eq_some_iff.mp hx).1
  have hn (u : UInt32) : (env.set n (x, .temp, u))[n]? = some (x, .temp, u) :=
    List.getElem?_set_self hlt
  refine (Emit.Runs.forIn (I := fun (ws : List (Int × Int)) e m => ∃ u ram,
    ram.size = g.mem.ram.size ∧ ram = ws.foldl (fun ram w =>
      HostRam.setWord ram ((p.toNat : Int) + w.1).toNat (g.loadWord w.2)) g.mem.ram ∧
    Working c₀ m₀ (env.set n (x, .temp, u)) e m (g.withRam ram)) ?_ ?_).imp ?_
  · rintro ys w zs rfl e m ⟨u, ram, hsize, hram, h⟩
    have hoff := hws w (by simp)
    have hread : m.perform (.ldc w.2 x) = (m.set x (g.loadWord w.2)).next :=
      perform_ldc ((h.readFp hoff).trans (g.loadWord_withRam hsize _))
    refine .bind (h.setTemp n (hn u) rfl hread) fun _ e m h => ?_
    rw [List.set_set] at h
    refine (h.storeWord (?_ : _ = HostRam.setWord ram ((p.toNat : Int) + w.1).toNat
      (g.loadWord w.2))).imp fun _ e m h => ⟨_, _, ?_, ?_, h⟩
    · rw [h.valueAt n (hn _), Machine.address, h.valueAt k ((List.getElem?_set_ne hne).trans ha)]
      rfl
    · exact (Machine.size_evalStore .sw _ _ _).trans hsize
    · rw [List.foldl_append, ← hram]
      rfl
  · refine ⟨u, g.mem.ram, rfl, rfl, ?_⟩
    have hsame : env.set n (x, .temp, u) = env := by
      rw [← (List.getElem?_eq_some_iff.mp hx).2]
      exact List.set_getElem_self hlt
    rw [hsame]
    exact h
  · rintro _ e m ⟨u, ram, -, rfl, h⟩
    exact h.forget

end Working

theorem HostCache.clobberFp_of_empty {c : HostCache} (h : c.fpSlots = Vector.replicate 8 .empty)
    (off size : Int) : c.clobberFp off size = c := by
  unfold clobberFp
  refine List.foldlRecOn (motive := (· = c)) _ _ rfl fun c' hc r _ => ?_
  rw [hc, if_neg]
  rw [h, Vector.get_replicate]
  nofun

theorem Emit.slots_forIn {γ : Type} {f : γ → EmitM Unit}
    (hf : ∀ x e e', f x e = .ok () e' →
      e'.cache.slots = e.cache.slots ∧ e'.cache.fpSlots = e.cache.fpSlots)
    {xs : List γ} {e e' : Emitter}
    (h : (forIn xs PUnit.unit fun x (_ : PUnit) => do
      f x
      pure (ForInStep.yield PUnit.unit)) e = .ok PUnit.unit e') :
    e'.cache.slots = e.cache.slots ∧ e'.cache.fpSlots = e.cache.fpSlots := by
  induction xs generalizing e with
  | nil =>
    cases h
    exact ⟨rfl, rfl⟩
  | cons x xs ih =>
    rw [List.forIn_cons] at h
    obtain ⟨_, e₂, hfirst, hrest⟩ := bind_ok h
    obtain ⟨_, e₁, hx, hy⟩ := bind_ok hfirst
    cases hy
    obtain ⟨hslots, hfp⟩ := ih hrest
    obtain ⟨hslots', hfp'⟩ := hf x _ _ hx
    exact ⟨hslots.trans hslots', hfp.trans hfp'⟩

theorem execLoadFp_sameHeld {width : Width} (hleave : (execLoadFp c i width).leave = 0) :
    (execLoadFp c i width).SameHeld c := by
  unfold execLoadFp at hleave ⊢
  rcases c.load_cases (Interp.effective c i) (Interp.widthSize width) with
    ⟨p, hload⟩ | ⟨c', hload, -, hraised⟩
  · obtain ⟨effects, hstate⟩ := c.readPhys_state p (Interp.widthSize width)
    rw [hload]
    dsimp only
    rw [hstate]
    cases width <;> exact .of_fields rfl rfl rfl rfl rfl rfl
  · rw [hload] at hleave
    cases hraised.symm.trans hleave

theorem service_loadFp {width : Width} (hk : i.kind = .loadFp width) :
    Interp.service c i .exec = execLoadFp c.begun i width := by
  change Interp.effect c.begun i c.pc = _
  unfold Interp.effect
  rw [hk]

theorem service_storeFp {width : Width} (hk : i.kind = .storeFp width) :
    Interp.service c i .exec = execStoreFp c.begun i width := by
  change Interp.effect c.begun i c.pc = _
  unfold Interp.effect
  rw [hk]

theorem fpSize_eq (width : Width) : fpSize width = Interp.widthSize width := by cases width <;> rfl

theorem swizzle_width (width : Width) (a : Access) : swizzle (Interp.widthSize width) a = pure () := by
  cases width <;> rfl

theorem place_width (p : UInt32) (width : Width) :
    Memory.place p (Interp.widthSize width) = p := by cases width <;> rfl

theorem loadFp_eq (width : Width) : loadFp cfg s width i = (do
    clobber (fpWords cfg width i.ft)
    let a ← access (Interp.widthSize width) i
    let x ← temp
    accessed cfg s i (Interp.widthSize width) false a
      (forIn (fpWords cfg width i.ft) PUnit.unit fun w (_ : PUnit) => do
        (do
          Emit.loadWord .lw a w.1 x
          emit (.stc x w.2))
        pure (ForInStep.yield PUnit.unit))) := by
  unfold loadFp
  simp only [fpSize_eq, accessed, swizzle_width, pure_bind, bind_assoc]

theorem storeFp_eq (width : Width) : storeFp cfg s width i = (do
    clobber (fpWords cfg width i.ft)
    let a ← access (Interp.widthSize width) i
    let x ← temp
    accessed cfg s i (Interp.widthSize width) true a
      (forIn (fpWords cfg width i.ft) PUnit.unit fun w (_ : PUnit) => do
        (do
          emit (.ldc w.2 x)
          Emit.storeWord .sw a w.1 x)
        pure (ForInStep.yield PUnit.unit))) := by
  unfold storeFp
  simp only [fpSize_eq, accessed, swizzle_width, pure_bind, bind_assoc]

theorem Cpu.Stands.storeWords (h : g.Stands c) {ws : List (Int × UInt32)}
    (hws : ∀ w ∈ ws, Cpu.IsFpWord w.1) : (g.storeWords ws).Stands (c.storeWords ws) := by
  induction ws generalizing g c with
  | nil => exact h
  | cons w ws ih =>
    exact ih ((hws w List.mem_cons_self).stands h) fun w hw => hws w (List.mem_cons_of_mem _ hw)

theorem Cpu.leave_storeWords {ws : List (Int × UInt32)} (hws : ∀ w ∈ ws, Cpu.IsFpWord w.1) :
    (c.storeWords ws).leave = c.leave := by
  induction ws generalizing c with
  | nil => rfl
  | cons w ws ih =>
    exact (ih fun w hw => hws w (List.mem_cons_of_mem _ hw)).trans (hws w List.mem_cons_self).leave

namespace Working

theorem clobberFp {off size : Int} (h : Working c₀ m₀ env e m g) :
    Runs W Q (modifyCache (·.clobberFp off size)) e m fun _ e' m' => Working c₀ m₀ env e' m' g := by
  have hsame := HostCache.clobberFp_of_empty h.agrees.fp off size
  refine .modifyCache (by rw [hsame]; exact .refl _ _) ?_
  rw [hsame]
  exact h

theorem clobber {ws : List (Int × Int)} (h : Working c₀ m₀ env e m g) :
    Runs W Q (clobber ws) e m fun _ e' m' => Working c₀ m₀ env e' m' g := by
  have hsame : ws.foldl (fun c w => c.clobberFp w.2 4) e.cache = e.cache := by
    refine List.foldlRecOn (motive := (· = e.cache)) _ _ rfl fun c' hc w _ => ?_
    rw [hc, HostCache.clobberFp_of_empty h.agrees.fp]
  unfold Emit.clobber
  refine .modifyCache (by rw [hsame]; exact .refl _ _) ?_
  rw [hsame]
  exact h

protected theorem loadFp {width : Width} (hW : W.Stubbed) (h : Working c₀ m₀ [] e m g)
    (hk : i.kind = .loadFp width) (hb : Begins Q .exec s i c g) (hc : cfg.Suits c) :
    Runs W Q (loadFp cfg s width i) e m (Arrives c₀ m₀ (Interp.service c i .exec)) := by
  have hstands := hb.stands.begun
  rw [loadFp_eq]
  refine .bind h.clobber fun _ e m h => .bind (h.access (Interp.widthSize width))
    fun a e m ⟨hsize, u, v, w, h⟩ => .bind h.temp fun x e m h => ?_
  refine h.accessing (n := 2) hW hb hc (h.weaken (.cons _ (List.sublist_append_left [_, _, _] _))).ownTemps
    hsize (h.valueAt 4 rfl) rfl (fun e₁ m₁ m₂ hd h => ?_) fun e₁ e₂ m₁ hrun hplan => ?_
  · refine (h.loadFpWords (n := 0) (k := 2) (fun w hw => isFpWord_of_mem hw) rfl rfl nofun).imp
      fun _ e m h => ?_
    have hmap : ∀ p ∈ (fpWords cfg width i.ft).map fun w => (w.2, HostRam.word c.mem.ram
        (((physical (Interp.effective c i)).toNat : Int) + w.1).toNat), Cpu.IsFpWord p.1 := by
      intro p hp
      obtain ⟨w, hw, rfl⟩ := List.mem_map.mp hp
      exact isFpWord_of_mem hw
    rw [service_loadFp hk, execLoadFp_of_direct (g := c.begun) hd hc.noDevice hc.wideFp]
    refine ⟨Cpu.leave_storeWords hmap, _, h, ?_⟩
    rw [place_width, hb.stands.mem]
    exact hstands.storeWords hmap
  · obtain ⟨hslots, hfp⟩ := slots_forIn (fun w e e' h => by
      obtain ⟨_, e₁, hload, hstore⟩ := bind_ok h
      cases hload
      cases hstore
      exact ⟨rfl, rfl⟩) hrun
    refine ⟨g, hplan.of_slots hslots hfp, fun hleave => ?_⟩
    rw [service_loadFp hk] at hleave ⊢
    exact (execLoadFp_sameHeld hleave).trans hstands.sameHeld.symm

protected theorem storeFp {width : Width} (hW : W.Stubbed) (h : Working c₀ m₀ [] e m g)
    (hk : i.kind = .storeFp width) (hb : Begins Q .exec s i c g) (hc : cfg.Suits c) :
    Runs W Q (storeFp cfg s width i) e m (Arrives c₀ m₀ (Interp.service c i .exec)) := by
  have hstands := hb.stands.begun
  rw [storeFp_eq]
  refine .bind h.clobber fun _ e m h => .bind (h.access (Interp.widthSize width))
    fun a e m ⟨hsize, u, v, w, h⟩ => .bind h.temp fun x e m h => ?_
  refine h.accessing (n := 2) hW hb hc (h.weaken (.cons _ (List.sublist_append_left [_, _, _] _))).ownTemps
    hsize (h.valueAt 4 rfl) rfl (fun e₁ m₁ m₂ hd h => ?_) fun e₁ e₂ m₁ hrun hplan => ?_
  · refine (h.storeFpWords (n := 0) (k := 2) (fun w hw => isFpWord_of_mem hw) rfl rfl nofun).imp
      fun _ e m h => ?_
    rw [service_storeFp hk, execStoreFp_of_direct (g := c.begun) hd hc.noDevice hc.wideFp]
    refine ⟨rfl, _, h, ?_⟩
    rw [place_width, hb.stands.mem, List.foldl_ext _ _ _ fun ram w hw => congrArg
      (HostRam.setWord ram _) ((isFpWord_of_mem hw).load hstands)]
    exact hstands.withRam _
  · obtain ⟨hslots, hfp⟩ := slots_forIn (fun w e e' h => by
      obtain ⟨_, e₁, hload, hstore⟩ := bind_ok h
      cases hload
      cases hstore
      exact ⟨rfl, rfl⟩) hrun
    refine ⟨g, hplan.of_slots hslots hfp, fun hleave => ?_⟩
    rw [service_storeFp hk] at hleave ⊢
    exact (Cpu.store_sameHeld hleave).trans hstands.sameHeld.symm

instance (r : HostReg) (off : Int) : Emit.Grows (Emit.storeContext r off) := by
  unfold Emit.storeContext
  infer_instance

theorem storeContext {x : HostReg} {off : Int} {v : UInt32} (h : Working c₀ m₀ env e m g)
    (hoff : Cpu.IsFpWord off) (hx : m.get x = v) :
    Runs W Q (storeContext x off) e m fun _ e' m' => Working c₀ m₀ env e' m' (g.storeWord off v) := by
  subst hx
  refine .ite (fun hz => h.writeFp hoff rfl ?_) fun _ => h.writeFp hoff rfl rfl
  subst hz
  rfl

protected theorem moveToFp (h : Working c₀ m₀ [] e m g) (width : Width) :
    Runs W Q (moveToFp cfg width i) e m (Leaves c₀ m₀ (match width with
      | .word => g.storeWord (Layout.single cfg.wideFp i.fs) (lowWord (g.guest (rt i)))
      | .double => (g.storeWord (Layout.doubleHigh cfg.wideFp i.fs) (highWord (g.guest (rt i)))).storeWord
          (Layout.doubleLow cfg.wideFp i.fs) (lowWord (g.guest (rt i))))) := by
  unfold Emit.moveToFp
  cases width with
  | word =>
    refine .bind h.clobberFp fun _ e m h => .bind (h.inLow (rt i)) fun x e m h => ?_
    exact (h.storeContext (isFpWord_single _ _) (h.valueAt 0 rfl)).imp fun _ _ _ h => h.forget
  | double =>
    refine .bind h.clobberFp fun _ e m h => .bind (h.inHigh (rt i)) fun x e m h => ?_
    refine .bind (h.storeContext (isFpWord_doubleHigh _ _) (h.valueAt 0 rfl)) fun _ e m h => ?_
    refine .bind (h.inLow (rt i)) fun y e m h => ?_
    rw [(isFpWord_doubleHigh _ _).guest] at h
    exact (h.storeContext (isFpWord_doubleLow _ _) (h.valueAt 0 rfl)).imp fun _ _ _ h => h.forget

protected theorem moveFromFp (h : Working c₀ m₀ [] e m g) (width : Width) :
    Runs W Q (moveFromFp cfg width i) e m (Leaves c₀ m₀ (g.setGuest (rt i) (match width with
      | .word => sextWord (g.loadWord (Layout.single cfg.wideFp i.fs))
      | .double => joinWords (g.loadWord (Layout.doubleHigh cfg.wideFp i.fs))
          (g.loadWord (Layout.doubleLow cfg.wideFp i.fs))))) := by
  unfold Emit.moveFromFp
  cases width with
  | word =>
    refine .bind h.clobberFp fun _ e m h => .bind (h.outSigned (rt i)) fun d e m hd => ?_
    refine hd.writeSigned rfl (perform_ldc ?_)
    rw [hd.working.readFp (isFpWord_single _ _), storeWords_ext]
    exact (isFpWord_single _ _).load_setGuest _ _
  | double =>
    refine .bind h.clobberFp fun _ e m h => ?_
    refine h.readBoth (by simp) (fun _ => rfl) (fun _ => rfl) (fun d e m v h => ?_) fun d e m v h => ?_
    · exact perform_ldc ((h.readFp (isFpWord_doubleHigh _ _)).trans
        ((isFpWord_doubleHigh _ _).load_setGuest _ _))
    · exact perform_ldc ((h.readFp (isFpWord_doubleLow _ _)).trans
        ((isFpWord_doubleLow _ _).load_setGuest _ _))

protected theorem moveFromControl (h : Working c₀ m₀ [] e m g) : Runs W Q (moveFromControl i) e m
    (Leaves c₀ m₀ (g.setGuest (rt i) (sextWord (g.loadWord Layout.fcr31)))) := by
  unfold Emit.moveFromControl
  refine .bind (h.inWord (.inr (.inr rfl))) fun x e m h => .bind (h.outSigned (rt i)) fun d e m hd => ?_
  exact hd.writeSigned rfl (perform_mov (hd.valueAt 0 rfl))

end Working

end Recompiler
