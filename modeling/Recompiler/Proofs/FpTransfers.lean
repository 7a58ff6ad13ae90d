import Recompiler.Proofs.InlineAccess

/-!
Inline loads and stores of floating-point registers. Their words are brought to the context first,
and move between the context and RAM.
-/

namespace Recompiler

open Ir Emit

variable {W : Finished} {links : Links} {cfg : Config} {s : Site} {i : Recompiler.Instr} {g : Cpu}

namespace Cpu

theorem offset_single (wide : Bool) (r : Reg) :
    Layout.single wide r = (Field.fpr (doubleSlot wide r) (singleInHigh wide r)).offset := by
  unfold Layout.single
  cases singleInHigh wide r <;> rfl

theorem field?_single (wide : Bool) (r : Reg) :
    field? (Layout.single wide r) = some (.fpr (doubleSlot wide r) (singleInHigh wide r)) := by
  rw [offset_single, field?_offset]

theorem field?_doubleHigh (wide : Bool) (r : Reg) :
    field? (Layout.doubleHigh wide r) = some (.fpr (doubleSlot wide r) true) :=
  field?_offset (.fpr (doubleSlot wide r) true)

theorem field?_doubleLow (wide : Bool) (r : Reg) :
    field? (Layout.doubleLow wide r) = some (.fpr (doubleSlot wide r) false) :=
  field?_offset (.fpr (doubleSlot wide r) false)

theorem single_eq (c : Cpu) (r : Reg) : c.single r = c.loadWord (Layout.single c.wideFpRegs r) := by
  rw [loadWord_of_field? _ (field?_single _ _)]
  rfl

theorem setSingle_eq (c : Cpu) (r : Reg) (v : UInt32) :
    c.setSingle r v = c.storeWord (Layout.single c.wideFpRegs r) v := by
  rw [storeWord_of_field? _ _ (field?_single _ _)]
  rfl

theorem double_eq (c : Cpu) (r : Reg) : c.double r =
    joinWords (c.loadWord (Layout.doubleHigh c.wideFpRegs r))
      (c.loadWord (Layout.doubleLow c.wideFpRegs r)) := by
  rw [loadWord_of_field? _ (field?_doubleHigh _ _), loadWord_of_field? _ (field?_doubleLow _ _)]
  exact (joinWords_high_low _).symm

theorem setDouble_eq (c : Cpu) (r : Reg) (hi lo : UInt32) : c.setDouble r (joinWords hi lo) =
    (c.storeWord (Layout.doubleHigh c.wideFpRegs r) hi).storeWord
      (Layout.doubleLow c.wideFpRegs r) lo := by
  rw [storeWord_of_field? _ _ (field?_doubleHigh _ _), storeWord_of_field? _ _ (field?_doubleLow _ _)]
  simp only [setField, setHalf, reduceIte, Bool.false_eq_true, Vector.get_put_self, Vector.put_put,
    highWord_joinWords]
  rfl

end Cpu

/-- A word that is moved between a floating-point register and RAM. -/
structure FpWord (size : Size) (w : Int × Int) : Prop where
  isWord : Cpu.IsWord w.2
  low : 336 ≤ w.2
  high : w.2 < 592
  nonneg : 0 ≤ w.1
  fits : w.1.toNat + 4 ≤ size.bytes.toNat

theorem fpWord_of_mem {width : Width} {r : Reg} {w : Int × Int} (hw : w ∈ fpWords cfg width r) :
    FpWord (Interp.widthSize width) w := by
  have hword (k : Int) (r : Reg) (high : Bool) (hk : k = (Cpu.Field.fpr r high).offset) :
      Cpu.IsWord k ∧ 336 ≤ k ∧ k < 592 := by
    subst hk
    refine ⟨⟨.fpr r high, nofun, rfl⟩, ?_⟩
    have hr := r.isLt
    cases high <;> simp only [Cpu.Field.offset, reduceIte, Bool.false_eq_true] <;> omega
  cases width with
  | word =>
    obtain rfl := List.mem_singleton.mp hw
    obtain ⟨hisWord, hlow, hhigh⟩ := hword _ _ _ (Cpu.offset_single cfg.wideFp r)
    exact ⟨hisWord, hlow, hhigh, Int.le_refl 0, Nat.le_refl 4⟩
  | double =>
    rcases List.mem_cons.mp hw with rfl | hw
    · obtain ⟨hisWord, hlow, hhigh⟩ := hword (Layout.doubleHigh cfg.wideFp r) _ true rfl
      exact ⟨hisWord, hlow, hhigh, Int.le_refl 0, Nat.le_add_right 4 4⟩
    · obtain rfl := List.mem_singleton.mp hw
      obtain ⟨hisWord, hlow, hhigh⟩ := hword (Layout.doubleLow cfg.wideFp r) _ false rfl
      exact ⟨hisWord, hlow, hhigh, Int.natCast_nonneg 4, Nat.le_refl 8⟩

namespace HostCache

/-- No floating-point register of the machine holds one of the words. -/
def FpFree (c : HostCache) (ws : List (Int × Int)) : Prop :=
  ∀ w ∈ ws, ∀ r, w.2 ∉ (c.fpSlots.get r).offsets

theorem FpFree.of_fpSlots {c c' : HostCache} {ws : List (Int × Int)} (h : c.FpFree ws)
    (hs : c'.fpSlots = c.fpSlots) : c'.FpFree ws := by
  intro w hw r
  rw [hs]
  exact h w hw r

theorem mem_offsets_clobberFp {c : HostCache} {off k : Int} {r : Fin 8}
    (h : k ∈ ((c.clobberFp off 4).fpSlots.get r).offsets) :
    k ∈ (c.fpSlots.get r).offsets ∧ k ≠ off := by
  rw [clobberFp_eq, get_freeWhere c _ (List.nodup_finRange 8) r] at h
  split at h
  · cases h
  · rename_i hkeep
    refine ⟨h, fun he => hkeep ⟨List.mem_finRange r, ?_⟩⟩
    subst he
    exact FpSlot.overlaps_of_mem h (Int.le_refl _) (Int.le_refl _)

/-- The assignment after words have been brought to the context. -/
def clobbered (c : HostCache) (ws : List (Int × Int)) : HostCache :=
  ws.foldl (fun c w => c.clobberFp w.2 4) c

theorem clobbered_cons (c : HostCache) (w : Int × Int) (ws : List (Int × Int)) :
    c.clobbered (w :: ws) = (c.clobberFp w.2 4).clobbered ws := List.foldl_cons ..

theorem mem_offsets_clobbered {c : HostCache} {ws : List (Int × Int)} {k : Int} {r : Fin 8}
    (h : k ∈ ((c.clobbered ws).fpSlots.get r).offsets) :
    k ∈ (c.fpSlots.get r).offsets ∧ ∀ w ∈ ws, k ≠ w.2 := by
  induction ws generalizing c with
  | nil => exact ⟨h, fun _ hw => absurd hw List.not_mem_nil⟩
  | cons w ws ih =>
    rw [clobbered_cons] at h
    obtain ⟨hmem, hne⟩ := ih h
    obtain ⟨hmem, hne'⟩ := mem_offsets_clobberFp hmem
    refine ⟨hmem, fun w' hw' => ?_⟩
    rcases List.mem_cons.mp hw' with rfl | hw'
    · exact hne'
    · exact hne w' hw'

theorem fpFree_clobbered (c : HostCache) (ws : List (Int × Int)) : (c.clobbered ws).FpFree ws :=
  fun w hw _ h => (mem_offsets_clobbered h).2 w hw rfl

theorem appends_clobbered (c : HostCache) (ws : List (Int × Int)) : Appends c (c.clobbered ws) := by
  refine Appends.foldl (fun c w => ?_) ws c
  exact Appends.clobberFp c w.2 4

end HostCache

theorem Embodies.clobbered {c : HostCache} {m : Machine Cpu} (h : Embodies c m g)
    (ws : List (Int × Int)) : ∃ m', Emitted c.builder m (c.clobbered ws).builder m' ∧
      Embodies (c.clobbered ws) m' g := by
  induction ws generalizing c m with
  | nil => exact ⟨m, .refl _ _, h⟩
  | cons w ws ih =>
    rw [HostCache.clobbered_cons]
    obtain ⟨m₁, he₁, h₁, -⟩ := h.clobberFp w.2 4
    obtain ⟨m₂, he₂, h₂⟩ := ih h₁
    exact ⟨m₂, he₁.trans he₂, h₂⟩

/-- The words of a floating-point register are read from RAM. -/
theorem Embodies.loadFpWords (links : Links) {a : Access} {v : HostReg} {p : UInt32} {size : Size}
    {ws : List (Int × Int)} {e e' : Emitter} {m : Machine Cpu} (h : Embodies e.cache m g)
    (hat : W.At e.cache.builder m) (hws : ∀ w ∈ ws, FpWord size w) (hfree : e.cache.FpFree ws)
    (hv : IsTemp e.cache v) (hne : v ≠ a.offset) (hoffset : m.get a.offset = p)
    (hx : (forIn ws PUnit.unit fun (x : Int × Int) (_ : PUnit) =>
      match x with
      | (off, word) => do
        Emit.loadWord .lw a off v
        emit (.stc v word)
        pure (ForInStep.yield PUnit.unit)) e = .ok PUnit.unit e') (hp : e'.Precedes W.emitter) :
    ∃ m', W.Reaches links m (ws.map fun w => .ram ((p.toNat : Int) + w.1) 4) e'.cache.builder m' ∧
      Embodies e'.cache m' (g.storeWords (ws.map fun w =>
        (w.2, HostRam.word g.mem.ram ((p.toNat : Int) + w.1).toNat))) := by
  induction ws generalizing e m g with
  | nil =>
    cases hx
    exact ⟨m, .refl hat, h⟩
  | cons w ws ih =>
    rw [List.forIn_cons] at hx
    obtain ⟨_, e₂, hfirst, hrest⟩ := bind_ok hx
    obtain ⟨_, e₁, hload, hfirst⟩ := bind_ok hfirst
    obtain ⟨_, _, hstore, hfirst⟩ := bind_ok hfirst
    cases hfirst
    have hp₂ : e₂.Precedes W.emitter := by
      refine Emitter.Precedes.trans ?_ hp
      exact (Grows.forIn ws (fun x _ => inferInstance) PUnit.unit).precedes hrest
    have hp₁ : e₁.Precedes W.emitter := (Grows.precedes hstore).trans hp₂
    -- The word goes through the temporary.
    have hword : Machine.evalLoad .lw m.ctx.mem.ram (m.address a.offset w.1) =
        HostRam.word g.mem.ram ((p.toNat : Int) + w.1).toNat := by
      rw [Machine.address, hoffset, h.mem_eq]
      rfl
    have hreach₁ : W.Reaches links m [.ram ((m.get a.offset).toNat + w.1) 4] e₁.cache.builder
        (m.set v (HostRam.word g.mem.ram ((p.toNat : Int) + w.1).toNat)).next := by
      rw [← hword]
      exact .emit links rfl hload hp₁ hat
    have h₁ : Embodies e₁.cache
        (m.set v (HostRam.word g.mem.ram ((p.toNat : Int) + w.1).toNat)).next g := by
      obtain ⟨r, rfl, ht, hk⟩ := hv
      cases hload
      exact (h.writeTemp _ ht hk).congr rfl rfl (fun _ => rfl) rfl rfl
    have hreach₂ := Finished.Reaches.emit links rfl hstore hp₂ hreach₁.place
    generalize hm₁ : (m.set v (HostRam.word g.mem.ram ((p.toNat : Int) + w.1).toNat)).next = m₁
      at hreach₁ hreach₂ h₁
    have hval : m₁.get v = HostRam.word g.mem.ram ((p.toNat : Int) + w.1).toNat := by
      rw [← hm₁]
      exact hv.get_set m _
    have hoffset₁ : m₁.get a.offset = p := by
      rw [← hm₁, Machine.get_next, Machine.get_set_of_ne _ _ hne, hoffset]
    have hw := hws w List.mem_cons_self
    have h₂ : Embodies e₁.cache (m₁.perform (.stc v w.2)) (g.storeWords
        [(w.2, HostRam.word g.mem.ram ((p.toNat : Int) + w.1).toNat)]) := by
      have hfpSlots : e₁.cache.fpSlots = e.cache.fpSlots := by
        cases hload
        rfl
      refine h₁.storeContext ?_ ?_ (fun _ => rfl) rfl ?_
      · intro k hk
        obtain rfl := List.mem_singleton.mp hk
        exact ⟨hw.isWord, hw.low, hw.high⟩
      · intro k hk
        obtain rfl := List.mem_singleton.mp hk
        rw [hfpSlots]
        exact hfree w List.mem_cons_self
      · rw [← hval]
        rfl
    have h₂ : Embodies e₂.cache (m₁.perform (.stc v w.2)) (g.storeWords
        [(w.2, HostRam.word g.mem.ram ((p.toNat : Int) + w.1).toNat)]) := by
      cases hstore
      exact h₂.congr rfl rfl (fun _ => rfl) rfl rfl
    cases hload
    cases hstore
    obtain ⟨m', hreach', h'⟩ := ih h₂ hreach₂.place
      (fun w' hw' => hws w' (List.mem_cons_of_mem _ hw'))
      (fun w' hw' => hfree w' (List.mem_cons_of_mem _ hw')) hv hoffset₁ hrest
    refine ⟨m', ?_, ?_⟩
    · have hall := hreach₁.trans (hreach₂.trans hreach')
      rw [hoffset] at hall
      exact hall
    · rw [mem_storeWords] at h'
      exact h'

/-- The words of a floating-point register are written to RAM. -/
theorem Embodies.storeFpWords (links : Links) {a : Access} {v : HostReg} {p : UInt32} {size : Size}
    {ws : List (Int × Int)} {e e' : Emitter} {m : Machine Cpu} (h : Embodies e.cache m g)
    (hat : W.At e.cache.builder m) (hws : ∀ w ∈ ws, FpWord size w) (hfree : e.cache.FpFree ws)
    (hv : IsTemp e.cache v) (hne : v ≠ a.offset) (hoffset : m.get a.offset = p)
    (hx : (forIn ws PUnit.unit fun (x : Int × Int) (_ : PUnit) =>
      match x with
      | (off, word) => do
        emit (.ldc word v)
        Emit.storeWord .sw a off v
        pure (ForInStep.yield PUnit.unit)) e = .ok PUnit.unit e') (hp : e'.Precedes W.emitter) :
    ∃ m', W.Reaches links m (ws.map fun w => .ram ((p.toNat : Int) + w.1) 4) e'.cache.builder m' ∧
      Embodies e'.cache m' (g.withRam (ws.foldl (fun ram w =>
        HostRam.setWord ram ((p.toNat : Int) + w.1).toNat (g.loadWord w.2)) g.mem.ram)) := by
  induction ws generalizing e m g with
  | nil =>
    cases hx
    exact ⟨m, .refl hat, h⟩
  | cons w ws ih =>
    rw [List.forIn_cons] at hx
    obtain ⟨_, e₂, hfirst, hrest⟩ := bind_ok hx
    obtain ⟨_, e₁, hload, hfirst⟩ := bind_ok hfirst
    obtain ⟨_, _, hstore, hfirst⟩ := bind_ok hfirst
    cases hfirst
    have hp₂ : e₂.Precedes W.emitter := by
      refine Emitter.Precedes.trans ?_ hp
      exact (Grows.forIn ws (fun x _ => inferInstance) PUnit.unit).precedes hrest
    have hp₁ : e₁.Precedes W.emitter := (Grows.precedes hstore).trans hp₂
    have hw := hws w List.mem_cons_self
    have hword : m.ctx.loadWord w.2 = g.loadWord w.2 :=
      h.loadWord_eq hw.low hw.high (hfree w List.mem_cons_self)
    have hreach₁ : W.Reaches links m [] e₁.cache.builder (m.set v (g.loadWord w.2)).next := by
      rw [← hword]
      exact .emit links rfl hload hp₁ hat
    have h₁ : Embodies e₁.cache (m.set v (g.loadWord w.2)).next g := by
      obtain ⟨r, rfl, ht, hk⟩ := hv
      cases hload
      exact (h.writeTemp _ ht hk).congr rfl rfl (fun _ => rfl) rfl rfl
    generalize hm₁ : (m.set v (g.loadWord w.2)).next = m₁ at hreach₁ h₁
    have hval : m₁.get v = g.loadWord w.2 := by
      rw [← hm₁]
      exact hv.get_set m _
    have hoffset₁ : m₁.get a.offset = p := by
      rw [← hm₁, Machine.get_next, Machine.get_set_of_ne _ _ hne, hoffset]
    have hram : HostRam.setWord g.mem.ram ((p.toNat : Int) + w.1).toNat (g.loadWord w.2) =
        Machine.evalStore .sw (m₁.address a.offset w.1) (m₁.get v) g.mem.ram := by
      rw [Machine.address, hoffset₁, hval]
      rfl
    have hsize : (HostRam.setWord g.mem.ram ((p.toNat : Int) + w.1).toNat (g.loadWord w.2)).size =
        g.mem.ram.size := Machine.size_evalStore .sw _ _ _
    obtain ⟨m₂, hreach₂, h₂, hget₂⟩ := h₁.storeWord links hreach₁.place hram hstore hp₂
    have hoffset₂ : m₂.get a.offset = p := (hget₂ _).trans hoffset₁
    cases hload
    cases hstore
    obtain ⟨m', hreach', h'⟩ := ih h₂ hreach₂.place
      (fun w' hw' => hws w' (List.mem_cons_of_mem _ hw'))
      (fun w' hw' => hfree w' (List.mem_cons_of_mem _ hw')) hv hoffset₂ hrest
    refine ⟨m', ?_, ?_⟩
    · have hall := hreach₁.trans (hreach₂.trans hreach')
      rw [hoffset₁] at hall
      exact hall
    · simp only [g.loadWord_withRam hsize] at h'
      exact h'

theorem inside_fpWords {width : Width} {isStore : Bool}
    (hd : Direct g.mem (Interp.effective g i) (Interp.widthSize width) isStore) :
    ∀ t ∈ (fpWords cfg width i.ft).map fun w =>
      Touch.ram ((physical (Interp.effective g i)).toNat + w.1) 4, t.Inside g.mem := by
  intro t ht
  obtain ⟨w, hw, rfl⟩ := List.mem_map.mp ht
  have hword := fpWord_of_mem hw
  refine Touch.inside_ram hword.nonneg (Nat.le_trans ?_ hd.fits)
  rw [Nat.add_assoc]
  exact Nat.add_le_add_left hword.fits _

theorem isRam_fpWords (cfg : Config) (width : Width) (r : Reg) (p : UInt32) :
    ∃ t ∈ (fpWords cfg width r).map fun w => Touch.ram ((p.toNat : Int) + w.1) 4, t.isRam = true := by
  cases width <;> exact ⟨_, List.mem_cons_self, rfl⟩

/-- A transfer takes the fast path for direct accesses, after the words of the register have been
brought to the context. -/
theorem performs_transferred {width : Width} {isStore : Bool} {a : Access} {v : HostReg}
    {stub : Stub} {e e₁ e₂ e₃ e₄ e₅ e₆ e' : Emitter} {m : Machine Cpu} (hm : Embodies e.cache m g)
    (hat : W.At e.cache.builder m) (hclobber : clobber (fpWords cfg width i.ft) e = .ok () e₁)
    (haccess : access (Interp.widthSize width) i e₁ = .ok a e₂) (htemp : temp e₂ = .ok v e₃)
    (hoff : branchOff s i a.addr e₃ = .ok stub e₄)
    (hguard : guard cfg i a (Stub.entryLabel stub.id) isStore e₄ = .ok () e₅)
    (hp : e₅.Precedes W.emitter) (hjoin : join stub e₆ = .ok () e') (hmem : g.mem.Created)
    (hram : cfg.ramSize = UInt32.ofNat g.mem.size)
    (hbody : ∀ m₅, Direct g.mem (Interp.effective g i) (Interp.widthSize width) isStore →
      W.At e₅.cache.builder m₅ → Embodies e₅.cache m₅ g → IsTemp e₅.cache v → v ≠ a.offset →
      e₅.cache.FpFree (fpWords cfg width i.ft) →
      m₅.get a.offset = physical (Interp.effective g i) →
      ∃ ts m₆, Completes W links m₅ g e₆ (Interp.effect g i s.pc) ts m₆) :
    ∃ ts m', Performs W links s i (Interp.widthSize width) isStore e' m g ts m' := by
  have hp₃ : e₃.Precedes W.emitter := (Grows.precedes hoff).trans ((Grows.precedes hguard).trans hp)
  have hp₂ : e₂.Precedes W.emitter := (Grows.precedes htemp).trans hp₃
  have hp₁ : e₁.Precedes W.emitter := (Grows.precedes haccess).trans hp₂
  obtain ⟨m₁, he₁, hm₁⟩ := hm.clobbered (fpWords cfg width i.ft)
  have hfree₁ := e.cache.fpFree_clobbered (fpWords cfg width i.ft)
  have happ₁ := e.cache.appends_clobbered (fpWords cfg width i.ft)
  have hcache₁ : e₁.cache = e.cache.clobbered (fpWords cfg width i.ft) := by
    cases hclobber
    rfl
  rw [← hcache₁] at he₁ hm₁ hfree₁ happ₁
  obtain ⟨m₂, q₂, ht, hsize, hbase⟩ := hm₁.access haccess hp₂
  obtain ⟨m₃, q₃, hv, hne⟩ := q₂.embodies.temp htemp hp₃
  have q := q₂.trans q₃
  have hreach₁ : W.Reaches links m [] e₁.cache.builder m₁ := .appends hat happ₁ he₁ hp₁.builder
  have hreach₃ : W.Reaches links m₁ [] e₃.cache.builder m₃ :=
    .appends hreach₁.place q.moves.toAppends q.emitted hp₃.builder
  refine performs_of_completes (hreach₁.trans hreach₃) q₃.embodies (ht.stable q₃.stable) hsize
    (q₃.stable.reads hbase).get hmem hram hoff hguard hp hjoin ?_
  intro m₅ hd hat₅ hm₅ ht₅ _ hslots hfpSlots hoffset
  refine hbody m₅ hd hat₅ hm₅ ?_ (Ne.symm (hne _ ht.offset)) ?_ hoffset
  · obtain ⟨r, rfl, htemp, hk⟩ := hv
    have hslot : e₅.cache.slot r = e₃.cache.slot r := by
      rw [HostCache.slot, hslots, HostCache.slot]
    exact ⟨r, rfl, hslot ▸ htemp, hslot ▸ hk⟩
  · exact hfree₁.of_fpSlots (hfpSlots.trans q.moves.fpSlots)

theorem execLoadFp_of_direct {width : Width}
    (hd : Direct g.mem (Interp.effective g i) (Interp.widthSize width) false)
    (hdev : ∀ p : UInt32, p.toNat < g.mem.size → g.mem.deviceAt? p = none)
    (hwide : cfg.wideFp = g.wideFpRegs) :
    Interp.execLoadFp g i width = g.storeWords ((fpWords cfg width i.ft).map fun w =>
      (w.2, HostRam.word g.mem.ram (((physical (Interp.effective g i)).toNat : Int) + w.1).toNat)) := by
  rw [Interp.execLoadFp, hd.load_eq hdev]
  cases width with
  | word =>
    change g.setSingle i.ft (g.mem.readRam _ .word).toUInt32 = g.storeWord (Layout.single cfg.wideFp i.ft) _
    rw [Memory.readRam_word hd.holds, UInt32.toUInt32_toUInt64, Cpu.setSingle_eq, hwide]
    rfl
  | double =>
    change g.setDouble i.ft (g.mem.readRam _ .double) = (g.storeWord
      (Layout.doubleHigh cfg.wideFp i.ft) _).storeWord (Layout.doubleLow cfg.wideFp i.ft) _
    rw [Memory.readRam_double hd.holds, Cpu.setDouble_eq, hwide]
    rfl

theorem execStoreFp_of_direct {width : Width}
    (hd : Direct g.mem (Interp.effective g i) (Interp.widthSize width) true)
    (hdev : ∀ p : UInt32, p.toNat < g.mem.size → g.mem.deviceAt? p = none)
    (hwide : cfg.wideFp = g.wideFpRegs) :
    Interp.execStoreFp g i width = g.withRam ((fpWords cfg width i.ft).foldl (fun ram w =>
      HostRam.setWord ram (((physical (Interp.effective g i)).toNat : Int) + w.1).toNat (g.loadWord w.2))
        g.mem.ram) := by
  unfold Interp.execStoreFp
  dsimp only
  rw [hd.store_eq hdev]
  cases width with
  | word =>
    change { g with mem := g.mem.writeRam _ .word (g.single i.ft).toUInt64 } = _
    rw [Memory.writeRam_word hd.holds, UInt32.toUInt32_toUInt64, Cpu.single_eq, ← hwide]
    rfl
  | double =>
    change { g with mem := g.mem.writeRam _ .double (g.double i.ft) } = _
    rw [Memory.writeRam_double hd.holds, Cpu.double_eq, highWord_joinWords, lowWord_joinWords, ← hwide]
    rfl

/-- The code of a load of a floating-point register takes the fast path for direct accesses. -/
theorem performs_loadFp {width : Width} {e e' : Emitter} {m : Machine Cpu} (links : Links)
    (hk : i.kind = .loadFp width) (hx : loadFp cfg s width i e = .ok () e')
    (hp : e'.Precedes W.emitter) (hat : W.At e.cache.builder m) (hm : Embodies e.cache m g)
    (hmem : g.mem.Created) (hram : cfg.ramSize = UInt32.ofNat g.mem.size)
    (hdev : ∀ p : UInt32, p.toNat < g.mem.size → g.mem.deviceAt? p = none)
    (hwide : cfg.wideFp = g.wideFpRegs) :
    ∃ ts m', Performs W links s i (Interp.widthSize width) false e' m g ts m' := by
  have heffect : Interp.effect g i s.pc = Interp.execLoadFp g i width := by
    unfold Interp.effect
    rw [hk]
  have hsizes : fpSize width = Interp.widthSize width := by cases width <;> rfl
  unfold loadFp at hx
  rw [hsizes] at hx
  obtain ⟨_, e₁, hclobber, hx⟩ := bind_ok hx
  obtain ⟨a, e₂, haccess, hx⟩ := bind_ok hx
  obtain ⟨v, e₃, htemp, hx⟩ := bind_ok hx
  obtain ⟨stub, e₄, hoff, hx⟩ := bind_ok hx
  obtain ⟨_, e₅, hguard, hx⟩ := bind_ok hx
  obtain ⟨_, e₆, hwords, hjoin⟩ := bind_ok hx
  have hp₆ : e₆.Precedes W.emitter := (Grows.precedes hjoin).trans hp
  have hp₅ : e₅.Precedes W.emitter := by
    refine Emitter.Precedes.trans ?_ hp₆
    exact (Grows.forIn _ (fun x _ => inferInstance) PUnit.unit).precedes hwords
  refine performs_transferred hm hat hclobber haccess htemp hoff hguard hp₅ hjoin hmem hram ?_
  intro m₅ hd hat₅ hm₅ hv hne hfree hoffset
  obtain ⟨m₆, hreach, hm₆⟩ := hm₅.loadFpWords links hat₅ (fun w hw => fpWord_of_mem hw) hfree hv hne
    hoffset hwords hp₆
  refine ⟨_, m₆, hreach, inside_fpWords hd, isRam_fpWords cfg width i.ft _, ?_⟩
  rw [heffect, execLoadFp_of_direct hd hdev hwide]
  exact hm₆

/-- The code of a store of a floating-point register takes the fast path for direct accesses. -/
theorem performs_storeFp {width : Width} {e e' : Emitter} {m : Machine Cpu} (links : Links)
    (hk : i.kind = .storeFp width) (hx : storeFp cfg s width i e = .ok () e')
    (hp : e'.Precedes W.emitter) (hat : W.At e.cache.builder m) (hm : Embodies e.cache m g)
    (hmem : g.mem.Created) (hram : cfg.ramSize = UInt32.ofNat g.mem.size)
    (hdev : ∀ p : UInt32, p.toNat < g.mem.size → g.mem.deviceAt? p = none)
    (hwide : cfg.wideFp = g.wideFpRegs) :
    ∃ ts m', Performs W links s i (Interp.widthSize width) true e' m g ts m' := by
  have heffect : Interp.effect g i s.pc = Interp.execStoreFp g i width := by
    unfold Interp.effect
    rw [hk]
  have hsizes : fpSize width = Interp.widthSize width := by cases width <;> rfl
  unfold storeFp at hx
  rw [hsizes] at hx
  obtain ⟨_, e₁, hclobber, hx⟩ := bind_ok hx
  obtain ⟨a, e₂, haccess, hx⟩ := bind_ok hx
  obtain ⟨v, e₃, htemp, hx⟩ := bind_ok hx
  obtain ⟨stub, e₄, hoff, hx⟩ := bind_ok hx
  obtain ⟨_, e₅, hguard, hx⟩ := bind_ok hx
  obtain ⟨_, e₆, hwords, hjoin⟩ := bind_ok hx
  have hp₆ : e₆.Precedes W.emitter := (Grows.precedes hjoin).trans hp
  have hp₅ : e₅.Precedes W.emitter := by
    refine Emitter.Precedes.trans ?_ hp₆
    exact (Grows.forIn _ (fun x _ => inferInstance) PUnit.unit).precedes hwords
  refine performs_transferred hm hat hclobber haccess htemp hoff hguard hp₅ hjoin hmem hram ?_
  intro m₅ hd hat₅ hm₅ hv hne hfree hoffset
  obtain ⟨m₆, hreach, hm₆⟩ := hm₅.storeFpWords links hat₅ (fun w hw => fpWord_of_mem hw) hfree hv
    hne hoffset hwords hp₆
  refine ⟨_, m₆, hreach, inside_fpWords hd, isRam_fpWords cfg width i.ft _, ?_⟩
  rw [heffect, execStoreFp_of_direct hd hdev hwide]
  exact hm₆

end Recompiler
