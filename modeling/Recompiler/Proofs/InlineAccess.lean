import Recompiler.Proofs.Guards

/-!
Inline loads and stores. Their fast path is taken exactly for naturally aligned accesses to RAM
through the unmapped segments that do not write to code. It stays inside RAM and the table of code
marks, and has the effect of the instruction; all other accesses come to the slow path with the
state of the guest as it was.
-/

namespace Recompiler

open Ir Emit

variable {W : Finished} {links : Links} {cfg : Config} {s : Site} {i : Recompiler.Instr}
  {g : Cpu}

/-- What becomes of an access that is emitted between a state and `e'`. -/
structure Performs (W : Finished) (links : Links) (s : Site) (i : Instr) (size : Size)
    (isStore : Bool) (e' : Emitter) (m : Machine Cpu) (g : Cpu) (ts : List Touch)
    (m' : Machine Cpu) : Prop where
  walk : Walk links m ts m'
  inside : ∀ t ∈ ts, t.Inside g.mem
  reaches : (∃ t ∈ ts, t.isRam = true) ↔ Direct g.mem (Interp.effective g i) size isStore
  fast : Direct g.mem (Interp.effective g i) size isStore →
    W.At e'.cache.builder m' ∧ Embodies e'.cache m' (Interp.effect g i s.pc)
  /-- The slow path begins with the registers and the effective address that it expects. -/
  slow : ¬ Direct g.mem (Interp.effective g i) size isStore →
    ∃ stub ∈ e'.stubs, stub.site = s ∧ stub.op = i ∧ m'.program = W.program ∧
      m'.pc = W.position (Stub.entryLabel stub.id) ∧ m'.get stub.addr = Interp.effective g i ∧
      Embodies (e'.cache.restore stub.enter) m' g

/-- What the fast path has to do after the guard. -/
structure Completes (W : Finished) (links : Links) (m : Machine Cpu) (g : Cpu) (e' : Emitter)
    (g' : Cpu) (ts : List Touch) (m' : Machine Cpu) : Prop where
  reaches : W.Reaches links m ts e'.cache.builder m'
  inside : ∀ t ∈ ts, t.Inside g.mem
  ram : ∃ t ∈ ts, t.isRam = true
  embodies : Embodies e'.cache m' g'

theorem slots_emitAll (c : HostCache) (is : List (Ir.Instr String)) :
    (c.emitAll is).slots = c.slots := by
  induction is generalizing c with
  | nil => rfl
  | cons i is ih => exact ih (c.emit i)

theorem branchOff_ok {x : HostReg} {stub : Stub} {e e' : Emitter}
    (h : branchOff s i x e = .ok stub e') : stub.site = s ∧ stub.op = i ∧ stub.addr = x ∧
      stub.enter = e.cache.snapshot ∧ e'.cache = e.cache := by
  cases h
  exact ⟨rfl, rfl, rfl, rfl, rfl⟩

theorem guard_ok {a : Access} {slow : String} {isStore : Bool} {e e' : Emitter}
    (hfits : ¬ cfg.ramSize < a.size) (h : guard cfg i a slow isStore e = .ok () e') :
    e'.cache.builder = (guardCode cfg i a slow isStore).foldl Builder.add e.cache.builder ∧
      e'.cache.slots = e.cache.slots ∧ e'.cache.fpSlots = e.cache.fpSlots := by
  rw [guard_eq cfg i a slow isStore e hfits] at h
  cases h
  exact ⟨Agrees.builder_emitAll _ _, slots_emitAll _ _, Agrees.fpSlots_emitAll _ _⟩

theorem join_ok {stub : Stub} {e e' : Emitter} (h : join stub e = .ok () e') :
    { stub with leave := e.cache.snapshot } ∈ e'.stubs ∧ e'.cache.slots = e.cache.slots ∧
      e'.cache.fpSlots = e.cache.fpSlots ∧ e'.cache.builder.code = e.cache.builder.code := by
  obtain ⟨_, e₁, h₁, h₂⟩ := bind_ok h
  cases h₁
  obtain ⟨b, hb, rfl⟩ := putLabel_ok h₂
  exact ⟨Array.mem_push_self, rfl, rfl, (Builder.label_ok hb).1⟩

/-- An access is performed if its fast path completes it. -/
theorem performs_of_completes {a : Access} {size : Size} {isStore : Bool} {stub : Stub}
    {e e₁ e₂ e₃ e₄ : Emitter} {m m₀ : Machine Cpu} (hm₀ : W.Reaches links m₀ [] e.cache.builder m)
    (hm : Embodies e.cache m g) (ht : a.Temps e.cache) (hsize : a.size = size.bytes)
    (hbase : m.get a.base = lowWord (g.reg i.rs)) (hmem : g.mem.Created)
    (hram : cfg.ramSize = UInt32.ofNat g.mem.size) (hoff : branchOff s i a.addr e = .ok stub e₁)
    (hguard : guard cfg i a (Stub.entryLabel stub.id) isStore e₁ = .ok () e₂)
    (hp₂ : e₂.Precedes W.emitter) (hjoin : join stub e₃ = .ok () e₄)
    (hbody : ∀ m₂, Direct g.mem (Interp.effective g i) size isStore → W.At e₂.cache.builder m₂ →
      Embodies e₂.cache m₂ g → a.Temps e₂.cache → a.Differs m m₂ →
      e₂.cache.slots = e.cache.slots → e₂.cache.fpSlots = e.cache.fpSlots →
      m₂.get a.offset = physical (Interp.effective g i) →
      ∃ ts m₃, Completes W links m₂ g e₃ (Interp.effect g i s.pc) ts m₃) :
    ∃ ts m', Performs W links s i size isStore e₄ m₀ g ts m' := by
  obtain ⟨hsite, hop, hstub, henter, hcache₁⟩ := branchOff_ok hoff
  obtain ⟨hpush, hslots₄, hfp₄, hcode₄⟩ := join_ok hjoin
  have hmem_eq : m.ctx.mem = g.mem := hm.mem_eq
  have hfits : ¬ cfg.ramSize < a.size := by
    obtain ⟨k, hlow, hhigh, hpages, -⟩ := hmem.pages
    have hbytes : size.bytes.toNat ≤ 8 := by cases size <;> decide
    have hnat : (UInt32.ofNat g.mem.size).toNat = g.mem.size := UInt32.toNat_ofNat_of_lt' (by
      change g.mem.size < 4294967296
      omega)
    rw [hram, hsize, UInt32.lt_iff_toNat_lt, hnat]
    omega
  obtain ⟨hbuilder, hslots₂, hfp₂⟩ := guard_ok hfits hguard
  rw [hcache₁] at hbuilder hslots₂ hfp₂
  have haddr : m.get a.base + simm i = Interp.effective g i := by
    rw [hbase]
    rfl
  obtain ⟨ts, n, o, hn, hdiff, htouches, haddr', houtcome⟩ := Access.passes_guardCode
    (Stub.entryLabel stub.id) isStore ht (hmem_eq ▸ hmem) (hmem_eq ▸ hram) hsize haddr
  rw [hmem_eq] at htouches houtcome
  obtain ⟨hend, hexit⟩ := hn.walk links (hbuilder ▸ hp₂.builder) hm₀.place
  have hembodies := hdiff.embodies ht hm
  rcases houtcome with ⟨rfl, hdirect, hoffset⟩ | ⟨rfl, hdirect⟩
  · obtain ⟨hwalk, hat⟩ := hend rfl
    rw [← hbuilder] at hat
    obtain ⟨ts', n', hdone, hinside, ⟨t, htram, hisRam⟩, heffect⟩ := hbody n hdirect hat
      (hembodies.congr hslots₂ hfp₂ (fun _ => rfl) rfl rfl)
      (ht.of_slots fun r => by rw [HostCache.slot, hslots₂, HostCache.slot]) hdiff hslots₂ hfp₂ hoffset
    refine ⟨ts ++ ts', n', hm₀.walk.trans (hwalk.trans hdone.walk), ?_, ?_, ?_, ?_⟩
    · intro t ht
      rcases List.mem_append.mp ht with ht | ht
      · exact (htouches t ht).1
      · exact hinside t ht
    · exact ⟨fun _ => hdirect, fun _ => ⟨t, List.mem_append_right _ htram, hisRam⟩⟩
    · intro _
      refine ⟨⟨hdone.place.program, ?_⟩, heffect.congr hslots₄ hfp₄ (fun _ => rfl) rfl rfl⟩
      rw [hcode₄]
      exact hdone.place.pc
    · exact fun h => absurd hdirect h
  · obtain ⟨hwalk, hprogram⟩ := hexit _ rfl
    refine ⟨ts, _, hm₀.walk.trans hwalk, fun t ht => (htouches t ht).1, ?_, ?_, fun _ => ?_⟩
    · refine ⟨?_, fun h => absurd h hdirect⟩
      rintro ⟨t, ht, hr⟩
      rw [(htouches t ht).2] at hr
      cases hr
    · exact fun h => absurd h hdirect
    · refine ⟨_, hpush, hsite, hop, hprogram, rfl, ?_, ?_⟩
      · change n.get stub.addr = _
        rw [hstub]
        exact haddr'
      · refine hembodies.congr ?_ ?_ (fun _ => rfl) rfl rfl
        · exact congrArg Snapshot.slots henter
        · exact congrArg Snapshot.fpSlots henter

def swizzleCode (size : Size) (a : Access) : List (Ir.Instr String) :=
  match size with
  | .byte => [.const .xor a.offset 3 a.offset]
  | .half => [.const .xor a.offset 2 a.offset]
  | .word | .double => []

theorem swizzle_ok {a : Access} {size : Size} {e e' : Emitter} (h : swizzle size a e = .ok () e') :
    e'.cache = e.cache.emitAll (swizzleCode size a) := by
  cases size <;> cases h <;> rfl

/-- After the guard the place of the value is computed. -/
theorem Embodies.swizzle (links : Links) {a : Access} {size : Size} {e e' : Emitter} {m : Machine Cpu} {p : UInt32}
    (h : Embodies e.cache m g) (hx : Emit.swizzle size a e = .ok () e') (ht : a.Temps e.cache)
    (hat : W.At e.cache.builder m) (hp : e'.cache.builder.Precedes W.builder)
    (hoffset : m.get a.offset = p) : ∃ m', W.Reaches links m [] e'.cache.builder m' ∧ Embodies e'.cache m' g ∧ a.Temps e'.cache ∧
      a.Differs m m' ∧ m'.get a.offset = Memory.place p size := by
  have hpasses : ∃ m', Passes (swizzleCode size a) m [] m' none ∧ a.Differs m m' ∧
      m'.get a.offset = Memory.place p size := by
    rw [← hoffset]
    cases size with
    | byte | half =>
      exact ⟨_, .plain rfl (.nil _), (Access.Differs.refl a m).set (.inr (.inl rfl)) _,
        ht.offset.get_set m _⟩
    | word | double => exact ⟨m, .nil m, .refl a m, rfl⟩
  obtain ⟨m', hm', hdiff, hplace⟩ := hpasses
  have hcache := swizzle_ok hx
  have hbuilder := Agrees.builder_emitAll e.cache (swizzleCode size a)
  rw [hcache]
  have hreach : W.Reaches links m [] (e.cache.emitAll (swizzleCode size a)).builder m' := by
    rw [hbuilder]
    refine .passes hat hm' ?_
    rw [← hbuilder, ← hcache]
    exact hp
  refine ⟨m', hreach, ?_, ht.of_slots fun r => HostCache.slot_emitAll _ _ r, hdiff, hplace⟩
  exact (hdiff.embodies ht h).congr (slots_emitAll _ _) (Agrees.fpSlots_emitAll _ _) (fun _ => rfl)
    rfl rfl

theorem Ir.Machine.address_zero (m : Machine Cpu) (x : HostReg) :
    m.address x 0 = (m.get x).toNat := by
  rw [Machine.address, Int.add_zero, Int.toNat_natCast]

theorem Finished.Reaches.emit (links : Links) {j : Ir.Instr String} {e e' : Emitter} {m : Machine Cpu}
    (hj : j.isPlain = true) (h : Emit.emit j e = .ok () e') (hp : e'.Precedes W.emitter)
    (hat : W.At e.cache.builder m) :
    W.Reaches links m (m.touches j) e'.cache.builder (m.perform j) := by
  cases h
  have hone : Passes [j] m (m.touches j ++ []) (m.perform j) none := .plain hj (.nil _)
  rw [List.append_nil] at hone
  exact .passes hat hone hp.builder

theorem setGuest_zero (c : Cpu) {gr : GuestReg} (h : gr.val = 0) (v : UInt64) :
    c.setGuest gr v = c := by
  obtain rfl : gr = .ofReg .zero := Fin.ext h
  rw [Cpu.setGuest_ofReg, Cpu.setReg, if_pos rfl]

theorem storeWords_extended (c : Cpu) (gr : GuestReg) (ext : Extension) (u v : UInt32) :
    (c.storeWords (resultWords (target gr (.low gr (some ext))) u)).storeWords
      (resultWords (target gr (.low gr (some ext))) v) =
        c.setGuest gr (joinWords (ext.word v) v) := by
  by_cases h0 : gr.val = 0
  · rw [setGuest_zero c h0, target, if_pos h0]
    rfl
  · have hone (c : Cpu) (w : UInt32) : c.storeWords (resultWords (target gr (.low gr (some ext))) w) =
        c.setGuest gr (joinWords (ext.word w) w) := by
      rw [c.setGuest_eq h0, lowWord_joinWords, highWord_joinWords, target, if_neg h0]
      rfl
    rw [hone, hone, (c.setGuest_guest gr _ _ h0).2]

theorem storeWords_words (c : Cpu) (gr : GuestReg) (u u' v v' : UInt32) :
    ((((c.storeWords (resultWords (target gr (.high gr)) u)).storeWords
      (resultWords (target gr (.low gr none)) u')).storeWords
      (resultWords (target gr (.high gr)) v)).storeWords
      (resultWords (target gr (.low gr none)) v')) = c.setGuest gr (joinWords v v') := by
  by_cases h0 : gr.val = 0
  · rw [setGuest_zero c h0, target, target, if_pos h0, if_pos h0]
    rfl
  · have hne := Cpu.lowWord_ne_highWord gr gr
    have hlow := Cpu.isWord_lowWord gr
    have hhigh := Cpu.isWord_highWord gr
    rw [c.setGuest_eq h0, lowWord_joinWords, highWord_joinWords, target, target, if_neg h0,
      if_neg h0]
    change ((((c.storeWord (Layout.highWord gr) u).storeWord (Layout.lowWord gr) u').storeWord
      (Layout.highWord gr) v).storeWord (Layout.lowWord gr) v') = _
    rw [Cpu.storeWord_comm _ _ _ hlow hhigh hne, Cpu.storeWord_storeWord_self,
      Cpu.storeWord_storeWord_self, Cpu.storeWord_comm _ _ _ hhigh hlow hne.symm]

theorem execLoad_of_direct {op : LoadOp}
    (hd : Direct g.mem (Interp.effective g i) (Interp.loadSize op) false)
    (hdev : ∀ p : UInt32, p.toNat < g.mem.size → g.mem.deviceAt? p = none) :
    Interp.execLoad g i op = g.setReg i.rt (Interp.extendLoad op
      (g.mem.readRam (physical (Interp.effective g i)) (Interp.loadSize op))) := by
  rw [Interp.execLoad, hd.load_eq hdev]

theorem mem_storeWords (c : Cpu) (ws : List (Int × UInt32)) : (c.storeWords ws).mem = c.mem :=
  (Cpu.sameRest_storeWords c ws).mem

theorem Embodies.loadWord {op : RamLoad} {a : Access} {off : Int} {d : HostReg} {o : Option Content}
    {e e' : Emitter} {m : Machine Cpu} (links : Links) (h : Embodies e.cache m g)
    (howns : Owns e.cache d o) (hat : W.At e.cache.builder m) {v : UInt32}
    (hv : v = Machine.evalLoad op m.ctx.mem.ram (m.address a.offset off))
    (hws : ∀ w ∈ (resultWords o v).map (·.1), Cpu.IsWord w ∧ w < 336)
    (hx : Emit.loadWord op a off d e = .ok () e') (hp : e'.Precedes W.emitter) :
    W.Reaches links m [.ram ((m.get a.offset).toNat + off) op.bytes] e'.cache.builder
        (m.set d v).next ∧
      Embodies e'.cache (m.set d v).next (g.storeWords (resultWords o v)) := by
  subst hv
  refine ⟨.emit links rfl hx hp hat, ?_⟩
  cases hx
  exact (h.write howns _ hws).congr rfl rfl (fun _ => rfl) rfl rfl

theorem Touch.inside_ram {mem : Memory} {n k : Nat} {off : Int} (hoff : 0 ≤ off)
    (h : n + off.toNat + k ≤ mem.size) : (Touch.ram (n + off) k).Inside mem :=
  ⟨by omega, by omega⟩

/-- A load of at most a word. -/
theorem completes_narrow {op : LoadOp} {a : Access} {d : HostReg} {e e₁ e₂ e₃ : Emitter}
    {m : Machine Cpu} (hop : op ≠ .ld)
    (hd : Direct g.mem (Interp.effective g i) (Interp.loadSize op) false)
    (hdev : ∀ p : UInt32, p.toNat < g.mem.size → g.mem.deviceAt? p = none)
    (hat : W.At e.cache.builder m) (hm : Embodies e.cache m g) (ht : a.Temps e.cache)
    (hoffset : m.get a.offset = physical (Interp.effective g i))
    (hswizzle : swizzle (Interp.loadSize op) a e = .ok () e₁)
    (hout : onCache (HostCache.allocOutExt (rt i) op.extension) e₁ = .ok d e₂)
    (hload : loadWord op.ramLoad a 0 d e₂ = .ok () e₃) (hp : e₃.Precedes W.emitter) :
    ∃ ts m', Completes W links m g e₃ (Interp.execLoad g i op) ts m' := by
  have hp₂ : e₂.Precedes W.emitter := (Grows.precedes (f := emit _) hload).trans hp
  have hext := Extends.allocOutExt (onCache_run hout).1
  have hp₁ : e₁.cache.builder.Precedes W.builder := hext.precedes.trans hp₂.builder
  obtain ⟨m₁, hreach₁, hm₁, ht₁, -, hplace⟩ := hm.swizzle links hswizzle ht hat hp₁ hoffset
  obtain ⟨m₂, he₂, hm₂, howns, hget⟩ :=
    hm₁.allocOutExt (onCache_run hout).1 (Finished.fits_of_precedes hp₂.builder)
  have hreach₂ : W.Reaches links m₁ [] e₂.cache.builder m₂ :=
    .appends hreach₁.place hext.toAppends he₂ hp₂.builder
  rw [← hget] at hplace
  have hmem : m₂.ctx.mem = g.mem := hm₂.mem_eq.trans (mem_storeWords _ _)
  obtain ⟨hreach₃, hm₃⟩ := hm₂.loadWord links howns hreach₂.place rfl
    (isWord_resultWords (.inr ⟨_, rfl⟩)) hload hp
  rw [storeWords_extended] at hm₃
  refine ⟨_, _, hreach₁.trans (hreach₂.trans hreach₃), ?_, ⟨_, List.mem_singleton_self _, rfl⟩, ?_⟩
  · intro t htouch
    obtain rfl := List.mem_singleton.mp htouch
    have hle := hd.holds.place_le
    have hbytes : (Interp.loadSize op).bytes.toNat = op.ramLoad.bytes := by
      cases op <;> first | rfl | exact absurd rfl hop
    rw [hbytes] at hle
    rw [hplace]
    exact Touch.inside_ram (Int.le_refl 0) hle
  · rw [execLoad_of_direct hd hdev, Interp.extendLoad_readRam hd.holds hop rfl, ← Cpu.setGuest_ofReg,
      ← hplace, ← hmem, ← m₂.address_zero]
    exact hm₃

theorem Owns.stable {c c' : HostCache} {m m' : Machine Cpu} {x : HostReg} {gr : GuestReg}
    (h : Owns c x (target gr (.high gr))) (hs : Stable c m c' m') :
    Owns c' x (target gr (.high gr)) := by
  unfold target at h ⊢
  by_cases h0 : gr.val = 0
  · rw [if_pos h0] at h ⊢
    exact h
  · rw [if_neg h0] at h ⊢
    obtain ⟨r, rfl, hcontent, hdirty, hconst, hbusy⟩ := h
    have hp : (c.slot r).Pinned := ⟨by rw [hcontent]; nofun, .inl hbusy⟩
    obtain ⟨hp', hbase⟩ := hs.kept r hp
    have hcontent' : (c'.slot r).content = .high gr := by
      rw [hcontent] at hbase
      generalize (c'.slot r).content = content at hbase
      cases content <;> first | exact hbase | cases hbase
    refine ⟨r, rfl, hcontent', hs.dirty r hp hdirty, hs.const r hp hconst, ?_⟩
    rcases hp'.2 with hb | ht
    · exact hb
    · rw [hcontent'] at ht
      cases ht

theorem IsTemp.ne_of_owns {c : HostCache} {x d : HostReg} {o : Option Content} (h : IsTemp c x)
    (ho : Owns c d o) (hk : o ≠ some .temp) : d ≠ x := by
  obtain ⟨r, rfl, ht, -⟩ := h
  cases o with
  | none =>
    obtain rfl := ho
    exact (Machine.ofSlot_ne_rz r).symm
  | some content =>
    obtain ⟨r', rfl, hc, -⟩ := ho
    intro he
    cases Machine.ofSlot_inj he
    exact hk (congrArg some (hc.symm.trans ht))

/-- A load of a double word. -/
theorem completes_double {a : Access} {high low : HostReg} {e e₁ e₂ e₃ e₄ : Emitter}
    {m : Machine Cpu} (hd : Direct g.mem (Interp.effective g i) .double false)
    (hdev : ∀ p : UInt32, p.toNat < g.mem.size → g.mem.deviceAt? p = none)
    (hat : W.At e.cache.builder m) (hm : Embodies e.cache m g) (ht : a.Temps e.cache)
    (hoffset : m.get a.offset = physical (Interp.effective g i))
    (hhigh : outHigh (rt i) e = .ok high e₁) (hlow : outLow (rt i) e₁ = .ok low e₂)
    (hload : loadWord .lw a 0 high e₂ = .ok () e₃) (hload' : loadWord .lw a 4 low e₃ = .ok () e₄)
    (hp : e₄.Precedes W.emitter) :
    ∃ ts m', Completes W links m g e₄ (Interp.execLoad g i .ld) ts m' := by
  have hp₃ : e₃.Precedes W.emitter := (Grows.precedes (f := emit _) hload').trans hp
  have hp₂ : e₂.Precedes W.emitter := (Grows.precedes (f := emit _) hload).trans hp₃
  have hp₁ : e₁.Precedes W.emitter := (Grows.precedes hlow).trans hp₂
  obtain ⟨m₁, q₁, hownsHigh⟩ :=
    hm.allocOutHigh (onCache_run hhigh).1 (Finished.fits_of_precedes hp₁.builder)
  obtain ⟨m₂, q₂, hownsLow⟩ :=
    q₁.embodies.allocOutLow (onCache_run hlow).1 (Finished.fits_of_precedes hp₂.builder)
  have q := q₁.trans q₂
  have hreach : W.Reaches links m [] e₂.cache.builder m₂ :=
    .appends hat q.moves.toAppends q.emitted hp₂.builder
  obtain ⟨htemp, hget⟩ := ht.offset.stable q.stable
  rw [hoffset] at hget
  have hownsHigh := hownsHigh.stable q₂.stable
  have hmem : m₂.ctx.mem = g.mem := by
    rw [q.embodies.mem_eq, mem_storeWords, mem_storeWords]
  -- Both words are read from the place of the access.
  have hfirst : HostRam.word g.mem.ram (physical (Interp.effective g i)).toNat =
      Machine.evalLoad .lw m₂.ctx.mem.ram (m₂.address a.offset 0) := by
    rw [m₂.address_zero, hget, hmem]
    rfl
  obtain ⟨hreach₃, hm₃⟩ := q.embodies.loadWord links hownsHigh hreach.place hfirst
    (isWord_resultWords (.inl rfl)) hload hp₃
  have hne : high ≠ a.offset := htemp.ne_of_owns hownsHigh (by unfold target; split <;> nofun)
  have hget₃ : (m₂.set high (HostRam.word g.mem.ram (physical
      (Interp.effective g i)).toNat)).next.get a.offset = physical (Interp.effective g i) := by
    rw [Machine.get_next, Machine.get_set_of_ne _ _ hne, hget]
  have hsecond : HostRam.word g.mem.ram ((physical (Interp.effective g i)).toNat + 4) =
      Machine.evalLoad .lw (m₂.set high (HostRam.word g.mem.ram (physical
        (Interp.effective g i)).toNat)).next.ctx.mem.ram
        ((m₂.set high (HostRam.word g.mem.ram (physical
          (Interp.effective g i)).toNat)).next.address a.offset 4) := by
    rw [Machine.address, hget₃, Machine.ctx_next, Machine.ctx_set, hmem]
    rfl
  have hownsLow₃ : Owns e₃.cache low (target (rt i) (.low (rt i) none)) := by
    cases hload
    exact hownsLow
  obtain ⟨hreach₄, hm₄⟩ := hm₃.loadWord links hownsLow₃ hreach₃.place hsecond
    (isWord_resultWords (.inr ⟨_, rfl⟩)) hload' hp
  have hfits := hd.fits
  refine ⟨_, _, hreach.trans (hreach₃.trans hreach₄), ?_, ⟨_, List.mem_cons_self, rfl⟩, ?_⟩
  · intro t htouch
    rcases List.mem_cons.mp htouch with rfl | h
    · rw [hget]
      refine Touch.inside_ram (Int.le_refl 0) (Nat.le_trans ?_ hfits)
      exact Nat.add_le_add_left (by decide) _
    · obtain rfl := List.mem_singleton.mp h
      rw [hget₃]
      exact Touch.inside_ram (by decide) hfits
  · rw [storeWords_words] at hm₄
    rw [execLoad_of_direct hd hdev, ← Cpu.setGuest_ofReg]
    change Embodies _ _ (g.setGuest (rt i) (g.mem.readRam _ .double))
    rw [Memory.readRam_double hd.holds]
    exact hm₄

namespace Emit

instance (size : Size) (a : Access) : Grows (swizzle size a) := by
  cases size with
  | byte => exact inferInstanceAs (Grows (const .xor a.offset 3 a.offset))
  | half => exact inferInstanceAs (Grows (const .xor a.offset 2 a.offset))
  | word | double => exact inferInstanceAs (Grows (pure ()))

instance (size : Size) (i : Recompiler.Instr) : Grows (access size i) := by
  unfold access
  infer_instance

instance (op : RamLoad) (a : Access) (off : Int) (d : HostReg) : Grows (loadWord op a off d) :=
  inferInstanceAs (Grows (emit _))

instance (op : RamStore) (a : Access) (off : Int) (x : HostReg) : Grows (storeWord op a off x) :=
  inferInstanceAs (Grows (emit _))

instance (cfg : Config) (i : Recompiler.Instr) (a : Access) (slow : String) (isStore : Bool) :
    Grows (guard cfg i a slow isStore) := by
  unfold guard
  refine .bind inferInstance fun _ => ?_
  split
  · infer_instance
  · refine .bind inferInstance fun _ => .bind inferInstance fun _ => .bind inferInstance fun _ => ?_
    dsimp only
    infer_instance

end Emit

/-- The code of a load takes the fast path for direct accesses. -/
theorem performs_load {op : LoadOp} {e e' : Emitter} {m : Machine Cpu} (links : Links)
    (hk : i.kind = .load op) (hx : Emit.load cfg s op i e = .ok () e') (hp : e'.Precedes W.emitter)
    (hat : W.At e.cache.builder m) (hm : Embodies e.cache m g) (hmem : g.mem.Created)
    (hram : cfg.ramSize = UInt32.ofNat g.mem.size)
    (hdev : ∀ p : UInt32, p.toNat < g.mem.size → g.mem.deviceAt? p = none) :
    ∃ ts m', Performs W links s i (Interp.loadSize op) false e' m g ts m' := by
  have heffect : Interp.effect g i s.pc = Interp.execLoad g i op := by
    unfold Interp.effect
    rw [hk]
  have hsizes : Emit.loadSize op = Interp.loadSize op := by cases op <;> rfl
  unfold Emit.load at hx
  rw [hsizes] at hx
  obtain ⟨a, e₁, haccess, hx⟩ := bind_ok hx
  obtain ⟨stub, e₂, hoff, hx⟩ := bind_ok hx
  obtain ⟨_, e₃, hguard, hx⟩ := bind_ok hx
  obtain ⟨_, e₄, hswizzle, hx⟩ := bind_ok hx
  -- After the guard, the fast path ends before the label of the slow path.
  have hfast : e₄.Precedes W.emitter ∧ ∃ e₅, join stub e₅ = .ok () e' ∧ ∀ m₃,
      Direct g.mem (Interp.effective g i) (Interp.loadSize op) false → W.At e₃.cache.builder m₃ →
      Embodies e₃.cache m₃ g → a.Temps e₃.cache →
      m₃.get a.offset = physical (Interp.effective g i) →
      ∃ ts m₄, Completes W links m₃ g e₅ (Interp.execLoad g i op) ts m₄ := by
    cases op with
    | ld =>
      obtain ⟨high, e₅, hhigh, hx⟩ := bind_ok hx
      obtain ⟨low, e₆, hlow, hx⟩ := bind_ok hx
      obtain ⟨_, e₇, hload, hx⟩ := bind_ok hx
      obtain ⟨_, e₈, hload', hx⟩ := bind_ok hx
      have hp₈ := (Grows.precedes hx).trans hp
      have hp₇ := (Grows.precedes hload').trans hp₈
      have hp₆ := (Grows.precedes hload).trans hp₇
      have hp₅ := (Grows.precedes hlow).trans hp₆
      refine ⟨(Grows.precedes hhigh).trans hp₅, e₈, hx, fun m₃ hd hat₃ hm₃ ht₃ hoffset => ?_⟩
      cases hswizzle
      exact completes_double hd hdev hat₃ hm₃ ht₃ hoffset hhigh hlow hload hload' hp₈
    | lb | lh | lw | lbu | lhu | lwu =>
      obtain ⟨d, e₅, hout, hx⟩ := bind_ok hx
      obtain ⟨_, e₆, hload, hx⟩ := bind_ok hx
      have hp₆ := (Grows.precedes hx).trans hp
      have hp₅ := (Grows.precedes hload).trans hp₆
      refine ⟨(Grows.precedes hout).trans hp₅, e₆, hx, fun m₃ hd hat₃ hm₃ ht₃ hoffset => ?_⟩
      exact completes_narrow nofun hd hdev hat₃ hm₃ ht₃ hoffset hswizzle hout hload hp₆
  obtain ⟨hp₄, e₅, hjoin, hfast⟩ := hfast
  have hp₃ := (Grows.precedes hswizzle).trans hp₄
  have hp₁ : e₁.Precedes W.emitter :=
    (Grows.precedes hoff).trans ((Grows.precedes hguard).trans hp₃)
  obtain ⟨m₁, q, ht, hsize, hbase⟩ := hm.access haccess hp₁
  have hreach : W.Reaches links m [] e₁.cache.builder m₁ :=
    .appends hat q.moves.toAppends q.emitted hp₁.builder
  refine performs_of_completes hreach q.embodies ht hsize hbase.get hmem hram hoff hguard hp₃ hjoin ?_
  rw [heffect]
  intro m₃ hd hat₃ hm₃ ht₃ _ _ _ hoffset
  exact hfast m₃ hd hat₃ hm₃ ht₃ hoffset

theorem Ir.Machine.size_evalStore (op : RamStore) (n : Nat) (v : UInt32) (ram : Array UInt32) :
    (evalStore op n v ram).size = ram.size := by
  have hbyte (ram : Array UInt32) (n : Nat) (v : UInt32) : (HostRam.setByte ram n v).size = ram.size :=
    Array.size_setIfInBounds
  have hhalf (ram : Array UInt32) (n : Nat) (v : UInt32) : (HostRam.setHalf ram n v).size = ram.size := by
    rw [HostRam.setHalf, hbyte, hbyte]
  cases op with
  | sb => exact hbyte ram n v
  | sh => exact hhalf ram n v
  | sw =>
    change (HostRam.setWord ram n v).size = _
    unfold HostRam.setWord
    split
    · exact Array.size_setIfInBounds
    · rw [hhalf, hhalf]

def Size.ramStore : Size → RamStore
  | .byte => .sb
  | .half => .sh
  | .word | .double => .sw

theorem Memory.writeRam_evalStore {mem : Memory} {p : UInt32} {size : Size} (h : mem.Holds p size)
    (hs : size ≠ .double) (v : UInt64) :
    { mem with ram := Machine.evalStore size.ramStore (place p size).toNat (lowWord v) mem.ram } =
      mem.writeRam p size v := by
  cases size with
  | byte => exact setByte_place h v
  | half => exact setHalf_place h v
  | word => exact (writeRam_word h v).symm
  | double => exact absurd rfl hs

theorem execStore_of_direct {size : Size} (hd : Direct g.mem (Interp.effective g i) size true)
    (hdev : ∀ p : UInt32, p.toNat < g.mem.size → g.mem.deviceAt? p = none) :
    Interp.execStore g i size =
      { g with mem := g.mem.writeRam (physical (Interp.effective g i)) size (g.reg i.rt) } := by
  rw [Interp.execStore, hd.store_eq hdev]

theorem Embodies.storeWord {op : RamStore} {a : Access} {off : Int} {x : HostReg} {e e' : Emitter}
    {m : Machine Cpu} (links : Links) (h : Embodies e.cache m g) (hat : W.At e.cache.builder m)
    {ram : Array UInt32}
    (hram : ram = Machine.evalStore op (m.address a.offset off) (m.get x) g.mem.ram)
    (hx : Emit.storeWord op a off x e = .ok () e') (hp : e'.Precedes W.emitter) :
    ∃ m', W.Reaches links m [.ram ((m.get a.offset).toNat + off) op.bytes] e'.cache.builder m' ∧
      Embodies e'.cache m' (g.withRam ram) ∧ (∀ y, m'.get y = m.get y) := by
  subst hram
  refine ⟨_, .emit links rfl hx hp hat, ?_, fun _ => rfl⟩
  cases hx
  refine (h.withRam (Machine.size_evalStore _ _ _ _) ?_ ?_ ?_).congr rfl rfl (fun _ => rfl) rfl rfl
  · exact fun _ => rfl
  · rfl
  · rw [← h.mem_eq]
    rfl

/-- A store takes the fast path for direct accesses, with the operands that it had before. -/
theorem performs_stored {size : Size} {a : Access} {stub : Stub} {e e₁ e₂ e₃ e₄ e₅ e' : Emitter}
    {m m₀ : Machine Cpu} (hm₀ : W.Reaches links m₀ [] e.cache.builder m) (hm : Embodies e.cache m g)
    (haccess : access size i e = .ok a e₁) (hoff : branchOff s i a.addr e₁ = .ok stub e₂)
    (hguard : guard cfg i a (Stub.entryLabel stub.id) true e₂ = .ok () e₃)
    (hswizzle : swizzle size a e₃ = .ok () e₄) (hp : e₄.Precedes W.emitter)
    (hjoin : join stub e₅ = .ok () e') (hk : i.kind = .store size) (hmem : g.mem.Created)
    (hram : cfg.ramSize = UInt32.ofNat g.mem.size)
    (hbody : ∀ m₄, Direct g.mem (Interp.effective g i) size true → W.At e₄.cache.builder m₄ →
      Embodies e₄.cache m₄ g →
      m₄.get a.offset = Memory.place (physical (Interp.effective g i)) size →
      (∀ x k v, Reads e.cache m x k v → k ≠ .temp → m₄.get x = v) →
      ∃ ts m₅, Completes W links m₄ g e₅ (Interp.execStore g i size) ts m₅) :
    ∃ ts m', Performs W links s i size true e' m₀ g ts m' := by
  have heffect : Interp.effect g i s.pc = Interp.execStore g i size := by
    unfold Interp.effect
    rw [hk]
  have hp₃ := (Grows.precedes hswizzle).trans hp
  have hp₁ : e₁.Precedes W.emitter :=
    (Grows.precedes hoff).trans ((Grows.precedes hguard).trans hp₃)
  obtain ⟨m₁, q, ht, hsize, hbase⟩ := hm.access haccess hp₁
  have hreach : W.Reaches links m [] e₁.cache.builder m₁ :=
    .appends hm₀.place q.moves.toAppends q.emitted hp₁.builder
  refine performs_of_completes (hm₀.trans hreach) q.embodies ht hsize hbase.get hmem hram hoff hguard
    hp₃ hjoin ?_
  rw [heffect]
  intro m₃ hd hat₃ hm₃ ht₃ hdiff _ _ hoffset
  obtain ⟨m₄, hreach₄, hm₄, -, hdiff', hplace⟩ :=
    hm₃.swizzle links hswizzle ht₃ hat₃ hp.builder hoffset
  have hreads (x : HostReg) (k : Content) (v : UInt32) (hx : Reads e.cache m x k v)
      (hk : k ≠ .temp) : m₄.get x = v := by
    have hx₁ := q.stable.reads hx
    have haddr := ht.addr.ne_of_reads hx₁ hk
    have hoff := ht.offset.ne_of_reads hx₁ hk
    have hscratch := ht.scratch.ne_of_reads hx₁ hk
    rw [hdiff'.others x haddr hoff hscratch, hdiff.others x haddr hoff hscratch]
    exact hx₁.get
  obtain ⟨ts, m₅, hdone, hinside, hisRam, heffect'⟩ := hbody m₄ hd hreach₄.place hm₄ hplace hreads
  exact ⟨ts, m₅, hreach₄.trans hdone, hinside, hisRam, heffect'⟩

/-- The code of a store takes the fast path for direct accesses. -/
theorem performs_store {size : Size} {e e' : Emitter} {m : Machine Cpu} (links : Links)
    (hk : i.kind = .store size) (hx : Emit.store cfg s size i e = .ok () e')
    (hp : e'.Precedes W.emitter) (hat : W.At e.cache.builder m) (hm : Embodies e.cache m g)
    (hmem : g.mem.Created) (hram : cfg.ramSize = UInt32.ofNat g.mem.size)
    (hdev : ∀ p : UInt32, p.toNat < g.mem.size → g.mem.deviceAt? p = none) :
    ∃ ts m', Performs W links s i size true e' m g ts m' := by
  unfold Emit.store at hx
  dsimp only at hx
  by_cases hs : size = .double
  · subst hs
    rw [if_pos rfl] at hx
    obtain ⟨high, e₁, hhigh, hx⟩ := bind_ok hx
    obtain ⟨low, e₂, hlow, hx⟩ := bind_ok hx
    obtain ⟨a, e₃, haccess, hx⟩ := bind_ok hx
    obtain ⟨stub, e₄, hoff, hx⟩ := bind_ok hx
    obtain ⟨_, e₅, hguard, hx⟩ := bind_ok hx
    obtain ⟨_, e₆, hswizzle, hx⟩ := bind_ok hx
    obtain ⟨_, e₇, hstore, hx⟩ := bind_ok hx
    obtain ⟨_, e₈, hstore', hjoin⟩ := bind_ok hx
    have hp₈ := (Grows.precedes hjoin).trans hp
    have hp₇ := (Grows.precedes hstore').trans hp₈
    have hp₆ := (Grows.precedes hstore).trans hp₇
    have hp₅ := (Grows.precedes hswizzle).trans hp₆
    have hp₃ := (Grows.precedes hoff).trans ((Grows.precedes hguard).trans hp₅)
    have hp₂ : e₂.Precedes W.emitter := (Grows.precedes haccess).trans hp₃
    have hp₁ : e₁.Precedes W.emitter := (Grows.precedes hlow).trans hp₂
    obtain ⟨m₁, q₁, hr₁⟩ :=
      hm.allocInHigh (onCache_run hhigh).1 (Finished.fits_of_precedes hp₁.builder)
    obtain ⟨m₂, q₂, hr₂⟩ :=
      q₁.embodies.allocInLow (onCache_run hlow).1 (Finished.fits_of_precedes hp₂.builder)
    have q := q₁.trans q₂
    have hreach : W.Reaches links m [] e₂.cache.builder m₂ :=
      .appends hat q.moves.toAppends q.emitted hp₂.builder
    refine performs_stored hreach q.embodies haccess hoff hguard hswizzle hp₆ hjoin hk hmem hram ?_
    intro m₆ hd hat₆ hm₆ hplace hreads
    have hhighword := hreads high _ _ (q₂.stable.reads hr₁) nofun
    have hlowword := hreads low _ _ hr₂ nofun
    rw [rt, Cpu.guest_ofReg] at hhighword hlowword
    change m₆.get a.offset = physical (Interp.effective g i) at hplace
    have hfirst : HostRam.setWord g.mem.ram (physical (Interp.effective g i)).toNat
        (highWord (g.reg i.rt)) =
          Machine.evalStore .sw (m₆.address a.offset 0) (m₆.get high) g.mem.ram := by
      rw [m₆.address_zero, hplace, hhighword]
      rfl
    obtain ⟨m₇, hreach₇, hm₇, hget₇⟩ := hm₆.storeWord links hat₆ hfirst hstore hp₇
    have hsecond : HostRam.setWord (HostRam.setWord g.mem.ram (physical
        (Interp.effective g i)).toNat (highWord (g.reg i.rt)))
        ((physical (Interp.effective g i)).toNat + 4) (lowWord (g.reg i.rt)) =
          Machine.evalStore .sw (m₇.address a.offset 4) (m₇.get low) (g.withRam (HostRam.setWord
            g.mem.ram (physical (Interp.effective g i)).toNat (highWord (g.reg i.rt)))).mem.ram := by
      rw [Machine.address, hget₇, hget₇, hplace, hlowword]
      rfl
    obtain ⟨m₈, hreach₈, hm₈, -⟩ := hm₇.storeWord links hreach₇.place hsecond hstore' hp₈
    refine ⟨_, m₈, hreach₇.trans hreach₈, ?_, ⟨_, List.mem_cons_self, rfl⟩, ?_⟩
    · have hfits := hd.fits
      intro t htouch
      rcases List.mem_cons.mp htouch with rfl | h
      · rw [hplace]
        refine Touch.inside_ram (Int.le_refl 0) (Nat.le_trans ?_ hfits)
        exact Nat.add_le_add_left (by decide) _
      · obtain rfl := List.mem_singleton.mp h
        rw [hget₇, hplace]
        exact Touch.inside_ram (by decide) hfits
    · rw [execStore_of_direct hd hdev, Memory.writeRam_double hd.holds]
      exact hm₈
  · rw [if_neg hs] at hx
    obtain ⟨high, e₁, hhigh, hx⟩ := bind_ok hx
    obtain ⟨low, e₂, hlow, hx⟩ := bind_ok hx
    obtain ⟨a, e₃, haccess, hx⟩ := bind_ok hx
    obtain ⟨stub, e₄, hoff, hx⟩ := bind_ok hx
    obtain ⟨_, e₅, hguard, hx⟩ := bind_ok hx
    obtain ⟨_, e₆, hswizzle, htail⟩ := bind_ok hx
    cases hhigh
    have hstore : ∃ e₇, storeWord size.ramStore a 0 low e₆ = .ok () e₇ ∧ join stub e₇ = .ok () e' := by
      cases size with
      | byte | half | word =>
        obtain ⟨_, e₇, hstore, hjoin⟩ := bind_ok htail
        exact ⟨e₇, hstore, hjoin⟩
      | double => exact absurd rfl hs
    obtain ⟨e₇, hstore, hjoin⟩ := hstore
    have hp₇ := (Grows.precedes hjoin).trans hp
    have hp₆ := (Grows.precedes hstore).trans hp₇
    have hp₅ := (Grows.precedes hswizzle).trans hp₆
    have hp₃ := (Grows.precedes hoff).trans ((Grows.precedes hguard).trans hp₅)
    have hp₂ : e₂.Precedes W.emitter := (Grows.precedes haccess).trans hp₃
    obtain ⟨m₂, q, hr⟩ :=
      hm.allocInLow (onCache_run hlow).1 (Finished.fits_of_precedes hp₂.builder)
    have hreach : W.Reaches links m [] e₂.cache.builder m₂ :=
      .appends hat q.moves.toAppends q.emitted hp₂.builder
    refine performs_stored hreach q.embodies haccess hoff hguard hswizzle hp₆ hjoin hk hmem hram ?_
    intro m₆ hd hat₆ hm₆ hplace hreads
    have hword := hreads low _ _ hr nofun
    rw [rt, Cpu.guest_ofReg] at hword
    have hwritten : Machine.evalStore size.ramStore (Memory.place (physical (Interp.effective g i))
        size).toNat (lowWord (g.reg i.rt)) g.mem.ram =
          Machine.evalStore size.ramStore (m₆.address a.offset 0) (m₆.get low) g.mem.ram := by
      rw [m₆.address_zero, hplace, hword]
    obtain ⟨m₇, hreach₇, hm₇, -⟩ := hm₆.storeWord links hat₆ hwritten hstore hp₇
    refine ⟨_, m₇, hreach₇, ?_, ⟨_, List.mem_singleton_self _, rfl⟩, ?_⟩
    · intro t htouch
      obtain rfl := List.mem_singleton.mp htouch
      have hle := hd.holds.place_le
      have hbytes : size.bytes.toNat = size.ramStore.bytes := by
        cases size <;> first | rfl | exact absurd rfl hs
      rw [hbytes] at hle
      rw [hplace]
      exact Touch.inside_ram (Int.le_refl 0) hle
    · rw [execStore_of_direct hd hdev, ← Memory.writeRam_evalStore hd.holds hs]
      exact hm₇

end Recompiler
