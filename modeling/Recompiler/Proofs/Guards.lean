import Recompiler.Proofs.RamAccess
import Recompiler.Proofs.Walks

/-!
The guard of an inline access. It takes the effective address apart with wrapping tests on words,
and lets exactly those accesses pass that are aligned, lie in RAM and do not write to code.
-/

namespace Recompiler

open Ir Emit

theorem Cpu.guest_ofReg (c : Cpu) (r : Reg) : c.guest (.ofReg r) = c.reg r := dif_pos r.isLt

theorem Cpu.setGuest_ofReg (c : Cpu) (r : Reg) (v : UInt64) : c.setGuest (.ofReg r) v = c.setReg r v :=
  dif_pos r.isLt

def IsTemp (c : HostCache) (x : HostReg) : Prop :=
  ∃ r, x = .ofSlot r ∧ (c.slot r).content = .temp ∧ (c.slot r).isConst = false

namespace IsTemp

variable {c c' : HostCache} {m m' : Machine Cpu} {x y : HostReg}

theorem get_set (h : IsTemp c x) (m : Machine Cpu) (v : UInt32) : (m.set x v).get x = v := by
  obtain ⟨r, rfl, -, -⟩ := h
  exact m.get_set_self r v

theorem stable (h : IsTemp c x) (hs : Stable c m c' m') : IsTemp c' x ∧ m'.get x = m.get x := by
  obtain ⟨r, rfl, ht, hk⟩ := h
  have hp : (c.slot r).Pinned := ⟨by rw [ht]; nofun, .inr ht⟩
  refine ⟨⟨r, rfl, ?_, hs.const r hp hk⟩, hs.regs r hp⟩
  have hbase := (hs.kept r hp).2
  rw [ht] at hbase
  generalize (c'.slot r).content = content at hbase
  cases content <;> first | rfl | cases hbase

theorem ne_ofSlot (h : IsTemp c x) {r : Fin 9}
    (hr : (c.slot r).content ≠ .temp ∨ (c.slot r).isConst = true) : HostReg.ofSlot r ≠ x := by
  obtain ⟨r', rfl, ht, hk⟩ := h
  intro he
  cases Machine.ofSlot_inj he
  rcases hr with hr | hr
  · exact hr ht
  · rw [hk] at hr
    cases hr

theorem ne_of_reads (h : IsTemp c x) {k : Content} {v : UInt32} (hy : Reads c m y k v)
    (hk : k ≠ .temp) : y ≠ x := by
  obtain ⟨r, rfl, ht, -⟩ := h
  exact hy.ne (.inr (by rw [ht]; exact Ne.symm hk))

end IsTemp

/-- Only temporaries have changed. -/
theorem Embodies.of_temps {c : HostCache} {m m' : Machine Cpu} {g : Cpu} (h : Embodies c m g)
    (hregs : ∀ r, (c.slot r).content ≠ .temp ∨ (c.slot r).isConst = true →
      m'.get (.ofSlot r) = m.get (.ofSlot r))
    (hfregs : m'.fregs = m.fregs) (hctx : m'.ctx = m.ctx) : Embodies c m' g := by
  obtain ⟨g₀, ha, hf⟩ := h.layers
  refine of_agrees_self hf ?_ rfl hfregs h.clear
  constructor
  · intro r p hp
    by_cases ht : (c.slot r).content = .temp
    · have hp' : p ∈ Content.words (m'.get (.ofSlot r)) (c.slot r).content := hp
      rw [ht] at hp'
      cases hp'
    · rw [hregs r (.inl ht)] at hp
      exact ha.held r p hp
  · intro r hr
    rw [hregs r (.inr hr)]
    exact ha.const r hr
  · exact ha.apart
  · exact ha.valid
  · exact ha.writable
  · rw [hctx]
    exact ha.synced
  · rw [hctx]
    exact ha.rest
  · exact ha.zero
  · exact ha.fp

namespace Equips

variable {c c' c'' : HostCache} {m m' m'' : Machine Cpu} {g g' : Cpu}

theorem trans (h : Equips c m c' m' g) (h' : Equips c' m' c'' m'' g') : Equips c m c'' m'' g' :=
  ⟨h.emitted.trans h'.emitted, h.moves.trans h'.moves, h'.embodies, h.stable.trans h'.stable⟩

end Equips

theorem Emit.onCache_run {α : Type} {f : CacheM α} {a : α} {e e' : Emitter}
    (h : onCache f e = .ok a e') : f e.cache = .ok a e'.cache ∧ e' = { e with cache := e'.cache } := by
  obtain ⟨c, hc, rfl⟩ := onCache_ok h
  exact ⟨hc, rfl⟩

namespace Emit.Access

/-- The registers that the guard works with. -/
structure Temps (c : HostCache) (a : Access) : Prop where
  addr : IsTemp c a.addr
  offset : IsTemp c a.offset
  scratch : IsTemp c a.scratch
  addr_offset : a.addr ≠ a.offset
  addr_scratch : a.addr ≠ a.scratch
  offset_scratch : a.offset ≠ a.scratch

theorem Temps.stable {c c' : HostCache} {m m' : Machine Cpu} {a : Access} (h : a.Temps c)
    (hs : Stable c m c' m') : a.Temps c' :=
  ⟨(h.addr.stable hs).1, (h.offset.stable hs).1, (h.scratch.stable hs).1, h.addr_offset,
    h.addr_scratch, h.offset_scratch⟩

theorem Temps.of_slots {c c' : HostCache} {a : Access} (h : a.Temps c)
    (hs : ∀ r, c'.slot r = c.slot r) : a.Temps c' := by
  have htemp {x : HostReg} (hx : IsTemp c x) : IsTemp c' x := by
    obtain ⟨r, rfl, ht, hk⟩ := hx
    exact ⟨r, rfl, hs r ▸ ht, hs r ▸ hk⟩
  exact ⟨htemp h.addr, htemp h.offset, htemp h.scratch, h.addr_offset, h.addr_scratch,
    h.offset_scratch⟩

end Emit.Access

namespace Embodies

variable {W : Finished} {e e' : Emitter} {m : Machine Cpu} {g : Cpu} {x : HostReg}

theorem temp (h : Embodies e.cache m g) (hx : Emit.temp e = .ok x e')
    (hp : e'.Precedes W.emitter) : ∃ m', Equips e.cache m e'.cache m' g ∧ IsTemp e'.cache x ∧
      ∀ y, IsTemp e.cache y → y ≠ x := by
  obtain ⟨r, m', rfl, hpin, ht, hk, he⟩ :=
    h.allocTemp (onCache_run hx).1 (Finished.fits_of_precedes hp.builder)
  refine ⟨m', he, ⟨r, rfl, ht, hk⟩, ?_⟩
  rintro _ ⟨r', rfl, ht', -⟩ heq
  cases Machine.ofSlot_inj heq
  exact hpin ⟨by rw [ht']; nofun, .inr ht'⟩

theorem access {i : Recompiler.Instr} {size : Size} {a : Access} (h : Embodies e.cache m g)
    (hx : Emit.access size i e = .ok a e') (hp : e'.Precedes W.emitter) :
    ∃ m', Equips e.cache m e'.cache m' g ∧ a.Temps e'.cache ∧ a.size = size.bytes ∧
      Reads e'.cache m' a.base (.low (rs i) none) (lowWord (g.reg i.rs)) := by
  unfold Emit.access at hx
  obtain ⟨base, e₁, h₁, hx⟩ := bind_ok hx
  obtain ⟨addr, e₂, h₂, hx⟩ := bind_ok hx
  obtain ⟨offset, e₃, h₃, hx⟩ := bind_ok hx
  obtain ⟨scratch, e₄, h₄, hx⟩ := bind_ok hx
  cases hx
  have hp₃ := (Grows.precedes h₄).trans hp
  have hp₂ := (Grows.precedes h₃).trans hp₃
  have hp₁ := (Grows.precedes h₂).trans hp₂
  obtain ⟨m₁, q₁, hr⟩ :=
    h.allocInLow (onCache_run h₁).1 (Finished.fits_of_precedes hp₁.builder)
  obtain ⟨m₂, q₂, t₂, -⟩ := q₁.embodies.temp h₂ hp₂
  obtain ⟨m₃, q₃, t₃, n₃⟩ := q₂.embodies.temp h₃ hp₃
  obtain ⟨m₄, q₄, t₄, n₄⟩ := q₃.embodies.temp h₄ hp
  have t₂' := (t₂.stable q₃.stable).1
  refine ⟨m₄, ((q₁.trans q₂).trans q₃).trans q₄, ?_, ?_, ?_⟩
  · exact ⟨(t₂'.stable q₄.stable).1, (t₃.stable q₄.stable).1, t₄, n₃ _ t₂, n₄ _ t₂', n₄ _ t₃⟩
  · cases size <;> rfl
  · rw [← g.guest_ofReg]
    exact q₄.stable.reads (q₃.stable.reads (q₂.stable.reads hr))

end Embodies

namespace Emit.Access

/-- Only registers of the access have changed. -/
structure Differs (a : Access) (m m' : Machine Cpu) : Prop where
  program : m'.program = m.program
  ctx : m'.ctx = m.ctx
  fregs : m'.fregs = m.fregs
  others : ∀ x, x ≠ a.addr → x ≠ a.offset → x ≠ a.scratch → m'.get x = m.get x

namespace Differs

variable {a : Access} {m m' : Machine Cpu}

theorem refl (a : Access) (m : Machine Cpu) : a.Differs m m := ⟨rfl, rfl, rfl, fun _ _ _ _ => rfl⟩

theorem set (h : a.Differs m m') {x : HostReg} (hx : x = a.addr ∨ x = a.offset ∨ x = a.scratch)
    (v : UInt32) : a.Differs m (m'.set x v).next := by
  refine ⟨(m'.program_set x v).trans h.program, (m'.ctx_set x v).trans h.ctx,
    (Embodies.fregs_set m' x v).trans h.fregs, fun y ha ho hs => ?_⟩
  rw [Machine.get_next, Machine.get_set_of_ne, h.others y ha ho hs]
  rintro rfl
  rcases hx with rfl | rfl | rfl
  · exact ha rfl
  · exact ho rfl
  · exact hs rfl

theorem jump (h : a.Differs m m') (pc : Nat) : a.Differs m { m' with pc } :=
  ⟨h.program, h.ctx, h.fregs, h.others⟩

theorem embodies (h : a.Differs m m') {c : HostCache} {g : Cpu} (ht : a.Temps c)
    (hm : Embodies c m g) : Embodies c m' g := by
  refine hm.of_temps (fun r hr => ?_) h.fregs h.ctx
  exact h.others _ (ht.addr.ne_ofSlot hr) (ht.offset.ne_ofSlot hr) (ht.scratch.ne_ofSlot hr)

end Differs

end Emit.Access

namespace Emit

variable (cfg : Config) (i : Recompiler.Instr) (a : Access) (slow : String) (isStore : Bool)

def alignCode : List (Ir.Instr String) :=
  if 1 < a.size then
    [.const .and a.offset (a.size - 1) a.scratch, .branchConst .ne a.scratch 0 slow]
  else []

/-- The test of the code mark. -/
def markCode : List (Ir.Instr String) :=
  if isStore then
    [.const .srl a.offset 12 a.scratch, .ltab Layout.codePages a.scratch a.scratch,
      .branchConst .ne a.scratch 0 slow]
  else []

def boundCode : List (Ir.Instr String) :=
  .branchConst .geu a.offset (cfg.ramSize - a.size + 1) slow :: markCode a slow isStore

def guardCode : List (Ir.Instr String) :=
  .const .add a.base (simm i) a.addr :: .const .add a.addr 0x80000000 a.offset ::
    .branchConst .geu a.offset 0x40000000 slow :: .const .and a.offset 0x1fffffff a.offset ::
    (alignCode a slow ++ boundCode cfg a slow isStore)

theorem guard_eq (e : Emitter) (h : ¬ cfg.ramSize < a.size) :
    guard cfg i a slow isStore e =
      .ok () { e with cache := e.cache.emitAll (guardCode cfg i a slow isStore) } := by
  unfold guard guardCode alignCode boundCode markCode
  rw [if_neg h]
  by_cases hs : 1 < a.size
  · rw [if_pos hs, if_pos hs]
    cases isStore <;> rfl
  · rw [if_neg hs, if_neg hs]
    cases isStore <;> rfl

end Emit

theorem evalCond_geu (x y : UInt32) : Machine.evalCond .geu x y = decide (y ≤ x) := rfl

theorem bias_le (vaddr : UInt32) :
    0x40000000 ≤ vaddr + 0x80000000 ↔ ¬ (0x80000000 ≤ vaddr ∧ vaddr < 0xc0000000) := by
  simp only [UInt32.le_iff_toNat_le, UInt32.lt_iff_toNat_lt, UInt32.toNat_add, UInt32.reduceToNat]
  have := vaddr.toNat_lt
  omega

theorem and_bias (vaddr : UInt32) : (vaddr + 0x80000000) &&& 0x1fffffff = physical vaddr := by
  rw [← UInt32.toNat_inj, toNat_physical]
  change (physical (vaddr + 0x80000000)).toNat = _
  rw [toNat_physical, UInt32.toNat_add]
  simp only [UInt32.reduceToNat]
  omega

theorem bound_le {mem : Memory} (h : mem.Created) {p : UInt32} (size : Size) :
    UInt32.ofNat mem.size - size.bytes + 1 ≤ p ↔ ¬ p.toNat + size.bytes.toNat ≤ mem.size := by
  obtain ⟨k, hlow, hhigh, hsize, -⟩ := h.pages
  have hbytes : size.bytes.toNat ≤ 8 := by cases size <;> decide
  have hram : (UInt32.ofNat mem.size).toNat = mem.size := UInt32.toNat_ofNat_of_lt' (by
    change mem.size < 4294967296
    omega)
  have hsub : (UInt32.ofNat mem.size - size.bytes).toNat = mem.size - size.bytes.toNat := by
    rw [UInt32.toNat_sub_of_le _ _ (UInt32.le_iff_toNat_le.mpr (by omega)), hram]
  rw [UInt32.le_iff_toNat_le, UInt32.toNat_add, hsub]
  simp only [UInt32.reduceToNat]
  omega

namespace Emit.Access

/-- What has become of an access: it has passed the guard, or control is on its way to the slow
path. -/
structure Settled (a : Access) (mem : Memory) (vaddr : UInt32) (size : Size) (isStore : Bool)
    (slow : String) (ts : List Touch) (m' : Machine Cpu) (o : Option String) : Prop where
  touches : ∀ t ∈ ts, t.Inside mem ∧ t.isRam = false
  addr : m'.get a.addr = vaddr
  outcome : (o = none ∧ Direct mem vaddr size isStore ∧ m'.get a.offset = physical vaddr) ∨
    (o = some slow ∧ ¬ Direct mem vaddr size isStore)

variable {a : Access} {c : HostCache} {m m' : Machine Cpu} {mem : Memory} {vaddr : UInt32}
  {size : Size} (slow : String) (isStore : Bool)

theorem Settled.refused (haddr : m'.get a.addr = vaddr) (hd : ¬ Direct mem vaddr size isStore) :
    a.Settled mem vaddr size isStore slow [] m' (some slow) :=
  ⟨fun _ ht => absurd ht List.not_mem_nil, haddr, .inr ⟨rfl, hd⟩⟩

/-- The mark of the page is tested for stores only. -/
theorem passes_markCode (ht : a.Temps c) (hmem : m.ctx.mem.Created) (hm : a.Differs m m')
    (haddr : m'.get a.addr = vaddr) (hoffset : m'.get a.offset = physical vaddr)
    (hd : Direct m.ctx.mem vaddr size false) : ∃ ts n o,
      Passes (markCode a slow isStore) m' ts n o ∧ a.Differs m n ∧
        a.Settled m.ctx.mem vaddr size isStore slow ts n o := by
  cases isStore with
  | false =>
    refine ⟨[], m', none, .nil m', hm, fun _ ht => absurd ht List.not_mem_nil, haddr, .inl ?_⟩
    exact ⟨rfl, hd, hoffset⟩
  | true =>
    let m₁ := (m'.set a.scratch (m'.get a.offset >>> 12)).next
    let m₂ := (m₁.set a.scratch
      (if m₁.ctx.mem.codePages.getD (m₁.get a.scratch).toNat false then 1 else 0 : UInt8).toUInt32).next
    have hpage : m₁.get a.scratch = physical vaddr >>> 12 := by
      rw [← hoffset]
      exact ht.scratch.get_set m' _
    have hctx : m₁.ctx = m.ctx := (m'.ctx_set _ _).trans hm.ctx
    have hmark : m₂.get a.scratch =
        (if m.ctx.mem.isCode (physical vaddr) then 1 else 0 : UInt8).toUInt32 := by
      rw [Memory.isCode, ← hpage, ← hctx]
      exact ht.scratch.get_set m₁ _
    have hkeep (x : HostReg) (hx : a.scratch ≠ x) : m₂.get x = m'.get x := by
      rw [Machine.get_next, Machine.get_set_of_ne _ _ hx, Machine.get_next,
        Machine.get_set_of_ne _ _ hx]
    have hdiff : a.Differs m m₂ := (hm.set (.inr (.inr rfl)) _).set (.inr (.inr rfl)) _
    -- The page lies in RAM, so it has a mark.
    have hinside : (Touch.mark (m₁.get a.scratch).toNat).Inside m.ctx.mem := by
      obtain ⟨k, -, -, hsize, hmarks⟩ := hmem.pages
      have hfits := hd.fits
      have hpos : 0 < size.bytes.toNat := by cases size <;> decide
      change (m₁.get a.scratch).toNat < m.ctx.mem.codePages.size
      rw [hpage, hmarks, UInt32.toNat_shiftRight, show (12 : UInt32).toNat % 32 = 12 from rfl,
        Nat.shiftRight_eq_div_pow]
      omega
    have htouches : ∀ t ∈ [Touch.mark (m₁.get a.scratch).toNat],
        t.Inside m.ctx.mem ∧ t.isRam = false := by
      intro t ht
      obtain rfl := List.mem_singleton.mp ht
      exact ⟨hinside, rfl⟩
    cases hcode : m.ctx.mem.isCode (physical vaddr) with
    | true =>
      rw [hcode] at hmark
      have hcond : Machine.evalCond .ne (m₂.get a.scratch) 0 = true := by
        rw [hmark]
        rfl
      refine ⟨_, m₂, some slow, .plain rfl (.plain rfl (.taken hcond)), hdiff, htouches,
        (hkeep _ ht.addr_scratch.symm).trans haddr, .inr ⟨rfl, fun h => ?_⟩⟩
      have hclear := h.unmarked rfl
      rw [hcode] at hclear
      cases hclear
    | false =>
      rw [hcode] at hmark
      have hcond : Machine.evalCond .ne (m₂.get a.scratch) 0 = false := by
        rw [hmark]
        rfl
      refine ⟨_, m₂.next, none, .plain rfl (.plain rfl (.passed hcond (.nil _))), hdiff.jump _,
        htouches, (hkeep _ ht.addr_scratch.symm).trans haddr, .inl ⟨rfl, ?_, ?_⟩⟩
      · exact ⟨hd.low, hd.high, hd.aligned, hd.fits, fun _ => hcode⟩
      · exact (hkeep _ ht.offset_scratch.symm).trans hoffset

theorem passes_boundCode {cfg : Config} (ht : a.Temps c) (hmem : m.ctx.mem.Created)
    (hram : cfg.ramSize = UInt32.ofNat m.ctx.mem.size) (hsize : a.size = size.bytes)
    (hm : a.Differs m m') (haddr : m'.get a.addr = vaddr)
    (hoffset : m'.get a.offset = physical vaddr) (hlow : 0x80000000 ≤ vaddr)
    (hhigh : vaddr < 0xc0000000) (haligned : vaddr.toNat % size.bytes.toNat = 0) : ∃ ts n o,
      Passes (boundCode cfg a slow isStore) m' ts n o ∧ a.Differs m n ∧
        a.Settled m.ctx.mem vaddr size isStore slow ts n o := by
  have hcond : Machine.evalCond .geu (m'.get a.offset) (cfg.ramSize - a.size + 1) =
      decide (¬ (physical vaddr).toNat + size.bytes.toNat ≤ m.ctx.mem.size) := by
    rw [hoffset, hram, hsize, evalCond_geu, decide_eq_decide]
    exact bound_le hmem size
  by_cases hfits : (physical vaddr).toNat + size.bytes.toNat ≤ m.ctx.mem.size
  · obtain ⟨ts, n, o, hn, hdiff, hsettled⟩ := passes_markCode slow isStore ht hmem (hm.jump (m'.pc + 1)) haddr hoffset ⟨hlow, hhigh, haligned, hfits, nofun⟩
    rw [decide_eq_false (not_not_intro hfits)] at hcond
    exact ⟨ts, n, o, .passed hcond hn, hdiff, hsettled⟩
  · rw [decide_eq_true hfits] at hcond
    exact ⟨[], m', some slow, .taken hcond, hm, .refused slow isStore haddr fun h => hfits h.fits⟩

/-- Bytes need no test of the alignment. -/
theorem passes_alignCode {cfg : Config} (ht : a.Temps c) (hmem : m.ctx.mem.Created)
    (hram : cfg.ramSize = UInt32.ofNat m.ctx.mem.size) (hsize : a.size = size.bytes)
    (hm : a.Differs m m') (haddr : m'.get a.addr = vaddr)
    (hoffset : m'.get a.offset = physical vaddr) (hlow : 0x80000000 ≤ vaddr)
    (hhigh : vaddr < 0xc0000000) : ∃ ts n o,
      Passes (alignCode a slow ++ boundCode cfg a slow isStore) m' ts n o ∧ a.Differs m n ∧
        a.Settled m.ctx.mem vaddr size isStore slow ts n o := by
  unfold alignCode
  split
  · let m₁ := (m'.set a.scratch (m'.get a.offset &&& (a.size - 1))).next
    have hkeep (x : HostReg) (hx : a.scratch ≠ x) : m₁.get x = m'.get x :=
      Machine.get_set_of_ne _ _ hx
    have hlast : m₁.get a.scratch = physical vaddr &&& (size.bytes - 1) := by
      rw [← hoffset, ← hsize]
      exact ht.scratch.get_set m' _
    have hmod := and_bytes (physical vaddr) size
    rw [physical_mod_bytes] at hmod
    have hdiff : a.Differs m m₁ := hm.set (.inr (.inr rfl)) _
    have haddr₁ := (hkeep _ ht.addr_scratch.symm).trans haddr
    by_cases haligned : vaddr.toNat % size.bytes.toNat = 0
    · have hcond : Machine.evalCond .ne (m₁.get a.scratch) 0 = false := by
        rw [hlast, hmod.mpr haligned]
        rfl
      obtain ⟨ts, n, o, hn, hdiff', hsettled⟩ := passes_boundCode slow isStore ht
        hmem hram hsize (hdiff.jump (m₁.pc + 1)) haddr₁
        ((hkeep _ ht.offset_scratch.symm).trans hoffset) hlow hhigh haligned
      exact ⟨ts, n, o, .plain rfl (.passed hcond hn), hdiff', hsettled⟩
    · have hcond : Machine.evalCond .ne (m₁.get a.scratch) 0 = true := by
        rw [hlast]
        exact bne_iff_ne.mpr fun h => haligned (hmod.mp h)
      exact ⟨[], m₁, some slow, .plain rfl (.taken hcond), hdiff,
        .refused slow isStore haddr₁ fun h => haligned h.aligned⟩
  · rename_i hone
    have hbytes : size.bytes.toNat = 1 := by
      rw [hsize] at hone
      cases size <;> first | rfl | exact absurd (by decide) hone
    exact passes_boundCode slow isStore ht hmem hram hsize hm haddr hoffset hlow hhigh (by rw [hbytes]; omega)

/-- The guard lets exactly the accesses pass that the fast path is for. -/
theorem passes_guardCode {cfg : Config} {i : Recompiler.Instr} (ht : a.Temps c)
    (hmem : m.ctx.mem.Created) (hram : cfg.ramSize = UInt32.ofNat m.ctx.mem.size)
    (hsize : a.size = size.bytes) (hbase : m.get a.base + simm i = vaddr) : ∃ ts n o,
      Passes (guardCode cfg i a slow isStore) m ts n o ∧ a.Differs m n ∧
        a.Settled m.ctx.mem vaddr size isStore slow ts n o := by
  let m₁ := (m.set a.addr (m.get a.base + simm i)).next
  let m₂ := (m₁.set a.offset (m₁.get a.addr + 0x80000000)).next
  let m₃ := (m₂.next.set a.offset (m₂.next.get a.offset &&& 0x1fffffff)).next
  have haddr₁ : m₁.get a.addr = vaddr := (ht.addr.get_set m _).trans hbase
  have haddr₂ : m₂.get a.addr = vaddr :=
    (Machine.get_set_of_ne m₁ _ ht.addr_offset.symm).trans haddr₁
  have hbias : m₂.get a.offset = vaddr + 0x80000000 := by
    rw [← haddr₁]
    exact ht.offset.get_set m₁ _
  have hdiff : a.Differs m m₂ := ((Differs.refl a m).set (.inl rfl) _).set (.inr (.inl rfl)) _
  have hcond : Machine.evalCond .geu (m₂.get a.offset) 0x40000000 =
      decide (¬ (0x80000000 ≤ vaddr ∧ vaddr < 0xc0000000)) := by
    rw [hbias]
    rw [evalCond_geu, decide_eq_decide]
    exact bias_le vaddr
  by_cases hrange : 0x80000000 ≤ vaddr ∧ vaddr < 0xc0000000
  · rw [decide_eq_false (not_not_intro hrange)] at hcond
    have haddr₃ : m₃.get a.addr = vaddr :=
      (Machine.get_set_of_ne m₂.next _ ht.addr_offset.symm).trans haddr₂
    have hoffset : m₃.get a.offset = physical vaddr := by
      rw [← and_bias, ← hbias]
      exact ht.offset.get_set m₂.next _
    obtain ⟨ts, n, o, hn, hdiff', hsettled⟩ := passes_alignCode slow isStore ht hmem hram hsize
      ((hdiff.jump (m₂.pc + 1)).set (.inr (.inl rfl)) (m₂.next.get a.offset &&& 0x1fffffff)) haddr₃
      hoffset hrange.1 hrange.2
    exact ⟨ts, n, o, .plain rfl (.plain rfl (.passed hcond (.plain rfl hn))), hdiff', hsettled⟩
  · rw [decide_eq_true hrange] at hcond
    exact ⟨[], m₂, some slow, .plain rfl (.plain rfl (.taken hcond)), hdiff,
      .refused slow isStore haddr₂ fun h => hrange ⟨h.low, h.high⟩⟩

end Emit.Access

end Recompiler
