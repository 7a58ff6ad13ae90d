import Recompiler.Proofs.Releases
import Recompiler.Proofs.Requests
import Recompiler.Proofs.StraightCode

/-!
Sessions with the register assignment. A client opens and closes scopes, asks for values to read
and for registers to write, and adds code that computes with them. Next to the program that
emerges stands the state of the guest as if each write had gone to the context at once: the
registers for reading hold its values, and the program leaves it in the context.
-/

namespace Recompiler

open Ir

/-- A register that was given for reading. -/
structure View where
  reg : HostReg
  source : Source

/-- A register that was given for writing. -/
structure Pen where
  reg : HostReg
  content : Content
  written : Bool

namespace HostCache

/-- Is the register one that holds something, or none of the assignment? -/
def inUse (c : HostCache) (x : HostReg) : Bool :=
  (slotOf? x).all fun r => (c.slot r).content != .unused

def contentOf (c : HostCache) (x : HostReg) : Content :=
  (slotOf? x).elim .unused fun r => (c.slot r).content

end HostCache

structure Client where
  /-- The machine before the program. -/
  entry : Machine Cpu
  cache : HostCache
  /-- The state of the guest, as if each write had gone to the context at once. -/
  guest : Cpu
  views : List View
  pens : List Pen

inductive ClientOp where
  | startOp
  | endOp
  | read (o : Source)
  | write (d : Dest)
  /-- Adds an instruction that computes registers. -/
  | code (i : Ir.Instr String)
  | setConst (x : HostReg) (v : UInt32)
  | free (x : HostReg)
  | invalidateGuest (g : GuestReg)
  | flushExcept (mask : UInt32)

namespace Client

def create (m : Machine Cpu) : Client := ⟨m, .create .empty, m.ctx, [], []⟩

def machine (s : Client) : Machine Cpu := s.cache.builder.play s.entry

def owed (s : Client) : List Int := (s.pens.filter (!·.written)).flatMap (·.content.offsets)

def regs (s : Client) : List HostReg := .rz :: (s.views.map (·.reg) ++ s.pens.map (·.reg))

/-- Goes on with the registers that are still in use. -/
def keep (s : Client) (c : HostCache) : Client :=
  { s with
    cache := c
    views := s.views.filter fun v => c.inUse v.reg
    pens := s.pens.filter fun p => c.inUse p.reg }

def wordsOf (s : Client) (m : Machine Cpu) (x : HostReg) : List (Int × UInt32) :=
  (s.pens.find? (·.reg == x)).elim [] fun p => p.content.words (m.get x)

/-- Adds an instruction; what it writes goes to the guest. -/
def compute (s : Client) (i : Ir.Instr String) : Client :=
  let c := s.cache.emit i
  let xs := i.results?.getD []
  { s with
    cache := c
    guest := s.guest.storeWords (xs.flatMap (s.wordsOf (c.builder.play s.entry)))
    pens := s.pens.map fun p => { p with written := p.written || xs.contains p.reg } }

/-- A register was given for reading; a high word of its own is no longer written with the low
one. -/
def look (s : Client) (o : Source) (x : HostReg) (c : HostCache) : Client :=
  { s with
    cache := c
    views := ⟨x, o⟩ :: s.views
    pens := s.pens.filter fun p => !o.splits p.content }

/-- A register was given for writing; its words are no longer written with others, and it is no
longer one for a constant. -/
def take (s : Client) (d : Dest) (x : HostReg) (c : HostCache) : Client :=
  let pen := d.content?.toList.map fun k => ⟨x, k, false⟩
  { s with
    cache := c
    views := s.views.filter fun v => !d.drops (s.cache.contentOf v.reg) &&
      !(v.source.content?.isNone && pen.any (·.reg == v.reg))
    pens := pen ++ s.pens.filter fun p => p.content.offsets.all (!d.offsets.contains ·) }

def close (s : Client) (c : HostCache) : Client :=
  if c.depth = 0 then { s with cache := c, views := [], pens := [] } else { s with cache := c }

def step (s : Client) : ClientOp → Except CacheError Client
  | .startOp => .ok { s with cache := s.cache.startOp }
  | .endOp =>
    match HostCache.endOp s.cache with
    | .ok _ c => .ok (s.close c)
    | .error e _ => .error e
  | .read o =>
    match o.alloc s.cache with
    | .ok x c => .ok (s.look o x c)
    | .error e _ => .error e
  | .write d =>
    match d.alloc s.cache with
    | .ok x c => .ok (s.take d x c)
    | .error e _ => .error e
  | .code i => .ok (s.compute i)
  | .setConst x v =>
    .ok { s with cache := s.cache.setConst x v, pens := s.pens.filter (·.reg != x) }
  | .free x => .ok (s.keep (s.cache.free x))
  | .invalidateGuest g => .ok (s.keep (s.cache.invalidateGuest g))
  | .flushExcept mask => .ok (s.keep (s.cache.flushExcept mask))

/-- What a client may do: it does not ask for more registers than there are, computes registers
that it may write, and neither asks for nor gives up words that it has still to write. -/
def Allows (s : Client) : ClientOp → Prop
  | .startOp => True
  | .endOp => 0 < s.cache.depth ∧ (s.cache.depth = 1 → s.owed = [])
  | .read o => o.Valid ∧ o.pins s.cache ≤ 9 ∧ ∀ off ∈ o.offsets, off ∉ s.owed
  | .write d => d.Valid ∧ d.pins s.cache ≤ 9 ∧ ∀ off ∈ d.offsets, off ∉ s.owed
  | .code i => ∃ xs, i.results? = some xs ∧ ∀ x ∈ xs, x = .rz ∨ x ∈ s.pens.map (·.reg)
  | .setConst x v => x ∈ s.regs ∧ s.machine.get x = v ∧
      ∀ p ∈ s.pens, p.reg = x → p.written = true ∨ p.content = .temp
  | .free x => s.owed ⊆ (s.keep (s.cache.free x)).owed
  | .invalidateGuest g => s.owed ⊆ (s.keep (s.cache.invalidateGuest g)).owed
  | .flushExcept mask => s.owed ⊆ (s.keep (s.cache.flushExcept mask)).owed

def run (s : Client) : List ClientOp → Except CacheError Client
  | [] => .ok s
  | op :: ops => s.step op >>= fun s => s.run ops

def Admits (s : Client) : List ClientOp → Prop
  | [] => True
  | op :: ops => s.Allows op ∧ ∀ s', s.step op = .ok s' → Admits s' ops

instance (s : Client) (op : ClientOp) : Decidable (s.Allows op) :=
  match op with
  | .startOp => .isTrue trivial
  | .endOp => inferInstanceAs (Decidable (_ ∧ _))
  | .read _ => inferInstanceAs (Decidable (_ ∧ _))
  | .write _ => inferInstanceAs (Decidable (_ ∧ _))
  | .code i => inferInstanceAs
      (Decidable (∃ xs ∈ i.results?, ∀ x ∈ xs, x = .rz ∨ x ∈ s.pens.map (·.reg)))
  | .setConst _ _ => inferInstanceAs (Decidable (_ ∧ _))
  | .free x => inferInstanceAs (Decidable (∀ off ∈ s.owed, off ∈ (s.keep (s.cache.free x)).owed))
  | .invalidateGuest g =>
    inferInstanceAs (Decidable (∀ off ∈ s.owed, off ∈ (s.keep (s.cache.invalidateGuest g)).owed))
  | .flushExcept mask =>
    inferInstanceAs (Decidable (∀ off ∈ s.owed, off ∈ (s.keep (s.cache.flushExcept mask)).owed))

def decideAdmits (s : Client) : (ops : List ClientOp) → Decidable (s.Admits ops)
  | [] => .isTrue trivial
  | op :: ops =>
    match h : s.step op with
    | .ok s' =>
      have := decideAdmits s' ops
      decidable_of_iff (s.Allows op ∧ s'.Admits ops) (and_congr_right fun _ =>
        ⟨fun ha _ hs => Except.ok.inj (h.symm.trans hs) ▸ ha, fun ha => ha s' h⟩)
    | .error _ =>
      decidable_of_iff (s.Allows op)
        ⟨fun ha => ⟨ha, fun _ hs => nomatch h.symm.trans hs⟩, fun ha => ha.1⟩

instance (s : Client) (ops : List ClientOp) : Decidable (s.Admits ops) := decideAdmits s ops

end Client

namespace Slot.Writing

variable {s s' : Slot} {k : Content}

theorem same (h : s.Writing k) (hp : s'.Pinned) (hs : s.Same s') : s'.Writing k where
  pinned := hp
  content := hs.content.trans h.content
  isConst := hs.isConst.trans h.isConst
  dirty := by
    rw [hs.dirty]
    exact h.dirty

theorem leaves (h : s.Writing k) (hl : s.Leaves s') (hu : s'.content ≠ .unused) : s'.Writing k := by
  obtain ⟨hp, hc⟩ := hl.pinned h.pinned hu
  rcases hl with rfl | ⟨-, -, hconst, hd⟩
  · exact absurd rfl hu
  · refine ⟨hp, hc.trans h.content, hconst.trans h.isConst, ?_⟩
    rcases hd with hd | ht | hk
    · rw [hd]
      exact h.dirty
    · rw [← h.content, ht]
      exact .inr rfl
    · rw [h.isConst] at hk
      cases hk

theorem write {c : HostCache} {m : Machine Cpu} {g : Cpu} {r : Fin 9}
    {k : Content} (hw : (c.slot r).Writing k) (ha : Agrees c m g) (v : UInt32) :
    Agrees c (m.set (.ofSlot r) v) (g.storeWords (k.words v)) := by
  rcases hw.dirty with hd | hk
  · rw [← hw.content]
    exact ha.write v hd hw.isConst
  · have hwords : k.words v = [] := by
      rw [← List.map_eq_nil_iff, Content.map_words, hk]
    rw [hwords]
    exact ha.writeTemp v (by rw [hw.content, hk]) hw.isConst

end Slot.Writing

namespace Client

/-- The registers and the context make up the state `h`, which is the one of the guest but for
words that are still to be written. -/
structure Sound (s : Client) (h : Cpu) : Prop where
  emitted : Emitted .empty s.entry s.cache.builder s.machine
  agrees : Agrees s.cache s.machine h
  words : ∀ off, off ∉ s.owed → h.loadWord off = s.guest.loadWord off
  rest : Cpu.SameRest h s.guest
  pens : ∀ p ∈ s.pens, ∃ r, p.reg = .ofSlot r ∧ (s.cache.slot r).Writing p.content
  views : ∀ v ∈ s.views, v.source.At s.cache v.reg ∧
    s.machine.get v.reg = v.source.value s.guest
  consts : ∀ v ∈ s.views, v.source.content? = none → ∀ p ∈ s.pens, p.reg ≠ v.reg

variable {s : Client} {h : Cpu}

theorem Sound.extend (hs : s.Sound h) {b : Builder} {m : Machine Cpu}
    (he : Emitted s.cache.builder s.machine b m) :
    Emitted .empty s.entry b m ∧ b.play s.entry = m := by
  have hb := hs.emitted.trans he
  exact ⟨hb, (hb.play Builder.straight_empty rfl).2⟩

theorem mem_owed {off : Int} :
    off ∈ s.owed ↔ ∃ p ∈ s.pens, p.written = false ∧ off ∈ p.content.offsets := by
  simp only [owed, List.mem_flatMap, List.mem_filter, Bool.not_eq_true', and_assoc]

/-- Registers are given up. -/
theorem Sound.keep (hs : s.Sound h) {c : HostCache} (hr : Releases s.cache c)
    (hl : ∀ r, (s.cache.slot r).Leaves (c.slot r)) (ho : s.owed ⊆ (s.keep c).owed) :
    (s.keep c).Sound h := by
  obtain ⟨m, he, ha, hget⟩ := hr _ _ hs.agrees
  obtain ⟨hem, hm⟩ := hs.extend he
  have hm : (s.keep c).machine = m := hm
  have hused {r : Fin 9} (hu : c.inUse (.ofSlot r) = true) : (c.slot r).content ≠ .unused := by
    simpa [HostCache.inUse] using hu
  refine ⟨hm ▸ hem, hm ▸ ha, fun off hoff => hs.words off fun hm => hoff (ho hm), hs.rest,
    fun p hp => ?_, fun v hv => ?_, fun v hv hc p hp => ?_⟩
  · obtain ⟨hp, hu⟩ := List.mem_filter.mp hp
    obtain ⟨r, hreg, hw⟩ := hs.pens p hp
    rw [hreg] at hu
    exact ⟨r, hreg, hw.leaves (hl r) (hused hu)⟩
  · obtain ⟨hv, hu⟩ := List.mem_filter.mp hv
    obtain ⟨hat, hval⟩ := hs.views v hv
    refine ⟨?_, (hm ▸ hget v.reg).trans hval⟩
    rcases hat with hz | ⟨r, hreg, hpin, hk⟩
    · exact .inl hz
    · rw [hreg] at hu
      obtain ⟨hpin', hcontent⟩ := (hl r).pinned hpin (hused hu)
      exact .inr ⟨r, hreg, hpin', fun k hk' => (congrArg _ hcontent).trans (hk k hk')⟩
  · exact hs.consts v (List.mem_filter.mp hv).1 hc p (List.mem_filter.mp hp).1

/-- Only the history of the registers changes. -/
theorem Sound.of_slots (hs : s.Sound h) {c : HostCache} (hb : c.builder = s.cache.builder)
    (hslot : ∀ r, c.slot r = s.cache.slot r) (hfp : c.fpSlots = s.cache.fpSlots) :
    Sound { s with cache := c } h := by
  have hm : Client.machine { s with cache := c } = s.machine := by
    change c.builder.play s.entry = _
    rw [hb]
    rfl
  refine ⟨?_, ?_, hs.words, hs.rest, fun p hp => ?_, fun v hv => ?_, hs.consts⟩
  · rw [hm]
    change Emitted .empty s.entry c.builder s.machine
    rw [hb]
    exact hs.emitted
  · rw [hm]
    exact hs.agrees.of_slots (fun r => by rw [hslot]; exact .refl _) hfp
  · obtain ⟨r, hreg, hw⟩ := hs.pens p hp
    refine ⟨r, hreg, ?_⟩
    change (c.slot r).Writing p.content
    rwa [hslot]
  · obtain ⟨hat, hval⟩ := hs.views v hv
    rw [hm]
    refine ⟨?_, hval⟩
    rcases hat with hz | ⟨r, hreg, hpin, hk⟩
    · exact .inl hz
    · refine .inr ⟨r, hreg, ?_⟩
      change (c.slot r).Pinned ∧ ∀ k, _ → (c.slot r).content.base = k
      rw [hslot]
      exact ⟨hpin, hk⟩

theorem Sound.close (hs : s.Sound h) (ho : s.cache.depth = 1 → s.owed = []) :
    (s.close s.cache.ended).Sound h := by
  have hdepth : s.cache.ended.depth = s.cache.depth - 1 := by
    unfold HostCache.ended
    dsimp only
    split <;> rfl
  unfold Client.close
  by_cases h1 : s.cache.depth = 1
  · rw [if_pos (by omega)]
    obtain ⟨m, he, ha, -⟩ := Releases.ended s.cache _ _ hs.agrees
    obtain ⟨hem, hm⟩ := hs.extend he
    have hm : Client.machine { s with cache := s.cache.ended, views := [], pens := [] } = m := hm
    refine ⟨hm ▸ hem, hm ▸ ha, fun off _ => hs.words off ?_, hs.rest, nofun, nofun, nofun⟩
    rw [ho h1]
    exact List.not_mem_nil
  · rw [if_neg (by omega)]
    have hslot (r : Fin 9) : s.cache.ended.slot r = s.cache.slot r := by
      rw [Releases.slot_ended, if_neg h1]
    refine hs.of_slots ?_ hslot ?_
    · unfold HostCache.ended
      dsimp only
      rw [if_neg h1]
    · unfold HostCache.ended
      dsimp only
      rw [if_neg h1]

theorem Sound.value_eq (hs : s.Sound h) {o : Source} (ho : ∀ off ∈ o.offsets, off ∉ s.owed) :
    o.value h = o.value s.guest := by
  cases o with
  | low g =>
    have := hs.words _ (ho _ (List.mem_singleton_self _))
    rwa [Cpu.loadWord_lowWord, Cpu.loadWord_lowWord] at this
  | high g =>
    have := hs.words _ (ho _ (List.mem_singleton_self _))
    rwa [Cpu.loadWord_highWord, Cpu.loadWord_highWord] at this
  | word off => exact hs.words off (ho off (List.mem_singleton_self _))
  | const v => rfl

theorem Sound.look (hs : s.Sound h) {o : Source} {x : HostReg} {c : HostCache} (hv : o.Valid)
    (ho : ∀ off ∈ o.offsets, off ∉ s.owed) (hx : o.alloc s.cache = .ok x c) :
    (s.look o x c).Sound h := by
  obtain ⟨m, ha, hat, hval, hconst⟩ := Source.granted hs.agrees hv hx
  obtain ⟨hem, hm⟩ := hs.extend ha.emitted
  have hm : (s.look o x c).machine = m := hm
  have hspares := Source.spares hx
  have howed : s.owed ⊆ (s.look o x c).owed := by
    intro off hoff
    obtain ⟨p, hp, hw, hmem⟩ := mem_owed.mp hoff
    refine mem_owed.mpr ⟨p, List.mem_filter.mpr ⟨hp, ?_⟩, hw, hmem⟩
    -- A register that loses its high word had been written.
    cases hsplit : o.splits p.content with
    | false => rfl
    | true =>
      exfalso
      unfold Source.splits at hsplit
      split at hsplit
      · rename_i g g' ext hk
        obtain rfl : g = g' := by simpa using hsplit
        refine ho (Layout.highWord g) (List.mem_singleton_self _) (mem_owed.mpr ⟨p, hp, hw, ?_⟩)
        rw [hk]
        simp [Content.offsets]
      · cases hsplit
  have hpens : ∀ p ∈ (s.look o x c).pens, p ∈ s.pens ∧
      ∃ r, p.reg = .ofSlot r ∧ (c.slot r).Writing p.content := by
    intro p hp
    obtain ⟨hp, hsplit⟩ := List.mem_filter.mp hp
    obtain ⟨r, hreg, hw⟩ := hs.pens p hp
    obtain ⟨hpin, hsame⟩ := hspares r hw.pinned (by rw [hw.content]; simpa using hsplit)
    exact ⟨hp, r, hreg, hw.same hpin hsame⟩
  refine ⟨hm ▸ hem, hm ▸ ha.agrees, fun off hoff => hs.words off fun hm => hoff (howed hm), hs.rest,
    fun p hp => (hpens p hp).2, fun v hv => ?_, fun v hv hc p hp heq => ?_⟩
  · rw [hm]
    rcases List.mem_cons.mp hv with rfl | hv
    · exact ⟨hat, hval.trans (hs.value_eq ho)⟩
    · obtain ⟨hat', hval'⟩ := hs.views v hv
      rcases hat' with ⟨hz, hzero⟩ | ⟨r, hreg, hpin, hk⟩
      · refine ⟨.inl ⟨hz, hzero⟩, ?_⟩
        rw [hz] at hval' ⊢
        exact hval'
      · obtain ⟨hpin', hbase⟩ := ha.stable.kept r hpin
        refine ⟨.inr ⟨r, hreg, hpin', fun k hk' => hbase.trans (hk k hk')⟩, ?_⟩
        rw [hreg] at hval' ⊢
        exact (ha.stable.regs r hpin).trans hval'
  · obtain ⟨hp', r, hreg, hw⟩ := hpens p hp
    rcases List.mem_cons.mp hv with rfl | hv
    · have hknown := hconst hc r (heq.symm.trans hreg)
      rw [hw.isConst] at hknown
      cases hknown
    · exact hs.consts v hv hc p hp' heq

theorem all_apart {d : Dest} {k : Content} :
    (k.offsets.all (!d.offsets.contains ·)) = true ↔ d.Apart k := by
  rw [List.all_eq_true]
  constructor
  · intro hall off hoff hk
    have := hall off hk
    simp [hoff] at this
  · intro ha off hk
    simpa using fun hoff => ha off hoff hk

theorem Sound.take (hs : s.Sound h) {d : Dest} {x : HostReg} {c : HostCache} (hv : d.Valid)
    (ho : ∀ off ∈ d.offsets, off ∉ s.owed) (hx : d.alloc s.cache = .ok x c) :
    ∃ h', (s.take d x c).Sound h' := by
  obtain ⟨m, he, ha, hat, hkept⟩ := Dest.granted hs.agrees hv hx
  obtain ⟨hem, hm⟩ := hs.extend he
  have hm : (s.take d x c).machine = m := hm
  have hspares := Dest.spares hx
  have hpen {p : Pen} (hp : p ∈ (s.take d x c).pens) :
      (∃ k, d.content? = some k ∧ p = ⟨x, k, false⟩) ∨ p ∈ s.pens ∧ d.Apart p.content := by
    rcases List.mem_append.mp hp with hp | hp
    · obtain ⟨k, hk, rfl⟩ := List.mem_map.mp hp
      exact .inl ⟨k, Option.mem_toList.mp hk, rfl⟩
    · obtain ⟨hp, hall⟩ := List.mem_filter.mp hp
      exact .inr ⟨hp, all_apart.mp hall⟩
  have howed : s.owed ⊆ (s.take d x c).owed := by
    intro off hoff
    obtain ⟨p, hp, hw, hmem⟩ := mem_owed.mp hoff
    refine mem_owed.mpr ⟨p, List.mem_append_right _ (List.mem_filter.mpr ⟨hp, ?_⟩), hw, hmem⟩
    exact all_apart.mpr fun off' hoff' hk => ho off' hoff' (mem_owed.mpr ⟨p, hp, hw, hk⟩)
  have hnew : d.offsets ⊆ (s.take d x c).owed := by
    intro off hoff
    unfold Dest.offsets at hoff
    cases hk : d.content? with
    | none =>
      rw [hk] at hoff
      cases hoff
    | some k =>
      rw [hk] at hoff
      refine mem_owed.mpr ⟨⟨x, k, false⟩, List.mem_append_left _ ?_, rfl, hoff⟩
      rw [hk]
      exact List.mem_singleton_self _
  refine ⟨_, hm ▸ hem, hm ▸ ha, fun off hoff => ?_, (Cpu.sameRest_storeWords h _).trans hs.rest,
    fun p hp => ?_, fun v hv => ?_, fun v hv hc p hp => ?_⟩
  · rw [Cpu.loadWord_storeWords_of_not_mem]
    · exact hs.words off fun hmem => hoff (howed hmem)
    · intro hmem
      refine hoff (hnew ?_)
      unfold Dest.offsets
      cases hk : d.content? with
      | none =>
        rw [hk] at hmem
        cases hmem
      | some k =>
        rw [hk, resultWords, Option.elim, Content.map_words] at hmem
        exact hmem
  · rcases hpen hp with ⟨k, hk, rfl⟩ | ⟨hp, hapart⟩
    · unfold Dest.At at hat
      rw [hk] at hat
      exact hat
    · obtain ⟨r, hreg, hw⟩ := hs.pens p hp
      obtain ⟨hpin, hsame⟩ := hspares r hw.pinned (by rw [hw.content]; exact hapart)
      exact ⟨r, hreg, hw.same hpin hsame⟩
  · obtain ⟨hv, hkeep⟩ := List.mem_filter.mp hv
    rw [hm]
    obtain ⟨hat', hval⟩ := hs.views v hv
    rcases hat' with ⟨hz, hzero⟩ | ⟨r, hreg, hpin, hk⟩
    · refine ⟨.inl ⟨hz, hzero⟩, ?_⟩
      rw [hz] at hval ⊢
      exact hval
    · have hdrop : d.drops (s.cache.slot r).content = false := by
        rw [Bool.and_eq_true, hreg] at hkeep
        simpa [HostCache.contentOf] using hkeep.1
      obtain ⟨hpin', hbase, hget⟩ := hkept r hpin hdrop
      refine ⟨.inr ⟨r, hreg, hpin', fun k hk' => hbase.trans (hk k hk')⟩, ?_⟩
      rw [hreg] at hval ⊢
      exact hget.trans hval
  · obtain ⟨hv, hkeep⟩ := List.mem_filter.mp hv
    rcases hpen hp with ⟨k, hk, rfl⟩ | ⟨hp, -⟩
    · rw [Bool.and_eq_true, hc, hk] at hkeep
      simpa using hkeep.2
    · exact hs.consts v hv hc p hp

theorem Sound.wordsOf_eq (hs : s.Sound h) {p : Pen} (hp : p ∈ s.pens) (m : Machine Cpu) :
    s.wordsOf m p.reg = p.content.words (m.get p.reg) := by
  unfold wordsOf
  cases hf : s.pens.find? (·.reg == p.reg) with
  | none =>
    have := List.find?_eq_none.mp hf p hp
    simp at this
  | some q =>
    have hq : q.reg = p.reg := by simpa using List.find?_some hf
    obtain ⟨r, hr, hw⟩ := hs.pens p hp
    obtain ⟨r', hr', hw'⟩ := hs.pens q (List.mem_of_find?_eq_some hf)
    cases Machine.ofSlot_inj (hr'.symm.trans (hq.trans hr))
    rw [Option.elim, ← hw.content, ← hw'.content]

theorem Sound.wordsOf_rz (hs : s.Sound h) (m : Machine Cpu) : s.wordsOf m .rz = [] := by
  unfold wordsOf
  cases hf : s.pens.find? (·.reg == .rz) with
  | none => rfl
  | some q =>
    obtain ⟨r, hr, -⟩ := hs.pens q (List.mem_of_find?_eq_some hf)
    have hq : q.reg = .rz := by simpa using List.find?_some hf
    exact absurd (hr.symm.trans hq) (Machine.ofSlot_ne_rz r)

/-- Registers get the values that they have in `m'`, one after the other. -/
theorem Sound.write_all (hs : s.Sound h) (m' : Machine Cpu) {xs : List HostReg}
    (hxs : ∀ x ∈ xs, x = .rz ∨ x ∈ s.pens.map (·.reg)) {m : Machine Cpu} {g : Cpu}
    (ha : Agrees s.cache m g) :
    ∃ m₁, Agrees s.cache m₁ (g.storeWords (xs.flatMap (s.wordsOf m'))) ∧ m₁.ctx = m.ctx ∧
      (∀ y ∈ xs, m₁.get y = m'.get y) ∧ ∀ y ∉ xs, m₁.get y = m.get y := by
  induction xs generalizing m g with
  | nil => exact ⟨m, ha, rfl, nofun, fun _ _ => rfl⟩
  | cons x xs ih =>
    have hrest : ∀ x ∈ xs, x = .rz ∨ x ∈ s.pens.map (·.reg) := fun y hy =>
      hxs y (List.mem_cons_of_mem _ hy)
    rw [List.flatMap_cons, Cpu.storeWords_append]
    have hset : Agrees s.cache (m.set x (m'.get x)) (g.storeWords (s.wordsOf m' x)) := by
      rcases hxs x List.mem_cons_self with rfl | hx
      · rw [hs.wordsOf_rz]
        exact ha
      · obtain ⟨p, hp, rfl⟩ := List.mem_map.mp hx
        obtain ⟨r, hr, hw⟩ := hs.pens p hp
        rw [hs.wordsOf_eq hp, hr]
        exact hw.write ha _
    obtain ⟨m₁, ha₁, hctx, hin, hout⟩ := ih hrest hset
    refine ⟨m₁, ha₁, hctx.trans (Machine.ctx_set _ _ _), fun y hy => ?_, fun y hy => ?_⟩
    · by_cases hmem : y ∈ xs
      · exact hin y hmem
      · obtain rfl : y = x := (List.mem_cons.mp hy).resolve_right hmem
        rw [hout y hmem]
        rcases hxs y List.mem_cons_self with rfl | hx
        · rfl
        · obtain ⟨p, hp, rfl⟩ := List.mem_map.mp hx
          obtain ⟨r, hr, -⟩ := hs.pens p hp
          rw [hr, Machine.get_set_self]
    · rw [List.mem_cons, not_or] at hy
      rw [hout y hy.2, Machine.get_set_of_ne _ _ (Ne.symm hy.1)]

theorem Sound.zero (hs : s.Sound h) : s.guest.reg .zero = 0 := by
  refine (Cpu.reg_zero_of_words fun off hoff => ?_).trans hs.agrees.zero
  refine (hs.words off fun ho => ?_).symm
  obtain ⟨p, hp, -, hmem⟩ := mem_owed.mp ho
  obtain ⟨r, -, hw⟩ := hs.pens p hp
  rw [← hw.content] at hmem
  exact (hs.agrees.valid r).not_isZeroWord hmem hoff

theorem value_of_isZero {o : Source} {g : Cpu} (ho : o.IsZero) (hz : g.reg .zero = 0) :
    o.value g = 0 := by
  have hguest {gr : GuestReg} (h0 : gr.val = 0) : g.guest gr = 0 := by
    have : gr = .ofReg .zero := Fin.ext h0
    rw [this]
    exact hz
  cases o with
  | low gr =>
    rw [Source.value, hguest ho]
    rfl
  | high gr =>
    rw [Source.value, hguest ho]
    rfl
  | word off => cases ho
  | const v => exact ho

theorem Source.word_of_content {o : Source} {k : Content} (hk : o.content? = some k) :
    ∃ off, (∀ g, o.value g = g.loadWord off) ∧
      ∀ content v, Content.base content = k → (off, v) ∈ content.words v := by
  cases o with
  | low gr =>
    cases hk
    refine ⟨Layout.lowWord gr, fun g => (Cpu.loadWord_lowWord g gr).symm, fun content v hc => ?_⟩
    obtain ⟨ext, rfl⟩ := Content.base_eq_low hc
    cases ext <;> simp [Content.words]
  | high gr =>
    cases hk
    refine ⟨Layout.highWord gr, fun g => (Cpu.loadWord_highWord g gr).symm, fun content v hc => ?_⟩
    rw [Content.base_eq_high hc]
    exact List.mem_singleton_self _
  | word off =>
    cases hk
    refine ⟨off, fun _ => rfl, fun content v hc => ?_⟩
    rw [Content.base_eq_word hc]
    exact List.mem_singleton_self _
  | const v => cases hk

theorem Sound.compute (hs : s.Sound h) {i : Ir.Instr String} {xs : List HostReg}
    (hi : i.results? = some xs) (hxs : ∀ x ∈ xs, x = .rz ∨ x ∈ s.pens.map (·.reg)) :
    ∃ h', (s.compute i).Sound h' := by
  obtain ⟨hem, hm⟩ := hs.extend (.add s.cache.builder s.machine (Instr.isPlain_of_results hi))
  have hm : (s.compute i).machine = s.machine.perform i := hm
  obtain ⟨hctx, hget⟩ := s.machine.perform_results hi
  let ws := xs.flatMap (s.wordsOf (s.machine.perform i))
  have hguest : (s.compute i).guest = s.guest.storeWords ws := by
    change s.guest.storeWords ((i.results?.getD []).flatMap (s.wordsOf (s.compute i).machine)) = _
    rw [hi, hm]
    rfl
  have hagrees : Agrees (s.compute i).cache (s.machine.perform i) (h.storeWords ws) := by
    obtain ⟨m₁, ha, hctx₁, hin, hout⟩ := hs.write_all (s.machine.perform i) hxs hs.agrees
    refine (ha.emit i).of_machine (fun r => ?_) (hctx.trans hctx₁.symm)
    by_cases hr : HostReg.ofSlot r ∈ xs
    · exact (hin _ hr).symm
    · rw [hget _ hr, hout _ hr]
  -- A word that is written now belongs to a pen whose register is computed.
  have hmem {off : Int} : off ∈ ws.map (·.1) ↔
      ∃ p ∈ s.pens, p.reg ∈ xs ∧ off ∈ p.content.offsets := by
    rw [List.map_flatMap, List.mem_flatMap]
    constructor
    · rintro ⟨x, hx, hoff⟩
      rcases hxs x hx with rfl | hp
      · rw [hs.wordsOf_rz] at hoff
        cases hoff
      · obtain ⟨p, hpen, rfl⟩ := List.mem_map.mp hp
        rw [hs.wordsOf_eq hpen, Content.map_words] at hoff
        exact ⟨p, hpen, hx, hoff⟩
    · rintro ⟨p, hp, hx, hoff⟩
      refine ⟨p.reg, hx, ?_⟩
      rw [hs.wordsOf_eq hp, Content.map_words]
      exact hoff
  have hpen {p : Pen} (hp : p ∈ (s.compute i).pens) :
      ∃ q ∈ s.pens, p.reg = q.reg ∧ p.content = q.content ∧
        (p.written = false → q.written = false ∧ q.reg ∉ xs) := by
    obtain ⟨q, hq, rfl⟩ := List.mem_map.mp hp
    refine ⟨q, hq, rfl, rfl, fun hw => ?_⟩
    rw [hi] at hw
    simpa using hw
  have hwords (off : Int) (hoff : off ∉ (s.compute i).owed) :
      (h.storeWords ws).loadWord off = (s.compute i).guest.loadWord off := by
    rw [hguest]
    refine Cpu.loadWord_storeWords_congr (fun hw => ?_) fun hw => hs.words off fun ho => ?_
    · obtain ⟨p, hp, -, hk⟩ := hmem.mp hw
      obtain ⟨r, -, hwr⟩ := hs.pens p hp
      rcases hwr.dirty with hd | hnil
      · rw [← hwr.content] at hk
        exact (hs.agrees.writable r hd).isWord hk
      · rw [hnil] at hk
        cases hk
    · obtain ⟨p, hp, hwritten, hk⟩ := mem_owed.mp ho
      refine hoff (mem_owed.mpr ⟨_, List.mem_map_of_mem hp, ?_, hk⟩)
      have hx : p.reg ∉ xs := fun hx => hw (hmem.mpr ⟨p, hp, hx, hk⟩)
      simp [hi, hwritten, hx]
  refine ⟨h.storeWords ws, hm ▸ hem, hm ▸ hagrees, hwords, ?_, fun p hp => ?_, fun v hv => ?_,
    fun v hv hc p hp => ?_⟩
  · rw [hguest]
    exact ((Cpu.sameRest_storeWords h ws).trans hs.rest).trans (Cpu.sameRest_storeWords _ ws).symm
  · obtain ⟨q, hq, hreg, hcontent, -⟩ := hpen hp
    obtain ⟨r, hr, hw⟩ := hs.pens q hq
    exact ⟨r, hreg.trans hr, hcontent ▸ hw⟩
  · obtain ⟨hat, hval⟩ := hs.views v hv
    refine ⟨hat, ?_⟩
    rw [hm]
    rcases hat with ⟨hz, hzero⟩ | ⟨r, hreg, hpin, hk⟩
    · rw [hz, value_of_isZero hzero]
      · rfl
      · rw [hguest]
        refine (Cpu.reg_zero_of_words fun off hoff => ?_).trans hs.zero
        refine Cpu.loadWord_storeWords_of_not_mem _ fun hw => ?_
        obtain ⟨p, hp, -, hk⟩ := hmem.mp hw
        obtain ⟨r, -, hwr⟩ := hs.pens p hp
        rw [← hwr.content] at hk
        exact (hs.agrees.valid r).not_isZeroWord hk hoff
    · cases hc : v.source.content? with
      | none =>
        have hx : v.reg ∉ xs := by
          intro hx
          rcases hxs _ hx with hz | hp
          · exact Machine.ofSlot_ne_rz r (hreg.symm.trans hz)
          · obtain ⟨p, hp, he⟩ := List.mem_map.mp hp
            exact hs.consts v hv hc p hp he
        rw [hget _ hx, hval]
        cases hsrc : v.source with
        | const w => rfl
        | low gr | high gr | word off =>
          rw [hsrc] at hc
          cases hc
      | some k =>
        obtain ⟨off, hvalue, hin⟩ := Source.word_of_content hc
        have hheld := fun w => hin (s.cache.slot r).content w (hk k hc)
        rw [hvalue]
        by_cases hoff : off ∈ (s.compute i).owed
        · -- The register itself is still to be written.
          obtain ⟨p, hp, hwritten, hmemp⟩ := mem_owed.mp hoff
          obtain ⟨q, hq, -, hcontent, hopen⟩ := hpen hp
          obtain ⟨r', hr', hw⟩ := hs.pens q hq
          have hown {q' : Pen} (hq' : q' ∈ s.pens) (ho' : off ∈ q'.content.offsets) :
              q'.reg = v.reg := by
            obtain ⟨r₁, hr₁, hw₁⟩ := hs.pens q' hq'
            rw [← hw₁.content] at ho'
            cases hs.agrees.apart r₁ r off ho' (Content.mem_offsets_of_words (hheld 0))
            exact hr₁.trans hreg.symm
          have hx : v.reg ∉ xs := by
            rw [← hown hq (hcontent ▸ hmemp)]
            exact (hopen hwritten).2
          rw [hget _ hx, hval, hvalue, hguest, Cpu.loadWord_storeWords_of_not_mem]
          intro hw'
          obtain ⟨q', hq', hx', ho'⟩ := hmem.mp hw'
          exact hx (hown hq' ho' ▸ hx')
        · rw [← hwords off hoff, hreg]
          exact (hagrees.held r (off, _) (hheld _)).symm
  · obtain ⟨q, hq, hreg, -, -⟩ := hpen hp
    rw [hreg]
    exact hs.consts v hv hc q hq

theorem Sound.pinned_of_mem_regs (hs : s.Sound h) {x : HostReg} (hx : x ∈ s.regs) :
    x = .rz ∨ ∃ r, x = .ofSlot r ∧ (s.cache.slot r).Pinned := by
  rcases List.mem_cons.mp hx with rfl | hx
  · exact .inl rfl
  · rcases List.mem_append.mp hx with hx | hx
    · obtain ⟨v, hv, rfl⟩ := List.mem_map.mp hx
      rcases (hs.views v hv).1 with ⟨hz, -⟩ | ⟨r, hreg, hpin, -⟩
      · exact .inl hz
      · exact .inr ⟨r, hreg, hpin⟩
    · obtain ⟨p, hp, rfl⟩ := List.mem_map.mp hx
      obtain ⟨r, hreg, hw⟩ := hs.pens p hp
      exact .inr ⟨r, hreg, hw.pinned⟩

theorem Sound.setConst (hs : s.Sound h) {x : HostReg} {v : UInt32} (hx : x ∈ s.regs)
    (hv : s.machine.get x = v)
    (ho : ∀ p ∈ s.pens, p.reg = x → p.written = true ∨ p.content = .temp) :
    Sound { s with cache := s.cache.setConst x v, pens := s.pens.filter (·.reg != x) } h := by
  have howed : s.owed ⊆ Client.owed
      { s with cache := s.cache.setConst x v, pens := s.pens.filter (·.reg != x) } := by
    intro off hoff
    obtain ⟨p, hp, hw, hmem⟩ := mem_owed.mp hoff
    refine mem_owed.mpr ⟨p, List.mem_filter.mpr ⟨hp, bne_iff_ne.mpr fun hreg => ?_⟩, hw, hmem⟩
    rcases ho p hp hreg with hw' | ht
    · rw [hw] at hw'
      cases hw'
    · rw [ht] at hmem
      cases hmem
  have hslot (r : Fin 9) : ((s.cache.setConst x v).slot r).content = (s.cache.slot r).content ∧
      ((s.cache.setConst x v).slot r).busy = (s.cache.slot r).busy ∧
      (x ≠ .ofSlot r → (s.cache.setConst x v).slot r = s.cache.slot r) := by
    rcases hs.pinned_of_mem_regs hx with rfl | ⟨r', rfl, -⟩
    · exact ⟨rfl, rfl, fun _ => rfl⟩
    · rw [Agrees.setConst_ofSlot]
      by_cases he : r' = r
      · subst he
        rw [HostCache.slot_setSlot_self]
        exact ⟨rfl, rfl, fun hne => absurd rfl hne⟩
      · rw [HostCache.slot_setSlot_of_ne _ _ he]
        exact ⟨rfl, rfl, fun _ => rfl⟩
  have hpinned {r : Fin 9} (hp : (s.cache.slot r).Pinned) :
      ((s.cache.setConst x v).slot r).Pinned := by
    unfold Slot.Pinned at hp ⊢
    rwa [(hslot r).1, (hslot r).2.1]
  have hbuilder : (s.cache.setConst x v).builder = s.cache.builder := by
    unfold HostCache.setConst HostCache.modifySlot
    split <;> rfl
  have hm : Client.machine
      { s with cache := s.cache.setConst x v, pens := s.pens.filter (·.reg != x) } = s.machine := by
    change (s.cache.setConst x v).builder.play s.entry = _
    rw [hbuilder]
    rfl
  refine ⟨?_, ?_, fun off hoff => hs.words off fun hmem => hoff (howed hmem), hs.rest,
    fun p hp => ?_, fun w hw => ?_, fun w hw hc p hp => ?_⟩
  · rw [hm]
    change Emitted .empty s.entry (s.cache.setConst x v).builder s.machine
    rw [hbuilder]
    exact hs.emitted
  · rw [hm]
    rcases hs.pinned_of_mem_regs hx with rfl | ⟨r, rfl, hp⟩
    · exact hs.agrees
    · exact hs.agrees.setConst hp.1 hv
  · obtain ⟨hp, hne⟩ := List.mem_filter.mp hp
    obtain ⟨r, hreg, hw⟩ := hs.pens p hp
    have hne : x ≠ .ofSlot r := fun he => bne_iff_ne.mp hne (hreg.trans he.symm)
    refine ⟨r, hreg, ?_⟩
    change ((s.cache.setConst x v).slot r).Writing p.content
    rwa [(hslot r).2.2 hne]
  · rw [hm]
    obtain ⟨hat, hval⟩ := hs.views w hw
    refine ⟨?_, hval⟩
    rcases hat with hz | ⟨r, hreg, hpin, hk⟩
    · exact .inl hz
    · exact .inr ⟨r, hreg, hpinned hpin, fun k hk' => by rw [(hslot r).1]; exact hk k hk'⟩
  · exact hs.consts w hw hc p (List.mem_filter.mp hp).1

/-- Whatever is allowed succeeds and keeps the invariant. -/
theorem Sound.step (hs : s.Sound h) {op : ClientOp} (ha : s.Allows op) :
    ∃ s' h', s.step op = .ok s' ∧ s'.entry = s.entry ∧ s'.Sound h' := by
  cases op with
  | startOp => exact ⟨_, h, rfl, rfl, hs.of_slots rfl (fun _ => rfl) rfl⟩
  | endOp =>
    have hend : s.step .endOp = .ok (s.close s.cache.ended) := by
      rw [Client.step, HostCache.endOp_eq ha.1]
    have hentry : (s.close s.cache.ended).entry = s.entry := by
      unfold Client.close
      split <;> rfl
    exact ⟨_, h, hend, hentry, hs.close ha.2⟩
  | read o =>
    obtain ⟨hv, hn, ho⟩ := ha
    obtain ⟨x, c, hx⟩ := Source.alloc_ok hn
    refine ⟨s.look o x c, h, ?_, rfl, hs.look hv ho hx⟩
    rw [Client.step, hx]
  | write d =>
    obtain ⟨hv, hn, ho⟩ := ha
    obtain ⟨x, c, hx⟩ := Dest.alloc_ok hn
    obtain ⟨h', hs'⟩ := hs.take hv ho hx
    refine ⟨s.take d x c, h', ?_, rfl, hs'⟩
    rw [Client.step, hx]
  | code i =>
    obtain ⟨xs, hi, hxs⟩ := ha
    obtain ⟨h', hs'⟩ := hs.compute hi hxs
    exact ⟨s.compute i, h', rfl, rfl, hs'⟩
  | setConst x v => exact ⟨_, h, rfl, rfl, hs.setConst ha.1 ha.2.1 ha.2.2⟩
  | free x =>
    exact ⟨_, h, rfl, rfl, hs.keep (.free s.cache x) (HostCache.leaves_free s.cache x) ha⟩
  | invalidateGuest g =>
    exact ⟨_, h, rfl, rfl, hs.keep (.invalidateGuest s.cache g)
      (HostCache.leaves_invalidateGuest s.cache g) ha⟩
  | flushExcept mask =>
    exact ⟨_, h, rfl, rfl, hs.keep (.flushExcept s.cache mask)
      (HostCache.leaves_flushExcept s.cache mask) ha⟩

theorem Sound.run (hs : s.Sound h) {ops : List ClientOp} (ha : s.Admits ops) :
    ∃ s' h', s.run ops = .ok s' ∧ s'.entry = s.entry ∧ s'.Sound h' := by
  induction ops generalizing s h with
  | nil => exact ⟨s, h, rfl, rfl, hs⟩
  | cons op ops ih =>
    obtain ⟨s₁, h₁, hstep, hentry₁, hs₁⟩ := hs.step ha.1
    obtain ⟨s₂, h₂, hrun, hentry₂, hs₂⟩ := ih hs₁ (ha.2 s₁ hstep)
    refine ⟨s₂, h₂, ?_, hentry₂.trans hentry₁, hs₂⟩
    rw [Client.run, hstep]
    exact hrun

theorem sound_create {m : Machine Cpu} (hz : m.ctx.reg .zero = 0) : (create m).Sound m.ctx :=
  ⟨.refl _ _, .create _ m hz, fun _ _ => rfl, .refl _, nofun, nofun, nofun⟩

theorem Sound.finish (hs : s.Sound h) (hpc : s.entry.pc = 0) :
    s.cache.flushAll.isClean = true ∧
      (s.owed = [] → ∃ p, (s.cache.flushAll.emit (.exit 0)).builder.build = .ok p ∧
        ∀ links, ∃ m, (s.entry.load p).run links = some (.ok 0, m) ∧ m.ctx = s.guest) := by
  obtain ⟨m, he, ha, -⟩ := Releases.flushAll s.cache _ _ hs.agrees
  obtain ⟨hem, -⟩ := hs.extend he
  refine ⟨HostCache.isClean_flushAll s.cache ha.fp, fun ho => ?_⟩
  have hctx : m.ctx = s.guest := by
    refine Cpu.ext_words (fun off _ => ?_) (ha.rest.trans hs.rest)
    rw [ha.synced off fun r hd => ?_, hs.words off (by rw [ho]; exact List.not_mem_nil)]
    have hclean : (s.cache.flushAll.slot r).dirty = false := by
      rw [HostCache.slot_flushAll]
      split <;> rfl
    rw [hclean] at hd
    cases hd
  obtain ⟨p, hp, hrun⟩ := hem.run hpc
  exact ⟨p, hp, fun links => ⟨_, hrun links, hctx⟩⟩

/-- Every session of a client that keeps to the rules goes well. The registers that it has for
reading hold the current values of the guest, whenever it has them; nothing is left to store after
everything was stored; and the program, from any registers, leaves the context as if each write
had gone there at once. -/
theorem refines_of_run (m : Machine Cpu) (hpc : m.pc = 0) (hz : m.ctx.reg .zero = 0)
    (ops : List ClientOp) (ha : (create m).Admits ops) :
    ∃ s, (create m).run ops = .ok s ∧
      (∀ v ∈ s.views, s.machine.get v.reg = v.source.value s.guest) ∧
      s.cache.flushAll.isClean = true ∧
      (s.owed = [] → ∃ p, (s.cache.flushAll.emit (.exit 0)).builder.build = .ok p ∧
        ∀ links, ∃ m', (m.load p).run links = some (.ok 0, m') ∧ m'.ctx = s.guest) := by
  obtain ⟨s, h, hrun, hentry, hs⟩ := (sound_create hz).run ha
  obtain ⟨hclean, hfinish⟩ := hs.finish (by rw [hentry]; exact hpc)
  rw [hentry] at hfinish
  exact ⟨s, hrun, fun v hv => (hs.views v hv).2, hclean, hfinish⟩

def idle : Machine Cpu := .start ⟨#[], 0⟩ (.powerOn ⟨#[], #[], []⟩ none)

def r3 : GuestReg := .ofReg ⟨3, by decide⟩

/-- A word is written with its sign, and then its high word is added to its low one. -/
def signSum : List ClientOp :=
  [.startOp, .write (.extended r3 .sign), .code (.li 0xfffffffe ⟨0⟩), .setConst ⟨0⟩ 0xfffffffe, .endOp,
    .startOp, .read (.high r3), .read (.low r3), .write (.low .hi),
    .code (.bin .add ⟨0⟩ ⟨1⟩ ⟨2⟩), .endOp]

theorem refines_of_signSum : (create idle).Admits signSum ∧
    ∃ s, (create idle).run signSum = .ok s ∧
      (∀ v ∈ s.views, s.machine.get v.reg = v.source.value s.guest) ∧
      s.cache.flushAll.isClean = true ∧
      (s.owed = [] → ∃ p, (s.cache.flushAll.emit (.exit 0)).builder.build = .ok p ∧
        ∀ links, ∃ m', (idle.load p).run links = some (.ok 0, m') ∧ m'.ctx = s.guest) :=
  have ha : (create idle).Admits signSum := by decide +kernel
  ⟨ha, refines_of_run idle rfl (by decide +kernel) signSum ha⟩

theorem exists_of_any {ε α : Type} {x : Except ε α} {P : α → Prop} [DecidablePred P]
    (h : x.toOption.any (P ·) = true) : ∃ a, x = .ok a ∧ P a := by
  cases x with
  | error e => cases h
  | ok a => exact ⟨a, rfl, of_decide_eq_true h⟩

/-- The rules are needed. The low word of a guest register that is written by its offset is not
found under the name of the register, and a stale one is loaded. -/
theorem stale_of_aliased_word :
    ∃ s, (create idle).run [.startOp, .write (.word (Layout.lowWord r3)), .code (.li 7 ⟨0⟩), .endOp,
        .startOp, .read (.low r3)] = .ok s ∧
      ∃ v ∈ s.views, s.machine.get v.reg ≠ v.source.value s.guest := by
  apply exists_of_any
  decide +kernel

end Client

end Recompiler
