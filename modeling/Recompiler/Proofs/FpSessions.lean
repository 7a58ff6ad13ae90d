import Recompiler.Proofs.FpAgreement
import Recompiler.Proofs.RegisterSessions

/-!
Sessions with the assignment of floating-point registers. A client asks for values to read and to
write in either shape, adds code that computes with them, and has words brought to the context to
reach them there. Next to the program that emerges stands the state of the guest as if each write
had gone to the context at once.
-/

namespace Recompiler

open Ir

namespace Ir

namespace FpSize

def place (size : FpSize) (wide : Bool) (r : Reg) : Int :=
  match size with
  | .single => Layout.single wide r
  | .double => Layout.double wide r

theorem fits_place (size : FpSize) (wide : Bool) (r : Reg) : size.Fits (size.place wide r) := by
  cases size with
  | single => exact fits_single wide r
  | double => exact fits_double wide r

end FpSize

namespace Instr

def isStraight {L : Type} : Instr L → Bool
  | .store .. => false
  | i => i.isPlain

/-- The floating-point register that the instruction computes. -/
def fpResult? {L : Type} : Instr L → Option FpReg
  | .fld _ _ x | .fbin _ _ _ _ x | .funary _ _ _ x => some x
  | _ => none

theorem isPlain_of_isStraight {L : Type} {i : Instr L} (h : i.isStraight = true) :
    i.isPlain = true := by
  cases i <;> first | rfl | cases h

end Instr

namespace Machine

/-- The words that the instruction writes to the context. -/
def contextWords (m : Machine Cpu) : Instr String → List (Int × UInt32)
  | .stc x off => [(off, m.get x)]
  | .stci v off => [(off, v)]
  | .stcx x off => [(off, sar32 (m.get x) 31)]
  | .fst size x off => size.words off (m.getFp x)
  | _ => []

theorem getFp_set (m : Machine Cpu) (x : HostReg) (v : UInt32) (y : FpReg) :
    (m.set x v).getFp y = m.getFp y := by
  unfold set
  split <;> rfl

theorem perform_straight (m : Machine Cpu) {i : Instr String} (h : i.isStraight = true) :
    (m.perform i).ctx = m.ctx.storeWords (m.contextWords i) ∧
      ∀ y, i.fpResult? ≠ some y → (m.perform i).getFp y = m.getFp y := by
  have hset (x : HostReg) (v : UInt32) : (m.set x v).next.ctx = m.ctx ∧
      ∀ y, (none : Option FpReg) ≠ some y → (m.set x v).next.getFp y = m.getFp y :=
    ⟨ctx_set m x v, fun y _ => getFp_set m x v y⟩
  have hsetFp (x : FpReg) (v : UInt64) : (m.setFp x v).next.ctx = m.ctx ∧
      ∀ y, some x ≠ some y → (m.setFp x v).next.getFp y = m.getFp y :=
    ⟨rfl, fun y hy => getFp_setFp_of_ne m v fun he => hy (congrArg some he)⟩
  cases i with
  | li v x | ldc off x | mov y x | ltab off y x | load op y off x | bin op y z x
  | fcmp size y z cond x => exact hset _ _
  | const op y v x => cases op <;> exact hset _ _
  | mul signed x y lo hi =>
    exact ⟨(ctx_set _ _ _).trans (ctx_set _ _ _), fun z _ =>
      (getFp_set _ _ _ z).trans (getFp_set _ _ _ z)⟩
  | stc x off | stci v off | stcx x off => exact ⟨rfl, fun _ _ => rfl⟩
  | fst size x off => cases size <;> exact ⟨rfl, fun _ _ => rfl⟩
  | fld size off x => cases size <;> exact hsetFp _ _
  | fbin op size x y z | funary op size x y => exact hsetFp _ _
  | store | branch | branchConst | branchOverflow | jump | callout | link | exit => cases h

end Machine

end Ir

/-- The register of the slot is in use for the value. -/
structure FpSlot.Holds (s : FpSlot) (k : FpSize × Int) : Prop where
  content : s.content = some k
  busy : s.busy = true

/-- A register that was given for reading. -/
structure FpView where
  reg : FpReg
  value : FpSize × Int
  /-- The value was not one that was still to be written. -/
  current : Bool

/-- A register that was given for writing. -/
structure FpPen where
  reg : FpReg
  value : FpSize × Int
  written : Bool

structure FpClient where
  /-- The machine before the program. -/
  entry : Machine Cpu
  cache : HostCache
  /-- The state of the guest, as if each write had gone to the context at once. -/
  guest : Cpu
  views : List FpView
  pens : List FpPen
  /-- The words that the client may read and write in the context. -/
  exposed : List Int

inductive FpClientOp where
  | startOp
  | endOp
  | read (wide : Bool) (size : FpSize) (r : Reg)
  | write (wide : Bool) (size : FpSize) (r : Reg)
  /-- Adds an instruction that computes registers or writes to the context. -/
  | code (i : Ir.Instr String)
  | clobber (off size : Int)
  | flush

namespace FpClient

def create (m : Machine Cpu) : FpClient := ⟨m, .create .empty, m.ctx, [], [], []⟩

def machine (s : FpClient) : Machine Cpu := s.cache.builder.play s.entry

def values (s : FpClient) : List (FpSize × Int) := s.views.map (·.value) ++ s.pens.map (·.value)

/-- Every register that was given for writing has been written. -/
def Settled (s : FpClient) : Prop := ∀ p ∈ s.pens, p.written = true

def fpWords : List Int := (List.range 64).map fun i : Nat => 336 + 4 * (i : Int)

def meets (off size : Int) (k : FpSize × Int) : Bool :=
  k.2 < off + size && off < k.2 + FpSlot.sizeBytes k.1

/-- The words of a value are no longer for the client to reach in the context. -/
def hide (s : FpClient) (k : FpSize × Int) : List Int :=
  s.exposed.filter fun w => !(k.1.offsets k.2).contains w

/-- A register was given for reading. -/
def look (s : FpClient) (k : FpSize × Int) (x : FpReg) (c : HostCache) : FpClient :=
  { s with
    cache := c
    views := ⟨x, k, s.pens.all fun p => p.value != k || p.written⟩ :: s.views
    exposed := s.hide k }

/-- A register was given for writing. -/
def take (s : FpClient) (k : FpSize × Int) (x : FpReg) (c : HostCache) : FpClient :=
  { s with
    cache := c
    pens := ⟨x, k, false⟩ :: s.pens.filter (·.value != k)
    exposed := s.hide k }

def wordsOf (s : FpClient) (m : Machine Cpu) (x : FpReg) : List (Int × UInt32) :=
  (s.pens.find? (·.reg == x)).elim [] fun p => p.value.1.words p.value.2 (m.getFp x)

/-- Adds an instruction; what it writes, to the context or to a register, goes to the guest. -/
def compute (s : FpClient) (i : Ir.Instr String) : FpClient :=
  let c := s.cache.emit i
  let stored := s.guest.storeWords (s.machine.contextWords i)
  { s with
    cache := c
    guest := stored.storeWords (i.fpResult?.elim [] (s.wordsOf (c.builder.play s.entry)))
    views := s.views.map fun v => { v with current := v.current || i.fpResult? == some v.reg }
    pens := s.pens.map fun p => { p with written := p.written || i.fpResult? == some p.reg } }

/-- Goes on without the values that were released; words of theirs are in the context. -/
def release (s : FpClient) (c : HostCache) (gone : FpSize × Int → Bool) (words : List Int) :
    FpClient :=
  { s with
    cache := c
    views := s.views.filter fun v => !gone v.value
    pens := s.pens.filter fun p => !gone p.value
    exposed := words ++ s.exposed }

def close (s : FpClient) (c : HostCache) : FpClient :=
  if c.depth = 0 then { s with cache := c, views := [], pens := [] } else { s with cache := c }

def step (s : FpClient) : FpClientOp → Except CacheError FpClient
  | .startOp => .ok { s with cache := s.cache.startOp }
  | .endOp =>
    match HostCache.endOp s.cache with
    | .ok _ c => .ok (s.close c)
    | .error e _ => .error e
  | .read wide size r =>
    match HostCache.allocInFp (size.place wide r) size s.cache with
    | .ok x c => .ok (s.look (size, size.place wide r) x c)
    | .error e _ => .error e
  | .write wide size r =>
    match HostCache.allocOutFp (size.place wide r) size s.cache with
    | .ok x c => .ok (s.take (size, size.place wide r) x c)
    | .error e _ => .error e
  | .code i => .ok (s.compute i)
  | .clobber off size =>
    .ok (s.release (s.cache.clobberFp off size) (meets off size)
      (fpWords.filter fun w => off ≤ w && w + 4 ≤ off + size))
  | .flush => .ok (s.release s.cache.flushFp (fun _ => true) fpWords)

/-- A value that may be asked for: it overlaps no other one in use, and with it no more than eight
are. -/
def Admissible (s : FpClient) (k : FpSize × Int) : Prop :=
  FpApart s.values k.1 k.2 ∧ (k :: s.values).dedup.length ≤ 8

/-- What a client may do: it asks for values that do not overlap and no more than there are
registers, computes registers that it may write, stores to words that it brought to the context,
and does not give up registers that it has still to write. -/
def Allows (s : FpClient) : FpClientOp → Prop
  | .startOp => True
  | .endOp => 0 < s.cache.depth ∧ (s.cache.depth = 1 → s.Settled)
  | .read wide size r | .write wide size r => s.Admissible (size, size.place wide r)
  | .code i => i.isStraight = true ∧ (∀ x ∈ i.fpResult?, x ∈ s.pens.map (·.reg)) ∧
      ∀ p ∈ s.machine.contextWords i, p.1 ∈ s.exposed
  | .clobber off size => ∀ p ∈ s.pens, meets off size p.value = true → p.written = true
  | .flush => s.Settled

def run (s : FpClient) : List FpClientOp → Except CacheError FpClient
  | [] => .ok s
  | op :: ops => s.step op >>= fun s => s.run ops

def Admits (s : FpClient) : List FpClientOp → Prop
  | [] => True
  | op :: ops => s.Allows op ∧ ∀ s', s.step op = .ok s' → Admits s' ops

instance (s : FpClient) : Decidable s.Settled :=
  inferInstanceAs (Decidable (∀ p ∈ s.pens, p.written = true))

instance (s : FpClient) (k : FpSize × Int) : Decidable (s.Admissible k) :=
  inferInstanceAs (Decidable ((∀ x ∈ s.values, x = (k.1, k.2) ∨
    x.2 + FpSlot.sizeBytes x.1 ≤ k.2 ∨ k.2 + FpSlot.sizeBytes k.1 ≤ x.2) ∧ _))

instance (s : FpClient) (op : FpClientOp) : Decidable (s.Allows op) :=
  match op with
  | .startOp => .isTrue trivial
  | .endOp => inferInstanceAs (Decidable (_ ∧ _))
  | .read _ _ _ => inferInstanceAs (Decidable (s.Admissible _))
  | .write _ _ _ => inferInstanceAs (Decidable (s.Admissible _))
  | .code _ => inferInstanceAs (Decidable (_ ∧ _ ∧ _))
  | .clobber off size =>
    inferInstanceAs (Decidable (∀ p ∈ s.pens, meets off size p.value = true → p.written = true))
  | .flush => inferInstanceAs (Decidable s.Settled)

def decideAdmits (s : FpClient) : (ops : List FpClientOp) → Decidable (s.Admits ops)
  | [] => .isTrue trivial
  | op :: ops =>
    match h : s.step op with
    | .ok s' =>
      have := decideAdmits s' ops
      decidable_of_iff (s.Allows op ∧ s'.Admits ops) (and_congr_right fun _ =>
        ⟨fun ha _ hs => Except.ok.inj (h.symm.trans hs) ▸ ha, fun ha => ha s' h⟩)
    | .error _ =>
      decidable_of_iff (s.Allows op)
        ⟨fun ha => ⟨ha, fun _ hs => nomatch h.symm.trans hs⟩, fun ha => ha.1⟩

instance (s : FpClient) (ops : List FpClientOp) : Decidable (s.Admits ops) := decideAdmits s ops

def Owes (s : FpClient) (w : Int) : Prop :=
  ∃ p ∈ s.pens, p.written = false ∧ w ∈ p.value.1.offsets p.value.2

/-- The registers and the context make up the state `h`, which is the one of the guest but for
words that are still to be written. -/
structure Sound (s : FpClient) (h : Cpu) : Prop where
  emitted : Emitted .empty s.entry s.cache.builder s.machine
  agrees : FpAgrees s.cache s.machine h
  words : ∀ w, ¬ s.Owes w → h.loadWord w = s.guest.loadWord w
  rest : Cpu.SameRest h s.guest
  pens : ∀ p ∈ s.pens, ∃ r, p.reg = .ofSlot r ∧ (s.cache.fpSlots.get r).Holds p.value ∧
    (s.cache.fpSlots.get r).dirty = true
  views : ∀ v ∈ s.views, ∃ r, v.reg = .ofSlot r ∧ (s.cache.fpSlots.get r).Holds v.value
  current : ∀ v ∈ s.views, v.current = true →
    ∀ p ∈ v.value.1.words v.value.2 (s.machine.getFp v.reg), s.guest.loadWord p.1 = p.2
  pinned : ∀ r k, (s.cache.fpSlots.get r).Holds k → k ∈ s.values
  exposed : ∀ w ∈ s.exposed, Cpu.IsWord w ∧ ∀ r, w ∉ (s.cache.fpSlots.get r).offsets

variable {s : FpClient} {h : Cpu} {k : FpSize × Int} {x : FpReg} {c : HostCache}

theorem Sound.extend (hs : s.Sound h) {b : Builder} {m : Machine Cpu}
    (he : Emitted s.cache.builder s.machine b m) :
    Emitted .empty s.entry b m ∧ b.play s.entry = m := by
  have hb := hs.emitted.trans he
  exact ⟨hb, (hb.play Builder.straight_empty rfl).2⟩

theorem Admissible.eq_of_mem (hk : s.Admissible k) {k' : FpSize × Int} (hk' : k' ∈ s.values)
    {w : Int} (hw : w ∈ k.1.offsets k.2) (hw' : w ∈ k'.1.offsets k'.2) : k' = k := by
  rcases hk.1 k' hk' with he | hapart
  · exact he
  · obtain ⟨hlow, hhigh, -⟩ := FpSize.bounds_of_mem hw
    obtain ⟨hlow', hhigh', -⟩ := FpSize.bounds_of_mem hw'
    omega

theorem Admissible.idle (hk : s.Admissible k) (hs : s.Sound h) (r : Fin 8)
    (hb : (s.cache.fpSlots.get r).busy = true) :
    FpSlot.isPartial k.1 k.2 (s.cache.fpSlots.get r) = false := by
  refine decide_eq_false fun ⟨hne, hover⟩ => ?_
  unfold FpSlot.overlaps at hover
  split at hover
  · rename_i size off hcontent
    rcases hk.1 _ (hs.pinned r _ ⟨hcontent, hb⟩) with he | hapart
    · exact hne (hcontent.trans (congrArg some he))
    · simp only [Bool.and_eq_true, decide_eq_true_eq] at hover
      dsimp only at hapart
      omega
  · cases hover

/-- The search succeeds, and if it finds nothing a register can be had. -/
theorem Admissible.find (hk : s.Admissible k) (hs : s.Sound h) :
    ∃ o c₁, HostCache.fpFind? k.1 k.2 s.cache = .ok o c₁ ∧ FpPins s.values.dedup c₁ ∧
      (o = none → s.values.dedup.length < 8 ∧ ∀ r, (c₁.fpSlots.get r).content ≠ some k) := by
  have hpins : FpPins s.values.dedup s.cache := by
    constructor
    · intro r r' k' hr hr'
      have hmem : k'.2 ∈ k'.1.offsets k'.2 := by
        cases k'.1 <;> exact List.mem_cons_self
      refine hs.agrees.apart r r' k'.2 ?_ ?_
      · rwa [FpSlot.offsets_of_content hr]
      · rwa [FpSlot.offsets_of_content hr']
    · intro r k' hb hr
      exact List.mem_dedup.mpr (hs.pinned r k' ⟨hr, hb⟩)
  have hapart : FpApart s.values.dedup k.1 k.2 := fun k' hk' => hk.1 k' (List.mem_dedup.mp hk')
  obtain ⟨o, c₁, hfind, hpins₁, -, -, -, hnone⟩ := hpins.fpFind? hapart
  refine ⟨o, c₁, hfind, hpins₁, fun ho => ⟨?_, hnone ho⟩⟩
  have habsent := hnone ho
  -- A value in use would have been found.
  have hnew : k ∉ s.values := by
    intro hmem
    have hheld : ∃ r, (s.cache.fpSlots.get r).Holds k := by
      rcases List.mem_append.mp hmem with hmem | hmem
      · obtain ⟨v, hv, rfl⟩ := List.mem_map.mp hmem
        obtain ⟨r, -, hr⟩ := hs.views v hv
        exact ⟨r, hr⟩
      · obtain ⟨p, hp, rfl⟩ := List.mem_map.mp hmem
        obtain ⟨r, -, hr, -⟩ := hs.pens p hp
        exact ⟨r, hr⟩
    obtain ⟨r, hr⟩ := hheld
    refine habsent r ?_
    rw [(HostCache.fpFind?_ok hfind).1.slots, hk.idle hs r hr.busy]
    exact hr.content
  have hlen := hk.2
  rw [List.dedup_cons_of_notMem hnew, List.length_cons] at hlen
  omega

theorem Admissible.allocIn (hk : s.Admissible k) (hs : s.Sound h) :
    ∃ x c, HostCache.allocInFp k.2 k.1 s.cache = .ok x c := by
  obtain ⟨o, c₁, hfind, hpins, hnone⟩ := hk.find hs
  simp only [HostCache.allocInFp, bind, EStateM.bind, hfind]
  cases o with
  | some r => exact ⟨_, _, rfl⟩
  | none =>
    obtain ⟨hlen, habsent⟩ := hnone rfl
    obtain ⟨x, c₂, hc₂, -⟩ := hpins.fpClaim false hlen habsent
    simp only [EStateM.bind, hc₂]
    exact ⟨_, _, rfl⟩

theorem Admissible.allocOut (hk : s.Admissible k) (hs : s.Sound h) :
    ∃ x c, HostCache.allocOutFp k.2 k.1 s.cache = .ok x c := by
  obtain ⟨o, c₁, hfind, hpins, hnone⟩ := hk.find hs
  simp only [HostCache.allocOutFp, bind, EStateM.bind, hfind]
  cases o with
  | some r => exact ⟨_, _, rfl⟩
  | none =>
    obtain ⟨hlen, habsent⟩ := hnone rfl
    obtain ⟨x, c₂, hc₂, -⟩ := hpins.fpClaim true hlen habsent
    exact ⟨x, c₂, hc₂⟩

/-- A request leaves the registers in use and the exposed words as they are. -/
theorem Sound.grant (hs : s.Sound h) {r : Fin 8} {m : Machine Cpu} {g : Cpu}
    (hg : FpGrants s.cache s.machine r k.1 k.2 c m g) :
    (∀ r' k', (c.fpSlots.get r').Holds k' → k' = k ∨ k' ∈ s.values) ∧
      ∀ w ∈ s.hide k, Cpu.IsWord w ∧ ∀ r, w ∉ (c.fpSlots.get r).offsets := by
  constructor
  · intro r' k' hr'
    by_cases he : r' = r
    · subst he
      exact .inl (Option.some.inj (hr'.content.symm.trans hg.content))
    · rcases hg.others r' he with hsame | hempty
      · rw [hsame] at hr'
        exact .inr (hs.pinned r' k' hr')
      · rw [hempty] at hr'
        cases hr'.content
  · intro w hw
    obtain ⟨hw, hout⟩ := List.mem_filter.mp hw
    obtain ⟨hword, hfree⟩ := hs.exposed w hw
    refine ⟨hword, fun r' hmem => ?_⟩
    by_cases he : r' = r
    · subst he
      rw [FpSlot.offsets_of_content hg.content] at hmem
      simp [hmem] at hout
    · rcases hg.others r' he with hsame | hempty
      · rw [hsame] at hmem
        exact hfree r' hmem
      · rw [hempty] at hmem
        cases hmem

theorem Sound.look (hs : s.Sound h) (hk : s.Admissible k) (hfits : k.1.Fits k.2)
    (hx : HostCache.allocInFp k.2 k.1 s.cache = .ok x c) : (s.look k x c).Sound h := by
  obtain ⟨r, m, rfl, hg⟩ := hs.agrees.allocInFp hfits (hk.idle hs) hx
  obtain ⟨hem, hm⟩ := hs.extend hg.emitted
  have hm : (s.look k (.ofSlot r) c).machine = m := hm
  obtain ⟨hpinned, hexposed⟩ := hs.grant hg
  have hkept {v : FpView} (hv : v ∈ s.views) : ∃ r', v.reg = .ofSlot r' ∧
      (c.fpSlots.get r').Holds v.value ∧ m.getFp v.reg = s.machine.getFp v.reg := by
    obtain ⟨r', hreg, hr'⟩ := hs.views v hv
    obtain ⟨hcontent, hbusy, -, hget⟩ := hg.kept r' _ hr'.busy hr'.content
    exact ⟨r', hreg, ⟨hcontent, hbusy⟩, hreg ▸ hget⟩
  constructor
  · exact hm ▸ hem
  · exact hm ▸ hg.agrees
  · exact hs.words
  · exact hs.rest
  · intro p hp
    obtain ⟨r', hreg, hr', hd⟩ := hs.pens p hp
    obtain ⟨hcontent, hbusy, hdirty, -⟩ := hg.kept r' _ hr'.busy hr'.content
    exact ⟨r', hreg, ⟨hcontent, hbusy⟩, hdirty hd⟩
  · intro v hv
    rcases List.mem_cons.mp hv with rfl | hv
    · exact ⟨r, rfl, hg.content, hg.busy⟩
    · obtain ⟨r', hreg, hr', -⟩ := hkept hv
      exact ⟨r', hreg, hr'⟩
  · intro v hv hcur p hp
    rw [hm] at hp
    rcases List.mem_cons.mp hv with rfl | hv
    · rw [← FpSlot.words_of_content hg.content] at hp
      have hmem := FpSlot.mem_offsets_of_words hp
      rw [FpSlot.offsets_of_content hg.content] at hmem
      refine (hs.words p.1 fun ⟨q, hq, hopen, hw⟩ => ?_).symm.trans (hg.agrees.held r p hp)
      have hvalue := hk.eq_of_mem (List.mem_append_right _ (List.mem_map_of_mem hq)) hmem hw
      have hdone := List.all_eq_true.mp hcur q hq
      simp [hvalue, hopen] at hdone
    · obtain ⟨-, -, -, hget⟩ := hkept hv
      rw [hget] at hp
      exact hs.current v hv hcur p hp
  · intro r' k' hr'
    exact List.mem_cons.mpr (hpinned r' k' hr')
  · exact hexposed

theorem Sound.take (hs : s.Sound h) (hk : s.Admissible k) (hfits : k.1.Fits k.2)
    (hx : HostCache.allocOutFp k.2 k.1 s.cache = .ok x c) : ∃ h', (s.take k x c).Sound h' := by
  obtain ⟨r, m, rfl, hg, hdirty⟩ := hs.agrees.allocOutFp hfits (hk.idle hs) hx
  obtain ⟨hem, hm⟩ := hs.extend hg.emitted
  have hm : (s.take k (.ofSlot r) c).machine = m := hm
  obtain ⟨hpinned, hexposed⟩ := hs.grant hg
  have hnew : (⟨.ofSlot r, k, false⟩ : FpPen) ∈ (s.take k (.ofSlot r) c).pens := List.mem_cons_self
  have hold {p : FpPen} (hp : p ∈ s.pens) (hne : p.value ≠ k) :
      p ∈ (s.take k (.ofSlot r) c).pens :=
    List.mem_cons_of_mem _ (List.mem_filter.mpr ⟨hp, bne_iff_ne.mpr hne⟩)
  refine ⟨_, hm ▸ hem, hm ▸ hg.agrees, ?_, ?_, ?_, ?_, ?_, ?_, hexposed⟩
  · intro w hw
    have hout : w ∉ k.1.offsets k.2 := fun hmem => hw ⟨_, hnew, rfl, hmem⟩
    rw [Cpu.loadWord_storeWords_of_not_mem h (by rwa [FpSize.map_words])]
    refine hs.words w fun ⟨p, hp, hopen, hmem⟩ => ?_
    by_cases hvalue : p.value = k
    · exact hout (hvalue ▸ hmem)
    · exact hw ⟨p, hold hp hvalue, hopen, hmem⟩
  · exact (Cpu.sameRest_storeWords h _).trans hs.rest
  · intro p hp
    rcases List.mem_cons.mp hp with rfl | hp
    · exact ⟨r, rfl, ⟨hg.content, hg.busy⟩, hdirty⟩
    · obtain ⟨r', hreg, hr', hd⟩ := hs.pens p (List.mem_filter.mp hp).1
      obtain ⟨hcontent, hbusy, hdirty', -⟩ := hg.kept r' _ hr'.busy hr'.content
      exact ⟨r', hreg, ⟨hcontent, hbusy⟩, hdirty' hd⟩
  · intro v hv
    obtain ⟨r', hreg, hr'⟩ := hs.views v hv
    obtain ⟨hcontent, hbusy, -, -⟩ := hg.kept r' _ hr'.busy hr'.content
    exact ⟨r', hreg, hcontent, hbusy⟩
  · intro v hv hcur p hp
    obtain ⟨r', hreg, hr'⟩ := hs.views v hv
    obtain ⟨-, -, -, hget⟩ := hg.kept r' _ hr'.busy hr'.content
    rw [hm, hreg, hget, ← hreg] at hp
    exact hs.current v hv hcur p hp
  · intro r' k' hr'
    rcases hpinned r' k' hr' with rfl | hmem
    · exact List.mem_append_right _ (List.mem_map_of_mem hnew)
    · rcases List.mem_append.mp hmem with hmem | hmem
      · exact List.mem_append_left _ hmem
      · obtain ⟨p, hp, rfl⟩ := List.mem_map.mp hmem
        refine List.mem_append_right _ ?_
        by_cases hvalue : p.value = k
        · exact List.mem_map.mpr ⟨_, hnew, hvalue.symm⟩
        · exact List.mem_map_of_mem (hold hp hvalue)

theorem Sound.wordsOf_eq (hs : s.Sound h) {p : FpPen} (hp : p ∈ s.pens) (m : Machine Cpu) :
    s.wordsOf m p.reg = p.value.1.words p.value.2 (m.getFp p.reg) := by
  unfold wordsOf
  cases hf : s.pens.find? (·.reg == p.reg) with
  | none =>
    have := List.find?_eq_none.mp hf p hp
    simp at this
  | some q =>
    have hq : q.reg = p.reg := by simpa using List.find?_some hf
    obtain ⟨r, hr, hheld, -⟩ := hs.pens p hp
    obtain ⟨r', hr', hheld', -⟩ := hs.pens q (List.mem_of_find?_eq_some hf)
    cases Machine.fpSlot_inj (hr'.symm.trans (hq.trans hr))
    have hvalue : q.value = p.value := Option.some.inj (hheld'.content.symm.trans hheld.content)
    rw [Option.elim, hvalue]

theorem Sound.result (hs : s.Sound h) {i : Ir.Instr String} {m : Machine Cpu}
    (hx : ∀ x ∈ i.fpResult?, x ∈ s.pens.map (·.reg)) :
    i.fpResult? = none ∧ i.fpResult?.elim [] (s.wordsOf m) = [] ∨
      ∃ r k, i.fpResult? = some (.ofSlot r) ∧ (s.cache.fpSlots.get r).Holds k ∧
        (s.cache.fpSlots.get r).dirty = true ∧
        i.fpResult?.elim [] (s.wordsOf m) = k.1.words k.2 (m.getFp (.ofSlot r)) := by
  cases hi : i.fpResult? with
  | none => exact .inl ⟨rfl, rfl⟩
  | some x =>
    obtain ⟨p, hp, rfl⟩ := List.mem_map.mp (hx x hi)
    obtain ⟨r, hr, hheld, hd⟩ := hs.pens p hp
    refine .inr ⟨r, p.value, congrArg some hr, hheld, hd, ?_⟩
    rw [← hr]
    exact hs.wordsOf_eq hp m

theorem Sound.compute (hs : s.Sound h) {i : Ir.Instr String} (hi : i.isStraight = true)
    (hx : ∀ x ∈ i.fpResult?, x ∈ s.pens.map (·.reg))
    (hstores : ∀ p ∈ s.machine.contextWords i, p.1 ∈ s.exposed) :
    ∃ h', (s.compute i).Sound h' := by
  obtain ⟨hem, hm⟩ := hs.extend (.add s.cache.builder s.machine (Instr.isPlain_of_isStraight hi))
  have hm : (s.compute i).machine = s.machine.perform i := hm
  obtain ⟨hctx, hget⟩ := s.machine.perform_straight hi
  let ws := s.machine.contextWords i
  let us := i.fpResult?.elim [] (s.wordsOf (s.machine.perform i))
  have hguest : (s.compute i).guest = (s.guest.storeWords ws).storeWords us := by
    change (s.guest.storeWords ws).storeWords
      (i.fpResult?.elim [] (s.wordsOf (s.compute i).machine)) = _
    rw [hm]
  have hws {w : Int} (hw : w ∈ ws.map (·.1)) :
      Cpu.IsWord w ∧ ∀ r, w ∉ (s.cache.fpSlots.get r).offsets := by
    obtain ⟨p, hp, rfl⟩ := List.mem_map.mp hw
    exact hs.exposed _ (hstores p hp)
  -- What is written with a register is what its slot stands for.
  have hus {w : Int} : w ∈ us.map (·.1) ↔
      ∃ r, i.fpResult? = some (.ofSlot r) ∧ w ∈ (s.cache.fpSlots.get r).offsets := by
    rcases hs.result (m := s.machine.perform i) hx with ⟨hnone, hnil⟩ | ⟨r, k, hr, hheld, -, hwords⟩
    · change w ∈ List.map _ (i.fpResult?.elim [] _) ↔ _
      rw [hnil, hnone]
      exact ⟨nofun, fun ⟨_, h, _⟩ => nomatch h⟩
    · change w ∈ List.map _ (i.fpResult?.elim [] _) ↔ _
      rw [hwords, FpSize.map_words, ← FpSlot.offsets_of_content hheld.content, hr]
      constructor
      · exact fun hw => ⟨r, rfl, hw⟩
      · rintro ⟨r', he, hw⟩
        cases Machine.fpSlot_inj (Option.some.inj he)
        exact hw
  have hagrees : FpAgrees (s.compute i).cache (s.machine.perform i)
      ((h.storeWords ws).storeWords us) := by
    have hstored : FpAgrees s.cache { s.machine with ctx := s.machine.ctx.storeWords ws }
        (h.storeWords ws) :=
      hs.agrees.storeWords (fun w hw => (hws hw).2) (fun w hw => (hws hw).1) (fun _ => rfl) rfl
    refine FpAgrees.of_slots (c := s.cache) ?_ fun _ => ⟨rfl, rfl⟩
    rcases hs.result (m := s.machine.perform i) hx with ⟨hnone, hnil⟩ | ⟨r, k, hr, hheld, hd, hwords⟩
    · change FpAgrees _ _ ((h.storeWords ws).storeWords (i.fpResult?.elim [] _))
      rw [hnil]
      refine hstored.of_machine (fun r => ?_) hctx
      exact hget _ (by rw [hnone]; nofun)
    · change FpAgrees _ _ ((h.storeWords ws).storeWords (i.fpResult?.elim [] _))
      rw [hwords]
      refine (hstored.write _ hheld.content hd).of_machine (fun r' => ?_) hctx
      by_cases he : r' = r
      · rw [he, Machine.getFp_setFp_self]
      · have hne : FpReg.ofSlot r ≠ .ofSlot r' := fun h => he (Machine.fpSlot_inj h).symm
        rw [Machine.getFp_setFp_of_ne _ _ hne, hget _ (by rw [hr]; exact fun h => hne (Option.some.inj h))]
        rfl
  have hwords (w : Int) (hw : ¬ (s.compute i).Owes w) :
      ((h.storeWords ws).storeWords us).loadWord w = (s.compute i).guest.loadWord w := by
    rw [hguest]
    refine Cpu.loadWord_storeWords_congr (fun hmem => ?_) fun hout =>
      Cpu.loadWord_storeWords_congr (fun hmem => (hws hmem).1) fun _ => hs.words w ?_
    · obtain ⟨r, -, hmem⟩ := hus.mp hmem
      obtain ⟨k, hk, hmem⟩ := FpSlot.exists_of_mem_offsets hmem
      exact (hs.agrees.fits r k hk).isWord hmem
    · rintro ⟨p, hp, hopen, hmem⟩
      obtain ⟨r, hreg, hheld, -⟩ := hs.pens p hp
      refine hw ⟨_, List.mem_map_of_mem hp, ?_, hmem⟩
      have hne : i.fpResult? ≠ some p.reg := by
        intro hr
        refine hout (hus.mpr ⟨r, hreg ▸ hr, ?_⟩)
        rwa [FpSlot.offsets_of_content hheld.content]
      simp [hopen, hne]
  refine ⟨_, hm ▸ hem, hm ▸ hagrees, hwords, ?_, ?_, ?_, ?_, ?_, hs.exposed⟩
  · rw [hguest]
    exact ((Cpu.sameRest_storeWords _ _).trans (Cpu.sameRest_storeWords _ _)).trans
      (hs.rest.trans ((Cpu.sameRest_storeWords _ _).trans (Cpu.sameRest_storeWords _ _)).symm)
  · intro p hp
    obtain ⟨q, hq, rfl⟩ := List.mem_map.mp hp
    exact hs.pens q hq
  · intro v hv
    obtain ⟨u, hu, rfl⟩ := List.mem_map.mp hv
    exact hs.views u hu
  · intro v hv hcur p hp
    obtain ⟨u, hu, rfl⟩ := List.mem_map.mp hv
    rw [hm] at hp
    obtain ⟨r, hreg, hheld⟩ := hs.views u hu
    dsimp only at hcur hp
    rw [hreg, ← FpSlot.words_of_content hheld.content] at hp
    have hmem := FpSlot.mem_offsets_of_words hp
    by_cases hr : i.fpResult? = some (.ofSlot r)
    · -- The register has just been written.
      refine (hwords p.1 ?_).symm.trans (hagrees.held r p hp)
      rintro ⟨q', hq', hopen, hw⟩
      obtain ⟨q, hq, rfl⟩ := List.mem_map.mp hq'
      obtain ⟨r', hreg', hheld', -⟩ := hs.pens q hq
      rw [← FpSlot.offsets_of_content hheld'.content] at hw
      cases hs.agrees.apart r r' _ hmem hw
      simp [hreg', hr] at hopen
    · have hcur : u.current = true := by simpa [hreg, hr] using hcur
      rw [hguest, Cpu.loadWord_storeWords_of_not_mem, Cpu.loadWord_storeWords_of_not_mem]
      · refine hs.current u hu hcur p ?_
        rwa [hget _ hr, FpSlot.words_of_content hheld.content, ← hreg] at hp
      · exact fun hw => (hws hw).2 r hmem
      · intro hw
        obtain ⟨r', hr', hw⟩ := hus.mp hw
        cases hs.agrees.apart r r' _ hmem hw
        exact hr hr'
  · intro r k hr
    have hvalues : (s.compute i).values = s.values := by
      simp only [values, FpClient.compute, List.map_map]
      rfl
    rw [hvalues]
    exact hs.pinned r k hr

/-- Registers are released whose values are written, and words that no other register holds are
exposed. -/
theorem Sound.release (hs : s.Sound h) {P : FpSlot → Bool} {gone : FpSize × Int → Bool}
    {words : List Int} (hf : FpFrees P s.cache c)
    (hP : ∀ (t : FpSlot) k, t.content = some k → P t = gone k)
    (hwritten : ∀ p ∈ s.pens, gone p.value = true → p.written = true)
    (hwords : ∀ w ∈ words, Cpu.IsWord w ∧ ∀ t : FpSlot, w ∈ t.offsets → P t = true) :
    (s.release c gone words).Sound h := by
  obtain ⟨m, he, ha, -, hfregs⟩ := hf.releases _ _ hs.agrees
  obtain ⟨hem, hm⟩ := hs.extend he
  have hm : (s.release c gone words).machine = m := hm
  have hstays {r : Fin 8} {k : FpSize × Int} (hr : (s.cache.fpSlots.get r).Holds k)
      (hk : gone k = false) : c.fpSlots.get r = s.cache.fpSlots.get r := by
    rw [hf.slots, hP _ k hr.content, hk]
    rfl
  have hslot (r : Fin 8) : c.fpSlots.get r = .empty ∨ c.fpSlots.get r = s.cache.fpSlots.get r := by
    rw [hf.slots]
    split
    · exact .inl rfl
    · exact .inr rfl
  constructor
  · exact hm ▸ hem
  · exact hm ▸ ha
  · intro w hw
    refine hs.words w fun ⟨p, hp, hopen, hmem⟩ => hw ⟨p, List.mem_filter.mpr ⟨hp, ?_⟩, hopen, hmem⟩
    cases hgone : gone p.value with
    | false => rfl
    | true => exact absurd (hwritten p hp hgone) (by rw [hopen]; nofun)
  · exact hs.rest
  · intro p hp
    obtain ⟨hp, hkeep⟩ := List.mem_filter.mp hp
    obtain ⟨r, hreg, hr, hd⟩ := hs.pens p hp
    have hsame := hstays hr (by simpa using hkeep)
    refine ⟨r, hreg, ?_⟩
    change (c.fpSlots.get r).Holds p.value ∧ (c.fpSlots.get r).dirty = true
    rw [hsame]
    exact ⟨hr, hd⟩
  · intro v hv
    obtain ⟨hv, hkeep⟩ := List.mem_filter.mp hv
    obtain ⟨r, hreg, hr⟩ := hs.views v hv
    have hsame := hstays hr (by simpa using hkeep)
    refine ⟨r, hreg, ?_⟩
    change (c.fpSlots.get r).Holds v.value
    rwa [hsame]
  · intro v hv hcur p hp
    rw [hm, Machine.getFp, hfregs] at hp
    exact hs.current v (List.mem_filter.mp hv).1 hcur p hp
  · intro r k hr
    have hsame : c.fpSlots.get r = s.cache.fpSlots.get r := by
      rcases hslot r with hempty | hsame
      · have hcontent : (c.fpSlots.get r).content = some k := hr.content
        rw [hempty] at hcontent
        cases hcontent
      · exact hsame
    have hr' : (s.cache.fpSlots.get r).Holds k := hsame ▸ hr
    have hkeep : gone k = false := by
      rw [← hP _ k hr'.content]
      by_contra hgone
      have hempty := hf.slots r
      rw [if_pos (Bool.not_eq_false _ ▸ hgone), hsame] at hempty
      have hcontent := hr'.content
      rw [hempty] at hcontent
      cases hcontent
    rcases List.mem_append.mp (hs.pinned r k hr') with hmem | hmem
    · obtain ⟨v, hv, rfl⟩ := List.mem_map.mp hmem
      refine List.mem_append_left _ (List.mem_map_of_mem (List.mem_filter.mpr ⟨hv, ?_⟩))
      simpa using hkeep
    · obtain ⟨p, hp, rfl⟩ := List.mem_map.mp hmem
      refine List.mem_append_right _ (List.mem_map_of_mem (List.mem_filter.mpr ⟨hp, ?_⟩))
      simpa using hkeep
  · intro w hw
    rcases List.mem_append.mp hw with hw | hw
    · obtain ⟨hword, hgone⟩ := hwords w hw
      refine ⟨hword, fun r hmem => ?_⟩
      change w ∈ (c.fpSlots.get r).offsets at hmem
      rw [hf.slots] at hmem
      split at hmem
      · cases hmem
      · rename_i hP
        exact hP (hgone _ hmem)
    · obtain ⟨hword, hfree⟩ := hs.exposed w hw
      refine ⟨hword, fun r hmem => ?_⟩
      change w ∈ (c.fpSlots.get r).offsets at hmem
      rcases hslot r with hempty | hsame
      · rw [hempty] at hmem
        cases hmem
      · exact hfree r (hsame ▸ hmem)

theorem isWord_of_fpWords {w : Int} (hw : w ∈ fpWords) : Cpu.IsWord w := by
  obtain ⟨i, hmem, rfl⟩ := List.mem_map.mp hw
  have hi : i < 64 := List.mem_range.mp hmem
  have hfits : FpSize.single.Fits (336 + 4 * (i : Int)) := by
    refine ⟨?_, ?_, ?_⟩
    · omega
    · omega
    · simp only [FpSlot.sizeBytes]
      omega
  exact hfits.isWord (List.mem_singleton_self _)

theorem Sound.clobber (hs : s.Sound h) {off size : Int}
    (hw : ∀ p ∈ s.pens, meets off size p.value = true → p.written = true) :
    (s.release (s.cache.clobberFp off size) (meets off size)
      (fpWords.filter fun w => off ≤ w && w + 4 ≤ off + size)).Sound h := by
  have hf : FpFrees (·.overlaps off size) s.cache (s.cache.clobberFp off size) :=
    fpFrees_freeWhere _ s.cache
  refine hs.release hf (fun t k hk => ?_) hw fun w hmem => ?_
  · rw [FpSlot.overlaps, hk]
    rfl
  · obtain ⟨hmem, hrange⟩ := List.mem_filter.mp hmem
    rw [Bool.and_eq_true, decide_eq_true_eq, decide_eq_true_eq] at hrange
    exact ⟨isWord_of_fpWords hmem, fun t ht => FpSlot.overlaps_of_mem ht hrange.1 hrange.2⟩

theorem Sound.flush (hs : s.Sound h) (hw : s.Settled) :
    (s.release s.cache.flushFp (fun _ => true) fpWords).Sound h := by
  have hf : FpFrees (fun _ => true) s.cache s.cache.flushFp := fpFrees_freeWhere _ s.cache
  refine hs.release hf (fun _ _ _ => rfl) (fun p hp _ => hw p hp) fun w hmem => ?_
  exact ⟨isWord_of_fpWords hmem, fun _ _ => rfl⟩

theorem Sound.of_fpSlots (hs : s.Sound h) (hb : c.builder = s.cache.builder)
    (hslots : c.fpSlots = s.cache.fpSlots) : Sound { s with cache := c } h := by
  have hm : FpClient.machine { s with cache := c } = s.machine := by
    change c.builder.play s.entry = _
    rw [hb]
    rfl
  have hagrees : FpAgrees c s.machine h := hs.agrees.of_slots fun r => by rw [hslots]; exact ⟨rfl, rfl⟩
  refine ⟨?_, hm ▸ hagrees, hs.words, hs.rest, ?_, ?_, ?_, ?_, ?_⟩
  · rw [hm]
    change Emitted .empty s.entry c.builder s.machine
    rw [hb]
    exact hs.emitted
  · simpa only [hslots] using hs.pens
  · simpa only [hslots] using hs.views
  · rw [hm]
    exact hs.current
  · intro r k hr
    change (c.fpSlots.get r).Holds k at hr
    rw [hslots] at hr
    exact hs.pinned r k hr
  · simpa only [hslots] using hs.exposed

theorem Sound.close (hs : s.Sound h) (hw : s.cache.depth = 1 → s.Settled) :
    (s.close s.cache.ended).Sound h := by
  have hdepth : s.cache.ended.depth = s.cache.depth - 1 := by
    unfold HostCache.ended
    dsimp only
    split <;> rfl
  have hbuilder : s.cache.ended.builder = s.cache.builder := by
    unfold HostCache.ended
    dsimp only
    split <;> rfl
  unfold FpClient.close
  by_cases h1 : s.cache.depth = 1
  · rw [if_pos (by omega)]
    have hslot (r : Fin 8) :
        s.cache.ended.fpSlots.get r = { s.cache.fpSlots.get r with busy := false } := by
      unfold HostCache.ended
      dsimp only
      rw [if_pos h1, Vector.get_map]
      rfl
    have hm : FpClient.machine { s with cache := s.cache.ended, views := [], pens := [] } =
        s.machine := by
      change s.cache.ended.builder.play s.entry = _
      rw [hbuilder]
      rfl
    refine ⟨?_, ?_, ?_, hs.rest, nofun, nofun, nofun, ?_, ?_⟩
    · rw [hm]
      change Emitted .empty s.entry s.cache.ended.builder s.machine
      rw [hbuilder]
      exact hs.emitted
    · rw [hm]
      exact hs.agrees.of_slots fun r => by rw [hslot]; exact ⟨rfl, rfl⟩
    · intro w _
      refine hs.words w fun ⟨p, hp, hopen, _⟩ => ?_
      rw [hw h1 p hp] at hopen
      cases hopen
    · intro r k hr
      have hbusy : (s.cache.ended.fpSlots.get r).busy = true := hr.busy
      rw [hslot] at hbusy
      cases hbusy
    · intro w hmem
      obtain ⟨hword, hfree⟩ := hs.exposed w hmem
      refine ⟨hword, fun r hr => hfree r ?_⟩
      change w ∈ (s.cache.ended.fpSlots.get r).offsets at hr
      rwa [hslot] at hr
  · rw [if_neg (by omega)]
    refine hs.of_fpSlots hbuilder ?_
    unfold HostCache.ended
    dsimp only
    rw [if_neg h1]

/-- Whatever is allowed succeeds and keeps the invariant. -/
theorem Sound.step (hs : s.Sound h) {op : FpClientOp} (ha : s.Allows op) :
    ∃ s' h', s.step op = .ok s' ∧ s'.entry = s.entry ∧ s'.Sound h' := by
  cases op with
  | startOp => exact ⟨_, h, rfl, rfl, hs.of_fpSlots rfl rfl⟩
  | endOp =>
    have hend : s.step .endOp = .ok (s.close s.cache.ended) := by
      rw [FpClient.step, HostCache.endOp_eq ha.1]
    have hentry : (s.close s.cache.ended).entry = s.entry := by
      unfold FpClient.close
      split <;> rfl
    exact ⟨_, h, hend, hentry, hs.close ha.2⟩
  | read wide size r =>
    obtain ⟨x, c, hx⟩ := Admissible.allocIn ha hs
    refine ⟨s.look (size, size.place wide r) x c, h, ?_, rfl,
      hs.look ha (FpSize.fits_place size wide r) hx⟩
    rw [FpClient.step, hx]
  | write wide size r =>
    obtain ⟨x, c, hx⟩ := Admissible.allocOut ha hs
    obtain ⟨h', hs'⟩ := hs.take ha (FpSize.fits_place size wide r) hx
    refine ⟨s.take (size, size.place wide r) x c, h', ?_, rfl, hs'⟩
    rw [FpClient.step, hx]
  | code i =>
    obtain ⟨hi, hx, hstores⟩ := ha
    obtain ⟨h', hs'⟩ := hs.compute hi hx hstores
    exact ⟨s.compute i, h', rfl, rfl, hs'⟩
  | clobber off size =>
    refine ⟨s.release (s.cache.clobberFp off size) _ _, h, ?_, ?_, hs.clobber ha⟩
    · rw [FpClient.step]
    · rw [FpClient.release]
  | flush =>
    refine ⟨s.release s.cache.flushFp _ _, h, ?_, ?_, hs.flush ha⟩
    · rw [FpClient.step]
    · rw [FpClient.release]

theorem Sound.run (hs : s.Sound h) {ops : List FpClientOp} (ha : s.Admits ops) :
    ∃ s' h', s.run ops = .ok s' ∧ s'.entry = s.entry ∧ s'.Sound h' := by
  induction ops generalizing s h with
  | nil => exact ⟨s, h, rfl, rfl, hs⟩
  | cons op ops ih =>
    obtain ⟨s₁, h₁, hstep, hentry₁, hs₁⟩ := hs.step ha.1
    obtain ⟨s₂, h₂, hrun, hentry₂, hs₂⟩ := ih hs₁ (ha.2 s₁ hstep)
    refine ⟨s₂, h₂, ?_, hentry₂.trans hentry₁, hs₂⟩
    rw [FpClient.run, hstep]
    exact hrun

theorem sound_create (m : Machine Cpu) : (create m).Sound m.ctx := by
  refine ⟨.refl _ _, .create _ m, fun _ _ => rfl, .refl _, nofun, nofun, nofun,
    fun r k hr => ?_, nofun⟩
  have hbusy := hr.busy
  rw [show (create m).cache.fpSlots.get r = .empty from Vector.get_replicate ..] at hbusy
  cases hbusy

theorem Sound.exposed_eq (hs : s.Sound h) {w : Int} (hw : w ∈ s.exposed) :
    s.machine.ctx.loadWord w = s.guest.loadWord w := by
  obtain ⟨-, hfree⟩ := hs.exposed w hw
  rw [hs.agrees.synced w fun r _ => hfree r]
  refine hs.words w fun ⟨p, hp, _, hmem⟩ => ?_
  obtain ⟨r, -, hheld, -⟩ := hs.pens p hp
  rw [← FpSlot.offsets_of_content hheld.content] at hmem
  exact hfree r hmem

theorem Sound.finish (hs : s.Sound h) (hpc : s.entry.pc = 0) (hw : s.Settled) :
    ∃ p, (s.cache.flushFp.emit (.exit 0)).builder.build = .ok p ∧
      ∀ links, ∃ m, (s.entry.load p).run links = some (.ok 0, m) ∧ m.ctx = s.guest := by
  obtain ⟨m, he, ha, -⟩ := (fpFrees_freeWhere (fun _ => true) s.cache).releases _ _ hs.agrees
  obtain ⟨hem, -⟩ := hs.extend he
  have hctx : m.ctx = s.guest := by
    refine Cpu.ext_words (fun w _ => ?_) (ha.rest.trans hs.rest)
    have hclean : m.ctx.loadWord w = h.loadWord w := by
      refine ha.synced w fun r hd => ?_
      rw [(fpFrees_freeWhere _ s.cache).slots] at hd
      cases hd
    refine hclean.trans (hs.words w fun ⟨p, hp, hopen, _⟩ => ?_)
    rw [hw p hp] at hopen
    cases hopen
  obtain ⟨p, hp, hrun⟩ := hem.run hpc
  exact ⟨p, hp, fun links => ⟨_, hrun links, hctx⟩⟩

/-- Every session of a client that keeps to the rules goes well. The registers that it has for
reading hold the current words of their values, whenever it has them, and so does the context for
the words that it brought there; and the program, from any registers, leaves the context as if
each write had gone there at once. -/
theorem session_refines (m : Machine Cpu) (hpc : m.pc = 0) (ops : List FpClientOp)
    (ha : (create m).Admits ops) :
    ∃ s, (create m).run ops = .ok s ∧
      (∀ v ∈ s.views, v.current = true →
        ∀ p ∈ v.value.1.words v.value.2 (s.machine.getFp v.reg), s.guest.loadWord p.1 = p.2) ∧
      (∀ w ∈ s.exposed, s.machine.ctx.loadWord w = s.guest.loadWord w) ∧
      (s.Settled → ∃ p, (s.cache.flushFp.emit (.exit 0)).builder.build = .ok p ∧
        ∀ links, ∃ m', (m.load p).run links = some (.ok 0, m') ∧ m'.ctx = s.guest) := by
  obtain ⟨s, h, hrun, hentry, hs⟩ := (sound_create m).run ha
  have hfinish := hs.finish (by rw [hentry]; exact hpc)
  rw [hentry] at hfinish
  exact ⟨s, hrun, hs.current, fun w hw => hs.exposed_eq hw, hfinish⟩

/-- A double is written, and its high half is read as a single under the name of the odd register;
then its low half is written in the context. -/
def halves : List FpClientOp :=
  [.startOp, .write false .double 2, .code (.fld .double Layout.pc ⟨0⟩), .endOp,
    .startOp, .read false .single 3, .write false .single 4, .code (.funary .mov .single ⟨0⟩ ⟨1⟩),
    .clobber (Layout.double false 2) 8, .code (.stci 7 (Layout.double false 2)), .flush, .endOp]

theorem session_refines_halves : Client.idle.pc = 0 ∧ (create Client.idle).Admits halves ∧
    ∃ s, (create Client.idle).run halves = .ok s ∧
      (∀ v ∈ s.views, v.current = true →
        ∀ p ∈ v.value.1.words v.value.2 (s.machine.getFp v.reg), s.guest.loadWord p.1 = p.2) ∧
      (∀ w ∈ s.exposed, s.machine.ctx.loadWord w = s.guest.loadWord w) ∧
      (s.Settled → ∃ p, (s.cache.flushFp.emit (.exit 0)).builder.build = .ok p ∧
        ∀ links, ∃ m', (Client.idle.load p).run links = some (.ok 0, m') ∧ m'.ctx = s.guest) :=
  have ha : (create Client.idle).Admits halves := by decide +kernel
  ⟨rfl, ha, session_refines Client.idle rfl halves ha⟩

end FpClient

end Recompiler
