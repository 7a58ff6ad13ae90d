import Recompiler.Proofs.Conditions

/-!
The code of branches. A branch and its delay slot are one scope, in which the outcome of the branch
is kept while the slot runs; after it the program leaves for where the interpreter goes.
-/

namespace Recompiler

open Ir Emit Interp

variable {W : Finished} {Q : Cpu → Prop} {c₀ : HostCache} {m₀ m : Machine Cpu} {env : Operands}
  {e : Emitter} {g c : Cpu} {cfg : Config} {s : Site} {i d : Recompiler.Instr} {pc : UInt32}

namespace Interp

/-- Where control goes after the delay slot, unless that is skipped. -/
def Branch.next? (b : Branch) (pc : UInt32) : Option UInt32 :=
  if b.taken then some b.target else if b.likely then none else some (pc + 8)

theorem Branch.next?_of_flow {b b' : Branch} (h : b.flow pc = b'.flow pc) :
    b.next? pc = b'.next? pc := by
  unfold flow at h
  unfold next?
  grind

theorem finishBranch_eq {b : Branch}
    (hf : ((c.goto (pc + 4)).slot).fetch (pc + 4) = (some d, (c.goto (pc + 4)).slot)) :
    (finishBranch c pc b).2 = match b.next? pc with
      | none => c.goto (pc + 8)
      | some target =>
        if (effect ((c.goto (pc + 4)).slot) d (pc + 4)).leave = 0 then
          { effect ((c.goto (pc + 4)).slot) d (pc + 4) with delay := 0, pc := target }
        else effect ((c.goto (pc + 4)).slot) d (pc + 4) := by
  have hslot : { c with pc := pc + 4, delay := 1 } = (c.goto (pc + 4)).slot := rfl
  unfold finishBranch Branch.next?
  simp only [hslot, hf]
  cases b.taken <;> cases b.likely <;>
    simp only [Bool.not_false, Bool.not_true, Bool.and_false, Bool.and_true, Bool.false_eq_true,
      reduceIte, ite_leave]
  rfl

end Interp

namespace Emit

/-- Code that goes one of two ways. -/
def either (j : Ir.Instr String) (name : String) (f h : EmitM Unit) : EmitM Unit := do
  emit j
  let saved := (← get).cache.snapshot
  f
  modifyCache (·.restore saved)
  putLabel name
  h

def slotSite (s : Site) (slot : TraceOp) : Site := ⟨s.pc + 4, s.index + 1, true, slot.widths⟩

/-- What follows the evaluation of a jump. -/
def afterJump (cfg : Config) (s : Site) (i : Recompiler.Instr) (slot : TraceOp) (out : Outcome) :
    EmitM Unit := do
  instr cfg (slotSite s slot) slot.instr
  retire out.target
  if i.opcode = 0 then exitReg cfg out.target (s.index + 2)
  else exitDirect cfg (i.jumpTarget s.pc) (s.index + 2) true

/-- What follows the evaluation of a branch that skips its delay slot if it is not taken. -/
def afterLikely (cfg : Config) (s : Site) (i : Recompiler.Instr) (slot : TraceOp)
    (out : Outcome) : EmitM Unit := do
  let skip ← freshLabel "skip"
  either (.branchConst .eq out.cond 0 skip) skip
    (do
      instr cfg (slotSite s slot) slot.instr
      retire .rz
      exitDirect cfg (i.branchTarget s.pc) (s.index + 2) true)
    (exitDirect cfg (s.pc + 8) (s.index + 1) true)

/-- What follows the evaluation of another branch. -/
def afterBranch (cfg : Config) (s : Site) (i : Recompiler.Instr) (slot : TraceOp)
    (out : Outcome) : EmitM Unit := do
  let notTaken ← freshLabel "nt"
  instr cfg (slotSite s slot) slot.instr
  retire out.cond
  either (.branchConst .eq out.cond 0 notTaken) notTaken
    (exitDirect cfg (i.branchTarget s.pc) (s.index + 2) true)
    (exitDirect cfg (s.pc + 8) (s.index + 2) true)

/-- What follows the evaluation of a branch. -/
def afterEvaluation (cfg : Config) (s : Site) (i : Recompiler.Instr) (slot : TraceOp)
    (out : Outcome) : EmitM Unit :=
  if i.isJump then afterJump cfg s i slot out
  else if i.isLikely then afterLikely cfg s i slot out
  else afterBranch cfg s i slot out

theorem branchAndSlot_eq (cfg : Config) (s : Site) (i : Recompiler.Instr) (slot : TraceOp) :
    branchAndSlot cfg s i slot = (do
      modifyCache (·.startOp)
      let out ← evaluate s i
      writeLink s i
      modifyCache unpinAll
      afterEvaluation cfg s i slot out
      onCache HostCache.endOp) := by
  unfold branchAndSlot afterEvaluation afterJump afterLikely afterBranch either
  split
  · split <;> simp only [bind_assoc] <;> rfl
  · split <;> simp only [bind_assoc] <;> rfl

instance (j : Ir.Instr String) (name : String) (f h : EmitM Unit) [Grows f] [Grows h] :
    Grows (either j name f h) := by
  unfold either
  infer_instance

instance (s : Site) (i : Recompiler.Instr) (slot : TraceOp) (out : Outcome) :
    Grows (afterJump cfg s i slot out) := by
  unfold afterJump
  infer_instance

instance (s : Site) (i : Recompiler.Instr) (slot : TraceOp) (out : Outcome) :
    Grows (afterLikely cfg s i slot out) := by
  unfold afterLikely
  infer_instance

instance (s : Site) (i : Recompiler.Instr) (slot : TraceOp) (out : Outcome) :
    Grows (afterBranch cfg s i slot out) := by
  unfold afterBranch
  infer_instance

instance (s : Site) (i : Recompiler.Instr) (slot : TraceOp) (out : Outcome) :
    Grows (afterEvaluation cfg s i slot out) := by
  unfold afterEvaluation
  infer_instance

end Emit

/-- Code that goes one of two ways, and ends the run on either. -/
theorem Emit.Runs.either {j : Ir.Instr String} {name : String} {taken : Bool} {f h : EmitM Unit}
    [Grows f] [Grows h] (hj : j.Decides m name taken)
    (hf : taken = false → Runs W Q f { e with cache := e.cache.emit j } m.next fun _ _ _ => False)
    (hh : taken = true → ∀ e' pc, e'.cache.slots = e.cache.slots →
      e'.cache.fpSlots = e.cache.fpSlots → Runs W Q h e' { m with pc := pc } fun _ _ _ => False) :
    Runs W Q (either j name f h) e m fun _ _ _ => False := by
  intro a e' hx hp hm
  obtain ⟨_, e₁, hx₁, hx⟩ := bind_ok hx
  cases hx₁
  obtain ⟨_, _, hget, hx⟩ := bind_ok hx
  cases hget
  obtain ⟨_, e₂, hfx, hx⟩ := bind_ok hx
  obtain ⟨_, e₃, hrestore, hx⟩ := bind_ok hx
  obtain ⟨_, e₄, hput, hhx⟩ := bind_ok hx
  have hp₄ : e₄.Precedes W.emitter := (Grows.precedes hhx).trans hp
  have hp₂ : e₂.Precedes W.emitter :=
    (Grows.precedes hrestore).trans ((Grows.precedes hput).trans hp₄)
  obtain ⟨b, hb, rfl⟩ := putLabel_ok hput
  cases hrestore
  have hadd : (e.cache.builder.add j).Precedes W.builder := ((Grows.precedes hfx).trans hp₂).builder
  have hcode := Finished.code_at hadd hm
  cases taken with
  | false =>
    have hat : W.At (e.cache.builder.add j) m.next := Finished.at_add hadd hm ⟨rfl, rfl⟩
    exact fun _ => .advance hcode (hj W.position) (hf rfl _ _ hfx hp₂ hat nofun)
  | true =>
    refine fun _ => .jump hcode (hj W.position)
      (hh rfl _ (W.position name) ?_ ?_ _ _ hhx hp ⟨hm.program, ?_⟩ nofun)
    · rfl
    · rfl
    · exact (Finished.position_eq hb hp₄.builder).trans
        (congrArg Array.size (Builder.label_ok hb).1).symm

/-- What is kept of the branch `i` while its delay slot runs: the target of a register jump, and
the outcome of a test. -/
structure Keeps (c : Cpu) (i : Recompiler.Instr) (out : Outcome) (c₀ : HostCache)
    (m₀ : Machine Cpu) : Prop where
  target : i.opcode = 0 → ∃ r, out.target = .ofSlot r ∧ (c₀.slot r).content = .temp ∧
    m₀.get (.ofSlot r) = (c.reg i.rs).toUInt32
  cond : i.isJump = false → ∃ r, out.cond = .ofSlot r ∧ (c₀.slot r).content = .temp ∧
    (m₀.get (.ofSlot r) != 0) = (branchTest i).holds c i
  only : ∀ r, (c₀.slot r).content = .temp →
    .ofSlot r = if i.isJump then out.target else out.cond

namespace Working

theorem isJump_of_opcode (hb : i.isBranch = true) (ho : i.opcode = 0) : i.isJump = true := by
  cases hj : i.isJump with
  | true => rfl
  | false =>
    rcases opcode_of_branch hb hj with h | h | h <;> rw [ho] at h
    · cases h
    · cases h
    · exact absurd h (by decide)

/-- Before its delay slot, a branch is evaluated. -/
protected theorem evaluate (h : Working c₀ m₀ [] e m g) (hs : g.Stands c) (hb : i.isBranch = true)
    (hw : s.widths.Holds g) : Runs W Q (evaluate s i) e m fun out e' m' =>
      ∃ c₁, Working c₁ m' [] e' m' g ∧ Keeps c i out c₁ m' := by
  unfold Emit.evaluate
  refine .ite (fun ho => ?_) fun ho => .ite (fun hj => .pure ?_) fun hj => ?_
  · refine .bind h.temp fun t e m h => .bind (h.inLow (rs i)) fun x e m h => ?_
    refine .bind (h.setTemp 1 rfl (i := .mov x t) rfl (perform_mov (h.valueAt 0 rfl)))
      fun _ e m h => .pure ?_
    obtain ⟨r, rfl, ht, h, hv⟩ := keep (h.weaken (List.sublist_append_right [_] _))
    have hj := isJump_of_opcode hb ho
    refine ⟨_, h, fun _ => ⟨r, rfl, ht, ?_⟩, fun hn => ?_, fun r' hr' => ?_⟩
    · rw [hv, hs.guest, Emit.rs, Cpu.guest_ofReg]
      rfl
    · rw [hj] at hn
      cases hn
    · rw [HostCache.temp_keeping hr', if_pos hj]
  · refine ⟨_, h.unkept Builder.empty _, fun hn => absurd hn ho, fun hn => ?_,
      fun r hr => absurd hr (HostCache.temp_create _ r)⟩
    cases hj.symm.trans hn
  · refine .bind (h.condition hs hw) fun t e m hcond => .pure ?_
    obtain ⟨v, h, hv⟩ := hcond
    obtain ⟨r, rfl, ht, h, hr⟩ := h.keep
    refine ⟨_, h, fun hn => absurd hn ho, fun _ => ⟨r, rfl, ht, ?_⟩, fun r' hr' => ?_⟩
    · rw [hr, hv]
    · rw [HostCache.temp_keeping hr', if_neg hj]

end Working

def slotted (c : Cpu) (pc : UInt32) (d : Recompiler.Instr) : Cpu :=
  service ((c.goto (pc + 4)).slot) d .exec

/-- The run ends well if the branch at `pc`, which has had its effect, goes to `next?` through the
delay slot `d`, or past it. -/
structure Lands (Q : Cpu → Prop) (c : Cpu) (pc : UInt32) (d : Recompiler.Instr)
    (next? : Option UInt32) : Prop where
  skips : next? = none → ∀ r, (c.goto (pc + 8)).SameGuest r → Q r
  raises : next? ≠ none → (slotted c pc d).leave ≠ 0 → ∀ f, Q ((slotted c pc d).framed f)
  lands : ∀ target, next? = some target → (slotted c pc d).leave = 0 →
    ∀ r, ((slotted c pc d).goto target).SameGuest r → Q r
  zero : (slotted c pc d).leave = 0 → (slotted c pc d).reg .zero = 0

theorem Cpu.Stands.effect (h : g.Stands c) (hb : i.isBranch = true) (pc : UInt32) :
    (Interp.effect g i pc).Stands (Interp.effect c i pc) := by
  rw [effect_of_isBranch hb, effect_of_isBranch hb]
  cases i.link? with
  | none => exact h
  | some r =>
    change (g.setReg r _).Stands (c.setReg r _)
    rw [← Cpu.setGuest_ofReg, ← Cpu.setGuest_ofReg]
    exact h.setGuest _ _

theorem Cpu.Stands.sameRegs (h : g.Stands c) : c.SameRegs g := by
  obtain ⟨pc, delay, leave, f, rfl⟩ := h
  exact ⟨rfl, rfl, rfl, rfl⟩

theorem isJump_ofSpecial_iff {funct : UInt32} (h : (Kind.ofSpecial funct).isJump = true) :
    Kind.ofSpecial funct = .jr ∨ Kind.ofSpecial funct = .jalr := by
  unfold Kind.ofSpecial at h ⊢
  split at h <;> first | exact .inl rfl | exact .inr rfl | cases h

theorem branch?_of_isJump (hj : i.isJump = true) : branch? c i pc =
    some ⟨true, false, if i.opcode = 0 then (c.reg i.rs).toUInt32 else i.jumpTarget pc⟩ := by
  unfold Recompiler.Instr.isJump Recompiler.Instr.kind at hj
  unfold branch? Recompiler.Instr.kind
  split at hj
  case h_1 ho =>
    rw [if_pos ho]
    rcases isJump_ofSpecial_iff hj with hk | hk <;> rw [hk]
  case h_3 ho | h_4 ho => rw [if_neg (by rw [ho]; decide)]
  case h_2 =>
    unfold Kind.ofRegimm at hj
    split at hj <;> cases hj
  case h_17 =>
    unfold Kind.ofCop0 at hj
    repeat' split at hj
    all_goals cases hj
  case h_18 =>
    unfold Kind.ofCop1 at hj
    split at hj <;> cases hj
  all_goals cases hj

/-- What the code of a delay slot relies on. -/
structure SlotReady (cfg : Config) (Q : Cpu → Prop) (s : Site) (slot : TraceOp) (c : Cpu)
    (next? : Option UInt32) : Prop where
  lands : Lands Q c s.pc slot.instr next?
  suits : cfg.Suits c
  widths : slot.widths.Holds c
  noArithmetic : ∀ format op, slot.instr.kind ≠ .fp format op

namespace Working

variable {slot : TraceOp} {next? : Option UInt32} {target : UInt32} {out : Outcome}
  {linkable : Bool} {n : Nat}

theorem runSlot (hW : W.Stubbed) (h : Working c₀ m₀ [] e m g) (hs : g.Stands c)
    (hr : SlotReady cfg Q s slot c next?) (hn : next? ≠ none)
    (hd : e.cache.depth = 0 → ∀ r, (c₀.slot r).content ≠ .temp) :
    Runs W Q (instr cfg (slotSite s slot) slot.instr) e m
      (Arrives c₀ m₀ (slotted c s.pc slot.instr)) := by
  have hstands : g.Stands ((c.goto (s.pc + 4)).slot) := by
    obtain ⟨pc, delay, leave, f, rfl⟩ := hs
    exact ⟨pc, delay, leave, f, rfl⟩
  exact h.instr hW ⟨hstands, rfl, rfl, hr.lands.raises hn, hr.lands.zero⟩
    ⟨hr.suits.created, hr.suits.ramSize, hr.suits.noDevice, hr.suits.devices, hr.suits.wideFp⟩
    (hr.widths.of_sameRegs hs.sameRegs) hr.noArithmetic hd

theorem slotThen {x : HostReg} {f : EmitM Unit} [Grows f] (hW : W.Stubbed)
    (h : Working c₀ m₀ [] e m g) (hs : g.Stands c)
    (hr : SlotReady cfg Q s slot c next?) (hn : next? ≠ none)
    (hd : e.cache.depth = 0 → ∀ r, (c₀.slot r).content ≠ .temp)
    (hx : ∀ r, (c₀.slot r).content = .temp → .ofSlot r = x)
    (hf : (slotted c s.pc slot.instr).leave = 0 → ∀ e' m' g', Working c₀ m₀ [] e' m' g' →
      g'.Stands (slotted c s.pc slot.instr) → e'.cache.depth = e.cache.depth →
      Runs W Q f e' m' fun _ _ _ => False) :
    Runs W Q (do
      instr cfg (slotSite s slot) slot.instr
      retire x
      f) e m fun _ _ _ => False := by
  refine .bind (h.runSlot hW hs hr hn hd).nested fun _ e m ⟨⟨hl, g', h, hs⟩, hdepth⟩ => ?_
  exact .bind (h.retire hx) fun _ e m ⟨h, hdepth'⟩ => hf hl e m g' h hs (hdepth'.trans hdepth)

protected theorem afterJump (hW : W.Stubbed) (h : Working c₀ m₀ [] e m g) (hs : g.Stands c)
    {c₁ : Cpu} (hj : i.isJump = true) (hk : Keeps c₁ i out c₀ m₀) (hd : e.cache.depth ≠ 0)
    (hr : SlotReady cfg Q s slot c
      (some (if i.opcode = 0 then (c₁.reg i.rs).toUInt32 else i.jumpTarget s.pc))) :
    Runs W Q (afterJump cfg s i slot out) e m fun _ _ _ => False := by
  unfold Emit.afterJump
  refine h.slotThen hW hs hr nofun (fun h0 => absurd h0 hd) (fun r ht => ?_)
    fun hl e' m' g' h hs hdepth => ?_
  · rw [hk.only r ht, if_pos hj]
  · refine .ite (fun ho => ?_) fun ho => ?_
    · obtain ⟨r, hout, ht, hv⟩ := hk.target ho
      rw [hout]
      refine h.exitReg hs (hdepth ▸ hd) ht ?_
      rw [hv]
      exact hr.lands.lands _ (congrArg some (if_pos ho)) hl
    · exact h.exitDirect hs (fun h0 => absurd (hdepth ▸ h0) hd)
        (hr.lands.lands _ (congrArg some (if_neg ho)) hl)

theorem decides_zero {x : HostReg} {name : String} (m : Machine Cpu) :
    Ir.Instr.Decides (.branchConst .eq x 0 name) m name (m.get x == 0) := fun _ => rfl

protected theorem afterLikely (hW : W.Stubbed) (h : Working c₀ m₀ [] e m g) (hs : g.Stands c)
    {c₁ : Cpu} (hj : i.isJump = false) (hk : Keeps c₁ i out c₀ m₀)
    (hr : SlotReady cfg Q s slot c
      (if (branchTest i).holds c₁ i then some (i.branchTarget s.pc) else none)) :
    Runs W Q (afterLikely cfg s i slot out) e m fun _ _ _ => False := by
  obtain ⟨r, hout, ht, hv⟩ := hk.cond hj
  unfold Emit.afterLikely
  refine .bind h.freshLabel fun skip e m' ⟨h, _⟩ => ?_
  rw [hout]
  have hcond : (m'.get (.ofSlot r) == 0) = !(branchTest i).holds c₁ i := by
    rw [h.kept.regs r ht, ← hv]
    exact (Bool.not_not _).symm
  refine .either (decides_zero _) (fun hn => ?_) fun hn e' pc hslots hfp => ?_
  · rw [hcond, Bool.not_eq_false'] at hn
    rw [if_pos hn] at hr
    have h' : Working (.create Builder.empty) m' []
        { e with cache := e.cache.emit (.branchConst .eq (.ofSlot r) 0 skip) } m'.next g :=
      (h.unkept Builder.empty m').congr rfl rfl (fun _ => rfl) rfl
    refine h'.slotThen hW hs hr nofun (fun _ => HostCache.temp_create _)
      (fun r ht => absurd ht (HostCache.temp_create _ r)) fun hl e' m' g' h hs _ => ?_
    exact h.exitDirect hs (fun _ => HostCache.temp_create _) (hr.lands.lands _ rfl hl)
  · rw [hcond, Bool.not_eq_true'] at hn
    rw [hn] at hr
    have h' : Working (.create Builder.empty) m' [] e' { m' with pc := pc } g :=
      (h.unkept Builder.empty m').congr hslots hfp (fun _ => rfl) rfl
    exact h'.exitDirect hs (fun _ => HostCache.temp_create _) (hr.lands.skips rfl)

protected theorem afterBranch (hW : W.Stubbed) (h : Working c₀ m₀ [] e m g) (hs : g.Stands c)
    {c₁ : Cpu} (hj : i.isJump = false) (hk : Keeps c₁ i out c₀ m₀) (hd : e.cache.depth ≠ 0)
    (hr : SlotReady cfg Q s slot c
      (some (if (branchTest i).holds c₁ i then i.branchTarget s.pc else s.pc + 8))) :
    Runs W Q (afterBranch cfg s i slot out) e m fun _ _ _ => False := by
  obtain ⟨r, hout, ht, hv⟩ := hk.cond hj
  unfold Emit.afterBranch
  refine .bind h.freshLabel.nested fun notTaken e₁ m₁ ⟨⟨h, _⟩, hdepth⟩ => ?_
  refine h.slotThen hW hs hr nofun (fun h0 => absurd (hdepth ▸ h0) hd) (fun r' ht' => ?_)
    fun hl e₂ m₂ g' h hs _ => ?_
  · rw [hk.only r' ht', if_neg (by rw [hj]; nofun)]
  rw [hout]
  have hcond : (m₂.get (.ofSlot r) == 0) = !(branchTest i).holds c₁ i := by
    rw [h.kept.regs r ht, ← hv]
    exact (Bool.not_not _).symm
  refine .either (decides_zero _) (fun hn => ?_) fun hn e₃ pc hslots hfp => ?_
  · rw [hcond, Bool.not_eq_false'] at hn
    have h' : Working (.create Builder.empty) m₂ []
        { e₂ with cache := e₂.cache.emit (.branchConst .eq (.ofSlot r) 0 notTaken) } m₂.next g' :=
      (h.unkept Builder.empty m₂).congr rfl rfl (fun _ => rfl) rfl
    exact h'.exitDirect hs (fun _ => HostCache.temp_create _)
      (hr.lands.lands _ (congrArg some (if_pos hn)) hl)
  · rw [hcond, Bool.not_eq_true'] at hn
    have h' : Working (.create Builder.empty) m₂ [] e₃ { m₂ with pc := pc } g' :=
      (h.unkept Builder.empty m₂).congr hslots hfp (fun _ => rfl) rfl
    exact h'.exitDirect hs (fun _ => HostCache.temp_create _)
      (hr.lands.lands _ (congrArg some (if_neg (by rw [hn]; nofun))) hl)

/-- The code of a branch with its delay slot leaves where the interpreter does. -/
protected theorem branchAndSlot {t : Branch} (hW : W.Stubbed) (h : Working c₀ m₀ [] e m g)
    (hd : e.cache.depth = 0) (hs : g.Stands c) (hb : i.isBranch = true) (hw : s.widths.Holds c)
    (ht : branch? c i s.pc = some t)
    (hr : SlotReady cfg Q s slot (Interp.effect c i s.pc) (t.next? s.pc)) :
    Runs W Q (branchAndSlot cfg s i slot) e m fun _ _ _ => False := by
  rw [branchAndSlot_eq]
  refine .bind (.modifyCache (L := fun _ e' m' => Working c₀ m₀ [] e' m' g ∧
    e'.cache.depth = e.cache.depth + 1) (.refl _ _) ⟨h.congr rfl rfl (fun _ => rfl) rfl, rfl⟩)
    fun _ e₁ m₁ ⟨h, hd₁⟩ => ?_
  refine .bind (h.evaluate hs hb (hw.of_sameRegs hs.sameRegs)).nested
    fun out e₂ m₂ ⟨⟨c₁, h, hk⟩, hd₂⟩ => ?_
  refine .bind (h.writeLink hb).nested fun _ e₃ m₃ ⟨h, hd₃⟩ => ?_
  refine .bind h.unpinAll.nested fun _ e₄ m₄ ⟨h, hd₄⟩ => ?_
  have hdepth : e₄.cache.depth ≠ 0 := by
    rw [hd₄, hd₃, hd₂, hd₁, hd]
    decide
  have hs' := hs.effect hb s.pc
  refine .bind (K := fun _ _ _ => False) ?_ fun _ _ _ hf => hf.elim
  unfold Emit.afterEvaluation
  refine .ite (fun hj => ?_) fun hj => .ite (fun hlikely => ?_) fun hlikely => ?_
  · rw [branch?_of_isJump hj] at ht
    cases ht
    exact h.afterJump hW hs' hj hk hdepth hr
  all_goals
    rw [Bool.not_eq_true] at hj
    rw [branch?_of_test hb hj] at ht
    cases ht
    unfold Branch.next? relative at hr
  · refine h.afterLikely hW hs' hj hk ?_
    rwa [if_pos hlikely] at hr
  · refine h.afterBranch hW hs' hj hk hdepth ?_
    rw [apply_ite some]
    rwa [if_neg hlikely] at hr

end Working

end Recompiler
