import Recompiler.Proofs.Nesting

/-!
The code of an instruction. Inline or by a service, it leads from a state of the guest to the one
that the interpreter leaves; when an exception is raised the run ends there.
-/

namespace Recompiler

open Ir Emit Interp

variable {W : Finished} {Q : Cpu → Prop} {c₀ : HostCache} {m₀ m : Machine Cpu} {e : Emitter}
  {g c : Cpu} {s : Site} {i : Recompiler.Instr} {cfg : Config} {f : EmitM Unit} {gr : GuestReg}

theorem Emit.Runs.arrives {g' : Cpu} (hr : Runs W Q f e m (Leaves c₀ m₀ g'))
    (hs : g'.Stands (Interp.service c i .exec)) (hl : (Interp.service c i .exec).leave = 0) :
    Runs W Q f e m (Arrives c₀ m₀ (Interp.service c i .exec)) :=
  hr.imp fun _ _ _ h => ⟨hl, _, h, hs⟩

theorem Emit.Runs.arrivesSet {v : UInt64} (hr : Runs W Q f e m (Leaves c₀ m₀ (g.setGuest gr v)))
    (hb : Begins Q .exec s i c g) (hs : Interp.service c i .exec = c.begun.setGuest gr v) :
    Runs W Q f e m (Arrives c₀ m₀ (Interp.service c i .exec)) := by
  refine hr.arrives ?_ ?_
  · rw [hs]
    exact hb.stands.begun.setGuest gr v
  · rw [hs]
    exact Cpu.leave_setGuest _ _ _

theorem Begins.rs (hb : Begins Q .exec s i c g) : g.guest (Emit.rs i) = c.begun.reg i.rs :=
  (hb.stands.guest _).trans (Cpu.guest_ofReg _ _)

theorem Begins.rt (hb : Begins Q .exec s i c g) : g.guest (Emit.rt i) = c.begun.reg i.rt :=
  (hb.stands.guest _).trans (Cpu.guest_ofReg _ _)

theorem Cpu.Stands.hiLo (h : g.Stands c) (hi lo : UInt64) :
    Cpu.Stands { g with hi, lo } { c with hi, lo } := by
  obtain ⟨pc, delay, leave, f, rfl⟩ := h
  exact ⟨pc, delay, leave, f, rfl⟩

theorem Emit.Runs.nested {α : Type} {f : EmitM α} [Nests f]
    {K : α → Emitter → Machine Cpu → Prop} (h : Runs W Q f e m K) :
    Runs W Q f e m fun a e' m' => K a e' m' ∧ e'.cache.depth = e.cache.depth :=
  fun a e' hx hp hat => (h a e' hx hp hat).imp fun _ ⟨hat', hk⟩ => ⟨hat', hk, Nests.depth hx⟩

namespace Working

theorem inlineShift {op : ShiftOp} {amount : ShiftAmount} {width : Width}
    (h : Working c₀ m₀ [] e m g) (hk : i.kind = .shift op amount width)
    (hb : Begins Q .exec s i c g) (hw : s.widths.Holds g)
    (hf : inlineShift? s op amount width i = some f) :
    Runs W Q f e m (Arrives c₀ m₀ (Interp.service c i .exec)) := by
  have hs : Interp.service c i .exec = c.begun.setGuest (rd i)
      (shiftValue i op amount width (g.guest (rs i)) (g.guest (rt i))) := by
    change Interp.effect c.begun i c.pc = _
    unfold Interp.effect
    rw [hk, hb.rs, hb.rt, Emit.rd, Cpu.setGuest_ofReg]
    rfl
  unfold inlineShift? at hf
  split at hf <;> cases hf
  · exact (h.shiftWord op).arrivesSet hb hs
  · exact (h.shiftWordVar op).arrivesSet hb hs
  · exact (h.shiftDouble hw op).arrivesSet hb hs
  · exact (h.shiftDouble32 op).arrivesSet hb hs

theorem inlineAlu {op : AluOp} (hW : W.Stubbed) (h : Working c₀ m₀ [] e m g)
    (hk : i.kind = .alu op) (hb : Begins Q .exec s i c g) (hw : s.widths.Holds g)
    (hf : inlineAlu? s op i = some f) :
    Runs W Q f e m (Arrives c₀ m₀ (Interp.service c i .exec)) := by
  have harrives {v : UInt64} (hr : Runs W Q f e m (Leaves c₀ m₀ (g.setGuest (rd i) v)))
      (htraps : ∀ x y, aluTraps op x y = false)
      (hv : v = aluValue op (g.guest (rs i)) (g.guest (rt i))) :
      Runs W Q f e m (Arrives c₀ m₀ (Interp.service c i .exec)) := by
    refine hr.arrivesSet hb ?_
    change Interp.effect c.begun i c.pc = _
    unfold Interp.effect
    rw [hk, hv, hb.rs, hb.rt, Emit.rd, Cpu.setGuest_ofReg]
    dsimp only
    rw [execAlu_eq, htraps]
    rfl
  cases op with
  | add =>
    cases hf
    exact h.addTrapping hW hk hb
  | sub =>
    cases hf
    exact h.addTrapping hW hk hb
  | addu =>
    cases hf
    refine harrives (h.addWord .add) (fun _ _ => rfl) ?_
    rw [aluValue, add32_eq_sext32, sext32_eq_sextWord]
    exact congrArg sextWord (lowWord_add _ _).symm
  | subu =>
    cases hf
    refine harrives (h.addWord .sub) (fun _ _ => rfl) ?_
    rw [aluValue, sub32_eq_sext32, sext32_eq_sextWord]
    exact congrArg sextWord (lowWord_sub _ _).symm
  | and =>
    cases hf
    exact harrives (h.logic hw .and) (fun _ _ => rfl) rfl
  | or =>
    cases hf
    exact harrives (h.logic hw .or) (fun _ _ => rfl) rfl
  | xor =>
    cases hf
    exact harrives (h.logic hw .xor) (fun _ _ => rfl) rfl
  | nor =>
    cases hf
    exact harrives (h.logic hw .nor) (fun _ _ => rfl) rfl
  | slt =>
    cases hf
    exact harrives (h.setLess hw true) (fun _ _ => rfl) rfl
  | sltu =>
    cases hf
    exact harrives (h.setLess hw false) (fun _ _ => rfl) rfl
  | daddu =>
    cases hf
    exact harrives (h.addDouble false) (fun _ _ => rfl) rfl
  | dsubu =>
    cases hf
    exact harrives (h.addDouble true) (fun _ _ => rfl) rfl
  | dadd => cases hf
  | dsub => cases hf

theorem inlineImm {op : ImmOp} (hW : W.Stubbed) (h : Working c₀ m₀ [] e m g)
    (hk : i.kind = .imm op) (hb : Begins Q .exec s i c g) (hw : s.widths.Holds g)
    (hf : inlineImm? s op i = some f) :
    Runs W Q f e m (Arrives c₀ m₀ (Interp.service c i .exec)) := by
  have harrives {v : UInt64} (hr : Runs W Q f e m (Leaves c₀ m₀ (g.setGuest (Emit.rt i) v)))
      (htraps : ∀ x, immTraps i op x = false) (hv : v = immValue i op (g.guest (rs i))) :
      Runs W Q f e m (Arrives c₀ m₀ (Interp.service c i .exec)) := by
    refine hr.arrivesSet hb ?_
    change Interp.effect c.begun i c.pc = _
    unfold Interp.effect
    rw [hk, hv, hb.rs, Emit.rt, Cpu.setGuest_ofReg]
    dsimp only
    rw [execImm_eq, htraps]
    rfl
  cases op with
  | addi =>
    cases hf
    exact h.addImmTrapping hW hk hb
  | addiu =>
    cases hf
    refine harrives h.addImm (fun _ => rfl) ?_
    rw [immValue, add32_eq_sext32, sext32_eq_sextWord]
    exact congrArg sextWord (lowWord_add _ _).symm
  | slti =>
    cases hf
    exact harrives (h.setLessImm hw true) (fun _ => rfl) rfl
  | sltiu =>
    cases hf
    exact harrives (h.setLessImm hw false) (fun _ => rfl) rfl
  | andi =>
    cases hf
    exact harrives h.andImm (fun _ => rfl) rfl
  | ori =>
    cases hf
    exact harrives (h.orImm hw .or (fun _ _ => rfl) (by simp) (fun x => UInt32.or_zero)) (fun _ => rfl) rfl
  | xori =>
    cases hf
    exact harrives (h.orImm hw .xor (fun _ _ => rfl) (by simp) (fun x => UInt32.xor_zero)) (fun _ => rfl) rfl
  | lui =>
    cases hf
    exact harrives h.loadUpper (fun _ => rfl) rfl
  | daddiu =>
    cases hf
    exact harrives h.addImmDouble (fun _ => rfl) rfl
  | daddi => cases hf

theorem inlineMul {signed : Bool} (h : Working c₀ m₀ [] e m g)
    (hk : i.kind = .mulDiv (if signed then .mult else .multu)) (hb : Begins Q .exec s i c g) :
    Runs W Q (multiply signed i) e m (Arrives c₀ m₀ (Interp.service c i .exec)) := by
  have hs : Interp.service c i .exec = execMulDiv c.begun i (if signed then .mult else .multu) := by
    change Interp.effect c.begun i c.pc = _
    unfold Interp.effect
    rw [hk]
  have hproduct : mulDiv (if signed then .mult else .multu) (g.guest (Emit.rs i)) (g.guest (Emit.rt i)) =
      ⟨sextWord (highWord (Machine.product signed (lowWord (g.guest (Emit.rs i)))
        (lowWord (g.guest (Emit.rt i))))), sextWord (lowWord (Machine.product signed
          (lowWord (g.guest (Emit.rs i))) (lowWord (g.guest (Emit.rt i)))))⟩ := by
    cases signed with
    | true =>
      change HiLo.mk _ _ = _
      rw [sext32_eq_sextWord, sext32_eq_sextWord, sext32_eq_sextWord]
      rfl
    | false =>
      change HiLo.mk _ _ = _
      rw [sext32_eq_sextWord]
      rfl
  refine (h.multiply signed).arrives ?_ ?_
  · rw [hs, execMulDiv, ← hb.rs, ← hb.rt, hproduct]
    exact hb.stands.begun.hiLo _ _
  · rw [hs]
    rfl

theorem inlineMove {dst src : GuestReg} (h : Working c₀ m₀ [] e m g) (hb : Begins Q .exec s i c g)
    (hw : s.widths.Holds g)
    (hs : Interp.service c i .exec = c.begun.setGuest dst (c.begun.guest src)) :
    Runs W Q (move s dst src) e m (Arrives c₀ m₀ (Interp.service c i .exec)) := by
  refine (h.move hw).arrivesSet hb ?_
  rw [hs, hb.stands.begun.guest]

theorem inlineFromFp {width : Width} (h : Working c₀ m₀ [] e m g) (hk : i.kind = .mfc1 width)
    (hb : Begins Q .exec s i c g) (hc : cfg.Suits c) :
    Runs W Q (moveFromFp cfg width i) e m (Arrives c₀ m₀ (Interp.service c i .exec)) := by
  refine (h.moveFromFp width).arrivesSet hb ?_
  change Interp.effect c.begun i c.pc = _
  unfold Interp.effect
  rw [hk, Emit.rt, Cpu.setGuest_ofReg, hc.wideFp]
  cases width with
  | word =>
    dsimp only
    rw [(isFpWord_single _ _).load hb.stands.begun, Cpu.single_eq]
    rfl
  | double =>
    dsimp only
    rw [(isFpWord_doubleHigh _ _).load hb.stands.begun, (isFpWord_doubleLow _ _).load hb.stands.begun,
      Cpu.double_eq]
    rfl

theorem inlineToFp {width : Width} (h : Working c₀ m₀ [] e m g) (hk : i.kind = .mtc1 width)
    (hb : Begins Q .exec s i c g) (hc : cfg.Suits c) :
    Runs W Q (moveToFp cfg width i) e m (Arrives c₀ m₀ (Interp.service c i .exec)) := by
  have hrt := hb.rt
  have hmove : Runs W Q (moveToFp cfg width i) e m _ := h.moveToFp width
  cases width with
  | word =>
    have hs : Interp.service c i .exec = c.begun.storeWord (Layout.single cfg.wideFp i.fs)
        (lowWord (g.guest (Emit.rt i))) := by
      change Interp.effect c.begun i c.pc = _
      unfold Interp.effect
      rw [hk, hrt, hc.wideFp]
      exact Cpu.setSingle_eq _ _ _
    have hword := isFpWord_single cfg.wideFp i.fs
    refine hmove.arrives ?_ ?_ <;> rw [hs]
    · exact hword.stands hb.stands.begun
    · exact hword.leave
  | double =>
    have hs : Interp.service c i .exec = (c.begun.storeWord (Layout.doubleHigh cfg.wideFp i.fs)
        (highWord (g.guest (Emit.rt i)))).storeWord (Layout.doubleLow cfg.wideFp i.fs)
          (lowWord (g.guest (Emit.rt i))) := by
      have hset := Cpu.setDouble_eq c.begun i.fs (highWord (c.begun.reg i.rt))
        (lowWord (c.begun.reg i.rt))
      rw [joinWords_high_low] at hset
      change Interp.effect c.begun i c.pc = _
      unfold Interp.effect
      rw [hk, hrt, hc.wideFp]
      exact hset
    have hhigh := isFpWord_doubleHigh cfg.wideFp i.fs
    have hlow := isFpWord_doubleLow cfg.wideFp i.fs
    refine hmove.arrives ?_ ?_ <;> rw [hs]
    · exact hlow.stands (hhigh.stands hb.stands.begun)
    · exact hlow.leave.trans hhigh.leave

theorem inlineFromControl (h : Working c₀ m₀ [] e m g) (hk : i.kind = .cfc1) (hfs : i.fs = 31)
    (hb : Begins Q .exec s i c g) :
    Runs W Q (moveFromControl i) e m (Arrives c₀ m₀ (Interp.service c i .exec)) := by
  refine h.moveFromControl.arrivesSet hb ?_
  have hload : g.loadWord Layout.fcr31 = c.fcr31 := by
    obtain ⟨pc, delay, leave, f, rfl⟩ := hb.stands
    exact Cpu.loadWord_of_field? _ (Cpu.field?_offset .fcr31)
  change Interp.effect c.begun i c.pc = _
  unfold Interp.effect
  rw [hk, hload, Emit.rt, Cpu.setGuest_ofReg]
  dsimp only
  rw [hfs]
  rfl

/-- The inline code of an instruction that is no floating-point arithmetic. -/
theorem inlined (hW : W.Stubbed) (h : Working c₀ m₀ [] e m g) (hb : Begins Q .exec s i c g)
    (hc : cfg.Suits c) (hw : s.widths.Holds g) (hfp : ∀ format op, i.kind ≠ .fp format op)
    (hf : inline? cfg s i = some f) :
    Runs W Q f e m (Arrives c₀ m₀ (Interp.service c i .exec)) := by
  have hs {d : Cpu} (hs : Interp.effect c.begun i c.pc = d) : Interp.service c i .exec = d := hs
  unfold Interp.effect at hs
  unfold inline? at hf
  split at hf
  case h_1 hk => exact h.inlineShift hk hb hw hf
  case h_2 hk => exact h.inlineAlu hW hk hb hw hf
  case h_3 hk => exact h.inlineImm hW hk hb hw hf
  case h_4 hk =>
    cases hf
    exact h.inlineMul hk hb
  case h_5 hk =>
    cases hf
    exact h.inlineMul hk hb
  case h_6 hk =>
    cases hf
    exact h.inlineMove hb hw (hs (by rw [hk, Emit.rd, Cpu.setGuest_ofReg]; rfl))
  case h_7 hk =>
    cases hf
    exact h.inlineMove hb hw (hs (by rw [hk, Emit.rd, Cpu.setGuest_ofReg]; rfl))
  case h_8 hk =>
    cases hf
    exact h.inlineMove hb hw (hs (by rw [hk, Emit.rs, Cpu.guest_ofReg]; rfl))
  case h_9 hk =>
    cases hf
    exact h.inlineMove hb hw (hs (by rw [hk, Emit.rs, Cpu.guest_ofReg]; rfl))
  case h_10 hk =>
    cases hf
    refine .pure ⟨?_, g, h, ?_⟩
    all_goals rw [hs (d := c.begun) (by rw [hk])]
    · rfl
    · exact hb.stands.begun
  case h_11 hk =>
    cases hf
    exact h.load hW hk hb hc
  case h_12 hk =>
    cases hf
    exact h.store hW hk hb hc
  case h_13 hk =>
    cases hf
    exact h.loadFp hW hk hb hc
  case h_14 hk =>
    cases hf
    exact h.storeFp hW hk hb hc
  case h_15 hk =>
    cases hf
    exact h.inlineFromFp hk hb hc
  case h_16 hk =>
    cases hf
    exact h.inlineToFp hk hb hc
  case h_17 hk =>
    split at hf <;> cases hf
    rename_i hfs
    exact h.inlineFromControl hk hfs hb
  case h_18 hk => exact absurd hk (hfp _ _)
  case h_19 => cases hf

theorem code (hW : W.Stubbed) (h : Working c₀ m₀ [] e m g) (hb : Begins Q .exec s i c g)
    (hc : cfg.Suits c) (hw : s.widths.Holds g) (hfp : ∀ format op, i.kind ≠ .fp format op) :
    Runs W Q ((inline? cfg s i).getD (Emit.request Service.exec s i)) e m
      (Arrives c₀ m₀ (Interp.service c i .exec)) := by
  cases hf : inline? cfg s i with
  | none => exact (h.request hb).imp fun _ _ _ => Returns.arrives
  | some f => exact h.inlined hW hb hc hw hfp hf

/-- A scope closes. Temporaries that are to be kept are those of another scope. -/
theorem endScope (h : Working c₀ m₀ [] e m g)
    (hd : e.cache.depth = 1 → ∀ r, (c₀.slot r).content ≠ .temp) :
    Runs W Q (onCache HostCache.endOp) e m fun _ e' m' => Working c₀ m₀ [] e' m' g := by
  refine Runs.onCache fun _ c hended => ?_
  obtain rfl := endOp_ok hended
  obtain ⟨m', he, ha, hget⟩ := Releases.ended e.cache m g h.agrees
  have hcontent (r : Fin 9) : (e.cache.depth = 1 ∧ (e.cache.ended.slot r).content = .unused) ∨
      (e.cache.ended.slot r).content = (e.cache.slot r).content := by
    rw [Releases.slot_ended]
    split
    · unfold HostCache.endSlot
      split
      · exact .inl ⟨‹_›, rfl⟩
      · exact .inr rfl
    · exact .inr rfl
  refine ⟨m', he, ha, fun r off hr => ?_, ⟨fun r hr => ?_, fun r hr => ?_⟩, nofun, nofun, .nil⟩
  · rcases hcontent r with ⟨-, hu⟩ | hsame
    · rw [hu] at hr
      cases hr
    · exact h.proper r off (hsame ▸ hr)
  · rcases hcontent r with ⟨hone, -⟩ | hsame
    · exact absurd hr (hd hone r)
    · rw [hsame]
      exact h.kept.content r hr
  · exact (hget _).trans (h.kept.regs r hr)

protected theorem instr (hW : W.Stubbed) (h : Working c₀ m₀ [] e m g) (hb : Begins Q .exec s i c g)
    (hc : cfg.Suits c) (hw : s.widths.Holds g) (hfp : ∀ format op, i.kind ≠ .fp format op)
    (hd : e.cache.depth = 0 → ∀ r, (c₀.slot r).content ≠ .temp) :
    Runs W Q (instr cfg s i) e m (Arrives c₀ m₀ (Interp.service c i .exec)) := by
  unfold Emit.instr
  refine .ite (fun _ => ?_) fun hnop => .pure ?_
  · have hopen : Working c₀ m₀ [] { e with cache := e.cache.startOp } m g :=
      h.congr rfl rfl (fun _ => rfl) rfl
    refine .bind (.modifyCache (L := fun _ e' m' => Working c₀ m₀ [] e' m' g ∧
      e'.cache.depth = e.cache.depth + 1) (.refl _ _) ⟨hopen, rfl⟩) fun _ e₁ m₁ ⟨h, hdepth⟩ => ?_
    refine .bind (h.code hW hb hc hw hfp).nested fun _ e₂ m₂ ⟨⟨hl, g', h', hs⟩, hdepth'⟩ => ?_
    refine (h'.endScope fun hone => hd ?_).imp fun _ e₃ m₃ h' => ⟨hl, g', h', hs⟩
    omega
  · obtain rfl : i = Recompiler.Instr.nop := by
      simpa [Recompiler.Instr.isNop] using hnop
    exact ⟨rfl, g, h, hb.stands.begun⟩

end Working

end Recompiler
