import Recompiler.Proofs.TraceSteps

/-!
Translation correctness. The program of a trace in RAM, serviced by the interpreter, leaves the CPU
as the interpreter does when it steps through the trace, as long as the trace is not overwritten.
-/

namespace Recompiler

open Ir Emit Interp Trace

variable {W : Finished} {Q : Cpu → Prop} {c₀ : HostCache} {m₀ m : Machine Cpu} {e : Emitter}
  {g c d : Cpu} {cfg : Config} {k : Constants} {w : Widths} {b i r s : Recompiler.Instr}
  {raw rest : List Recompiler.Instr} {base pc : UInt32} {n : Nat} {site : Site} {op : TraceOp}
  {ops : List TraceOp}

theorem Cpu.SameGuest.framed (c : Cpu) (f : Frame) : c.SameGuest (c.framed f) :=
  ⟨c.cycle, c.delay, c.leave, f, rfl⟩

theorem Cpu.SameGuest.landed (h : (c.goto pc).SameGuest d) :
    ({ c with delay := 0, pc := pc } : Cpu).SameGuest d := by
  obtain ⟨cycle, delay, leave, f, rfl⟩ := h
  exact ⟨cycle, delay, leave, f, rfl⟩

theorem Cpu.SameGuest.of_cleared (h : c.cleared.SameGuest d) : c.SameGuest d := by
  obtain ⟨cycle, delay, leave, f, rfl⟩ := h
  exact ⟨cycle, delay, leave, f, rfl⟩

theorem Cpu.Stands.goto (h : g.Stands c) (pc : UInt32) : g.Stands (c.goto pc) := by
  obtain ⟨_, delay, leave, f, rfl⟩ := h
  exact ⟨_, delay, leave, f, rfl⟩

namespace Trace

def opFor (k : Constants) (w : Widths) (slot omitted : Bool) (r : Recompiler.Instr) : TraceOp :=
  ⟨r, r.standIn k w, (r.standIn k w).boundary, k, w, slot, omitted⟩

theorem buildFrom_cons_eq (k : Constants) (w : Widths) (slot : Bool) (r : Recompiler.Instr)
    (rest : List Recompiler.Instr) : buildFrom k w slot (r :: rest) =
      (let omitted := (r.standIn k w).boundary == .endDelay && rest.isEmpty
       if slot || (r.standIn k w).boundary == .endNow || omitted then [opFor k w slot omitted r]
       else opFor k w slot omitted r ::
        buildFrom (k.after r) (w.after k r) ((r.standIn k w).boundary == .endDelay) rest) := rfl

theorem buildFrom_continue (hb : (r.standIn k w).boundary = .continue) :
    buildFrom k w false (r :: rest) =
      opFor k w false false r :: buildFrom (k.after r) (w.after k r) false rest := by
  rw [buildFrom_cons_eq, hb]
  rfl

theorem buildFrom_endNow (hb : (r.standIn k w).boundary = .endNow) :
    buildFrom k w false (r :: rest) = [opFor k w false false r] := by
  rw [buildFrom_cons_eq, hb]
  rfl

theorem buildFrom_omitted (hb : (r.standIn k w).boundary = .endDelay) :
    buildFrom k w false [r] = [opFor k w false true r] := by
  rw [buildFrom_cons_eq, hb]
  rfl

theorem buildFrom_branch (hb : (b.standIn k w).boundary = .endDelay) :
    ∃ omitted, buildFrom k w false (b :: s :: rest) =
      [opFor k w false false b, opFor (k.after b) (w.after k b) true omitted s] := by
  rw [buildFrom_cons_eq, hb]
  exact ⟨_, rfl⟩

theorem stepAll_of_leave (hs : op.inDelaySlot = false) (hl : (step c).2.leave ≠ 0) :
    stepAll (op :: ops) c = (step c).2 := by
  rw [stepAll, hs, if_neg Bool.false_ne_true, if_neg hl]

theorem stepAll_of_next (hs : op.inDelaySlot = false) (hl : (step c).2.leave = 0) :
    stepAll (op :: ops) c = stepAll ops (step c).2 := by
  rw [stepAll, hs, if_neg Bool.false_ne_true, if_pos hl]

theorem stepAll_slots (hs : op.inDelaySlot = false) (hops : ∀ o ∈ ops, o.inDelaySlot = true) :
    stepAll (op :: ops) c = (step c).2 := by
  have hslots (ops : List TraceOp) (h : ∀ o ∈ ops, o.inDelaySlot = true) (c : Cpu) :
      stepAll ops c = c := by
    induction ops with
    | nil => rfl
    | cons o ops ih =>
      rw [stepAll, h o List.mem_cons_self, if_pos rfl]
      exact ih fun o' ho => h o' (List.mem_cons_of_mem _ ho)
  by_cases hl : (step c).2.leave = 0
  · rw [stepAll_of_next hs hl, hslots ops hops]
  · exact stepAll_of_leave hs hl

theorem step_cleared (c : Cpu) : step c.cleared = step c := rfl

end Trace

namespace Poised

theorem begins (h : Poised cfg k w c) (hs : g.Stands c) (hpc : c.pc = site.pc)
    (hslot : site.inDelaySlot = false)
    (hq : (effect c r c.pc).leave ≠ 0 → ∀ d, (effect c r c.pc).SameGuest d → Q d) :
    Begins Q .exec site (r.standIn k w) c g := by
  have hservice : Interp.service c (r.standIn k w) .exec = effect c r c.pc :=
    (h.service _).trans h.known.effect_standIn
  refine ⟨hs, hpc, ?_, fun hl f => ?_, fun hl => ?_⟩
  · rw [h.delay, hslot]
    rfl
  · rw [hservice] at hl ⊢
    exact hq hl _ (.framed _ f)
  · rw [hservice] at hl ⊢
    exact (Knowledge.effect_keeps h.known.zero hl).1

theorem beginsStep (h : Poised cfg k w c) (hs : g.Stands c) (hpc : c.pc = site.pc)
    (hslot : site.inDelaySlot = false) (hq : ∀ d, (step c).2.SameGuest d → Q d) :
    Begins Q .step site i c g := by
  refine ⟨hs, hpc, ?_, fun _ f => hq _ (.framed _ f), fun _ => ?_⟩
  · rw [h.delay, hslot]
    rfl
  · exact (step_keeps (·.reg .zero) (fun _ _ _ _ => rfl) (fun hw => hw.zero) c).trans h.known.zero

/-- What the code of the delay slot relies on. -/
theorem slotReady {t : Branch} {slot : TraceOp} (h : Poised cfg k w c) (hb : b.isBranch = true)
    (hfp : ∀ format op, s.kind ≠ .fp format op)
    (hinstr : slot.instr = s.standIn (k.after b) (w.after k b)) (hwidths : slot.widths = w.after k b)
    (hstep : (step c).2 = match t.next? c.pc with
      | none => (effect c b c.pc).goto (c.pc + 8)
      | some target =>
        if (slotted (effect c b c.pc) c.pc s).leave = 0 then
          { slotted (effect c b c.pc) c.pc s with delay := 0, pc := target }
        else slotted (effect c b c.pc) c.pc s)
    (hq : ∀ d, (step c).2.SameGuest d → Q d) :
    SlotReady cfg Q ⟨c.pc, n, false, w⟩ slot (effect c b c.pc) (t.next? c.pc) := by
  have hknown : Knowledge (k.after b) (w.after k b) (effect c b c.pc) :=
    h.known.step (h.leave_branch hb)
  have hslotted : slotted (effect c b c.pc) c.pc slot.instr =
      slotted (effect c b c.pc) c.pc s := by
    rw [hinstr]
    exact h.slotted_standIn hb
  have hlands : Lands Q (effect c b c.pc) c.pc slot.instr (t.next? c.pc) := by
    rw [hstep] at hq
    refine ⟨fun hn r hr => ?_, fun hn hl f => ?_, fun target hn hl r hr => ?_, fun hl => ?_⟩
    · rw [hn] at hq
      exact hq r hr
    · rw [hslotted] at hl ⊢
      obtain ⟨target, ht⟩ := Option.ne_none_iff_exists'.mp hn
      rw [ht] at hq
      dsimp only at hq
      rw [if_neg hl] at hq
      exact hq _ (.framed _ f)
    · rw [hslotted] at hl hr
      rw [hn] at hq
      dsimp only at hq
      rw [if_pos hl] at hq
      exact hq r hr.landed
    · rw [hslotted, slotted_eq (h.leave_branch hb)]
      exact (effect_within _ _ _).zero.trans hknown.zero
  refine ⟨hlands, h.suits_branch hb, ?_, ?_⟩
  · rw [hwidths]
    exact hknown.widths
  · rw [hinstr]
    exact hknown.noArithmetic hfp

end Poised

namespace Working

protected theorem branchServed (h : Working c₀ m₀ [] e m g)
    (ht : ∀ r, (c₀.slot r).content ≠ .temp) (hb : Begins Q .step site i c g)
    (hq : ∀ d, (step c).2.SameGuest d → Q d) :
    Runs W Q (branchServed cfg site i) e m fun _ _ _ => False := by
  unfold Emit.branchServed
  refine .bind (.modifyCache (L := fun _ e' m' => Working c₀ m₀ [] e' m' g) (.refl _ _)
    (h.congr rfl rfl (fun _ => rfl) rfl)) fun _ e m h => ?_
  refine .bind (h.request hb) fun _ e m ⟨_, f, h⟩ => ?_
  refine .bind (h.endScope fun _ => ht) fun _ e m h => ?_
  exact h.exitServed (fun _ => ht) hq

end Working

/-- The words of a trace from the state `c` on: they stay in RAM, their branches stay branches, and
none is floating-point arithmetic. -/
structure Remains (k : Constants) (w : Widths) (raw : List Recompiler.Instr) (c : Cpu) : Prop where
  noArithmetic : ∀ r ∈ raw, ∀ format op, r.kind ≠ .fp format op
  branches : ∀ op ∈ buildFrom k w false raw, op.raw.isBranch = true → op.instr.isBranch = true
  words : ∀ n, (stepAll ((buildFrom k w false raw).take n) c).mem.Contains c.pc raw

namespace Remains

theorem here (h : Remains k w raw c) : c.mem.Contains c.pc raw := h.words 0

theorem next (h : Remains k w (r :: rest) c) (hb : (r.standIn k w).boundary = .continue)
    (hstep : (step c).2 = d) (hl : d.leave = 0) (hpc : d.pc = c.pc + 4) :
    Remains (k.after r) (w.after k r) rest d where
  noArithmetic s hs := h.noArithmetic s (List.mem_cons_of_mem _ hs)
  branches op hop := h.branches op (by
    rw [buildFrom_continue hb]
    exact List.mem_cons_of_mem _ hop)
  words n := by
    have hw := h.words (n + 1)
    rw [buildFrom_continue hb, List.take_succ_cons, stepAll_of_next rfl (hstep ▸ hl), hstep] at hw
    rw [hpc]
    exact hw.2.2

end Remains

theorem isBranch_iff_boundary (c : Cpu) : i.isBranch = true ↔ i.boundary = .endDelay := by
  rw [boundary_eq_endDelay_iff c i 0, isSome_branch?]

theorem Emit.body_cons (hs : op.inDelaySlot = false) : body cfg base n (op :: ops) =
    match op.boundary with
    | .endDelay => branch cfg ⟨base + 4 * UInt32.ofNat n, n, false, op.widths⟩ op ops
    | .endNow => do
      instr cfg ⟨base + 4 * UInt32.ofNat n, n, false, op.widths⟩ op.instr
      exitDirect cfg (base + 4 * UInt32.ofNat n + 4) (n + 1) false
    | .continue => (do
      instr cfg ⟨base + 4 * UInt32.ofNat n, n, false, op.widths⟩ op.instr
      body cfg base (n + 1) ops) := by
  rw [body, hs]
  rfl

theorem word_succ (base : UInt32) (n : Nat) :
    base + 4 * UInt32.ofNat n + 4 = base + 4 * UInt32.ofNat (n + 1) := by
  rw [UInt32.ofNat_add, UInt32.mul_add, UInt32.add_assoc]
  rfl

namespace Working

theorem plainCode (hW : W.Stubbed) (h : Working c₀ m₀ [] e m g)
    (ht : ∀ r, (c₀.slot r).content ≠ .temp) (hs : g.Stands c) (hp : Poised cfg k w c)
    (hpc : c.pc = pc) (hfp : ∀ format op, r.kind ≠ .fp format op)
    (hq : (effect c r c.pc).leave ≠ 0 → ∀ d, (effect c r c.pc).SameGuest d → Q d) :
    Runs W Q (instr cfg ⟨pc, n, false, w⟩ (r.standIn k w)) e m fun _ e' m' =>
      ((effect c r c.pc).leave = 0 ∧ ∃ g', Working c₀ m₀ [] e' m' g' ∧
        g'.Stands (effect c r c.pc)) ∧ e'.cache.depth = e.cache.depth := by
  have hbegins : Begins Q .exec ⟨pc, n, false, w⟩ (r.standIn k w) c g := hp.begins hs hpc rfl hq
  have hrun := (h.instr hW hbegins hp.suits
    (hp.known.widths.of_sameRegs hs.sameRegs) (hp.known.noArithmetic hfp) fun _ => ht).nested
  rw [(hp.service _).trans hp.known.effect_standIn] at hrun
  exact hrun

theorem branchCode (hW : W.Stubbed) (h : Working c₀ m₀ [] e m g) (hd : e.cache.depth = 0)
    (ht : ∀ r, (c₀.slot r).content ≠ .temp) (hs : g.Stands c) (hp : Poised cfg k w c)
    (hpc : c.pc = pc) (hb : b.isBranch = true) (hi : (b.standIn k w).isBranch = true)
    (hfp : ∀ format op, s.kind ≠ .fp format op) (hr : c.mem.Contains c.pc (b :: s :: rest))
    {omitted : Bool} (hq : ∀ d, (step c).2.SameGuest d → Q d) :
    Runs W Q (branch cfg ⟨pc, n, false, w⟩ (opFor k w false false b)
      [opFor (k.after b) (w.after k b) true omitted s]) e m fun _ _ _ => False := by
  subst hpc
  refine .ite (fun _ => h.branchServed ht (hp.beginsStep hs rfl rfl hq) hq) fun _ => ?_
  obtain ⟨t, hbranch, hstep⟩ := hp.step_branch hb hr hi
  refine h.branchAndSlot hW hd hs hi hp.known.widths hbranch ?_
  have heffect : effect c (b.standIn k w) c.pc = effect c b c.pc := hp.known.effect_standIn
  change SlotReady cfg Q ⟨c.pc, n, false, w⟩ _ (effect c (b.standIn k w) c.pc) (t.next? c.pc)
  rw [heffect]
  exact hp.slotReady hb hfp rfl rfl hstep hq

/-- The code of a trace leaves what the interpreter does. -/
protected theorem body (hW : W.Stubbed) (ht : ∀ r, (c₀.slot r).content ≠ .temp)
    (h : Working c₀ m₀ [] e m g) (hd : e.cache.depth = 0) (hs : g.Stands c)
    (hp : Poised cfg k w c) (hpc : c.pc = base + 4 * UInt32.ofNat n) (hr : Remains k w raw c)
    (hq : ∀ d, (stepAll (buildFrom k w false raw) c).SameGuest d → Q d) :
    Runs W Q (body cfg base n (buildFrom k w false raw)) e m fun _ _ _ => False := by
  induction raw generalizing k w n c g e m with
  | nil =>
    have hhere : c.goto (base + 4 * UInt32.ofNat n) = c := by
      rw [← hpc]
      rfl
    refine h.exitDirect hs (fun _ => ht) fun d hd => hq d ?_
    rwa [hhere] at hd
  | cons r rest ih =>
    have hbranch : r.isBranch = true ↔ (r.standIn k w).boundary = .endDelay := by
      rw [← isBranch_iff_boundary c]
      refine ⟨fun hb => ?_, Instr.isBranch_of_standIn⟩
      exact hr.branches (opFor k w false ((r.standIn k w).boundary == .endDelay && rest.isEmpty) r)
        (by rw [buildFrom_cons_eq]; dsimp only; split <;> exact List.mem_cons_self) hb
    have hplain (hb : (r.standIn k w).boundary ≠ .endDelay) : r.isBranch = false := by
      rw [← Bool.not_eq_true, hbranch]
      exact hb
    have hfp := hr.noArithmetic r List.mem_cons_self
    cases hb : (r.standIn k w).boundary with
    | «continue» =>
      have hstep := hp.step_plain hr.here (hplain (by rw [hb]; nofun))
      rw [buildFrom_continue hb] at hq ⊢
      rw [body_cons rfl, show (opFor k w false false r).boundary = .continue from hb]
      refine .bind (h.plainCode hW ht hs hp hpc hfp fun hl d hd => hq d ?_)
        fun _ e' m' ⟨⟨hl, g', h', hs'⟩, hd'⟩ => ?_
      · rw [if_neg hl] at hstep
        rwa [stepAll_of_leave rfl (hstep ▸ hl), hstep]
      · rw [if_pos hl] at hstep
        refine ih h' (hd'.trans hd) (hs'.goto _) (hp.advance hr.here hb hl) ?_
          (hr.next hb hstep hl rfl) fun d hd => hq d ?_
        · rw [← word_succ, ← hpc]
          rfl
        · have hnext : (step c).2.leave = 0 := by
            rw [hstep]
            exact hl
          rwa [stepAll_of_next rfl hnext, hstep]
    | endNow =>
      have hstep := hp.step_plain hr.here (hplain (by rw [hb]; nofun))
      rw [buildFrom_endNow hb, stepAll_slots rfl (fun _ ho => absurd ho List.not_mem_nil), hstep] at hq
      rw [buildFrom_endNow hb, body_cons rfl,
        show (opFor k w false false r).boundary = .endNow from hb]
      refine .bind (h.plainCode hW ht hs hp hpc hfp fun hl d hd => hq d ?_)
        fun _ e' m' ⟨⟨hl, g', h', hs'⟩, _⟩ => ?_
      · rwa [if_neg hl]
      · rw [if_pos hl] at hq
        refine h'.exitDirect hs' (fun _ => ht) ?_
        rw [← hpc]
        exact hq
    | endDelay =>
      have hbr := hbranch.mpr hb
      have hi := (isBranch_iff_boundary c).mpr hb
      cases rest with
      | nil =>
        rw [buildFrom_omitted hb, stepAll_slots rfl fun _ ho => absurd ho List.not_mem_nil] at hq
        rw [buildFrom_omitted hb, body_cons rfl,
          show (opFor k w false true r).boundary = .endDelay from hb]
        exact h.branchServed ht (hp.beginsStep hs hpc rfl hq) hq
      | cons s rest =>
        obtain ⟨omitted, hops⟩ : ∃ omitted, buildFrom k w false (r :: s :: rest) =
            [opFor k w false false r, opFor (k.after r) (w.after k r) true omitted s] :=
          buildFrom_branch hb
        have hfps := hr.noArithmetic s (List.mem_cons_of_mem _ List.mem_cons_self)
        have hslots : ∀ o ∈ [opFor (k.after r) (w.after k r) true omitted s],
            o.inDelaySlot = true := by
          intro o ho
          rw [List.mem_singleton.mp ho]
          rfl
        rw [hops, stepAll_slots rfl hslots] at hq
        rw [hops, body_cons rfl, show (opFor k w false false r).boundary = .endDelay from hb]
        exact h.branchCode hW hd ht hs hp hpc hbr hi hfps hr.here hq

end Working

theorem Emit.body_of_whole {cells : List Nat} (h : whole cfg pc ops (.create cfg cells) =
    .ok () W.emitter) : ∃ e, body cfg pc 0 ops (.create cfg cells) = .ok () e ∧
      e.Precedes W.emitter := by
  obtain ⟨_, e, hbody, hstubs⟩ := bind_ok h
  obtain ⟨_, _, hget, hstubs⟩ := bind_ok hstubs
  cases hget
  rw [← Array.forIn_toList] at hstubs
  exact ⟨e, hbody, Grows.precedes hstubs⟩

theorem Working.atStart (cells : List Nat) (p : Program) (h : c.reg .zero = 0) :
    Working (.create Builder.empty) (.start p c) [] (.create cfg cells) (.start p c) c := by
  have hslot (r : Fin 9) : (Emitter.create cfg cells).cache.slot r = .empty := Vector.get_replicate ..
  refine (Working.start (.create _ (.start p c) h) fun r off hr => ?_).unkept _ _
  rw [hslot] at hr
  cases hr

namespace Trace

theorem head_buildFrom : ∀ op ∈ (buildFrom k w false raw).head?, op.inDelaySlot = false := by
  cases raw with
  | nil => nofun
  | cons r rest =>
    rw [buildFrom_cons_eq]
    dsimp only
    split <;> (rintro op ⟨⟩; rfl)

theorem stepAll_cleared (h : ∀ op ∈ ops.head?, op.inDelaySlot = false) (c : Cpu) :
    stepAll ops c.cleared = stepAll ops c ∨ stepAll ops c.cleared = (stepAll ops c).cleared := by
  cases ops with
  | nil => exact .inr rfl
  | cons op ops =>
    left
    rw [stepAll, stepAll, h op rfl, step_cleared, if_neg Bool.false_ne_true,
      if_neg Bool.false_ne_true]

theorem mem_stepAll_cleared (n : Nat) (c : Cpu) :
    (stepAll ((buildFrom k w false raw).take n) c.cleared).mem =
      (stepAll ((buildFrom k w false raw).take n) c).mem := by
  have hhead : ∀ op ∈ ((buildFrom k w false raw).take n).head?, op.inDelaySlot = false := by
    intro op hop
    rw [List.head?_take] at hop
    split at hop
    · cases hop
    · exact head_buildFrom op hop
  rcases stepAll_cleared hhead c with he | he <;> rw [he]
  rfl

end Trace

/-- The program of a trace leaves the CPU as the interpreter does: with the same registers,
coprocessors, memory and effects, up to the counter of cycles, which the program advances at its
exit. The words of the trace are in RAM at the program counter and stay as they are, no device is
over RAM, and devices keep to the sizes of accesses. -/
theorem TraceProgram.run_steps {limit : Nat} {cells : List Nat} {t : TraceProgram}
    (hfp : ∀ r ∈ raw, ∀ format op, r.kind ≠ .fp format op) (hplace : Kseg0Word c.pc)
    (hzero : c.reg .zero = 0) (hsuits : cfg.Suits c)
    (hbranch : ∀ op ∈ Trace.build raw limit, op.raw.isBranch = true → op.instr.isBranch = true)
    (hram : ∀ n, (stepAll ((Trace.build raw limit).take n) c).mem.Contains c.pc (raw.take limit))
    (ht : TraceProgram.ofTrace cfg cells c.pc (Trace.build raw limit) = .ok t) :
    ∃ r, TraceRun.ofProgram t.program c = .ok r ∧
      (stepAll (Trace.build raw limit) c).SameGuest r.cpu := by
  obtain ⟨W, hwhole, hprogram⟩ := TraceProgram.ofTrace_ok ht
  obtain ⟨e, hbody, hprecedes⟩ := body_of_whole hwhole
  have hknown : Knowledge .fresh .fresh c.cleared :=
    (Knowledge.fresh hzero hsuits.devices).of_sameRegs ⟨rfl, rfl, rfl, rfl⟩
  have hpoised : Poised cfg .fresh .fresh c.cleared :=
    ⟨rfl, rfl, hplace, hknown, hsuits.of_layout (.of_mem rfl) rfl⟩
  have hremains : Remains .fresh .fresh (raw.take limit) c.cleared := by
    refine ⟨fun r hr => hfp r (List.mem_of_mem_take hr), hbranch, fun n => ?_⟩
    rw [mem_stepAll_cleared]
    exact hram n
  have hcleared (d : Cpu) (hd : (stepAll (Trace.build raw limit) c.cleared).SameGuest d) :
      (stepAll (Trace.build raw limit) c).SameGuest d := by
    have hhead : ∀ op ∈ (Trace.build raw limit).head?, op.inDelaySlot = false := head_buildFrom
    rcases stepAll_cleared hhead c with he | he <;> rw [he] at hd
    · exact hd
    · exact hd.of_cleared
  have hstart : Working (.create Builder.empty) (.start W.program c) [] (.create cfg cells)
      (.start W.program c) c := .atStart cells W.program hzero
  have hruns := hstart.body (c := c.cleared) (Q := fun d => (stepAll (Trace.build raw limit) c).SameGuest d) (n := 0)
    (Finished.stubbed_of_whole hwhole) (HostCache.temp_create _) rfl
    ⟨c.pc, c.delay, c.leave, c.frame, rfl⟩ hpoised (UInt32.add_zero c.pc).symm hremains
    hcleared
  obtain ⟨r, hres, hq⟩ := hruns () e hbody hprecedes ⟨rfl, rfl⟩ (fun _ hf => hf.2.elim) #[]
  refine ⟨r, ?_, hq⟩
  unfold TraceRun.ofProgram
  rw [← hprogram, hres]
  rfl

/-- RAM of one page that starts with the given words, and what is mapped elsewhere. -/
def Memory.page (code : List Recompiler.Instr) (devices : List Device) : Memory :=
  ⟨(code.map Recompiler.Instr.word ++ List.replicate (1024 - code.length) 0).toArray, #[false],
    devices⟩

theorem Memory.created_page (h : raw.length ≤ 1024) (devices : List Device) :
    (Memory.page raw devices).Created := by
  refine ⟨4096, ⟨Array.replicate 1024 0, Array.replicate 1 false, []⟩, rfl, ?_, rfl⟩
  simp [Memory.page, h]

instance Memory.decidableContains (mem : Memory) :
    ∀ (pc : UInt32) (raw : List Recompiler.Instr), Decidable (mem.Contains pc raw)
  | _, [] => isTrue trivial
  | pc, _ :: rest =>
    have := decidableContains mem (pc + 4) rest
    inferInstanceAs (Decidable (_ ∧ _ ∧ mem.Contains (pc + 4) rest))

/-- A counter, and a branch back to it with another counter in its delay slot. -/
def Trace.counters : List Recompiler.Instr := [⟨0x24420001⟩, ⟨0x1000fffe⟩, ⟨0x24630001⟩]

def countersState : Cpu := (Cpu.powerOn (.page Trace.counters []) none).goto 0x80000000

theorem TraceProgram.run_steps_counters : ∃ t r,
    TraceProgram.ofTrace ⟨2, 4096, true, none⟩ [] 0x80000000 (Trace.build Trace.counters 3) = .ok t ∧
      TraceRun.ofProgram t.program countersState = .ok r ∧
      (stepAll (Trace.build Trace.counters 3) countersState).SameGuest r.cpu := by
  have hprogram : (TraceProgram.ofTrace ⟨2, 4096, true, none⟩ [] 0x80000000
      (Trace.build Trace.counters 3)).toOption.isSome = true := by
    decide +kernel
  have hkinds : ∀ r ∈ Trace.counters, r.kind = .imm .addiu ∨ r.kind = .branchEq .eq false := by
    decide
  have hfp : ∀ r ∈ Trace.counters, ∀ format op, r.kind ≠ .fp format op := by
    intro r hr format op hk
    rcases hkinds r hr with h | h <;> rw [hk] at h <;> cases h
  have hsuits : Config.Suits ⟨2, 4096, true, none⟩ countersState :=
    ⟨Memory.created_page (by decide) [], by decide +kernel, fun _ _ => rfl, nofun, by decide +kernel⟩
  have hlength : (Trace.build Trace.counters 3).length = 3 := by decide +kernel
  have hfew : ∀ n < 4, (stepAll ((Trace.build Trace.counters 3).take n) countersState).mem.Contains
      0x80000000 (Trace.counters.take 3) := by
    decide +kernel
  have hram (n : Nat) : (stepAll ((Trace.build Trace.counters 3).take n) countersState).mem.Contains
      0x80000000 (Trace.counters.take 3) := by
    rcases Nat.lt_or_ge n 4 with hn | hn
    · exact hfew n hn
    · rw [List.take_of_length_le (by omega), ← List.take_length (l := Trace.build Trace.counters 3),
        hlength]
      exact hfew 3 (by decide)
  cases ht : TraceProgram.ofTrace ⟨2, 4096, true, none⟩ [] 0x80000000
      (Trace.build Trace.counters 3) with
  | error =>
    rw [ht] at hprogram
    cases hprogram
  | ok t =>
    obtain ⟨r, hrun, hsame⟩ := TraceProgram.run_steps hfp ⟨by decide, by decide, by decide⟩
      (by decide +kernel) hsuits (by decide +kernel) hram ht
    exact ⟨t, r, rfl, hrun, hsame⟩

namespace Ir.Machine

/-- What a run leaves, if it asks for fewer than `limit` services and takes at most `fuel` steps
between them. -/
def resumeWithin (fuel : Nat) : Nat → Machine Cpu → Option Cpu
  | 0, _ => none
  | limit + 1, m =>
    match m.runWithin .none fuel with
    | some (.ok status, m) =>
      if status = exitCall then
        match m.ctx.requested? with
        | none => some m.ctx
        | some service =>
          if (m.ctx.serve service).leave ≠ 0 then some (m.ctx.serve service)
          else resumeWithin fuel limit { m with ctx := m.ctx.serve service }
      else some m.ctx
    | _ => none

theorem ends_of_resumeWithin {fuel limit : Nat} (h : m.resumeWithin fuel limit = some d) :
    Ends (· = d) m := by
  induction limit generalizing m with
  | zero => cases h
  | succ limit ih =>
    intro calls
    unfold resumeWithin at h
    split at h
    · rename_i status m' hrun
      rw [resume, run_of_within hrun]
      dsimp only
      split at h
      · rename_i hs
        rw [if_pos hs]
        cases hr : m'.ctx.requested? with
        | none =>
          rw [hr] at h
          exact ⟨_, rfl, Option.some.inj h⟩
        | some service =>
          rw [hr] at h
          dsimp only at h ⊢
          split at h
          · rename_i hl
            rw [if_pos hl]
            exact ⟨_, rfl, Option.some.inj h⟩
          · rename_i hl
            rw [if_neg hl]
            exact ih h _
      · rename_i hs
        rw [if_neg hs]
        exact ⟨_, rfl, Option.some.inj h⟩
    · cases h

end Ir.Machine

/-- The load of a byte and the shift of what it has read at the start of RAM, with a device that
returns more than a byte. -/
def wideState : Cpu :=
  ((Cpu.powerOn (.page Trace.byteShift [⟨0x441, 0x441, fun _ _ => 0x4100⟩]) none).setReg 2
    0xffffffffa4410000).goto 0x80000000

theorem deviceAt?_wideState {p : UInt32} (hp : p.toNat < 4096) :
    wideState.mem.deviceAt? p = none := by
  have hregion : p >>> 16 = 0 := by
    apply UInt32.toNat_inj.mp
    rw [UInt32.toNat_shiftRight, Nat.shiftRight_eq_div_pow]
    exact Nat.div_eq_of_lt (hp.trans (by decide))
  change List.find? _ [_] = none
  rw [List.find?_singleton]
  unfold Device.covers
  rw [hregion]
  rfl

/-- With such a device the program and the interpreter do not agree: the shift has become the
constant that it would be for a byte. -/
theorem TraceProgram.run_wide_read : ∃ t r,
    TraceProgram.ofTrace ⟨2, 4096, true, none⟩ [] 0x80000000 (Trace.build Trace.byteShift 2) = .ok t ∧
      TraceRun.ofProgram t.program wideState = .ok r ∧ r.cpu.reg 4 = 0 ∧
      (stepAll (Trace.build Trace.byteShift 2) wideState).reg 4 = 0x41 ∧
      (∀ r ∈ Trace.byteShift, r.kind = .load .lbu ∨ r.kind = .shift .right .field .word) ∧
      Kseg0Word wideState.pc ∧ wideState.reg .zero = 0 ∧ wideState.mem.Created ∧
      wideState.mem.size = 4096 ∧ wideState.wideFpRegs = true ∧
      (∀ p : UInt32, p.toNat < wideState.mem.size → wideState.mem.deviceAt? p = none) ∧
      ∀ n, (stepAll ((Trace.build Trace.byteShift 2).take n) wideState).mem.Contains 0x80000000
        Trace.byteShift := by
  have hrun : ((TraceProgram.ofTrace ⟨2, 4096, true, none⟩ [] 0x80000000
      (Trace.build Trace.byteShift 2)).toOption.bind fun t =>
        (Machine.start t.program wideState).resumeWithin 40 3).map (·.reg 4) = some 0 := by
    decide +kernel
  have hsize : wideState.mem.size = 4096 := by decide +kernel
  have hlength : (Trace.build Trace.byteShift 2).length = 2 := by decide +kernel
  have hfew : ∀ n < 3, (stepAll ((Trace.build Trace.byteShift 2).take n) wideState).mem.Contains
      0x80000000 Trace.byteShift := by
    decide +kernel
  cases ht : TraceProgram.ofTrace ⟨2, 4096, true, none⟩ [] 0x80000000
      (Trace.build Trace.byteShift 2) with
  | error =>
    rw [ht] at hrun
    cases hrun
  | ok t =>
    rw [ht] at hrun
    obtain ⟨d, hd, hreg⟩ := Option.map_eq_some_iff.mp hrun
    obtain ⟨r, hres, rfl⟩ := Machine.ends_of_resumeWithin hd #[]
    refine ⟨t, r, rfl, ?_, hreg, by decide +kernel, by decide +kernel,
      ⟨by decide, by decide, by decide⟩, by decide +kernel, Memory.created_page (by decide) _, hsize,
      by decide +kernel, fun p hp => deviceAt?_wideState (hsize ▸ hp), fun n => ?_⟩
    · unfold TraceRun.ofProgram
      rw [hres]
      rfl
    · rcases Nat.lt_or_ge n 3 with hn | hn
      · exact hfew n hn
      · rw [List.take_of_length_le (by omega),
          ← List.take_length (l := Trace.build Trace.byteShift 2), hlength]
        exact hfew 2 (by decide)

end Recompiler
