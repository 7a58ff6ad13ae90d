import Recompiler.Proofs.Departures
import Recompiler.Proofs.Budgets

/-!
Slow paths, and sheets of whole programs. A slow path stores what is in use where it branches
off, and loads what its trace uses where it comes back.
-/

namespace Recompiler

open Ir Emit

namespace Emit

variable {cfg : Config} {stub : Stub} {stubs : List Stub} {S K : Set Loc}
  {temps xs : List HostReg}

attribute [local simp] Reads Ir.Instr.isPlain Ir.Instr.IsBlind Ir.Instr.sources

/-- What machines agree on once a slow path has loaded the registers of `rs` and `qs`. -/
def Loaded (stub : Stub) (temps : List HostReg) (rs : List (Fin 9)) (qs : List (Fin 8)) :
    Set Loc := { l |
  l ∈ survivors temps ∨
  (∃ r ∈ rs, l = .reg (.ofSlot r) ∧ ((stub.leave.slots.get r).content.isValue = true ∨
    (stub.leave.slots.get r).content = .temp ∧ .ofSlot r ∈ temps)) ∨
  ∃ r ∈ qs, l = .fp (.ofSlot r) ∧ (stub.leave.fpSlots.get r).content ≠ none }

theorem reloaded_subset_loaded :
    stub.Reloaded temps ⊆ Loaded stub temps (List.finRange 9) (List.finRange 8) := by
  rintro l (rfl | ⟨r, rfl, hr⟩ | ⟨r, rfl, hr⟩)
  · exact .inl (.inl rfl)
  · exact .inr (.inl ⟨r, List.mem_finRange r, rfl, hr⟩)
  · exact .inr (.inr ⟨r, List.mem_finRange r, rfl, hr⟩)

theorem mem_loaded {rs : List (Fin 9)} {qs : List (Fin 8)} {r : Fin 9}
    (h : .reg (.ofSlot r) ∈ Loaded stub temps rs qs) :
    (stub.leave.slots.get r).content.isValue = true ∨
      (stub.leave.slots.get r).content = .temp ∧ .ofSlot r ∈ temps := by
  rcases h with (hz | ⟨_, hs, -⟩) | ⟨r', -, he, hv⟩ | ⟨_, -, he, -⟩
  · exact absurd (Loc.reg.inj hz) (Machine.ofSlot_ne_rz r)
  · cases hs
  · obtain rfl := Machine.ofSlot_inj (Loc.reg.inj he)
    exact hv
  · cases he

/-- A slow path is being emitted, and `stubs` are still to be. Machines agree on `K`. -/
def Returning (stub : Stub) (stubs : List Stub) (temps : List HostReg) (K : Set Loc)
    (e : Emitter) : Prop :=
  Emit.Page ⟨e.labels, stubs, [(Stub.joinLabel stub.id, stub.Reloaded temps)], []⟩ K e.cache.builder

theorem leads_load_plain {i : Ir.Instr String} {K' : Set Loc} (hi : i.isPlain = true)
    (hp : Passes K i K') :
    Leads (Returning stub stubs temps K) (emit i) fun _ => Returning stub stubs temps K' := by
  intro e a e' he h
  cases he
  exact Emit.Page.pass h hi hp

/-- The temporaries are loaded from the save area, all else from the state. -/
theorem leads_reload (hr : stub.Relies S temps) (ht : temps ⊆ xs) (rs : List (Fin 9)) (r : Fin 9) :
    Leads (Returning stub stubs temps (Loaded stub temps rs []))
      (reload xs (.ofSlot r) (stub.leave.slots.get r))
      fun _ => Returning stub stubs temps (Loaded stub temps (rs ++ [r]) []) := by
  have hcases {l : Loc} (hl : l ∈ Loaded stub temps (rs ++ [r]) []) :
      l ∈ Loaded stub temps rs [] ∨ l = .reg (.ofSlot r) ∧
        ((stub.leave.slots.get r).content.isValue = true ∨
          (stub.leave.slots.get r).content = .temp ∧ .ofSlot r ∈ temps) := by
    rcases hl with hl | ⟨r', hr', rfl, hv⟩ | ⟨q, hq, -⟩
    · exact .inl (.inl hl)
    · rcases List.mem_append.mp hr' with hm | hm
      · exact .inl (.inr (.inl ⟨r', hm, rfl, hv⟩))
      · rw [List.mem_singleton.mp hm] at hv ⊢
        exact .inr ⟨rfl, hv⟩
    · cases hq
  have hnone (h : ¬ ((stub.leave.slots.get r).content.isValue = true ∨
      (stub.leave.slots.get r).content = .temp ∧ .ofSlot r ∈ temps)) :
      Leads (Returning stub stubs temps (Loaded stub temps rs [])) (pure () : EmitM Unit)
        fun _ => Returning stub stubs temps (Loaded stub temps (rs ++ [r]) []) :=
    .pure _ fun _ hp => Emit.Page.mono hp fun l hl => (hcases hl).resolve_right fun hl => h hl.2
  have hvalue {off : Int} (hoff : 64 ≤ off) :
      Leads (Returning stub stubs temps (Loaded stub temps rs [])) (emit (.ldc off (.ofSlot r)))
        fun _ => Returning stub stubs temps (Loaded stub temps (rs ++ [r]) []) := by
    refine leads_load_plain rfl (.plain (fun _ hm => ?_) hoff fun l hl => ?_)
    · cases hm
    · exact (hcases hl).imp_right fun hl => List.mem_singleton.mpr hl.1
  have hplace := hr.place r
  unfold reload
  cases hc : (stub.leave.slots.get r).content with
  | unused =>
    rw [hc] at hnone
    exact hnone (by simp [Content.isValue])
  | temp =>
    rw [hc] at hnone hcases
    dsimp only
    split
    · refine leads_load_plain rfl (.restore fun l hl => ?_)
      by_cases he : l = .reg (.ofSlot r)
      · subst he
        have hv := mem_loaded hl
        rw [hc] at hv
        have hm := hv.resolve_left Bool.false_ne_true
        exact .inr ⟨rfl, .inl (.inr ⟨r, rfl, hm.2⟩)⟩
      · exact .inl ⟨(hcases hl).resolve_right fun hl => he hl.1, he⟩
    · rename_i hx
      refine hnone ?_
      rintro (hv | ⟨-, hm⟩)
      · cases hv
      · exact hx (List.contains_iff_mem.mpr (ht hm))
  | _ =>
    rw [hc] at hplace
    exact hvalue (hplace rfl)

theorem leads_reloadFp (hr : stub.Relies S temps) (qs : List (Fin 8)) (r : Fin 8) :
    Leads (Returning stub stubs temps (Loaded stub temps (List.finRange 9) qs))
      (reloadFp (.ofSlot r) (stub.leave.fpSlots.get r))
      fun _ => Returning stub stubs temps (Loaded stub temps (List.finRange 9) (qs ++ [r])) := by
  have hcases {l : Loc} (hl : l ∈ Loaded stub temps (List.finRange 9) (qs ++ [r])) :
      l ∈ Loaded stub temps (List.finRange 9) qs ∨
        l = .fp (.ofSlot r) ∧ (stub.leave.fpSlots.get r).content ≠ none := by
    rcases hl with hl | hl | ⟨q, hq, rfl, hv⟩
    · exact .inl (.inl hl)
    · exact .inl (.inr (.inl hl))
    · rcases List.mem_append.mp hq with hm | hm
      · exact .inl (.inr (.inr ⟨q, hm, rfl, hv⟩))
      · rw [List.mem_singleton.mp hm] at hv ⊢
        exact .inr ⟨rfl, hv⟩
  have hplace := hr.fpPlace r
  unfold reloadFp
  cases hc : (stub.leave.fpSlots.get r).content with
  | none =>
    rw [hc] at hcases
    exact .pure _ fun _ hp => Emit.Page.mono hp fun l hl => (hcases hl).resolve_right fun hl =>
      hl.2 rfl
  | some x =>
    obtain ⟨size, off⟩ := x
    refine leads_load_plain rfl (.plain (fun _ hm => ?_) (hplace size off hc) fun l hl => ?_)
    · cases hm
    · exact (hcases hl).imp_right fun hl => List.mem_singleton.mpr hl.1

def Remaining (stubs : List Stub) (e : Emitter) : Prop :=
  Emit.Page ⟨e.labels, stubs, [], []⟩ Set.univ e.cache.builder

theorem leads_return (hr : stub.Relies S temps) (ht : temps ⊆ xs) :
    Leads (Returning stub stubs temps (survivors temps)) (do
      for r in List.finRange 9 do
        reload xs (.ofSlot r) (stub.leave.slots.get r)
      for r in List.finRange 8 do
        reloadFp (.ofSlot r) (stub.leave.fpSlots.get r)
      emit (.jump (Stub.joinLabel stub.id))) fun _ => Remaining stubs := by
  refine .bind (.pre (.forIn (I := fun rs => Returning stub stubs temps (Loaded stub temps rs []))
    fun rs r _ => leads_reload hr ht rs r) fun e h => Emit.Page.mono h ?_) fun _ => ?_
  · rintro l (hl | ⟨_, hm, -⟩ | ⟨_, hm, -⟩)
    · exact hl
    · cases hm
    · cases hm
  refine .bind (.forIn (I := fun qs =>
    Returning stub stubs temps (Loaded stub temps (List.finRange 9) qs))
    fun qs r _ => leads_reloadFp hr qs r) fun _ => ?_
  intro e a e' he h
  cases he
  obtain ⟨T, hb, hK⟩ := Emit.Page.jumpBack h reloaded_subset_loaded
  exact ⟨T, { hb with placed := fun x hx => absurd hx List.not_mem_nil }, hK⟩

theorem leads_emitStub :
    Leads (Remaining (stub :: stubs)) (emitStub stub) fun _ => Remaining stubs := by
  intro e a e' he h
  obtain ⟨S, temps, hr, hp⟩ := Emit.Page.unstub h
  obtain ⟨u₁, e₁, h₁, he⟩ := bind_ok he
  obtain ⟨b, hb, rfl⟩ := putLabel_ok h₁
  obtain ⟨u₂, e₂, h₂, he⟩ := bind_ok he
  cases h₂
  have hS : locs temps ⊆ S := by
    rintro l ⟨x, hx, rfl⟩
    exact hr.known x hx
  -- The registers are those in use where the slow path branches off.
  have hrest : Leads (Holds (fun n _ => ⟨n, stubs, [(Stub.joinLabel stub.id, stub.Reloaded temps)],
      [(Stub.resumeLabel stub.id, Set.univ)]⟩) e.cache.depth S temps []) (do
        let xs ← spill
        emit (.stc stub.addr Layout.callAddr)
        describe stub.site stub.op
        emit (.callout Service.exec.id (Stub.resumeLabel stub.id))
        putLabel (Stub.resumeLabel stub.id)
        for r in List.finRange 9 do
          reload xs (.ofSlot r) (stub.leave.slots.get r)
        for r in List.finRange 8 do
          reloadFp (.ofSlot r) (stub.leave.fpSlots.get r)
        emit (.jump (Stub.joinLabel stub.id))) fun _ => Remaining stubs := by
    refine .bind (leads_spill hS) fun xs => .assume fun ⟨ht, _⟩ => ?_
    have haddr : .reg stub.addr ∈ Saving S temps xs := mem_saving_reg hr.addr xs
    refine .bind (leads_store (by simp [*])) fun _ => .bind (leads_describe _ _) fun _ => ?_
    intro e a e' he h
    obtain ⟨u₁, e₁, h₁, he⟩ := bind_ok he
    obtain ⟨u₂, e₂, h₂, he⟩ := bind_ok he
    cases h₁
    obtain ⟨b, hb, rfl⟩ := putLabel_ok h₂
    obtain ⟨K, hK, hp, -⟩ := h.backed
    refine leads_return hr ht _ _ _ he ((hp.ask hb).mono ?_)
    rintro l (rfl | ⟨r, rfl, hm⟩)
    · exact .inl rfl
    · exact .inr ⟨r, rfl, hK (.inr ⟨r, rfl, hm, ht hm⟩)⟩
  refine hrest _ _ _ he ⟨rfl, S, Set.Subset.rfl, ?_, hr.enter⟩
  exact (hp.label hb).mono (Set.subset_inter (Set.subset_univ S) Set.Subset.rfl)

theorem leads_emitStubs (stubs : List Stub) :
    Leads (Remaining stubs) (forIn stubs PUnit.unit fun stub (_ : PUnit) => do
      emitStub stub
      pure (ForInStep.yield PUnit.unit)) fun _ => Remaining [] := by
  induction stubs with
  | nil => exact .pure _ fun _ h => h
  | cons stub stubs ih =>
    rw [List.forIn_cons]
    refine .bind (Q := fun s e => s = ForInStep.yield PUnit.unit ∧ Remaining stubs e)
      (.bind leads_emitStub fun _ => .pure _ fun _ h => ⟨rfl, h⟩) fun s => ?_
    refine .assume ?_
    rintro rfl
    exact ih

theorem leads_whole (base : UInt32) (ops : List TraceOp) :
    Leads (Idle 0 [] []) (whole cfg base ops) fun _ => Remaining [] := by
  refine .bind (leads_body base 0 ops) fun _ => .bind .get fun e => ?_
  rw [← Array.forIn_toList]
  refine .bind (.pre (leads_emitStubs e.stubs.toList) ?_) fun _ => .pure _ fun _ h => h
  rintro _ ⟨rfl, h⟩
  exact h.page

theorem page_empty : Emit.Page ⟨0, [], [], []⟩ {.reg .rz} (Builder.empty.setBudget none) := by
  have hlabels : Labels [] 0 (Builder.empty.setBudget none) := by
    refine ⟨List.nodup_nil, fun _ h => ?_, fun name h => ?_, List.nodup_nil, fun _ h => ?_⟩
    · cases h
    · rcases h with h | h <;> cases h
    · cases h
  have hledger : Ledger (fun _ => {.reg .rz}) (Builder.empty.setBudget none) := by
    refine ⟨rfl, fun _ hl => hl, fun k i hi => ?_, fun k i name pos hi => ?_, fun name pos hl => ?_,
      fun k status hi => ?_, fun k cell hi => ?_⟩
    · cases hi
    · cases hi
    · cases hl
    · cases hi
    · cases hi
  refine ⟨_, ⟨hledger, hlabels, fun k i name hi => ?_, fun _ hx => ?_, fun _ hx => ?_,
    fun _ hs => ?_, fun _ hs => ?_⟩, rfl, fun cell hback => ?_⟩
  · cases hi
  · cases hx
  · cases hx
  · cases hs
  · cases hs
  · cases hback

theorem idle_create (h : cfg.budget = none) (cells : List Nat) :
    Idle 0 [] [] (.create cfg cells) := by
  refine ⟨[], List.Subset.refl _, rfl, {.reg .rz}, ?_, ?_, rfl, ?_, fun r => ?_, fun r => ?_⟩
  · rintro l ⟨x, hx, -⟩
    cases hx
  · rw [Emitter.create, h]
    exact page_empty
  · intro x hx
    cases hx
  · rw [show (Emitter.create cfg cells).cache.snapshot.slots.get r = .empty from
      Vector.get_replicate _ _ _]
    exact .empty List.not_mem_nil fun _ => List.not_mem_nil
  · rw [show (Emitter.create cfg cells).cache.snapshot.fpSlots.get r = .empty from
      Vector.get_replicate _ _ _]
    exact .empty

/-- The page of a whole program is its sheet. -/
theorem sheet_of_page {b : Builder} {n : Nat} {p : Program} (h : Emit.Page ⟨n, [], [], []⟩ K b)
    (hb : b.build = .ok p) : ∃ T, p.Sheet T := by
  obtain ⟨T, hbook, -, hcalm⟩ := h
  have hcode : p.code =
      b.code.map (·.mapTarget fun name => (b.labels.lookup name).getD b.code.size) := by
    unfold Builder.build at hb
    split at hb <;> cases hb
    rfl
  have hof {k : Nat} {i : Ir.Instr Nat} (hi : p.code[k]? = some i) : ∃ j, b.code[k]? = some j ∧
      i = j.mapTarget fun name => (b.labels.lookup name).getD b.code.size := by
    rw [hcode, Array.getElem?_map] at hi
    obtain ⟨j, hj, rfl⟩ := Option.map_eq_some_iff.mp hi
    exact ⟨j, hj, rfl⟩
  have hledger := hbook.ledger.trim ∅
  refine ⟨cut T b.code.size ∅, hledger.entry, fun k i hi hf => ?_, fun k i target hi ht => ?_,
    fun k status hi => ?_, fun k cell hi => ?_⟩
  · obtain ⟨j, hj, rfl⟩ := hof hi
    rw [Ir.Instr.falls_mapTarget] at hf
    exact (hledger.pass k j hj hf).mapTarget _
  · obtain ⟨j, hj, rfl⟩ := hof hi
    rw [Ir.Instr.target?_mapTarget] at ht
    obtain ⟨name, hname, rfl⟩ := Option.map_eq_some_iff.mp ht
    rw [carried_mapTarget]
    cases hl : b.labels.lookup name with
    | some pos => exact hledger.jump k j name pos hj hname hl
    | none =>
      rw [Option.getD_none, cut_self, Set.inter_empty]
      exact Set.empty_subset _
  · obtain ⟨j, hj, he⟩ := hof hi
    cases j <;> cases he
    exact hledger.exit k status hj
  · obtain ⟨j, hj, he⟩ := hof hi
    cases j <;> cases he
    have hlt : k + 1 < b.code.size := by
      have hk := (Array.getElem?_eq_some_iff.mp hj).1
      by_contra hend
      refine hcalm cell ?_
      rw [Array.back?, show b.code.size - 1 = k by omega]
      exact hj
    rw [hcode, Array.getElem?_map, hledger.link k cell hj hlt]
    rfl

end Emit

theorem build_of_within {limit : Nat} {b b' : Builder} (h : b.Within limit b')
    (hfit : b'.exhausted = false) : b.build = b'.build := by
  have hbytes : b.bytes ≤ limit := by
    by_contra hmore
    rw [h.full (Nat.lt_of_not_le hmore)] at hfit
    cases hfit
  rw [h.fits hbytes]
  rfl

namespace Ir.Program

/-- Every program of a trace has a sheet. -/
theorem IsTrace.sheet {p : Program} (h : p.IsTrace) : ∃ T, p.Sheet T := by
  obtain ⟨cfg, cells, pc, ops, t, ht, rfl⟩ := h
  unfold TraceProgram.ofTrace at ht
  split at ht
  · cases ht
  cases hw : whole cfg pc ops (.create cfg cells) with
  | error err e =>
    rw [hw] at ht
    cases ht
  | ok u e =>
    rw [hw] at ht
    obtain ⟨hfit, hbuild⟩ : e.cache.builder.exhausted = false ∧
        e.cache.builder.build = .ok t.program := by
      dsimp only [Emitter.finish] at ht
      cases hfit : e.cache.builder.exhausted with
      | true =>
        rw [hfit] at ht
        cases ht
      | false =>
        cases hbuild : e.cache.builder.build with
        | error err =>
          rw [hfit, hbuild] at ht
          cases ht
        | ok p =>
          rw [hfit, hbuild] at ht
          cases ht
          exact ⟨rfl, rfl⟩
    cases hbudget : cfg.budget with
    | none =>
      exact sheet_of_page (leads_whole pc ops _ _ _ hw (idle_create hbudget cells)) hbuild
    | some limit =>
      have hmirror := blind_whole cfg pc ops _ _ (Emitter.within_create cfg cells limit)
      rw [← hbudget, hw] at hmirror
      generalize hfree : whole cfg pc ops (.create { cfg with budget := none } cells) = x at hmirror
      cases hmirror with
      | @ok _ e₀ _ hwithin =>
        obtain ⟨-, c, ⟨b, hb, rfl⟩, rfl⟩ := hwithin
        have hpage := leads_whole pc ops _ _ _ hfree (idle_create rfl cells)
        exact sheet_of_page hpage ((build_of_within hb hfit).trans hbuild)

end Ir.Program

end Recompiler
