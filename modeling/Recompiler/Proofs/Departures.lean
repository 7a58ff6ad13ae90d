import Recompiler.Proofs.HoldingCode

/-!
Branches and exits. Where a program leaves, machines need not agree on anything.
Where two paths part, they agree on both on what they agreed on before.
-/

namespace Recompiler

open Ir Emit

namespace Emit

variable {α β : Type} {cfg : Config} {s : Site} {i : Recompiler.Instr} {d : Int}
  {J : List (String × Set Loc)} {V : Set Loc} {temps : List HostReg} {owed : List Due}
  {x : HostReg} {name : String} {n : Nat} {R : β → Emitter → Prop}

attribute [local simp] Reads Ir.Instr.isPlain Ir.Instr.IsBlind Ir.Instr.sources

/-- The code so far does not go on. The labels of `J` are to be put. -/
structure Gone (d : Int) (J : List (String × Set Loc)) (e : Emitter) : Prop where
  depth : e.cache.depth = d
  page : Emit.Page ⟨e.labels, e.stubs.toList, [], J⟩ Set.univ e.cache.builder

theorem leads_exit :
    Leads (Agreed d J V temps owed) (emit (.exit 0)) fun _ => Gone d J := by
  intro e a e' he h
  cases he
  obtain ⟨K, -, hp, -⟩ := h.backed
  exact ⟨h.depth, hp.exit⟩

theorem leads_account :
    Leads (Agreed d J V temps []) (account cfg n)
      fun _ => Agreed d J V (if d + 1 = 1 then [] else temps) [] := by
  have hflush {temps : List HostReg} : Leads (Agreed d J V temps []) (modifyCache (·.flushAll))
      fun _ => Agreed d J V temps [] :=
    leads_modifyCache (fun h => (Appends.flushAll _).depth.trans h) fun hb => hb.flushAll
  have hend : Leads (Agreed (d + 1) J V temps []) (do
        onCache HostCache.endOp
        modifyCache (·.flushAll))
      fun _ => Agreed d J V (if d + 1 = 1 then [] else temps) [] := by
    refine .bind leads_endOp fun _ => ?_
    rw [Int.add_sub_cancel]
    exact hflush
  refine .bind leads_startOp fun _ => .ite (leads_inOutWord (by decide) fun x => ?_) hend
  exact .bind (.keep (leads_write rfl (by simp [*])) (fun _ hl => by simp [hl])) fun _ => hend

theorem leads_exitUnlinked :
    Leads (Agreed d J V temps []) exitUnlinked fun _ => Gone d J :=
  .bind (leads_store (by simp [*])) fun _ => leads_exit

theorem leads_takeCell (target : UInt32) :
    Leads (Agreed d J V temps []) (takeCell target) fun _ => Agreed d J V temps [] := by
  refine .bind .get fun e₀ => .pre ?_ fun _ h => h.2
  split
  · exact .pure _ fun _ h => h
  · intro e a e' he h
    cases he
    exact ⟨h.depth, h.backed⟩

theorem builder_ended (c : HostCache) :
    c.ended.builder = c.builder ∧ c.ended.depth = c.depth - 1 := by
  unfold HostCache.ended
  dsimp only
  split <;> exact ⟨rfl, rfl⟩

theorem leads_close {p : Nat → List Stub → Builder → Prop} :
    Leads (fun e => e.cache.depth = d + 1 ∧ p e.labels e.stubs.toList e.cache.builder)
      (onCache HostCache.endOp)
      fun _ e => e.cache.depth = d ∧ p e.labels e.stubs.toList e.cache.builder := by
  rintro e a e' he ⟨hdepth, hp⟩
  obtain ⟨c, hc, rfl⟩ := onCache_ok he
  obtain rfl := endOp_ok hc
  obtain ⟨hb, hd⟩ := builder_ended e.cache
  refine ⟨?_, ?_⟩
  · change e.cache.ended.depth = d
    omega
  · change p _ _ e.cache.ended.builder
    rw [hb]
    exact hp

theorem leads_finish : Leads (Gone (d + 1) J) (onCache HostCache.endOp) fun _ => Gone d J :=
  (leads_close (p := fun n stubs b => Emit.Page ⟨n, stubs, [], J⟩ Set.univ b)).pre
    (fun _ h => ⟨h.depth, h.page⟩) |>.post fun _ _ h => ⟨h.1, h.2⟩

/-- A link is followed by the return that is taken when the cell is empty or an event is due. -/
theorem leads_exitLinked (cell : Nat) :
    Leads (Agreed d J V temps []) (exitLinked cell) fun _ => Gone d J := by
  refine .bind (leads_freshLabel (by decide)) fun due => .bind (leads_store (by simp [*])) fun _ =>
    .bind leads_startOp fun _ => .bind (leads_inWord (by decide)) fun now =>
      .bind (leads_inWord (by decide)) fun next => .bind leads_temp fun diff =>
        .bind (leads_write rfl (by simp [*])) fun _ => ?_
  intro e a e' he h
  obtain ⟨u₁, e₁, h₁, he⟩ := bind_ok he
  obtain ⟨u₂, e₂, h₂, he⟩ := bind_ok he
  obtain ⟨u₃, e₃, h₃, he⟩ := bind_ok he
  cases h₁
  cases h₂
  obtain ⟨b, hb, rfl⟩ := putLabel_ok h₃
  obtain ⟨K, hK, hp, -⟩ := h.backed
  have hdiff : ∀ l ∈ (Ir.Instr.branchConst .ge diff 0 due : Ir.Instr String).sources, l ∈ K := by
    intro l hl
    rw [List.mem_singleton.mp hl]
    exact hK (Set.mem_insert _ _)
  obtain ⟨u₄, e₄, h₄, he⟩ := bind_ok he
  obtain ⟨hdepth, hp⟩ := leads_close
    (p := fun n stubs b => Emit.Page ⟨n, stubs, [], J⟩ Set.univ (b.add (.exit 0))) _ _ _ h₄
    ⟨h.depth, hp.link rfl rfl hdiff hb⟩
  cases he
  exact ⟨hdepth, hp⟩

theorem leads_exitDirect (target : UInt32) (linkable : Bool) :
    Leads (Agreed d J V temps []) (exitDirect cfg target n linkable) fun _ => Gone d J := by
  refine .bind leads_account fun _ => .bind (leads_store (by simp [*])) fun _ => ?_
  refine .ite (.bind (leads_takeCell target) fun cell => ?_)
    (.bind (Q := fun _ => Agreed d J V (if d + 1 = 1 then [] else temps) [])
      (.pure none fun _ h => h) fun cell => ?_)
  all_goals
    cases cell with
    | some cell => exact leads_exitLinked cell
    | none => exact leads_exitUnlinked

theorem leads_exitReg (hx : x = .rz ∨ .reg x ∈ V) :
    Leads (Agreed d J V temps []) (exitReg cfg x n) fun _ => Gone d J := by
  refine .bind leads_account fun _ => .bind (leads_store ⟨rfl, trivial, ?_⟩) fun _ =>
    leads_exitUnlinked
  intro l hl
  rw [List.mem_singleton.mp hl]
  exact hx.imp_left (congrArg Loc.reg)

theorem leads_exitServed :
    Leads (Agreed d J V temps []) (exitServed cfg n) fun _ => Gone d J :=
  .bind leads_account fun _ => leads_exitUnlinked

theorem leads_signWord (g : GuestReg) :
    Leads (Agreed d J V temps []) (signWord s g)
      fun x => Agreed d J (insert (.reg x) V) temps [] :=
  .ite leads_inLow leads_inHigh

theorem leads_differ (x y : GuestReg) (t : HostReg) :
    Leads (Agreed d J V temps []) (differ s x y t)
      fun _ => Agreed d J (insert (.reg t) V) temps [] := by
  refine .bind leads_inLow fun _ => .bind leads_inLow fun _ =>
    .bind (leads_write rfl (by simp [*])) fun _ => .ite ?_ ?_
  · refine .bind leads_temp fun _ => .bind leads_inHigh fun _ => .bind leads_inHigh fun _ =>
      .bind (leads_write rfl (by simp [*])) fun _ => .keep (leads_write rfl (by simp [*])) ?_
    exact Set.insert_subset (by simp) fun _ hl => by simp [hl]
  · exact .keep (.pure _ fun _ h => h) (Set.insert_subset (by simp) fun _ hl => by simp [hl])

theorem leads_lessThanOne (g : GuestReg) {t : HostReg}
    (hV : locs temps ⊆ insert (.reg t) V) :
    Leads (Agreed d J V temps []) (lessThanOne s g t) fun _ => Idle d J temps := by
  refine .ite ?_ ?_
  · refine .bind leads_inLow fun _ => .post (leads_write rfl (by simp [*])) fun _ _ h => ?_
    exact h.idle fun l hl => (hV hl).imp_right .inr
  · refine .bind leads_inHigh fun high => .bind leads_inLow fun low => ?_
    refine .constant fun one temps' ht hone => ?_
    have hcompare : Leads (Agreed d J (insert (.reg .rz) (insert (.reg one) (insert (.reg low)
        (insert (.reg high) V)))) temps' []) (compareBoth true high low .rz one t) _ :=
      leads_compareBoth true (by simp) (by simp) (by simp) (by simp)
    refine .post (.pre hcompare fun e h => h.zero) fun _ e h => ⟨temps', ht, ?_⟩
    refine h.mono fun l hl => ?_
    rcases hone hl with rfl | hl
    · exact .inr (.inr (.inl rfl))
    · exact (hV hl).imp_right fun hl => .inr (.inr (.inr (.inr hl)))

theorem leads_flip {op : ConstOp} {t : HostReg} (ht : t ∈ temps) :
    Leads (Idle d J temps) (const op t 1 t) fun _ => Idle d J temps := by
  refine .idle (fun _ h => h) fun temps' hsub => ?_
  have hx : Loc.reg t ∈ locs temps' := ⟨t, hsub ht, rfl⟩
  exact .post (leads_write rfl (by simp [*])) fun _ e h =>
    ⟨temps', hsub, h.mono (Set.subset_insert _ _)⟩

theorem Holds.tested {e : Emitter} {t : HostReg} {V : Set Loc}
    (h : Agreed d J (insert (.reg t) V) (t :: temps) [] e) (hV : locs temps ⊆ V) :
    Idle d J (t :: temps) e := by
  refine h.idle ?_
  rintro l ⟨x, hx, rfl⟩
  rcases List.mem_cons.mp hx with rfl | hx
  · exact .inl rfl
  · exact .inr (hV ⟨x, hx, rfl⟩)

theorem leads_condition :
    Leads (Agreed d J (locs temps) temps []) (condition s i) fun t => Idle d J (t :: temps) := by
  refine .bind leads_keptTemp fun t => ?_
  have ht : t ∈ t :: temps := List.mem_cons_self
  have hdiffer : Leads (Agreed d J (locs temps) (t :: temps) []) (differ s (rs i) (rt i) t)
      fun _ => Idle d J (t :: temps) :=
    (leads_differ _ _ t).post fun _ _ h => h.tested Set.Subset.rfl
  have hless : Leads (Agreed d J (locs temps) (t :: temps) []) (lessThanOne s (rs i) t)
      fun _ => Idle d J (t :: temps) := by
    refine leads_lessThanOne _ ?_
    rintro l ⟨x, hx, rfl⟩
    exact (List.mem_cons.mp hx).imp (congrArg Loc.reg) fun hx => ⟨x, hx, rfl⟩
  have hsign {f : EmitM HostReg}
      (hf : Leads (Idle d J (t :: temps)) f fun t => Idle d J (t :: temps)) :
      Leads (Agreed d J (locs temps) (t :: temps) []) (do
        let x ← signWord s (rs i)
        const .srl x 31 t
        f) fun t => Idle d J (t :: temps) :=
    .bind (leads_signWord _) fun _ =>
      .bind (.post (leads_write rfl (by simp [*])) fun _ _ h =>
        h.tested (Set.subset_insert _ _)) fun _ => hf
  have hreturn : Leads (Idle d J (t :: temps)) (pure t : EmitM HostReg)
      fun t => Idle d J (t :: temps) := .pure t fun _ h => h
  cases branchTest i with
  | fpFlag value =>
    refine .bind (leads_inWord (by decide)) fun control => ?_
    refine .bind (.post (leads_write rfl (by simp [*])) fun _ _ h =>
      h.tested (Set.subset_insert _ _)) fun _ => ?_
    exact .ite (.bind (leads_flip ht) fun _ => hreturn) hreturn
  | equal => exact .bind hdiffer fun _ => .bind (leads_flip ht) fun _ => hreturn
  | different => exact .bind hdiffer fun _ => hreturn
  | atMostZero => exact .bind hless fun _ => hreturn
  | aboveZero => exact .bind hless fun _ => .bind (leads_flip ht) fun _ => hreturn
  | negative => exact hsign hreturn
  | notNegative => exact hsign (.bind (leads_flip ht) fun _ => hreturn)

def Outcome.kept (out : Outcome) : List HostReg := [out.target, out.cond].filter (· ≠ .rz)

theorem Outcome.mem_kept {out : Outcome} :
    x ∈ out.kept ↔ (x = out.target ∨ x = out.cond) ∧ x ≠ .rz := by
  simp [kept]

theorem leads_evaluate :
    Leads (Agreed d J (locs temps) temps []) (evaluate s i) fun out => Idle d J out.kept := by
  refine .ite ?_ (.ite ?_ ?_)
  · refine .bind leads_keptTemp fun target => .bind leads_inLow fun x => ?_
    refine .bind (.post (leads_write rfl (by simp [*])) fun _ _ h =>
      h.tested (Set.subset_insert _ _)) fun _ => ?_
    refine .pure _ fun e h => h.mono fun x hx => ?_
    obtain ⟨rfl | rfl, hne⟩ := Outcome.mem_kept.mp hx
    · exact List.mem_cons_self
    · exact absurd rfl hne
  · refine .pure _ fun e h => (h.idle Set.Subset.rfl).mono fun x hx => ?_
    obtain ⟨rfl | rfl, hne⟩ := Outcome.mem_kept.mp hx
    all_goals exact absurd rfl hne
  · refine .bind leads_condition fun t => .pure _ fun e h => h.mono fun x hx => ?_
    obtain ⟨rfl | rfl, hne⟩ := Outcome.mem_kept.mp hx
    · exact absurd rfl hne
    · exact List.mem_cons_self

theorem leads_writeLink :
    Leads (Agreed d J V temps []) (writeLink s i) fun _ => Agreed d J V temps [] := by
  unfold writeLink
  split
  · refine .ite ?_ (.pure _ fun _ h => h)
    exact .bind leads_outSigned fun _ => .bind (leads_write rfl (by simp [*])) fun _ =>
      .keep (leads_setConst (by simp)) (fun _ hl => by simp [hl])
  · exact .pure _ fun _ h => h

theorem leads_unpinAll :
    Leads (Agreed d J V temps []) (modifyCache unpinAll) fun _ => Agreed d J V temps [] :=
  leads_modifyCache (fun h => h) fun hb => hb.unpinAll

theorem depth_drop (c : HostCache) (x : HostReg) : (c.drop x).depth = c.depth := by
  unfold HostCache.drop HostCache.modifySlot
  split <;> rfl

theorem leads_retire (keep : HostReg) :
    Leads (Agreed d J V temps []) (retire keep) fun _ e => ∃ temps', Agreed d J V temps' [] e := by
  intro e a e' he h
  cases he
  obtain ⟨temps', hb⟩ := h.backed.retire keep e.cache.temps
  refine ⟨temps', ?_, hb⟩
  refine List.foldlRecOn (motive := fun c : HostCache => c.depth = d) e.cache.temps _ h.depth
    fun c hc x _ => ?_
  split
  · exact hc
  · exact (depth_drop c x).trans hc

theorem Leads.slot {keep : HostReg} {f : EmitM β} (hd : d ≠ 0)
    (hf : ∀ V temps', locs temps ⊆ V → Leads (Agreed d J V temps' []) f R) :
    Leads (Agreed d J (locs temps) temps []) (do
      instr cfg s i
      retire keep
      f) R := by
  have hslot : Leads (Agreed d J (locs temps) temps []) (instr cfg s i) fun _ => Idle d J temps :=
    .pre (leads_instr fun h => absurd h hd) fun _ h => h.idle Set.Subset.rfl
  refine .bind hslot fun _ => .idle (fun _ h => h) fun temps' ht => ?_
  refine .bind (leads_retire keep) fun _ => ?_
  rintro e a e' he ⟨temps'', h⟩
  refine hf _ _ ?_ _ _ _ he h
  rintro l ⟨x, hx, rfl⟩
  exact ⟨x, ht hx, rfl⟩

theorem Leads.part {j : Ir.Instr String} {f : Emitter → EmitM β}
    (ht : j.target? = some name) (hfalls : j.falls = true)
    (hs : ∀ l ∈ j.sources, l = .reg .rz ∨ l ∈ V)
    (hf : ∀ (e : Emitter) K, V ⊆ K → Backs K temps [] e.cache.snapshot →
      Leads (Agreed d ((name, K) :: J) V temps []) (f e) R) :
    Leads (Agreed d ((name, Set.univ) :: J) V temps []) (do
      emit j
      let e ← MonadState.get
      f e) R := by
  intro e a e' he h
  obtain ⟨u₁, e₁, h₁, he⟩ := bind_ok he
  obtain ⟨e₂, e₃, h₂, he⟩ := bind_ok he
  cases h₁
  cases h₂
  obtain ⟨K, hK, hp, hb⟩ := h.backed
  have hpart := hp.branch ht hfalls fun l hl => by
    rcases hs l hl with rfl | hl
    · exact hb.zero
    · exact hK hl
  exact hf { e with cache := e.cache.emit j } K hK hb _ _ _ he ⟨h.depth, K, hK, hpart, hb⟩

theorem Leads.meet {K : Set Loc} {saved : Snapshot} {f : EmitM β}
    (hK : V ⊆ K) (hb : Backs K temps [] saved) (hf : Leads (Agreed d J V temps []) f R) :
    Leads (Gone d ((name, K) :: J)) (do
      modifyCache (·.restore saved)
      putLabel name
      f) R := by
  intro e a e' he h
  obtain ⟨u₁, e₁, h₁, he⟩ := bind_ok he
  obtain ⟨u₂, e₂, h₂, he⟩ := bind_ok he
  cases h₁
  obtain ⟨b, hl, rfl⟩ := putLabel_ok h₂
  refine hf _ _ _ he ⟨h.depth, K, hK, ?_, hb⟩
  exact (h.page.label hl).mono (Set.subset_inter (Set.subset_univ K) Set.Subset.rfl)

theorem leads_branchAndSlot (slot : TraceOp) :
    Leads (Idle 0 J []) (branchAndSlot cfg s i slot) fun _ => Gone 0 J := by
  refine .idle (fun _ h => h) fun temps₀ _ => .bind leads_startOp fun _ => ?_
  refine .bind leads_evaluate fun out => .idle (fun _ h => h) fun temps ht => ?_
  refine .bind leads_writeLink fun _ => .bind leads_unpinAll fun _ => ?_
  have hkept {x : HostReg} (hx : x = out.target ∨ x = out.cond) :
      x = .rz ∨ .reg x ∈ locs temps := by
    by_cases hz : x = .rz
    · exact .inl hz
    · exact .inr ⟨x, ht (Outcome.mem_kept.mpr ⟨hx, hz⟩), rfl⟩
  have hcond (name : String) :
      ∀ l ∈ (Ir.Instr.branchConst .eq out.cond 0 name : Ir.Instr String).sources,
        l = .reg .rz ∨ l ∈ locs temps := by
    intro l hl
    rw [List.mem_singleton.mp hl]
    exact (hkept (.inr rfl)).imp_left (congrArg Loc.reg)
  have hend (J : List (String × Set Loc)) :
      Leads (Gone 1 J) (onCache HostCache.endOp) fun _ => Gone 0 J := leads_finish (d := 0)
  refine .ite ?_ (.ite ?_ ?_)
  · refine .slot (by decide) fun V temps' hV => .ite ?_ ?_
    · refine .bind (leads_exitReg ?_) fun _ => hend J
      exact (hkept (.inl rfl)).imp_right fun hm => hV hm
    · exact .bind (leads_exitDirect _ _) fun _ => hend J
  · refine .bind (leads_freshLabel (by decide)) fun skip =>
      .part rfl rfl (hcond skip) fun e K hK hb => ?_
    refine .slot (by decide) fun V temps' hV => .bind (leads_exitDirect _ _) fun _ => ?_
    exact .meet hK hb (.bind (leads_exitDirect _ _) fun _ => hend J)
  · refine .bind (leads_freshLabel (by decide)) fun notTaken =>
      .slot (by decide) fun V temps' hV => ?_
    refine .part rfl rfl (fun l hl => ?_) fun e K hK hb => ?_
    · exact (hcond notTaken l hl).imp_right fun hm => hV hm
    · refine .bind (leads_exitDirect _ _) fun _ => ?_
      exact .meet hK hb (.bind (leads_exitDirect _ _) fun _ => hend J)

theorem leads_branchServed :
    Leads (Idle 0 J []) (branchServed cfg s i) fun _ => Gone 0 J := by
  refine .idle (fun _ h => h) fun temps _ => .bind leads_startOp fun _ => ?_
  refine .bind (leads_request _ _ _ Set.Subset.rfl) fun _ => .bind leads_endOp fun _ => ?_
  exact leads_exitServed

theorem leads_branch (op : TraceOp) (rest : List TraceOp) :
    Leads (Idle 0 J []) (branch cfg s op rest) fun _ => Gone 0 J := by
  cases rest with
  | nil => exact .ite leads_branchServed (.fail _)
  | cons slot rest =>
    exact .ite leads_branchServed (.ite (leads_branchAndSlot slot) (.fail _))

theorem leads_body (base : UInt32) (index : Nat) (ops : List TraceOp) :
    Leads (Idle 0 J []) (body cfg base index ops) fun _ => Gone 0 J := by
  induction ops generalizing index with
  | nil => exact .idle (fun _ h => h) fun temps _ => leads_exitDirect _ _
  | cons op rest ih =>
    have hinstr (s : Site) (i : Recompiler.Instr) :
        Leads (Idle 0 J []) (instr cfg s i) fun _ => Idle 0 J [] := leads_instr fun _ => rfl
    refine .ite (.bind (.fail (Q := fun _ _ => False) _) fun _ _ _ _ _ h => ?_) ?_
    · exact h.elim
    · cases op.boundary with
      | endDelay => exact leads_branch op rest
      | endNow =>
        exact .bind (hinstr _ _) fun _ => .idle (fun _ h => h) fun _ _ => leads_exitDirect _ _
      | «continue» => exact .bind (hinstr _ _) fun _ => ih (index + 1)

end Emit

end Recompiler
