import Recompiler.Proofs.Holdings

/-!
The code of instructions. Each reads registers on which machines agree, and leaves none to be
written.
-/

namespace Recompiler

open Ir Emit

namespace Emit

variable {cfg : Config} {s : Site} {i : Recompiler.Instr} {d : Int}
  {J : List (String × Set Loc)} {V : Set Loc} {temps : List HostReg} {g : GuestReg}
  {high low : HostReg}

attribute [local simp] Reads Ir.Instr.isPlain Ir.Instr.IsBlind Ir.Instr.sources

/-- Machines agree on the temporaries that are kept, which are at least those of `temps`. -/
def Idle (d : Int) (J : List (String × Set Loc)) (temps : List HostReg) (e : Emitter) : Prop :=
  ∃ temps', temps ⊆ temps' ∧ Agreed d J (locs temps') temps' [] e

theorem Holds.idle {e : Emitter} (h : Agreed d J V temps [] e) (hV : locs temps ⊆ V) :
    Idle d J temps e :=
  ⟨temps, List.Subset.refl _, h.mono hV⟩

theorem Idle.mono {temps' : List HostReg} {e : Emitter} (h : Idle d J temps' e)
    (ht : temps ⊆ temps') : Idle d J temps e := by
  obtain ⟨temps'', ht', he⟩ := h
  exact ⟨temps'', List.Subset.trans ht ht', he⟩

theorem leads_writeBoth (hh : .reg high ∈ V) (hl : .reg low ∈ V) :
    Leads (Agreed d J V temps []) (writeBoth g high low) fun _ => Agreed d J V temps [] :=
  .bind leads_outHigh fun _ => .bind (leads_settle rfl (by simp [*])) fun _ =>
    .bind leads_outLow fun _ =>
    .keep (leads_settle rfl (by simp [*])) (fun _ hl => by simp [hl])

theorem leads_move (dst src : GuestReg) :
    Leads (Agreed d J V temps []) (move s dst src) fun _ => Agreed d J V temps [] := by
  refine .ite ?_ ?_
  · exact .bind leads_inLow fun x => .bind leads_outSigned fun y =>
      .keep (leads_settle rfl (by simp [*])) (fun _ hl => by simp [hl])
  · exact .bind leads_inHigh fun x => .bind leads_inLow fun y =>
      .keep (leads_writeBoth (by simp) (by simp)) (fun _ hl => by simp [hl])

theorem leads_shiftWord (op : ShiftOp) :
    Leads (Agreed d J V temps []) (shiftWord op i) fun _ => Agreed d J V temps [] :=
  .bind leads_inLow fun _ => .bind leads_outSigned fun _ =>
    .keep (leads_settle rfl (by simp [*])) (fun _ hl => by simp [hl])

theorem leads_shiftWordVar (op : ShiftOp) :
    Leads (Agreed d J V temps []) (shiftWordVar op i) fun _ => Agreed d J V temps [] :=
  .bind leads_inLow fun _ => .bind leads_inLow fun _ => .bind leads_outSigned fun _ =>
    .keep (leads_settle rfl (by simp [*])) (fun _ hl => by simp [hl])

theorem leads_shiftDouble32 (op : ShiftOp) :
    Leads (Agreed d J V temps []) (shiftDouble32 op i) fun _ => Agreed d J V temps [] := by
  cases op with
  | left =>
    exact .bind leads_inLow fun _ => .bind leads_outHigh fun _ =>
      .bind (leads_settle rfl (by simp [*])) fun _ =>
      .bind leads_outLow fun _ => .keep (leads_settle rfl (by simp [*])) (fun _ hl => by simp [hl])
  | right =>
    exact .bind leads_inHigh fun _ => .bind leads_outUnsigned fun _ =>
      .keep (leads_settle rfl (by simp [*])) (fun _ hl => by simp [hl])
  | arith =>
    exact .bind leads_inHigh fun _ => .bind leads_outSigned fun _ =>
      .keep (leads_settle rfl (by simp [*])) (fun _ hl => by simp [hl])

theorem leads_shiftDouble (op : ShiftOp) :
    Leads (Agreed d J V temps []) (shiftDouble s op i) fun _ => Agreed d J V temps [] := by
  refine .ite (leads_move _ _) ?_
  refine .bind leads_inHigh fun high => .bind leads_inLow fun low => .bind leads_temp fun h =>
    .bind leads_temp fun l => .bind leads_temp fun carry => ?_
  have hright (op : ConstOp) : Leads
      (Agreed d J (insert (.reg low) (insert (.reg high) V)) temps []) (do
        const .srl low i.sa l
        const .sll high (32 - i.sa) carry
        bin .or l carry l
        const op high i.sa h
        writeBoth (rd i) h l) fun _ => Agreed d J V temps [] :=
    .bind (leads_write rfl (by simp [*])) fun _ => .bind (leads_write rfl (by simp [*])) fun _ =>
      .bind (leads_write rfl (by simp [*])) fun _ =>
      .bind (leads_write rfl (by simp [*])) fun _ =>
        .keep (leads_writeBoth (by simp) (by simp)) (fun _ hl => by simp [hl])
  cases op with
  | left =>
    exact .bind (leads_write rfl (by simp [*])) fun _ =>
      .bind (leads_write rfl (by simp [*])) fun _ => .bind (leads_write rfl (by simp [*])) fun _ =>
      .bind (leads_write rfl (by simp [*])) fun _ =>
        .keep (leads_writeBoth (by simp) (by simp)) (fun _ hl => by simp [hl])
  | right => exact hright _
  | arith => exact hright _

theorem leads_multiply (signed : Bool) :
    Leads (Agreed d J V temps []) (multiply signed i) fun _ => Agreed d J V temps [] :=
  .bind leads_inLow fun x => .bind leads_inLow fun y => .bind leads_outSigned fun lo =>
    .bind (leads_outExt .sign (by simp)) fun hi =>
      .keep (leads_mul (by simp) (by simp)) (fun _ hl => by simp [hl])

theorem Leads.overflow {sub : Bool} {x y : HostReg} {S : Set Loc} {stub : Stub} {β : Type}
    {f : EmitM β} {R : β → Emitter → Prop} (ha : stub.addr = .rz) (hx : .reg x ∈ S)
    (hy : .reg y ∈ S) (hf : Leads (Agreed d (forks stub (insert (.reg stub.addr) S) ++ J)
      (insert (.reg .rz) S) temps []) f R) :
    Leads (Agreed d (forks stub (insert (.reg stub.addr) S) ++ J) S temps []) (do
      emit (.branchOverflow sub x y (Stub.entryLabel stub.id))
      f) R := by
  refine .pre (.bind (leads_away ?_ rfl rfl (by simp [*])) fun _ => hf) fun e h => h.zero
  rw [ha]

theorem leads_addTrapping (sub : Bool) (hV : locs temps ⊆ V) :
    Leads (Agreed d J V temps []) (addTrapping s sub i)
      fun _ => Agreed d J (locs temps) temps [] := by
  refine .bind leads_inLow fun x => .bind leads_inLow fun y => ?_
  refine .branchOff (fun l hl => by simp [hV hl]) fun stub S ha hS hs => ?_
  have hx : Loc.reg x ∈ S := hS (by simp)
  have hy : Loc.reg y ∈ S := hS (by simp)
  refine .overflow ha hx hy (.bind leads_outSigned fun z =>
    .bind (leads_settle rfl (by simp [*])) fun _ => ?_)
  exact leads_join hs fun l hl => by simp [hs.known hl]

theorem leads_addWord (op : BinOp) :
    Leads (Agreed d J V temps []) (addWord op i) fun _ => Agreed d J V temps [] :=
  .bind leads_inLow fun _ => .bind leads_inLow fun _ => .bind leads_outSigned fun _ =>
    .keep (leads_settle rfl (by simp [*])) (fun _ hl => by simp [hl])

theorem leads_logic (op : BinOp) :
    Leads (Agreed d J V temps []) (logic s op i) fun _ => Agreed d J V temps [] := by
  refine .ite ?_ ?_
  · exact .bind leads_inLow fun _ => .bind leads_inLow fun _ => .bind leads_outSigned fun _ =>
      .keep (leads_settle rfl (by simp [*])) (fun _ hl => by simp [hl])
  · refine .bind leads_inHigh fun _ => .bind leads_inHigh fun _ => .bind leads_inLow fun _ =>
      .bind leads_inLow fun _ => ?_
    exact .bind leads_outHigh fun _ => .bind (leads_settle rfl (by simp [*])) fun _ =>
      .bind leads_outLow fun _ =>
      .keep (leads_settle rfl (by simp [*])) (fun _ hl => by simp [hl])

theorem leads_compareBoth (signed : Bool) {xh xl yh yl t : HostReg}
    (hxh : .reg xh ∈ V) (hxl : .reg xl ∈ V) (hyh : .reg yh ∈ V) (hyl : .reg yl ∈ V) :
    Leads (Agreed d J V temps []) (compareBoth signed xh xl yh yl t)
      fun _ => Agreed d J (insert (.reg t) V) temps [] :=
  .bind (leads_freshLabel (by decide)) fun _ => .bind (leads_write rfl (by simp [*])) fun _ =>
    .bind (leads_skip rfl rfl (by simp [*])) fun _ =>
    .bind (leads_skipped (by simp [*])) fun _ => leads_land

theorem leads_setLess (signed : Bool) :
    Leads (Agreed d J V temps []) (setLess s signed i) fun _ => Agreed d J V temps [] := by
  refine .ite ?_ ?_
  · exact .bind leads_inLow fun _ => .bind leads_inLow fun _ => .bind leads_outUnsigned fun _ =>
      .keep (leads_settle rfl (by simp [*])) (fun _ hl => by simp [hl])
  · refine .bind leads_inHigh fun _ => .bind leads_inLow fun _ => .bind leads_inHigh fun _ =>
      .bind leads_inLow fun _ => .bind leads_temp fun _ => ?_
    exact .bind (leads_compareBoth signed (by simp) (by simp) (by simp) (by simp)) fun _ =>
      .bind leads_outUnsigned fun _ =>
      .keep (leads_settle rfl (by simp [*])) (fun _ hl => by simp [hl])

theorem leads_addDouble (sub : Bool) :
    Leads (Agreed d J V temps []) (addDouble sub i) fun _ => Agreed d J V temps [] := by
  refine .bind leads_inHigh fun xh => .bind leads_inLow fun xl => .bind leads_inHigh fun yh =>
    .bind leads_inLow fun yl => .bind leads_temp fun h => .bind leads_temp fun l =>
      .bind leads_temp fun carry => .ite ?_ ?_
  · exact .bind (leads_write rfl (by simp [*])) fun _ =>
      .bind (leads_write rfl (by simp [*])) fun _ => .bind (leads_write rfl (by simp [*])) fun _ =>
      .bind (leads_write rfl (by simp [*])) fun _ =>
        .keep (leads_writeBoth (by simp) (by simp)) (fun _ hl => by simp [hl])
  · exact .bind (leads_write rfl (by simp [*])) fun _ =>
      .bind (leads_write rfl (by simp [*])) fun _ => .bind (leads_write rfl (by simp [*])) fun _ =>
      .bind (leads_write rfl (by simp [*])) fun _ =>
        .keep (leads_writeBoth (by simp) (by simp)) (fun _ hl => by simp [hl])

theorem leads_addImmTrapping (hV : locs temps ⊆ V) :
    Leads (Agreed d J V temps []) (addImmTrapping s i) fun _ => Idle d J temps := by
  refine .bind leads_inLow fun x => .constant fun y temps' ht hy => ?_
  have hV' : locs temps' ⊆ insert (.reg y) (insert (.reg x) V) :=
    hy.trans (Set.insert_subset_insert (hV.trans (Set.subset_insert _ V)))
  refine .branchOff hV' fun stub S ha hS hs => ?_
  have hx : Loc.reg x ∈ S := hS (by simp)
  have hy : Loc.reg y ∈ S := hS (by simp)
  refine .overflow ha hx hy (.bind leads_outSigned fun z =>
    .bind (leads_settle rfl (by simp [*])) fun _ => ?_)
  exact (leads_join hs fun l hl => by simp [hs.known hl]).post fun _ e h => ⟨temps', ht, h⟩

theorem leads_addImm : Leads (Agreed d J V temps []) (addImm i) fun _ => Agreed d J V temps [] :=
  .bind leads_inLow fun _ => .bind leads_outSigned fun _ =>
    .keep (leads_settle rfl (by simp [*])) (fun _ hl => by simp [hl])

theorem leads_addImmDouble :
    Leads (Agreed d J V temps []) (addImmDouble i) fun _ => Agreed d J V temps [] :=
  .bind leads_inHigh fun _ => .bind leads_inLow fun _ => .bind leads_temp fun _ =>
    .bind leads_temp fun _ => .bind leads_temp fun _ =>
      .bind (leads_write rfl (by simp [*])) fun _ =>
      .bind (leads_write rfl (by simp [*])) fun _ => .bind (leads_write rfl (by simp [*])) fun _ =>
        .bind (leads_write rfl (by simp [*])) fun _ =>
        .keep (leads_writeBoth (by simp) (by simp)) (fun _ hl => by simp [hl])

theorem leads_setLessImm (signed : Bool) :
    Leads (Agreed d J V temps []) (setLessImm s signed i) fun _ => Agreed d J V temps [] := by
  refine .ite ?_ ?_
  · exact .bind leads_inLow fun _ => .bind leads_outUnsigned fun _ =>
      .keep (leads_settle rfl (by simp [*])) (fun _ hl => by simp [hl])
  · refine .bind leads_inHigh fun _ => .bind leads_inLow fun _ => .bind leads_temp fun _ => ?_
    refine .bind (leads_freshLabel (by decide)) fun _ =>
      .bind (leads_write rfl (by simp [*])) fun _ =>
      .bind (leads_skip rfl rfl (by simp [*])) fun _ =>
      .bind (leads_skipped (by simp [*])) fun _ => .bind leads_land fun _ => ?_
    exact .bind leads_outUnsigned fun _ =>
      .keep (leads_settle rfl (by simp [*])) (fun _ hl => by simp [hl])

theorem leads_andImm : Leads (Agreed d J V temps []) (andImm i) fun _ => Agreed d J V temps [] :=
  .bind leads_inLow fun _ => .bind leads_outUnsigned fun _ =>
    .keep (leads_settle rfl (by simp [*])) (fun _ hl => by simp [hl])

theorem leads_orImm (op : ConstOp) :
    Leads (Agreed d J V temps []) (orImm s op i) fun _ => Agreed d J V temps [] := by
  refine .ite ?_ ?_
  · exact .bind leads_inLow fun _ => .bind leads_outSigned fun _ =>
      .keep (leads_settle rfl (by simp [*])) (fun _ hl => by simp [hl])
  · exact .bind leads_inHigh fun _ => .bind leads_inLow fun _ => .bind leads_outHigh fun _ =>
      .bind (leads_settle rfl (by simp [*])) fun _ => .bind leads_outLow fun _ =>
        .keep (leads_settle rfl (by simp [*])) (fun _ hl => by simp [hl])

theorem leads_loadUpper :
    Leads (Agreed d J V temps []) (loadUpper i) fun _ => Agreed d J V temps [] :=
  .bind leads_outSigned fun _ => .bind (leads_write rfl (by simp [*])) fun _ =>
    .keep (leads_setConst (by simp)) (fun _ hl => by simp [hl])

theorem leads_access (size : Size) :
    Leads (Agreed d J V temps []) (access size i)
      fun a => Agreed d J (insert (.reg a.base) V) temps [] :=
  .bind leads_inLow fun _ => .bind leads_temp fun _ => .bind leads_temp fun _ =>
    .bind leads_temp fun _ => .pure _ fun _ h => h

section

variable {stub : Stub} {S : Set Loc} {a : Access}

/-- After the guards machines agree on the place in RAM. -/
theorem leads_guard (ha : stub.addr = a.addr) (hb : .reg a.base ∈ S) (isStore : Bool) :
    Leads (Agreed d (forks stub (insert (.reg stub.addr) S) ++ J) S temps [])
      (guard cfg i a (Stub.entryLabel stub.id) isStore)
      fun _ => Agreed d (forks stub (insert (.reg stub.addr) S) ++ J)
        (insert (.reg a.offset) S) temps [] := by
  rw [ha]
  have hlast {V : Set Loc} (hS : insert (.reg a.addr) S ⊆ V) (ho : .reg a.offset ∈ V) :
      Leads (Agreed d (forks stub (insert (.reg a.addr) S) ++ J) V temps [])
        (do
          emit (.branchConst .geu a.offset (cfg.ramSize - a.size + 1) (Stub.entryLabel stub.id))
          if isStore then
            const .srl a.offset 12 a.scratch
            emit (.ltab Layout.codePages a.scratch a.scratch)
            emit (.branchConst .ne a.scratch 0 (Stub.entryLabel stub.id)))
        fun _ => Agreed d (forks stub (insert (.reg a.addr) S) ++ J)
          (insert (.reg a.offset) S) temps [] := by
    have hend : insert (.reg a.offset) S ⊆ V :=
      Set.insert_subset ho ((Set.subset_insert _ S).trans hS)
    have hmore (l : Loc) : insert (.reg a.addr) S ⊆ insert l V := hS.trans (Set.subset_insert l V)
    refine .bind (leads_away hS rfl rfl (by simp [ho])) fun _ =>
      .ite ?_ (.keep (.pure _ fun _ h => h) hend)
    refine .bind (leads_write rfl (by simp [*])) fun _ =>
      .bind (leads_write rfl (by simp [*])) fun _ => .keep (leads_away ?_ rfl rfl (by simp)) ?_
    · exact (hmore _).trans (Set.subset_insert _ _)
    · exact (hend.trans (Set.subset_insert _ V)).trans (Set.subset_insert _ _)
  refine .bind (leads_write rfl (by simp [*])) fun _ => .ite (leads_jumpAway Set.Subset.rfl _) ?_
  refine .bind (leads_write rfl (by simp [*])) fun _ =>
    .bind (leads_away (Set.subset_insert _ _) rfl rfl (by simp)) fun _ => ?_
  refine .bind (leads_write rfl (by simp [*])) fun _ => ?_
  have hoffset : insert (.reg a.addr) S ⊆
      insert (.reg a.offset) (insert (.reg a.offset) (insert (.reg a.addr) S)) :=
    (Set.subset_insert _ _).trans (Set.subset_insert _ _)
  have hscratch := hoffset.trans (Set.subset_insert (.reg a.scratch) _)
  dsimp only
  split
  · exact .bind (leads_write rfl (by simp [*])) fun _ =>
      .bind (leads_away hscratch rfl rfl (by simp)) fun _ =>
      hlast hscratch (by simp)
  · exact hlast hoffset (by simp)

theorem leads_swizzle (size : Size) (ho : .reg a.offset ∈ V) :
    Leads (Agreed d J V temps []) (swizzle size a) fun _ => Agreed d J V temps [] := by
  cases size with
  | byte | half => exact .keep (leads_write rfl (by simp [*])) (fun _ hl => by simp [hl])
  | word | double => exact .pure _ fun _ h => h

end

theorem leads_load (op : LoadOp) (hV : locs temps ⊆ V) :
    Leads (Agreed d J V temps []) (load cfg s op i) fun _ => Agreed d J (locs temps) temps [] := by
  refine .bind (leads_access _) fun a => ?_
  refine .branchOff (hV.trans (Set.subset_insert _ V)) fun stub S ha hS hs => ?_
  refine .bind (leads_guard ha (hS (Set.mem_insert _ V)) false) fun _ => ?_
  refine .bind (leads_swizzle _ (Set.mem_insert _ S)) fun _ => ?_
  have hknown (l : Loc) : locs temps ⊆ insert l (insert (.reg a.offset) S) :=
    hs.known.trans ((Set.subset_insert _ S).trans (Set.subset_insert _ _))
  have hsigned (op : RamLoad) : Leads (Agreed d (forks stub (insert (.reg stub.addr) S) ++ J)
      (insert (.reg a.offset) S) temps []) (do
        loadWord op a 0 (← outSigned (rt i))
        join stub) fun _ => Agreed d J (locs temps) temps [] :=
    .bind leads_outSigned fun _ => .bind (leads_settle rfl (by simp [*])) fun _ =>
      leads_join hs (hknown _)
  have hunsigned (op : RamLoad) : Leads (Agreed d (forks stub (insert (.reg stub.addr) S) ++ J)
      (insert (.reg a.offset) S) temps []) (do
        loadWord op a 0 (← outUnsigned (rt i))
        join stub) fun _ => Agreed d J (locs temps) temps [] :=
    .bind leads_outUnsigned fun _ => .bind (leads_settle rfl (by simp [*])) fun _ =>
      leads_join hs (hknown _)
  cases op with
  | ld =>
    refine .bind leads_outHigh fun high => .bind (leads_outLow_owing (by simp)) fun low => ?_
    refine .swap (.bind (leads_settle rfl (by simp [*])) fun _ =>
      .bind (leads_settle rfl (by simp [*])) fun _ => leads_join hs ?_)
    exact (hknown _).trans (Set.subset_insert _ _)
  | lb | lh | lw => exact hsigned _
  | lbu | lhu | lwu => exact hunsigned _

theorem leads_storeRam (size : Size) (hV : locs temps ⊆ V) :
    Leads (Agreed d J V temps []) (store cfg s size i)
      fun _ => Agreed d J (locs temps) temps [] := by
  have hzero : Leads (Agreed d J V temps []) (pure .rz : EmitM HostReg)
      fun x => Agreed d J (insert (.reg x) V) temps [] := .pure _ fun _ h => h.zero
  refine .ite (.bind leads_inHigh ?_) (.bind hzero ?_)
  all_goals
    refine fun high => .bind leads_inLow fun low => .bind (leads_access _) fun a => ?_
    refine .branchOff (fun l hl => by simp [hV hl]) fun stub S ha hS hs => ?_
    refine .bind (leads_guard ha (hS (Set.mem_insert _ _)) true) fun _ => ?_
    refine .bind (leads_swizzle _ (Set.mem_insert _ S)) fun _ => ?_
    have hjoin := leads_join (d := d) (J := J) hs
      (hs.known.trans (Set.subset_insert (.reg a.offset) S))
    have hlow : Loc.reg low ∈ S := hS (by simp)
    have hhigh : Loc.reg high ∈ S := hS (by simp)
    cases size with
    | byte | half | word => exact .bind (leads_store (by simp [*])) fun _ => hjoin
    | double =>
      exact .bind (leads_store (by simp [*])) fun _ =>
        .bind (leads_store (by simp [*])) fun _ => hjoin

theorem fpWords_ge {width : Width} {r : Reg} {w : Int × Int} (h : w ∈ fpWords cfg width r) :
    64 ≤ w.2 := by
  have hsingle := Layout.single_ge cfg.wideFp r
  have hdouble := Layout.double_ge cfg.wideFp r
  cases width with
  | word =>
    rw [List.mem_singleton.mp h]
    exact hsingle
  | double =>
    simp only [fpWords, List.mem_cons, List.not_mem_nil, or_false] at h
    rcases h with rfl | rfl
    · exact hdouble.trans (Int.le_add_of_nonneg_right (by decide))
    · exact hdouble

theorem leads_clobber (words : List (Int × Int)) :
    Leads (Agreed d J V temps []) (clobber words) fun _ => Agreed d J V temps [] := by
  have hdepth (c : HostCache) : (words.foldl (fun c w => c.clobberFp w.2 4) c).depth = c.depth :=
    (Appends.foldl (fun (c : HostCache) (w : Int × Int) => Appends.clobberFp c w.2 4) words c).depth
  refine leads_modifyCache (fun {c} h => (hdepth c).trans h) fun {G c} hb => ?_
  exact List.foldlRecOn words _ hb fun c hc w _ => hc.clobberFp w.2 4

theorem leads_loadFp (width : Width) (hV : locs temps ⊆ V) :
    Leads (Agreed d J V temps []) (loadFp cfg s width i)
      fun _ => Agreed d J (locs temps) temps [] := by
  refine .bind (leads_clobber _) fun _ => .bind (leads_access _) fun a =>
    .bind leads_temp fun v => ?_
  refine .branchOff (hV.trans (Set.subset_insert _ V)) fun stub S ha hS hs => ?_
  refine .bind (leads_guard ha (hS (Set.mem_insert _ V)) false) fun _ => ?_
  refine .bind (.loop (I := fun _ => Agreed d (forks stub (insert (.reg stub.addr) S) ++ J)
    (insert (.reg a.offset) S) temps []) ?_) fun _ => ?_
  · rintro - ⟨off, word⟩ hw
    exact .bind (leads_write rfl (by simp [*])) fun _ =>
      .bind (.keep (leads_store (by simp [*]))
        (fun _ hl => by simp [hl])) fun _ => .pure _ fun _ h => ⟨rfl, h⟩
  · exact leads_join hs (hs.known.trans (Set.subset_insert _ S))

theorem leads_storeFp (width : Width) (hV : locs temps ⊆ V) :
    Leads (Agreed d J V temps []) (storeFp cfg s width i)
      fun _ => Agreed d J (locs temps) temps [] := by
  refine .bind (leads_clobber _) fun _ => .bind (leads_access _) fun a =>
    .bind leads_temp fun v => ?_
  refine .branchOff (hV.trans (Set.subset_insert _ V)) fun stub S ha hS hs => ?_
  refine .bind (leads_guard ha (hS (Set.mem_insert _ V)) true) fun _ => ?_
  refine .bind (.loop (I := fun _ => Agreed d (forks stub (insert (.reg stub.addr) S) ++ J)
    (insert (.reg a.offset) S) temps []) ?_) fun _ => ?_
  · rintro - ⟨off, word⟩ hw
    have hblind : (Ir.Instr.ldc word v : Ir.Instr String).IsBlind := fpWords_ge hw
    exact .bind (leads_write rfl ⟨rfl, hblind, by simp⟩) fun _ =>
      .bind (.keep (leads_store (by simp [*]))
        (fun _ hl => by simp [hl])) fun _ => .pure _ fun _ h => ⟨rfl, h⟩
  · exact leads_join hs (hs.known.trans (Set.subset_insert _ S))

theorem leads_fpBinary (size : FpSize) (op : FpBinOp) :
    Leads (Agreed d J V temps []) (fpBinary cfg size op i) fun _ => Agreed d J V temps [] :=
  .bind (leads_inFp cfg size _) fun _ => .bind (leads_inFp cfg size _) fun _ =>
    .bind (leads_outFp cfg size _) fun _ =>
      .keep (leads_settle rfl (by simp [*])) (fun _ hl => by simp [hl])

theorem leads_fpUnary (size : FpSize) (op : FpUnOp) :
    Leads (Agreed d J V temps []) (fpUnary cfg size op i) fun _ => Agreed d J V temps [] :=
  .bind (leads_inFp cfg size _) fun _ => .bind (leads_outFp cfg size _) fun _ =>
    .keep (leads_settle rfl (by simp [*])) (fun _ hl => by simp [hl])

theorem leads_fpCompare (size : FpSize) :
    Leads (Agreed d J V temps []) (fpCompare cfg size i) fun _ => Agreed d J V temps [] := by
  refine .bind (leads_inFp cfg size _) fun x => .bind (leads_inFp cfg size _) fun y =>
    .bind leads_temp fun t => .bind (leads_write rfl (by simp [*])) fun _ => ?_
  refine leads_inOutWord (by decide) fun control => ?_
  exact .bind (leads_write rfl (by simp [*])) fun _ =>
    .bind (leads_write rfl (by simp [*])) fun _ =>
      .keep (leads_write rfl (by simp [*])) (fun _ hl => by simp [hl])

theorem leads_storeContext {x : HostReg} (off : Int) (hx : .reg x ∈ V) :
    Leads (Agreed d J V temps []) (storeContext x off) fun _ => Agreed d J V temps [] :=
  .ite (leads_store (by simp [*])) (leads_store (by simp [*]))

theorem leads_moveFromFp (width : Width) :
    Leads (Agreed d J V temps []) (moveFromFp cfg width i) fun _ => Agreed d J V temps [] := by
  have hdouble := Layout.double_ge cfg.wideFp i.fs
  cases width with
  | word =>
    exact .bind (leads_clobberFp _ _) fun _ => .bind leads_outSigned fun _ =>
      .keep (leads_settle rfl ⟨rfl, Layout.single_ge cfg.wideFp i.fs, by simp⟩)
        (fun _ hl => by simp [hl])
  | double =>
    have hhigh : 64 ≤ Layout.doubleHigh cfg.wideFp i.fs :=
      hdouble.trans (Int.le_add_of_nonneg_right (by decide))
    refine .bind (leads_clobberFp _ _) fun _ => .bind leads_outHigh fun _ =>
      .bind (leads_outLow_owing (by simp)) fun _ => ?_
    refine .swap (.bind (leads_settle rfl ⟨rfl, hhigh, by simp⟩) fun _ => ?_)
    exact .keep (leads_settle rfl ⟨rfl, hdouble, by simp⟩) (fun _ hl => by simp [hl])

theorem leads_moveToFp (width : Width) :
    Leads (Agreed d J V temps []) (moveToFp cfg width i) fun _ => Agreed d J V temps [] := by
  cases width with
  | word =>
    exact .bind (leads_clobberFp _ _) fun _ => .bind leads_inLow fun _ =>
      .keep (leads_storeContext _ (Set.mem_insert _ V)) (fun _ hl => by simp [hl])
  | double =>
    refine .bind (leads_clobberFp _ _) fun _ => .bind leads_inHigh fun _ =>
      .bind (leads_storeContext _ (Set.mem_insert _ V)) fun _ => .bind leads_inLow fun _ => ?_
    exact .keep (leads_storeContext _ (Set.mem_insert _ _)) (fun _ hl => by simp [hl])

theorem leads_moveFromControl :
    Leads (Agreed d J V temps []) (moveFromControl i) fun _ => Agreed d J V temps [] :=
  .bind (leads_inWord (by decide)) fun _ => .bind leads_outSigned fun _ =>
    .keep (leads_settle rfl (by simp [*])) (fun _ hl => by simp [hl])

theorem Leads.rest {α : Type} {P : Emitter → Prop} {f : EmitM α}
    (hf : Leads P f fun _ => Agreed d J (locs temps) temps []) :
    Leads P f fun _ => Idle d J temps :=
  hf.post fun _ _ he => he.idle Set.Subset.rfl

theorem leads_inlineShift {op : ShiftOp} {amount : ShiftAmount} {width : Width} {f : EmitM Unit}
    (h : inlineShift? s op amount width i = some f) :
    Leads (Agreed d J V temps []) f fun _ => Agreed d J V temps [] := by
  unfold inlineShift? at h
  split at h <;> cases h
  · exact leads_shiftWord op
  · exact leads_shiftWordVar op
  · exact leads_shiftDouble op
  · exact leads_shiftDouble32 op

theorem leads_inlineAlu {op : AluOp} {f : EmitM Unit} (h : inlineAlu? s op i = some f) :
    Leads (Agreed d J (locs temps) temps []) f fun _ => Agreed d J (locs temps) temps [] := by
  cases op with
  | add | sub =>
    cases h
    exact leads_addTrapping _ Set.Subset.rfl
  | addu | subu =>
    cases h
    exact leads_addWord _
  | and | or | xor | nor =>
    cases h
    exact leads_logic _
  | slt | sltu =>
    cases h
    exact leads_setLess _
  | daddu | dsubu =>
    cases h
    exact leads_addDouble _
  | dadd | dsub => cases h

theorem leads_inlineImm {op : ImmOp} {f : EmitM Unit} (h : inlineImm? s op i = some f) :
    Leads (Agreed d J (locs temps) temps []) f fun _ => Idle d J temps := by
  cases op with
  | addi =>
    cases h
    exact leads_addImmTrapping Set.Subset.rfl
  | addiu =>
    cases h
    exact .rest leads_addImm
  | slti | sltiu =>
    cases h
    exact .rest (leads_setLessImm _)
  | andi =>
    cases h
    exact .rest leads_andImm
  | ori | xori =>
    cases h
    exact .rest (leads_orImm _)
  | lui =>
    cases h
    exact .rest leads_loadUpper
  | daddiu =>
    cases h
    exact .rest leads_addImmDouble
  | daddi => cases h

theorem leads_inlineFp {size : FpSize} {op : FpOp} {f : EmitM Unit}
    (h : inlineFp? cfg size op i = some f) :
    Leads (Agreed d J V temps []) f fun _ => Agreed d J V temps [] := by
  cases op with
  | add | sub | mul | div =>
    cases h
    exact leads_fpBinary size _
  | sqrt | abs | mov | neg =>
    cases h
    exact leads_fpUnary size _
  | compare =>
    cases h
    exact leads_fpCompare size
  | round | convert | undefined => cases h

theorem leads_inline {f : EmitM Unit} (h : inline? cfg s i = some f) :
    Leads (Agreed d J (locs temps) temps []) f fun _ => Idle d J temps := by
  unfold inline? at h
  cases hk : i.kind with
  | shift op amount width =>
    simp only [hk] at h
    exact .rest (leads_inlineShift h)
  | alu op =>
    simp only [hk] at h
    exact .rest (leads_inlineAlu h)
  | imm op =>
    simp only [hk] at h
    exact leads_inlineImm h
  | fp format op =>
    simp only [hk] at h
    obtain ⟨size, -, h⟩ := Option.bind_eq_some_iff.mp h
    exact .rest (leads_inlineFp h)
  | mulDiv op =>
    cases op <;> simp only [hk] at h <;> cases h <;> exact .rest (leads_multiply _)
  | mfhi | mflo | mthi | mtlo =>
    simp only [hk] at h
    cases h
    exact .rest (leads_move _ _)
  | sync =>
    simp only [hk] at h
    cases h
    exact .rest (.pure _ fun _ he => he)
  | load op =>
    simp only [hk] at h
    cases h
    exact .rest (leads_load op Set.Subset.rfl)
  | store size =>
    simp only [hk] at h
    cases h
    exact .rest (leads_storeRam size Set.Subset.rfl)
  | loadFp width =>
    simp only [hk] at h
    cases h
    exact .rest (leads_loadFp width Set.Subset.rfl)
  | storeFp width =>
    simp only [hk] at h
    cases h
    exact .rest (leads_storeFp width Set.Subset.rfl)
  | mfc1 width =>
    simp only [hk] at h
    cases h
    exact .rest (leads_moveFromFp width)
  | mtc1 width =>
    simp only [hk] at h
    cases h
    exact .rest (leads_moveToFp width)
  | cfc1 =>
    simp only [hk] at h
    split at h <;> cases h
    exact .rest leads_moveFromControl
  | _ =>
    simp only [hk] at h
    cases h

theorem Leads.idle {α : Type} {P : Emitter → Prop} {f : EmitM α} {R : α → Emitter → Prop}
    (hP : ∀ e, P e → Idle d J temps e)
    (hf : ∀ temps', temps ⊆ temps' → Leads (Agreed d J (locs temps') temps' []) f R) :
    Leads P f R := by
  intro e a e' he h
  obtain ⟨temps', ht, h⟩ := hP e h
  exact hf temps' ht e a e' he h

theorem leads_instr (hd : d = 0 → temps = []) :
    Leads (Idle d J temps) (instr cfg s i) fun _ => Idle d J temps := by
  refine .ite ?_ (.pure _ fun _ h => h)
  have hcode (temps' : List HostReg) : Leads (Agreed (d + 1) J (locs temps') temps' [])
      ((inline? cfg s i).getD (request .exec s i)) fun _ => Idle (d + 1) J temps' := by
    cases h : inline? cfg s i with
    | some f => exact leads_inline h
    | none => exact .rest (leads_request .exec s i Set.Subset.rfl)
  refine .idle (fun _ h => h) fun temps' ht => ?_
  refine .bind leads_startOp fun _ => .bind (hcode temps') fun _ => ?_
  refine .idle (fun _ h => h) fun temps'' ht' => leads_endOp.post fun _ e h => ?_
  rw [Int.add_sub_cancel] at h
  refine ⟨_, ?_, h.mono ?_⟩
  · split
    · rw [hd (by omega)]
      exact List.Subset.refl _
    · exact List.Subset.trans ht ht'
  · split
    · rintro l ⟨x, hx, -⟩
      cases hx
    · exact Set.Subset.rfl

end Emit

end Recompiler
