import Recompiler.Proofs.Backing
import Recompiler.Proofs.Stillness

/-!
Emission of code whose machines agree on the registers in use. Each step is a rule: from what
machines agree on before it, to what they agree on after it. A slow path is in order if machines
agree on enough where it branches off, and then on all that it loads where it comes back.
-/

namespace Recompiler

open Ir Emit

namespace HostCache

variable {c c' : HostCache} {size : FpSize} {off : Int} {y : FpReg}

theorem depth_fpClaim {dirty : Bool} (h : fpClaim size off dirty c = .ok y c') :
    c'.depth = c.depth := by
  obtain ⟨r, -, -, rfl⟩ := fpClaim_ok h
  exact depth_fpWriteback c r

theorem depth_allocInFp (h : allocInFp off size c = .ok y c') : c'.depth = c.depth := by
  obtain ⟨c₁, hfrees, ⟨r, -, -, rfl⟩ | ⟨-, c₂, hc₂, rfl⟩⟩ := allocInFp_ok h
  · exact hfrees.depth
  · exact (depth_fpClaim hc₂).trans hfrees.depth

theorem depth_allocOutFp (h : allocOutFp off size c = .ok y c') : c'.depth = c.depth := by
  obtain ⟨c₁, hfrees, ⟨r, -, -, rfl⟩ | ⟨-, hclaim⟩⟩ := allocOutFp_ok h
  · exact hfrees.depth
  · exact (depth_fpClaim hclaim).trans hfrees.depth

end HostCache

namespace Layout

theorem double_ge (wide : Bool) (r : Reg) : 64 ≤ double wide r := by
  unfold double
  omega

theorem single_ge (wide : Bool) (r : Reg) : 64 ≤ single wide r := by
  have := double_ge wide r
  unfold single doubleHigh doubleLow
  split <;> omega

end Layout

namespace Emit

def Leads {α : Type} (P : Emitter → Prop) (f : EmitM α) (Q : α → Emitter → Prop) : Prop :=
  ∀ e a e', f e = .ok a e' → P e → Q a e'

namespace Leads

variable {α β γ : Type} {P P' : Emitter → Prop} {Q Q' : α → Emitter → Prop}
  {R : β → Emitter → Prop} {f : EmitM α} {g : α → EmitM β}

theorem bind (hf : Leads P f Q) (hg : ∀ a, Leads (Q a) (g a) R) : Leads P (f >>= g) R := by
  intro e b e'' h hp
  obtain ⟨a, e', hfa, hga⟩ := bind_ok h
  exact hg a e' b e'' hga (hf e a e' hfa hp)

theorem pure (a : α) (h : ∀ e, P e → Q a e) : Leads P (pure a : EmitM α) Q := by
  intro e a' e' he hp
  cases he
  exact h e hp

theorem pre (h : Leads P f Q) (hp : ∀ e, P' e → P e) : Leads P' f Q :=
  fun e a e' he hp' => h e a e' he (hp e hp')

theorem post (h : Leads P f Q) (hq : ∀ a e, Q a e → Q' a e) : Leads P f Q' :=
  fun e a e' he hp => hq a e' (h e a e' he hp)

theorem ite {p : Prop} [Decidable p] {f f' : EmitM α} (hf : Leads P f Q) (hf' : Leads P f' Q) :
    Leads P (if p then f else f') Q := by
  split
  · exact hf
  · exact hf'

theorem assume {p : Prop} (h : p → Leads P f Q) : Leads (fun e => p ∧ P e) f Q :=
  fun e a e' he hp => h hp.1 e a e' he hp.2

theorem fail (err : EmitError) : Leads P (throw err : EmitM α) Q := by
  intro e a e' he
  cases he

theorem get : Leads P get fun e₀ e => e₀ = e ∧ P e := by
  intro e a e' he hp
  cases he
  exact ⟨rfl, hp⟩

theorem loop {I : List γ → Emitter → Prop} {f : γ → PUnit → EmitM (ForInStep PUnit)}
    {xs : List γ}
    (hf : ∀ ys x, x ∈ xs →
      Leads (I ys) (f x ⟨⟩) fun s e => s = .yield ⟨⟩ ∧ I (ys ++ [x]) e) :
    Leads (I []) (ForIn.forIn xs PUnit.unit f) fun _ => I xs := by
  have hloop (zs ys : List γ) (hz : ∀ x ∈ zs, x ∈ xs) :
      Leads (I ys) (ForIn.forIn zs PUnit.unit f) fun _ => I (ys ++ zs) := by
    induction zs generalizing ys with
    | nil =>
      rw [List.append_nil]
      exact pure _ fun _ h => h
    | cons x zs ih =>
      rw [List.forIn_cons]
      refine bind (hf ys x (hz x List.mem_cons_self)) fun s e a e' he hs => ?_
      obtain ⟨rfl, hI⟩ := hs
      rw [List.append_cons]
      exact ih (ys ++ [x]) (fun y hy => hz y (List.mem_cons_of_mem _ hy)) e a e' he hI
  exact hloop xs [] fun _ hx => hx

theorem forIn {I : List γ → Emitter → Prop} {f : γ → EmitM Unit} {xs : List γ}
    (hf : ∀ ys x, x ∈ xs → Leads (I ys) (f x) fun _ => I (ys ++ [x])) :
    Leads (I []) (ForIn.forIn xs PUnit.unit fun x (_ : PUnit) => do
      f x
      Pure.pure (ForInStep.yield PUnit.unit)) fun _ => I xs :=
  loop fun ys x hx => bind (hf ys x hx) fun _ => pure _ fun _ h => ⟨rfl, h⟩

end Leads

def locs (temps : List HostReg) : Set Loc := { l | ∃ x ∈ temps, l = .reg x }

/-- With `d` scopes open, machines agree at least on `V` and on the registers in use, but for those
that are owed. What is pledged depends on the labels and slow paths so far. -/
structure Holds (F : Nat → List Stub → Pledges) (d : Int) (V : Set Loc) (temps : List HostReg)
    (owed : List Due) (e : Emitter) : Prop where
  depth : e.cache.depth = d
  backed : Backed (F e.labels e.stubs.toList) V temps owed e.cache

/-- All slow paths are still to be emitted, and the labels of `J` to be put. -/
abbrev Agreed (d : Int) (J : List (String × Set Loc)) :
    Set Loc → List HostReg → List Due → Emitter → Prop :=
  Holds (fun n stubs => ⟨n, stubs, [], J⟩) d

variable {α β : Type} {F : Nat → List Stub → Pledges} {d : Int}
  {J : List (String × Set Loc)} {V V' : Set Loc} {temps temps' : List HostReg} {owed : List Due} {x y : HostReg} {k : Content} {g : GuestReg}
  {i : Ir.Instr String} {l : Loc} {name : String}

theorem Holds.mono {e : Emitter} (h : Holds F d V temps owed e) (hV : V' ⊆ V) :
    Holds F d V' temps owed e := ⟨h.depth, h.backed.mono hV⟩

theorem Holds.zero {e : Emitter} (h : Holds F d V temps owed e) :
    Holds F d (insert (.reg .rz) V) temps owed e := ⟨h.depth, h.backed.zero⟩

theorem Leads.keep {P : Emitter → Prop} {f : EmitM α}
    (h : Leads P f fun _ => Holds F d V' temps owed)
    (hV : V ⊆ V') :
    Leads P f fun _ => Holds F d V temps owed :=
  h.post fun _ _ he => he.mono hV

theorem leads_onCache {m : CacheM α} {V' : α → Set Loc} {temps' : α → List HostReg}
    {owed' : α → List Due}
    (hd : ∀ {c a c'}, m c = .ok a c' → c'.depth = c.depth)
    (hb : ∀ {G c a c'}, m c = .ok a c' → Backed G V temps owed c →
      Backed G (V' a) (temps' a) (owed' a) c') :
    Leads (Holds F d V temps owed) (onCache m) fun a => Holds F d (V' a) (temps' a) (owed' a) := by
  intro e a e' he h
  obtain ⟨c, hc, rfl⟩ := onCache_ok he
  exact ⟨(hd hc).trans h.depth, hb hc h.backed⟩

theorem leads_modifyCache {f : HostCache → HostCache} {d' : Int} {owed' : List Due}
    (hd : ∀ {c}, c.depth = d → (f c).depth = d')
    (hb : ∀ {G c}, Backed G V temps owed c → Backed G V' temps' owed' (f c)) :
    Leads (Holds F d V temps owed) (modifyCache f) fun _ => Holds F d' V' temps' owed' := by
  intro e a e' he h
  cases he
  exact ⟨hd h.depth, hb h.backed⟩

theorem leads_inLow :
    Leads (Agreed d J V temps []) (inLow g) fun x => Agreed d J (insert (.reg x) V) temps [] :=
  leads_onCache (fun h => (Extends.allocInLow h).depth) fun h hb =>
    hb.allocInLow h fun _ => List.not_mem_nil

theorem leads_inHigh :
    Leads (Agreed d J V temps []) (inHigh g) fun x => Agreed d J (insert (.reg x) V) temps [] :=
  leads_onCache (fun h => (Extends.allocInHigh h).depth) fun h hb =>
    hb.allocInHigh h (fun _ => List.not_mem_nil) fun _ => List.not_mem_nil

theorem leads_outLow_owing (hd : ∀ x, .word x (.low g none) ∉ owed) :
    Leads (Agreed d J V temps owed) (outLow g)
      fun x => Agreed d J V temps (.word x (.low g none) :: owed) :=
  leads_onCache (fun h => (Extends.allocOutLow h).depth) fun h hb => hb.allocOutLow h hd

theorem leads_outLow :
    Leads (Agreed d J V temps []) (outLow g) fun x => Agreed d J V temps [.word x (.low g none)] :=
  leads_outLow_owing fun _ => List.not_mem_nil

theorem leads_outHigh :
    Leads (Agreed d J V temps owed) (outHigh g)
      fun x => Agreed d J V temps (.word x (.high g) :: owed) :=
  leads_onCache (fun h => (Extends.allocOutHigh h).depth) fun h hb => hb.allocOutHigh h

theorem leads_outExt (ext : Extension) (hd : ∀ x, .word x (.high g) ∉ owed) :
    Leads (Agreed d J V temps owed) (onCache (HostCache.allocOutExt g ext))
      fun x => Agreed d J V temps (.word x (.low g none) :: owed) :=
  leads_onCache (fun h => (Extends.allocOutExt h).depth) fun h hb => hb.allocOutExt h hd

theorem leads_outSigned :
    Leads (Agreed d J V temps []) (outSigned g)
      fun x => Agreed d J V temps [.word x (.low g none)] :=
  leads_outExt .sign fun _ => List.not_mem_nil

theorem leads_outUnsigned :
    Leads (Agreed d J V temps []) (outUnsigned g)
      fun x => Agreed d J V temps [.word x (.low g none)] :=
  leads_outExt .zero fun _ => List.not_mem_nil

theorem leads_temp : Leads (Agreed d J V temps owed) temp fun _ => Agreed d J V temps owed :=
  leads_onCache (fun h => (Extends.allocTemp h).depth) fun h hb => hb.allocTemp h (.inl rfl)

theorem leads_keptTemp :
    Leads (Agreed d J V temps owed) temp fun x => Agreed d J V (x :: temps) owed :=
  leads_onCache (fun h => (Extends.allocTemp h).depth) fun h hb => hb.allocTemp h (.inr rfl)

theorem Leads.constant {v : UInt32} {f : HostReg → EmitM β} {R : β → Emitter → Prop}
    (hf : ∀ x temps', temps ⊆ temps' → locs temps' ⊆ insert (.reg x) (locs temps) →
      Leads (Agreed d J (insert (.reg x) V) temps' owed) (f x) R) :
    Leads (Agreed d J V temps owed) (constant v >>= f) R := by
  intro e b e' he h
  obtain ⟨x, e₁, h₁, he⟩ := bind_ok he
  obtain ⟨c, hc, rfl⟩ := onCache_ok h₁
  obtain ⟨temps', ht, hb⟩ := h.backed.allocConst hc
  refine hf x temps' ?_ ?_ _ _ _ he ⟨(Extends.allocConst hc).depth.trans h.depth, hb⟩
  · rcases ht with rfl | rfl
    · exact List.Subset.refl _
    · exact List.subset_cons_self _ _
  · rintro _ ⟨y, hy, rfl⟩
    rcases ht with rfl | rfl
    · exact .inr ⟨y, hy, rfl⟩
    · exact (List.mem_cons.mp hy).imp (congrArg Loc.reg) fun hy => ⟨y, hy, rfl⟩

theorem leads_inWord {off : Int} (hp : 64 ≤ off) :
    Leads (Agreed d J V temps []) (inWord off)
      fun x => Agreed d J (insert (.reg x) V) temps [] :=
  leads_onCache (fun h => (Extends.allocIn32 h).depth) fun h hb =>
    hb.allocIn32 h hp fun _ => List.not_mem_nil

theorem leads_inOutWord {off : Int} {f : HostReg → EmitM β} {R : β → Emitter → Prop}
    (hp : 64 ≤ off) (hf : ∀ x, Leads (Agreed d J (insert (.reg x) V) temps []) (f x) R) :
    Leads (Agreed d J V temps []) (do
      let x ← inWord off
      let _ ← outWord off
      f x) R := by
  intro e b e' he h
  obtain ⟨x, e₁, h₁, he⟩ := bind_ok he
  obtain ⟨y, e₂, h₂, he⟩ := bind_ok he
  obtain ⟨c₁, hc₁, rfl⟩ := onCache_ok h₁
  obtain ⟨c₂, hc₂, rfl⟩ := onCache_ok h₂
  have hread := h.backed.allocIn32 hc₁ hp fun _ => List.not_mem_nil
  refine hf x _ _ _ he ⟨?_, hread.allocOut32_of_read hc₂ hp (fun _ => List.not_mem_nil)
    (Backed.read_allocIn32 hc₁)⟩
  exact ((Extends.allocOut32 hc₂).depth.trans (Extends.allocIn32 hc₁).depth).trans h.depth

theorem fpOffset_ge (cfg : Config) (size : FpSize) (r : Reg) : 64 ≤ fpOffset cfg size r := by
  cases size with
  | single => exact Layout.single_ge cfg.wideFp r
  | double => exact Layout.double_ge cfg.wideFp r

theorem leads_inFp (cfg : Config) (size : FpSize) (r : Reg) :
    Leads (Agreed d J V temps []) (inFp cfg size r)
      fun y => Agreed d J (insert (.fp y) V) temps [] :=
  leads_onCache HostCache.depth_allocInFp fun h hb => hb.allocInFp h (fpOffset_ge cfg size r)

theorem leads_outFp (cfg : Config) (size : FpSize) (r : Reg) :
    Leads (Agreed d J V temps []) (outFp cfg size r) fun y => Agreed d J V temps [.fp y] :=
  leads_onCache HostCache.depth_allocOutFp fun h hb => hb.allocOutFp h (fpOffset_ge cfg size r)

theorem leads_startOp : Leads (Agreed d J V temps owed) (modifyCache (·.startOp))
    fun _ => Agreed (d + 1) J V temps owed :=
  leads_modifyCache (fun h => congrArg (· + 1) h) fun hb => hb.startOp

theorem leads_endOp : Leads (Agreed d J V temps []) (onCache HostCache.endOp)
    fun _ => Agreed (d - 1) J V (if d = 1 then [] else temps) [] := by
  intro e a e' he h
  obtain ⟨c, hc, rfl⟩ := onCache_ok he
  obtain rfl := endOp_ok hc
  have hended := h.backed.ended
  rw [h.depth] at hended
  refine ⟨?_, hended⟩
  rw [← h.depth]
  unfold HostCache.ended
  dsimp only
  split <;> rfl

theorem leads_setConst {v : UInt32} (hx : .reg x ∈ V) :
    Leads (Agreed d J V temps (.word x k :: owed)) (modifyCache (·.setConst x v))
      fun _ => Agreed d J V temps owed :=
  leads_modifyCache (fun h => (Extends.setConst _ x v).depth.trans h) fun hb =>
    hb.setConst_owed hx v

theorem leads_clobberFp (off size : Int) :
    Leads (Agreed d J V temps []) (modifyCache (·.clobberFp off size))
      fun _ => Agreed d J V temps [] :=
  leads_modifyCache (fun h => (Appends.clobberFp _ off size).depth.trans h) fun hb =>
    hb.clobberFp off size

def Reads (V : Set Loc) (i : Ir.Instr String) : Prop :=
  i.isPlain = true ∧ i.IsBlind ∧ ∀ l ∈ i.sources, l = .reg .rz ∨ l ∈ V

attribute [local simp] Reads Ir.Instr.isPlain Ir.Instr.IsBlind Ir.Instr.sources

theorem leads_store (hi : Reads V i) :
    Leads (Holds F d V temps owed) (emit i) fun _ => Holds F d V temps owed := by
  obtain ⟨hp, hb, hs⟩ := hi
  exact leads_modifyCache (fun h => h) fun h => h.store hp hs hb

theorem leads_write (hr : i.results = [l]) (hi : Reads V i) :
    Leads (Holds F d V temps owed) (emit i) fun _ => Holds F d (insert l V) temps owed := by
  obtain ⟨hp, hb, hs⟩ := hi
  exact leads_modifyCache (fun h => h) fun h => h.write hp hr hs hb

theorem Leads.swap {u w : Due} {f : EmitM β} {R : β → Emitter → Prop}
    (hf : Leads (Holds F d V temps (u :: w :: owed)) f R) :
    Leads (Holds F d V temps (w :: u :: owed)) f R :=
  hf.pre fun _ h => ⟨h.depth, h.backed.perm (.swap u w owed)⟩

theorem leads_settle {u : Due} (hr : i.results = [u.loc]) (hi : Reads V i) :
    Leads (Holds F d V temps (u :: owed)) (emit i)
      fun _ => Holds F d (insert u.loc V) temps owed := by
  obtain ⟨hp, hb, hs⟩ := hi
  exact leads_modifyCache (fun h => h) fun h => (h.write hp hr hs hb).settle (Set.mem_insert _ _)

theorem leads_mul {lo hi : HostReg} {k' : Content} {signed : Bool} (hx : .reg x ∈ V)
    (hy : .reg y ∈ V) :
    Leads (Holds F d V temps [.word hi k, .word lo k']) (emit (.mul signed x y lo hi))
      fun _ => Holds F d V temps [] := by
  refine leads_modifyCache (fun h => h) fun {G c} h => ?_
  have hboth : Backed G (V ∪ {.reg lo, .reg hi}) temps [.word hi k, .word lo k']
      (c.emit (.mul signed x y lo hi)) := h.emit rfl ?_ trivial ?_
  · exact ((hboth.settle (by simp [Due.loc])).settle (by simp [Due.loc])).mono
      Set.subset_union_left
  · simp [Ir.Instr.sources, hx, hy]
  · rintro l (hl | hl)
    · exact .inl hl
    · exact .inr (by simpa [Ir.Instr.results] using hl)

theorem leads_freshLabel {kind : String} (hk : kind ∈ labelKinds) :
    Leads (Agreed d J V temps owed) (freshLabel kind)
      fun name => Agreed d ((name, Set.univ) :: J) V temps owed := by
  intro e name e' he h
  obtain ⟨rfl, rfl⟩ := freshLabel_ok he
  obtain ⟨K, hK, hp, hs⟩ := h.backed
  exact ⟨h.depth, K, hK, hp.fresh hk _, hs⟩

/-- The code up to a label may be skipped. Where it branches off machines agree on `K`. -/
structure Skipping (d : Int) (J : List (String × Set Loc)) (V : Set Loc) (temps : List HostReg)
    (name : String) (e : Emitter) : Prop where
  depth : e.cache.depth = d
  page : ∃ K K', V ⊆ K ∧ K ⊆ K' ∧ Backs K temps [] e.cache.snapshot ∧
    Emit.Page ⟨e.labels, e.stubs.toList, [], (name, K) :: J⟩ K' e.cache.builder

theorem leads_skip (ht : i.target? = some name) (hf : i.falls = true)
    (hs : ∀ l ∈ i.sources, l ∈ V) :
    Leads (Agreed d ((name, Set.univ) :: J) V temps []) (emit i)
      fun _ => Skipping d J V temps name := by
  intro e a e' he h
  cases he
  obtain ⟨K, hK, hp, hb⟩ := h.backed
  exact ⟨h.depth, K, K, hK, Set.Subset.rfl, hb, hp.branch ht hf fun l hl => hK (hs l hl)⟩

theorem leads_skipped (hi : Reads V i) :
    Leads (Skipping d J V temps name) (emit i) fun _ => Skipping d J V temps name := by
  obtain ⟨hi, hb, hs⟩ := hi
  intro e a e' he h
  cases he
  obtain ⟨K, K', hK, hsub, hbacks, hp⟩ := h.page
  have hpass : Passes K' i (K' ∪ { l | l ∈ i.results }) := by
    refine .plain (fun l hl => hsub ?_) hb fun _ hl => hl
    rcases hs l hl with rfl | hv
    · exact hbacks.zero
    · exact hK hv
  exact ⟨h.depth, K, _, hK, hsub.trans Set.subset_union_left, hbacks, hp.pass hi hpass⟩

theorem leads_land : Leads (Skipping d J V temps name) (putLabel name)
    fun _ => Agreed d J V temps [] := by
  intro e a e' he h
  obtain ⟨b, hb, rfl⟩ := putLabel_ok he
  obtain ⟨K, K', hK, hsub, hbacks, hp⟩ := h.page
  exact ⟨h.depth, K, hK, (hp.label hb).mono (Set.subset_inter hsub Set.Subset.rfl), hbacks⟩

/-- The labels of a slow path. Machines agree on `S` where it branches off. -/
def forks (stub : Stub) (S : Set Loc) : List (String × Set Loc) :=
  [(Stub.entryLabel stub.id, S), (Stub.resumeLabel stub.id, Set.univ),
    (Stub.joinLabel stub.id, Set.univ)]

/-- Machines agree on `S` where the slow path starts, and then on its address as well. -/
structure Stub.Starts (stub : Stub) (S : Set Loc) (temps : List HostReg) : Prop where
  backs : Backs S temps [] stub.enter
  known : locs temps ⊆ S

theorem Leads.branchOff {s : Site} {op : Recompiler.Instr} {addr : HostReg} {f : Stub → EmitM β}
    {R : β → Emitter → Prop} (hV : locs temps ⊆ V)
    (hf : ∀ stub S, stub.addr = addr → V ⊆ S → stub.Starts S temps →
      Leads (Agreed d (forks stub (insert (.reg stub.addr) S) ++ J) S temps []) (f stub) R) :
    Leads (Agreed d J V temps []) (branchOff s op addr >>= f) R := by
  intro e b e' he h
  obtain ⟨stub, e₁, h₁, he⟩ := bind_ok he
  cases h₁
  obtain ⟨K, hK, hp, hs⟩ := h.backed
  refine hf _ K rfl hK ⟨hs, hV.trans hK⟩ _ _ _ he ⟨h.depth, K, Set.Subset.rfl, ?_, hs⟩
  exact hp.freshStub _

theorem leads_away {stub : Stub} {S : Set Loc} (hS : S ⊆ V)
    (ht : i.target? = some (Stub.entryLabel stub.id)) (hf : i.falls = true)
    (hs : ∀ l ∈ i.sources, l ∈ V) :
    Leads (Agreed d (forks stub S ++ J) V temps owed) (emit i)
      fun _ => Agreed d (forks stub S ++ J) V temps owed := by
  intro e a e' he h
  cases he
  obtain ⟨K, hK, hp, hb⟩ := h.backed
  obtain ⟨hcarried, hblind⟩ : Carried K i = K ∧ i.IsBlind := by
    cases i with
    | branch | branchConst | branchOverflow => exact ⟨rfl, trivial⟩
    | jump | callout => cases hf
    | _ => cases ht
  refine ⟨h.depth, K, hK, hp.jump ht ?_ fun _ => ?_, hb⟩
  · rw [hcarried]
    exact hS.trans hK
  · exact .plain (fun l hl => hK (hs l hl)) hblind fun _ hl => .inl hl

theorem leads_jumpAway {stub : Stub} {S : Set Loc} (hS : S ⊆ V) (V' : Set Loc) :
    Leads (Agreed d (forks stub S ++ J) V temps []) (emit (.jump (Stub.entryLabel stub.id)))
      fun _ => Agreed d (forks stub S ++ J) V' temps [] := by
  intro e a e' he h
  cases he
  obtain ⟨K, hK, hp, hb⟩ := h.backed
  have hleft := hp.leave (i := .jump (Stub.entryLabel stub.id)) rfl (hS.trans hK) rfl
  exact ⟨h.depth, Set.univ, Set.subset_univ V', hleft, hb.mono (Set.subset_univ K)⟩

theorem Stub.backs_reloaded {stub : Stub} {K : Set Loc} (hb : Backs K temps [] stub.leave) :
    Backs (K ∩ stub.Reloaded temps) temps [] stub.leave where
  zero := ⟨hb.zero, .inl rfl⟩
  held := hb.held
  slot r := by
    have hr := hb.slot r
    refine { hr with
      known := fun hv => .inl ⟨?_, ?_⟩
      const := fun hc => ⟨⟨(hr.const hc).1, ?_⟩, ?_⟩ }
    · exact (hr.known hv).resolve_right fun ⟨_, hm⟩ => absurd hm List.not_mem_nil
    · exact .inr (.inl ⟨r, rfl, .inl hv⟩)
    · refine .inr (.inl ⟨r, rfl, ?_⟩)
      exact (hr.const hc).2.imp_right fun hm => ⟨hr.temp hm, hm⟩
    · exact (hr.const hc).2
  fpSlot r := by
    have hr := hb.fpSlot r
    refine ⟨fun hc => .inl ⟨?_, ?_⟩, hr.place⟩
    · exact (hr.known hc).resolve_right List.not_mem_nil
    · exact .inr (.inr ⟨r, rfl, hc⟩)

theorem Stub.locs_subset_reloaded {stub : Stub} {K : Set Loc}
    (hb : Backs K temps [] stub.leave) : locs temps ⊆ stub.Reloaded temps := by
  rintro l ⟨x, hx, rfl⟩
  obtain ⟨r, rfl⟩ := hb.held x hx
  exact .inr (.inl ⟨r, rfl, .inr ⟨(hb.slot r).temp hx, hx⟩⟩)

/-- Where the slow path comes back machines agree on what it loads. -/
theorem leads_join {stub : Stub} {S : Set Loc} (hs : stub.Starts S temps) (hV : locs temps ⊆ V) :
    Leads (Agreed d (forks stub (insert (.reg stub.addr) S) ++ J) V temps []) (join stub)
      fun _ => Agreed d J (locs temps) temps [] := by
  intro e a e' he h
  obtain ⟨u, e₁, h₁, he⟩ := bind_ok he
  cases h₁
  obtain ⟨b, hb, rfl⟩ := putLabel_ok he
  obtain ⟨K, hK, hp, hbacks⟩ := h.backed
  let stub' : Stub := { stub with leave := e.cache.snapshot }
  have hbacks : Backs K temps [] stub'.leave := hbacks
  have hrelies : stub'.Relies (insert (.reg stub.addr) S) temps := {
    enter := hs.backs.mono (Set.subset_insert _ _)
    known := fun x hx => Set.mem_insert_of_mem _ (hs.known ⟨x, hx, rfl⟩)
    addr := Set.mem_insert _ _
    place := fun r hv => (hbacks.slot r).place hv
    fpPlace := fun r => (hbacks.fpSlot r).place }
  have hperm : (forks stub (insert (.reg stub.addr) S) ++ J).Perm
      ((Stub.joinLabel stub'.id, Set.univ) ::
        (Stub.entryLabel stub'.id, insert (.reg stub.addr) S) ::
          (Stub.resumeLabel stub'.id, Set.univ) :: J) := @List.perm_middle _ _ [_, _] J
  have hfirst := (hp.perm hperm).weaken (Set.subset_univ (stub'.Reloaded temps))
  have hjoined := Emit.Page.join hrelies (hfirst.place hb)
  refine ⟨h.depth, K ∩ stub'.Reloaded temps, ?_, ?_, Stub.backs_reloaded hbacks⟩
  · exact Set.subset_inter (hV.trans hK) (Stub.locs_subset_reloaded hbacks)
  · change Emit.Page ⟨e.labels, (e.stubs.push stub').toList, [], J⟩ _ b
    rw [Array.toList_push]
    exact hjoined

/-- What machines agree on when a service returns, if they agree on the temporaries. -/
def survivors (temps : List HostReg) : Set Loc :=
  { l | l = .reg .rz ∨ ∃ r, l = .save r ∧ .ofSlot r ∈ temps }

def Saving (V : Set Loc) (temps xs : List HostReg) : Set Loc :=
  { l | l ∈ V ∧ (∀ r, l ≠ .save r) ∨ ∃ r, l = .save r ∧ .ofSlot r ∈ temps ∧ .ofSlot r ∈ xs }

theorem mem_saving_reg (hx : .reg x ∈ V) (xs : List HostReg) : .reg x ∈ Saving V temps xs :=
  .inl ⟨hx, fun _ => Loc.noConfusion⟩

theorem leads_save {r : Fin 9} {xs : List HostReg} (hV : locs temps ⊆ V) :
    Leads (Holds F d (Saving V temps xs) temps []) (emit (.stc (.ofSlot r) (saveSlot (.ofSlot r))))
      fun _ => Holds F d (Saving V temps (xs ++ [.ofSlot r])) temps [] := by
  intro e a e' he h
  cases he
  obtain ⟨K, hK, hp, hb⟩ := h.backed
  refine ⟨h.depth, _, ?_, hp.save (.ofSlot r) r, ?_⟩
  · rintro l (⟨hl, hne⟩ | ⟨r', rfl, ht, hx⟩)
    · exact .inl ⟨hK (.inl ⟨hl, hne⟩), hne r⟩
    · by_cases he : r' = r
      · subst he
        exact .inr ⟨rfl, hK (mem_saving_reg (hV ⟨_, ht, rfl⟩) xs)⟩
      · refine .inl ⟨hK (.inr ⟨r', rfl, ht, ?_⟩), fun hs => he (Loc.save.inj hs)⟩
        refine (List.mem_append.mp hx).resolve_right fun hm => he ?_
        exact Machine.ofSlot_inj (List.mem_singleton.mp hm)
  · exact hb.mono_regs fun l hl hne => .inl ⟨hl, hne r⟩

theorem Holds.temps_subset {e : Emitter} (h : Holds F d V temps owed e) :
    temps ⊆ e.cache.temps := by
  obtain ⟨K, -, -, hb⟩ := h.backed
  intro x hx
  obtain ⟨r, rfl⟩ := hb.held x hx
  refine List.mem_map_of_mem (List.mem_filter.mpr ⟨List.mem_finRange r, ?_⟩)
  exact beq_iff_eq.mpr ((hb.slot r).temp hx)

theorem ofSlot_of_mem_temps {c : HostCache} (h : x ∈ c.temps) : ∃ r : Fin 9, x = .ofSlot r := by
  obtain ⟨r, -, rfl⟩ := List.mem_map.mp h
  exact ⟨r, rfl⟩

/-- The registers in use are stored, and the temporaries saved. -/
theorem leads_spill (hV : locs temps ⊆ V) :
    Leads (Holds F d V temps []) spill fun xs e =>
      (temps ⊆ xs ∧ ∀ x ∈ xs, ∃ r : Fin 9, x = .ofSlot r) ∧
        Holds F d (Saving V temps xs) temps [] e := by
  have hflush : Leads (Holds F d V temps []) (modifyCache (·.flushAll))
      fun _ => Holds F d V temps [] :=
    leads_modifyCache (fun h => (Appends.flushAll _).depth.trans h) fun hb => hb.flushAll
  refine .bind hflush fun _ => .bind .get fun e₀ => ?_
  rintro e xs e' he ⟨rfl, h⟩
  have hsaved : Leads (Holds F d (Saving V temps []) temps [])
      (forIn e₀.cache.temps PUnit.unit fun x (_ : PUnit) => do
        emit (.stc x (saveSlot x))
        pure (ForInStep.yield PUnit.unit))
      fun _ => Holds F d (Saving V temps e₀.cache.temps) temps [] := by
    refine .forIn (I := fun ys => Holds F d (Saving V temps ys) temps []) fun ys x hx => ?_
    obtain ⟨r, rfl⟩ := ofSlot_of_mem_temps hx
    exact leads_save hV
  obtain ⟨u, e₁, h₁, he⟩ := bind_ok he
  cases he
  refine ⟨⟨h.temps_subset, fun x hx => ofSlot_of_mem_temps hx⟩, hsaved _ _ _ h₁ (h.mono ?_)⟩
  rintro l (⟨hl, -⟩ | ⟨r, -, -, hm⟩)
  · exact hl
  · exact absurd hm List.not_mem_nil

theorem leads_describe (s : Site) (op : Recompiler.Instr) :
    Leads (Holds F d V temps []) (describe s op) fun _ => Holds F d V temps [] :=
  .bind (leads_store (by simp [*])) fun _ => .bind (leads_store (by simp [*])) fun _ =>
    .bind (leads_store (by simp [*])) fun _ => leads_store (by simp [*])

/-- A service has returned. Machines agree at least on `V`, and the registers are assigned as they
were before. -/
structure Returned (d : Int) (J : List (String × Set Loc)) (V : Set Loc) (temps : List HostReg)
    (e : Emitter) : Prop where
  depth : e.cache.depth = d
  page : Emit.Page ⟨e.labels, e.stubs.toList, [], J⟩ V e.cache.builder
  backs : ∃ K, Backs K temps [] e.cache.snapshot

theorem Leads.ask {id : Int} {xs : List HostReg} {f : EmitM β} {R : β → Emitter → Prop}
    (ht : temps ⊆ xs) (hf : Leads (Returned d J (survivors temps) temps) f R) :
    Leads (Agreed d ((name, Set.univ) :: J) (Saving V temps xs) temps []) (do
      emit (.callout id name)
      putLabel name
      f) R := by
  intro e a e' he h
  obtain ⟨u, e₁, h₁, he⟩ := bind_ok he
  obtain ⟨u, e₂, h₂, he⟩ := bind_ok he
  cases h₁
  obtain ⟨b, hb, rfl⟩ := putLabel_ok h₂
  obtain ⟨K, hK, hp, hbacks⟩ := h.backed
  refine hf _ _ _ he ⟨h.depth, (hp.ask hb).mono ?_, K, hbacks⟩
  rintro l (rfl | ⟨r, rfl, hr⟩)
  · exact .inl rfl
  · exact .inr ⟨r, rfl, hK (.inr ⟨r, rfl, hr, ht hr⟩)⟩

def Restoring (temps xs : List HostReg) : Set Loc :=
  survivors temps ∪ { l | ∃ x ∈ temps, l = .reg x ∧ x ∈ xs }

theorem leads_restore {r : Fin 9} {xs : List HostReg} :
    Leads (Returned d J (Restoring temps xs) temps)
      (emit (.ldc (saveSlot (.ofSlot r)) (.ofSlot r)))
      fun _ => Returned d J (Restoring temps (xs ++ [.ofSlot r])) temps := by
  intro e a e' he h
  cases he
  refine ⟨h.depth, (h.page.restore (.ofSlot r) r).mono ?_, h.backs⟩
  rintro l ((rfl | ⟨r', rfl, hr⟩) | ⟨x, ht, rfl, hx⟩)
  · exact .inl ⟨.inl (.inl rfl), fun he => Machine.ofSlot_ne_rz r (Loc.reg.inj he).symm⟩
  · exact .inl ⟨.inl (.inr ⟨r', rfl, hr⟩), Loc.noConfusion⟩
  · by_cases he : x = .ofSlot r
    · subst he
      exact .inr ⟨rfl, .inl (.inr ⟨r, rfl, ht⟩)⟩
    · have hx : x ∈ xs :=
        (List.mem_append.mp hx).resolve_right fun hm => he (List.mem_singleton.mp hm)
      exact .inl ⟨.inr ⟨x, ht, rfl, hx⟩, fun hr => he (Loc.reg.inj hr)⟩

theorem leads_dropAll {xs : List HostReg} (ht : temps ⊆ xs) :
    Leads (Returned d J (Restoring temps xs) temps) (modifyCache (·.dropAll))
      fun _ => Agreed d J (locs temps) temps [] := by
  intro e a e' he h
  cases he
  obtain ⟨K, hb⟩ := h.backs
  have hmem {x : HostReg} (hx : x ∈ temps) : Loc.reg x ∈ Restoring temps xs :=
    .inr ⟨x, hx, rfl, ht hx⟩
  refine ⟨h.depth, _, ?_, h.page, .inl (.inl rfl), hb.held, fun r => ?_, fun r => ?_⟩
  · rintro l ⟨x, hx, rfl⟩
    exact hmem hx
  · have hr := hb.slot r
    change (e.cache.dropAll.slot r).Backs _ _ _ _
    rw [show e.cache.dropAll.slot r = if (e.cache.slot r).content == .temp then e.cache.slot r
      else .empty from Vector.get_map _ _ _]
    change (e.cache.slot r).Backs _ _ _ _ at hr
    split
    · rename_i htemp
      have htemp := beq_iff_eq.mp htemp
      have hvalue : (e.cache.slot r).content.isValue ≠ true := by
        rw [htemp]
        exact Bool.false_ne_true
      exact { hr with
        known := fun hv => absurd hv hvalue
        const := fun hc => by
          have hm := (hr.const hc).2.resolve_left hvalue
          exact ⟨hmem hm, .inr hm⟩ }
    · rename_i htemp
      exact .empty (fun hm => htemp (beq_iff_eq.mpr (hr.temp hm))) fun _ => List.not_mem_nil
  · change (e.cache.dropAll.fpSlots.get r).Backs _ _ _
    rw [HostCache.dropAll, Vector.get_replicate]
    exact .empty

theorem leads_request (service : Service) (s : Site) (op : Recompiler.Instr)
    (hV : locs temps ⊆ V) :
    Leads (Agreed d J V temps []) (request service s op)
      fun _ => Agreed d J (locs temps) temps [] := by
  refine .bind (leads_freshLabel (by decide)) fun resume => .bind (leads_spill hV) fun xs => ?_
  refine .assume fun ⟨ht, hslots⟩ => .bind (leads_describe s op) fun _ => .ask ht ?_
  have hrestored : Leads (Returned d J (Restoring temps []) temps)
      (forIn xs PUnit.unit fun x (_ : PUnit) => do
        emit (.ldc (saveSlot x) x)
        pure (ForInStep.yield PUnit.unit))
      fun _ => Returned d J (Restoring temps xs) temps := by
    refine .forIn (I := fun ys => Returned d J (Restoring temps ys) temps) fun ys x hx => ?_
    obtain ⟨r, rfl⟩ := hslots x hx
    exact leads_restore
  refine .bind (hrestored.pre fun e h => ⟨h.depth, h.page.mono ?_, h.backs⟩) fun _ =>
    leads_dropAll ht
  rintro l (hl | ⟨x, -, -, hm⟩)
  · exact hl
  · exact absurd hm List.not_mem_nil

end Emit

end Recompiler
