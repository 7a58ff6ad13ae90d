import Recompiler.Proofs.CacheSessions
import Recompiler.Proofs.Fields
import Recompiler.Proofs.PageMaps

/-!
Traces and the maps they were fetched through. An engine is used operation after operation: it
compiles, executes instructions, and blocks are evicted. Of every block it is known how its
address led to its words. As long as the block can be found, the entry that led there is in its
place: only a change of the address space or an entry before it can lead elsewhere.
-/

namespace Recompiler

open CodeCache Interp

namespace TlbEntry

def Leads (e : TlbEntry) (vaddr asid paddr : UInt32) : Prop :=
  e.covers vaddr asid = true ∧ e.page vaddr &&& validBit ≠ 0 ∧ e.frame (e.page vaddr) vaddr = paddr

theorem isValid_of_page {e : TlbEntry} {vaddr : UInt32} (h : e.page vaddr &&& validBit ≠ 0) :
    e.isValid = true := by
  rw [isValid, bne_iff_ne, Instr.or_and]
  intro h0
  obtain ⟨h1, h2⟩ := UInt32.or_eq_zero_iff.mp h0
  unfold page at h
  split at h
  · exact h h2
  · exact h h1

end TlbEntry

namespace Cpu

variable {c d : Cpu} {vaddr paddr : UInt32}

def directAddress? (c : Cpu) (vaddr : UInt32) : Option UInt32 :=
  match c.windowAddress? vaddr with
  | some paddr => some paddr
  | none => if isUnmapped vaddr then some (vaddr &&& 0x1fffffff) else none

theorem directAddress?_of_maps (h : d.window = c.window) (vaddr : UInt32) :
    d.directAddress? vaddr = c.directAddress? vaddr := by
  unfold directAddress? windowAddress?
  rw [h]

theorem physical?_of_direct (h : c.directAddress? vaddr = some paddr) (write : Bool) :
    c.physical? vaddr write = some paddr := by
  unfold directAddress? at h
  unfold physical? lookup
  cases hw : c.windowAddress? vaddr with
  | some p =>
    rw [hw] at h
    exact h
  | none =>
    rw [hw] at h
    by_cases hu : isUnmapped vaddr = true
    · simp only [hu, if_true] at h ⊢
      exact h
    · simp [hu] at h

theorem tlbIndex?_eq_some {asid : UInt32} {i : Fin 32} : c.tlbIndex? vaddr asid = some i ↔
    (c.tlb.get i).covers vaddr asid = true ∧
      ∀ j < i, (c.tlb.get j).covers vaddr asid = false := by
  rw [tlbIndex?, List.find?_eq_some_iff_getElem]
  simp only [List.getElem_finRange, List.length_finRange, Fin.cast_mk, Bool.not_eq_true']
  constructor
  · rintro ⟨hi, n, hn, rfl, hj⟩
    exact ⟨hi, fun j hlt => hj j.val hlt⟩
  · rintro ⟨hi, hj⟩
    exact ⟨hi, i.val, i.isLt, rfl, fun j hlt => hj ⟨j, by omega⟩ hlt⟩

theorem lookup_eq_lookupTlb (h : c.directAddress? vaddr = none) (write : Bool) :
    c.lookup vaddr write = c.lookupTlb vaddr write := by
  unfold directAddress? at h
  unfold lookup
  cases hw : c.windowAddress? vaddr with
  | some p => simp [hw] at h
  | none =>
    have hu : isUnmapped vaddr = false := by
      by_contra hu
      simp [hw, hu] at h
    simp [hu]

theorem physical?_of_leads {i : Fin 32} (h : c.directAddress? vaddr = none)
    (hi : c.tlbIndex? vaddr c.asid = some i) (hl : (c.tlb.get i).Leads vaddr c.asid paddr) :
    c.physical? vaddr false = some paddr := by
  obtain ⟨-, hvalid, hframe⟩ := hl
  rw [physical?, lookup_eq_lookupTlb h, lookupTlb, hi]
  simp [hvalid, hframe]

theorem leads_of_physical? (h : c.directAddress? vaddr = none)
    (hp : c.physical? vaddr false = some paddr) :
    ∃ i, c.tlbIndex? vaddr c.asid = some i ∧ (c.tlb.get i).Leads vaddr c.asid paddr := by
  rw [physical?, lookup_eq_lookupTlb h, lookupTlb] at hp
  cases hi : c.tlbIndex? vaddr c.asid with
  | none => simp [hi] at hp
  | some i =>
    refine ⟨i, rfl, (tlbIndex?_eq_some.mp hi).1, ?_⟩
    simp only [hi, Bool.false_and, Bool.false_eq_true, if_false] at hp
    by_cases hv : (c.tlb.get i).page vaddr &&& TlbEntry.validBit = 0
    · simp [hv] at hp
    · simp [hv] at hp
      exact ⟨hv, hp⟩

end Cpu

/-- How an address led to the words of a block. -/
structure Fetch where
  pc : UInt32
  paddr : UInt32
  /-- The address space. -/
  asid : UInt32
  /-- The entry of the lookaside buffer, if one was needed. -/
  entry : Option (Fin 32)

namespace Fetch

variable {x : Fetch} {c d : Cpu} {pc : UInt32}

def of? (c : Cpu) (pc : UInt32) : Option Fetch :=
  (c.physical? pc false).map fun paddr =>
    ⟨pc, paddr, c.asid, if (c.directAddress? pc).isSome then none else c.tlbIndex? pc c.asid⟩

def Intact (x : Fetch) (c : Cpu) : Prop :=
  match x.entry with
  | none => c.directAddress? x.pc = some x.paddr
  | some i => c.directAddress? x.pc = none ∧ (c.tlb.get i).Leads x.pc x.asid x.paddr

theorem exists_of? {paddr : UInt32} (h : c.physical? pc false = some paddr) :
    ∃ x, of? c pc = some x ∧ x.pc = pc ∧ x.paddr = paddr ∧ x.Intact c := by
  refine ⟨_, by rw [of?, h]; rfl, rfl, rfl, ?_⟩
  cases hd : c.directAddress? pc with
  | some p =>
    have hp := Cpu.physical?_of_direct hd false
    rw [h] at hp
    simpa [Intact, hd] using hp.symm
  | none =>
    obtain ⟨i, hi, hl⟩ := Cpu.leads_of_physical? hd h
    simpa [Intact, hd, hi] using hl

theorem Intact.of_maps (h : x.Intact c) (hm : d.maps = c.maps) : x.Intact d := by
  have ht : d.tlb = c.tlb := congrArg Prod.fst hm
  have hw := Cpu.directAddress?_of_maps (congrArg Prod.snd hm : d.window = c.window)
  unfold Intact at h ⊢
  simpa only [ht, hw] using h

theorem Intact.put (h : x.Intact c) {k : Fin 32} {new : TlbEntry} (hk : x.entry ≠ some k)
    (hm : d.maps = (c.tlb.put k new, c.window)) : x.Intact d := by
  have ht : d.tlb = c.tlb.put k new := congrArg Prod.fst hm
  have hw := Cpu.directAddress?_of_maps (congrArg Prod.snd hm : d.window = c.window)
  unfold Intact at h ⊢
  cases hx : x.entry with
  | none => simpa only [hx, hw] using h
  | some i =>
    have hne : k ≠ i := fun he => hk (he ▸ hx)
    simp only [hx] at h ⊢
    rw [hw, ht, Vector.get_put_of_ne _ _ hne]
    exact h

/-- If the entry still applies to the address space and none before it does, the address leads
to the same words. -/
theorem Intact.physical? (h : x.Intact c)
    (hs : ∀ i ∈ x.entry, ((c.tlb.get i).isGlobal = true ∨ c.asid = x.asid) ∧
      ∀ j < i, (c.tlb.get j).covers x.pc c.asid = false) :
    c.physical? x.pc false = some x.paddr := by
  unfold Intact at h
  cases hx : x.entry with
  | none =>
    rw [hx] at h
    exact Cpu.physical?_of_direct h false
  | some i =>
    rw [hx] at h
    obtain ⟨hd, hc, hrest⟩ := h
    obtain ⟨hspace, hfirst⟩ := hs i hx
    have hc' : (c.tlb.get i).covers x.pc c.asid = true := by
      rw [TlbEntry.covers_iff] at hc ⊢
      refine ⟨hc.1, ?_⟩
      rcases hspace with hg | ha
      · exact .inl hg
      · rw [ha]
        exact hc.2
    exact Cpu.physical?_of_leads hd (Cpu.tlbIndex?_eq_some.mpr ⟨hc', hfirst⟩) ⟨hc', hrest⟩

end Fetch

namespace Engine

variable {e e' e'' : Engine} {α β : Type}

/-- Nothing became live, and addresses are mapped as before. -/
structure Quiet (e e' : Engine) : Prop where
  sound : Sound e'.host.cache
  maps : e'.cpu.maps = e.cpu.maps
  live {pc : UInt32} {i : BlockId} :
    e'.host.cache.lookup pc = .live i → e.host.cache.lookup pc = .live i

namespace Quiet

theorem refl (h : Sound e.host.cache) : Quiet e e := ⟨h, rfl, id⟩

theorem trans (h : Quiet e e') (h' : Quiet e' e'') : Quiet e e'' :=
  ⟨h'.sound, h'.maps.trans h.maps, fun hl => h.live (h'.live hl)⟩

theorem of_cache (h : Sound e.host.cache) (hm : e'.cpu.maps = e.cpu.maps)
    (hc : e'.host.cache = e.host.cache) : Quiet e e' :=
  ⟨hc ▸ h, hm, fun hl => hc ▸ hl⟩

theorem of_change (h : Sound e.host.cache) (hm : e'.cpu.maps = e.cpu.maps)
    (hc : Change e.host.cache e'.host.cache) : Quiet e e' :=
  ⟨hc.sound h, hm, hc.dwindles.live⟩

end Quiet

theorem quiet_invalidateAll (h : Sound e.host.cache) : Quiet e e.invalidateAll :=
  .of_change h rfl .cleared

theorem cache_invalidatePages (pages : List UInt32) (h : Host) :
    (pages.foldl Host.invalidatePage h).cache
      = pages.foldl (fun c page => (c.invalidatePage page).2) h.cache := by
  induction pages generalizing h with
  | nil => rfl
  | cons page pages ih => exact ih (h.invalidatePage page)

theorem lookup_invalidatePages {pages : List UInt32} {c : CodeCache} {pc : UInt32} {i : BlockId} :
    (pages.foldl (fun c page => (c.invalidatePage page).2) c).lookup pc = .live i ↔
      c.lookup pc = .live i ∧ pageOf pc ∉ pages := by
  induction pages generalizing c with
  | nil => simp
  | cons page pages ih =>
    rw [List.foldl_cons, ih, lookup_invalidatePage, List.mem_cons, not_or, and_assoc]

theorem sound_invalidatePages {pages : List UInt32} {c : CodeCache} (h : Sound c) :
    Sound (pages.foldl (fun c page => (c.invalidatePage page).2) c) :=
  List.foldlRecOn pages _ h fun _ hd page _ => hd.invalidatePage page

theorem quiet_invalidatePages {pages : List UInt32} (h : Sound e.host.cache)
    (hm : e'.cpu.maps = e.cpu.maps)
    (hc : e'.host.cache = pages.foldl (fun c page => (c.invalidatePage page).2) e.host.cache) :
    Quiet e e' :=
  ⟨hc ▸ sound_invalidatePages h, hm, fun hl => (lookup_invalidatePages.mp (hc ▸ hl)).1⟩

theorem quiet_statusWritten (h : Sound e.host.cache) (old new : UInt32) :
    Quiet e (e.statusWritten old new) := by
  have h1 : Quiet e (if (old ^^^ new) &&& StatusBit.fr ≠ 0 then e.invalidateAll else e) := by
    split
    · exact quiet_invalidateAll h
    · exact .refl h
  unfold statusWritten
  dsimp only
  split
  · exact h1.trans (.of_cache h1.sound rfl rfl)
  · exact h1

theorem quiet_tlbWritten (h : Sound e.host.cache) (old : TlbEntry) : Quiet e (e.tlbWritten old) := by
  unfold tlbWritten
  split
  · exact quiet_invalidatePages h rfl (cache_invalidatePages ..)
  · exact .refl h

theorem quiet_react (h : Sound e.host.cache) (f : Effect) : Quiet e (e.react f) := by
  cases f with
  | countWritten old new => exact .of_cache h rfl rfl
  | compareWritten v => exact .of_cache h rfl rfl
  | statusWritten old new => exact quiet_statusWritten h old new
  | tlbWritten old new => exact quiet_tlbWritten h old
  | codeWritten paddr =>
    unfold react
    dsimp only
    split
    · exact quiet_invalidatePages h rfl (cache_invalidatePages ..)
    · exact .refl h
  | deviceRead paddr size => exact .of_cache h rfl rfl
  | deviceWritten paddr size v => exact .of_cache h rfl rfl

theorem quiet_reactAll (h : Sound e.host.cache) (fs : List Effect) :
    Quiet e (fs.foldl react e) := by
  induction fs generalizing e with
  | nil => exact .refl h
  | cons f fs ih =>
    have hf := quiet_react h f
    exact hf.trans (ih hf.sound)

theorem quiet_settle (h : Sound e.host.cache) : Quiet e e.settle := by
  unfold settle
  dsimp only
  split
  · exact .refl h
  · rw [← Array.foldl_toList]
    have hd : Quiet e (e.mapCpu (·.drained)) := .of_cache h rfl rfl
    exact hd.trans (quiet_reactAll hd.sound _)

theorem not_mem_tlbPages_of_settle (h : Sound e.host.cache) {old new : TlbEntry}
    (hmem : .tlbWritten old new ∈ e.cpu.effects) (hvalid : old.isValid = true) {pc : UInt32}
    {i : BlockId} (hl : e.settle.host.cache.lookup pc = .live i) : pageOf pc ∉ tlbPages old := by
  have hne : e.cpu.effects.isEmpty = false := by
    rw [Array.isEmpty_eq_false_iff]
    exact Array.ne_empty_of_mem hmem
  obtain ⟨before, after, hsplit⟩ := List.append_of_mem (Array.mem_toList_iff.mpr hmem)
  unfold settle at hl
  simp only [hne, Bool.false_eq_true, if_false] at hl
  rw [← Array.foldl_toList, hsplit, List.foldl_append, List.foldl_cons] at hl
  have hd : Sound (e.mapCpu (·.drained)).host.cache := h
  have hq := quiet_reactAll hd before
  generalize before.foldl react (e.mapCpu (·.drained)) = d at hq hl
  have hw := (quiet_reactAll (quiet_react hq.sound (.tlbWritten old new)).sound after).live hl
  simp only [react, tlbWritten, hvalid, if_true, mapHost] at hw
  rw [cache_invalidatePages] at hw
  exact (lookup_invalidatePages.mp hw).2

theorem allocate_change {c : CodeCache} (h : Sound c) (n size : Int) :
    Change c (c.allocate n size).2 := by
  rcases h.allocate n size with ⟨-, he⟩ | ⟨-, off, d, he, -, hd, hcd⟩
  · rw [he]
    exact .cells rfl
  · rw [he]
    exact .evicted hd hcd

theorem evict_change {c d : CodeCache} (h : Sound c) (he : c.evict = .ok d) : Change c d := by
  cases hr : c.ring with
  | nil =>
    rw [CodeCache.evict, hr] at he
    cases he
    exact .cells rfl
  | cons id rest =>
    obtain ⟨d', he', hd, hcd, -⟩ := h.evict hr
    cases he'.symm.trans he
    exact .evicted hd hcd

theorem insert_ends {c : CodeCache} (h : Sound c) (pc : UInt32) (t : TraceProgram)
    (code : Option ByteArray) :
    (∃ err d, c.insert pc t code = (.error err, d) ∧ err.isFault = false ∧ Change c d) ∨
      ∃ d, c.insert pc t code = (.ok c.blocks.size, d) ∧ Inserts c pc t d := by
  rcases h.insert_cases pc t code with ⟨err, herr, he⟩ | ⟨off, d, -, hd, hcd, hfit, hpc, hcase⟩
  · exact .inl ⟨err, _, he, herr, .cells (bare_freeCells ..)⟩
  · have hs := Nat.le_trans (Nat.le_add_right _ _) (headerSize_le_blockSize t code)
    rcases hcase with ⟨err, he⟩ | ⟨arena, hw, he⟩
    · exact .inl ⟨_, _, he, rfl, .appended hd hcd hs hfit (bare_freeCells _ _)⟩
    · exact .inr ⟨_, he, .intro hd hcd hfit hpc hw⟩

/-- From `e`, the operation ends with `Q`, or in a fault; then nothing became live since `e₀`. -/
def Ends (e₀ e : Engine) (f : EngineM α) (Q : α → Engine → Prop) : Prop :=
  match f.run e with
  | .ok a e' => Q a e'
  | .error _ e' => Quiet e₀ e'

variable {e₀ : Engine} {f : EngineM α} {g : α → EngineM β} {Q : α → Engine → Prop}
  {R : β → Engine → Prop}

theorem Ends.bind (hf : Ends e₀ e f Q) (hg : ∀ a e', Q a e' → Ends e₀ e' (g a) R) :
    Ends e₀ e (f >>= g) R := by
  unfold Ends at hf ⊢
  rw [EStateM.run_bind]
  cases hr : f.run e with
  | ok a e' =>
    rw [hr] at hf
    exact hg a e' hf
  | error x e' =>
    rw [hr] at hf
    exact hf

theorem Ends.get_bind {g : Engine → EngineM β} (hg : Ends e₀ e (g e) R) :
    Ends e₀ e (get >>= g) R := hg

theorem Ends.modify_bind {m : Engine → Engine} {g : PUnit → EngineM β}
    (hg : Ends e₀ (m e) (g ⟨⟩) R) : Ends e₀ e (modify m >>= g) R := hg

theorem Quiet.cells (h : Quiet e₀ e) {cache : CodeCache} (hb : cache.bare = e.host.cache.bare) :
    Quiet e₀ (e.mapHost fun h => { h with cache }) :=
  h.trans (.of_change h.sound rfl (.cells hb))

theorem bare_takeCells (c : CodeCache) (n : Nat) : (c.takeCells n).bare = c.bare := rfl

theorem ends_emitTrace (h : Quiet e₀ e) (pc : UInt32) (ops : List TraceOp) :
    Ends e₀ e (emitTrace pc ops) fun _ e' => Quiet e₀ e' := by
  unfold emitTrace
  refine .get_bind ?_
  split
  · exact .modify_bind (h.cells (bare_takeCells ..))
  · split
    · exact .modify_bind (h.cells ((bare_freeCells ..).trans (bare_takeCells ..)))
    · exact h

theorem ends_clearHalf (h : Quiet e₀ e) : Ends e₀ e clearHalf fun _ e' => Quiet e₀ e' := by
  unfold clearHalf
  refine .get_bind ?_
  dsimp only
  generalize ((e.host.cache.capacity / 2 : Nat) : Int) - (Block.headerSize : Int) = n
  generalize (CodeCache.align (e.host.cache.capacity / 2) : Int) = size
  have hchange := allocate_change h.sound n size
  revert hchange
  obtain ⟨r, cache⟩ := e.host.cache.allocate n size
  intro hchange
  refine .modify_bind ?_
  have hq : Quiet e₀ (e.mapHost fun h => { h with cache }) := h.trans (.of_change h.sound rfl hchange)
  cases r with
  | ok off => exact hq
  | error err =>
    change Ends _ _ (if err.isFault = true then _ else _) _
    split
    · exact hq
    · exact hq

theorem ends_emitOrRetry (h : Quiet e₀ e) (pc : UInt32) (ops : List TraceOp) :
    Ends e₀ e (emitOrRetry pc ops) fun _ e' => Quiet e₀ e' := by
  unfold emitOrRetry
  refine .bind (ends_emitTrace h pc ops) fun r e' h' => ?_
  split
  · exact h'
  · refine .bind (ends_clearHalf h') fun r e' h' => ?_
    split
    · exact h'
    · exact .bind (ends_emitTrace h' pc ops) fun _ _ h' => h'
  · exact h'

theorem maps_readWords (n : Nat) (paddr : UInt32) (c : Cpu) :
    (readWords n paddr c).2.maps = c.maps := by
  induction n generalizing paddr c with
  | zero => rfl
  | succ n ih => exact (ih _ _).trans (Cpu.maps_readPhys _ _ _)

theorem track_frame (e : Engine) (pc : UInt32) :
    (e.track pc).cpu.maps = e.cpu.maps ∧ (e.track pc).host.cache = e.host.cache := by
  unfold track
  split
  · exact ⟨rfl, rfl⟩
  · dsimp only
    split <;> exact ⟨rfl, rfl⟩

/-- The trace at `pc` now has the block `id`. -/
structure Compiled (e : Engine) (pc : UInt32) (id : BlockId) (e' : Engine) : Prop where
  sound : Sound e'.host.cache
  maps : e'.cpu.maps = e.cpu.maps
  mapped : ∃ paddr, e.cpu.physical? pc false = some paddr
  live {pc' : UInt32} {i : BlockId} : e'.host.cache.lookup pc' = .live i →
    (i = id ∧ wordAddr pc' = pc) ∨ (i ≠ id ∧ e.host.cache.lookup pc' = .live i)

theorem ends_fetchTrace (h : Sound e.host.cache) (pc : UInt32) :
    Ends e e (fetchTrace pc) fun r e' => Quiet e e' ∧
      ∀ words, r = .ok words → ∃ paddr, e.cpu.physical? pc false = some paddr := by
  unfold fetchTrace
  refine .get_bind ?_
  split
  · exact ⟨.refl h, fun words hr => by cases hr⟩
  · rename_i paddr hp
    split
    · exact ⟨.refl h, fun words hr => by cases hr⟩
    · dsimp only
      have hr : Quiet e { e with cpu := (readWords (traceLimit e.host.settings pc) paddr e.cpu).2 } :=
        .of_cache h (maps_readWords ..) rfl
      exact .modify_bind ⟨hr.trans (quiet_settle hr.sound), fun words _ => ⟨paddr, hp⟩⟩

theorem ends_insertTrace (h : Quiet e₀ e) {pc paddr : UInt32}
    (hp : e₀.cpu.physical? pc false = some paddr) (t : TraceProgram) :
    Ends e₀ e (insertTrace pc t) fun r e' => match r with
      | .ok id => Compiled e₀ pc id e'
      | .error _ => Quiet e₀ e' := by
  unfold insertTrace
  refine .get_bind ?_
  rcases insert_ends h.sound pc t none with ⟨err, cache, hi, hf, hchange⟩ | ⟨cache, hi, hins⟩
  · rw [hi]
    refine .modify_bind ?_
    have hq : Quiet e₀ (e.mapHost fun h => { h with cache }) :=
      h.trans (.of_change h.sound rfl hchange)
    simp only [hf]
    exact .modify_bind (hq.trans (.of_cache hq.sound rfl rfl))
  · rw [hi]
    refine .modify_bind (.modify_bind ?_)
    obtain ⟨hmaps, hcache⟩ := track_frame (e.mapHost fun h => { h with cache }) pc
    refine ⟨hcache ▸ hins.sound, hmaps.trans h.maps, ⟨paddr, hp⟩, fun {pc' i} hl => ?_⟩
    rw [hcache] at hl
    obtain ⟨d, -, hd, -, -, hnew, hpc, rfl⟩ := hins.cases
    change (d.publish pc _ t.exits).lookup pc' = _ at hl
    rw [lookup_publish, wordAddr_of_aligned hpc] at hl
    split at hl
    · rename_i hw
      exact .inl ⟨(Mapping.live.inj hl).symm, hw⟩
    · exact .inr ⟨fun hi => hnew pc' (hi ▸ hl), h.live (hd.live hl)⟩

theorem ends_compile (h : Sound e.host.cache) (pc : UInt32) :
    Ends e e (compile pc) fun r e' => match r with
      | .ok id => Compiled e pc id e'
      | .error _ => Quiet e e' := by
  unfold compile
  refine .bind (ends_fetchTrace h pc) fun r e' ⟨hq, hmap⟩ => ?_
  split
  · exact hq
  · obtain ⟨paddr, hp⟩ := hmap _ rfl
    dsimp only
    split
    · exact hq
    · split
      · exact hq
      · refine .bind (ends_emitOrRetry hq pc _) fun r e' hq => ?_
        split
        · exact hq
        · refine .get_bind ?_
          split
          · exact .modify_bind (hq.cells (bare_freeCells ..))
          · exact ends_insertTrace hq hp _

end Engine

/-- What is done with an engine. -/
inductive EngineOp where
  | compile (pc : UInt32)
  | instruction (i : Instr)
  | writeCop0 (r : Reg) (v : UInt64)
  | writePhys (paddr : UInt32) (size : Size) (v : UInt64)
  | evict
  | invalidateAll

/-- An engine, and how the words of its blocks were fetched. -/
structure EngineSession where
  engine : Engine
  fetched : BlockId → Option Fetch

namespace EngineSession

variable {s : EngineSession}

def start (e : Engine) : EngineSession := ⟨e, fun _ => none⟩

/-- A fault is not the end: the engine goes on with the state in which it happened. -/
def step (s : EngineSession) : EngineOp → EngineSession
  | .compile pc =>
    match (Engine.compile pc).run s.engine with
    | .ok (.ok id) e => ⟨e, Function.update s.fetched id (Fetch.of? s.engine.cpu pc)⟩
    | .ok (.error _) e | .error _ e => { s with engine := e }
  | .instruction i => { s with engine := s.engine.onCpu fun c => (exec c i).2 }
  | .writeCop0 r v => { s with engine := s.engine.onCpu (·.writeCop0 r v) }
  | .writePhys paddr size v => { s with engine := s.engine.onCpu (·.writePhys paddr size v) }
  | .evict =>
    match s.engine.host.cache.evict with
    | .ok cache => { s with engine := s.engine.mapHost fun h => { h with cache } }
    | .error _ => s
  | .invalidateAll => { s with engine := s.engine.invalidateAll }

def run (s : EngineSession) (ops : List EngineOp) : EngineSession := ops.foldl step s

/-- Whatever can be found was fetched in a way that is still there. -/
structure Coherent (s : EngineSession) : Prop where
  sound : Sound s.engine.host.cache
  regular (k : Fin 32) : (s.engine.cpu.tlb.get k).Regular
  live {pc : UInt32} {id : BlockId} : s.engine.host.cache.lookup pc = .live id →
    ∃ x, s.fetched id = some x ∧ x.pc = wordAddr pc ∧ x.Intact s.engine.cpu

theorem Coherent.quiet (h : Coherent s) {e : Engine} (hq : Engine.Quiet s.engine e) :
    Coherent { s with engine := e } where
  sound := hq.sound
  regular k := by
    have ht : e.cpu.tlb = s.engine.cpu.tlb := congrArg Prod.fst hq.maps
    rw [ht]
    exact h.regular k
  live hl := by
    obtain ⟨x, hx, hpc, hi⟩ := h.live (hq.live hl)
    exact ⟨x, hx, hpc, hi.of_maps hq.maps⟩

theorem Coherent.onCpu (h : Coherent s) {f : Cpu → Cpu}
    (hf : (f s.engine.cpu).maps = s.engine.cpu.maps) :
    Coherent { s with engine := s.engine.onCpu f } := by
  have hq : Engine.Quiet s.engine (s.engine.mapCpu f) := .of_cache h.sound hf rfl
  exact h.quiet (hq.trans (Engine.quiet_settle hq.sound))

theorem wordAddr_shiftRight (pc : UInt32) : wordAddr pc >>> 12 = pageOf pc := by
  rw [← UInt32.toNat_inj, toNat_pageOf, UInt32.toNat_shiftRight, toNat_wordAddr]
  simp only [UInt32.reduceToNat, Nat.reduceMod, Nat.shiftRight_eq_div_pow, Nat.reducePow]
  omega

/-- The traces that were fetched through a replaced entry are no longer found. -/
theorem Coherent.replace (h : Coherent s) {f : Cpu → Cpu}
    (hf : Replaces s.engine.cpu (f s.engine.cpu)) :
    Coherent { s with engine := s.engine.onCpu f } := by
  obtain ⟨k, new, hnew, hmaps, hmem⟩ := hf
  have hs : Sound (s.engine.mapCpu f).host.cache := h.sound
  have hq := Engine.quiet_settle hs
  have hmaps' : (s.engine.onCpu f).cpu.maps = (s.engine.cpu.tlb.put k new, s.engine.cpu.window) :=
    hq.maps.trans hmaps
  refine ⟨hq.sound, fun j => ?_, fun {pc id} hl => ?_⟩
  · have ht : (s.engine.onCpu f).cpu.tlb = s.engine.cpu.tlb.put k new := congrArg Prod.fst hmaps'
    change ((s.engine.onCpu f).cpu.tlb.get j).Regular
    rw [ht]
    by_cases hj : k = j
    · rw [hj, Vector.get_put_self]
      exact hnew
    · rw [Vector.get_put_of_ne _ _ hj]
      exact h.regular j
  · obtain ⟨x, hx, hpc, hi⟩ := h.live (hq.live hl)
    refine ⟨x, hx, hpc, hi.put (fun hk => ?_) hmaps'⟩
    simp only [Fetch.Intact, hk] at hi
    obtain ⟨-, hc, hv, -⟩ := hi
    have hpage := TlbEntry.mem_tlbPages (h.regular k) hc
    have hout := Engine.not_mem_tlbPages_of_settle hs hmem (TlbEntry.isValid_of_page hv) hl
    rw [hpc, wordAddr_shiftRight] at hpage
    exact hout hpage

theorem Coherent.compile (h : Coherent s) (pc : UInt32) : Coherent (s.step (.compile pc)) := by
  have hc := Engine.ends_compile h.sound pc
  unfold Engine.Ends at hc
  rw [EngineSession.step]
  split
  · rename_i id e he
    rw [he] at hc
    dsimp only at hc
    obtain ⟨paddr, hp⟩ := hc.mapped
    obtain ⟨x, hx, hxpc, -, hi⟩ := Fetch.exists_of? hp
    refine ⟨hc.sound, fun k => ?_, fun {pc' i} hl => ?_⟩
    · have ht : e.cpu.tlb = s.engine.cpu.tlb := congrArg Prod.fst hc.maps
      rw [ht]
      exact h.regular k
    · rcases hc.live hl with ⟨rfl, hw⟩ | ⟨hne, hl'⟩
      · exact ⟨x, (Function.update_self ..).trans hx, hxpc.trans hw.symm, hi.of_maps hc.maps⟩
      · obtain ⟨y, hy, hypc, hyi⟩ := h.live hl'
        exact ⟨y, (Function.update_of_ne hne ..).trans hy, hypc, hyi.of_maps hc.maps⟩
  · rename_i err e he
    rw [he] at hc
    exact h.quiet hc
  · rename_i err e he
    rw [he] at hc
    exact h.quiet hc

theorem Coherent.step (h : Coherent s) (op : EngineOp) : Coherent (s.step op) := by
  cases op with
  | compile pc => exact h.compile pc
  | instruction i =>
    rcases effect_cases { s.engine.cpu with leave := 0 } i s.engine.cpu.pc with hm | hr
    · exact h.onCpu hm
    · obtain ⟨k, new, hnew, hmaps, hmem⟩ := hr
      exact h.replace (.intro k new hnew hmaps hmem)
  | writeCop0 r v => exact h.onCpu (Cpu.maps_writeCop0 _ r v)
  | writePhys paddr size v => exact h.onCpu (Cpu.maps_writePhys _ paddr size v)
  | evict =>
    rw [EngineSession.step]
    split
    · rename_i cache he
      exact h.quiet (.of_change h.sound rfl (Engine.evict_change h.sound he))
    · exact h
  | invalidateAll => exact h.quiet (Engine.quiet_invalidateAll h.sound)

theorem Coherent.run (h : Coherent s) (ops : List EngineOp) : Coherent (s.run ops) :=
  List.foldlRecOn ops EngineSession.step h fun _ h op _ => h.step op

theorem create_frame {mem : Memory} {o : Settings} {e : Engine}
    (h : Engine.create mem o = .ok e) : e.cpu.tlb = Vector.replicate 32 ⟨0, 0, 0, 0⟩ ∧
      ∃ size, e.host.cache = .create (.create size) o.maxPages 0 := by
  unfold Engine.create at h
  cases hs : Engine.arenaSize o with
  | error err =>
    rw [hs] at h
    cases h
  | ok size =>
    rw [hs] at h
    cases h
    unfold Engine.attach
    dsimp only
    split <;> exact ⟨rfl, size, rfl⟩

theorem coherent_start {mem : Memory} {o : Settings} {e : Engine}
    (h : Engine.create mem o = .ok e) : Coherent (start e) := by
  obtain ⟨ht, size, hc⟩ := create_frame h
  refine ⟨?_, fun k => ?_, fun {pc id} hl => ?_⟩
  · change Sound e.host.cache
    rw [hc]
    exact sound_create size o.maxPages 0
  · change (e.cpu.tlb.get k).Regular
    rw [ht]
    simp [TlbEntry.Regular, Vector.get]
  · change e.host.cache.lookup pc = _ at hl
    rw [hc] at hl
    simp [CodeCache.lookup, CodeCache.create] at hl

/-- A trace that can be found was fetched for its address, and what led to its words is still
there. The address leads to the same words, unless the entry is for another address space now or
one before it covers the address. -/
def Faithful (s : EngineSession) : Prop :=
  ∀ ⦃pc : UInt32⦄ ⦃id : BlockId⦄, s.engine.host.cache.lookup pc = .live id →
    ∃ x, s.fetched id = some x ∧ x.pc = wordAddr pc ∧ x.Intact s.engine.cpu ∧
      ((∀ i ∈ x.entry, ((s.engine.cpu.tlb.get i).isGlobal = true ∨ s.engine.cpu.asid = x.asid) ∧
          ∀ j < i, (s.engine.cpu.tlb.get j).covers x.pc s.engine.cpu.asid = false) →
        s.engine.cpu.physical? (wordAddr pc) false = some x.paddr)

theorem faithful_of_run {mem : Memory} {o : Settings} {e : Engine}
    (h : Engine.create mem o = .ok e) (ops : List EngineOp) : Faithful ((start e).run ops) := by
  intro pc id hl
  obtain ⟨x, hx, hpc, hi⟩ := ((coherent_start h).run ops).live hl
  exact ⟨x, hx, hpc, hi, fun hs => hpc ▸ hi.physical? hs⟩

/-- A page is mapped at `0x400000` and compiled, and then mapped a second time by an entry
before. -/
theorem faithful_of_shadow : ∃ e, Engine.create ⟨Array.replicate 1024 0, #[false], []⟩
      ⟨4096, 4, 1, 1, 1, .emulator, false⟩ = .ok e ∧
    Faithful ((start e).run [.writeCop0 Cop0.index 2, .writeCop0 Cop0.entryHi 0x400000,
      .writeCop0 Cop0.entryLo0 7, .writeCop0 Cop0.entryLo1 1, .instruction ⟨0x42000002⟩,
      .compile 0x400000, .writeCop0 Cop0.index 0, .instruction ⟨0x42000002⟩]) := by
  have h : Engine.create ⟨Array.replicate 1024 0, #[false], []⟩
    ⟨4096, 4, 1, 1, 1, .emulator, false⟩ = .ok _ := rfl
  exact ⟨_, h, faithful_of_run h _⟩

end EngineSession

end Recompiler
