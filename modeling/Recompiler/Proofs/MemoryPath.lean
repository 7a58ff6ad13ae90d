import Recompiler.Proofs.FpTransfers
import Recompiler.Proofs.Releases

/-!
The fast and slow paths of inline loads and stores, as parts of the program of a trace.
-/

namespace Recompiler

open Ir Emit

variable {W : Finished} {links : Links} {cfg : Config} {s : Site} {i : Recompiler.Instr} {g : Cpu}

/-- The end of an instruction keeps what the registers hold. -/
theorem Embodies.ended {c : HostCache} {m : Machine Cpu} (h : Embodies c m g)
    (hfit : c.builder.exhausted = false) : Embodies c.ended m g := by
  obtain ⟨g₀, ha, hf⟩ := h.layers
  have hbuilder : c.bare.ended.builder = c.builder := by
    unfold HostCache.ended
    dsimp only
    split <;> rfl
  obtain ⟨m', he, ha', -⟩ := Releases.ended c.bare m g₀ ha
  have hsame : m' = m := by
    have hnone : c.bare.ended.builder = [].foldl Builder.add c.bare.builder := hbuilder
    refine he.eq_of_addAll ?_ hnone
    rw [hbuilder]
    exact hfit
  subst hsame
  have hbare : Vector.replicate 8 .empty = c.bare.ended.fpSlots := by
    unfold HostCache.ended
    dsimp only
    split
    · change _ = (Vector.replicate 8 FpSlot.empty).map HostCache.endFpSlot
      rw [Vector.map_replicate]
      rfl
    · rfl
  have hfp (r : Fin 8) : (c.ended.fpSlots.get r).content = (c.fpSlots.get r).content ∧
      (c.ended.fpSlots.get r).dirty = (c.fpSlots.get r).dirty := by
    unfold HostCache.ended
    dsimp only
    split
    · rw [Vector.get_map]
      exact ⟨rfl, rfl⟩
    · exact ⟨rfl, rfl⟩
  refine ⟨⟨g₀, ?_, hf.of_slots hfp⟩, fun r off hr => ?_⟩
  · refine ha'.of_slots (fun r => ?_) hbare
    have hslot : c.ended.bare.slot r = c.bare.ended.slot r := by
      rw [Releases.slot_ended]
      exact Releases.slot_ended c r
    rw [hslot]
    exact .refl _
  · rw [Releases.slot_ended] at hr
    split at hr
    · unfold HostCache.endSlot at hr
      split at hr
      · cases hr
      · exact h.clear r off hr
    · exact h.clear r off hr

namespace Instr

/-- The size of an access that has inline code, and if it is a store. -/
def access? (i : Instr) : Option (Size × Bool) :=
  match i.kind with
  | .load op => some (Interp.loadSize op, false)
  | .store size => some (size, true)
  | .loadFp width => some (Interp.widthSize width, false)
  | .storeFp width => some (Interp.widthSize width, true)
  | _ => none

end Instr

theorem Performs.ended {size : Size} {isStore : Bool} {e : Emitter} {m m' : Machine Cpu}
    {ts : List Touch} (h : Performs W links s i size isStore e m g ts m')
    (hp : e.Precedes W.emitter) :
    Performs W links s i size isStore { e with cache := e.cache.ended } m g ts m' := by
  have hbuilder : e.cache.ended.builder = e.cache.builder := by
    unfold HostCache.ended
    dsimp only
    split <;> rfl
  refine ⟨h.walk, h.inside, h.reaches, fun hd => ?_, fun hd => ?_⟩
  · obtain ⟨⟨hprogram, hpc⟩, hm⟩ := h.fast hd
    refine ⟨⟨hprogram, ?_⟩, hm.ended (Finished.fits_of_precedes hp.builder)⟩
    change m'.pc = e.cache.ended.builder.code.size
    rw [hbuilder, hpc]
  · obtain ⟨stub, hstub, hsite, hop, hprogram, hpc, haddr, hm⟩ := h.slow hd
    exact ⟨stub, hstub, hsite, hop, hprogram, hpc, haddr,
      hm.congr rfl rfl (fun _ => rfl) rfl rfl⟩

/-- An inline load or store takes its fast path exactly if the address is naturally aligned and
leads to RAM through an unmapped segment, and the page of a store holds no code. The fast path
stays inside RAM and the table of marks and has the effect of the instruction. -/
theorem Emit.instr_performs (W : Finished) (links : Links) (cfg : Config) (s : Site)
    (i : Recompiler.Instr) {size : Size} {isStore : Bool} (hk : i.access? = some (size, isStore))
    {e e' : Emitter} {m : Machine Cpu} {g : Cpu} (hx : instr cfg s i e = .ok () e')
    (hp : e'.Precedes W.emitter) (hat : W.At e.cache.builder m) (hm : Embodies e.cache m g)
    (hmem : g.mem.Created) (hram : cfg.ramSize = UInt32.ofNat g.mem.size)
    (hdev : ∀ p : UInt32, p.toNat < g.mem.size → g.mem.deviceAt? p = none)
    (hwide : ∀ width, i.kind = .loadFp width ∨ i.kind = .storeFp width →
      cfg.wideFp = g.wideFpRegs) :
    ∃ ts m', Performs W links s i size isStore e' m g ts m' := by
  have hnop : i.isNop = false := by
    cases hn : i.isNop with
    | false => rfl
    | true =>
      have hi : i = .nop := by simpa [Instr.isNop] using hn
      subst hi
      cases hk
  have hinline : ∃ f, inline? cfg s i = some f ∧ ∀ e₁ e₂, f e₁ = .ok () e₂ →
      e₂.Precedes W.emitter → W.At e₁.cache.builder m → Embodies e₁.cache m g →
      ∃ ts m', Performs W links s i size isStore e₂ m g ts m' := by
    unfold Instr.access? at hk
    unfold inline?
    split at hk
    · rename_i op hkind
      cases hk
      rw [hkind]
      exact ⟨_, rfl, fun _ _ h h₂ h₃ h₄ => performs_load links hkind h h₂ h₃ h₄ hmem hram hdev⟩
    · rename_i size hkind
      cases hk
      rw [hkind]
      exact ⟨_, rfl, fun _ _ h h₂ h₃ h₄ => performs_store links hkind h h₂ h₃ h₄ hmem hram hdev⟩
    · rename_i width hkind
      cases hk
      rw [hkind]
      exact ⟨_, rfl, fun _ _ h h₂ h₃ h₄ => performs_loadFp links hkind h h₂ h₃ h₄ hmem hram hdev
        (hwide width (.inl hkind))⟩
    · rename_i width hkind
      cases hk
      rw [hkind]
      exact ⟨_, rfl, fun _ _ h h₂ h₃ h₄ => performs_storeFp links hkind h h₂ h₃ h₄ hmem hram hdev
        (hwide width (.inr hkind))⟩
    · cases hk
  obtain ⟨f, hf, hperforms⟩ := hinline
  unfold instr at hx
  rw [hnop] at hx
  obtain ⟨_, e₁, hstart, hx⟩ := bind_ok hx
  obtain ⟨_, e₂, hcode, hend⟩ := bind_ok hx
  rw [hf] at hcode
  cases hstart
  have hp₂ : e₂.Precedes W.emitter := (Grows.precedes hend).trans hp
  obtain ⟨ts, m', h⟩ := hperforms _ e₂ hcode hp₂ hat (hm.congr rfl rfl (fun _ => rfl) rfl rfl)
  obtain ⟨hended, he'⟩ := onCache_run hend
  rw [endOp_ok hended] at he'
  rw [he']
  exact ⟨ts, m', h.ended hp₂⟩

theorem Emit.one_of_ofTrace {pc : UInt32} {cells : List Nat} {op : TraceOp} {t : TraceProgram}
    (h : TraceProgram.ofTrace cfg cells pc [op] = .ok t)
    (hb : op.boundary = .continue) : ∃ (W : Finished) (e' : Emitter), W.program = t.program ∧
      instr cfg ⟨pc, 0, false, op.widths⟩ op.instr (.create cfg cells) = .ok () e' ∧
      e'.Precedes W.emitter := by
  obtain ⟨W, hwhole, hprogram⟩ := TraceProgram.ofTrace_ok h
  obtain ⟨_, e₂, hbody, hstubs⟩ := bind_ok hwhole
  obtain ⟨_, _, hget, hstubs⟩ := bind_ok hstubs
  cases hget
  rw [← Array.forIn_toList] at hstubs
  have hp₂ : e₂.Precedes W.emitter := Grows.precedes hstubs
  unfold body at hbody
  dsimp only at hbody
  rw [hb] at hbody
  split at hbody
  · obtain ⟨_, _, hthrow, -⟩ := bind_ok hbody
    cases hthrow
  · obtain ⟨_, e₁, hinstr, hexit⟩ := bind_ok hbody
    unfold body at hexit
    refine ⟨W, e₁, hprogram, ?_, (Grows.precedes hexit).trans hp₂⟩
    simpa using hinstr

def byteLoad : TraceOp := ⟨⟨0x80880005⟩, ⟨0x80880005⟩, .continue, .fresh, .fresh, false, false⟩

def byteState : Cpu :=
  (Cpu.powerOn ⟨(Array.replicate 1024 0).setIfInBounds 1 0xf000, #[false], []⟩ none).setReg 4
    0x80000001

theorem Emit.instr_performs_lb : ∃ W e' ts m',
    Performs W .none ⟨0x80000000, 0, false, .fresh⟩ byteLoad.instr .byte false e'
      (.start W.program byteState) byteState ts m' ∧
    (∃ t ∈ ts, t.isRam = true) ∧
    ∃ g', Embodies e'.cache m' g' ∧ g'.reg 8 = 0xfffffffffffffff0 := by
  have hprogram : (TraceProgram.ofTrace ⟨2, 4096, true, none⟩ [] 0x80000000
      [byteLoad]).toOption.isSome = true := by
    decide +kernel
  cases ht : TraceProgram.ofTrace ⟨2, 4096, true, none⟩ [] 0x80000000 [byteLoad] with
  | error =>
    rw [ht] at hprogram
    cases hprogram
  | ok t =>
    obtain ⟨W, e', -, hinstr, hp⟩ := one_of_ofTrace ht rfl
    have hzero : byteState.reg .zero = 0 := by decide +kernel
    have hsize : byteState.mem.ram.size = 1024 := by decide +kernel
    have hwide : byteState.wideFpRegs = true := by decide +kernel
    have hvalue : (Interp.effect byteState byteLoad.instr 0x80000000).reg 8 =
        0xfffffffffffffff0 := by
      decide +kernel
    have hdirect : Direct byteState.mem (Interp.effective byteState byteLoad.instr) .byte false := by
      refine ⟨?_, ?_, ?_, ?_, nofun⟩ <;> decide +kernel
    obtain ⟨ts, m', h⟩ := instr_performs W .none _ _ _ rfl hinstr hp ⟨rfl, rfl⟩
      (.create _ (.start W.program byteState) hzero)
      ⟨4096, _, rfl, hsize.trans Array.size_replicate.symm, rfl⟩
      (congrArg (fun n => UInt32.ofNat (n * 4)) hsize).symm (fun _ _ => rfl) fun _ _ => hwide.symm
    exact ⟨W, e', ts, m', h, h.reaches.mpr hdirect, _, (h.fast hdirect).2, hvalue⟩

end Recompiler
