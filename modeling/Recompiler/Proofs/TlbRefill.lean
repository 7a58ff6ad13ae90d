import Recompiler.Proofs.MappedTraces
import Recompiler.Proofs.PreciseExceptions
import Recompiler.Proofs.RamAccess

/-!
Missing pages and their refill. After a fault the probe tells the handler whether an entry is in its
way, and an entry that the handler writes for the address that the fault has left in its register
serves the access that has failed.
-/

namespace Recompiler

/-- The number of bytes of a page: from 4 KiB on, each size is four times the one before. -/
def pageBytes (k : Nat) : Nat := 4096 * 4 ^ k

def pageMaskOf (k : Nat) : UInt32 := UInt32.ofNat ((4 ^ k - 1) * 8192)

namespace TlbEntry

/-- May the page be accessed? Its half of an entry says if it is mapped, and if it may be
written. -/
def Allows (write : Bool) (half : UInt32) : Prop :=
  half &&& validBit ≠ 0 ∧ (write = true → half &&& dirtyBit ≠ 0)

instance (write : Bool) (half : UInt32) : Decidable (Allows write half) :=
  inferInstanceAs (Decidable (_ ∧ _))

/-- The first address of a page. Frames are counted in units of 4 KiB; addresses have 32 bits, and
pages are aligned to their size. -/
def frameBase (k : Nat) (half : UInt32) : Nat :=
  half.toNat / 64 % 1048576 * 4096 / pageBytes k * pageBytes k

def half (k : Nat) (even odd vaddr : UInt32) : UInt32 :=
  if vaddr.toNat / pageBytes k % 2 = 1 then odd else even

def target (k : Nat) (half vaddr : UInt32) : UInt32 :=
  UInt32.ofNat (frameBase k half + vaddr.toNat % pageBytes k)

theorem mask_of_pageMask {e : TlbEntry} {k : Nat} (hk : k < 7) (h : e.pageMask = pageMaskOf k) :
    e.mask = UInt32.ofNat (2 * pageBytes k - 1) := by
  rw [mask, h]
  interval_cases k <;> rfl

theorem pageMaskOf_and {k : Nat} (hk : k < 7) : pageMaskOf k &&& 0x01ffe000 = pageMaskOf k := by
  interval_cases k <;> rfl

theorem pageBytes_eq (k : Nat) : pageBytes k = 2 ^ (12 + 2 * k) := by
  rw [pageBytes, pow_add, pow_mul]
  rfl

theorem pageBytes_le {k : Nat} (hk : k < 7) : pageBytes k ≤ 16777216 := by
  interval_cases k <;> decide

theorem toNat_and_inside (v : UInt32) {k : Nat} (hk : k < 7) :
    (v &&& UInt32.ofNat (pageBytes k - 1)).toNat = v.toNat % pageBytes k := by
  have hle := pageBytes_le hk
  rw [UInt32.toNat_and, UInt32.toNat_ofNat', Nat.mod_eq_of_lt (by omega), pageBytes_eq,
    Nat.and_two_pow_sub_one_eq_mod]

theorem toNat_and_outside (v : UInt32) {k : Nat} (hk : k < 7) :
    (v &&& ~~~UInt32.ofNat (pageBytes k - 1)).toNat = v.toNat / pageBytes k * pageBytes k := by
  have hsum := and_add_and_not v (UInt32.ofNat (pageBytes k - 1))
  have hsplit := Nat.div_add_mod' v.toNat (pageBytes k)
  rw [toNat_and_inside v hk] at hsum
  omega

theorem toNat_or_inside (v w m : UInt32) :
    ((v &&& ~~~m) ||| (w &&& m)).toNat = (v &&& ~~~m).toNat + (w &&& m).toNat := by
  have hsum := and_add_and_not ((v &&& ~~~m) ||| (w &&& m)) m
  have hout : ((v &&& ~~~m) ||| (w &&& m)) &&& ~~~m = v &&& ~~~m := by
    rw [← UInt32.toBitVec_inj]
    ext i hi
    simp
    grind
  have hin : ((v &&& ~~~m) ||| (w &&& m)) &&& m = w &&& m := by
    rw [← UInt32.toBitVec_inj]
    ext i hi
    simp
    grind
  rw [hout, hin] at hsum
  exact hsum.symm

section

variable {e : TlbEntry} {k : Nat} {vaddr : UInt32}

theorem page_eq (hk : k < 7) (h : e.pageMask = pageMaskOf k) (vaddr : UInt32) :
    e.page vaddr = half k e.entryLo0 e.entryLo1 vaddr := by
  have hbit : (e.mask + 1) >>> 1 = UInt32.ofNat (2 ^ (12 + 2 * k)) := by
    rw [mask_of_pageMask hk h]
    interval_cases k <;> rfl
  have hodd : vaddr &&& UInt32.ofNat (2 ^ (12 + 2 * k)) ≠ 0 ↔
      vaddr.toNat / pageBytes k % 2 = 1 := by
    have hlt : 2 ^ (12 + 2 * k) < 2 ^ 32 := Nat.pow_lt_pow_right (by decide) (by omega)
    have hpos : 0 < 2 ^ (12 + 2 * k) := Nat.two_pow_pos _
    rw [ne_eq, ← UInt32.toNat_inj, UInt32.toNat_and, UInt32.toNat_ofNat', Nat.mod_eq_of_lt hlt,
      Nat.and_two_pow, pageBytes_eq, Nat.testBit_eq_decide_div_mod_eq]
    by_cases hbit : vaddr.toNat / 2 ^ (12 + 2 * k) % 2 = 1 <;> simp [hbit]
  rw [page, half, hbit]
  simp only [bne_iff_ne, hodd]

theorem frame_eq (hk : k < 7) (h : e.pageMask = pageMaskOf k) (half vaddr : UInt32) :
    e.frame (half &&& 0x3fffffff) vaddr = target k half vaddr := by
  have hmask : e.mask >>> 1 = UInt32.ofNat (pageBytes k - 1) := by
    rw [mask_of_pageMask hk h]
    interval_cases k <;> rfl
  have hbase : (((half &&& 0x3fffffff) >>> 6) <<< 12).toNat =
      half.toNat / 64 % 1048576 * 4096 := by
    rw [UInt32.toNat_shiftLeft, UInt32.toNat_shiftRight, UInt32.toNat_and,
      show (0x3fffffff : UInt32).toNat = 2 ^ 30 - 1 from rfl, Nat.and_two_pow_sub_one_eq_mod,
      show (6 : UInt32).toNat % 32 = 6 from rfl, show (12 : UInt32).toNat % 32 = 12 from rfl,
      Nat.shiftRight_eq_div_pow, Nat.shiftLeft_eq]
    omega
  have hsum : (e.frame (half &&& 0x3fffffff) vaddr).toNat =
      frameBase k half + vaddr.toNat % pageBytes k := by
    rw [frame, hmask, toNat_or_inside, toNat_and_outside _ hk, toNat_and_inside _ hk, hbase, frameBase]
  have hlt := (e.frame (half &&& 0x3fffffff) vaddr).toNat_lt
  apply UInt32.toNat_inj.mp
  rw [target, UInt32.toNat_ofNat', ← hsum, Nat.mod_eq_of_lt hlt]

end

end TlbEntry

namespace Cpu

variable {c d : Cpu} {vaddr : UInt32} {write : Bool} {i j : Fin 32}

/-- What a fault leaves there: the page and the address space. -/
def refillHi (c : Cpu) (vaddr : UInt32) : UInt32 := (vaddr &&& 0xffffe000) ||| c.asid

theorem entryHi_setBadAddress (c : Cpu) (vaddr : UInt32) :
    ((c.setBadAddress vaddr).sysReg Cop0.entryHi).toUInt32 = c.refillHi vaddr := by
  unfold setBadAddress
  dsimp only
  rw [sysReg_setSysReg_self, UInt64.toUInt32_or, toUInt32_sextWord, UInt64.toUInt32_and]
  rfl

theorem entryHi_enter (c : Cpu) (code : UInt32) (refill : Bool) :
    (c.enter code refill).sysReg Cop0.entryHi = c.sysReg Cop0.entryHi := by
  rw [sysReg_enter c code refill (by decide) (by decide), sysReg_keepReturn (by decide)]

theorem asid_refillHi (c : Cpu) (vaddr : UInt32) : c.refillHi vaddr &&& 0xff = c.asid := by
  rw [refillHi, asid, ← UInt32.toBitVec_inj]
  ext n hn
  simp
  interval_cases n <;> simp

theorem covers_refillHi (e : TlbEntry) (c : Cpu) (vaddr : UInt32) :
    e.covers (c.refillHi vaddr &&& ~~~(0x1fff : UInt32)) (c.refillHi vaddr &&& 0xff) =
      e.covers vaddr c.asid := by
  have hpage : c.refillHi vaddr &&& ~~~(0x1fff : UInt32) &&& ~~~e.mask = vaddr &&& ~~~e.mask := by
    rw [refillHi, asid, TlbEntry.mask, ← UInt32.toBitVec_inj]
    ext n hn
    simp
    interval_cases n <;> simp
  rw [TlbEntry.covers, TlbEntry.covers, hpage, asid_refillHi]

theorem tlbIndex?_refillHi (c : Cpu) (vaddr : UInt32) :
    c.tlbIndex? (c.refillHi vaddr &&& ~~~(0x1fff : UInt32)) (c.refillHi vaddr &&& 0xff) =
      c.tlbIndex? vaddr c.asid := by
  unfold tlbIndex?
  congr 1
  funext i
  exact covers_refillHi _ c vaddr

theorem tlbIndex?_eq_none {asid : UInt32} :
    c.tlbIndex? vaddr asid = none ↔ ∀ i, (c.tlb.get i).covers vaddr asid = false := by
  rw [tlbIndex?, List.find?_eq_none]
  constructor
  · intro h i
    exact Bool.not_eq_true _ ▸ h i (List.mem_finRange i)
  · intro h i _
    rw [h i]
    decide

/-- A state between the fault of `c` at an address and the end of its handler: the lookaside buffer
is the same, and the page still stands in its register. -/
structure Handles (c : Cpu) (vaddr : UInt32) (d : Cpu) : Prop where
  tlb : d.tlb = c.tlb
  window : d.window = c.window
  entryHi : (d.sysReg Cop0.entryHi).toUInt32 = c.refillHi vaddr

theorem handles_enter (c : Cpu) (vaddr code : UInt32) (refill : Bool) :
    c.Handles vaddr ((c.setBadAddress vaddr).enter code refill) := by
  constructor
  · rw [same_enter]
    rfl
  · rw [same_enter]
    rfl
  · rw [entryHi_enter, entryHi_setBadAddress]

namespace Handles

theorem setSysReg (h : c.Handles vaddr d) {r : Reg} (hr : r ≠ Cop0.entryHi) (v : UInt64) :
    c.Handles vaddr (d.setSysReg r v) := by
  constructor
  · exact h.tlb
  · exact h.window
  · rw [sysReg_setSysReg_of_ne hr, h.entryHi]

theorem asid (h : c.Handles vaddr d) : d.asid = c.asid := by
  rw [Cpu.asid, h.entryHi, asid_refillHi]

theorem probe (h : c.Handles vaddr d) : d.tlbProbe.sysReg Cop0.index =
    match c.tlbIndex? vaddr c.asid with
    | some i => UInt64.ofNat i.val
    | none => 0x80000000 := by
  have hindex (v a : UInt32) : d.tlbIndex? v a = c.tlbIndex? v a := by
    rw [tlbIndex?, tlbIndex?, h.tlb]
  unfold tlbProbe
  dsimp only
  rw [h.entryHi, hindex, tlbIndex?_refillHi]
  cases c.tlbIndex? vaddr c.asid with
  | none => exact sysReg_setSysReg_self _ _ _
  | some i => exact sysReg_setSysReg_self _ _ _

theorem covers_pendingEntry (h : c.Handles vaddr d) : d.pendingEntry.covers vaddr c.asid = true := by
  have hpage : vaddr &&& ~~~d.pendingEntry.mask =
      d.pendingEntry.entryHi &&& ~~~d.pendingEntry.mask := by
    rw [pendingEntry, TlbEntry.mask, h.entryHi, refillHi, Cpu.asid, ← UInt32.toBitVec_inj]
    ext n hn
    simp
    interval_cases n <;> simp
  have hasid : d.pendingEntry.entryHi &&& 0xff = c.asid := by
    rw [pendingEntry, h.entryHi, refillHi, Cpu.asid, ← UInt32.toBitVec_inj]
    ext n hn
    simp
    interval_cases n <;> simp
  exact TlbEntry.covers_iff.mpr ⟨hpage, .inr hasid⟩

end Handles

theorem get_tlbWriteAt_self (d : Cpu) (i : Fin 32) :
    (d.tlbWriteAt i).tlb.get i = d.pendingEntry :=
  Vector.get_put_self _ _ _

theorem get_tlbWriteAt_of_ne (d : Cpu) (h : i ≠ j) : (d.tlbWriteAt i).tlb.get j = d.tlb.get j :=
  Vector.get_put_of_ne _ _ h

theorem directAddress?_eq_none (hw : c.window = none) (hu : isUnmapped vaddr = false) :
    c.directAddress? vaddr = none := by
  have hwindow : c.windowAddress? vaddr = none := by
    rw [windowAddress?, hw]
  rw [directAddress?, hwindow, hu]
  rfl

theorem toPhysical_of_index {e : TlbEntry} (hw : c.window = none) (hu : isUnmapped vaddr = false)
    (hi : c.tlbIndex? vaddr c.asid = some i) (he : c.tlb.get i = e) (write : Bool) :
    (c.toPhysical vaddr write).1 =
      if TlbEntry.Allows write (e.page vaddr) then some (e.frame (e.page vaddr) vaddr) else none := by
  rw [toPhysical, lookup_eq_lookupTlb (directAddress?_eq_none hw hu), lookupTlb, hi]
  dsimp only
  rw [he]
  by_cases hv : e.page vaddr &&& TlbEntry.validBit = 0
  · have hdenied : ¬ TlbEntry.Allows write (e.page vaddr) := fun ha => ha.1 hv
    rw [if_neg hdenied, if_pos (beq_iff_eq.mpr hv)]
  · rw [if_neg (mt beq_iff_eq.mp hv)]
    by_cases hd : (write && e.page vaddr &&& TlbEntry.dirtyBit == 0) = true
    · obtain ⟨hwrite, hclean⟩ := Bool.and_eq_true_iff.mp hd
      have hdenied : ¬ TlbEntry.Allows write (e.page vaddr) :=
        fun ha => ha.2 hwrite (beq_iff_eq.mp hclean)
      rw [if_neg hdenied, if_pos hd]
    · have hallows : TlbEntry.Allows write (e.page vaddr) :=
        ⟨hv, fun hwrite hclean => hd (Bool.and_eq_true_iff.mpr ⟨hwrite, beq_iff_eq.mpr hclean⟩)⟩
      rw [if_pos hallows, if_neg hd]

theorem lookup_miss_iff (hw : c.window = none) (hu : isUnmapped vaddr = false) :
    c.lookup vaddr write = .miss ↔ c.tlbIndex? vaddr c.asid = none := by
  rw [lookup_eq_lookupTlb (directAddress?_eq_none hw hu), lookupTlb]
  cases c.tlbIndex? vaddr c.asid with
  | none => exact ⟨fun _ => rfl, fun _ => rfl⟩
  | some i =>
    dsimp only
    constructor
    · intro h
      split at h
      · cases h
      · split at h <;> cases h
    · intro h
      cases h

theorem index_of_invalid (hw : c.window = none) (hu : isUnmapped vaddr = false)
    (h : c.lookup vaddr write = .invalid) : ∃ i, c.tlbIndex? vaddr c.asid = some i ∧
      (c.tlb.get i).page vaddr &&& TlbEntry.validBit = 0 := by
  rw [lookup_eq_lookupTlb (directAddress?_eq_none hw hu), lookupTlb] at h
  cases hi : c.tlbIndex? vaddr c.asid with
  | none =>
    rw [hi] at h
    cases h
  | some i =>
    rw [hi] at h
    dsimp only at h
    split at h
    · rename_i hv
      exact ⟨i, rfl, beq_iff_eq.mp hv⟩
    · split at h <;> cases h

theorem index_of_modified (hw : c.window = none) (hu : isUnmapped vaddr = false)
    (h : c.lookup vaddr write = .modified) : ∃ i, c.tlbIndex? vaddr c.asid = some i ∧
      (c.tlb.get i).page vaddr &&& TlbEntry.validBit ≠ 0 ∧ write = true ∧
      (c.tlb.get i).page vaddr &&& TlbEntry.dirtyBit = 0 := by
  rw [lookup_eq_lookupTlb (directAddress?_eq_none hw hu), lookupTlb] at h
  cases hi : c.tlbIndex? vaddr c.asid with
  | none =>
    rw [hi] at h
    cases h
  | some i =>
    rw [hi] at h
    dsimp only at h
    split at h
    · cases h
    · rename_i hv
      split at h
      · rename_i hd
        obtain ⟨hwrite, hclean⟩ := Bool.and_eq_true_iff.mp hd
        exact ⟨i, rfl, mt beq_iff_eq.mpr hv, hwrite, beq_iff_eq.mp hclean⟩
      · cases h

def pendingHalf (d : Cpu) (k : Nat) (vaddr : UInt32) : UInt32 :=
  TlbEntry.half k (d.sysReg Cop0.entryLo0).toUInt32 (d.sysReg Cop0.entryLo1).toUInt32 vaddr

theorem page_pendingEntry {k : Nat} (hk : k < 7)
    (hmask : (d.sysReg Cop0.pageMask).toUInt32 = pageMaskOf k) (vaddr : UInt32) :
    d.pendingEntry.pageMask = pageMaskOf k ∧
      d.pendingEntry.page vaddr = d.pendingHalf k vaddr &&& 0x3fffffff := by
  have hpm : d.pendingEntry.pageMask = pageMaskOf k := by
    change (d.sysReg Cop0.pageMask).toUInt32 &&& 0x01ffe000 = _
    rw [hmask, TlbEntry.pageMaskOf_and hk]
  refine ⟨hpm, ?_⟩
  rw [TlbEntry.page_eq hk hpm, pendingHalf, TlbEntry.half, TlbEntry.half, apply_ite (· &&& 0x3fffffff)]
  rfl

theorem Handles.toPhysical_tlbWriteAt (h : c.Handles vaddr d) (hw : c.window = none)
    (hu : isUnmapped vaddr = false) (hmiss : c.tlbIndex? vaddr c.asid = none) {k : Nat} (hk : k < 7)
    (hmask : (d.sysReg Cop0.pageMask).toUInt32 = pageMaskOf k) (i : Fin 32) (write : Bool) :
    ((d.tlbWriteAt i).toPhysical vaddr write).1 =
      if TlbEntry.Allows write (d.pendingHalf k vaddr) then
        some (TlbEntry.target k (d.pendingHalf k vaddr) vaddr)
      else none := by
  obtain ⟨hpm, hpage⟩ := page_pendingEntry hk hmask vaddr
  have hasid : (d.tlbWriteAt i).asid = c.asid := h.asid
  have hindex : (d.tlbWriteAt i).tlbIndex? vaddr (d.tlbWriteAt i).asid = some i := by
    rw [hasid, tlbIndex?_eq_some, get_tlbWriteAt_self]
    refine ⟨h.covers_pendingEntry, fun j hj => ?_⟩
    rw [get_tlbWriteAt_of_ne d (Fin.ne_of_gt hj), h.tlb]
    exact tlbIndex?_eq_none.mp hmiss j
  have hwindow : (d.tlbWriteAt i).window = none := h.window.trans hw
  have hallows : TlbEntry.Allows write (d.pendingHalf k vaddr &&& 0x3fffffff) ↔
      TlbEntry.Allows write (d.pendingHalf k vaddr) := by
    rw [TlbEntry.Allows, UInt32.and_assoc, UInt32.and_assoc]
    exact Iff.rfl
  rw [toPhysical_of_index hwindow hu hindex (get_tlbWriteAt_self d i), hpage,
    TlbEntry.frame_eq hk hpm]
  exact if_congr hallows rfl rfl

/-- Faults, the probe and the refill fit together. Outside the unmapped segments, and without a
window, an access that no entry matches raises the refill, after which the probe finds no entry; and
one that the entry found does not allow raises its exception, after which the probe gives that
entry. After a refill, whatever entry the handler writes for the page, in whatever place, leads to
the selected page, if it is mapped, and for a write if it may be written. -/
theorem toPhysical_fault (hw : c.window = none) (hu : isUnmapped vaddr = false) (write : Bool) :
    (c.lookup vaddr write = .miss →
      c.toPhysical vaddr write = (none, c.raiseRefill vaddr write) ∧
      (c.raiseRefill vaddr write).tlbProbe.sysReg Cop0.index = 0x80000000 ∧
      ∀ d d' : Cpu, d.tlb = c.tlb → d.window = none →
        d.sysReg Cop0.entryHi = (c.raiseRefill vaddr write).sysReg Cop0.entryHi →
        (d' = d.tlbWriteIndexed ∨ d' = d.tlbWriteRandom) →
        ∀ k < 7, (d.sysReg Cop0.pageMask).toUInt32 = pageMaskOf k →
          (d'.toPhysical vaddr write).1 =
            if TlbEntry.Allows write (d.pendingHalf k vaddr) then
              some (TlbEntry.target k (d.pendingHalf k vaddr) vaddr)
            else none) ∧
    (c.lookup vaddr write = .invalid →
      c.toPhysical vaddr write = (none, c.raiseTlb vaddr (.tlb write)) ∧
      ∃ i, c.tlbIndex? vaddr c.asid = some i ∧
        (c.tlb.get i).page vaddr &&& TlbEntry.validBit = 0 ∧
        (c.raiseTlb vaddr (.tlb write)).tlbProbe.sysReg Cop0.index = UInt64.ofNat i.val) ∧
    (c.lookup vaddr write = .modified →
      c.toPhysical vaddr write = (none, c.raiseTlb vaddr .tlbModified) ∧
      ∃ i, c.tlbIndex? vaddr c.asid = some i ∧
        ((c.tlb.get i).page vaddr &&& TlbEntry.validBit ≠ 0 ∧ write = true ∧
          (c.tlb.get i).page vaddr &&& TlbEntry.dirtyBit = 0) ∧
        (c.raiseTlb vaddr .tlbModified).tlbProbe.sysReg Cop0.index = UInt64.ofNat i.val) := by
  refine ⟨fun h => ?_, fun h => ?_, fun h => ?_⟩
  · have hmiss := (lookup_miss_iff hw hu).mp h
    have hfault : c.Handles vaddr (c.raiseRefill vaddr write) := handles_enter ..
    refine ⟨by rw [toPhysical, h], by rw [hfault.probe, hmiss], ?_⟩
    intro d d' htlb hwindow hhi hd' k hk hmask
    have hd : c.Handles vaddr d :=
      ⟨htlb, hwindow.trans hw.symm, (congrArg UInt64.toUInt32 hhi).trans hfault.entryHi⟩
    obtain rfl | rfl := hd' <;> exact hd.toPhysical_tlbWriteAt hw hu hmiss hk hmask _ write
  · obtain ⟨i, hi, hpage⟩ := index_of_invalid hw hu h
    have hfault : c.Handles vaddr (c.raiseTlb vaddr (.tlb write)) := handles_enter ..
    exact ⟨by rw [toPhysical, h], i, hi, hpage, by rw [hfault.probe, hi]⟩
  · obtain ⟨i, hi, hpage⟩ := index_of_modified hw hu h
    have hfault : c.Handles vaddr (c.raiseTlb vaddr .tlbModified) := handles_enter ..
    exact ⟨by rw [toPhysical, h], i, hi, hpage, by rw [hfault.probe, hi]⟩

/-- A store to an address that no entry maps, with a page of 16 KiB that may be read only. -/
theorem toPhysical_fault_readOnly :
    let c : Cpu := (.powerOn ⟨#[], #[], []⟩ none)
    let d := (((c.raiseRefill 0x00405678 true).setSysReg Cop0.pageMask 0x6000).setSysReg
      Cop0.entryLo1 0x1042).setSysReg Cop0.index 5
    c.lookup 0x00405678 true = .miss ∧ (d.tlbWriteIndexed.toPhysical 0x00405678 true).1 = none ∧
      (d.tlbWriteIndexed.toPhysical 0x00405678 false).1 = some 0x00041678 := by
  intro c d
  have hmiss (write : Bool) : c.lookup 0x00405678 write = .miss := by
    cases write <;> decide +kernel
  have hhi (write : Bool) :
      d.sysReg Cop0.entryHi = (c.raiseRefill 0x00405678 write).sysReg Cop0.entryHi := by
    rw [sysReg_setSysReg_of_ne (by decide), sysReg_setSysReg_of_ne (by decide),
      sysReg_setSysReg_of_ne (by decide), raiseRefill, raiseRefill, entryHi_enter, entryHi_enter]
  have hmask : (d.sysReg Cop0.pageMask).toUInt32 = pageMaskOf 1 := by
    rw [sysReg_setSysReg_of_ne (by decide), sysReg_setSysReg_of_ne (by decide),
      sysReg_setSysReg_self]
    rfl
  have hodd : (d.sysReg Cop0.entryLo1).toUInt32 = 0x1042 := by
    rw [sysReg_setSysReg_of_ne (by decide), sysReg_setSysReg_self]
    rfl
  have hhalf : d.pendingHalf 1 0x00405678 = 0x1042 := by
    rw [pendingHalf, hodd, TlbEntry.half, if_pos (by decide)]
  have hd : c.Handles 0x00405678 d :=
    (((handles_enter c 0x00405678 (Exception.tlb true).code true).setSysReg (by decide)
      0x6000).setSysReg (by decide) 0x1042).setSysReg (by decide) 5
  have hserve (write : Bool) := ((toPhysical_fault (c := c) rfl (by decide) write).1
    (hmiss write)).2.2 d d.tlbWriteIndexed hd.tlb (hd.window.trans rfl) (hhi write) (.inl rfl) 1
    (by decide) hmask
  refine ⟨hmiss true, ?_, ?_⟩
  · rw [hserve, hhalf]
    decide +kernel
  · rw [hserve, hhalf]
    decide +kernel

end Cpu

end Recompiler
