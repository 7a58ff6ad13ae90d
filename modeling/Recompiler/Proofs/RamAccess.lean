import Recompiler.Proofs.Embodiment

/-!
Accesses to RAM as the host makes them. A naturally aligned access through an unmapped segment reads
and writes what the CPU does at that address, with the place of a byte or half moved inside its
word.
-/

namespace Recompiler

open Ir

theorem xor_place {n k : Nat} (hk : k < 4) : (n ^^^ k) / 4 = n / 4 ∧ (n ^^^ k) % 4 = n % 4 ^^^ k := by
  have hdiv := Nat.xor_div_two_pow (a := n) (b := k) (n := 2)
  have hmod := Nat.xor_mod_two_pow (a := n) (b := k) (n := 2)
  rw [show 2 ^ 2 = 4 from rfl, Nat.div_eq_of_lt hk, Nat.xor_zero] at hdiv
  rw [show 2 ^ 2 = 4 from rfl, Nat.mod_eq_of_lt hk] at hmod
  exact ⟨hdiv, hmod⟩

theorem join_bytes {w s : UInt32} (h : s = 0 ∨ s = 16) :
    ((w >>> s) &&& (0xff : UInt32)) ||| (((w >>> (s + 8)) &&& (0xff : UInt32)) <<< (8 : UInt32)) =
      (w >>> s) &&& (0xffff : UInt32) := by
  apply UInt32.eq_of_toBitVec_eq
  ext i hi
  rcases h with rfl | rfl <;> simp <;> interval_cases i <;> simp

theorem merge_bytes {w v s : UInt32} (h : s = 0 ∨ s = 16) :
    Memory.mergeWord (Memory.mergeWord w 0xff v s) 0xff (v >>> 8) (s + 8) =
      Memory.mergeWord w 0xffff v s := by
  apply UInt32.eq_of_toBitVec_eq
  ext i hi
  rcases h with rfl | rfl <;> simp [Memory.mergeWord] <;> interval_cases i <;> simp

namespace Memory

def place (p : UInt32) : Size → UInt32
  | .byte => p ^^^ 3
  | .half => p ^^^ 2
  | .word | .double => p

/-- A naturally aligned access that lies in RAM. -/
structure Holds (mem : Memory) (p : UInt32) (size : Size) : Prop where
  fits : p.toNat + size.bytes.toNat ≤ mem.size
  aligned : p.toNat % size.bytes.toNat = 0

variable {mem : Memory} {p : UInt32}

theorem toNat_place (p : UInt32) : (place p .byte).toNat = p.toNat ^^^ 3 ∧
    (place p .half).toNat = p.toNat ^^^ 2 :=
  ⟨UInt32.toNat_xor p 3, UInt32.toNat_xor p 2⟩

theorem toNat_index (p : UInt32) : (p >>> 2).toNat = p.toNat / 4 := by
  rw [UInt32.toNat_shiftRight, show (2 : UInt32).toNat % 32 = 2 from rfl, Nat.shiftRight_eq_div_pow]

theorem and_three (p : UInt32) : p &&& 3 = UInt32.ofNat (p.toNat % 4) := by
  apply UInt32.toNat_inj.mp
  rw [UInt32.toNat_and, show (3 : UInt32).toNat = 2 ^ 2 - 1 from rfl, Nat.and_two_pow_sub_one_eq_mod,
    UInt32.toNat_ofNat']
  omega

theorem byteShift_place (p : UInt32) : HostRam.byteShift (place p .byte).toNat = byteShift p := by
  have hmod := (xor_place (n := p.toNat) (k := 3) (by decide)).2
  rw [HostRam.byteShift, (toNat_place p).1, hmod, byteShift, and_three]
  have hlt := Nat.mod_lt p.toNat (show 4 > 0 by decide)
  interval_cases p.toNat % 4 <;> rfl

/-- The bytes of a half are in one word. -/
theorem half_places (h : p.toNat % 2 = 0) : ∃ s : UInt32, (s = 0 ∨ s = 16) ∧ halfShift p = s ∧
    HostRam.byteShift (place p .half).toNat = s ∧
    HostRam.byteShift ((place p .half).toNat + 1) = s + 8 ∧
    (place p .half).toNat / 4 = p.toNat / 4 ∧ ((place p .half).toNat + 1) / 4 = p.toNat / 4 := by
  obtain ⟨hdiv, hmod⟩ := xor_place (n := p.toNat) (k := 2) (by decide)
  rw [(toNat_place p).2]
  have htwo : p &&& 2 = UInt32.ofNat (p.toNat % 4) &&& 2 := by
    rw [← and_three, UInt32.and_assoc]
    rfl
  have hcases : p.toNat % 4 = 0 ∨ p.toNat % 4 = 2 := by omega
  rcases hcases with hp | hp <;> rw [hp] at hmod htwo
  · replace hmod : (p.toNat ^^^ 2) % 4 = 2 := hmod
    have hnext : ((p.toNat ^^^ 2) + 1) % 4 = 3 := by omega
    refine ⟨16, .inr rfl, ?_, ?_, ?_, hdiv, by omega⟩
    · rw [halfShift, htwo]
      rfl
    · rw [HostRam.byteShift, hmod]
      rfl
    · rw [HostRam.byteShift, hnext]
      rfl
  · replace hmod : (p.toNat ^^^ 2) % 4 = 0 := hmod
    have hnext : ((p.toNat ^^^ 2) + 1) % 4 = 1 := by omega
    refine ⟨0, .inl rfl, ?_, ?_, ?_, hdiv, by omega⟩
    · rw [halfShift, htwo]
      rfl
    · rw [HostRam.byteShift, hmod]
      rfl
    · rw [HostRam.byteShift, hnext]
      rfl

theorem Holds.inRam {size : Size} (h : mem.Holds p size) : mem.inRam p size.bytes = true :=
  decide_eq_true h.fits

theorem byte_place (h : mem.Holds p .byte) :
    (HostRam.byte mem.ram (place p .byte).toNat).toUInt64 = mem.readRam p .byte := by
  have hdiv := (xor_place (n := p.toNat) (k := 3) (by decide)).1
  rw [readRam, if_pos h.inRam, HostRam.byte, byteShift_place, (toNat_place p).1, hdiv, toNat_index]
  rfl

theorem half_place (h : mem.Holds p .half) :
    (HostRam.half mem.ram (place p .half).toNat).toUInt64 = mem.readRam p .half := by
  obtain ⟨s, hs, hshift, hfirst, hsecond, hdiv, hdiv'⟩ := half_places h.aligned
  rw [readRam, if_pos h.inRam, HostRam.half, HostRam.byte, HostRam.byte, hfirst, hsecond, hdiv, hdiv',
    join_bytes hs, toNat_index, hshift]
  rfl

theorem word_place {n : Nat} (h : n % 4 = 0) : HostRam.word mem.ram n = mem.wordAt (n / 4) := by
  rw [HostRam.word, if_pos h, wordAt]

theorem Holds.mod_four (h : mem.Holds p .double) : p.toNat % 4 = 0 := by
  have h8 : p.toNat % 8 = 0 := h.aligned
  omega

theorem readRam_word (h : mem.Holds p .word) :
    mem.readRam p .word = (HostRam.word mem.ram p.toNat).toUInt64 := by
  rw [readRam, if_pos h.inRam, word_place h.aligned, toNat_index]

theorem readRam_double (h : mem.Holds p .double) : mem.readRam p .double =
    joinWords (HostRam.word mem.ram p.toNat) (HostRam.word mem.ram (p.toNat + 4)) := by
  have hmod := h.mod_four
  rw [readRam, if_pos h.inRam, word_place hmod, word_place (by omega), toNat_index,
    Nat.add_div_right _ (by decide)]

theorem getD_setIfInBounds {ram : Array UInt32} {k : Nat} (h : k < ram.size) (v : UInt32) :
    (ram.setIfInBounds k v).getD k 0 = v := by
  rw [Array.getD_eq_getD_getElem?, Array.getElem?_setIfInBounds_self_of_lt h]
  rfl

theorem setByte_place (h : mem.Holds p .byte) (v : UInt64) :
    { mem with ram := HostRam.setByte mem.ram (place p .byte).toNat v.toUInt32 } =
      mem.writeRam p .byte v := by
  have hdiv := (xor_place (n := p.toNat) (k := 3) (by decide)).1
  rw [writeRam, if_pos h.inRam, HostRam.setByte, byteShift_place, (toNat_place p).1, hdiv, toNat_index]
  rfl

theorem setHalf_place (h : mem.Holds p .half) (v : UInt64) :
    { mem with ram := HostRam.setHalf mem.ram (place p .half).toNat v.toUInt32 } =
      mem.writeRam p .half v := by
  obtain ⟨s, hs, hshift, hfirst, hsecond, hdiv, hdiv'⟩ := half_places h.aligned
  have hlt : p.toNat / 4 < mem.ram.size := by
    have hfits : p.toNat + 2 ≤ mem.ram.size * 4 := h.fits
    omega
  rw [writeRam, if_pos h.inRam, HostRam.setHalf, HostRam.setByte, HostRam.setByte, hfirst, hsecond,
    hdiv, hdiv', getD_setIfInBounds hlt, Array.setIfInBounds_setIfInBounds, toNat_index, hshift]
  exact congrArg (fun w => { mem with ram := mem.ram.setIfInBounds (p.toNat / 4) w })
    (merge_bytes hs)

theorem setWord_place (ram : Array UInt32) {n : Nat} (h : n % 4 = 0) (v : UInt32) :
    HostRam.setWord ram n v = ram.setIfInBounds (n / 4) v := by
  rw [HostRam.setWord, if_pos h]

theorem writeRam_word (h : mem.Holds p .word) (v : UInt64) : mem.writeRam p .word v =
    { mem with ram := HostRam.setWord mem.ram p.toNat v.toUInt32 } := by
  rw [writeRam, if_pos h.inRam, setWord_place _ h.aligned, toNat_index]
  rfl

theorem writeRam_double (h : mem.Holds p .double) (v : UInt64) : mem.writeRam p .double v =
    { mem with
      ram := HostRam.setWord (HostRam.setWord mem.ram p.toNat (highWord v)) (p.toNat + 4)
        (lowWord v) } := by
  have hmod := h.mod_four
  rw [writeRam, if_pos h.inRam, setWord_place _ hmod, setWord_place _ (by omega), toNat_index,
    Nat.add_div_right _ (by decide)]
  rfl

theorem Holds.place_le {size : Size} (h : mem.Holds p size) :
    (place p size).toNat + size.bytes.toNat ≤ mem.size := by
  have hfits := h.fits
  have hsize : mem.size = mem.ram.size * 4 := rfl
  cases size with
  | byte =>
    obtain ⟨hdiv, hmod⟩ := xor_place (n := p.toNat) (k := 3) (by decide)
    change p.toNat + 1 ≤ _ at hfits
    change (place p .byte).toNat + 1 ≤ _
    rw [(toNat_place p).1]
    omega
  | half =>
    obtain ⟨s, -, -, -, -, hdiv, hdiv'⟩ := half_places h.aligned
    change p.toNat + 2 ≤ _ at hfits
    change (place p .half).toNat + 2 ≤ _
    omega
  | word | double => exact hfits

end Memory

namespace LoadOp

/-- How a load reads RAM. -/
def ramLoad : LoadOp → RamLoad
  | .lb => .lb
  | .lbu => .lbu
  | .lh => .lh
  | .lhu => .lhu
  | .lw | .lwu | .ld => .lw

def extension : LoadOp → Extension
  | .lb | .lh | .lw | .ld => .sign
  | .lbu | .lhu | .lwu => .zero

end LoadOp

theorem sextWord_eq (v : UInt32) : sextWord v = joinWords (sar32 v 31) v := by
  apply UInt64.eq_of_toBitVec_eq
  rw [sextWord_toBitVec, joinWords_toBitVec, sar32_toBitVec v 31 (by decide)]
  apply BitVec.eq_of_getLsbD_eq
  intro i hi
  simp only [BitVec.getLsbD_signExtend, BitVec.getLsbD_append, BitVec.getLsbD_sshiftRight, hi,
    decide_true, Bool.true_and]
  grind

theorem toUInt64_eq_joinWords (v : UInt32) : v.toUInt64 = joinWords 0 v := by
  apply UInt64.eq_of_toBitVec_eq
  rw [joinWords_toBitVec, UInt32.toBitVec_toUInt64, UInt32.toBitVec_zero]
  apply BitVec.eq_of_getLsbD_eq
  intro i hi
  rw [BitVec.getLsbD_setWidth, BitVec.getLsbD_append, BitVec.getLsbD_zero, decide_eq_true hi]
  grind

theorem sext8_eq (b : UInt32) : sext8 b.toUInt64 = sextWord b.toUInt8.toInt8.toInt32.toUInt32 := by
  apply UInt64.eq_of_toBitVec_eq
  rw [sext8_toBitVec, sextWord_toBitVec]
  ext i hi
  simp [BitVec.getElem_signExtend, BitVec.msb_signExtend]
  grind

theorem sext16_eq (b : UInt32) :
    sext16 b.toUInt64 = sextWord b.toUInt16.toInt16.toInt32.toUInt32 := by
  apply UInt64.eq_of_toBitVec_eq
  rw [sext16_toBitVec, sextWord_toBitVec]
  ext i hi
  simp [BitVec.getElem_signExtend, BitVec.msb_signExtend]
  grind

namespace Interp

/-- The value of a load is made up from the word that the host reads. -/
theorem extendLoad_readRam {mem : Memory} {p : UInt32} {op : LoadOp}
    (h : mem.Holds p (loadSize op)) (hop : op ≠ .ld) {v : UInt32}
    (hv : v = Machine.evalLoad op.ramLoad mem.ram (Memory.place p (loadSize op)).toNat) :
    extendLoad op (mem.readRam p (loadSize op)) = joinWords (op.extension.word v) v := by
  cases op with
  | lb =>
    change sext8 (mem.readRam p .byte) = joinWords (sar32 v 31) v
    rw [← Memory.byte_place h, sext8_eq, ← sextWord_eq, hv]
    rfl
  | lh =>
    change sext16 (mem.readRam p .half) = joinWords (sar32 v 31) v
    rw [← Memory.half_place h, sext16_eq, ← sextWord_eq, hv]
    rfl
  | lw =>
    change sext32 (mem.readRam p .word) = joinWords (sar32 v 31) v
    rw [Memory.readRam_word h, sext32_eq_sextWord, UInt32.toUInt32_toUInt64, ← sextWord_eq, hv]
    rfl
  | lbu =>
    change mem.readRam p .byte = joinWords 0 v
    rw [← Memory.byte_place h, ← toUInt64_eq_joinWords, hv]
    rfl
  | lhu =>
    change mem.readRam p .half = joinWords 0 v
    rw [← Memory.half_place h, ← toUInt64_eq_joinWords, hv]
    rfl
  | lwu =>
    change mem.readRam p .word = joinWords 0 v
    rw [Memory.readRam_word h, ← toUInt64_eq_joinWords, hv]
    rfl
  | ld => exact absurd rfl hop

end Interp

def physical (vaddr : UInt32) : UInt32 := vaddr &&& 0x1fffffff

/-- The accesses that the fast path takes: naturally aligned ones that lie in RAM, through an
unmapped segment, and stores only where there is no code. -/
structure Direct (mem : Memory) (vaddr : UInt32) (size : Size) (isStore : Bool) : Prop where
  low : 0x80000000 ≤ vaddr
  high : vaddr < 0xc0000000
  aligned : vaddr.toNat % size.bytes.toNat = 0
  fits : (physical vaddr).toNat + size.bytes.toNat ≤ mem.size
  unmarked : isStore = true → mem.isCode (physical vaddr) = false

theorem toNat_physical (vaddr : UInt32) : (physical vaddr).toNat = vaddr.toNat % 536870912 := by
  rw [physical, UInt32.toNat_and, show (0x1fffffff : UInt32).toNat = 2 ^ 29 - 1 from rfl,
    Nat.and_two_pow_sub_one_eq_mod]

theorem and_bytes (v : UInt32) (size : Size) :
    v &&& (size.bytes - 1) = 0 ↔ v.toNat % size.bytes.toNat = 0 := by
  have hmask (k : Nat) : v.toNat &&& (2 ^ k - 1) = v.toNat % 2 ^ k :=
    Nat.and_two_pow_sub_one_eq_mod _ _
  rw [← UInt32.toNat_inj, UInt32.toNat_and]
  cases size with
  | byte => exact Eq.congr_left (hmask 0)
  | half => exact Eq.congr_left (hmask 1)
  | word => exact Eq.congr_left (hmask 2)
  | double => exact Eq.congr_left (hmask 3)

theorem physical_mod_bytes (vaddr : UInt32) (size : Size) :
    (physical vaddr).toNat % size.bytes.toNat = vaddr.toNat % size.bytes.toNat := by
  rw [toNat_physical]
  cases size with
  | byte => change _ % 1 = _ % 1; omega
  | half => change _ % 2 = _ % 2; omega
  | word => change _ % 4 = _ % 4; omega
  | double => change _ % 8 = _ % 8; omega

namespace Direct

variable {c : Cpu} {vaddr : UInt32} {size : Size} {isStore : Bool}

theorem holds {mem : Memory} (h : Direct mem vaddr size isStore) :
    mem.Holds (physical vaddr) size :=
  ⟨h.fits, (physical_mod_bytes vaddr size).trans h.aligned⟩

theorem isAligned (h : Direct c.mem vaddr size isStore) : Cpu.isAligned vaddr size = true :=
  beq_iff_eq.mpr ((and_bytes vaddr size).mpr h.aligned)

theorem toPhysical (h : Direct c.mem vaddr size isStore) (write : Bool) :
    c.toPhysical vaddr write = (some (physical vaddr), c) := by
  have hlow : ¬ vaddr < 0x80000000 := UInt32.not_lt.mpr h.low
  have hwindow : c.windowAddress? vaddr = none := by
    unfold Cpu.windowAddress?
    cases c.window with
    | none => rfl
    | some base => exact if_neg (by simp [hlow])
  have hunmapped : isUnmapped vaddr = true := by
    rw [isUnmapped, decide_eq_true h.low, decide_eq_true h.high]
    rfl
  rw [Cpu.toPhysical, Cpu.lookup, hwindow]
  dsimp only
  rw [if_pos hunmapped]
  rfl

theorem load_eq (h : Direct c.mem vaddr size isStore)
    (hdev : ∀ p : UInt32, p.toNat < c.mem.size → c.mem.deviceAt? p = none) :
    c.load vaddr size = (some (c.mem.readRam (physical vaddr) size), c) := by
  have hpos : 0 < size.bytes.toNat := by cases size <;> decide
  have hfits := h.fits
  rw [Cpu.load, if_pos h.isAligned, h.toPhysical]
  dsimp only
  rw [Cpu.readPhys, hdev _ (by omega)]

theorem store_eq (h : Direct c.mem vaddr size true)
    (hdev : ∀ p : UInt32, p.toNat < c.mem.size → c.mem.deviceAt? p = none) (v : UInt64) :
    c.store vaddr size v = (true, { c with mem := c.mem.writeRam (physical vaddr) size v }) := by
  have hpos : 0 < size.bytes.toNat := by cases size <;> decide
  have hfits := h.fits
  have hmarks : (c.mem.writeRam (physical vaddr) size v).codePages = c.mem.codePages := by
    rw [Memory.writeRam, if_pos h.holds.inRam]
    cases size <;> rfl
  have hcode : (c.mem.writeRam (physical vaddr) size v).isCode (physical vaddr) = false := by
    rw [Memory.isCode, hmarks]
    exact h.unmarked rfl
  rw [Cpu.store, if_pos h.isAligned, h.toPhysical]
  dsimp only
  rw [Cpu.writePhys, hdev _ (by omega)]
  dsimp only
  rw [if_pos h.holds.inRam, hcode]
  rfl

end Direct

def Memory.Created (mem : Memory) : Prop :=
  ∃ (n : Int) (fresh : Memory), Memory.create? n = .ok fresh ∧
    mem.ram.size = fresh.ram.size ∧ mem.codePages.size = fresh.codePages.size

theorem Memory.Created.pages {mem : Memory} (h : mem.Created) : ∃ k, 1 ≤ k ∧ k ≤ 16384 ∧
    mem.size = k * 4096 ∧ mem.codePages.size = k := by
  obtain ⟨n, fresh, hn, hram, hmarks⟩ := h
  unfold Memory.create? at hn
  split at hn
  · cases hn
  · rename_i hrange
    split at hn
    · cases hn
    · rename_i hpage
      cases hn
      rw [Array.size_replicate] at hram hmarks
      rw [not_or, Int.not_le, Int.not_lt] at hrange
      have hmax : n ≤ 67108864 := hrange.2
      have hzero : n.toNat % 4096 = 0 := Classical.not_not.mp hpage
      change mem.codePages.size = n.toNat / 4096 at hmarks
      refine ⟨n.toNat / 4096, by omega, by omega, ?_, hmarks⟩
      rw [Memory.size, hram]
      omega

end Recompiler
