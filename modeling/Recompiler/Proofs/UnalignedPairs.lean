import Recompiler.Proofs.NarrowOps
import Recompiler.Proofs.PageMaps
import Recompiler.Proofs.RamBytes

/-!
Unaligned accesses in pairs. A load or store of one side works on the bytes of a word or double word
in memory that lie in the container of its own address; the two sides together work on all of them,
and on no others, in either order.
-/

namespace Recompiler

def Width.bytes : Width → Nat
  | .word => 4
  | .double => 8

/-- A register that holds a value of the width: words are sign extended. -/
def Width.extend : Width → UInt64 → UInt64
  | .word, v => sext32 v
  | .double, v => v

def Side.other : Side → Side
  | .left => .right
  | .right => .left

theorem Side.other_other (side : Side) : side.other.other = side := by
  cases side <;> rfl

/-- The address that an access of this side gives for the bytes from `a` on. -/
def Side.address (side : Side) (width : Width) (a : UInt32) : UInt32 :=
  match side with
  | .left => a
  | .right => a + UInt32.ofNat (width.bytes - 1)

def Side.ahead (side : Side) (width : Width) : Nat :=
  match side with
  | .left => 0
  | .right => width.bytes - 1

namespace Width

variable (width : Width)

theorem width_size : (Interp.widthSize width).width = width.bytes := by
  cases width <;> rfl

theorem bytes_pos : 0 < width.bytes := by
  cases width <;> decide

theorem bytes_le : width.bytes ≤ 8 := by
  cases width <;> decide

end Width

section

variable {w : Nat} (old new : BitVec w) {s j : Nat}

theorem getLsbD_lowOnes (hs : s < w) (hj : j < w) :
    ((1#w <<< s) - 1#w).getLsbD j = decide (j < s) := by
  have hpos : 0 < 2 ^ s := Nat.two_pow_pos s
  have hlt : 2 ^ s < 2 ^ w := Nat.pow_lt_pow_right (by decide) hs
  have hone : (1#w <<< s) = BitVec.ofNat w (2 ^ s) := by
    apply BitVec.eq_of_toNat_eq
    rw [BitVec.toNat_shiftLeft, BitVec.toNat_ofNat, BitVec.toNat_ofNat,
      Nat.mod_eq_of_lt (show 1 < 2 ^ w by omega), Nat.shiftLeft_eq, Nat.one_mul]
  have hmask : (1#w <<< s) - 1#w = BitVec.ofNat w (2 ^ s - 1) := by
    rw [hone]
    apply BitVec.eq_of_toNat_eq
    rw [BitVec.toNat_sub, BitVec.toNat_ofNat, BitVec.toNat_ofNat, BitVec.toNat_ofNat,
      Nat.mod_eq_of_lt hlt, Nat.mod_eq_of_lt (show 1 < 2 ^ w by omega),
      Nat.mod_eq_of_lt (show 2 ^ s - 1 < 2 ^ w by omega),
      show 2 ^ w - 1 + 2 ^ s = 2 ^ s - 1 + 2 ^ w by omega, Nat.add_mod_right,
      Nat.mod_eq_of_lt (by omega)]
  rw [hmask, BitVec.getLsbD_ofNat, Nat.testBit_two_pow_sub_one, decide_eq_true hj, Bool.true_and]

theorem getLsbD_below (hs : s < w) (hj : j < w) :
    ((old &&& ((1#w <<< s) - 1#w)) ||| (new <<< s)).getLsbD j =
      if j < s then old.getLsbD j else new.getLsbD (j - s) := by
  rw [BitVec.getLsbD_or, BitVec.getLsbD_and, getLsbD_lowOnes hs hj, BitVec.getLsbD_shiftLeft]
  by_cases h : j < s <;> simp [h, hj]

theorem getLsbD_above (hj : j < w) :
    ((old &&& ~~~(BitVec.allOnes w >>> s)) ||| (new >>> s)).getLsbD j =
      if j + s < w then new.getLsbD (j + s) else old.getLsbD j := by
  rw [BitVec.getLsbD_or, BitVec.getLsbD_and, BitVec.getLsbD_not, BitVec.getLsbD_ushiftRight,
    BitVec.getLsbD_ushiftRight, BitVec.getLsbD_allOnes, Nat.add_comm s j]
  split
  · simp_all
  · rename_i h
    have hnew : new.getLsbD (j + s) = false := BitVec.getLsbD_of_ge _ _ (Nat.le_of_not_lt h)
    simp_all

end

theorem bigEndian_lt (bs : List UInt8) : bigEndian bs < 256 ^ bs.length := by
  induction bs using List.reverseRecOn with
  | nil => decide
  | append_singleton bs b ih =>
    have hb := b.toNat_lt
    rw [bigEndian_append, List.length_append, List.length_singleton, pow_one, pow_succ]
    change bigEndian bs * 256 + (0 * 256 + b.toNat) < _
    omega

theorem bigEndian_digit (f : Nat → UInt8) {n k : Nat} (hk : k < n) :
    bigEndian ((List.range n).map f) / 256 ^ k % 256 = (f (n - 1 - k)).toNat := by
  induction n generalizing k with
  | zero => exact absurd hk (Nat.not_lt_zero k)
  | succ n ih =>
    have hlast := (f n).toNat_lt
    have hsplit : bigEndian ((List.range (n + 1)).map f) =
        bigEndian ((List.range n).map f) * 256 + (f n).toNat := by
      rw [List.range_succ, List.map_append, bigEndian_append]
      change _ * 256 ^ 1 + (0 * 256 + (f n).toNat) = _
      omega
    rw [hsplit]
    cases k with
    | zero =>
      rw [pow_zero, Nat.div_one, Nat.add_sub_cancel, Nat.sub_zero]
      omega
    | succ k =>
      rw [pow_succ', ← Nat.div_div_eq_div_mul,
        show (bigEndian ((List.range n).map f) * 256 + (f n).toNat) / 256 =
          bigEndian ((List.range n).map f) by omega, ih (by omega)]
      congr 2
      omega

theorem toNat_octet (v : UInt64) {k : Nat} (hk : k < 8) :
    (octet v k).toNat = v.toNat / 256 ^ k % 256 := by
  have hshift : (UInt64.ofNat (8 * k)).toNat = 8 * k := by
    rw [UInt64.toNat_ofNat']
    omega
  rw [octet, UInt64.toNat_toUInt8, UInt64.toNat_shiftRight, hshift,
    Nat.mod_eq_of_lt (show 8 * k < 64 by omega), Nat.shiftRight_eq_div_pow, pow_mul]
  rfl

theorem octet_bigEndian (f : Nat → UInt8) {n k : Nat} (hn : n ≤ 8) (hk : k < n) :
    octet (.ofNat (bigEndian ((List.range n).map f))) k = f (n - 1 - k) := by
  have hlt := bigEndian_lt ((List.range n).map f)
  have hle : 256 ^ n ≤ 256 ^ 8 := Nat.pow_le_pow_right (by decide) hn
  rw [List.length_map, List.length_range] at hlt
  have hnum : (UInt64.ofNat (bigEndian ((List.range n).map f))).toNat =
      bigEndian ((List.range n).map f) := by
    rw [UInt64.toNat_ofNat']
    exact Nat.mod_eq_of_lt (lt_of_lt_of_le hlt hle)
  apply UInt8.toNat_inj.mp
  rw [toNat_octet _ (by omega), hnum, bigEndian_digit f hk]

theorem Width.extend_congr (width : Width) {v w : UInt64}
    (h : ∀ k < width.bytes, octet v k = octet w k) : width.extend v = width.extend w := by
  have hle := width.bytes_le
  have hbit {j : Nat} (hj : j < 8 * width.bytes) : bitOf v j = bitOf w j := by
    have hbyte := congrArg (fun b => b.toBitVec.getLsbD (j % 8)) (h (j / 8) (by omega))
    rw [getLsbD_octet _ (by omega) (by omega), getLsbD_octet _ (by omega) (by omega),
      show 8 * (j / 8) + j % 8 = j by omega] at hbyte
    exact hbyte
  apply eq_of_bitOf_eq
  intro i hi
  cases width with
  | word =>
    change bitOf (sext32 v) i = bitOf (sext32 w) i
    rw [bitOf_sext32 v hi, bitOf_sext32 w hi]
    split
    · rename_i h32
      exact hbit h32
    · exact hbit (by decide)
  | double => exact hbit hi

namespace Interp

def mergeLoad (side : Side) (width : Width) (sh old mem : UInt64) : UInt64 :=
  match width with
  | .word => sextWord (mergeLoadWord side sh.toUInt32 old.toUInt32 mem.toUInt32)
  | .double => mergeLoadDouble side sh old mem

def mergeStore (side : Side) (width : Width) (sh v mem : UInt64) : UInt64 :=
  match width with
  | .word => (mergeStoreWord side sh.toUInt32 v.toUInt32 mem.toUInt32).toUInt64
  | .double => mergeStoreDouble side sh v mem

def skipped (addr : UInt32) (side : Side) (width : Width) : Nat :=
  match side with
  | .left => addr.toNat % width.bytes
  | .right => width.bytes - 1 - addr.toNat % width.bytes

theorem and_seven (a : UInt32) : a &&& 7 = UInt32.ofNat (a.toNat % 8) := by
  apply UInt32.toNat_inj.mp
  rw [UInt32.toNat_and, show (7 : UInt32).toNat = 2 ^ 3 - 1 from rfl, Nat.and_two_pow_sub_one_eq_mod,
    UInt32.toNat_ofNat']
  omega

theorem skipped_lt (addr : UInt32) (side : Side) (width : Width) :
    skipped addr side width < width.bytes := by
  have hpos := width.bytes_pos
  cases side with
  | left => exact Nat.mod_lt _ hpos
  | right =>
    change width.bytes - 1 - _ < width.bytes
    omega

theorem toNat_partShift (addr : UInt32) (side : Side) (width : Width) :
    (partShift addr side width).toNat = 8 * skipped addr side width := by
  have hfour : addr.toNat % 4 < 4 := Nat.mod_lt _ (by decide)
  have height : addr.toNat % 8 < 8 := Nat.mod_lt _ (by decide)
  cases side <;> cases width <;>
    simp only [partShift, skipped, Width.bytes, Memory.and_three, and_seven]
  case left.word => interval_cases addr.toNat % 4 <;> rfl
  case right.word => interval_cases addr.toNat % 4 <;> rfl
  case left.double => interval_cases addr.toNat % 8 <;> rfl
  case right.double => interval_cases addr.toNat % 8 <;> rfl

section

variable (side : Side) {j k s : Nat}

theorem getLsbD_mergeLoadWord {sh : UInt32} (old mem : UInt32) (hsh : sh.toNat < 32)
    (hj : j < 32) : (mergeLoadWord side sh old mem).toBitVec.getLsbD j =
      match side with
      | .left => if j < sh.toNat then old.toBitVec.getLsbD j else mem.toBitVec.getLsbD (j - sh.toNat)
      | .right =>
        if j + sh.toNat < 32 then mem.toBitVec.getLsbD (j + sh.toNat) else old.toBitVec.getLsbD j := by
  cases side with
  | left =>
    have hmerge : (mergeLoadWord .left sh old mem).toBitVec =
        (old.toBitVec &&& ((1#32 <<< sh.toNat) - 1#32)) ||| (mem.toBitVec <<< sh.toNat) := by
      simp only [mergeLoadWord, UInt32.toBitVec_or, UInt32.toBitVec_and, UInt32.toBitVec_sub,
        UInt32.toBitVec_shiftLeft, BitVec.shiftLeft_eq', toNat_wordShiftAmount hsh]
      rfl
    rw [hmerge]
    exact getLsbD_below old.toBitVec mem.toBitVec hsh hj
  | right =>
    have hmerge : (mergeLoadWord .right sh old mem).toBitVec =
        (old.toBitVec &&& ~~~(BitVec.allOnes 32 >>> sh.toNat)) ||| (mem.toBitVec >>> sh.toNat) := by
      simp only [mergeLoadWord, UInt32.toBitVec_or, UInt32.toBitVec_and, UInt32.toBitVec_not,
        UInt32.toBitVec_shiftRight, BitVec.ushiftRight_eq', toNat_wordShiftAmount hsh]
      rfl
    rw [hmerge]
    exact getLsbD_above old.toBitVec mem.toBitVec hj

theorem getLsbD_mergeLoadDouble {sh : UInt64} (old mem : UInt64) (hsh : sh.toNat < 64)
    (hj : j < 64) : (mergeLoadDouble side sh old mem).toBitVec.getLsbD j =
      match side with
      | .left => if j < sh.toNat then old.toBitVec.getLsbD j else mem.toBitVec.getLsbD (j - sh.toNat)
      | .right =>
        if j + sh.toNat < 64 then mem.toBitVec.getLsbD (j + sh.toNat) else old.toBitVec.getLsbD j := by
  cases side with
  | left =>
    have hmerge : (mergeLoadDouble .left sh old mem).toBitVec =
        (old.toBitVec &&& ((1#64 <<< sh.toNat) - 1#64)) ||| (mem.toBitVec <<< sh.toNat) := by
      simp only [mergeLoadDouble, lowMask, UInt64.toBitVec_or, UInt64.toBitVec_and,
        UInt64.toBitVec_sub, UInt64.toBitVec_shiftLeft, BitVec.shiftLeft_eq', toNat_shiftAmount hsh]
      rfl
    rw [hmerge]
    exact getLsbD_below old.toBitVec mem.toBitVec hsh hj
  | right =>
    have hmerge : (mergeLoadDouble .right sh old mem).toBitVec =
        (old.toBitVec &&& ~~~(BitVec.allOnes 64 >>> sh.toNat)) ||| (mem.toBitVec >>> sh.toNat) := by
      simp only [mergeLoadDouble, UInt64.toBitVec_or, UInt64.toBitVec_and, UInt64.toBitVec_not,
        UInt64.toBitVec_shiftRight, BitVec.ushiftRight_eq', toNat_shiftAmount hsh]
      rfl
    rw [hmerge]
    exact getLsbD_above old.toBitVec mem.toBitVec hj

theorem octet_sextWord (w : UInt32) (hk : k < 4) : octet (sextWord w) k = octet w.toUInt64 k := by
  apply eq_of_bits
  intro i hi
  have hlow : 8 * k + i < 32 := by omega
  have hin : 8 * k + i < 64 := by omega
  rw [getLsbD_octet _ (by omega) hi, getLsbD_octet _ (by omega) hi, UInt32.toBitVec_toUInt64,
    BitVec.getLsbD_setWidth, sextWord_toBitVec, BitVec.getLsbD_signExtend]
  simp only [hlow, hin, decide_true, Bool.true_and, if_true]

theorem bitOf_mergeLoad (width : Width) {sh : UInt64} (old mem : UInt64)
    (hsh : sh.toNat < 8 * width.bytes) (hj : j < 8 * width.bytes) :
    bitOf (mergeLoad side width sh old mem) j =
      match side with
      | .left => if j < sh.toNat then bitOf old j else bitOf mem (j - sh.toNat)
      | .right =>
        if j + sh.toNat < 8 * width.bytes then bitOf mem (j + sh.toNat) else bitOf old j := by
  cases width with
  | word =>
    change sh.toNat < 32 at hsh
    change j < 32 at hj
    have hword : sh.toUInt32.toNat = sh.toNat := by
      rw [UInt64.toNat_toUInt32]
      omega
    rw [mergeLoad, bitOf_sextWord _ (by omega), if_pos hj,
      getLsbD_mergeLoadWord side _ _ (by omega) hj, hword]
    cases side with
    | left =>
      change (if j < sh.toNat then _ else _) = if j < sh.toNat then _ else _
      rw [getLsbD_toUInt32 _ hj, getLsbD_toUInt32 _ (by omega)]
    | right =>
      change (if j + sh.toNat < 32 then _ else _) = if j + sh.toNat < 32 then _ else _
      rw [getLsbD_toUInt32 _ hj]
      split
      · rename_i h
        rw [getLsbD_toUInt32 _ h]
      · rfl
  | double => exact getLsbD_mergeLoadDouble side old mem hsh hj

/-- An unaligned load keeps the bytes of the register below those that it reads, or above. -/
theorem octet_mergeLoad (width : Width) {sh : UInt64} (old mem : UInt64) (hsh : sh.toNat = 8 * s)
    (hs : s < width.bytes) (hk : k < width.bytes) :
    octet (mergeLoad side width sh old mem) k =
      match side with
      | .left => if k < s then octet old k else octet mem (k - s)
      | .right => if k + s < width.bytes then octet mem (k + s) else octet old k := by
  have hle := width.bytes_le
  have hbyte (v : UInt64) {k i : Nat} (hk : k < width.bytes) (hi : i < 8) :
      (octet v k).toBitVec.getLsbD i = bitOf v (8 * k + i) := getLsbD_octet v (by omega) hi
  apply eq_of_bits
  intro i hi
  rw [hbyte _ hk hi, bitOf_mergeLoad side width old mem (by omega) (by omega), hsh]
  cases side with
  | left =>
    change (if 8 * k + i < 8 * s then _ else _) =
      (if k < s then octet old k else octet mem (k - s)).toBitVec.getLsbD i
    by_cases h : k < s
    · rw [if_pos h, if_pos (by omega), hbyte old hk hi]
    · rw [if_neg h, if_neg (by omega), hbyte mem (by omega) hi]
      congr 1
      omega
  | right =>
    change (if 8 * k + i + 8 * s < 8 * width.bytes then _ else _) =
      (if k + s < width.bytes then octet mem (k + s) else octet old k).toBitVec.getLsbD i
    by_cases h : k + s < width.bytes
    · rw [if_pos h, if_pos (by omega), hbyte mem h hi]
      congr 1
      omega
    · rw [if_neg h, if_neg (by omega), hbyte old hk hi]

theorem octet_mergeStore (width : Width) {sh : UInt64} (v mem : UInt64) (hk : k < width.bytes) :
    octet (mergeStore side width sh v mem) k = octet (mergeLoad side.other width sh mem v) k := by
  cases width with
  | word =>
    have hmerge : mergeStoreWord side sh.toUInt32 v.toUInt32 mem.toUInt32 =
        mergeLoadWord side.other sh.toUInt32 mem.toUInt32 v.toUInt32 := by
      cases side <;> rfl
    rw [mergeStore, mergeLoad, hmerge, octet_sextWord _ hk]
  | double => cases side <;> rfl

end

theorem extend_mergeLoad (side : Side) (width : Width) (sh old mem : UInt64) :
    width.extend (mergeLoad side width sh old mem) = mergeLoad side width sh old mem := by
  cases width with
  | word => exact sext32_eq_of_fits (fits_sextWord _) (Int.le_refl 32)
  | double => rfl

theorem toNat_container (addr : UInt32) (width : Width) :
    (container addr width).toNat = addr.toNat / width.bytes * width.bytes := by
  cases width with
  | word =>
    have hsum := TlbEntry.and_add_and_not addr 3
    have hlow : (addr &&& 3).toNat = addr.toNat % 4 := by
      rw [Memory.and_three, UInt32.toNat_ofNat']
      omega
    change (addr &&& ~~~3).toNat = addr.toNat / 4 * 4
    omega
  | double =>
    have hsum := TlbEntry.and_add_and_not addr 7
    have hlow : (addr &&& 7).toNat = addr.toNat % 8 := by
      rw [and_seven, UInt32.toNat_ofNat']
      omega
    change (addr &&& ~~~7).toNat = addr.toNat / 8 * 8
    omega

end Interp

namespace Memory

/-- The byte at a virtual address is one of RAM with no device over it, and is reached without the
lookaside buffer. -/
structure Plain (m : Memory) (vaddr : UInt32) : Prop where
  unmapped : isUnmapped vaddr = true
  inside : (physical vaddr).toNat < m.size
  bare : m.deviceAt? (physical vaddr) = none

theorem deviceAt?_congr (m : Memory) {p q : UInt32} (h : p.toNat / 65536 = q.toNat / 65536) :
    m.deviceAt? p = m.deviceAt? q := by
  have hregion : p >>> 16 = q >>> 16 := by
    apply UInt32.toNat_inj.mp
    rw [UInt32.toNat_shiftRight, UInt32.toNat_shiftRight, Nat.shiftRight_eq_div_pow,
      Nat.shiftRight_eq_div_pow]
    exact h
  have hcovers : (fun d : Device => d.covers p) = fun d => d.covers q := by
    funext d
    rw [Device.covers, Device.covers, hregion]
  rw [deviceAt?, deviceAt?, hcovers]

theorem isUnmapped_iff (vaddr : UInt32) : isUnmapped vaddr = true ↔
    2147483648 ≤ vaddr.toNat ∧ vaddr.toNat < 3221225472 := by
  rw [isUnmapped, Bool.and_eq_true, decide_eq_true_iff, decide_eq_true_iff]
  exact Iff.rfl

theorem toNat_physical_container (vaddr : UInt32) (width : Width) :
    (physical (Interp.container vaddr width)).toNat =
      (physical vaddr).toNat / width.bytes * width.bytes := by
  rw [toNat_physical, toNat_physical, Interp.toNat_container]
  cases width with
  | word =>
    change vaddr.toNat / 4 * 4 % 536870912 = vaddr.toNat % 536870912 / 4 * 4
    omega
  | double =>
    change vaddr.toNat / 8 * 8 % 536870912 = vaddr.toNat % 536870912 / 8 * 8
    omega

namespace Plain

variable {m : Memory} {vaddr : UInt32}

theorem direct (h : m.Plain vaddr) (hsize : m.size % 8 = 0) (width : Width) :
    Direct m (Interp.container vaddr width) (Interp.widthSize width) false := by
  obtain ⟨hlow, hhigh⟩ := (isUnmapped_iff vaddr).mp h.unmapped
  have hinside := h.inside
  have haddr := Interp.toNat_container vaddr width
  have hphys := toNat_physical_container vaddr width
  constructor
  case low =>
    apply UInt32.le_iff_toNat_le.mpr
    change 2147483648 ≤ _
    cases width <;> simp only [Width.bytes] at haddr <;> omega
  case high =>
    apply UInt32.lt_iff_toNat_lt.mpr
    change _ < 3221225472
    cases width <;> simp only [Width.bytes] at haddr <;> omega
  case aligned =>
    rw [Size.toNat_bytes, Width.width_size, haddr]
    exact Nat.mul_mod_left _ _
  case fits =>
    rw [Size.toNat_bytes, Width.width_size, hphys]
    cases width <;> simp only [Width.bytes] <;> omega
  case unmarked => exact fun hstore => absurd hstore (by decide)

theorem bare_container (h : m.Plain vaddr) (width : Width) :
    m.deviceAt? (physical (Interp.container vaddr width)) = none := by
  rw [← h.bare]
  apply deviceAt?_congr
  rw [toNat_physical_container]
  cases width <;> simp only [Width.bytes] <;> omega

end Plain

theorem octet_readRam {m : Memory} {p : UInt32} {width : Width}
    (h : p.toNat + width.bytes ≤ m.size) (hp : p.toNat % width.bytes = 0) {k : Nat}
    (hk : k < width.bytes) :
    octet (m.readRam p (Interp.widthSize width)) k =
      m.byteAt (p.toNat + (width.bytes - 1 - k)) := by
  have hwidth := width.width_size
  rw [readRam_eq (by rw [hwidth]; exact h), bytesAt, hwidth,
    octet_bigEndian _ width.bytes_le hk, Size.base_of_aligned (by rw [hwidth]; exact hp)]

theorem byteAt_writeContainer {m : Memory} {p : UInt32} {width : Width}
    (h : p.toNat + width.bytes ≤ m.size) (hp : p.toNat % width.bytes = 0) (v : UInt64) (x : Nat) :
    (m.writeRam p (Interp.widthSize width) v).byteAt x =
      if x / width.bytes = p.toNat / width.bytes then
        octet v (p.toNat + width.bytes - 1 - x) else m.byteAt x := by
  have hwidth := width.width_size
  have hbase : (Interp.widthSize width).base p = p.toNat :=
    Size.base_of_aligned (by rw [hwidth]; exact hp)
  have hcovers : ByteRam.Covers (Interp.widthSize width) p x ↔
      x / width.bytes = p.toNat / width.bytes := by
    rw [ByteRam.Covers, hbase, hwidth]
    cases width <;> simp only [Width.bytes] at hp ⊢ <;> omega
  rw [byteAt_writeRam (by rw [hwidth]; exact h), hbase, hwidth]
  exact if_congr hcovers rfl rfl

/-- The bytes of a word or double word from `a` on, which need not be aligned, are in RAM. -/
structure Exposed (m : Memory) (width : Width) (a : UInt32) : Prop where
  created : m.Created
  plain : ∀ k < width.bytes, m.Plain (a + UInt32.ofNat k)

namespace Exposed

variable {m m' : Memory} {width : Width} {a : UInt32}

theorem size_mod (h : m.Exposed width a) : m.size % 8 = 0 := by
  obtain ⟨k, -, -, hsize, -⟩ := h.created.pages
  omega

theorem small (h : m.Exposed width a) : m.size ≤ 67108864 := by
  obtain ⟨k, -, hk, hsize, -⟩ := h.created.pages
  omega

theorem plain_address (h : m.Exposed width a) (side : Side) :
    m.Plain (side.address width a) := by
  have hpos := width.bytes_pos
  cases side with
  | left =>
    have hfirst := h.plain 0 hpos
    rw [show a + UInt32.ofNat 0 = a from UInt32.add_zero a] at hfirst
    exact hfirst
  | right => exact h.plain (width.bytes - 1) (by omega)

theorem toNat_address (h : m.Exposed width a) (side : Side) :
    (physical (side.address width a)).toNat = (physical a).toNat + side.ahead width := by
  have hsmall := h.small
  have hle := width.bytes_le
  have hfirst : (physical a).toNat < m.size := (h.plain_address .left).inside
  cases side with
  | left => rfl
  | right =>
    rw [toNat_physical] at hfirst
    change (physical (a + UInt32.ofNat (width.bytes - 1))).toNat =
      (physical a).toNat + (width.bytes - 1)
    rw [toNat_physical, toNat_physical, UInt32.toNat_add, UInt32.toNat_ofNat']
    omega

theorem write (h : m.Exposed width a) (p : UInt32) (size : Size) (v : UInt64) :
    (m.writeRam p size v).Exposed width a := by
  obtain ⟨hsize, hmarks, hdevices⟩ := writeRam_frame m p size v
  have hram : (m.writeRam p size v).ram.size = m.ram.size := by
    unfold Memory.size at hsize
    omega
  obtain ⟨n, fresh, hn, hwords, hpages⟩ := h.created
  constructor
  · exact ⟨n, fresh, hn, hram.trans hwords, by rw [hmarks, hpages]⟩
  · intro k hk
    have hplain := h.plain k hk
    constructor
    · exact hplain.unmapped
    · rw [hsize]
      exact hplain.inside
    · rw [deviceAt?, hdevices]
      exact hplain.bare

end Exposed

end Memory

namespace Cpu

theorem setReg_setReg (c : Cpu) (r : Reg) (v w : UInt64) :
    (c.setReg r v).setReg r w = c.setReg r w := by
  unfold setReg
  split
  · rfl
  · rw [Vector.put_put]

variable {c : Cpu} {vaddr : UInt32}

theorem load_container (h : c.mem.Plain vaddr) (hsize : c.mem.size % 8 = 0) (width : Width) :
    c.load (Interp.container vaddr width) (Interp.widthSize width) =
      (some (c.mem.readRam (physical (Interp.container vaddr width)) (Interp.widthSize width)), c)
    := by
  have hdirect := h.direct hsize width
  rw [load, if_pos hdirect.isAligned, hdirect.toPhysical]
  dsimp only
  rw [readPhys, h.bare_container width]

theorem store_container (h : c.mem.Plain vaddr) (hsize : c.mem.size % 8 = 0) (width : Width)
    (v : UInt64) : ∃ reports,
      c.store (Interp.container vaddr width) (Interp.widthSize width) v =
        (true, c.afterRam (c.mem.writeRam (physical (Interp.container vaddr width))
          (Interp.widthSize width) v) reports) := by
  have hdirect := h.direct hsize width
  rw [store, if_pos hdirect.isAligned, hdirect.toPhysical]
  dsimp only
  rw [writePhys, h.bare_container width]
  dsimp only
  rw [if_pos hdirect.holds.inRam]
  split
  · exact ⟨[physical (Interp.container vaddr width)], by simp [afterRam, emit]⟩
  · exact ⟨[], by simp [afterRam]⟩

end Cpu

namespace Interp

/-- An access of this side reaches a byte: it lies in the container of the address. The bytes begin
at the physical address `p`. -/
def Reaches (side : Side) (width : Width) (p x : Nat) : Prop :=
  x / width.bytes = (p + side.ahead width) / width.bytes

instance (side : Side) (width : Width) (p x : Nat) : Decidable (Reaches side width p x) :=
  inferInstanceAs (Decidable (_ = _))

theorem reaches_other {side : Side} {width : Width} {p x : Nat} (hp : p ≤ x)
    (hx : x < p + width.bytes) (h : ¬ Reaches side width p x) : Reaches side.other width p x := by
  unfold Reaches at h ⊢
  cases side <;> cases width <;> simp only [Side.other, Side.ahead, Width.bytes] at * <;> omega

theorem reaches_left (width : Width) {p k : Nat} (hk : k < width.bytes) :
    (Reaches .left width p (p + (width.bytes - 1 - k)) ↔ ¬ k < p % width.bytes) ∧
      (¬ k < p % width.bytes →
        p / width.bytes * width.bytes + (width.bytes - 1 - (k - p % width.bytes)) =
          p + (width.bytes - 1 - k)) := by
  unfold Reaches
  cases width <;> simp only [Width.bytes, Side.ahead] at * <;> omega

theorem reaches_right (width : Width) {p q k s : Nat} (hk : k < width.bytes)
    (hq : q = p + (width.bytes - 1)) (hs : s = width.bytes - 1 - q % width.bytes) :
    (Reaches .right width p (p + (width.bytes - 1 - k)) ↔ k + s < width.bytes) ∧
      (k + s < width.bytes →
        q / width.bytes * width.bytes + (width.bytes - 1 - (k + s)) =
          p + (width.bytes - 1 - k)) := by
  unfold Reaches
  cases width <;> simp only [Width.bytes, Side.ahead] at * <;> omega

theorem stores_left (width : Width) {p x s : Nat} (hx : Reaches .left width p x)
    (hs : s = p % width.bytes) :
    (p / width.bytes * width.bytes + width.bytes - 1 - x + s < width.bytes ↔
        p ≤ x ∧ x < p + width.bytes) ∧
      (p / width.bytes * width.bytes + width.bytes - 1 - x + s < width.bytes →
        p / width.bytes * width.bytes + width.bytes - 1 - x + s = p + width.bytes - 1 - x) := by
  unfold Reaches at hx
  cases width <;> simp only [Width.bytes, Side.ahead] at * <;> omega

theorem stores_right (width : Width) {p x s : Nat} (hx : Reaches .right width p x)
    (hs : s = width.bytes - 1 - (p + (width.bytes - 1)) % width.bytes) :
    (¬ (p + (width.bytes - 1)) / width.bytes * width.bytes + width.bytes - 1 - x < s ↔
        p ≤ x ∧ x < p + width.bytes) ∧
      (¬ (p + (width.bytes - 1)) / width.bytes * width.bytes + width.bytes - 1 - x < s →
        (p + (width.bytes - 1)) / width.bytes * width.bytes + width.bytes - 1 - x - s =
          p + width.bytes - 1 - x) := by
  unfold Reaches at hx
  cases width <;> simp only [Width.bytes, Side.ahead] at * <;> omega

section

variable {c : Cpu} {i : Instr} {a : UInt32} {side : Side} {width : Width}

/-- The bytes that a merge takes from memory. -/
theorem octet_mergeLoad_of_address {addr : UInt32} {p k : Nat} (f : Nat → UInt8) (old mem : UInt64)
    (haddr : (physical addr).toNat = p + side.ahead width)
    (hmem : ∀ j < width.bytes, octet mem j =
      f ((physical (container addr width)).toNat + (width.bytes - 1 - j)))
    (hk : k < width.bytes) :
    octet (mergeLoad side width (partShift addr side width) old mem) k =
      if Reaches side width p (p + (width.bytes - 1 - k)) then f (p + (width.bytes - 1 - k))
      else octet old k := by
  have hlt := skipped_lt addr side width
  have hplace : addr.toNat % width.bytes = (p + side.ahead width) % width.bytes := by
    rw [← haddr, toNat_physical]
    cases width <;> simp only [Width.bytes] <;> omega
  rw [Memory.toNat_physical_container, haddr] at hmem
  rw [octet_mergeLoad side width old mem (toNat_partShift addr side width) hlt hk]
  cases side with
  | left =>
    have hskip : skipped addr .left width = p % width.bytes := hplace
    obtain ⟨hreach, hfind⟩ := reaches_left width (p := p) hk
    rw [hskip]
    dsimp only
    split
    · rename_i h
      rw [if_neg fun hr => hreach.mp hr h]
    · rename_i h
      rw [if_pos (hreach.mpr h), hmem _ (by omega)]
      exact congrArg f (hfind h)
  | right =>
    have hskip : skipped addr .right width =
        width.bytes - 1 - (p + (width.bytes - 1)) % width.bytes :=
      congrArg (fun r => width.bytes - 1 - r) hplace
    obtain ⟨hreach, hfind⟩ := reaches_right width (p := p) hk rfl hskip
    dsimp only
    split
    · rename_i h
      rw [if_pos (hreach.mpr h), hmem _ h]
      exact congrArg f (hfind h)
    · rename_i h
      rw [if_neg fun hr => h (hreach.mp hr)]

theorem execLoadPart_eq {mem : UInt64}
    (h : c.load (container (effective c i) width) (widthSize width) = (some mem, c)) :
    execLoadPart c i side width =
      c.setReg i.rt (mergeLoad side width (partShift (effective c i) side width) (c.reg i.rt) mem)
    := by
  unfold execLoadPart
  dsimp only
  rw [h]
  cases width <;> rfl

theorem execStorePart_eq {mem : UInt64}
    (h : c.load (container (effective c i) width) (widthSize width) = (some mem, c)) :
    execStorePart c i side width =
      (c.store (container (effective c i) width) (widthSize width)
        (mergeStore side width (partShift (effective c i) side width) (c.reg i.rt) mem)).2 := by
  unfold execStorePart
  dsimp only
  rw [h]
  cases width <;> rfl

theorem octet_container (h : c.mem.Exposed width a) (side : Side) {j : Nat}
    (hj : j < width.bytes) :
    octet (c.mem.readRam (physical (container (side.address width a) width)) (widthSize width)) j =
      c.mem.byteAt ((physical (container (side.address width a) width)).toNat +
        (width.bytes - 1 - j)) := by
  have hdirect := (h.plain_address side).direct h.size_mod width
  have hfits := hdirect.holds.fits
  have haligned := hdirect.holds.aligned
  rw [Size.toNat_bytes, width.width_size] at hfits haligned
  exact Memory.octet_readRam hfits haligned hj

theorem effect_loadPart (pc : UInt32) (hk : i.kind = .loadPart side width) (h : c.mem.Exposed width a)
    (haddr : effective c i = side.address width a) :
    ∃ v, effect c i pc = c.setReg i.rt v ∧ width.extend v = v ∧
      ∀ k < width.bytes, octet v k =
        if Reaches side width (physical a).toNat ((physical a).toNat + (width.bytes - 1 - k)) then
          c.mem.byteAt ((physical a).toNat + (width.bytes - 1 - k))
        else octet (c.reg i.rt) k := by
  have hload := Cpu.load_container (h.plain_address side) h.size_mod width
  rw [← haddr] at hload
  have heffect : effect c i pc = execLoadPart c i side width := by simp only [effect, hk]
  refine ⟨_, heffect.trans (execLoadPart_eq hload), extend_mergeLoad .., ?_⟩
  intro k hk'
  rw [haddr]
  apply octet_mergeLoad_of_address c.mem.byteAt _ _ (h.toNat_address side) _ hk'
  intro j hj
  exact octet_container h side hj

/-- The bytes of a container after a store: those of the datum are the register's. -/
theorem octet_mergeStore_of_address {addr : UInt32} {p x : Nat} (f : Nat → UInt8) (v mem : UInt64)
    (haddr : (physical addr).toNat = p + side.ahead width)
    (hmem : ∀ j < width.bytes, octet mem j =
      f ((physical (container addr width)).toNat + (width.bytes - 1 - j)))
    (hx : Reaches side width p x) :
    octet (mergeStore side width (partShift addr side width) v mem)
        ((physical (container addr width)).toNat + width.bytes - 1 - x) =
      if p ≤ x ∧ x < p + width.bytes then octet v (p + width.bytes - 1 - x) else f x := by
  have hlt := skipped_lt addr side width
  have hplace : addr.toNat % width.bytes = (p + side.ahead width) % width.bytes := by
    rw [← haddr, toNat_physical]
    cases width <;> simp only [Width.bytes] <;> omega
  rw [Memory.toNat_physical_container, haddr] at hmem ⊢
  have hk : (p + side.ahead width) / width.bytes * width.bytes + width.bytes - 1 - x <
      width.bytes := by
    unfold Reaches at hx
    cases width <;> simp only [Width.bytes] at * <;> omega
  have hfind : (p + side.ahead width) / width.bytes * width.bytes + (width.bytes - 1 -
      ((p + side.ahead width) / width.bytes * width.bytes + width.bytes - 1 - x)) = x := by
    unfold Reaches at hx
    cases width <;> simp only [Width.bytes] at * <;> omega
  rw [octet_mergeStore side width v mem hk,
    octet_mergeLoad side.other width mem v (toNat_partShift addr side width) hlt hk, hmem _ hk,
    hfind]
  cases side with
  | left =>
    have hskip : skipped addr .left width = p % width.bytes := hplace
    obtain ⟨hdatum, hplaceOf⟩ := stores_left width hx hskip
    dsimp only [Side.other]
    split
    · rename_i h
      rw [if_pos (hdatum.mp h)]
      exact congrArg (octet v) (hplaceOf h)
    · rename_i h
      rw [if_neg fun hd => h (hdatum.mpr hd)]
  | right =>
    have hskip : skipped addr .right width =
        width.bytes - 1 - (p + (width.bytes - 1)) % width.bytes :=
      congrArg (fun r => width.bytes - 1 - r) hplace
    obtain ⟨hdatum, hplaceOf⟩ := stores_right width hx hskip
    dsimp only [Side.other]
    split
    · rename_i h
      rw [if_neg fun hd => hdatum.mpr hd h]
    · rename_i h
      rw [if_pos (hdatum.mp h)]
      exact congrArg (octet v) (hplaceOf h)

theorem effect_storePart (pc : UInt32) (hk : i.kind = .storePart side width) (h : c.mem.Exposed width a)
    (haddr : effective c i = side.address width a) :
    ∃ m reports, effect c i pc = c.afterRam m reports ∧ m.Exposed width a ∧
      (m.size = c.mem.size ∧ m.codePages = c.mem.codePages ∧ m.devices = c.mem.devices) ∧
      ∀ x, m.byteAt x =
        if Reaches side width (physical a).toNat x ∧
            ((physical a).toNat ≤ x ∧ x < (physical a).toNat + width.bytes) then
          octet (c.reg i.rt) ((physical a).toNat + width.bytes - 1 - x)
        else c.mem.byteAt x := by
  have hplain := h.plain_address side
  have hdirect := hplain.direct h.size_mod width
  have hfits := hdirect.holds.fits
  have haligned := hdirect.holds.aligned
  have hload := Cpu.load_container hplain h.size_mod width
  obtain ⟨reports, hstore⟩ := Cpu.store_container hplain h.size_mod width
    (mergeStore side width (partShift (side.address width a) side width) (c.reg i.rt)
      (c.mem.readRam (physical (container (side.address width a) width)) (widthSize width)))
  rw [Size.toNat_bytes, width.width_size] at hfits haligned
  rw [← haddr] at hload
  have heffect : effect c i pc = execStorePart c i side width := by simp only [effect, hk]
  rw [heffect, execStorePart_eq hload, haddr, hstore]
  refine ⟨_, reports, rfl, h.write _ _ _, Memory.writeRam_frame .., ?_⟩
  intro x
  have hreach : x / width.bytes =
      (physical (container (side.address width a) width)).toNat / width.bytes ↔
        Reaches side width (physical a).toNat x := by
    rw [Memory.toNat_physical_container, h.toNat_address, Nat.mul_div_cancel _ width.bytes_pos]
    exact Iff.rfl
  rw [Memory.byteAt_writeContainer hfits haligned]
  by_cases hx : Reaches side width (physical a).toNat x
  · rw [if_pos (hreach.mpr hx), octet_mergeStore_of_address c.mem.byteAt _ _ (h.toNat_address side)
      (fun j hj => octet_container h side hj) hx]
    exact if_congr (and_iff_right hx).symm rfl rfl
  · rw [if_neg (mt hreach.mp hx), if_neg fun hd => hx hd.1]

end

def execBoth (c : Cpu) (i j : Instr) : Bool × Cpu :=
  let r := exec c i
  let s := exec r.2 j
  (r.1 && s.1, s.2)

/-- The two sides of an unaligned access to the bytes from `a` on, for one register, which is not
part of either address. -/
structure IsPair (c : Cpu) (kind : Side → Kind) (width : Width) (a : UInt32) (rt : Reg)
    (half : Side → Instr) : Prop where
  kind : ∀ side, (half side).kind = kind side
  target : ∀ side, (half side).rt = rt
  base : ∀ side, (half side).rs ≠ rt
  address : ∀ side, effective c (half side) = side.address width a

section

variable {c : Cpu} {i : Instr} {side : Side} {width : Width} {a : UInt32} {rt : Reg}
  {half : Side → Instr}

theorem exec_loadPart (hk : i.kind = .loadPart side width) (h : c.mem.Exposed width a)
    (haddr : effective c i = side.address width a) :
    ∃ v, exec c i = (true, { c with leave := 0 }.setReg i.rt v) ∧ width.extend v = v ∧
      ∀ k < width.bytes, octet v k =
        if Reaches side width (physical a).toNat ((physical a).toNat + (width.bytes - 1 - k)) then
          c.mem.byteAt ((physical a).toNat + (width.bytes - 1 - k))
        else octet (c.reg i.rt) k := by
  obtain ⟨v, hv, hbytes⟩ := effect_loadPart (c := { c with leave := 0 }) c.pc hk h haddr
  refine ⟨v, ?_, hbytes⟩
  rw [exec, hv, Cpu.setReg_leave]
  rfl

theorem exec_storePart (hk : i.kind = .storePart side width) (h : c.mem.Exposed width a)
    (haddr : effective c i = side.address width a) :
    ∃ m reports, exec c i = (true, { c with leave := 0 }.afterRam m reports) ∧
      m.Exposed width a ∧
      (m.size = c.mem.size ∧ m.codePages = c.mem.codePages ∧ m.devices = c.mem.devices) ∧
      ∀ x, m.byteAt x =
        if Reaches side width (physical a).toNat x ∧
            ((physical a).toNat ≤ x ∧ x < (physical a).toNat + width.bytes) then
          octet (c.reg i.rt) ((physical a).toNat + width.bytes - 1 - x)
        else c.mem.byteAt x := by
  obtain ⟨m, reports, hm, hframe⟩ :=
    effect_storePart (c := { c with leave := 0 }) c.pc hk h haddr
  refine ⟨m, reports, ?_, hframe⟩
  rw [exec, hm]
  rfl

def datum (c : Cpu) (width : Width) (a : UInt32) : UInt64 :=
  .ofNat (bigEndian ((List.range width.bytes).map fun k => c.mem.byteAt ((physical a).toNat + k)))

theorem octet_datum (c : Cpu) (a : UInt32) {k : Nat} (hk : k < width.bytes) :
    octet (datum c width a) k = c.mem.byteAt ((physical a).toNat + (width.bytes - 1 - k)) :=
  octet_bigEndian _ width.bytes_le hk

theorem execBoth_loadPart (h : c.mem.Exposed width a) (hrt : rt ≠ .zero)
    (hp : IsPair c (.loadPart · width) width a rt half) (first : Side) :
    execBoth c (half first) (half first.other) =
      (true, { c with leave := 0 }.setReg rt (width.extend (datum c width a))) := by
  obtain ⟨v, hv, -, hbytes⟩ := exec_loadPart (hp.kind first) h (hp.address first)
  rw [hp.target] at hv hbytes
  have hmem : ({ c with leave := 0 }.setReg rt v).mem = c.mem := by
    rw [Cpu.setReg_of_ne hrt]
  have haddr : effective ({ c with leave := 0 }.setReg rt v) (half first.other) =
      first.other.address width a := by
    rw [← hp.address, effective, effective, Cpu.reg_setReg_of_ne (hp.base _).symm]
    rfl
  have hexposed : ({ c with leave := 0 }.setReg rt v).mem.Exposed width a := by
    rw [hmem]
    exact h
  obtain ⟨w, hw, hwide, hbytes'⟩ := exec_loadPart (hp.kind first.other) hexposed haddr
  rw [hp.target, Cpu.reg_setReg_self hrt, hmem] at hbytes'
  rw [hp.target] at hw
  have hdatum : w = width.extend (datum c width a) := by
    rw [← hwide]
    apply width.extend_congr
    intro k hk
    rw [octet_datum c a hk, hbytes' k hk]
    by_cases hr : Reaches first.other width (physical a).toNat
        ((physical a).toNat + (width.bytes - 1 - k))
    · rw [if_pos hr]
    · have hr' := reaches_other (by omega) (by omega) hr
      rw [if_neg hr, hbytes k hk, if_pos (first.other_other ▸ hr')]
  rw [execBoth, hv]
  dsimp only
  have hkeep : { { c with leave := 0 }.setReg rt v with leave := 0 } =
      { c with leave := 0 }.setReg rt v := by
    rw [Cpu.setReg_of_ne hrt]
  rw [hw, hkeep, Cpu.setReg_setReg, hdatum]
  rfl

theorem execBoth_storePart (h : c.mem.Exposed width a)
    (hp : IsPair c (.storePart · width) width a rt half) (first : Side) :
    ∃ m reports, execBoth c (half first) (half first.other) =
        (true, { c with leave := 0 }.afterRam m reports) ∧
      (m.size = c.mem.size ∧ m.codePages = c.mem.codePages ∧ m.devices = c.mem.devices) ∧
      ∀ x, m.byteAt x =
        if (physical a).toNat ≤ x ∧ x < (physical a).toNat + width.bytes then
          octet (c.reg rt) ((physical a).toNat + width.bytes - 1 - x)
        else c.mem.byteAt x := by
  obtain ⟨m, reports, hm, hexposed, hframe, hbytes⟩ :=
    exec_storePart (hp.kind first) h (hp.address first)
  rw [hp.target] at hbytes
  have haddr : effective ({ c with leave := 0 }.afterRam m reports) (half first.other) =
      first.other.address width a := hp.address first.other
  obtain ⟨m', reports', hm', -, hframe', hbytes'⟩ :=
    exec_storePart (hp.kind first.other) hexposed haddr
  rw [hp.target] at hbytes'
  refine ⟨m', reports ++ reports', ?_, ?_, ?_⟩
  · rw [execBoth, hm]
    dsimp only
    rw [hm']
    simp [Cpu.afterRam]
  · exact ⟨hframe'.1.trans hframe.1, hframe'.2.1.trans hframe.2.1, hframe'.2.2.trans hframe.2.2⟩
  · intro x
    have hreg : ({ c with leave := 0 }.afterRam m reports).reg rt = c.reg rt := rfl
    have hmem : ({ c with leave := 0 }.afterRam m reports).mem = m := rfl
    rw [hbytes' x, hreg, hmem]
    by_cases hin : (physical a).toNat ≤ x ∧ x < (physical a).toNat + width.bytes
    · rw [if_pos hin]
      by_cases hr : Reaches first.other width (physical a).toNat x
      · rw [if_pos ⟨hr, hin⟩]
      · have hr' := reaches_other hin.1 hin.2 hr
        rw [if_neg fun hd => hr hd.1, hbytes x, if_pos ⟨first.other_other ▸ hr', hin⟩]
    · rw [if_neg hin, if_neg fun hd => hin hd.2, hbytes x, if_neg fun hd => hin hd.2]

/-- The two sides of an unaligned access, in either order, work on the bytes of a word or double
word at any address in RAM: a load leaves their big-endian value in the register, sign extended,
whatever the register held, and a store leaves the low bytes of the register there and changes no
other byte. Neither faults, and nothing else changes, but that stores to marked pages are
reported. -/
theorem exec_unalignedPair (h : c.mem.Exposed width a) (hrt : rt ≠ .zero) (first : Side) :
    (IsPair c (.loadPart · width) width a rt half →
      execBoth c (half first) (half first.other) =
        (true, { c with leave := 0 }.setReg rt (width.extend (datum c width a)))) ∧
    (IsPair c (.storePart · width) width a rt half →
      ∃ m reports, execBoth c (half first) (half first.other) =
          (true, { c with leave := 0 }.afterRam m reports) ∧
        (m.size = c.mem.size ∧ m.codePages = c.mem.codePages ∧ m.devices = c.mem.devices) ∧
        ∀ x, m.byteAt x =
          if (physical a).toNat ≤ x ∧ x < (physical a).toNat + width.bytes then
            octet (c.reg rt) ((physical a).toNat + width.bytes - 1 - x)
          else c.mem.byteAt x) :=
  ⟨fun hp => execBoth_loadPart h hrt hp first, fun hp => execBoth_storePart h hp first⟩

/-- A word across a boundary of words, with the side at the higher address first. -/
theorem exec_unalignedPair_straddle :
    let m : Memory := ⟨(Array.replicate 1024 0).set! 1 0xaa8899ff, Array.replicate 1 false, []⟩
    let c := ((Cpu.powerOn m none).setReg 1 0x80000000).setReg 2 0x0123456789abcdef
    (execBoth c ⟨0x98220008⟩ ⟨0x88220005⟩).2.reg 2 = 0xffffffff8899ff00 ∧
      [4, 5, 6, 7, 8, 9].map (execBoth c ⟨0xb8220008⟩ ⟨0xa8220005⟩).2.mem.byteAt =
        [0xaa, 0x89, 0xab, 0xcd, 0xef, 0] := by
  intro m c
  have hram : m.ram.size = 1024 := by simp [m]
  have hsize : c.mem.size = 4096 := congrArg (· * 4) hram
  have hexposed : c.mem.Exposed .word 0x80000005 := by
    constructor
    · exact ⟨4096, _, rfl, hram.trans (Array.size_replicate ..).symm, rfl⟩
    · intro k hk
      change k < 4 at hk
      constructor
      · interval_cases k <;> decide
      · rw [hsize]
        interval_cases k <;> decide
      · rfl
  have hload := (exec_unalignedPair hexposed (show (2 : Reg) ≠ .zero by decide) .right).1
    (show IsPair c _ .word 0x80000005 2 fun | .left => ⟨0x88220005⟩ | .right => ⟨0x98220008⟩ from
      ⟨by rintro (_ | _) <;> rfl, by rintro (_ | _) <;> rfl, by rintro (_ | _) <;> decide,
        by rintro (_ | _) <;> rfl⟩)
  obtain ⟨m', reports, hstore, -, hbytes⟩ :=
    (exec_unalignedPair hexposed (show (2 : Reg) ≠ .zero by decide) .right).2
      (show IsPair c _ .word 0x80000005 2 fun | .left => ⟨0xa8220005⟩ | .right => ⟨0xb8220008⟩ from
        ⟨by rintro (_ | _) <;> rfl, by rintro (_ | _) <;> rfl, by rintro (_ | _) <;> decide,
          by rintro (_ | _) <;> rfl⟩)
  constructor
  · have hreg := congrArg (fun r => r.2.reg 2) hload
    dsimp only [Side.other] at hreg
    rw [hreg, Cpu.reg_setReg_self (by decide)]
    decide +kernel
  · have hmem : (execBoth c ⟨0xb8220008⟩ ⟨0xa8220005⟩).2.mem = m' :=
      congrArg (fun r => r.2.mem) hstore
    rw [hmem, List.map_congr_left fun x _ => hbytes x]
    decide +kernel

end

end Interp

end Recompiler
