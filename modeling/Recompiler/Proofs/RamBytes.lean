import Recompiler.Engine.Basic
import Recompiler.Proofs.RamAccess

/-!
RAM as an array of bytes. The accessors keep RAM in words; here they are shown to be those of a
big-endian array of bytes with marked pages, and never to leave the arrays that hold the words and
the marks.
-/

namespace Recompiler

def bigEndian (bs : List UInt8) : Nat :=
  bs.foldl (fun n b => n * 256 + b.toNat) 0

def octet (v : UInt64) (k : Nat) : UInt8 :=
  (v >>> UInt64.ofNat (8 * k)).toUInt8

/-- The byte of a word with the given place, from its highest. -/
def wordByte (w : UInt32) (k : Nat) : UInt8 :=
  (w >>> UInt32.ofNat (8 * (3 - k))).toUInt8

namespace Size

/-- The number of bytes of an access. -/
def width : Size → Nat
  | .byte => 1
  | .half => 2
  | .word => 4
  | .double => 8

theorem toNat_bytes (size : Size) : size.bytes.toNat = size.width := by
  cases size <;> rfl

/-- Where the bytes of an access begin. Its lowest bits are not looked at, and double words need
be aligned as words only. -/
def base (size : Size) (p : UInt32) : Nat :=
  match size with
  | .byte => p.toNat
  | .half => p.toNat / 2 * 2
  | .word | .double => p.toNat / 4 * 4

theorem base_of_aligned {size : Size} {p : UInt32} (h : p.toNat % size.width = 0) :
    size.base p = p.toNat := by
  cases size with
  | byte => rfl
  | half =>
    change p.toNat % 2 = 0 at h
    change p.toNat / 2 * 2 = p.toNat
    omega
  | word =>
    change p.toNat % 4 = 0 at h
    change p.toNat / 4 * 4 = p.toNat
    omega
  | double =>
    change p.toNat % 8 = 0 at h
    change p.toNat / 4 * 4 = p.toNat
    omega

end Size

/-- RAM as its bytes, with the pages that are marked as code. -/
structure ByteRam where
  size : Nat
  byte : Nat → UInt8
  marked : Nat → Bool

/-- What a program does to RAM: the marks are set and cleared from outside. -/
inductive RamOp where
  | read (p : UInt32) (size : Size)
  | write (p : UInt32) (size : Size) (v : UInt64)
  | mark (p : UInt32) (on : Bool)

/-- What comes of operations on RAM in some state: the values read, the addresses at which writes
to marked pages are reported, and the state. -/
structure RamOutcome (σ : Type) where
  values : List UInt64
  reports : List UInt32
  state : σ

namespace ByteRam

def zero (size : Nat) : ByteRam := ⟨size, fun _ => 0, fun _ => false⟩

def fits (r : ByteRam) (p : UInt32) (size : Size) : Prop := p.toNat + size.width ≤ r.size

instance (r : ByteRam) (p : UInt32) (size : Size) : Decidable (r.fits p size) :=
  inferInstanceAs (Decidable (_ ≤ _))

def read (r : ByteRam) (p : UInt32) (size : Size) : UInt64 :=
  if r.fits p size then
    .ofNat (bigEndian ((List.range size.width).map fun i => r.byte (size.base p + i)))
  else 0

def Covers (size : Size) (p : UInt32) (a : Nat) : Prop :=
  size.base p ≤ a ∧ a < size.base p + size.width

instance (size : Size) (p : UInt32) (a : Nat) : Decidable (Covers size p a) :=
  inferInstanceAs (Decidable (_ ∧ _))

def write (r : ByteRam) (p : UInt32) (size : Size) (v : UInt64) : ByteRam :=
  if r.fits p size then
    { r with
      byte := fun a =>
        if Covers size p a then octet v (size.base p + size.width - 1 - a) else r.byte a }
  else r

def mark (r : ByteRam) (p : UInt32) (on : Bool) : ByteRam :=
  { r with marked := fun k => if k = p.toNat / 4096 then on else r.marked k }

def Strikes (r : ByteRam) (p : UInt32) (size : Size) : Prop :=
  r.fits p size ∧ r.marked (p.toNat / 4096) = true

instance (r : ByteRam) (p : UInt32) (size : Size) : Decidable (r.Strikes p size) :=
  inferInstanceAs (Decidable (_ ∧ _))

def step (r : ByteRam) : RamOp → RamOutcome ByteRam
  | .read p size => ⟨[r.read p size], [], r⟩
  | .write p size v => ⟨[], if r.Strikes p size then [p] else [], r.write p size v⟩
  | .mark p on => ⟨[], [], r.mark p on⟩

def run (r : ByteRam) : List RamOp → RamOutcome ByteRam
  | [] => ⟨[], [], r⟩
  | op :: ops =>
    let first := r.step op
    let rest := first.state.run ops
    ⟨first.values ++ rest.values, first.reports ++ rest.reports, rest.state⟩

end ByteRam

namespace Cpu

/-- One operation of the CPU on its memory. -/
def ramStep (c : Cpu) : RamOp → List UInt64 × Cpu
  | .read p size =>
    let (v, c) := c.readPhys p size
    ([v], c)
  | .write p size v => ([], c.writePhys p size v)
  | .mark p on => ([], { c with mem := c.mem.markCode p on })

def ramRun (c : Cpu) : List RamOp → List UInt64 × Cpu
  | [] => ([], c)
  | op :: ops =>
    let (vs, c) := c.ramStep op
    let (ws, c) := c.ramRun ops
    (vs ++ ws, c)

end Cpu

namespace Memory

/-- Does the table of regions lead an address to RAM? The regions are of 64 KiB, and RAM may fill
only a part of the last one. -/
def backed (m : Memory) (p : UInt32) : Bool :=
  p >>> 16 ≤ UInt32.ofNat (m.size - 1) >>> 16

/-- Reads through indices that have to be inside the array. -/
def readRam? (m : Memory) (p : UInt32) (size : Size) : Option UInt64 :=
  if m.inRam p size.bytes then do
    let w ← m.ram[(p >>> 2).toNat]?
    match size with
    | .byte => some ((w >>> byteShift p) &&& 0xff).toUInt64
    | .half => some ((w >>> halfShift p) &&& 0xffff).toUInt64
    | .word => some w.toUInt64
    | .double => do
      let lo ← m.ram[(p >>> 2).toNat + 1]?
      some (joinWords w lo)
  else some 0

/-- Replaces the word with an index, which has to be inside the array. -/
def setWord? (m : Memory) (i : Nat) (v : UInt32) : Option Memory :=
  if i < m.ram.size then some (m.setWordAt i v) else none

/-- Writes through indices that have to be inside the array. -/
def writeRam? (m : Memory) (p : UInt32) (size : Size) (v : UInt64) : Option Memory :=
  let i := (p >>> 2).toNat
  match size with
  | .byte => do
    let w ← m.ram[i]?
    m.setWord? i (mergeWord w 0xff v.toUInt32 (byteShift p))
  | .half => do
    let w ← m.ram[i]?
    m.setWord? i (mergeWord w 0xffff v.toUInt32 (halfShift p))
  | .word => m.setWord? i v.toUInt32
  | .double => do
    let m ← m.setWord? i (highWord v)
    m.setWord? (i + 1) (lowWord v)

def readPhys? (m : Memory) (p : UInt32) (size : Size) : Option UInt64 :=
  if m.backed p then m.readRam? p size else some 0

/-- The addresses reported when there has been a write. The mark is looked at only where reports
are wanted. -/
def reports? (m : Memory) (watched : Bool) (p : UInt32) : Option (List UInt32) :=
  if watched then do
    let marked ← m.codePages[(p >>> 12).toNat]?
    some (if marked then [p] else [])
  else some []

/-- A write through the table of regions, with the addresses that are reported. -/
def writePhys? (m : Memory) (watched : Bool) (p : UInt32) (size : Size) (v : UInt64) :
    Option (List UInt32 × Memory) :=
  if m.backed p ∧ m.inRam p size.bytes then do
    let m ← m.writeRam? p size v
    let reports ← m.reports? watched p
    some (reports, m)
  else some ([], m)

def ramStep? (m : Memory) (watched : Bool) : RamOp → Option (RamOutcome Memory)
  | .read p size => (m.readPhys? p size).map fun v => ⟨[v], [], m⟩
  | .write p size v => (m.writePhys? watched p size v).map fun w => ⟨[], w.1, w.2⟩
  | .mark p on => some ⟨[], [], m.markCode p on⟩

def ramRun? (m : Memory) (watched : Bool) : List RamOp → Option (RamOutcome Memory)
  | [] => some ⟨[], [], m⟩
  | op :: ops => do
    let first ← m.ramStep? watched op
    let rest ← first.state.ramRun? watched ops
    some ⟨first.values ++ rest.values, first.reports ++ rest.reports, rest.state⟩

def byteAt (m : Memory) (a : Nat) : UInt8 := wordByte (m.wordAt (a / 4)) (a % 4)

/-- RAM that holds the bytes and the marks of an array of bytes. -/
structure Refines (m : Memory) (r : ByteRam) : Prop where
  size : m.size = r.size
  pages : m.codePages.size * 4096 = m.size
  small : m.size ≤ 67108864
  plain : m.devices = []
  byte : ∀ a < r.size, m.byteAt a = r.byte a
  marked : ∀ k < m.codePages.size, m.codePages.getD k false = r.marked k

end Memory

theorem eq_of_bits {b c : UInt8} (h : ∀ i < 8, b.toBitVec.getLsbD i = c.toBitVec.getLsbD i) :
    b = c :=
  UInt8.eq_of_toBitVec_eq (BitVec.eq_of_getLsbD_eq h)

theorem getLsbD_octet (v : UInt64) {k i : Nat} (hk : k < 8) (hi : i < 8) :
    (octet v k).toBitVec.getLsbD i = v.toBitVec.getLsbD (8 * k + i) := by
  interval_cases k <;> simp [octet, hi]

theorem wordByte_eq_octet (w : UInt32) {k : Nat} (h : k < 4) :
    wordByte w k = octet w.toUInt64 (3 - k) := by
  refine eq_of_bits fun i hi => ?_
  rw [getLsbD_octet _ (by omega) hi, UInt32.toBitVec_toUInt64]
  interval_cases k <;> simp [wordByte, hi] <;> omega

theorem octet_lowWord (v : UInt64) {k : Nat} (h : k < 4) :
    octet (lowWord v).toUInt64 k = octet v k := by
  refine eq_of_bits fun i hi => ?_
  rw [getLsbD_octet _ (by omega) hi, getLsbD_octet _ (by omega) hi, UInt32.toBitVec_toUInt64,
    lowWord_toBitVec, BitVec.getLsbD_setWidth, BitVec.getLsbD_setWidth]
  have hlow : 8 * k + i < 32 := by omega
  have hin : 8 * k + i < 64 := by omega
  simp only [hlow, hin, decide_true, Bool.true_and]

theorem octet_highWord (v : UInt64) {k : Nat} (h : k < 4) :
    octet (highWord v).toUInt64 k = octet v (k + 4) := by
  refine eq_of_bits fun i hi => ?_
  rw [getLsbD_octet _ (by omega) hi, getLsbD_octet _ (by omega) hi, UInt32.toBitVec_toUInt64,
    highWord_toBitVec, BitVec.getLsbD_setWidth, BitVec.getLsbD_extractLsb']
  have hlow : 8 * k + i < 32 := by omega
  have hin : 8 * k + i < 64 := by omega
  simp only [hlow, hin, decide_true, Bool.true_and]
  congr 1
  omega

theorem toNat_wordByte (w : UInt32) {k : Nat} (h : k < 4) :
    (wordByte w k).toNat = w.toNat / 2 ^ (8 * (3 - k)) % 256 := by
  rw [wordByte, UInt32.toNat_toUInt8, UInt32.toNat_shiftRight, UInt32.toNat_ofNat',
    Nat.shiftRight_eq_div_pow]
  interval_cases k <;> rfl

theorem halfShift_eq (p : UInt32) :
    Memory.halfShift p = UInt32.ofNat (16 - p.toNat % 4 / 2 * 16) := by
  have htwo : p &&& 2 = UInt32.ofNat (p.toNat % 4) &&& 2 := by
    rw [← Memory.and_three, UInt32.and_assoc]
    rfl
  rw [Memory.halfShift, htwo]
  have hp : p.toNat % 4 < 4 := Nat.mod_lt _ (by decide)
  interval_cases p.toNat % 4 <;> rfl

theorem byteShift_eq (p : UInt32) : Memory.byteShift p = UInt32.ofNat (8 * (3 - p.toNat % 4)) := by
  rw [Memory.byteShift, Memory.and_three]
  have hp : p.toNat % 4 < 4 := Nat.mod_lt _ (by decide)
  interval_cases p.toNat % 4 <;> rfl

theorem wordByte_mergeByte (w v p : UInt32) {k : Nat} (h : k < 4) :
    wordByte (Memory.mergeWord w 0xff v (Memory.byteShift p)) k =
      if k = p.toNat % 4 then v.toUInt8 else wordByte w k := by
  rw [byteShift_eq]
  have hp : p.toNat % 4 < 4 := Nat.mod_lt _ (by decide)
  apply UInt8.eq_of_toBitVec_eq
  ext i hi
  interval_cases p.toNat % 4 <;> interval_cases k <;> simp [wordByte, Memory.mergeWord] <;>
    interval_cases i <;> simp

theorem wordByte_mergeHalf (w v p : UInt32) {k : Nat} (h : k < 4) :
    wordByte (Memory.mergeWord w 0xffff v (Memory.halfShift p)) k =
      if k / 2 = p.toNat % 4 / 2 then wordByte v (2 + k % 2) else wordByte w k := by
  rw [halfShift_eq]
  have hp : p.toNat % 4 / 2 < 2 := by omega
  apply UInt8.eq_of_toBitVec_eq
  ext i hi
  interval_cases p.toNat % 4 / 2 <;> interval_cases k <;> simp [wordByte, Memory.mergeWord] <;>
    interval_cases i <;> simp

theorem wordByte_lowWord (v : UInt64) {k : Nat} (h : k < 4) :
    wordByte (lowWord v) k = octet v (3 - k) := by
  rw [wordByte_eq_octet _ h, octet_lowWord v (by omega)]

theorem wordByte_highWord (v : UInt64) {k : Nat} (h : k < 4) :
    wordByte (highWord v) k = octet v (7 - k) := by
  rw [wordByte_eq_octet _ h, octet_highWord v (by omega)]
  congr 1
  omega

theorem toNat_shiftRight_ofNat (w : UInt32) {n : Nat} (h : n < 32) :
    (w >>> UInt32.ofNat n).toNat = w.toNat / 2 ^ n := by
  rw [UInt32.toNat_shiftRight, UInt32.toNat_ofNat', Nat.shiftRight_eq_div_pow,
    Nat.mod_eq_of_lt (by omega : n < 2 ^ 32), Nat.mod_eq_of_lt h]

theorem bigEndian_append (as bs : List UInt8) :
    bigEndian (as ++ bs) = bigEndian as * 256 ^ bs.length + bigEndian bs := by
  have hfrom (n : Nat) : bs.foldl (fun n b => n * 256 + b.toNat) n =
      n * 256 ^ bs.length + bigEndian bs := by
    unfold bigEndian
    induction bs generalizing n with
    | nil => simp
    | cons b bs ih =>
      rw [List.foldl_cons, List.foldl_cons, ih, ih (0 * 256 + b.toNat), List.length_cons, pow_succ]
      ring
  rw [bigEndian, List.foldl_append]
  exact hfrom _

theorem bigEndian_half (w : UInt32) {k : Nat} (h : k < 2) :
    bigEndian [wordByte w (2 * k), wordByte w (2 * k + 1)] =
      w.toNat / 2 ^ (16 - k * 16) % 65536 := by
  simp only [bigEndian, List.foldl_cons, List.foldl_nil]
  rw [toNat_wordByte w (by omega), toNat_wordByte w (by omega)]
  interval_cases k <;> omega

theorem bigEndian_word (w : UInt32) :
    bigEndian [wordByte w 0, wordByte w 1, wordByte w 2, wordByte w 3] = w.toNat := by
  simp only [bigEndian, List.foldl_cons, List.foldl_nil]
  rw [toNat_wordByte w (by decide), toNat_wordByte w (by decide), toNat_wordByte w (by decide),
    toNat_wordByte w (by decide)]
  have hw := w.toNat_lt
  omega

theorem toNat_joinWords (hi lo : UInt32) :
    (joinWords hi lo).toNat = hi.toNat * 2 ^ 32 + lo.toNat := by
  rw [← UInt64.toNat_toBitVec, joinWords_toBitVec, BitVec.toNat_append,
    ← Nat.shiftLeft_add_eq_or_of_lt lo.toBitVec.isLt, Nat.shiftLeft_eq]
  rfl

namespace Memory

variable {m : Memory} {r : ByteRam} {p : UInt32} {size : Size}

theorem inRam_iff : m.inRam p size.bytes = true ↔ p.toNat + size.width ≤ m.size := by
  rw [inRam, decide_eq_true_iff, Size.toNat_bytes]

theorem index_lt (h : p.toNat + size.width ≤ m.size) : p.toNat / 4 < m.ram.size := by
  have hsize : m.size = m.ram.size * 4 := rfl
  have hpos : 1 ≤ size.width := by cases size <;> decide
  omega

theorem index_succ_lt (h : p.toNat + Size.double.width ≤ m.size) :
    p.toNat / 4 + 1 < m.ram.size := by
  have hsize : m.size = m.ram.size * 4 := rfl
  change p.toNat + 8 ≤ m.size at h
  omega

def bytesAt (m : Memory) (size : Size) (p : UInt32) : List UInt8 :=
  (List.range size.width).map fun i => m.byteAt (size.base p + i)

theorem bytes_wordAt (m : Memory) (i : Nat) :
    [m.byteAt (i * 4), m.byteAt (i * 4 + 1), m.byteAt (i * 4 + 2), m.byteAt (i * 4 + 3)] =
      [wordByte (m.wordAt i) 0, wordByte (m.wordAt i) 1, wordByte (m.wordAt i) 2,
        wordByte (m.wordAt i) 3] := by
  have hbyte (k : Nat) (hk : k < 4) : m.byteAt (i * 4 + k) = wordByte (m.wordAt i) k := by
    rw [byteAt, show (i * 4 + k) / 4 = i by omega, show (i * 4 + k) % 4 = k by omega]
  rw [← hbyte 0 (by decide), ← hbyte 1 (by decide), ← hbyte 2 (by decide), ← hbyte 3 (by decide)]
  rfl

theorem readRam_eq (h : p.toNat + size.width ≤ m.size) :
    m.readRam p size = .ofNat (bigEndian (m.bytesAt size p)) := by
  have hlt := p.toNat_lt
  rw [readRam, if_pos (inRam_iff.mpr h), toNat_index]
  cases size with
  | byte =>
    change ((m.wordAt (p.toNat / 4) >>> byteShift p) &&& 0xff).toUInt64 =
      .ofNat (0 * 256 + (wordByte (m.wordAt (p.toNat / 4)) (p.toNat % 4)).toNat)
    rw [byteShift_eq, toNat_wordByte _ (by omega)]
    apply UInt64.toNat_inj.mp
    rw [UInt32.toNat_toUInt64, UInt32.toNat_and, toNat_shiftRight_ofNat _ (by omega),
      UInt64.toNat_ofNat', show (0xff : UInt32).toNat = 2 ^ 8 - 1 from rfl,
      Nat.and_two_pow_sub_one_eq_mod]
    omega
  | half =>
    have hbytes : m.bytesAt .half p = [wordByte (m.wordAt (p.toNat / 4)) (2 * (p.toNat % 4 / 2)),
        wordByte (m.wordAt (p.toNat / 4)) (2 * (p.toNat % 4 / 2) + 1)] := by
      change [m.byteAt (p.toNat / 2 * 2), m.byteAt (p.toNat / 2 * 2 + 1)] = _
      rw [byteAt, byteAt, show p.toNat / 2 * 2 / 4 = p.toNat / 4 by omega,
        show (p.toNat / 2 * 2 + 1) / 4 = p.toNat / 4 by omega,
        show p.toNat / 2 * 2 % 4 = 2 * (p.toNat % 4 / 2) by omega,
        show (p.toNat / 2 * 2 + 1) % 4 = 2 * (p.toNat % 4 / 2) + 1 by omega]
    dsimp only
    rw [hbytes, bigEndian_half _ (by omega), halfShift_eq]
    apply UInt64.toNat_inj.mp
    rw [UInt32.toNat_toUInt64, UInt32.toNat_and, toNat_shiftRight_ofNat _ (by omega),
      UInt64.toNat_ofNat', show (0xffff : UInt32).toNat = 2 ^ 16 - 1 from rfl,
      Nat.and_two_pow_sub_one_eq_mod]
    omega
  | word =>
    have hbytes : bigEndian (m.bytesAt .word p) = (m.wordAt (p.toNat / 4)).toNat := by
      rw [← bigEndian_word, ← bytes_wordAt]
      rfl
    apply UInt64.toNat_inj.mp
    rw [hbytes, UInt32.toNat_toUInt64, UInt64.toNat_ofNat']
    have hw := (m.wordAt (p.toNat / 4)).toNat_lt
    omega
  | double =>
    have hbytes : bigEndian (m.bytesAt .double p) =
        (m.wordAt (p.toNat / 4)).toNat * 2 ^ 32 + (m.wordAt (p.toNat / 4 + 1)).toNat := by
      have hnext := bytes_wordAt m (p.toNat / 4 + 1)
      rw [show (p.toNat / 4 + 1) * 4 = p.toNat / 4 * 4 + 4 by omega] at hnext
      have hsplit : m.bytesAt .double p =
          [m.byteAt (p.toNat / 4 * 4), m.byteAt (p.toNat / 4 * 4 + 1),
            m.byteAt (p.toNat / 4 * 4 + 2), m.byteAt (p.toNat / 4 * 4 + 3)] ++
          [m.byteAt (p.toNat / 4 * 4 + 4), m.byteAt (p.toNat / 4 * 4 + 4 + 1),
            m.byteAt (p.toNat / 4 * 4 + 4 + 2), m.byteAt (p.toNat / 4 * 4 + 4 + 3)] := rfl
      rw [hsplit, bigEndian_append, hnext, bytes_wordAt, bigEndian_word, bigEndian_word]
      norm_num
    apply UInt64.toNat_inj.mp
    rw [hbytes, toNat_joinWords, UInt64.toNat_ofNat']
    have hhigh := (m.wordAt (p.toNat / 4)).toNat_lt
    have hlow := (m.wordAt (p.toNat / 4 + 1)).toNat_lt
    omega

theorem byteAt_setWordAt {i : Nat} (h : i < m.ram.size) (w : UInt32) (a : Nat) :
    (m.setWordAt i w).byteAt a = if a / 4 = i then wordByte w (a % 4) else m.byteAt a := by
  unfold byteAt wordAt setWordAt
  dsimp only
  split
  · rename_i he
    rw [he, getD_setIfInBounds h]
  · rename_i hne
    rw [Array.getD_eq_getD_getElem?, Array.getElem?_setIfInBounds_ne (Ne.symm hne),
      Array.getD_eq_getD_getElem?]

/-- A write changes its own bytes, and no others. -/
theorem byteAt_writeRam (h : p.toNat + size.width ≤ m.size) (v : UInt64) (a : Nat) :
    (m.writeRam p size v).byteAt a =
      if ByteRam.Covers size p a then octet v (size.base p + size.width - 1 - a)
      else m.byteAt a := by
  have hi := index_lt h
  have ha : a % 4 < 4 := Nat.mod_lt _ (by decide)
  have hlow (k : Nat) (hk : k < 4) : wordByte v.toUInt32 k = octet v (3 - k) :=
    wordByte_lowWord v hk
  rw [writeRam, if_pos (inRam_iff.mpr h), toNat_index]
  cases size with
  | byte =>
    have hcovers : ByteRam.Covers .byte p a ↔ a = p.toNat := by
      change p.toNat ≤ a ∧ a < p.toNat + 1 ↔ _
      omega
    have hbyte : v.toUInt32.toUInt8 = octet v 0 := by
      rw [← hlow 3 (by decide)]
      exact congrArg UInt32.toUInt8 (UInt32.shiftRight_zero).symm
    dsimp only
    rw [byteAt_setWordAt hi, wordByte_mergeByte _ _ _ ha]
    by_cases he : a = p.toNat
    · rw [if_pos (by omega), if_pos (by omega), if_pos (hcovers.mpr he), hbyte]
      congr 1
      change 0 = p.toNat + 1 - 1 - a
      omega
    · rw [if_neg (mt hcovers.mp he)]
      split
      · rename_i hdiv
        rw [if_neg (by omega), byteAt, hdiv]
      · rfl
  | half =>
    have hcovers : ByteRam.Covers .half p a ↔ a / 2 = p.toNat / 2 := by
      change p.toNat / 2 * 2 ≤ a ∧ a < p.toNat / 2 * 2 + 2 ↔ _
      omega
    dsimp only
    rw [byteAt_setWordAt hi, wordByte_mergeHalf _ _ _ ha]
    by_cases he : a / 2 = p.toNat / 2
    · rw [if_pos (by omega), if_pos (by omega), if_pos (hcovers.mpr he), hlow _ (by omega)]
      congr 1
      change 3 - (2 + a % 4 % 2) = p.toNat / 2 * 2 + 2 - 1 - a
      omega
    · rw [if_neg (mt hcovers.mp he)]
      split
      · rename_i hdiv
        rw [if_neg (by omega), byteAt, hdiv]
      · rfl
  | word =>
    have hcovers : ByteRam.Covers .word p a ↔ a / 4 = p.toNat / 4 := by
      change p.toNat / 4 * 4 ≤ a ∧ a < p.toNat / 4 * 4 + 4 ↔ _
      omega
    dsimp only
    rw [byteAt_setWordAt hi]
    by_cases he : a / 4 = p.toNat / 4
    · rw [if_pos he, if_pos (hcovers.mpr he), hlow _ ha]
      congr 1
      change 3 - a % 4 = p.toNat / 4 * 4 + 4 - 1 - a
      omega
    · rw [if_neg he, if_neg (mt hcovers.mp he)]
  | double =>
    have hcovers : ByteRam.Covers .double p a ↔
        a / 4 = p.toNat / 4 ∨ a / 4 = p.toNat / 4 + 1 := by
      change p.toNat / 4 * 4 ≤ a ∧ a < p.toNat / 4 * 4 + 8 ↔ _
      omega
    have hnext : p.toNat / 4 + 1 < (m.setWordAt (p.toNat / 4) (highWord v)).ram.size := by
      rw [setWordAt, Array.size_setIfInBounds]
      exact index_succ_lt h
    dsimp only
    rw [byteAt_setWordAt hnext, byteAt_setWordAt hi]
    by_cases he : a / 4 = p.toNat / 4 + 1
    · rw [if_pos he, if_pos (hcovers.mpr (.inr he)), wordByte_lowWord v ha]
      congr 1
      change 3 - a % 4 = p.toNat / 4 * 4 + 8 - 1 - a
      omega
    · rw [if_neg he]
      by_cases he' : a / 4 = p.toNat / 4
      · rw [if_pos he', if_pos (hcovers.mpr (.inl he')), wordByte_highWord v ha]
        congr 1
        change 7 - a % 4 = p.toNat / 4 * 4 + 8 - 1 - a
        omega
      · rw [if_neg he', if_neg fun hc => (hcovers.mp hc).elim he' he]

theorem writeRam_frame (m : Memory) (p : UInt32) (size : Size) (v : UInt64) :
    (m.writeRam p size v).size = m.size ∧ (m.writeRam p size v).codePages = m.codePages ∧
      (m.writeRam p size v).devices = m.devices := by
  unfold writeRam
  split
  · cases size <;> exact ⟨by simp [Memory.size, setWordAt], rfl, rfl⟩
  · exact ⟨rfl, rfl, rfl⟩

theorem toNat_page (p : UInt32) : (p >>> 12).toNat = p.toNat / 4096 := by
  rw [UInt32.toNat_shiftRight, show (12 : UInt32).toNat % 32 = 12 from rfl,
    Nat.shiftRight_eq_div_pow]

namespace Refines

theorem create {n : Int} (h : Memory.create? n = .ok m) : m.Refines (.zero n.toNat) := by
  obtain ⟨k, -, hk, hsize, hmarks⟩ := Memory.Created.pages ⟨n, m, h, rfl, rfl⟩
  unfold Memory.create? at h
  split at h
  · cases h
  split at h
  · cases h
  rename_i hpage
  cases h
  have hzero (i : Nat) : (Array.replicate (n.toNat / 4) (0 : UInt32)).getD i 0 = 0 := by
    rw [Array.getD_eq_getD_getElem?, Array.getElem?_replicate]
    split <;> rfl
  refine ⟨?_, ?_, ?_, rfl, fun a _ => ?_, fun i _ => ?_⟩
  · have hmod : n.toNat % 4096 = 0 := Classical.not_not.mp hpage
    rw [Memory.size, Array.size_replicate]
    change n.toNat / 4 * 4 = n.toNat
    omega
  · rw [hmarks, hsize]
  · omega
  · rw [byteAt, wordAt, hzero]
    have ha : a % 4 < 4 := Nat.mod_lt _ (by decide)
    change wordByte 0 (a % 4) = 0
    interval_cases a % 4 <;> rfl
  · rw [Array.getD_eq_getD_getElem?, Array.getElem?_replicate]
    split <;> rfl

theorem fits_iff (h : m.Refines r) : r.fits p size ↔ p.toNat + size.width ≤ m.size := by
  rw [ByteRam.fits, h.size]

theorem page_lt (h : m.Refines r) (hp : p.toNat + size.width ≤ m.size) :
    p.toNat / 4096 < m.codePages.size := by
  have hpages := h.pages
  have hpos : 1 ≤ size.width := by cases size <;> decide
  omega

theorem isCode (h : m.Refines r) (hp : p.toNat + size.width ≤ m.size) :
    m.isCode p = r.marked (p.toNat / 4096) := by
  rw [Memory.isCode, toNat_page]
  exact h.marked _ (h.page_lt hp)

theorem read (h : m.Refines r) (p : UInt32) (size : Size) : m.readRam p size = r.read p size := by
  rw [ByteRam.read]
  by_cases hp : r.fits p size
  · rw [if_pos hp, readRam_eq (h.fits_iff.mp hp)]
    refine congrArg (fun bs => UInt64.ofNat (bigEndian bs)) (List.map_congr_left fun i hi => ?_)
    refine h.byte _ ?_
    have hi := List.mem_range.mp hi
    have hbase : size.base p ≤ p.toNat := by
      cases size <;> simp only [Size.base] <;> omega
    change p.toNat + size.width ≤ r.size at hp
    omega
  · rw [if_neg hp, readRam, if_neg (mt inRam_iff.mp (mt h.fits_iff.mpr hp))]

theorem write (h : m.Refines r) (p : UInt32) (size : Size) (v : UInt64) :
    (m.writeRam p size v).Refines (r.write p size v) := by
  obtain ⟨hsize, hmarks, hdevices⟩ := writeRam_frame m p size v
  by_cases hp : r.fits p size
  · rw [ByteRam.write, if_pos hp]
    refine ⟨hsize.trans h.size, ?_, hsize.trans_le h.small, hdevices.trans h.plain, ?_, ?_⟩
    · rw [hmarks, hsize, h.pages]
    · intro a ha
      rw [byteAt_writeRam (h.fits_iff.mp hp)]
      exact if_congr Iff.rfl rfl (h.byte a ha)
    · rw [hmarks]
      exact h.marked
  · rw [ByteRam.write, if_neg hp, writeRam, if_neg (mt inRam_iff.mp (mt h.fits_iff.mpr hp))]
    exact h

theorem mark (h : m.Refines r) (p : UInt32) (on : Bool) :
    (m.markCode p on).Refines (r.mark p on) := by
  refine ⟨h.size, ?_, h.small, h.plain, h.byte, fun k hk => ?_⟩
  · change (m.codePages.setIfInBounds _ on).size * 4096 = m.size
    rw [Array.size_setIfInBounds, h.pages]
  · rw [markCode, Array.size_setIfInBounds] at hk
    rw [markCode, ByteRam.mark, toNat_page, Array.getD_eq_getD_getElem?]
    dsimp only
    by_cases he : k = p.toNat / 4096
    · rw [if_pos he, ← he, Array.getElem?_setIfInBounds_self_of_lt hk]
      rfl
    · rw [if_neg he, Array.getElem?_setIfInBounds_ne (Ne.symm he), ← Array.getD_eq_getD_getElem?]
      exact h.marked k hk

end Refines

theorem getElem?_wordAt {i : Nat} (h : i < m.ram.size) : m.ram[i]? = some (m.wordAt i) := by
  rw [wordAt, Array.getD_eq_getD_getElem?, Array.getElem?_eq_getElem h]
  rfl

theorem readRam?_eq (m : Memory) (p : UInt32) (size : Size) :
    m.readRam? p size = some (m.readRam p size) := by
  unfold Memory.readRam? readRam
  split
  · rename_i hp
    have hp := inRam_iff.mp hp
    rw [toNat_index, getElem?_wordAt (index_lt hp)]
    cases size with
    | byte | half | word => rfl
    | double =>
      change (m.ram[p.toNat / 4 + 1]?).bind _ = _
      rw [getElem?_wordAt (index_succ_lt hp)]
      rfl
  · rfl

theorem writeRam?_eq (hp : p.toNat + size.width ≤ m.size) (v : UInt64) :
    m.writeRam? p size v = some (m.writeRam p size v) := by
  have hset (m' : Memory) {i : Nat} (hi : i < m'.ram.size) (w : UInt32) :
      m'.setWord? i w = some (m'.setWordAt i w) := if_pos hi
  have hi := index_lt hp
  unfold writeRam? writeRam
  rw [if_pos (inRam_iff.mpr hp), toNat_index]
  cases size with
  | byte | half =>
    dsimp only
    rw [getElem?_wordAt hi]
    exact hset m hi _
  | word => exact hset m hi _
  | double =>
    dsimp only
    rw [hset m hi]
    refine hset _ ?_ _
    rw [setWordAt, Array.size_setIfInBounds]
    exact index_succ_lt hp

theorem Refines.backed (h : m.Refines r) (hp : p.toNat + size.width ≤ m.size) :
    m.backed p = true := by
  have hsmall := h.small
  have hpos : 1 ≤ size.width := by cases size <;> decide
  refine decide_eq_true (UInt32.le_iff_toNat_le.mpr ?_)
  rw [UInt32.toNat_shiftRight, UInt32.toNat_shiftRight, Nat.shiftRight_eq_div_pow,
    Nat.shiftRight_eq_div_pow]
  refine Nat.div_le_div_right ?_
  rw [UInt32.toNat_ofNat']
  omega

theorem Refines.readPhys? (h : m.Refines r) (p : UInt32) (size : Size) :
    m.readPhys? p size = some (r.read p size) := by
  unfold Memory.readPhys?
  split
  · rw [readRam?_eq, h.read]
  · rename_i hb
    rw [ByteRam.read, if_neg fun hp => hb (h.backed (h.fits_iff.mp hp))]

theorem Refines.writePhys? (h : m.Refines r) (watched : Bool) (p : UInt32) (size : Size)
    (v : UInt64) : m.writePhys? watched p size v =
      some (if watched ∧ r.Strikes p size then [p] else [], m.writeRam p size v) := by
  unfold Memory.writePhys?
  by_cases hp : p.toNat + size.width ≤ m.size
  · have hmark : (m.writeRam p size v).codePages[(p >>> 12).toNat]? =
        some (r.marked (p.toNat / 4096)) := by
      rw [(writeRam_frame m p size v).2.1, toNat_page, ← h.marked _ (h.page_lt hp),
        Array.getD_eq_getD_getElem?, Array.getElem?_eq_getElem (h.page_lt hp)]
      rfl
    have hstrikes : r.Strikes p size ↔ r.marked (p.toNat / 4096) = true :=
      and_iff_right (h.fits_iff.mpr hp)
    have hreports : (m.writeRam p size v).reports? watched p =
        some (if watched ∧ r.Strikes p size then [p] else []) := by
      rw [reports?, hmark]
      cases watched <;> simp [hstrikes]
    rw [if_pos ⟨h.backed hp, inRam_iff.mpr hp⟩, writeRam?_eq hp]
    change ((m.writeRam p size v).reports? watched p).bind _ = _
    rw [hreports]
    rfl
  · rw [if_neg fun hb => hp (inRam_iff.mp hb.2), if_neg fun hs => hp (h.fits_iff.mp hs.2.1),
      writeRam, if_neg (mt inRam_iff.mp hp)]

end Memory

namespace Cpu

variable {c : Cpu} {r : ByteRam}

theorem readPhys_eq (h : c.mem.Refines r) (p : UInt32) (size : Size) :
    c.readPhys p size = (r.read p size, c) := by
  rw [readPhys, Memory.deviceAt?, h.plain, ← h.read]
  rfl

theorem writePhys_eq (h : c.mem.Refines r) (p : UInt32) (size : Size) (v : UInt64) :
    c.writePhys p size v =
      if r.Strikes p size then
        { c with mem := c.mem.writeRam p size v }.emit (.codeWritten p)
      else { c with mem := c.mem.writeRam p size v } := by
  rw [writePhys, Memory.deviceAt?, h.plain]
  by_cases hp : p.toNat + size.width ≤ c.mem.size
  · have hcode : (c.mem.writeRam p size v).isCode p = r.marked (p.toNat / 4096) := by
      rw [← h.isCode hp, Memory.isCode, (Memory.writeRam_frame c.mem p size v).2.1, Memory.isCode]
    change (if c.mem.inRam p size.bytes = true then _ else _) = _
    rw [if_pos (Memory.inRam_iff.mpr hp)]
    dsimp only
    rw [hcode]
    exact if_congr (and_iff_right (h.fits_iff.mpr hp)).symm rfl rfl
  · change (if c.mem.inRam p size.bytes = true then _ else _) = _
    rw [if_neg (mt Memory.inRam_iff.mp hp), if_neg fun hs => hp (h.fits_iff.mp hs.1),
      Memory.writeRam, if_neg (mt Memory.inRam_iff.mp hp)]

def afterRam (c : Cpu) (m : Memory) (reports : List UInt32) : Cpu :=
  { c with mem := m, effects := c.effects ++ (reports.map Effect.codeWritten).toArray }

theorem ramStep_eq (h : c.mem.Refines r) (op : RamOp) : ∃ m : Memory,
    c.ramStep op = ((r.step op).values, c.afterRam m (r.step op).reports) ∧
      m.Refines (r.step op).state ∧
      ∀ watched, c.mem.ramStep? watched op =
        some ⟨(r.step op).values, if watched then (r.step op).reports else [], m⟩ := by
  cases op with
  | read p size =>
    refine ⟨c.mem, ?_, h, fun watched => ?_⟩
    · rw [ramStep, readPhys_eq h]
      simp [afterRam, ByteRam.step]
    · rw [Memory.ramStep?, h.readPhys?, ByteRam.step, ite_self]
      rfl
  | write p size v =>
    refine ⟨c.mem.writeRam p size v, ?_, h.write p size v, fun watched => ?_⟩
    · rw [ramStep, writePhys_eq h, ByteRam.step]
      split <;> simp [afterRam, emit]
    · rw [Memory.ramStep?, h.writePhys?, ByteRam.step]
      cases watched <;> simp
  | mark p on =>
    refine ⟨c.mem.markCode p on, ?_, h.mark p on, fun watched => ?_⟩
    · simp [afterRam, ramStep, ByteRam.step]
    · rw [Memory.ramStep?, ByteRam.step, ite_self]

theorem ramRun_eq (h : c.mem.Refines r) (ops : List RamOp) : ∃ m : Memory,
    c.ramRun ops = ((r.run ops).values, c.afterRam m (r.run ops).reports) ∧
      m.Refines (r.run ops).state ∧
      ∀ watched, c.mem.ramRun? watched ops =
        some ⟨(r.run ops).values, if watched then (r.run ops).reports else [], m⟩ := by
  induction ops generalizing c r with
  | nil =>
    refine ⟨c.mem, ?_, h, fun watched => ?_⟩
    · simp [afterRam, ramRun, ByteRam.run]
    · rw [Memory.ramRun?, ByteRam.run, ite_self]
  | cons op ops ih =>
    obtain ⟨m₁, hstep, h₁, hchecked₁⟩ := ramStep_eq h op
    obtain ⟨m₂, hrun, h₂, hchecked₂⟩ := ih (c := c.afterRam m₁ (r.step op).reports) h₁
    refine ⟨m₂, ?_, h₂, fun watched => ?_⟩
    · rw [ramRun, hstep]
      dsimp only
      rw [hrun]
      simp [afterRam, ByteRam.run]
    · rw [Memory.ramRun?, hchecked₁ watched]
      change (m₁.ramRun? watched ops).bind _ = _
      rw [show m₁.ramRun? watched ops = _ from hchecked₂ watched]
      cases watched <;> rfl

end Cpu

namespace ByteRam

theorem size_step (r : ByteRam) (op : RamOp) : (r.step op).state.size = r.size := by
  cases op with
  | read | mark => rfl
  | write p size v =>
    change (r.write p size v).size = r.size
    unfold write
    split <;> rfl

theorem size_run (r : ByteRam) (ops : List RamOp) : (r.run ops).state.size = r.size := by
  induction ops generalizing r with
  | nil => rfl
  | cons op ops ih => exact (ih _).trans (r.size_step op)

end ByteRam

/-- The CPU has RAM of `n` bytes. -/
structure Cpu.HasBytes (n : Nat) (c : Cpu) : Prop where
  /-- A naturally aligned read gives the big-endian value of its bytes. -/
  read (p : UInt32) (size : Size) : p.toNat + size.width ≤ n → p.toNat % size.width = 0 →
    c.readPhys p size =
      (.ofNat (bigEndian ((List.range size.width).map fun i => c.mem.byteAt (p.toNat + i))), c)
  /-- A naturally aligned write changes its bytes, and no others. -/
  write (p : UInt32) (size : Size) (v : UInt64) :
    p.toNat + size.width ≤ n → p.toNat % size.width = 0 → ∀ a, (c.writePhys p size v).mem.byteAt a =
      if p.toNat ≤ a ∧ a < p.toNat + size.width then octet v (p.toNat + size.width - 1 - a)
      else c.mem.byteAt a
  /-- An access that is not wholly inside reads zero and changes nothing. -/
  outside (p : UInt32) (size : Size) (v : UInt64) : n < p.toNat + size.width →
    c.readPhys p size = (0, c) ∧ c.writePhys p size v = c
  /-- A write to a marked page is reported after it has been made, and no other. -/
  report (p : UInt32) (size : Size) (v : UInt64) :
    c.writePhys p size v =
      if p.toNat + size.width ≤ n ∧ c.mem.isCode p then
        { c with mem := c.mem.writeRam p size v }.emit (.codeWritten p)
      else { c with mem := c.mem.writeRam p size v }
  /-- The host, if it watches for them, reacts to each report at once. -/
  react (p : UInt32) (size : Size) (v : UInt64) (host : Host) : c.effects = #[] →
    Engine.onCpu ⟨c, host⟩ (·.writePhys p size v) =
      let e : Engine := ⟨{ c with mem := c.mem.writeRam p size v }, host⟩
      if host.watching ∧ p.toNat + size.width ≤ n ∧ c.mem.isCode p then e.codeWritten p else e

theorem Memory.Refines.hasBytes {c : Cpu} {r : ByteRam} (h : c.mem.Refines r) :
    c.HasBytes r.size := by
  have hreport (p : UInt32) (size : Size) (v : UInt64) : c.writePhys p size v =
      if p.toNat + size.width ≤ r.size ∧ c.mem.isCode p then
        { c with mem := c.mem.writeRam p size v }.emit (.codeWritten p)
      else { c with mem := c.mem.writeRam p size v } := by
    rw [Cpu.writePhys_eq h]
    refine if_congr (and_congr_right fun hp => ?_) rfl rfl
    rw [h.isCode (h.fits_iff.mp hp)]
  have hwrite (p : UInt32) (size : Size) (v : UInt64) :
      (c.writePhys p size v).mem = c.mem.writeRam p size v := by
    rw [hreport]
    split <;> rfl
  constructor
  case read =>
    intro p size hp ha
    rw [Cpu.readPhys_eq h, ← h.read, Memory.readRam_eq (h.fits_iff.mp hp), Memory.bytesAt,
      Size.base_of_aligned ha]
  case write =>
    intro p size v hp ha a
    rw [hwrite, Memory.byteAt_writeRam (h.fits_iff.mp hp), ← Size.base_of_aligned ha]
    exact if_congr Iff.rfl rfl rfl
  case outside =>
    intro p size v hp
    have hout : ¬ r.fits p size := Nat.not_le.mpr hp
    have hstay : c.mem.writeRam p size v = c.mem := by
      rw [Memory.writeRam, if_neg (mt Memory.inRam_iff.mp (mt h.fits_iff.mpr hout))]
    rw [Cpu.readPhys_eq h, ByteRam.read, if_neg hout, hreport, if_neg fun hb => hout hb.1, hstay]
    exact ⟨rfl, rfl⟩
  case report => exact hreport
  case react =>
    intro p size v host he
    have hcpu : Engine.mapCpu ⟨c, host⟩ (·.writePhys p size v) = ⟨c.writePhys p size v, host⟩ := rfl
    rw [Engine.onCpu, hcpu, hreport]
    by_cases hs : p.toNat + size.width ≤ r.size ∧ c.mem.isCode p
    · simp [hs, Engine.settle, Cpu.emit, he, Engine.react, Engine.mapCpu, Cpu.drained]
    · simp [hs, Engine.settle, he]

/-- The accessors of RAM are those of a big-endian array of bytes. For memory of every size that
can be created, and every sequence of operations, what is read are the values of the bytes written
last, or of zeros. No index leaves the arrays of words and of marks. The writes that are reported
are those inside whose page is marked, with their address. -/
theorem ram_refines_bytes {n : Int} {m : Memory} (h : Memory.create? n = .ok m) (c : Cpu)
    (hc : c.mem = m) (ops : List RamOp) :
    let bytes := (ByteRam.zero n.toNat).run ops
    ∃ m' : Memory,
      c.ramRun ops = (bytes.values, { c with
        mem := m', effects := c.effects ++ (bytes.reports.map Effect.codeWritten).toArray }) ∧
      (∀ watched, m.ramRun? watched ops =
        some ⟨bytes.values, if watched then bytes.reports else [], m'⟩) ∧
      (∀ a < n.toNat, m'.byteAt a = bytes.state.byte a) ∧
      (∀ a < n.toNat, m'.codePages.getD (a / 4096) false = bytes.state.marked (a / 4096)) ∧
      ∀ c' : Cpu, c'.mem = m' → c'.HasBytes n.toNat := by
  subst hc
  obtain ⟨m', hrun, hlast, hchecked⟩ := Cpu.ramRun_eq (Memory.Refines.create h) ops
  have hsize := ByteRam.size_run (.zero n.toNat) ops
  refine ⟨m', hrun, hchecked, fun a ha => hlast.byte a (hsize.symm ▸ ha), fun a ha => ?_, ?_⟩
  · have hpages := hlast.pages
    rw [hlast.size, hsize] at hpages
    change _ = n.toNat at hpages
    exact hlast.marked _ (by omega)
  · rintro c' rfl
    have hbytes := hlast.hasBytes
    rw [hsize] at hbytes
    exact hbytes

/-- A half written over a word, in a page that is marked, and a read past the end. -/
theorem ram_refines_bytes_page :
    Memory.create? 4096 = .ok ⟨Array.replicate 1024 0, Array.replicate 1 false, []⟩ ∧
      ((Cpu.powerOn ⟨Array.replicate 1024 0, Array.replicate 1 false, []⟩ none).ramRun
        [.write 4 .word 0x01020304, .mark 0 true, .write 6 .half 0xaabb, .read 4 .word,
          .read 4093 .word]).1 = [0x0102aabb, 0] := by
  have hcreate : Memory.create? 4096 =
      .ok ⟨Array.replicate 1024 0, Array.replicate 1 false, []⟩ := rfl
  obtain ⟨m', hrun, -⟩ := ram_refines_bytes hcreate (Cpu.powerOn _ none) rfl
    [.write 4 .word 0x01020304, .mark 0 true, .write 6 .half 0xaabb, .read 4 .word,
      .read 4093 .word]
  exact ⟨hcreate, (congrArg Prod.fst hrun).trans rfl⟩

end Recompiler
