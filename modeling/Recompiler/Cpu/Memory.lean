import Recompiler.Instr.Kind
import Recompiler.Text.Number

/-!
Physical memory: RAM at address zero, devices in regions of 64 KiB, and marks of the RAM pages
that hold compiled code. Everything else reads as zero and ignores writes.
-/

namespace Recompiler

namespace Size

/-- The number of bytes of an access. -/
def bytes : Size → UInt32
  | .byte => 1
  | .half => 2
  | .word => 4
  | .double => 8

end Size

/-- A device on the regions `first` to `last`, which are the high halves of its addresses. -/
structure Device where
  first : UInt32
  last : UInt32
  read : UInt32 → Size → UInt64

namespace Device

def covers (d : Device) (paddr : UInt32) : Bool :=
  d.first ≤ paddr >>> 16 && paddr >>> 16 ≤ d.last

end Device

inductive MemoryError where
  | invalidSize (size : Int)
  | unalignedSize (size : Nat)
  deriving DecidableEq, Repr

namespace MemoryError

def message : MemoryError → String
  | .invalidSize size => "invalid RAM size: " ++ Text.signed size
  | .unalignedSize size => "RAM size is not page aligned: 0x" ++ Text.hex size

end MemoryError

/-- The physical address space. A RAM word holds its first byte in its highest bits. -/
structure Memory where
  ram : Array UInt32
  codePages : Array Bool
  /-- The latest device first: it covers those before it. -/
  devices : List Device

namespace Memory

def pageSize : Nat := 4096

def maxSize : Nat := 67108864

/-- Memory with `size` bytes of RAM, all zero. -/
def create? (size : Int) : Except MemoryError Memory :=
  if size ≤ 0 ∨ maxSize < size then .error (.invalidSize size)
  else if size.toNat % pageSize ≠ 0 then .error (.unalignedSize size.toNat)
  else .ok {
    ram := Array.replicate (size.toNat / 4) 0
    codePages := Array.replicate (size.toNat / pageSize) false
    devices := [] }

/-- Puts a device on the regions that hold the addresses `lo` to `hi`. -/
def map (m : Memory) (lo hi : UInt32) (read : UInt32 → Size → UInt64) : Memory :=
  { m with devices := ⟨lo >>> 16, hi >>> 16, read⟩ :: m.devices }

def deviceAt? (m : Memory) (paddr : UInt32) : Option Device :=
  m.devices.find? (·.covers paddr)

/-- The number of bytes of RAM. -/
def size (m : Memory) : Nat := m.ram.size * 4

/-- Does an access of `n` bytes stay inside RAM? -/
def inRam (m : Memory) (paddr n : UInt32) : Bool :=
  paddr.toNat + n.toNat ≤ m.size

/-- Sets or clears the code mark of the page that holds `paddr`. -/
def markCode (m : Memory) (paddr : UInt32) (on : Bool) : Memory :=
  { m with codePages := m.codePages.setIfInBounds (paddr >>> 12).toNat on }

/-- Is the page that holds `paddr` marked as code? -/
def isCode (m : Memory) (paddr : UInt32) : Bool :=
  m.codePages.getD (paddr >>> 12).toNat false

/-- The word with the given index. -/
def wordAt (m : Memory) (i : Nat) : UInt32 := m.ram.getD i 0

def setWordAt (m : Memory) (i : Nat) (v : UInt32) : Memory :=
  { m with ram := m.ram.setIfInBounds i v }

/-- How far a byte of a word stands from its low end, in bits. -/
def byteShift (paddr : UInt32) : UInt32 := (3 - (paddr &&& 3)) * 8

/-- How far a half of a word stands from its low end, in bits. -/
def halfShift (paddr : UInt32) : UInt32 := (2 - (paddr &&& 2)) * 8

/-- Reads RAM; what is not wholly inside reads as zero. -/
def readRam (m : Memory) (paddr : UInt32) (size : Size) : UInt64 :=
  if m.inRam paddr size.bytes then
    let i := (paddr >>> 2).toNat
    let w := m.wordAt i
    match size with
    | .byte => ((w >>> byteShift paddr) &&& 0xff).toUInt64
    | .half => ((w >>> halfShift paddr) &&& 0xffff).toUInt64
    | .word => w.toUInt64
    | .double => joinWords w (m.wordAt (i + 1))
  else 0

/-- The word `w` with the bits of `mask` replaced by those of `v`, both moved by `sh`. -/
def mergeWord (w mask v sh : UInt32) : UInt32 :=
  (w &&& ~~~(mask <<< sh)) ||| ((v &&& mask) <<< sh)

/-- Writes RAM; what is not wholly inside is ignored. -/
def writeRam (m : Memory) (paddr : UInt32) (size : Size) (v : UInt64) : Memory :=
  if m.inRam paddr size.bytes then
    let i := (paddr >>> 2).toNat
    match size with
    | .byte => m.setWordAt i (mergeWord (m.wordAt i) 0xff v.toUInt32 (byteShift paddr))
    | .half => m.setWordAt i (mergeWord (m.wordAt i) 0xffff v.toUInt32 (halfShift paddr))
    | .word => m.setWordAt i v.toUInt32
    | .double => (m.setWordAt i (highWord v)).setWordAt (i + 1) (lowWord v)
  else m

/-- Writes bytes one after the other, by address. -/
def writeBytes (m : Memory) (paddr : UInt32) : List UInt8 → Memory
  | [] => m
  | b :: bs => (m.writeRam paddr .byte b.toUInt64).writeBytes (paddr + 1) bs

/-- Writes words one after the other, by address. -/
def writeWords (m : Memory) (paddr : UInt32) : List UInt32 → Memory
  | [] => m
  | w :: ws => (m.writeRam paddr .word w.toUInt64).writeWords (paddr + 4) ws

end Memory

end Recompiler
