import Recompiler.Cpu.Exception

/-!
The physical addresses of virtual ones, and the instructions that read, write and search the
lookaside buffer.
-/

namespace Recompiler

namespace TlbEntry

def globalBit : UInt32 := 1

def validBit : UInt32 := 2

def dirtyBit : UInt32 := 4

/-- The entry matches every address space. -/
def isGlobal (e : TlbEntry) : Bool :=
  e.entryLo0 &&& e.entryLo1 &&& globalBit != 0

/-- The address bits inside the pair of pages. -/
def mask (e : TlbEntry) : UInt32 := e.pageMask ||| 0x1fff

/-- The first address of the pair of pages and the first after it. -/
def range (e : TlbEntry) : UInt32 × UInt32 :=
  let lo := e.entryHi &&& ~~~e.mask
  (lo, lo + e.mask + 1)

/-- Is either page mapped? -/
def isValid (e : TlbEntry) : Bool :=
  (e.entryLo0 ||| e.entryLo1) &&& validBit != 0

/-- Does the address lie in the pair of pages, for the given address space? -/
def covers (e : TlbEntry) (vaddr asid : UInt32) : Bool :=
  vaddr &&& ~~~e.mask == e.entryHi &&& ~~~e.mask
    && (e.isGlobal || e.entryHi &&& 0xff == asid)

/-- The half of the entry for the page that holds the address. -/
def page (e : TlbEntry) (vaddr : UInt32) : UInt32 :=
  if vaddr &&& ((e.mask + 1) >>> 1) != 0 then e.entryLo1 else e.entryLo0

/-- The physical address on the given page. -/
def frame (e : TlbEntry) (page vaddr : UInt32) : UInt32 :=
  let offsetMask := e.mask >>> 1
  (((page >>> 6) <<< 12) &&& ~~~offsetMask) ||| (vaddr &&& offsetMask)

end TlbEntry

/-- What an address leads to. -/
inductive Lookup where
  | found (paddr : UInt32)
  | miss
  | invalid
  | modified
  deriving DecidableEq, Inhabited, Repr

/-- Addresses that are mapped directly, without the lookaside buffer. -/
def isUnmapped (vaddr : UInt32) : Bool :=
  0x80000000 ≤ vaddr && vaddr < 0xc0000000

/-- The physical address of the window that some cartridges expect at `0x7f000000`. -/
def goldenEyeWindow : UInt32 := 0x10034b30

namespace Cpu

/-- The address space of the running program. -/
def asid (c : Cpu) : UInt32 := (c.sysReg Cop0.entryHi).toUInt32 &&& 0xff

/-- The first entry that matches an address. -/
def tlbIndex? (c : Cpu) (vaddr asid : UInt32) : Option (Fin 32) :=
  (List.finRange 32).find? fun i => (c.tlb.get i).covers vaddr asid

/-- The address in the window at `0x7f000000`, if it is mapped. -/
def windowAddress? (c : Cpu) (vaddr : UInt32) : Option UInt32 :=
  match c.window with
  | some base =>
    if 0x7f000000 ≤ vaddr && vaddr < 0x80000000 then some (base + (vaddr &&& 0x00ffffff))
    else none
  | none => none

def lookupTlb (c : Cpu) (vaddr : UInt32) (write : Bool) : Lookup :=
  match c.tlbIndex? vaddr c.asid with
  | none => .miss
  | some i =>
    let e := c.tlb.get i
    let page := e.page vaddr
    if page &&& TlbEntry.validBit == 0 then .invalid
    else if write && page &&& TlbEntry.dirtyBit == 0 then .modified
    else .found (e.frame page vaddr)

def lookup (c : Cpu) (vaddr : UInt32) (write : Bool) : Lookup :=
  match c.windowAddress? vaddr with
  | some paddr => .found paddr
  | none =>
    if isUnmapped vaddr then .found (vaddr &&& 0x1fffffff) else c.lookupTlb vaddr write

/-- The physical address of a virtual one, without side effects. -/
def physical? (c : Cpu) (vaddr : UInt32) (write : Bool) : Option UInt32 :=
  match c.lookup vaddr write with
  | .found paddr => some paddr
  | _ => none

/-- The physical address of a virtual one; if there is none, the matching exception is
raised. -/
def toPhysical (c : Cpu) (vaddr : UInt32) (write : Bool) : Option UInt32 × Cpu :=
  match c.lookup vaddr write with
  | .found paddr => (some paddr, c)
  | .miss => (none, c.raiseRefill vaddr write)
  | .invalid => (none, c.raiseTlb vaddr (.tlb write))
  | .modified => (none, c.raiseTlb vaddr .tlbModified)

/-- The random register: it counts down with the cycles to the wired entries. -/
def random (c : Cpu) : UInt32 :=
  let wired := (c.sysReg Cop0.wired).toUInt32 &&& 31
  if 31 ≤ wired then 31 else 31 - c.cycle % (32 - wired)

/-- The entry that the index register selects. -/
def indexedEntry (c : Cpu) : Fin 32 :=
  Fin.ofNat 32 (c.sysReg Cop0.index).toNat

def tlbRead (c : Cpu) : Cpu :=
  let e := c.tlb.get c.indexedEntry
  let g : UInt64 := if e.isGlobal then 1 else 0
  let c := c.setSysReg Cop0.pageMask e.pageMask.toUInt64
  let c := c.setSysReg Cop0.entryHi (sextWord (e.entryHi &&& ~~~e.pageMask))
  let c := c.setSysReg Cop0.entryLo0 ((e.entryLo0 &&& ~~~TlbEntry.globalBit).toUInt64 ||| g)
  c.setSysReg Cop0.entryLo1 ((e.entryLo1 &&& ~~~TlbEntry.globalBit).toUInt64 ||| g)

/-- The entry in the registers, as it is written. -/
def pendingEntry (c : Cpu) : TlbEntry :=
  let mask := (c.sysReg Cop0.pageMask).toUInt32 &&& 0x01ffe000
  { pageMask := mask
    entryHi := (c.sysReg Cop0.entryHi).toUInt32 &&& ~~~mask &&& ~~~(0x1f00 : UInt32)
    entryLo0 := (c.sysReg Cop0.entryLo0).toUInt32 &&& 0x3fffffff
    entryLo1 := (c.sysReg Cop0.entryLo1).toUInt32 &&& 0x3fffffff }

def tlbWriteAt (c : Cpu) (i : Fin 32) : Cpu :=
  let old := c.tlb.get i
  let new := c.pendingEntry
  { c with tlb := c.tlb.put i new }.emit (.tlbWritten old new)

def tlbWriteIndexed (c : Cpu) : Cpu := c.tlbWriteAt c.indexedEntry

def tlbWriteRandom (c : Cpu) : Cpu := c.tlbWriteAt (Fin.ofNat 32 c.random.toNat)

def tlbProbe (c : Cpu) : Cpu :=
  let hi := (c.sysReg Cop0.entryHi).toUInt32
  match c.tlbIndex? (hi &&& ~~~(0x1fff : UInt32)) (hi &&& 0xff) with
  | some i => c.setSysReg Cop0.index (UInt64.ofNat i.val)
  | none => c.setSysReg Cop0.index 0x80000000

end Cpu

end Recompiler
