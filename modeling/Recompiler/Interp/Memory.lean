import Recompiler.Cpu.Access
import Recompiler.Instr.Class

/-!
Loads and stores of the interpreter. A faulting access raises its exception and changes
nothing else.
-/

namespace Recompiler.Interp

/-- The address of an access: the low word of the base plus the offset. -/
def effective (c : Cpu) (i : Instr) : UInt32 :=
  (c.reg i.rs).toUInt32 + i.simm.toUInt32

def loadSize : LoadOp → Size
  | .lb | .lbu => .byte
  | .lh | .lhu => .half
  | .lw | .lwu => .word
  | .ld => .double

/-- The register value of what a load has read. -/
def extendLoad (op : LoadOp) (v : UInt64) : UInt64 :=
  match op with
  | .lb => sext8 v
  | .lh => sext16 v
  | .lw => sext32 v
  | .lbu | .lhu | .lwu | .ld => v

def execLoad (c : Cpu) (i : Instr) (op : LoadOp) : Cpu :=
  match c.load (effective c i) (loadSize op) with
  | (some v, c) => c.setReg i.rt (extendLoad op v)
  | (none, c) => c

def execStore (c : Cpu) (i : Instr) (size : Size) : Cpu :=
  (c.store (effective c i) size (c.reg i.rt)).2

def widthSize : Width → Size
  | .word => .word
  | .double => .double

/-- The address of the word or double word that holds `addr`. -/
def container (addr : UInt32) (width : Width) : UInt32 :=
  match width with
  | .word => addr &&& ~~~(3 : UInt32)
  | .double => addr &&& ~~~(7 : UInt32)

/-- How many bits of its container an unaligned access leaves out. -/
def partShift (addr : UInt32) (side : Side) (width : Width) : UInt64 :=
  match side, width with
  | .left, .word => (addr &&& 3).toUInt64 * 8
  | .right, .word => (3 - (addr &&& 3)).toUInt64 * 8
  | .left, .double => (addr &&& 7).toUInt64 * 8
  | .right, .double => (7 - (addr &&& 7)).toUInt64 * 8

/-- The low `sh` bits; the amount is below 64. -/
def lowMask (sh : UInt64) : UInt64 := (1 <<< sh) - 1

/-- The register after an unaligned load of a word. -/
def mergeLoadWord (side : Side) (sh : UInt32) (old mem : UInt32) : UInt32 :=
  match side with
  | .left => (old &&& ((1 <<< sh) - 1)) ||| (mem <<< sh)
  | .right => (old &&& ~~~((0xffffffff : UInt32) >>> sh)) ||| (mem >>> sh)

/-- The register after an unaligned load of a double word. -/
def mergeLoadDouble (side : Side) (sh : UInt64) (old mem : UInt64) : UInt64 :=
  match side with
  | .left => (old &&& lowMask sh) ||| (mem <<< sh)
  | .right => (old &&& ~~~((0xffffffffffffffff : UInt64) >>> sh)) ||| (mem >>> sh)

def execLoadPart (c : Cpu) (i : Instr) (side : Side) (width : Width) : Cpu :=
  let addr := effective c i
  let sh := partShift addr side width
  match c.load (container addr width) (widthSize width) with
  | (some mem, c) =>
    let old := c.reg i.rt
    match width with
    | .word => c.setReg i.rt (sextWord (mergeLoadWord side sh.toUInt32 old.toUInt32 mem.toUInt32))
    | .double => c.setReg i.rt (mergeLoadDouble side sh old mem)
  | (none, c) => c

/-- The word in memory after an unaligned store. -/
def mergeStoreWord (side : Side) (sh : UInt32) (v mem : UInt32) : UInt32 :=
  match side with
  | .left => (mem &&& ~~~((0xffffffff : UInt32) >>> sh)) ||| (v >>> sh)
  | .right => (mem &&& ((1 <<< sh) - 1)) ||| (v <<< sh)

/-- The double word in memory after an unaligned store. -/
def mergeStoreDouble (side : Side) (sh : UInt64) (v mem : UInt64) : UInt64 :=
  match side with
  | .left => (mem &&& ~~~((0xffffffffffffffff : UInt64) >>> sh)) ||| (v >>> sh)
  | .right => (mem &&& lowMask sh) ||| (v <<< sh)

def execStorePart (c : Cpu) (i : Instr) (side : Side) (width : Width) : Cpu :=
  let addr := effective c i
  let sh := partShift addr side width
  match c.load (container addr width) (widthSize width) with
  | (some mem, c) =>
    let v := c.reg i.rt
    let merged := match width with
      | .word => (mergeStoreWord side sh.toUInt32 v.toUInt32 mem.toUInt32).toUInt64
      | .double => mergeStoreDouble side sh v mem
    (c.store (container addr width) (widthSize width) merged).2
  | (none, c) => c

/-- A linked load remembers the physical line it has read. -/
def execLoadLinked (c : Cpu) (i : Instr) (width : Width) : Cpu :=
  let addr := effective c i
  match c.load addr (widthSize width) with
  | (some v, c) =>
    let paddr := (c.physical? addr false).getD 0
    let v := match width with
      | .word => sext32 v
      | .double => v
    { (c.setReg i.rt v).setSysReg Cop0.llAddr (paddr >>> 4).toUInt64 with llBit := 1 }
  | (none, c) => c

/-- A conditional store fails without a link, and consumes it when it succeeds. -/
def execStoreConditional (c : Cpu) (i : Instr) (width : Width) : Cpu :=
  if c.llBit = 0 then c.setReg i.rt 0
  else
    match c.store (effective c i) (widthSize width) (c.reg i.rt) with
    | (true, c) => { c with llBit := 0 }.setReg i.rt 1
    | (false, c) => c

def execLoadFp (c : Cpu) (i : Instr) (width : Width) : Cpu :=
  match c.load (effective c i) (widthSize width) with
  | (some v, c) =>
    match width with
    | .word => c.setSingle i.ft v.toUInt32
    | .double => c.setDouble i.ft v
  | (none, c) => c

def execStoreFp (c : Cpu) (i : Instr) (width : Width) : Cpu :=
  let v := match width with
    | .word => (c.single i.ft).toUInt64
    | .double => c.double i.ft
  (c.store (effective c i) (widthSize width) v).2

end Recompiler.Interp
