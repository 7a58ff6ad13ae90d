import Recompiler.Cpu.Tlb

/-!
Loads and stores of the CPU, by physical and by virtual address, and the registers of
coprocessor 0 as instructions see them.
-/

namespace Recompiler.Cpu

def readPhys (c : Cpu) (paddr : UInt32) (size : Size) : UInt64 × Cpu :=
  match c.mem.deviceAt? paddr with
  | some d => (d.read paddr size, c.emit (.deviceRead paddr size))
  | none => (c.mem.readRam paddr size, c)

/-- A write to a page that is marked as code is reported after it has been made. -/
def writePhys (c : Cpu) (paddr : UInt32) (size : Size) (v : UInt64) : Cpu :=
  match c.mem.deviceAt? paddr with
  | some _ => c.emit (.deviceWritten paddr size v)
  | none =>
    if c.mem.inRam paddr size.bytes then
      let c := { c with mem := c.mem.writeRam paddr size v }
      if c.mem.isCode paddr then c.emit (.codeWritten paddr) else c
    else c

/-- The instruction word at a physical address. -/
def fetchPhys (c : Cpu) (paddr : UInt32) : UInt32 × Cpu :=
  let (v, c) := c.readPhys (paddr &&& ~~~(3 : UInt32)) .word
  (v.toUInt32, c)

def isAligned (vaddr : UInt32) (size : Size) : Bool :=
  vaddr &&& (size.bytes - 1) == 0

/-- Reads at a virtual address; if that fails, the exception has been raised. -/
def load (c : Cpu) (vaddr : UInt32) (size : Size) : Option UInt64 × Cpu :=
  if isAligned vaddr size then
    match c.toPhysical vaddr false with
    | (some paddr, c) =>
      let (v, c) := c.readPhys paddr size
      (some v, c)
    | (none, c) => (none, c)
  else (none, c.raiseAddressError vaddr false)

/-- Writes at a virtual address, and says if it succeeded; if not, the exception has been
raised. -/
def store (c : Cpu) (vaddr : UInt32) (size : Size) (v : UInt64) : Bool × Cpu :=
  if isAligned vaddr size then
    match c.toPhysical vaddr true with
    | (some paddr, c) => (true, c.writePhys paddr size v)
    | (none, c) => (false, c)
  else (false, c.raiseAddressError vaddr true)

/-- The instruction word at a virtual address. -/
def fetch (c : Cpu) (vaddr : UInt32) : Option Instr × Cpu :=
  match c.load vaddr .word with
  | (some v, c) => (some ⟨v.toUInt32⟩, c)
  | (none, c) => (none, c)

/-- A register of coprocessor 0 as a move from it reads it. -/
def readCop0 (c : Cpu) (r : Reg) : UInt64 :=
  if r = Cop0.count then c.cycle.toUInt64
  else if r = Cop0.random then c.random.toUInt64
  else c.sysReg r

/-- `old` with the bits of `mask` taken from `new`. -/
def mergeBits (mask old new : UInt64) : UInt64 :=
  (old &&& ~~~mask) ||| (new &&& mask)

def writeCount (c : Cpu) (v : UInt32) : Cpu :=
  { c with cycle := v }.emit (.countWritten c.cycle v)

/-- A new compare value also takes back the timer interrupt. -/
def writeCompare (c : Cpu) (v : UInt32) : Cpu :=
  ((c.setSysReg Cop0.compare v.toUInt64).setPending CauseBit.timer false).emit (.compareWritten v)

def writeStatus (c : Cpu) (v : UInt32) : Cpu :=
  let old := c.status
  let c := c.setSysReg Cop0.status v.toUInt64
  if old = v then c else c.emit (.statusWritten old v)

/-- A move to a register of coprocessor 0. -/
def writeCop0 (c : Cpu) (r : Reg) (v : UInt64) : Cpu :=
  let old := c.sysReg r
  if r = Cop0.index then c.setSysReg r (v &&& 0x8000003f)
  else if r = Cop0.random ∨ r = Cop0.badVAddr ∨ r = Cop0.prId then c
  else if r = Cop0.wired then c.setSysReg r (v &&& 0x3f)
  else if r = Cop0.context then
    c.setSysReg r ((old &&& 0x7ffff0) ||| (v &&& ~~~(0x7ffff0 : UInt64)))
  else if r = Cop0.pageMask then c.setSysReg r (v &&& 0x01ffe000)
  else if r = Cop0.count then c.writeCount v.toUInt32
  else if r = Cop0.compare then c.writeCompare v.toUInt32
  else if r = Cop0.status then c.writeStatus v.toUInt32
  else if r = Cop0.cause then c.setSysReg r (mergeBits 0x300 old v)
  else if r = Cop0.config then c.setSysReg r (mergeBits 0x0f00800f old v)
  else c.setSysReg r v

end Recompiler.Cpu
