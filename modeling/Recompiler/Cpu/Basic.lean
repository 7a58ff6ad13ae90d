import Recompiler.Cpu.Memory

/-!
The state of the guest CPU with its memory, and the effects by which it reaches outside.
-/

namespace Recompiler

/-- One entry of the lookaside buffer: a pair of pages. -/
structure TlbEntry where
  pageMask : UInt32
  entryHi : UInt32
  entryLo0 : UInt32
  entryLo1 : UInt32
  deriving DecidableEq, Inhabited, Repr

/-- What the CPU does to its surroundings, in the order in which it happens. -/
inductive Effect where
  | countWritten (old new : UInt32)
  | compareWritten (value : UInt32)
  | statusWritten (old new : UInt32)
  | tlbWritten (old new : TlbEntry)
  /-- A write has landed in a RAM page that is marked as code. -/
  | codeWritten (paddr : UInt32)
  | deviceRead (paddr : UInt32) (size : Size)
  | deviceWritten (paddr : UInt32) (size : Size) (value : UInt64)
  deriving DecidableEq, Repr

/-- What a running trace and its host exchange. -/
structure Frame where
  /-- Which service the trace asks for. -/
  callId : UInt32
  /-- Where the trace keeps host registers across a service. -/
  save : Vector UInt32 9
  /-- The link cell through which the trace was left. -/
  lastCell : UInt32
  callAddr : UInt32
  /-- The instruction to execute. -/
  callOp : UInt32
  /-- The instructions of the trace before it. -/
  callCount : UInt32
  deriving DecidableEq, Inhabited, Repr

namespace Frame

def empty : Frame := ⟨0, Vector.replicate 9 0, 0, 0, 0, 0⟩

end Frame

structure Cpu where
  gpr : Vector UInt64 32
  hi : UInt64
  lo : UInt64
  fpr : Vector UInt64 32
  pc : UInt32
  /-- One while the instruction at `pc` is in a delay slot. -/
  delay : UInt32
  /-- The counter of elapsed cycles. -/
  cycle : UInt32
  /-- The cycle of the next event. -/
  nextEvent : UInt32
  /-- One after an exception or a return from one. -/
  leave : UInt32
  frame : Frame
  fcr0 : UInt32
  fcr31 : UInt32
  llBit : UInt32
  cop0 : Vector UInt64 32
  tlb : Vector TlbEntry 32
  mem : Memory
  /-- The physical address that the window at `0x7f000000` is mapped to, if it is mapped. -/
  window : Option UInt32
  effects : Array Effect

namespace Cop0

def index : Reg := 0

def random : Reg := 1

def entryLo0 : Reg := 2

def entryLo1 : Reg := 3

def context : Reg := 4

def pageMask : Reg := 5

def wired : Reg := 6

def badVAddr : Reg := 8

def count : Reg := 9

def entryHi : Reg := 10

def compare : Reg := 11

def status : Reg := 12

def cause : Reg := 13

def epc : Reg := 14

def prId : Reg := 15

def config : Reg := 16

def llAddr : Reg := 17

def errorEpc : Reg := 30

end Cop0

namespace StatusBit

def ie : UInt32 := 1

def exl : UInt32 := 2

def erl : UInt32 := 4

def interruptMask : UInt32 := 0xff00

def bev : UInt32 := 0x400000

def fr : UInt32 := 0x4000000

def cu0 : UInt32 := 0x10000000

def cu1 : UInt32 := 0x20000000

end StatusBit

namespace CauseBit

def code : UInt32 := 0x7c

def pending : UInt32 := 0xff00

/-- The timer interrupt. -/
def timer : UInt32 := 0x8000

def branchDelay : UInt32 := 0x80000000

end CauseBit

namespace FpControl

def condition : UInt32 := 0x800000

def writable : UInt32 := 0x0183ffff

/-- The rounding direction in the low two bits. -/
def roundMode (fcr31 : UInt32) : RoundMode :=
  match fcr31 &&& 3 with
  | 1 => .zero
  | 2 => .up
  | 3 => .down
  | _ => .nearest

end FpControl

namespace Cpu

def resetVector : UInt32 := 0xbfc00000

/-- The state that the boot code leaves, attached to `mem`. -/
def powerOn (mem : Memory) (window : Option UInt32) : Cpu where
  gpr := Vector.replicate 32 0
  hi := 0
  lo := 0
  fpr := Vector.replicate 32 0
  pc := resetVector
  delay := 0
  cycle := 0
  nextEvent := 0
  leave := 0
  frame := .empty
  fcr0 := 0x511
  fcr31 := 0
  llBit := 0
  cop0 := ((((Vector.replicate 32 0).put Cop0.random 31).put Cop0.status
    (StatusBit.cu1 ||| StatusBit.cu0 ||| StatusBit.fr).toUInt64).put Cop0.prId 0x0b22).put
      Cop0.config 0x7006e463
  tlb := Vector.replicate 32 ⟨0, 0, 0, 0⟩
  mem := mem
  window := window
  effects := #[]

/-- Back to the power-on state, with the same surroundings. -/
def reset (c : Cpu) : Cpu :=
  { powerOn c.mem c.window with effects := c.effects }

def emit (c : Cpu) (e : Effect) : Cpu :=
  { c with effects := c.effects.push e }

/-- Forgets the effects recorded so far. -/
def drained (c : Cpu) : Cpu :=
  { c with effects := #[] }

def reg (c : Cpu) (r : Reg) : UInt64 := c.gpr.get r

/-- Writes a register other than zero. -/
def setReg (c : Cpu) (r : Reg) (v : UInt64) : Cpu :=
  if r = .zero then c else { c with gpr := c.gpr.put r v }

def sysReg (c : Cpu) (r : Reg) : UInt64 := c.cop0.get r

def setSysReg (c : Cpu) (r : Reg) (v : UInt64) : Cpu :=
  { c with cop0 := c.cop0.put r v }

def status (c : Cpu) : UInt32 := (c.sysReg Cop0.status).toUInt32

def cause (c : Cpu) : UInt32 := (c.sysReg Cop0.cause).toUInt32

/-- Are there 32 floating-point registers of 64 bits, and not 16? -/
def wideFpRegs (c : Cpu) : Bool := c.status &&& StatusBit.fr != 0

/-- The even register of a pair. -/
def evenReg (r : Reg) : Reg := ⟨r.val - r.val % 2, by omega⟩

/-- The 64-bit slot of a double precision register. -/
def doubleSlot (wide : Bool) (r : Reg) : Reg := if wide then r else evenReg r

/-- Does a single precision register lie in the high half of its slot? -/
def singleInHigh (wide : Bool) (r : Reg) : Bool := !wide && r.val % 2 == 1

def single (c : Cpu) (r : Reg) : UInt32 :=
  let v := c.fpr.get (doubleSlot c.wideFpRegs r)
  if singleInHigh c.wideFpRegs r then highWord v else lowWord v

def setSingle (c : Cpu) (r : Reg) (v : UInt32) : Cpu :=
  let slot := doubleSlot c.wideFpRegs r
  let old := c.fpr.get slot
  let new := if singleInHigh c.wideFpRegs r then joinWords v (lowWord old)
    else joinWords (highWord old) v
  { c with fpr := c.fpr.put slot new }

def double (c : Cpu) (r : Reg) : UInt64 := c.fpr.get (doubleSlot c.wideFpRegs r)

def setDouble (c : Cpu) (r : Reg) (v : UInt64) : Cpu :=
  { c with fpr := c.fpr.put (doubleSlot c.wideFpRegs r) v }

end Cpu

end Recompiler
