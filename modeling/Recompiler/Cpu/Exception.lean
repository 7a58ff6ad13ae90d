import Recompiler.Cpu.Basic

/-!
Exceptions and interrupts.
-/

namespace Recompiler

inductive Exception where
  | interrupt
  | tlbModified
  | tlbLoad
  | tlbStore
  | addressLoad
  | addressStore
  | syscall
  | breakpoint
  | reserved
  | overflow
  | trap
  deriving DecidableEq, Inhabited, Repr

namespace Exception

/-- The code in the cause register. -/
def code : Exception → UInt32
  | .interrupt => 0
  | .tlbModified => 1
  | .tlbLoad => 2
  | .tlbStore => 3
  | .addressLoad => 4
  | .addressStore => 5
  | .syscall => 8
  | .breakpoint => 9
  | .reserved => 10
  | .overflow => 12
  | .trap => 13

/-- A missing or invalid page, by the kind of access. -/
def tlb (write : Bool) : Exception := if write then .tlbStore else .tlbLoad

/-- A misaligned address, by the kind of access. -/
def address (write : Bool) : Exception := if write then .addressStore else .addressLoad

end Exception

namespace Cpu

/-- The address of the handler. A missing page has its own, unless an exception is being
handled. -/
def vector (status : UInt32) (refill : Bool) : UInt32 :=
  let vec : UInt32 := if refill && status &&& StatusBit.exl == 0 then 0x80000000 else 0x80000180
  if status &&& StatusBit.bev != 0 then 0xbfc00200 + (vec &&& 0x1ff) else vec

/-- Enters the handler for the cause `code`. The return address and the delay mark are kept
when an exception is being handled. -/
def enter (c : Cpu) (code : UInt32) (refill : Bool) : Cpu :=
  let sr := c.status
  let nested := sr &&& StatusBit.exl != 0
  let cr :=
    if nested then c.cause
    else if c.delay != 0 then c.cause ||| CauseBit.branchDelay
    else c.cause &&& ~~~CauseBit.branchDelay
  let c :=
    if nested then c
    else c.setSysReg Cop0.epc (sextWord (if c.delay != 0 then c.pc - 4 else c.pc))
  let cr := (cr &&& ~~~CauseBit.code) ||| ((code <<< 2) &&& CauseBit.code)
  let c := c.setSysReg Cop0.cause (sextWord cr)
  let c := c.setSysReg Cop0.status (c.sysReg Cop0.status ||| StatusBit.exl.toUInt64)
  { c with pc := vector sr refill, delay := 0, leave := 1 }

def raise (c : Cpu) (e : Exception) : Cpu := c.enter e.code false

/-- Records the address that has no physical one. -/
def setBadAddress (c : Cpu) (vaddr : UInt32) : Cpu :=
  let asid := c.sysReg Cop0.entryHi &&& 0xff
  let c := c.setSysReg Cop0.badVAddr (sextWord vaddr)
  let c := c.setSysReg Cop0.context
    ((c.sysReg Cop0.context &&& ~~~(0x7ffff0 : UInt64)) ||| ((vaddr >>> 9).toUInt64 &&& 0x7ffff0))
  c.setSysReg Cop0.entryHi (sextWord (vaddr &&& 0xffffe000) ||| asid)

/-- No entry matches the address. -/
def raiseRefill (c : Cpu) (vaddr : UInt32) (write : Bool) : Cpu :=
  (c.setBadAddress vaddr).enter (Exception.tlb write).code true

/-- An entry matches the address and does not allow the access. -/
def raiseTlb (c : Cpu) (vaddr : UInt32) (e : Exception) : Cpu :=
  (c.setBadAddress vaddr).raise e

def raiseAddressError (c : Cpu) (vaddr : UInt32) (write : Bool) : Cpu :=
  (c.setSysReg Cop0.badVAddr (sextWord vaddr)).raise (.address write)

/-- Is an enabled interrupt asserted? -/
def interruptPending (c : Cpu) : Bool :=
  c.status &&& (StatusBit.ie ||| StatusBit.exl ||| StatusBit.erl) == StatusBit.ie
    && c.status &&& c.cause &&& StatusBit.interruptMask != 0

/-- Delivers a pending interrupt, and says if there was one. -/
def checkInterrupt (c : Cpu) : Cpu × Bool :=
  if c.interruptPending then (c.raise .interrupt, true) else (c, false)

/-- Asserts or clears interrupt lines. -/
def setPending (c : Cpu) (bits : UInt32) (on : Bool) : Cpu :=
  let bits := (bits &&& CauseBit.pending).toUInt64
  let old := c.sysReg Cop0.cause
  c.setSysReg Cop0.cause (if on then old ||| bits else old &&& ~~~bits)

/-- Returns from an exception or an error. -/
def eret (c : Cpu) : Cpu :=
  let old := c.sysReg Cop0.status
  let c :=
    if c.status &&& StatusBit.erl != 0 then
      { c.setSysReg Cop0.status (old &&& ~~~StatusBit.erl.toUInt64) with
        pc := (c.sysReg Cop0.errorEpc).toUInt32 }
    else
      { c.setSysReg Cop0.status (old &&& ~~~StatusBit.exl.toUInt64) with
        pc := (c.sysReg Cop0.epc).toUInt32 }
  { c with llBit := 0, leave := 1 }

end Cpu

end Recompiler
