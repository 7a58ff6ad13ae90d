import Recompiler.Cpu.Access
import Recompiler.Ieee.Arith

/-!
Coprocessors of the interpreter: moves to and from both, and floating-point arithmetic.
-/

namespace Recompiler.Interp

open Ieee

/-- A floating-point control register. -/
def readControl (c : Cpu) (r : Reg) : UInt32 :=
  if r.val = 0 then c.fcr0 else if r.val = 31 then c.fcr31 else 0

def writeControl (c : Cpu) (r : Reg) (v : UInt32) : Cpu :=
  if r.val = 31 then { c with fcr31 := v &&& FpControl.writable } else c

/-- Does the outcome of a comparison satisfy the condition? Bit 0 asks for unordered, bit 1
for equal and bit 2 for less. -/
def condHolds (cond : UInt32) (outcome : Comparison) : Bool :=
  match outcome with
  | .unordered => cond &&& 1 != 0
  | .equal => cond &&& 2 != 0
  | .less => cond &&& 4 != 0
  | .greater => false

def setCondition (c : Cpu) (on : Bool) : Cpu :=
  let fcr31 := if on then c.fcr31 ||| FpControl.condition else c.fcr31 &&& ~~~FpControl.condition
  { c with fcr31 := fcr31 }

/-- Converts the double with the pattern `v` into the format that the operation names. -/
def execConvert (c : Cpu) (i : Instr) (op : FpOp) (v : Nat) : Cpu :=
  let mode := FpControl.roundMode c.fcr31
  match op with
  | .convert .single => c.setSingle i.fd (UInt32.ofNat (convert double single v))
  | .convert .double => c.setDouble i.fd (UInt64.ofNat v)
  | .convert .word => c.setSingle i.fd (toWord double mode v)
  | .convert .long => c.setDouble i.fd (toLong double mode v)
  | .round mode .word => c.setSingle i.fd (toWord double mode v)
  | .round mode .double => c.setDouble i.fd (toLong double mode v)
  | _ => c.raise .reserved

def execSingle (c : Cpu) (i : Instr) (op : FpOp) : Cpu :=
  let x := (c.single i.fs).toNat
  let y := (c.single i.ft).toNat
  let write (v : Nat) : Cpu := c.setSingle i.fd (UInt32.ofNat v)
  match op with
  | .compare => setCondition c (condHolds i.cond (compare single x y))
  | .add => write (add single x y)
  | .sub => write (sub single x y)
  | .mul => write (mul single x y)
  | .div => write (div single x y)
  | .sqrt => write (sqrt single x)
  | .abs => write (clearSign single (quiet single x))
  | .mov => write x
  | .neg => write (flipSign single x)
  | _ => execConvert c i op (convert single double x)

def execDouble (c : Cpu) (i : Instr) (op : FpOp) : Cpu :=
  let x := (c.double i.fs).toNat
  let y := (c.double i.ft).toNat
  let write (v : Nat) : Cpu := c.setDouble i.fd (UInt64.ofNat v)
  match op with
  | .compare => setCondition c (condHolds i.cond (compare double x y))
  | .add => write (add double x y)
  | .sub => write (sub double x y)
  | .mul => write (mul double x y)
  | .div => write (div double x y)
  | .sqrt => write (sqrt double x)
  | .abs => write (clearSign double x)
  | .mov => write x
  | .neg => write (flipSign double x)
  | _ => execConvert c i op x

/-- Integers can only be converted to floating point. -/
def execInteger (c : Cpu) (i : Instr) (op : FpOp) (n : Int) : Cpu :=
  match op with
  | .convert .single | .convert .double => execConvert c i op (ofInt double n)
  | _ => c.raise .reserved

def execFp (c : Cpu) (i : Instr) (format : FpFormat) (op : FpOp) : Cpu :=
  match format with
  | .single => execSingle c i op
  | .double => execDouble c i op
  | .word => execInteger c i op (c.single i.fs).toInt32.toInt
  | .long => execInteger c i op (c.double i.fs).toInt64.toInt

def execSystem (c : Cpu) (op : SystemOp) : Cpu :=
  match op with
  | .tlbr => c.tlbRead
  | .tlbwi => c.tlbWriteIndexed
  | .tlbwr => c.tlbWriteRandom
  | .tlbp => c.tlbProbe
  | .eret => c.eret

end Recompiler.Interp
