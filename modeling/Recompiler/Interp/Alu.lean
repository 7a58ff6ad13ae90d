import Recompiler.Cpu.Access
import Recompiler.Instr.Class

/-!
Integer arithmetic of the interpreter: shifts, the arithmetic and logic unit, the multiply
unit and traps.
-/

namespace Recompiler.Interp

/-- A 32-bit shift, sign extended. -/
def shift32 (op : ShiftOp) (v sa : UInt32) : UInt64 :=
  match op with
  | .left => sextWord (v <<< sa)
  | .right => sextWord (v >>> sa)
  | .arith => sextWord (sar32 v sa)

def shift64 (op : ShiftOp) (v sa : UInt64) : UInt64 :=
  match op with
  | .left => v <<< sa
  | .right => v >>> sa
  | .arith => sar64 v sa

def execShift (c : Cpu) (i : Instr) (op : ShiftOp) (amount : ShiftAmount) (width : Width) : Cpu :=
  let rs := c.reg i.rs
  let rt := c.reg i.rt
  let v := match width, amount with
    | .word, .register => shift32 op rt.toUInt32 (rs.toUInt32 &&& 31)
    | .word, _ => shift32 op rt.toUInt32 i.sa
    | .double, .register => shift64 op rt (rs &&& 63)
    | .double, .field => shift64 op rt i.sa.toUInt64
    | .double, .fieldPlus32 => shift64 op rt (i.sa.toUInt64 + 32)
  c.setReg i.rd v

/-- Writes `v`, or raises the overflow exception. -/
def writeUnless (c : Cpu) (r : Reg) (overflow : Bool) (v : UInt64) : Cpu :=
  if overflow then c.raise .overflow else c.setReg r v

def add32 (x y : UInt64) : UInt64 := sext32 (sext32 x + sext32 y)

def sub32 (x y : UInt64) : UInt64 := sext32 (sext32 x - sext32 y)

def execAlu (c : Cpu) (i : Instr) (op : AluOp) : Cpu :=
  let x := c.reg i.rs
  let y := c.reg i.rt
  let rd := i.rd
  match op with
  | .add => writeUnless c rd (addOverflows32 x y) (add32 x y)
  | .addu => c.setReg rd (add32 x y)
  | .sub => writeUnless c rd (subOverflows32 x y) (sub32 x y)
  | .subu => c.setReg rd (sub32 x y)
  | .dadd => writeUnless c rd (addOverflows64 x y) (x + y)
  | .daddu => c.setReg rd (x + y)
  | .dsub => writeUnless c rd (subOverflows64 x y) (x - y)
  | .dsubu => c.setReg rd (x - y)
  | .and => c.setReg rd (x &&& y)
  | .or => c.setReg rd (x ||| y)
  | .xor => c.setReg rd (x ^^^ y)
  | .nor => c.setReg rd (~~~(x ||| y))
  | .slt => c.setReg rd (ofBool64 (slt64 x y))
  | .sltu => c.setReg rd (ofBool64 (x < y))

def execImm (c : Cpu) (i : Instr) (op : ImmOp) : Cpu :=
  let x := c.reg i.rs
  let rt := i.rt
  match op with
  | .addi => writeUnless c rt (addOverflows32 x i.simm) (add32 x i.simm)
  | .addiu => c.setReg rt (add32 x i.simm)
  | .daddi => writeUnless c rt (addOverflows64 x i.simm) (x + i.simm)
  | .daddiu => c.setReg rt (x + i.simm)
  | .slti => c.setReg rt (ofBool64 (slt64 x i.simm))
  | .sltiu => c.setReg rt (ofBool64 (x < i.simm))
  | .andi => c.setReg rt (x &&& i.uimm)
  | .ori => c.setReg rt (x ||| i.uimm)
  | .xori => c.setReg rt (x ^^^ i.uimm)
  | .lui => c.setReg rt (i.simm <<< 16)

/-- The contents of the multiply unit. -/
structure HiLo where
  hi : UInt64
  lo : UInt64
  deriving DecidableEq, Repr

/-- The quotient that a signed division by zero gives. -/
def zeroQuotient (negative : Bool) : UInt64 :=
  if negative then 1 else 0xffffffffffffffff

/-- The unsigned product of double words, in two double words. -/
def mul64 (x y : UInt64) : HiLo :=
  let p := x.toNat * y.toNat
  ⟨UInt64.ofNat (p / 0x10000000000000000), UInt64.ofNat p⟩

/-- Products and quotients. A division by zero leaves the dividend in `HI`. -/
def mulDiv (op : MulDivOp) (x y : UInt64) : HiLo :=
  match op with
  | .mult =>
    let r := sext32 x * sext32 y
    ⟨sextWord (highWord r), sext32 r⟩
  | .multu =>
    let r := x.toUInt32.toUInt64 * y.toUInt32.toUInt64
    ⟨sextWord (highWord r), sext32 r⟩
  | .div =>
    let a := x.toUInt32.toInt32
    let b := y.toUInt32.toInt32
    if b = 0 then ⟨sext32 x, zeroQuotient (a < 0)⟩
    else ⟨(a % b).toInt64.toUInt64, (a / b).toInt64.toUInt64⟩
  | .divu =>
    let a := x.toUInt32
    let b := y.toUInt32
    if b = 0 then ⟨sext32 x, zeroQuotient false⟩ else ⟨sextWord (a % b), sextWord (a / b)⟩
  | .dmult =>
    -- A negative operand counts as itself plus 2^64 in the unsigned product.
    let r := mul64 x y
    let hi := if x.toInt64 < 0 then r.hi - y else r.hi
    let hi := if y.toInt64 < 0 then hi - x else hi
    ⟨hi, r.lo⟩
  | .dmultu => mul64 x y
  | .ddiv =>
    let a := x.toInt64
    let b := y.toInt64
    if b = 0 then ⟨x, zeroQuotient (a < 0)⟩ else ⟨(a % b).toUInt64, (a / b).toUInt64⟩
  | .ddivu => if y = 0 then ⟨x, zeroQuotient false⟩ else ⟨x % y, x / y⟩

def execMulDiv (c : Cpu) (i : Instr) (op : MulDivOp) : Cpu :=
  let r := mulDiv op (c.reg i.rs) (c.reg i.rt)
  { c with hi := r.hi, lo := r.lo }

def trapHolds (cond : TrapCond) (x y : UInt64) : Bool :=
  match cond with
  | .ge => !slt64 x y
  | .geu => y ≤ x
  | .lt => slt64 x y
  | .ltu => x < y
  | .eq => x == y
  | .ne => x != y

def execTrap (c : Cpu) (cond : TrapCond) (x y : UInt64) : Cpu :=
  if trapHolds cond x y then c.raise .trap else c

end Recompiler.Interp
