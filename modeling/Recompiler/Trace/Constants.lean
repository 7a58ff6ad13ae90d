import Recompiler.Trace.KnownBits
import Recompiler.Trace.Simplify

/-!
The known bits of every general register along a trace. `Constants.step` advances over an
instruction and returns it simplified: operands known to be zero become register zero, results
known in full become constant loads, and a second definition of a known value vanishes.
-/

namespace Recompiler

/-- The known bits of the general registers. -/
structure Constants where
  regs : Vector KnownBits 32
  deriving DecidableEq, Inhabited, Repr

namespace Constants

/-- Only register zero is known. -/
def fresh : Constants :=
  ⟨(Vector.replicate 32 KnownBits.unknown).put Reg.zero (.const 0)⟩

def get (c : Constants) (r : Reg) : KnownBits := c.regs.get r

/-- Records the known bits of a register other than zero. -/
def set (c : Constants) (r : Reg) (v : KnownBits) : Constants :=
  if r = .zero then c else ⟨c.regs.put r ⟨v.mask, v.bits &&& v.mask⟩⟩

/-- The value of a register, if every bit of it is known. -/
def known? (c : Constants) (r : Reg) : Option UInt64 := (c.get r).value?

def isZero (c : Constants) (r : Reg) : Bool := c.known? r == some 0

/-- Replaces operands known to be zero by register zero. -/
def substitute (c : Constants) (i : Instr) : Instr :=
  let s := i.kind.sources
  let w := if s.rs && c.isZero i.rs then i.word &&& 0xfc1fffff else i.word
  let w := if s.rt && c.isZero i.rt then w &&& 0xffe0ffff else w
  ⟨w⟩

/-- A 32-bit shift by a known amount. -/
def shift32 (op : ShiftOp) (x : KnownBits) (sa : UInt64) : KnownBits :=
  match op with
  | .left => (x.shiftLeft sa).signExtend
  | .right => (x.zeroExtend.shiftRight sa).signExtend
  | .arith => (x.signExtend.shiftArith sa).signExtend

/-- A 64-bit shift by a known amount. -/
def shift64 (op : ShiftOp) (x : KnownBits) (sa : UInt64) : KnownBits :=
  match op with
  | .left => x.shiftLeft sa
  | .right => x.shiftRight sa
  | .arith => x.shiftArith sa

def evalShift (c : Constants) (i : Instr) (op : ShiftOp) (amount : ShiftAmount)
    (width : Width) : KnownBits :=
  let rs := c.get i.rs
  let rt := c.get i.rt
  match width, amount with
  | .word, .register =>
    if rs.mask &&& 31 == 31 then shift32 op rt (rs.bits &&& 31) else .unknown
  | .word, _ => shift32 op rt i.sa.toUInt64
  | .double, .register =>
    if rs.mask &&& 63 == 63 then shift64 op rt (rs.bits &&& 63) else .unknown
  | .double, .field => shift64 op rt i.sa.toUInt64
  | .double, .fieldPlus32 => shift64 op rt (i.sa.toUInt64 + 32)

def evalAlu (op : AluOp) (x y : KnownBits) : KnownBits :=
  match op with
  | .add | .addu => (x.add y).signExtend
  | .sub | .subu => (x.sub y).signExtend
  | .and => x.and y
  | .or => x.or y
  | .xor => x.xor y
  | .nor => (x.or y).not
  | .slt => KnownBits.compare slt64 x y
  | .sltu => KnownBits.compare (fun a b => a < b) x y
  | .dadd | .daddu => x.add y
  | .dsub | .dsubu => x.sub y

def evalImm (i : Instr) (op : ImmOp) (x : KnownBits) : KnownBits :=
  match op with
  | .addi | .addiu => (x.add (.const i.simm)).signExtend
  | .daddi | .daddiu => x.add (.const i.simm)
  | .slti => KnownBits.compare slt64 x (.const i.simm)
  | .sltiu => KnownBits.compare (fun a b => a < b) x (.const i.simm)
  | .andi => x.and (.const i.uimm)
  | .ori => x.or (.const i.uimm)
  | .xori => x.xor (.const i.uimm)
  | .lui => .const (sextWord (i.imm.toUInt32 <<< 16))

/-- The known bits of the general register that the instruction writes. -/
def eval (c : Constants) (i : Instr) : KnownBits :=
  match i.kind with
  | .shift op amount width => c.evalShift i op amount width
  | .alu op => evalAlu op (c.get i.rs) (c.get i.rt)
  | .imm op => evalImm i op (c.get i.rs)
  | .load .lbu => ⟨~~~0xff, 0⟩
  | .load .lhu => ⟨~~~0xffff, 0⟩
  | .load .lwu => ⟨KnownBits.highHalf, 0⟩
  | .storeConditional _ => .flag
  | _ => .unknown

/-- Is the instruction known not to trap? Both operands of arithmetic that traps on overflow
have to be known. -/
def isSafe (c : Constants) (i : Instr) : Bool :=
  let rs := c.get i.rs
  let rt := c.get i.rt
  match i.kind with
  | .alu .add => rs.isFull && rt.isFull && !addOverflows32 rs.bits rt.bits
  | .alu .sub => rs.isFull && rt.isFull && !subOverflows32 rs.bits rt.bits
  | .alu .dadd => rs.isFull && rt.isFull && !addOverflows64 rs.bits rt.bits
  | .alu .dsub => rs.isFull && rt.isFull && !subOverflows64 rs.bits rt.bits
  | .imm .addi => rs.isFull && !addOverflows32 rs.bits i.simm
  | .imm .daddi => rs.isFull && !addOverflows64 rs.bits i.simm
  | _ => true

/-- The single instruction that loads `v` into `rd`, if there is one. -/
def load? (rd : Reg) (v : UInt64) : Option Instr :=
  if v == sext16 v then some (.addiu rd .zero v.toUInt16)
  else if v ≤ 0xffff then some (.ori rd .zero v.toUInt16)
  else if v == sext32 v && v &&& 0xffff == 0 then some (.lui rd (v >>> 16).toUInt16)
  else none

/-- Return addresses are not tracked. -/
def forgetLink (c : Constants) (i : Instr) : Constants :=
  match i.link? with
  | some r => c.set r .unknown
  | none => c

/-- The instruction that may stand for `i`, which writes the known bits `new` to `rd`, where
`old` are the bits known before. -/
def reduce (i : Instr) (rd : Reg) (old new : KnownBits) (safe : Bool) : Instr :=
  if new.isFull && safe && (i.isPure || i.isTrapping) then
    if old.isFull && old.bits == new.bits then .nop
    else (load? rd new.bits).getD i
  else i

/-- Advances over an instruction, and simplifies it. -/
def step (c : Constants) (i : Instr) : Constants × Instr :=
  if i.isReserved then (fresh, i)
  else
    let i := (c.substitute i).simplify
    let v := c.eval i
    let safe := c.isSafe i
    let c := c.forgetLink i
    match i.dest? with
    | none => (c, i)
    | some rd =>
      if rd = .zero then (c, i)
      else (c.set rd v, reduce i rd (c.get rd) v safe)

end Constants

end Recompiler
