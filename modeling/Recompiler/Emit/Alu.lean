import Recompiler.Emit.Basic

/-!
Inline code for integer arithmetic. A guest register is two words; where both operands are known
to be sign-extended words, the low words are enough.
-/

namespace Recompiler.Emit

open Ir

namespace Site

/-- Is the register known to hold a sign-extended word? -/
def isWord (s : Site) (g : GuestReg) : Bool :=
  if h : g.val < 32 then s.widths.isWord ⟨g.val, h⟩
  else if g = .hi then s.widths.hi ≤ 32
  else s.widths.lo ≤ 32

end Site

/-- The guest registers that the fields of an instruction name. -/
def rs (i : Recompiler.Instr) : GuestReg := .ofReg i.rs

def rt (i : Recompiler.Instr) : GuestReg := .ofReg i.rt

def rd (i : Recompiler.Instr) : GuestReg := .ofReg i.rd

/-- The sign-extended immediate. -/
def simm (i : Recompiler.Instr) : UInt32 := i.simm.toUInt32

/-- The high word of the sign-extended immediate. -/
def simmHigh (i : Recompiler.Instr) : UInt32 := sar32 (simm i) 31

/-- The zero-extended immediate. -/
def uimm (i : Recompiler.Instr) : UInt32 := i.uimm.toUInt32

/-- Writes a result of two words. -/
def writeBoth (g : GuestReg) (high low : HostReg) : EmitM Unit := do
  mov high (← outHigh g)
  mov low (← outLow g)

/-- Copies a guest register. -/
def move (s : Site) (dst src : GuestReg) : EmitM Unit := do
  if s.isWord src then
    let x ← inLow src
    mov x (← outSigned dst)
  else
    let high ← inHigh src
    let low ← inLow src
    writeBoth dst high low

def shiftConst : ShiftOp → ConstOp
  | .left => .sll
  | .right => .srl
  | .arith => .sra

def shiftBin : ShiftOp → BinOp
  | .left => .sll
  | .right => .srl
  | .arith => .sra

def shiftWord (op : ShiftOp) (i : Recompiler.Instr) : EmitM Unit := do
  let x ← inLow (rt i)
  let d ← outSigned (rd i)
  const (shiftConst op) x i.sa d

def shiftWordVar (op : ShiftOp) (i : Recompiler.Instr) : EmitM Unit := do
  let x ← inLow (rt i)
  let sa ← inLow (rs i)
  let d ← outSigned (rd i)
  bin (shiftBin op) x sa d

/-- Shifts by at least 32 move one word into the other. -/
def shiftDouble32 (op : ShiftOp) (i : Recompiler.Instr) : EmitM Unit := do
  match op with
  | .left =>
    let x ← inLow (rt i)
    const .sll x i.sa (← outHigh (rd i))
    emit (.li 0 (← outLow (rd i)))
  | .right =>
    let x ← inHigh (rt i)
    const .srl x i.sa (← outUnsigned (rd i))
  | .arith =>
    let x ← inHigh (rt i)
    const .sra x i.sa (← outSigned (rd i))

/-- Shifts by less than 32 carry bits between the words. -/
def shiftDouble (s : Site) (op : ShiftOp) (i : Recompiler.Instr) : EmitM Unit := do
  if i.sa = 0 then move s (rd i) (rt i)
  else
    let high ← inHigh (rt i)
    let low ← inLow (rt i)
    let h ← temp
    let l ← temp
    let carry ← temp
    match op with
    | .left =>
      const .sll high i.sa h
      const .srl low (32 - i.sa) carry
      bin .or h carry h
      const .sll low i.sa l
    | op =>
      const .srl low i.sa l
      const .sll high (32 - i.sa) carry
      bin .or l carry l
      const (shiftConst op) high i.sa h
    writeBoth (rd i) h l

def multiply (signed : Bool) (i : Recompiler.Instr) : EmitM Unit := do
  let x ← inLow (rs i)
  let y ← inLow (rt i)
  let lo ← outSigned .lo
  let hi ← outSigned .hi
  emit (.mul signed x y lo hi)

/-- Word arithmetic that traps on overflow, which is left to the slow path. -/
def addTrapping (s : Site) (sub : Bool) (i : Recompiler.Instr) : EmitM Unit := do
  let x ← inLow (rs i)
  let y ← inLow (rt i)
  let stub ← branchOff s i .rz
  emit (.branchOverflow sub x y (Stub.entryLabel stub.id))
  bin (if sub then .sub else .add) x y (← outSigned (rd i))
  join stub

/-- Word arithmetic that wraps. -/
def addWord (op : BinOp) (i : Recompiler.Instr) : EmitM Unit := do
  let x ← inLow (rs i)
  let y ← inLow (rt i)
  bin op x y (← outSigned (rd i))

/-- Bitwise operations keep sign extension. -/
def logic (s : Site) (op : BinOp) (i : Recompiler.Instr) : EmitM Unit := do
  if s.isWord (rs i) && s.isWord (rt i) then
    let x ← inLow (rs i)
    let y ← inLow (rt i)
    bin op x y (← outSigned (rd i))
  else
    let xh ← inHigh (rs i)
    let yh ← inHigh (rt i)
    let xl ← inLow (rs i)
    let yl ← inLow (rt i)
    bin op xh yh (← outHigh (rd i))
    bin op xl yl (← outLow (rd i))

def lessOp (signed : Bool) : BinOp := if signed then .slt else .sltu

def lessConst (signed : Bool) : ConstOp := if signed then .slt else .sltu

/-- Computes `x < y` of two-word values: the high words decide unless they are equal. -/
def compareBoth (signed : Bool) (xh xl yh yl t : HostReg) : EmitM Unit := do
  let done ← freshLabel "cmp"
  bin (lessOp signed) xh yh t
  emit (.branch .ne xh yh done)
  bin .sltu xl yl t
  putLabel done

def setLess (s : Site) (signed : Bool) (i : Recompiler.Instr) : EmitM Unit := do
  if s.isWord (rs i) && s.isWord (rt i) then
    let x ← inLow (rs i)
    let y ← inLow (rt i)
    let d ← outUnsigned (rd i)
    bin (lessOp signed) x y d
  else
    let xh ← inHigh (rs i)
    let xl ← inLow (rs i)
    let yh ← inHigh (rt i)
    let yl ← inLow (rt i)
    let t ← temp
    compareBoth signed xh xl yh yl t
    mov t (← outUnsigned (rd i))

/-- Double word sums and differences, with the carry between the words. -/
def addDouble (sub : Bool) (i : Recompiler.Instr) : EmitM Unit := do
  let xh ← inHigh (rs i)
  let xl ← inLow (rs i)
  let yh ← inHigh (rt i)
  let yl ← inLow (rt i)
  let h ← temp
  let l ← temp
  let carry ← temp
  if sub then
    bin .sub xl yl l
    bin .sltu xl yl carry
    bin .sub xh yh h
    bin .sub h carry h
  else
    bin .add xl yl l
    bin .sltu l xl carry
    bin .add xh yh h
    bin .add h carry h
  writeBoth (rd i) h l

def addImmTrapping (s : Site) (i : Recompiler.Instr) : EmitM Unit := do
  let x ← inLow (rs i)
  let y ← constant (simm i)
  let stub ← branchOff s i .rz
  emit (.branchOverflow false x y (Stub.entryLabel stub.id))
  const .add x (simm i) (← outSigned (rt i))
  join stub

def addImm (i : Recompiler.Instr) : EmitM Unit := do
  let x ← inLow (rs i)
  const .add x (simm i) (← outSigned (rt i))

def addImmDouble (i : Recompiler.Instr) : EmitM Unit := do
  let xh ← inHigh (rs i)
  let xl ← inLow (rs i)
  let h ← temp
  let l ← temp
  let carry ← temp
  const .add xl (simm i) l
  bin .sltu l xl carry
  const .add xh (simmHigh i) h
  bin .add h carry h
  writeBoth (rt i) h l

/-- The immediate is sign extended for the unsigned comparison as well. -/
def setLessImm (s : Site) (signed : Bool) (i : Recompiler.Instr) : EmitM Unit := do
  if s.isWord (rs i) then
    let x ← inLow (rs i)
    let d ← outUnsigned (rt i)
    const (lessConst signed) x (simm i) d
  else
    let xh ← inHigh (rs i)
    let xl ← inLow (rs i)
    let t ← temp
    let done ← freshLabel "cmp"
    const (lessConst signed) xh (simmHigh i) t
    emit (.branchConst .ne xh (simmHigh i) done)
    const .sltu xl (simm i) t
    putLabel done
    mov t (← outUnsigned (rt i))

def andImm (i : Recompiler.Instr) : EmitM Unit := do
  let x ← inLow (rs i)
  const .and x (uimm i) (← outUnsigned (rt i))

/-- Bitwise operations with an immediate that leave the high word alone. -/
def orImm (s : Site) (op : ConstOp) (i : Recompiler.Instr) : EmitM Unit := do
  if s.isWord (rs i) then
    let x ← inLow (rs i)
    let d ← outSigned (rt i)
    const op x (uimm i) d
  else
    let xh ← inHigh (rs i)
    let xl ← inLow (rs i)
    mov xh (← outHigh (rt i))
    let d ← outLow (rt i)
    const op xl (uimm i) d

def loadUpper (i : Recompiler.Instr) : EmitM Unit := do
  let v : UInt32 := uimm i <<< 16
  let d ← outSigned (rt i)
  emit (.li v d)
  modifyCache (·.setConst d v)

end Recompiler.Emit
