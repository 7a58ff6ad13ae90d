import Recompiler.Ir.Program

/-!
Which programs have native code. A program must not fall off its end, and may only use the
registers that the host has for it.
-/

namespace Recompiler.Ir

inductive NativeError where
  | empty
  | noExit (last : Instr Nat)
  | badReg (r : HostReg)
  | badFpReg (r : FpReg)
  deriving DecidableEq, Repr

namespace NativeError

def message : NativeError → String
  | .empty => "pgen: empty program"
  | .noExit last => "pgen: program does not end with an exit: " ++ last.render fun _ => ""
  | .badReg r => "pgen: access to unallocatable register: " ++ r.render
  | .badFpReg r => "pgen: access to invalid FP register: " ++ r.render

end NativeError

/-- A register that native code for an instruction names. -/
inductive Operand where
  | reg (r : HostReg)
  | fp (r : FpReg)
  deriving DecidableEq, Repr

namespace Operand

/-- A register that is written, or read where zero has no short form. -/
def strict (r : HostReg) : List Operand := [.reg r]

/-- A register that is read; the zero register needs none. -/
def read (r : HostReg) : List Operand := if r = .rz then [] else [.reg r]

def error? : Operand → Option NativeError
  | .reg r => if r.num < HostReg.count then none else some (.badReg r)
  | .fp r => if r.num < FpReg.count then none else some (.badFpReg r)

end Operand

namespace Instr

open Operand

/-- Operands of an instruction whose result register `z` may be the zero register, in which
case there is no code. -/
def unlessZero (z : HostReg) (ops : List Operand) : List Operand :=
  if z = .rz then [] else ops

/-- The registers that native code names, in the order in which it does. -/
def operands {L : Type} : Instr L → List Operand
  | .li _ x => unlessZero x (strict x)
  | .mov x y => if x = y then [] else unlessZero y (strict y ++ read x)
  | .ldc _ x => unlessZero x (strict x)
  | .stc x _ => read x
  | .stci .. => []
  | .stcx x _ => read x
  | .ltab _ x y => unlessZero y (read x ++ strict y)
  | .bin op x y z =>
    unlessZero z <|
      match op with
      | .add | .sub | .and | .or | .xor =>
        if z = x ∧ z ≠ y then read y ++ strict z else read x ++ read y ++ strict z
      | .nor => read x ++ read y ++ strict z
      | .slt | .sltu | .sll | .srl | .sra => read y ++ read x ++ strict z
  | .const op x v y =>
    unlessZero y <|
      match op with
      | .add | .and | .or | .xor => if y = x then strict y else read x ++ strict y
      | .slt | .sltu => read x ++ strict y
      | .sll | .srl | .sra =>
        if v = 0 then strict y ++ read x else if y = x then strict y else read x ++ strict y
  | .mul _ x y lo hi => read x ++ read y ++ read lo ++ read hi
  | .load _ x _ y => unlessZero y (read x ++ strict y)
  | .store _ y x _ => read y ++ read x
  | .branch _ x y _ => if x = y then [] else read y ++ read x
  | .branchConst _ x _ _ => read x
  | .branchOverflow _ x y _ => read x ++ read y
  | .jump _ => []
  | .callout .. => []
  | .link _ => []
  | .exit _ => []
  | .fld _ _ x => [.fp x]
  | .fst _ x _ => [.fp x]
  | .fbin _ _ x y z => [.fp x, .fp y, .fp z]
  | .funary op _ x y =>
    match op with
    | .sqrt => [.fp x, .fp y]
    | .mov => if x = y then [] else [.fp x, .fp y]
    | .abs | .neg => if x = y then [.fp y] else [.fp x, .fp y]
  | .fcmp _ x y _ z => unlessZero z ([.fp y, .fp x] ++ strict z)

/-- Does control never go past the instruction? -/
def endsProgram {L : Type} : Instr L → Bool
  | .exit _ | .jump _ => true
  | _ => false

end Instr

namespace Program

/-- Why a program has no native code, if it has none. The last instruction is looked at
first. -/
def nativeError? (p : Program) : Option NativeError :=
  match p.code.back? with
  | none => some .empty
  | some last =>
    if last.endsProgram then (p.code.toList.flatMap Instr.operands).findSome? Operand.error?
    else some (.noExit last)

end Program

end Recompiler.Ir
