import Recompiler.Emit.Fp
import Recompiler.Emit.Memory

/-!
The choice between inline code and a service for each instruction.
-/

namespace Recompiler.Emit

open Ir

def fpFormatSize? : FpFormat → Option FpSize
  | .single => some .single
  | .double => some .double
  | .word | .long => none

/-- Inline code for floating-point arithmetic, for the operations that have any. -/
def inlineFp? (cfg : Config) (size : FpSize) (op : FpOp) (i : Recompiler.Instr) :
    Option (EmitM Unit) :=
  match op with
  | .add => some (fpBinary cfg size .add i)
  | .sub => some (fpBinary cfg size .sub i)
  | .mul => some (fpBinary cfg size .mul i)
  | .div => some (fpBinary cfg size .div i)
  | .sqrt => some (fpUnary cfg size .sqrt i)
  | .abs => some (fpUnary cfg size .abs i)
  | .mov => some (fpUnary cfg size .mov i)
  | .neg => some (fpUnary cfg size .neg i)
  | .compare => some (fpCompare cfg size i)
  | .round .. | .convert _ | .undefined => none

/-- Inline code for an operation on registers. The trapping double word forms have none. -/
def inlineAlu? (s : Site) (op : AluOp) (i : Recompiler.Instr) : Option (EmitM Unit) :=
  match op with
  | .add => some (addTrapping s false i)
  | .sub => some (addTrapping s true i)
  | .addu => some (addWord .add i)
  | .subu => some (addWord .sub i)
  | .and => some (logic s .and i)
  | .or => some (logic s .or i)
  | .xor => some (logic s .xor i)
  | .nor => some (logic s .nor i)
  | .slt => some (setLess s true i)
  | .sltu => some (setLess s false i)
  | .daddu => some (addDouble false i)
  | .dsubu => some (addDouble true i)
  | .dadd | .dsub => none

def inlineImm? (s : Site) (op : ImmOp) (i : Recompiler.Instr) : Option (EmitM Unit) :=
  match op with
  | .addi => some (addImmTrapping s i)
  | .addiu => some (addImm i)
  | .slti => some (setLessImm s true i)
  | .sltiu => some (setLessImm s false i)
  | .andi => some (andImm i)
  | .ori => some (orImm s .or i)
  | .xori => some (orImm s .xor i)
  | .lui => some (loadUpper i)
  | .daddiu => some (addImmDouble i)
  | .daddi => none

/-- Inline code for a shift. Variable double word shifts have none. -/
def inlineShift? (s : Site) (op : ShiftOp) (amount : ShiftAmount) (width : Width)
    (i : Recompiler.Instr) : Option (EmitM Unit) :=
  match amount, width with
  | .field, .word => some (shiftWord op i)
  | .register, .word => some (shiftWordVar op i)
  | .field, .double => some (shiftDouble s op i)
  | .fieldPlus32, .double => some (shiftDouble32 op i)
  | _, _ => none

/-- Inline code for an instruction, for those that have any. -/
def inline? (cfg : Config) (s : Site) (i : Recompiler.Instr) : Option (EmitM Unit) :=
  match i.kind with
  | .shift op amount width => inlineShift? s op amount width i
  | .alu op => inlineAlu? s op i
  | .imm op => inlineImm? s op i
  | .mulDiv .mult => some (multiply true i)
  | .mulDiv .multu => some (multiply false i)
  | .mfhi => some (move s (rd i) .hi)
  | .mflo => some (move s (rd i) .lo)
  | .mthi => some (move s .hi (rs i))
  | .mtlo => some (move s .lo (rs i))
  | .sync => some (pure ())
  | .load op => some (load cfg s op i)
  | .store size => some (store cfg s size i)
  | .loadFp width => some (loadFp cfg s width i)
  | .storeFp width => some (storeFp cfg s width i)
  | .mfc1 width => some (moveFromFp cfg width i)
  | .mtc1 width => some (moveToFp cfg width i)
  | .cfc1 => if i.fs = 31 then some (moveFromControl i) else none
  | .fp format op => (fpFormatSize? format).bind fun size => inlineFp? cfg size op i
  | _ => none

/-- An instruction that is no branch. The canonical no-op needs no code. -/
def instr (cfg : Config) (s : Site) (i : Recompiler.Instr) : EmitM Unit := do
  if !i.isNop then
    modifyCache (·.startOp)
    (inline? cfg s i).getD (request .exec s i)
    onCache HostCache.endOp

end Recompiler.Emit
