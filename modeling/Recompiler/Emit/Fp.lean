import Recompiler.Emit.Alu

/-!
Inline code for floating-point arithmetic, comparisons, and moves between the register files.
-/

namespace Recompiler.Emit

open Ir

/-- The context offset of a floating-point register. -/
def fpOffset (cfg : Config) (size : FpSize) (r : Reg) : Int :=
  match size with
  | .single => Layout.single cfg.wideFp r
  | .double => Layout.double cfg.wideFp r

def inFp (cfg : Config) (size : FpSize) (r : Reg) : EmitM FpReg :=
  onCache (HostCache.allocInFp (fpOffset cfg size r) size)

def outFp (cfg : Config) (size : FpSize) (r : Reg) : EmitM FpReg :=
  onCache (HostCache.allocOutFp (fpOffset cfg size r) size)

def fpBinary (cfg : Config) (size : FpSize) (op : FpBinOp) (i : Recompiler.Instr) :
    EmitM Unit := do
  let x ← inFp cfg size i.fs
  let y ← inFp cfg size i.ft
  let z ← outFp cfg size i.fd
  emit (.fbin op size x y z)

def fpUnary (cfg : Config) (size : FpSize) (op : FpUnOp) (i : Recompiler.Instr) :
    EmitM Unit := do
  let x ← inFp cfg size i.fs
  let z ← outFp cfg size i.fd
  emit (.funary op size x z)

/-- Replaces the condition bit of the control register by the outcome of a comparison. -/
def fpCompare (cfg : Config) (size : FpSize) (i : Recompiler.Instr) : EmitM Unit := do
  let x ← inFp cfg size i.fs
  let y ← inFp cfg size i.ft
  let t ← temp
  emit (.fcmp size x y (i.cond &&& 7).toNat t)
  let control ← inWord Layout.fcr31
  let _ ← outWord Layout.fcr31
  const .and control 0xff7fffff control
  const .sll t 23 t
  bin .or control t control

/-- Writes a word to the context; the zero register is written as a constant. -/
def storeContext (r : HostReg) (off : Int) : EmitM Unit :=
  if r = .rz then emit (.stci 0 off) else emit (.stc r off)

def moveFromFp (cfg : Config) (width : Width) (i : Recompiler.Instr) : EmitM Unit := do
  match width with
  | .word =>
    let off := Layout.single cfg.wideFp i.fs
    modifyCache (·.clobberFp off 4)
    emit (.ldc off (← outSigned (rt i)))
  | .double =>
    modifyCache (·.clobberFp (Layout.double cfg.wideFp i.fs) 8)
    let high ← outHigh (rt i)
    let low ← outLow (rt i)
    emit (.ldc (Layout.doubleHigh cfg.wideFp i.fs) high)
    emit (.ldc (Layout.doubleLow cfg.wideFp i.fs) low)

def moveToFp (cfg : Config) (width : Width) (i : Recompiler.Instr) : EmitM Unit := do
  match width with
  | .word =>
    let off := Layout.single cfg.wideFp i.fs
    modifyCache (·.clobberFp off 4)
    storeContext (← inLow (rt i)) off
  | .double =>
    modifyCache (·.clobberFp (Layout.double cfg.wideFp i.fs) 8)
    storeContext (← inHigh (rt i)) (Layout.doubleHigh cfg.wideFp i.fs)
    storeContext (← inLow (rt i)) (Layout.doubleLow cfg.wideFp i.fs)

def moveFromControl (i : Recompiler.Instr) : EmitM Unit := do
  let x ← inWord Layout.fcr31
  mov x (← outSigned (rt i))

end Recompiler.Emit
