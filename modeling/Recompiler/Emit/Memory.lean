import Recompiler.Emit.Alu

/-!
Inline loads and stores. The fast path takes naturally aligned accesses to RAM through the
unmapped segments, and leaves stores to pages with code to the slow path. RAM is an array of
words in host order, so the addresses of bytes and halves are swizzled.
-/

namespace Recompiler.Emit

open Ir

/-- The registers of an inline access. After the guards `offset` is the place in RAM. -/
structure Access where
  base : HostReg
  addr : HostReg
  offset : HostReg
  scratch : HostReg
  /-- The number of bytes. -/
  size : UInt32
  deriving DecidableEq, Inhabited, Repr

def sizeBytes : Size → UInt32
  | .byte => 1
  | .half => 2
  | .word => 4
  | .double => 8

def loadSize : LoadOp → Size
  | .lb | .lbu => .byte
  | .lh | .lhu => .half
  | .lw | .lwu => .word
  | .ld => .double

def fpSize : Width → Size
  | .word => .word
  | .double => .double

def access (size : Size) (i : Recompiler.Instr) : EmitM Access := do
  let base ← inLow (rs i)
  let addr ← temp
  let offset ← temp
  let scratch ← temp
  return ⟨base, addr, offset, scratch, sizeBytes size⟩

/-- Leaves for the slow path unless the access is one that the fast path takes. -/
def guard (cfg : Config) (i : Recompiler.Instr) (a : Access) (slow : String) (isStore : Bool) :
    EmitM Unit := do
  const .add a.base (simm i) a.addr
  if cfg.ramSize < a.size then emit (.jump slow)
  else
    const .add a.addr 0x80000000 a.offset
    emit (.branchConst .geu a.offset 0x40000000 slow)
    const .and a.offset 0x1fffffff a.offset
    if 1 < a.size then
      const .and a.offset (a.size - 1) a.scratch
      emit (.branchConst .ne a.scratch 0 slow)
    emit (.branchConst .geu a.offset (cfg.ramSize - a.size + 1) slow)
    if isStore then
      const .srl a.offset 12 a.scratch
      emit (.ltab Layout.codePages a.scratch a.scratch)
      emit (.branchConst .ne a.scratch 0 slow)

/-- Turns the place of a byte or half in a big-endian word into its place in a host word. -/
def swizzle (size : Size) (a : Access) : EmitM Unit :=
  match size with
  | .byte => const .xor a.offset 3 a.offset
  | .half => const .xor a.offset 2 a.offset
  | .word | .double => pure ()

def loadWord (op : RamLoad) (a : Access) (off : Int) (d : HostReg) : EmitM Unit :=
  emit (.load op a.offset off d)

def storeWord (op : RamStore) (a : Access) (off : Int) (x : HostReg) : EmitM Unit :=
  emit (.store op x a.offset off)

def load (cfg : Config) (s : Site) (op : LoadOp) (i : Recompiler.Instr) : EmitM Unit := do
  let a ← access (loadSize op) i
  let stub ← branchOff s i a.addr
  guard cfg i a (Stub.entryLabel stub.id) false
  swizzle (loadSize op) a
  match op with
  | .ld =>
    let high ← outHigh (rt i)
    let low ← outLow (rt i)
    loadWord .lw a 0 high
    loadWord .lw a 4 low
  | .lb => loadWord .lb a 0 (← outSigned (rt i))
  | .lbu => loadWord .lbu a 0 (← outUnsigned (rt i))
  | .lh => loadWord .lh a 0 (← outSigned (rt i))
  | .lhu => loadWord .lhu a 0 (← outUnsigned (rt i))
  | .lw => loadWord .lw a 0 (← outSigned (rt i))
  | .lwu => loadWord .lw a 0 (← outUnsigned (rt i))
  join stub

def store (cfg : Config) (s : Site) (size : Size) (i : Recompiler.Instr) : EmitM Unit := do
  let high ← if size = .double then inHigh (rt i) else pure .rz
  let low ← inLow (rt i)
  let a ← access size i
  let stub ← branchOff s i a.addr
  guard cfg i a (Stub.entryLabel stub.id) true
  swizzle size a
  match size with
  | .byte => storeWord .sb a 0 low
  | .half => storeWord .sh a 0 low
  | .word => storeWord .sw a 0 low
  | .double =>
    storeWord .sw a 0 high
    storeWord .sw a 4 low
  join stub

/-- The context words of a floating-point register, by their offsets in RAM. -/
def fpWords (cfg : Config) (width : Width) (r : Reg) : List (Int × Int) :=
  match width with
  | .word => [(0, Layout.single cfg.wideFp r)]
  | .double => [(0, Layout.doubleHigh cfg.wideFp r), (4, Layout.doubleLow cfg.wideFp r)]

/-- Brings the context words of a floating-point register up to date and forgets copies. -/
def clobber (words : List (Int × Int)) : EmitM Unit :=
  modifyCache fun c => words.foldl (fun c w => c.clobberFp w.2 4) c

def loadFp (cfg : Config) (s : Site) (width : Width) (i : Recompiler.Instr) : EmitM Unit := do
  let words := fpWords cfg width i.ft
  clobber words
  let a ← access (fpSize width) i
  let v ← temp
  let stub ← branchOff s i a.addr
  guard cfg i a (Stub.entryLabel stub.id) false
  for (off, word) in words do
    loadWord .lw a off v
    emit (.stc v word)
  join stub

def storeFp (cfg : Config) (s : Site) (width : Width) (i : Recompiler.Instr) : EmitM Unit := do
  let words := fpWords cfg width i.ft
  clobber words
  let a ← access (fpSize width) i
  let v ← temp
  let stub ← branchOff s i a.addr
  guard cfg i a (Stub.entryLabel stub.id) true
  for (off, word) in words do
    emit (.ldc word v)
    storeWord .sw a off v
  join stub

end Recompiler.Emit
