import Recompiler.Emit.Inline

/-!
Branches. A branch and its delay slot are emitted together, as one scope of the register
assignment, and end the trace.
-/

namespace Recompiler.Emit

open Ir

/-- What a conditional branch tests. -/
inductive BranchTest where
  | fpFlag (value : Bool)
  | equal
  | different
  | atMostZero
  | aboveZero
  | negative
  | notNegative
  deriving DecidableEq, Inhabited, Repr

/-- The test of a branch, by its opcode, or by `rt` for the tests of the sign. -/
def branchTest (i : Recompiler.Instr) : BranchTest :=
  match i.opcode with
  | 0x11 => .fpFlag (i.rt.val.testBit 0)
  | 0x04 | 0x14 => .equal
  | 0x05 | 0x15 => .different
  | 0x06 | 0x16 => .atMostZero
  | 0x07 | 0x17 => .aboveZero
  | _ =>
    match i.rt.val with
    | 0x00 | 0x02 | 0x10 | 0x12 => .negative
    | _ => .notNegative

/-- The word with the sign of a guest register. -/
def signWord (s : Site) (g : GuestReg) : EmitM HostReg :=
  if s.isWord g then inLow g else inHigh g

/-- Sets `t` to a nonzero value if the registers differ. -/
def differ (s : Site) (x y : GuestReg) (t : HostReg) : EmitM Unit := do
  let xl ← inLow x
  let yl ← inLow y
  bin .xor xl yl t
  if !(s.isWord x && s.isWord y) then
    let u ← temp
    let xh ← inHigh x
    let yh ← inHigh y
    bin .xor xh yh u
    bin .or t u t

/-- Sets `t` to one if the register is at most zero, else to zero. -/
def lessThanOne (s : Site) (g : GuestReg) (t : HostReg) : EmitM Unit := do
  if s.isWord g then
    let x ← inLow g
    const .slt x 1 t
  else
    let high ← inHigh g
    let low ← inLow g
    let one ← constant 1
    compareBoth true high low .rz one t

/-- A temporary that is nonzero exactly if the branch is taken. -/
def condition (s : Site) (i : Recompiler.Instr) : EmitM HostReg := do
  let t ← temp
  match branchTest i with
  | .fpFlag value =>
    let control ← inWord Layout.fcr31
    const .and control 0x00800000 t
    if !value then const .sltu t 1 t
  | .equal =>
    differ s (rs i) (rt i) t
    const .sltu t 1 t
  | .different => differ s (rs i) (rt i) t
  | .atMostZero => lessThanOne s (rs i) t
  | .aboveZero =>
    lessThanOne s (rs i) t
    const .xor t 1 t
  | .negative =>
    let x ← signWord s (rs i)
    const .srl x 31 t
  | .notNegative =>
    let x ← signWord s (rs i)
    const .srl x 31 t
    const .xor t 1 t
  return t

/-- What a branch leaves for after its delay slot. -/
structure Outcome where
  /-- The target of a register jump. -/
  target : HostReg
  cond : HostReg
  deriving Inhabited

/-- Evaluates the branch, before its delay slot. -/
def evaluate (s : Site) (i : Recompiler.Instr) : EmitM Outcome := do
  if i.opcode = 0 then
    let target ← temp
    mov (← inLow (rs i)) target
    return ⟨target, .rz⟩
  else if i.isJump then return ⟨.rz, .rz⟩
  else return ⟨.rz, ← condition s i⟩

/-- Writes the return address, whether or not the branch is taken. -/
def writeLink (s : Site) (i : Recompiler.Instr) : EmitM Unit := do
  match i.link? with
  | some r =>
    if r ≠ .zero then
      let d ← outSigned (.ofReg r)
      emit (.li (s.pc + 8) d)
      modifyCache (·.setConst d (s.pc + 8))
  | none => pure ()

/-- What remains of a slot between a branch and its delay slot. -/
def unpinned (s : Slot) : Slot :=
  if s.content = .temp then s else { s with busy := false }

/-- Lets the delay slot use every register but the temporaries. -/
def unpinAll (c : HostCache) : HostCache := { c with slots := c.slots.map unpinned }

/-- Releases the temporaries that the delay slot has left, except `keep`. -/
def retire (keep : HostReg) : EmitM Unit :=
  modifyCache fun c => c.temps.foldl (fun c r => if r = keep then c else c.drop r) c

/-- The branch at `s` with its delay slot, and the exits of the trace. -/
def branchAndSlot (cfg : Config) (s : Site) (i : Recompiler.Instr) (slot : TraceOp) :
    EmitM Unit := do
  let slotSite : Site := ⟨s.pc + 4, s.index + 1, true, slot.widths⟩
  let both := s.index + 2
  modifyCache (·.startOp)
  let out ← evaluate s i
  writeLink s i
  modifyCache unpinAll
  if i.isJump then
    instr cfg slotSite slot.instr
    retire out.target
    if i.opcode = 0 then exitReg cfg out.target both
    else exitDirect cfg (i.jumpTarget s.pc) both true
  else if i.isLikely then
    let skip ← freshLabel "skip"
    emit (.branchConst .eq out.cond 0 skip)
    let saved := (← get).cache.snapshot
    instr cfg slotSite slot.instr
    retire .rz
    exitDirect cfg (i.branchTarget s.pc) both true
    modifyCache (·.restore saved)
    putLabel skip
    exitDirect cfg (s.pc + 8) (s.index + 1) true
  else
    let notTaken ← freshLabel "nt"
    instr cfg slotSite slot.instr
    retire out.cond
    emit (.branchConst .eq out.cond 0 notTaken)
    let saved := (← get).cache.snapshot
    exitDirect cfg (i.branchTarget s.pc) both true
    modifyCache (·.restore saved)
    putLabel notTaken
    exitDirect cfg (s.pc + 8) both true
  onCache HostCache.endOp

/-- A branch that a service runs together with its delay slot. -/
def branchServed (cfg : Config) (s : Site) (i : Recompiler.Instr) : EmitM Unit := do
  modifyCache (·.startOp)
  request .step s i
  onCache HostCache.endOp
  exitServed cfg (s.index + 2)

/-- The branch `op`, which `rest` follows in the trace. -/
def branch (cfg : Config) (s : Site) (op : TraceOp) (rest : List TraceOp) : EmitM Unit := do
  match rest with
  | [] =>
    if op.delaySlotOmitted then branchServed cfg s op.instr
    else throw (.missingDelaySlot s.pc)
  | slot :: _ =>
    if op.delaySlotOmitted || slot.boundary ≠ .continue then branchServed cfg s op.instr
    else if slot.inDelaySlot then branchAndSlot cfg s op.instr slot
    else throw (.missingDelaySlot s.pc)

end Recompiler.Emit
