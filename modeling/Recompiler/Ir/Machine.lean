import Recompiler.Ieee.Arith
import Recompiler.Ir.HostRam
import Recompiler.Ir.Program

/-!
The machine that runs programs. It works on any context that offers words at byte offsets, a
byte table and RAM. A run goes on until the program exits or asks for a service.
-/

namespace Recompiler.Ir

/-- What a program can reach outside its registers. -/
class Context (σ : Type) where
  loadWord : σ → Int → UInt32
  storeWord : σ → Int → UInt32 → σ
  /-- A byte of the table that the context points to at an offset. -/
  tableByte : σ → Int → UInt32 → UInt8
  ram : σ → Array UInt32
  /-- Changes the RAM. -/
  mapRam : (Array UInt32 → Array UInt32) → σ → σ

namespace Context

variable {σ : Type} [Context σ]

def loadDouble (s : σ) (off : Int) : UInt64 :=
  joinWords (loadWord s (off + 4)) (loadWord s off)

def storeDouble (s : σ) (off : Int) (v : UInt64) : σ :=
  storeWord (storeWord s off (lowWord v)) (off + 4) (highWord v)

end Context

/-- The link cells, by number, and the programs that their contents stand for. -/
structure Links where
  cell : Int → Nat
  /-- The program of an entry, if it is still there. -/
  resolve : Option (Nat → Option Program)

namespace Links

/-- Every cell is empty. -/
def none : Links := ⟨fun _ => 0, .none⟩

end Links

inductive LinkError where
  | noResolver
  | deadTrace (cell : Int) (entry : Nat)
  | endless
  deriving DecidableEq, Repr

namespace LinkError

def message : LinkError → String
  | .noResolver => "link: no resolver installed"
  | .deadTrace cell entry =>
    "link: cell " ++ Text.signed cell ++ " refers to a dead trace: 0x" ++ Text.hex entry
  | .endless => "the program does not stop"

end LinkError

/-- The allocatable registers hold this after a service. -/
def poison : UInt32 := 0xdeadbeef

/-- The exit status of a program that asks for a service. -/
def exitCall : Int := 1

structure Machine (σ : Type) where
  program : Program
  /-- The next instruction; past the last one the program has ended. -/
  pc : Nat
  regs : Vector UInt32 16
  fregs : Vector UInt64 8
  ctx : σ

namespace Machine

variable {σ : Type}

/-- A machine at the first instruction of a program. -/
def start (p : Program) (ctx : σ) : Machine σ :=
  ⟨p, 0, Vector.replicate 16 0, Vector.replicate 8 0, ctx⟩

/-- Register values; the zero register and numbers past the last read as zero. -/
def get (m : Machine σ) (r : HostReg) : UInt32 :=
  if r = .rz then 0 else m.regs.toArray.getD r.num 0

def set (m : Machine σ) (r : HostReg) (v : UInt32) : Machine σ :=
  if r = .rz then m else { m with regs := m.regs.setIfInBounds r.num v }

def getFp (m : Machine σ) (r : FpReg) : UInt64 := m.fregs.toArray.getD r.num 0

def setFp (m : Machine σ) (r : FpReg) (v : UInt64) : Machine σ :=
  { m with fregs := m.fregs.setIfInBounds r.num v }

def evalBin (op : BinOp) (x y : UInt32) : UInt32 :=
  match op with
  | .add => x + y
  | .sub => x - y
  | .and => x &&& y
  | .or => x ||| y
  | .xor => x ^^^ y
  | .nor => ~~~(x ||| y)
  | .slt => ofBool32 (slt32 x y)
  | .sltu => ofBool32 (x < y)
  | .sll => x <<< (y &&& 31)
  | .srl => x >>> (y &&& 31)
  | .sra => sar32 x (y &&& 31)

def evalConst (op : ConstOp) (x v : UInt32) : UInt32 :=
  match op with
  | .add => x + v
  | .and => x &&& v
  | .or => x ||| v
  | .xor => x ^^^ v
  | .slt => ofBool32 (slt32 x v)
  | .sltu => ofBool32 (x < v)
  | .sll => x <<< v
  | .srl => x >>> v
  | .sra => sar32 x v

def evalCond (c : Cond) (x y : UInt32) : Bool :=
  match c with
  | .eq => x == y
  | .ne => x != y
  | .lt => slt32 x y
  | .ge => !slt32 x y
  | .ltu => x < y
  | .geu => y ≤ x

/-- Does the signed sum or difference overflow? -/
def overflows (sub : Bool) (x y : UInt32) : Bool :=
  if sub then signBit32 (x ^^^ y) && signBit32 (x ^^^ (x - y))
  else !signBit32 (x ^^^ y) && signBit32 (x ^^^ (x + y))

def product (signed : Bool) (x y : UInt32) : UInt64 :=
  if signed then sextWord x * sextWord y else x.toUInt64 * y.toUInt64

def evalLoad (op : RamLoad) (ram : Array UInt32) (a : Nat) : UInt32 :=
  match op with
  | .lb => (HostRam.byte ram a).toUInt8.toInt8.toInt32.toUInt32
  | .lbu => HostRam.byte ram a
  | .lh => (HostRam.half ram a).toUInt16.toInt16.toInt32.toUInt32
  | .lhu => HostRam.half ram a
  | .lw => HostRam.word ram a

def evalStore (op : RamStore) (a : Nat) (v : UInt32) (ram : Array UInt32) : Array UInt32 :=
  match op with
  | .sb => HostRam.setByte ram a v
  | .sh => HostRam.setHalf ram a v
  | .sw => HostRam.setWord ram a v

/-- The format of a floating-point operand. -/
def fpFormat : FpSize → Ieee.Format
  | .single => Ieee.single
  | .double => Ieee.double

/-- The bits of an operand; a single precision one is in the low word. -/
def operand (size : FpSize) (v : UInt64) : Nat :=
  match size with
  | .single => v.toUInt32.toNat
  | .double => v.toNat

def evalFpBin (op : FpBinOp) (size : FpSize) (x y : UInt64) : UInt64 :=
  let f := fpFormat size
  let x := operand size x
  let y := operand size y
  match op with
  | .add => UInt64.ofNat (Ieee.add f x y)
  | .sub => UInt64.ofNat (Ieee.sub f x y)
  | .mul => UInt64.ofNat (Ieee.mul f x y)
  | .div => UInt64.ofNat (Ieee.div f x y)

/-- A move copies the whole register, whatever the size. -/
def evalFpUn (op : FpUnOp) (size : FpSize) (v : UInt64) : UInt64 :=
  let f := fpFormat size
  let x := operand size v
  match op with
  | .sqrt => UInt64.ofNat (Ieee.sqrt f x)
  | .mov => v
  | .abs => UInt64.ofNat (Ieee.clearSign f x)
  | .neg => UInt64.ofNat (Ieee.flipSign f x)

def evalFpCompare (size : FpSize) (cond : Nat) (x y : UInt64) : Bool :=
  match Ieee.compare (fpFormat size) (operand size x) (operand size y) with
  | .unordered => cond.testBit 0
  | .equal => cond.testBit 1
  | .less => cond.testBit 2
  | .greater => false

/-- Where control goes after an instruction. -/
inductive Next where
  | advance
  | jump (target : Nat)
  | call (resume : Nat)
  | link (cell : Int)
  | exit (status : Int)
  deriving DecidableEq, Repr

variable [Context σ]

/-- The address of a RAM access. -/
def address (m : Machine σ) (x : HostReg) (off : Int) : Nat :=
  (((m.get x).toNat : Int) + off).toNat

/-- The effect of an instruction, and where control goes. -/
def exec (m : Machine σ) (i : Instr Nat) : Machine σ × Next :=
  match i with
  | .li v x => (m.set x v, .advance)
  | .mov x y => (m.set y (m.get x), .advance)
  | .ldc off x => (m.set x (Context.loadWord m.ctx off), .advance)
  | .stc x off =>
    let v := m.get x
    ({ m with ctx := Context.storeWord m.ctx off v }, .advance)
  | .stci v off => ({ m with ctx := Context.storeWord m.ctx off v }, .advance)
  | .stcx x off =>
    let v := sar32 (m.get x) 31
    ({ m with ctx := Context.storeWord m.ctx off v }, .advance)
  | .ltab off x y => (m.set y (Context.tableByte m.ctx off (m.get x)).toUInt32, .advance)
  | .bin op x y z => (m.set z (evalBin op (m.get x) (m.get y)), .advance)
  | .const op x v y => (m.set y (evalConst op (m.get x) v), .advance)
  | .mul signed x y lo hi =>
    let v := product signed (m.get x) (m.get y)
    ((m.set lo (lowWord v)).set hi (highWord v), .advance)
  | .load op x off y => (m.set y (evalLoad op (Context.ram m.ctx) (m.address x off)), .advance)
  | .store op y x off =>
    let a := m.address x off
    let v := m.get y
    ({ m with ctx := Context.mapRam (evalStore op a v) m.ctx }, .advance)
  | .branch cond x y target =>
    (m, if evalCond cond (m.get x) (m.get y) then .jump target else .advance)
  | .branchConst cond x v target =>
    (m, if evalCond cond (m.get x) v then .jump target else .advance)
  | .branchOverflow sub x y target =>
    (m, if overflows sub (m.get x) (m.get y) then .jump target else .advance)
  | .jump target => (m, .jump target)
  | .callout id target =>
    let regs := Vector.ofFn fun r : Fin 16 => if r.val < 9 then poison else m.regs.get r
    ({ m with ctx := Context.storeWord m.ctx 16 (UInt32.ofInt id), regs := regs }, .call target)
  | .link cell => (m, .link cell)
  | .exit status => (m, .exit status)
  | .fld .single off x => (m.setFp x (Context.loadWord m.ctx off).toUInt64, .advance)
  | .fld .double off x => (m.setFp x (Context.loadDouble m.ctx off), .advance)
  | .fst .single x off =>
    let v := (m.getFp x).toUInt32
    ({ m with ctx := Context.storeWord m.ctx off v }, .advance)
  | .fst .double x off =>
    let v := m.getFp x
    ({ m with ctx := Context.storeDouble m.ctx off v }, .advance)
  | .fbin op size x y z => (m.setFp z (evalFpBin op size (m.getFp x) (m.getFp y)), .advance)
  | .funary op size x y => (m.setFp y (evalFpUn op size (m.getFp x)), .advance)
  | .fcmp size x y cond z =>
    (m.set z (ofBool32 (evalFpCompare size cond (m.getFp x) (m.getFp y))), .advance)

/-- Continues with the program in a link cell; an empty cell falls through. -/
def follow (m : Machine σ) (links : Links) (cell : Int) : Except LinkError (Machine σ) :=
  let entry := links.cell cell
  if entry = 0 then .ok { m with pc := m.pc + 1 }
  else
    match links.resolve with
    | none => .error .noResolver
    | some resolve =>
      match resolve entry with
      | some p => .ok { m with program := p, pc := 0 }
      | none => .error (.deadTrace cell entry)

/-- The machine after the program has ended. -/
def halted (m : Machine σ) : Machine σ := { m with pc := m.program.code.size }

/-- Runs until the program exits, ends or asks for a service, and returns the exit status; there
is no result if it does none of these. After a service the machine is at the instruction to
resume at. -/
def run (links : Links) (m : Machine σ) : Option (Except LinkError Int × Machine σ) :=
  match m.program.code[m.pc]? with
  | none => some (.ok 0, m)
  | some i =>
    let (m, next) := m.exec i
    match next with
    | .advance => { m with pc := m.pc + 1 } |>.run links
    | .jump target => { m with pc := target } |>.run links
    | .call resume => some (.ok exitCall, { m with pc := resume })
    | .link cell =>
      match m.follow links cell with
      | .ok m => m |>.run links
      | .error e => some (.error e, m)
    | .exit status => some (.ok status, m.halted)
partial_fixpoint

end Machine

end Recompiler.Ir
