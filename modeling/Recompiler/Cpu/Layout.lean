import Recompiler.Cpu.Basic

/-!
The CPU state as traces address it: 32-bit words at byte offsets. A double word has its low
word first.
-/

namespace Recompiler

/-- A register that a trace can address: the general registers, `HI` and `LO`. -/
abbrev GuestReg := Fin 34

namespace GuestReg

def ofReg (r : Reg) : GuestReg := ⟨r.val, by omega⟩

def hi : GuestReg := 32

def lo : GuestReg := 33

end GuestReg

namespace Layout

def callId : Int := 16

/-- The place of a host register in the save area. -/
def save (slot : Fin 9) : Int := 24 + 4 * slot.val

def lowWord (g : GuestReg) : Int := 64 + 8 * g.val

def highWord (g : GuestReg) : Int := 68 + 8 * g.val

/-- A double precision register. -/
def double (wide : Bool) (r : Reg) : Int := 336 + 8 * (Cpu.doubleSlot wide r).val

/-- The low half of a double precision register. -/
def doubleLow (wide : Bool) (r : Reg) : Int := double wide r

/-- The high half of a double precision register. -/
def doubleHigh (wide : Bool) (r : Reg) : Int := double wide r + 4

/-- A single precision register. -/
def single (wide : Bool) (r : Reg) : Int :=
  if Cpu.singleInHigh wide r then doubleHigh wide r else doubleLow wide r

def pc : Int := 592

def delay : Int := 596

def cycle : Int := 600

def nextEvent : Int := 604

def leave : Int := 608

def lastCell : Int := 612

def callAddr : Int := 616

def callOp : Int := 620

def callCount : Int := 624

def fcr0 : Int := 628

def fcr31 : Int := 632

def llBit : Int := 636

def ramSize : Int := 640

/-- The table of code marks, one byte for each page. -/
def codePages : Int := 648

end Layout

namespace Cpu

/-- The field that a word of the state belongs to. -/
inductive Field where
  | callId
  | save (slot : Fin 9)
  | gpr (r : Reg) (high : Bool)
  | hi (high : Bool)
  | lo (high : Bool)
  | fpr (r : Reg) (high : Bool)
  | pc
  | delay
  | cycle
  | nextEvent
  | leave
  | lastCell
  | callAddr
  | callOp
  | callCount
  | fcr0
  | fcr31
  | llBit
  | ramSize
  deriving DecidableEq, Repr

/-- The field with the given word index. -/
def fieldAt? (w : Nat) : Option Field :=
  if w = 4 then some .callId
  else if h : 6 ≤ w ∧ w < 15 then some (.save ⟨w - 6, by omega⟩)
  else if h : 16 ≤ w ∧ w < 80 then some (.gpr ⟨(w - 16) / 2, by omega⟩ (w % 2 == 1))
  else if 80 ≤ w ∧ w < 82 then some (.hi (w % 2 == 1))
  else if 82 ≤ w ∧ w < 84 then some (.lo (w % 2 == 1))
  else if h : 84 ≤ w ∧ w < 148 then some (.fpr ⟨(w - 84) / 2, by omega⟩ (w % 2 == 1))
  else
    match w with
    | 148 => some .pc
    | 149 => some .delay
    | 150 => some .cycle
    | 151 => some .nextEvent
    | 152 => some .leave
    | 153 => some .lastCell
    | 154 => some .callAddr
    | 155 => some .callOp
    | 156 => some .callCount
    | 157 => some .fcr0
    | 158 => some .fcr31
    | 159 => some .llBit
    | 160 => some .ramSize
    | _ => none

/-- The field at a byte offset. -/
def field? (off : Int) : Option Field :=
  if 0 ≤ off ∧ off % 4 = 0 then fieldAt? (off.toNat / 4) else none

def half (v : UInt64) (high : Bool) : UInt32 :=
  if high then Recompiler.highWord v else Recompiler.lowWord v

def setHalf (v : UInt64) (high : Bool) (w : UInt32) : UInt64 :=
  if high then joinWords w (Recompiler.lowWord v) else joinWords (Recompiler.highWord v) w

def getField (c : Cpu) : Field → UInt32
  | .callId => c.frame.callId
  | .save slot => c.frame.save.get slot
  | .gpr r high => half (c.gpr.get r) high
  | .hi high => half c.hi high
  | .lo high => half c.lo high
  | .fpr r high => half (c.fpr.get r) high
  | .pc => c.pc
  | .delay => c.delay
  | .cycle => c.cycle
  | .nextEvent => c.nextEvent
  | .leave => c.leave
  | .lastCell => c.frame.lastCell
  | .callAddr => c.frame.callAddr
  | .callOp => c.frame.callOp
  | .callCount => c.frame.callCount
  | .fcr0 => c.fcr0
  | .fcr31 => c.fcr31
  | .llBit => c.llBit
  | .ramSize => UInt32.ofNat c.mem.size

def setField (c : Cpu) (f : Field) (v : UInt32) : Cpu :=
  match f with
  | .callId => { c with frame := { c.frame with callId := v } }
  | .save slot => { c with frame := { c.frame with save := c.frame.save.put slot v } }
  | .gpr r high => { c with gpr := c.gpr.put r (setHalf (c.gpr.get r) high v) }
  | .hi high => { c with hi := setHalf c.hi high v }
  | .lo high => { c with lo := setHalf c.lo high v }
  | .fpr r high => { c with fpr := c.fpr.put r (setHalf (c.fpr.get r) high v) }
  | .pc => { c with pc := v }
  | .delay => { c with delay := v }
  | .cycle => { c with cycle := v }
  | .nextEvent => { c with nextEvent := v }
  | .leave => { c with leave := v }
  | .lastCell => { c with frame := { c.frame with lastCell := v } }
  | .callAddr => { c with frame := { c.frame with callAddr := v } }
  | .callOp => { c with frame := { c.frame with callOp := v } }
  | .callCount => { c with frame := { c.frame with callCount := v } }
  | .fcr0 => { c with fcr0 := v }
  | .fcr31 => { c with fcr31 := v }
  | .llBit => { c with llBit := v }
  | .ramSize => c

/-- A register, `HI` or `LO`. -/
def guest (c : Cpu) (g : GuestReg) : UInt64 :=
  if h : g.val < 32 then c.reg ⟨g.val, h⟩ else if g = .hi then c.hi else c.lo

/-- Writes a register, `HI` or `LO`. -/
def setGuest (c : Cpu) (g : GuestReg) (v : UInt64) : Cpu :=
  if h : g.val < 32 then c.setReg ⟨g.val, h⟩ v
  else if g = .hi then { c with hi := v }
  else { c with lo := v }

/-- The word at a byte offset; outside the state it reads as zero. -/
def loadWord (c : Cpu) (off : Int) : UInt32 :=
  match field? off with
  | some f => c.getField f
  | none => 0

/-- Writes the word at a byte offset; outside the state nothing is written. -/
def storeWord (c : Cpu) (off : Int) (v : UInt32) : Cpu :=
  match field? off with
  | some f => c.setField f v
  | none => c

end Cpu

end Recompiler
