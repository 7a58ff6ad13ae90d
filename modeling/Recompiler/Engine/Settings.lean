import Recompiler.Ir.Backend
import Recompiler.Text.Numeral

/-!
Settings of the engine, their defaults in the environment, and their limits.
-/

namespace Recompiler

open Ir

structure Settings where
  /-- The size of the code cache in bytes. -/
  cacheSize : Int
  /-- The most instructions in a trace; zero means no limit. -/
  maxTrace : Int
  /-- The cycles that each instruction takes. -/
  countPerOp : Int
  /-- The most guest pages with code. -/
  maxPages : Int
  /-- The most pending events. -/
  eventSlots : Int
  backend : Backend
  /-- Is the address window mapped that GoldenEye 007 relies on? -/
  goldenEye : Bool
  deriving DecidableEq, Inhabited, Repr

inductive SettingError where
  | invalidVariable (key : String)
  | variableTooSmall (key : String)
  | invalidCacheSize (n : Int)
  | invalidTraceLength (n : Int)
  | invalidCountPerOp (n : Int)
  | invalidPageLimit (n : Int)
  | invalidEventSlots (n : Int)
  deriving DecidableEq, Repr

namespace SettingError

def message : SettingError → String
  | .invalidVariable key => "mipsjit: invalid value for " ++ key
  | .variableTooSmall key => "mipsjit: value too small for " ++ key
  | .invalidCacheSize n => "mipsjit: invalid cache size: " ++ Text.signed n
  | .invalidTraceLength n => "mipsjit: invalid trace length: " ++ Text.signed n
  | .invalidCountPerOp n => "mipsjit: invalid count per op: " ++ Text.signed n
  | .invalidPageLimit n => "mipsjit: invalid page limit: " ++ Text.signed n
  | .invalidEventSlots n => "mipsjit: invalid event slots: " ++ Text.signed n

end SettingError

namespace Settings

def default : Settings := ⟨8388608, 256, 2, 4096, 16, .auto, false⟩

/-- May a trace of `n` instructions grow? -/
def canExtend (o : Settings) (n : Int) : Bool := n < o.maxTrace || o.maxTrace == 0

/-- The smallest code cache. -/
def minCacheSize : Int := 4096

/-- A number from a variable. An empty one counts as unset. Numbers past the signed range are
negative. -/
def readNumber (key value : String) (default min : Int) : Except SettingError Int :=
  if value.isEmpty then .ok default
  else
    match Text.numeral 0x10000000000000000 value with
    | .error _ => .error (.invalidVariable key)
    | .ok n =>
      let n := Int.bmod n 0x10000000000000000
      if n < min then .error (.variableTooSmall key) else .ok n

def readBackend (key value : String) (default : Backend) : Except SettingError Backend :=
  if value.isEmpty then .ok default
  else
    match Backend.ofName? value with
    | some b => .ok b
    | none => .error (.invalidVariable key)

/-- The defaults, as variables of the environment change them. -/
def ofEnv (env : String → String) : Except SettingError Settings := do
  let number (key : String) := readNumber key (env key)
  let cacheSize ← number "MIPSJIT_CACHE_SIZE" default.cacheSize 4096
  let maxTrace ← number "MIPSJIT_MAX_TRACE" default.maxTrace 1
  let countPerOp ← number "MIPSJIT_COUNT_PER_OP" default.countPerOp 0
  let maxPages ← number "MIPSJIT_MAX_PAGES" default.maxPages 1
  let backend ← readBackend "MIPSJIT_BACKEND" (env "MIPSJIT_BACKEND") default.backend
  return { default with cacheSize, maxTrace, countPerOp, maxPages, backend }

def setCacheSize (o : Settings) (n : Int) : Except SettingError Settings :=
  if n < minCacheSize then .error (.invalidCacheSize n) else .ok { o with cacheSize := n }

def setMaxTrace (o : Settings) (n : Int) : Except SettingError Settings :=
  if n < 0 then .error (.invalidTraceLength n) else .ok { o with maxTrace := n }

def setCountPerOp (o : Settings) (n : Int) : Except SettingError Settings :=
  if n < 0 then .error (.invalidCountPerOp n) else .ok { o with countPerOp := n }

def setMaxPages (o : Settings) (n : Int) : Except SettingError Settings :=
  if n ≤ 0 then .error (.invalidPageLimit n) else .ok { o with maxPages := n }

def setEventSlots (o : Settings) (n : Int) : Except SettingError Settings :=
  if n ≤ 0 then .error (.invalidEventSlots n) else .ok { o with eventSlots := n }

end Settings

end Recompiler
