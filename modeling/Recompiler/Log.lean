import Recompiler.Text.Number

/-!
Log records: a level, a message, and attributes. A sink keeps the records from a least level on,
and a sampler lets only some of them through.
-/

namespace Recompiler

/-- A level by its rank; greater ones are more severe. -/
structure LogLevel where
  rank : Int
  deriving DecidableEq, Inhabited, Repr

namespace LogLevel

def trace : LogLevel := ⟨-8⟩

def debug : LogLevel := ⟨-4⟩

def info : LogLevel := ⟨0⟩

def warn : LogLevel := ⟨4⟩

def error : LogLevel := ⟨8⟩

/-- The name of a base level with the distance from it. -/
def offsetName (name : String) (d : Int) : String :=
  if d = 0 then name else name ++ Text.signedPlus d

/-- The name of the next named level below, or of the lowest one, with the distance from it. -/
def name (l : LogLevel) : String :=
  if l.rank < 0 then offsetName "DEBUG" (l.rank + 4)
  else if l.rank < 4 then offsetName "INFO" l.rank
  else if l.rank < 8 then offsetName "WARN" (l.rank - 4)
  else offsetName "ERROR" (l.rank - 8)

end LogLevel

structure LogRecord where
  level : LogLevel
  message : String
  attrs : List (String × String)
  deriving DecidableEq, Inhabited, Repr

namespace LogRecord

/-- Level, message and attributes on one line. -/
def render (r : LogRecord) : String :=
  r.level.name ++ " " ++ r.message ++ String.join (r.attrs.map fun (k, v) => " " ++ k ++ "=" ++ v)

/-- Is the record at least as severe as `least`? -/
def isAtLeast (r : LogRecord) (least : LogLevel) : Bool := least.rank ≤ r.level.rank

end LogRecord

/-- A logger adds its attributes to every record. -/
structure Logger where
  attrs : List (String × String)
  deriving DecidableEq, Inhabited, Repr

namespace Logger

def root : Logger := ⟨[]⟩

/-- Alternating keys and values as attributes. A value that is left over gets a key that marks
it. -/
def pairs : List String → List (String × String)
  | [] => []
  | [v] => [("!BADKEY", v)]
  | k :: v :: rest => (k, v) :: pairs rest

/-- The logger with more attributes. -/
def addAttrs (l : Logger) (args : List String) : Logger := ⟨l.attrs ++ pairs args⟩

def record (l : Logger) (level : LogLevel) (message : String) (args : List String) : LogRecord :=
  ⟨level, message, l.attrs ++ pairs args⟩

end Logger

/-- Lets the first of every `period` records through. -/
structure Sampler where
  period : UInt32
  /-- The records seen so far. -/
  count : UInt32
  deriving DecidableEq, Inhabited, Repr

namespace Sampler

def every (period : UInt32) : Sampler := ⟨period, 0⟩

/-- Counts a record and says whether it goes through. Without a period every record does. -/
def next (s : Sampler) : Bool × Sampler :=
  if s.period = 0 then (true, s)
  else ((s.count + 1) % s.period == 1, { s with count := s.count + 1 })

end Sampler

end Recompiler
