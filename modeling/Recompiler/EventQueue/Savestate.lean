import Recompiler.EventQueue.Basic

/-!
Pending events as bytes: pairs of a code and a cycle in firing order, ended by a code with all
bits set. Words have their low byte first.
-/

namespace Recompiler

namespace Savestate

/-- The code that ends the list. -/
def terminator : UInt32 := 0xffffffff

def wordBytes (w : UInt32) : List UInt8 :=
  [w.toUInt8, (w >>> 8).toUInt8, (w >>> 16).toUInt8, (w >>> 24).toUInt8]

def wordOf (a b c d : UInt8) : UInt32 :=
  a.toUInt32 ||| (b.toUInt32 <<< 8) ||| (c.toUInt32 <<< 16) ||| (d.toUInt32 <<< 24)

inductive LoadError where
  | missingTerminator
  | truncatedEvent (e : Event)
  deriving DecidableEq, Repr

namespace LoadError

def message : LoadError → String
  | .missingTerminator => "eventq: missing terminator"
  | .truncatedEvent e => "eventq: truncated event 0x" ++ Text.hex e.code.toNat

end LoadError

end Savestate

namespace EventQueue

open Savestate

/-- The pending events as bytes. -/
def save (q : EventQueue) : List UInt8 :=
  q.pending.flatMap (fun p => wordBytes p.event.code ++ wordBytes p.cycle) ++ wordBytes terminator

/-- What loading gives. Events before a defect are kept. -/
structure Loaded where
  queue : EventQueue
  log : List LogRecord
  error : Option LoadError
  deriving Inhabited, Repr

/-- Schedules the events in `bytes` one after the other. -/
def loadMore (now : UInt32) (q : EventQueue) (log : List LogRecord) : List UInt8 → Loaded
  | a :: b :: c :: d :: rest =>
    let e : Event := ⟨wordOf a b c d⟩
    if e.code = terminator then ⟨q, log, none⟩
    else
      match rest with
      | a' :: b' :: c' :: d' :: rest' =>
        let cycle := wordOf a' b' c' d'
        let (outcome, q') := q.schedule now e cycle
        loadMore now q' (log ++ outcome.report e cycle q.capacity) rest'
      | _ => ⟨q, log, some (.truncatedEvent e)⟩
  | _ => ⟨q, log, some .missingTerminator⟩

/-- Replaces the pending events by those in `bytes`; what follows the terminator is ignored. -/
def load (q : EventQueue) (now : UInt32) (bytes : List UInt8) : Loaded :=
  loadMore now q.clear [] bytes

end EventQueue

end Recompiler
