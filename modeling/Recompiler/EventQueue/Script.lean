import Recompiler.EventQueue.Savestate

/-!
Commands on a queue, handlers that are lists of commands, and the dispatch of due events to
them.
-/

namespace Recompiler

/-- An operation on a queue. -/
inductive QueueCommand where
  | schedule (e : Event) (cycle : UInt32)
  | scheduleAfter (e : Event) (delay : UInt32)
  | cancel (e : Event)
  | pending (e : Event)
  | next
  | shift (d : UInt32)
  | size
  | clear
  | setSpecialDone (done : Bool)
  deriving DecidableEq, Inhabited, Repr

inductive QueueReply where
  | unit
  | flag (b : Bool)
  | cycle (c : Option UInt32)
  | count (n : Nat)
  deriving DecidableEq, Inhabited, Repr

/-- A queue with the counter it is measured against, and what has been logged. -/
structure QueueState where
  queue : EventQueue
  now : UInt32
  log : Array LogRecord
  deriving Inhabited, Repr

namespace QueueState

def schedule (s : QueueState) (e : Event) (cycle : UInt32) : QueueReply × QueueState :=
  let (outcome, queue) := s.queue.schedule s.now e cycle
  (.flag outcome.isAdded,
    { s with queue, log := s.log ++ outcome.report e cycle s.queue.capacity })

def run (s : QueueState) : QueueCommand → QueueReply × QueueState
  | .schedule e cycle => s.schedule e cycle
  | .scheduleAfter e delay => s.schedule e (s.now + delay)
  | .cancel e =>
    let (found, queue) := s.queue.cancel e
    (.flag found, { s with queue })
  | .pending e => (.cycle (s.queue.pendingAt? e), s)
  | .next => (.cycle s.queue.next?, s)
  | .shift d => (.unit, { s with queue := s.queue.shift d })
  | .size => (.count s.queue.size, s)
  | .clear => (.unit, { s with queue := s.queue.clear })
  | .setSpecialDone done => (.unit, { s with queue := { s.queue with specialDone := done } })

/-- Runs commands in order and collects the replies. -/
def runAll (s : QueueState) : List QueueCommand → List QueueReply × QueueState
  | [] => ([], s)
  | c :: rest =>
    let (r, s) := s.run c
    let (rs, s) := s.runAll rest
    (r :: rs, s)

/-- An event that has fired, with the replies to the commands of its handler. -/
structure Fired where
  event : Event
  replies : List QueueReply
  deriving DecidableEq, Inhabited, Repr

/-- What a check for due events did. -/
inductive Dispatch where
  | idle
  | unhandled (e : Event)
  | fired (f : Fired)
  deriving DecidableEq, Inhabited, Repr

/-- Fires the event at the head if it is due at `now`. The event is removed before its handler
runs, which may schedule it again. -/
def dispatch (s : QueueState) (handler : Event → Option (List QueueCommand)) (now : UInt32) :
    Dispatch × QueueState :=
  match s.queue.popDue? now with
  | none => (.idle, s)
  | some (e, queue) =>
    let s := { s with queue }
    match handler e with
    | none => (.unhandled e, { s with log := s.log.push (EventQueue.unhandled e now) })
    | some commands =>
      let (replies, s) := s.runAll commands
      (.fired ⟨e, replies⟩, s)

/-- Replaces the pending events by those in `bytes`. -/
def load (s : QueueState) (bytes : List UInt8) : Option Savestate.LoadError × QueueState :=
  let loaded := s.queue.load s.now bytes
  (loaded.error, { s with queue := loaded.queue, log := s.log ++ loaded.log })

end QueueState

end Recompiler
