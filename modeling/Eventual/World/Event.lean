import Eventual.Completion.Protocol
import Eventual.Promise.Polling
import Eventual.Script.Syntax

/-!
# Histories

What happens in a run, as a list of events. Some events are what user code and
the library let the outside see: calls, wake-ups, drops, log records, answers.
Others are silent and are there to be reasoned about: that an item was
registered, that an outcome was offered, that it settled the cell or lost. No
step of a run looks at the history.
-/

namespace Eventual

/-- Completions are named by the order in which they came into being. -/
abbrev CompletionId := Nat

/-- Wakers are named by the order in which they came into being. -/
abbrev WakerId := Nat

/-- The things that can die. -/
inductive Entity where
  | cell (i : Nat)
  | queue (i : Nat)
  | completion (c : CompletionId)
  deriving DecidableEq, Inhabited

/-- What waits in the queues of a completion: a callback, run under a context if
it was registered through a promise; a countdown, which registers itself again
with one less until it has reached zero; a waker; or the relay of a watch. -/
inductive Item where
  | callback (cb : Callback) (guard : Option Context)
  | countdown (k : Kind) (name : String) (n : Nat)
  | waker (w : WakerId)
  | relay (w : WatchId)

instance : Inhabited Item := ⟨.waker 0⟩

/-- The name under which a countdown notes its calls. -/
def countdownLabel (name : String) (n : Nat) : String := name ++ "#" ++ toString n

/-- What a step that was carried out answers. -/
inductive Reply where
  | unit
  | flag (b : Bool)
  | flags (succeeded failed settled : Bool)
  | count (n : Nat)
  | state (st : Cell.State)
  | outcome (o : Option (Outcome Data))
  | datum (d : Data)
  | popped (d : Option Data)
  | items (ds : List Data)
  | caught (p : Option Panic)
  | accepted
  | rejected (e : PromiseError)
  | profile (name : Option String) (policy : PanicPolicy)
  | pending
  | ready (o : Outcome Data)
  | wouldBlock
  | text (s : String)
  | comparison (display debug : String) (equal copyEqual : Bool)
  deriving Inhabited

/-- How a step at the top of a run ended. -/
inductive Verdict where
  | returned (r : Reply)
  | faulty (f : Fault)
  | panicked (p : Panic)
  deriving Inhabited

/-- One thing that happened. -/
inductive Event where
  /-- An item was appended to a queue of a completion. -/
  | registered (c : CompletionId) (k : Kind) (x : Item)
  /-- An item was taken from its queue and its call began. -/
  | started (c : CompletionId) (k : Kind) (x : Item) (arg : Option Value)
  /-- A commit began. -/
  | offered (e : Entity) (o : Outcome Value)
  /-- A commit won. -/
  | settled (e : Entity) (o : Outcome Value)
  /-- A commit lost and its value was dropped. -/
  | lost (e : Entity) (o : Outcome Value)
  /-- A payload was appended to a queue. -/
  | appended (q : Nat) (v : Value)
  /-- A predicate answered for a payload. -/
  | tested (v : Value) (b : Bool)
  /-- A payload was taken from a queue, not wanted, and dropped. -/
  | discarded (q : Nat) (v : Value)
  /-- A payload was taken from a queue, handed out, and dropped there. -/
  | consumed (q : Nat) (v : Value)
  /-- A thing died and let go of values and items, in this order. -/
  | buried (e : Entity) (values : List Value) (items : List Item)
  /-- Callbacks that were still to be chained to a promise were dropped, in this order. -/
  | forgone (c : CompletionId) (callbacks : List Callback)
  /-- A reader was given a copy of the outcome of a completion. -/
  | copied (c : CompletionId) (o : Outcome Value)
  /-- A waker was woken. -/
  | woken (w : WakerId) (name : String)
  /-- A countdown came to its end. -/
  | ended (label : String)
  /-- A panic handler was called for a caught panic. -/
  | reported (handler : String) (p : Panic)
  /-- A line was logged on behalf of a completion. -/
  | logged (c : CompletionId) (r : LogRecord)
  /-- A step of a body answered. -/
  | replied (label : String) (r : Reply)
  /-- A step of a body was not understood. -/
  | faulted (label : String) (f : Fault)
  /-- A step at the top ended; the texts describe the watched handles. -/
  | concluded (v : Verdict) (shown : List (Option String))
  deriving Inhabited

end Eventual
