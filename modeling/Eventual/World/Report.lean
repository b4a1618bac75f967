import Eventual.Text.Describe
import Eventual.World.Event

/-!
# Reports

What the outside sees of a history: for each step at the top of a run, the lines
that were written since the step before it ended, how it ended, and what the
watched handles showed. Drops and copies show only for tracked values, and log
records only up to the chosen verbosity.
-/

namespace Eventual

/-- How important a log record is. -/
inductive LogLevel where
  | error
  | debug
  | trace
  deriving DecidableEq, Inhabited

/-- The level in capital letters. -/
def LogLevel.word : LogLevel → String
  | .error => "ERROR"
  | .debug => "DEBUG"
  | .trace => "TRACE"

/-- Levels by growing detail, from one. -/
def LogLevel.detail : LogLevel → Nat
  | .error => 1
  | .debug => 2
  | .trace => 3

namespace LogRecord

/-- The level at which a record is written. -/
def level : LogRecord → LogLevel
  | .committed _ | .lateRegistration _ | .drained _ _ => .trace
  | .lost _ => .debug
  | .contained _ _ => .error

/-- The text of a record. -/
def text : LogRecord → String
  | .committed s => "completion committed " ++ s.word
  | .lateRegistration s => s.word ++ " callback registered after completion"
  | .drained n s => "drained " ++ toString n ++ " callbacks on " ++ s.word
  | .lost .success => "resolve lost to an earlier completion"
  | .lost .failure => "reject lost to an earlier completion"
  | .contained label p => "[" ++ label ++ "] " ++ p.error.message

/-- Whether a record is written when records up to a level are wanted. -/
def isWanted (r : LogRecord) : Option LogLevel → Bool
  | none => false
  | some upTo => r.level.detail ≤ upTo.detail

end LogRecord

/-- One line of what the outside sees. -/
inductive Line where
  | called (name : String) (arg : Option Data)
  | ended (label : String)
  | woken (name : String)
  | tested (d : Data) (b : Bool)
  | copied (name : String)
  | dropped (name : String)
  | abandoned (callback : String)
  | reported (handler debug display : String)
  | logged (level text : String)
  | replied (label : String) (r : Reply)
  | faulted (label : String) (f : Fault)
  deriving Inhabited

/-- The line of a dropped value. -/
def Value.dropLines (v : Value) : List Line := (v.tracked.map Line.dropped).toList

/-- The line of an item that is dropped without having run. -/
def Item.dropLines : Item → List Line
  | .callback cb _ => [.abandoned cb.name]
  | .countdown _ _ _ | .waker _ | .relay _ => []

/-- The line of an item whose call begins. Wakers write theirs when they are woken. -/
def Item.startLines (arg : Option Data) : Item → List Line
  | .callback cb _ => [.called cb.name arg]
  | .countdown _ name n => [.called (countdownLabel name n) arg]
  | .waker _ | .relay _ => []

/-- The lines of an event. -/
def Event.lines (upTo : Option LogLevel) : Event → List Line
  | .started _ _ x arg => x.startLines (arg.map Value.data)
  | .lost _ o => o.value.dropLines
  | .tested v b => [.tested v.data b]
  | .discarded _ v | .consumed _ v => v.dropLines
  | .buried _ values items => values.flatMap Value.dropLines ++ items.flatMap Item.dropLines
  | .forgone _ callbacks => callbacks.map fun cb => .abandoned cb.name
  | .copied _ o => (o.value.tracked.map Line.copied).toList
  | .woken _ name => [.woken name]
  | .ended label => [.ended label]
  | .reported handler p =>
    [.reported handler (p.error.layout.render false) p.error.message]
  | .logged _ r => if r.isWanted upTo then [.logged r.level.word r.text] else []
  | .replied label r => [.replied label r]
  | .faulted label f => [.faulted label f]
  | .registered _ _ _ | .offered _ _ | .settled _ _ | .appended _ _ | .concluded _ _ => []

/-- What the outside sees of one step at the top. -/
structure StepReport where
  verdict : Verdict
  lines : List Line
  shown : List (Option String)
  deriving Inhabited

/-- The reports of a history, after the given lines, which are newest first. -/
def reportsAfter (upTo : Option LogLevel) : List Line → List Event → List StepReport
  | _, [] => []
  | lines, .concluded verdict shown :: rest =>
    { verdict, lines := lines.reverse, shown } :: reportsAfter upTo [] rest
  | lines, e :: rest => reportsAfter upTo ((e.lines upTo).reverse ++ lines) rest

/-- The reports of a history, one for each step at the top that has ended. -/
def reports (upTo : Option LogLevel) (history : List Event) : List StepReport :=
  reportsAfter upTo [] history

end Eventual
