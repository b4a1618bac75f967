import Eventual.Cell.Basic

/-!
# Panics and what becomes of them

A callback may panic with a text, a number or an object, and so does a demand for
the value of a side on which a cell is not settled. Under the policy *propagate* a
panic unwinds through the drain that called the callback; under *isolate* it is
caught at the callback, logged and reported as a `PromiseError`, and what it
carries is dropped after that.

Dropping an object runs code of the user: the object wakes a waker, whose body may
do anything, and may panic in turn.
-/

namespace Eventual

/-- The state in one word. -/
def Cell.State.word : Cell.State → String
  | .pending => "Pending"
  | .committing => "Committing"
  | .settled .success => "Succeeded"
  | .settled .failure => "Failed"

/-- What a panic carries: a text, a number, the side that was demanded of a cell
and the state that the cell was in, or an object that wakes the waker under a
handle when it is dropped. -/
inductive Panic where
  | text (message : String)
  | number (n : Int)
  | refused (s : Side) (st : Cell.State)
  | object (waker : String)
  deriving DecidableEq, Inhabited

namespace Panic

/-- The text of a panic, if it carries one. -/
def text? : Panic → Option String
  | .text message => some message
  | .number _ | .object _ => none
  | .refused .success st => some ("value_or_panic on a slot in state " ++ st.word)
  | .refused .failure st => some ("error_or_panic on a slot in state " ++ st.word)

/-- The message under which a caught panic is reported: its text, or a fixed
phrase if it carries none. -/
def message (p : Panic) : String := p.text?.getD "non-string panic payload"

/-- The handle of the waker that is woken when what the panic carries is dropped. -/
def wakes? : Panic → Option String
  | .object waker => some waker
  | .text _ | .number _ | .refused _ _ => none

end Panic

/-- What happens when a callback of a promise panics. -/
inductive PanicPolicy where
  | propagate
  | isolate
  deriving DecidableEq, Inhabited

/-- The policy in one word. -/
def PanicPolicy.word : PanicPolicy → String
  | .propagate => "Propagate"
  | .isolate => "Isolate"

/-- What can go wrong with a promise: a second settlement, or a callback that
panicked. -/
inductive PromiseError where
  | alreadyCompleted
  | panicked (message : String)
  deriving DecidableEq, Inhabited

/-- The error in words. -/
def PromiseError.message : PromiseError → String
  | .alreadyCompleted => "promise already completed"
  | .panicked message => "callback panicked: " ++ message

/-- The error that reports a caught panic. -/
def Panic.error (p : Panic) : PromiseError := .panicked p.message

end Eventual
