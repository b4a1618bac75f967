import Eventual.Script.Syntax

/-!
# The weight of a script

A bound, read off the text of a script, on the steps that a run of it can take
when no panic handler is called. Every piece of text pays for the frames it puts
on the stack, for what it leaves in queues to be called later, and for one step
more than that. A body is counted wherever it can run: the body of a callback
once, that of a waker once, that of a repetition as often as it is repeated.
-/

namespace Eventual

/-- What a countdown pays for while it waits: each of its calls registers the next. -/
def countdownWeight (n : Nat) : Nat := 3 + 12 * n

/-- What a waker or a relay pays for while it waits, apart from a waker's body. -/
def wakerWeight : Nat := 3

/-- What a payload pays for while it waits: being offered to a predicate. -/
def payloadWeight : Nat := 2

/-- What a panic pays for: dropping an object runs the body of a waker. -/
def Panic.weight : Panic → Nat
  | .object _ => 1
  | .text _ | .number _ | .refused _ _ => 0

mutual

/-- What a step pays for. -/
def Step.weight : Step → Nat
  | .mk _ act => act.weight

/-- What the steps of a script pay for. -/
def weightOf : List Step → Nat
  | [] => 0
  | step :: rest => step.weight + weightOf rest

/-- What an act pays for. -/
def Act.weight : Act → Nat
  | .attempt body => 4 + weightOf body
  | .iterate count body => 3 + count * (3 + weightOf body)
  | .create _ m => m.weight
  | .onQueue _ op => op.weight
  | .onCompletion _ op => op.weight
  | .onDeferred _ _ => 16
  | .onPromise _ op => op.weight
  | .raise p => 2 + p.weight
  | .faulty _ | .discard _ | .compare _ _ _ | .onCell _ _ | .onContext _ _
  | .onUnknown _ => 2

/-- What the making of an object pays for. -/
def Maker.weight : Maker → Nat
  | .waker body => 2 + weightOf body
  | .cell | .queue | .completion | .context _ | .deferred _ | .pair _ | .settled _ => 2

/-- What a callback pays for while it waits. -/
def Callback.weight : Callback → Nat
  | .mk _ body => 4 + weightOf body

/-- What an operation on a queue pays for. -/
def QueueOp.weight : QueueOp → Nat
  | .append _ => 2 + payloadWeight
  | .appendRange start stop => 2 + payloadWeight * (stop - start).toNat
  | .popMatching body _ => 6 + weightOf body
  | .pop | .popAll | .isEmpty | .length | .describe _ | .faulty _ => 2

/-- What an operation on a completion pays for. -/
def CompletionOp.weight : CompletionOp → Nat
  | .register _ cb => 12 + cb.weight
  | .registerCountdown _ _ n => 12 + countdownWeight n
  | .registerWaker _ => 12 + wakerWeight
  | .tryCommit _ | .complete _ => 15
  | .drain _ => 10
  | .read _ | .describe _ | .faulty _ => 2

/-- What an operation on a promise pays for. -/
def PromiseOp.weight : PromiseOp → Nat
  | .register _ cb => 12 + cb.weight
  | .chained _ a b c => 37 + a.weight + b.weight + c.weight
  | .poll _ => 16 + wakerWeight
  | .flags | .clone _ | .blockOn | .profile | .describe _ | .faulty _ => 2

end

end Eventual
