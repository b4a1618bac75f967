import Eventual.World.Lifetime

/-!
# Frames

A run is a machine with a stack of frames. Each frame is a piece of code, of the
user or of the library, that waits for the code above it to answer or to panic.
The bottom frame carries the steps at the top of a run; user code stands on the
stack as bodies, and the library as drains, guards and the like between them.
-/

namespace Eventual

/-- Code that is under way. -/
inductive Frame where
  /-- The steps at the top of a run that are still to do, and the watched handles. -/
  | session (watched : List String) (rest : Script)
  /-- A body whose current step bears the label, and the steps still to do. -/
  | body (label : String) (rest : Script)
  /-- Panics from above stop here and become an answer. -/
  | catching
  /-- A body that is still to run so many times. -/
  | repeating (count : Nat) (script : Script)
  /-- A running call that keeps alive what it refers to. -/
  | holding (r : Ref)
  /-- A call on a completion or a promise, at a point of its routine. -/
  | driving (c : CompletionId) (here : Site.Point Value Item WakerId)
  /-- A settlement that waits to learn whether it won. -/
  | settling (c : CompletionId) (s : Side)
  /-- A callback that runs under a context. -/
  | guarding (c : CompletionId) (ctx : Context)
  /-- What a caught panic carries, until the panic handler is back. -/
  | dropping (payload : Panic)
  /-- A countdown that notes its end. -/
  | ending (label : String)
  /-- A take whose predicate looks at a payload, on the given call. -/
  | probing (q : Nat) (t : Test) (call : Nat) (offered : Value)
  /-- Callbacks of a promise that are still to be registered. -/
  | chaining (c : CompletionId) (ctx : Context) (rest : List (Kind × Callback))

/-- What the topmost frame is told: to go on, what the code above it answered,
that the step it began was not understood, or that the code above panicked. -/
inductive Control where
  | resume
  | answer (r : Reply)
  | faulty (f : Fault)
  | unwind (p : Panic)
  deriving Inhabited

/-- A run at one moment. -/
structure Machine where
  world : World
  stack : List Frame
  control : Control

/-- The reference that a frame holds. -/
def Frame.held? : Frame → Option Ref
  | .holding r => some r
  | _ => none

/-- The references that the running calls hold. -/
def heldBy (stack : List Frame) : List Ref := stack.filterMap Frame.held?

end Eventual
