import Eventual.Completion.Basic
import Eventual.Data
import Eventual.Promise.Policy

/-!
# Scripts

A script is a list of steps on objects that live under handles. Callbacks,
wakers, panic handlers and predicates have bodies, which are scripts again, so
what user code does while the library runs it is part of the text.

A step whose description made no sense keeps its fault in place of what was
asked. Faults are found in a fixed order: whether the step names a handle,
whether an object of the right family is there, whether the family knows the
step, and whether its arguments are right. The handle is looked up only when the
step is reached, so an operation on a handle keeps the later faults inside the
operation.
-/

namespace Eventual

/-- Why a step was not understood. -/
inductive Fault where
  | argument
  | handle
  | step
  | value
  | callback
  | kind
  | predicate
  | setting
  | busy
  deriving DecidableEq, Inhabited

/-- What can be read off a cell. -/
inductive Reading where
  | state
  | flags
  | result
  | demand (s : Side)
  deriving DecidableEq, Inhabited

/-- When a predicate accepts what it is offered. Calls are counted from one. -/
inductive Test where
  | always
  | never
  | equal (d : Data)
  | differ (d : Data)
  | above (n : Int)
  | nth (n : Int)
  | panicAt (n : Int)
  deriving Inhabited

/-- What a test answers on the given call, or the panic it raises. -/
def Test.answer (t : Test) (call : Nat) (d : Data) : Except Panic Bool :=
  match t with
  | .always => .ok true
  | .never => .ok false
  | .equal e => .ok (d = e)
  | .differ e => .ok (d ≠ e)
  | .above n =>
    .ok (match d with
      | .int m => n < m
      | _ => false)
  | .nth n => .ok (n = call)
  | .panicAt n =>
    if n = call then .error (.text s!"predicate panicked at call {call}") else .ok false

/-- Operations on a cell. -/
inductive CellOp where
  | tryCommit (o : Outcome Value)
  | read (r : Reading)
  | describe (block : Bool)
  | faulty (f : Fault)
  deriving Inhabited

/-- Operations on a context. -/
inductive ContextOp where
  | profile
  | clone (handle : String)
  | describe (block : Bool)
  | faulty (f : Fault)
  deriving Inhabited

/-- Operations on a deferred. -/
inductive DeferredOp where
  | settle (o : Outcome Value)
  | promise (handle : String)
  | clone (handle : String)
  | profile
  | describe (block : Bool)
  | faulty (f : Fault)
  deriving Inhabited

mutual

/-- A step: the label under which its answer is noted, and what it does. -/
inductive Step where
  | mk (label : String) (act : Act)

/-- What a step does. -/
inductive Act where
  | faulty (f : Fault)
  | raise (p : Panic)
  | attempt (body : List Step)
  | iterate (count : Nat) (body : List Step)
  | discard (handle : String)
  | compare (e other : PromiseError) (block : Bool)
  | create (handle : String) (m : Maker)
  | onCell (handle : String) (op : CellOp)
  | onQueue (handle : String) (op : QueueOp)
  | onCompletion (handle : String) (op : CompletionOp)
  | onContext (handle : String) (op : ContextOp)
  | onDeferred (handle : String) (op : DeferredOp)
  | onPromise (handle : String) (op : PromiseOp)
  | onUnknown (handle : String)

/-- What a handle is created for. -/
inductive Maker where
  | cell
  | queue
  | completion
  | waker (body : List Step)
  | context (settings : List Setting)
  | deferred (context : Option String)
  | pair (promise : String)
  | settled (o : Outcome Value)

/-- One setting of a context. -/
inductive Setting where
  | name (s : String)
  | policy (p : PanicPolicy)
  | handler (name : String) (body : List Step)

/-- A named callback. -/
inductive Callback where
  | mk (name : String) (body : List Step)

/-- Operations on a queue. The body of a predicate runs on its first call only. -/
inductive QueueOp where
  | append (v : Value)
  | appendRange (start stop : Int)
  | pop
  | popAll
  | popMatching (body : List Step) (t : Test)
  | isEmpty
  | length
  | describe (block : Bool)
  | faulty (f : Fault)

/-- Operations on a completion. -/
inductive CompletionOp where
  | tryCommit (o : Outcome Value)
  | complete (o : Outcome Value)
  | read (r : Reading)
  | register (k : Kind) (cb : Callback)
  | registerCountdown (k : Kind) (name : String) (n : Nat)
  | registerWaker (waker : String)
  | drain (s : Side)
  | describe (block : Bool)
  | faulty (f : Fault)

/-- Operations on a promise. -/
inductive PromiseOp where
  | register (k : Kind) (cb : Callback)
  | chained (first : Side) (onFirst onOther always : Callback)
  | flags
  | clone (handle : String)
  | poll (waker : String)
  | blockOn
  | profile
  | describe (block : Bool)
  | faulty (f : Fault)

end

/-- Steps, one after the other. -/
abbrev Script := List Step

instance : Inhabited Step := ⟨.mk "" (.faulty .argument)⟩

/-- The label under which a step's answer is noted. -/
def Step.label : Step → String
  | .mk label _ => label

/-- What a step does. -/
def Step.act : Step → Act
  | .mk _ act => act

/-- The name under which a callback's calls are noted. -/
def Callback.name : Callback → String
  | .mk name _ => name

/-- What a callback does. -/
def Callback.body : Callback → Script
  | .mk _ body => body

/-- What is called, with its name, when a panic was caught. -/
structure PanicHandler where
  name : String
  body : Script

/-- How a promise runs its callbacks. -/
structure Context where
  name : Option String := none
  policy : PanicPolicy := .propagate
  handler : Option PanicHandler := none
  deriving Inhabited

/-- A context after one more setting. -/
def Context.set (ctx : Context) : Setting → Context
  | .name s => { ctx with name := some s }
  | .policy p => { ctx with policy := p }
  | .handler name body => { ctx with handler := some { name, body } }

/-- A context from settings in their order; of two settings of one thing the later holds. -/
def Context.ofSettings (settings : List Setting) : Context :=
  settings.foldl Context.set {}

/-- The name under which a context logs caught panics. -/
def Context.label (ctx : Context) : String := ctx.name.getD "promise"

end Eventual
