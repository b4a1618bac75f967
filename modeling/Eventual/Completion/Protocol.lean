import Eventual.Cell.Routine
import Eventual.Completion.Basic
import Eventual.Promise.Policy

/-!
# The protocol of a completion

Committing, completing, registering and draining, as routines on one completion.
A step appends to a queue, takes from a queue, or makes one access to the cell.

*Registering* appends first and looks at the cell afterwards. If the cell is
settled by then, the registrar drains; if it is not, whoever settles it later
finds the new item in its own drain. So no item is overlooked, and since a take
hands an item to one thread alone, none is called twice.

*Draining* wakes all wakers, then calls the callbacks of the side on which the
cell settled, then those for either side. It takes each item just before it
calls it, so a drain that starts meanwhile goes on where this one stands. A
drain on the wrong side, or of a cell that is not settled, does nothing.

*Completing* commits and, if it wins, drains.

What a step wants from its surroundings, apart from the next step, it says by
its `Action`: take notice of something, call an item, or hand over the answer.
Nothing here knows what calling an item does; if the call does not return, the
drain does not go on and what it had not taken stays queued.
-/

namespace Eventual

/-- What is worth a line in the log. -/
inductive LogRecord where
  | committed (s : Side)
  | lateRegistration (s : Side)
  | drained (count : Nat) (s : Side)
  | lost (s : Side)
  | contained (label : String) (p : Panic)
  deriving DecidableEq, Inhabited

/-- What a step lets its surroundings know. -/
inductive Notice (α ι : Type) where
  | registered (k : Kind) (x : ι)
  | settled (o : Outcome α)
  | logged (r : LogRecord)
  deriving Inhabited

/-- What follows one step of a routine that calls items: another point, perhaps
with a notice or after calling an item, or the answer, or the failure of a demand
for a side on which the cell is not settled. -/
inductive Action (α ι π ρ : Type) where
  | goto (point : π)
  | notice (n : Notice α ι) (point : π)
  | call (k : Kind) (x : ι) (arg : Option α) (point : π)
  | done (answer : ρ)
  | refused (s : Side) (st : Cell.State)

/-- The same action over other points and answers. -/
def Action.map {α ι π π' ρ ρ' : Type} (f : π → π') (g : ρ → ρ') :
    Action α ι π ρ → Action α ι π' ρ'
  | .goto p => .goto (f p)
  | .notice n p => .notice n (f p)
  | .call k x arg p => .call k x arg (f p)
  | .done a => .done (g a)
  | .refused s st => .refused s st

namespace Completion

/-- The three parts of a drain, in their order. -/
inductive Stage where
  | wakers
  | matching
  | always
  deriving DecidableEq, Inhabited

/-- The queue that a stage of a drain empties. -/
def Stage.kind (s : Side) : Stage → Kind
  | .wakers => .waker
  | .matching => .on s
  | .always => .always

/-- What a stage passes to the items it calls. -/
def Stage.argument {α : Type} (v : α) : Stage → Option α
  | .matching => some v
  | .wakers | .always => none

/-- The stage after a stage. -/
def Stage.next? : Stage → Option Stage
  | .wakers => some .matching
  | .matching => some .always
  | .always => none

/-- What a call on a completion answers. A commit that lost gives its outcome back. -/
inductive Answer (α : Type) where
  | unit
  | won
  | lost (o : Outcome α)
  deriving Inhabited

/-- What can be asked of a completion. -/
inductive Call (α ι : Type) where
  | tryCommit (o : Outcome α)
  | complete (o : Outcome α)
  | register (k : Kind) (x : ι)
  | drain (s : Side)
  deriving Inhabited

/-- Where a call on a completion stands. -/
inductive Point (α ι : Type) where
  | commit (o : Outcome α) (drains : Bool) (here : Cell.CommitPoint)
  | announce (s : Side)
  | append (k : Kind) (x : ι)
  | consult (k : Kind)
  | check (s : Side) (answer : Answer α)
  | fetch (s : Side) (answer : Answer α)
  | sweep (s : Side) (answer : Answer α) (v : α) (stage : Stage) (called : Nat)
  | report (s : Side) (answer : Answer α) (called : Nat)
  | finish (answer : Answer α)
  deriving Inhabited

variable {α ι : Type}

/-- The first point of a call. -/
def Call.start : Call α ι → Point α ι
  | .tryCommit o => .commit o false .look
  | .complete o => .commit o true .look
  | .register k x => .append k x
  | .drain s => .check s .unit

/-- One step of a call on a completion. -/
def step (c : Completion α ι) :
    Point α ι → Completion α ι × Action α ι (Point α ι) (Answer α)
  | .commit o drains here =>
    match Cell.commitStep o c.cell here with
    | (cell, .goto here') => ({ c with cell }, .goto (.commit o drains here'))
    | (cell, .done true) =>
      ({ c with cell },
        .notice (.settled o) (if drains then .announce o.side else .finish .won))
    | (cell, .done false) => ({ c with cell }, .done (.lost o))
  | .announce s => (c, .notice (.logged (.committed s)) (.check s .won))
  | .append k x => (c.setQueue k ((c.queue k).append x), .notice (.registered k x) (.consult k))
  | .consult k =>
    match k, c.cell.state with
    | .on s, .settled s' =>
      if s' = s then (c, .notice (.logged (.lateRegistration s)) (.check s .unit))
      else (c, .done .unit)
    | .always, .settled s | .waker, .settled s => (c, .goto (.check s .unit))
    | _, .pending | _, .committing => (c, .done .unit)
  | .check s answer =>
    if c.cell.isOn s then (c, .goto (.fetch s answer)) else (c, .done answer)
  | .fetch s answer =>
    match c.cell.demand s with
    | .ok v => (c, .goto (.sweep s answer v .wakers 0))
    | .error st => (c, .refused s st)
  | .sweep s answer v stage called =>
    match (c.queue (stage.kind s)).take? with
    | (q, some x) =>
      (c.setQueue (stage.kind s) q,
        .call (stage.kind s) x (stage.argument v) (.sweep s answer v stage (called + 1)))
    | (q, none) =>
      (c.setQueue (stage.kind s) q,
        .goto (match stage.next? with
          | some stage' => .sweep s answer v stage' called
          | none => .report s answer called))
  | .report s answer called => (c, .notice (.logged (.drained called s)) (.finish answer))
  | .finish answer => (c, .done answer)

end Completion

end Eventual
