import Eventual.Cell.Basic
import Eventual.Queue.Routine

/-!
# Completions

A completion joins a write-once cell to four queues of items that wait for the
outcome: callbacks for each side, callbacks for either side, and wakers. It is
generic in the values it settles on and in the items it queues; what an item
does when it is called is somebody else's matter.
-/

namespace Eventual

/-- What an item waits for, which is also the queue that it waits in. -/
inductive Kind where
  | on (side : Side)
  | always
  | waker
  deriving DecidableEq, Inhabited

/-- The kind with the two sides exchanged. -/
def Kind.flip : Kind → Kind
  | .on s => .on s.other
  | .always => .always
  | .waker => .waker

@[simp] theorem Kind.flip_flip (k : Kind) : k.flip.flip = k := by cases k <;> simp [Kind.flip]

/-- A cell and the four queues of those who wait for it. -/
structure Completion (α ι : Type) where
  cell : Cell α := {}
  success : Queue ι := {}
  failure : Queue ι := {}
  always : Queue ι := {}
  wakers : Queue ι := {}
  deriving Inhabited

namespace Completion

variable {α ι : Type}

/-- The queue of a kind. -/
def queue (c : Completion α ι) : Kind → Queue ι
  | .on .success => c.success
  | .on .failure => c.failure
  | .always => c.always
  | .waker => c.wakers

/-- Replace the queue of a kind. -/
def setQueue (c : Completion α ι) (k : Kind) (q : Queue ι) : Completion α ι :=
  match k with
  | .on .success => { c with success := q }
  | .on .failure => { c with failure := q }
  | .always => { c with always := q }
  | .waker => { c with wakers := q }

@[simp] theorem queue_setQueue_self (c : Completion α ι) (k : Kind) (q : Queue ι) :
    (c.setQueue k q).queue k = q := by
  rcases k with (_ | _) | _ | _ <;> rfl

theorem queue_setQueue_of_ne (c : Completion α ι) {k k' : Kind} (h : k' ≠ k) (q : Queue ι) :
    (c.setQueue k q).queue k' = c.queue k' := by
  rcases k with (_ | _) | _ | _ <;> rcases k' with (_ | _) | _ | _ <;> simp_all [setQueue, queue]

@[simp] theorem cell_setQueue (c : Completion α ι) (k : Kind) (q : Queue ι) :
    (c.setQueue k q).cell = c.cell := by
  rcases k with (_ | _) | _ | _ <;> rfl

/-- The items of a kind that still wait, front to back. -/
def waiting (c : Completion α ι) (k : Kind) : List ι := (c.queue k).toList

/-- All items that still wait, in the order in which a dying completion lets go
of them: success callbacks, failure callbacks, callbacks for either side, wakers. -/
def leftover (c : Completion α ι) : List ι :=
  c.waiting (.on .success) ++ c.waiting (.on .failure) ++ c.waiting .always ++ c.waiting .waker

end Completion

end Eventual
