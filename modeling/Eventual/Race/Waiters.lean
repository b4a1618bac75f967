import Eventual.Interleaving.Stage

/-!
# Waiters against a settlement

A promise gets panicking callbacks on both sides, waiters await clones of it,
and one thread settles it. The waiters have looked before the promise is
settled, so the panics meet the settling thread and every waiter gets the outcome.
-/

namespace Eventual.Race.Waiters

/-- What became of the waiters and of the settlement. -/
structure Result where
  settlerPanicked : Bool
  results : List (Outcome Int)
  reported : Nat

/-- The panicking callbacks, so many on each side. -/
def callbacks (bad : Nat) (conduct : Conduct) : List (Stage.Call Int) :=
  (List.range bad).flatMap fun i =>
    [.on .success, .on .failure].map fun k => .direct (.register k (.callback i conduct))

/-- The poll of a waiter, on a watch and with a waker of its own. -/
def poll (waiter : Nat) : List (Stage.Call Int) :=
  [.poll { watch := waiter, waker := waiter, relay := .relay waiter }]

/-- The outcome that a thread was given. -/
def ready (t : Thread (Stage.Call Int) (Stage.Point Int) (Stage.Answer Int)) :
    Option (Outcome Int) :=
  t.answers.findSome? fun
    | (_, .returned (.ready o)) => some o
    | _ => none

/-- Let the waiters wait, settle the promise, and let the waiters that were woken
look again. -/
def run (waiters bad : Nat) (isolate : Bool) (o : Outcome Int) : Result :=
  let conduct : Conduct := if isolate then .contained else .panics
  let stage : Stage Int := { site := { watches := Array.replicate waiters {} } }
  let polls := (List.range waiters).map poll
  let crew (s : Stage Int) (calls : List (List (Stage.Call Int))) : Troupe Int :=
    (Crew.initial s calls).takeTurns Stage.rules
  let prepared := crew stage [callbacks bad conduct]
  let waiting := crew prepared.shared polls
  let settled := crew waiting.shared [[.direct (.complete o)]]
  let resumed := crew settled.shared polls
  { settlerPanicked := settled.answers.any fun
      | (_, .panicked _) => true
      | _ => false
    results := resumed.threads.filterMap ready
    reported := resumed.shared.trail.countP fun
      | .reported _ _ => true
      | _ => false }

end Eventual.Race.Waiters
