import Eventual.Cell.Routine
import Eventual.Interleaving.System
import Eventual.Queue.Routine

/-!
# Threads on one cell and threads on one queue

The calls on a cell and the calls on a queue as rules for interleavings, where
every single access is a step of its own.
-/

namespace Eventual

/-- Calls on a cell, access by access. -/
def Cell.rules (α : Type) : Rules (Cell α) (Cell.Call α) (Cell.Point α) (Cell.Answer α) where
  start := Cell.Call.start
  step := Cell.step

/-- Threads on one cell. -/
abbrev CellCrew (α : Type) := Crew (Cell α) (Cell.Call α) (Cell.Point α) (Cell.Answer α)

/-- Calls on a queue, access by access. -/
def Queue.rules (α : Type) :
    Rules (Queue α) (Queue.Call α) (Queue.Point α) (Queue.Answer α) where
  start := Queue.Call.start
  step := Queue.step

/-- Threads on one queue. -/
abbrev QueueCrew (α : Type) := Crew (Queue α) (Queue.Call α) (Queue.Point α) (Queue.Answer α)

end Eventual
