import Eventual.Interleaving.Objects

/-!
# Committers against each other

Threads that each commit their number, on the side of success if it is even,
while one more thread reads the state.
-/

namespace Eventual.Race.Committers

/-- What a committer commits. -/
def outcome (i : Nat) : Outcome Nat :=
  { side := if i % 2 = 0 then .success else .failure, value := i }

/-- How far a state is: a cell only moves to states further on. -/
def progress : Cell.State → Nat
  | .pending => 0
  | .committing => 1
  | .settled _ => 2

/-- Whether a list of states never goes back, and stays as it is once it is final. -/
def isMonotonic : List Cell.State → Bool
  | a :: b :: rest =>
    progress a ≤ progress b && (progress a < progress b || a = b) && isMonotonic (b :: rest)
  | _ => true

/-- What became of the cell. -/
structure Result where
  winners : Nat
  losers : Nat
  isTerminal : Bool
  storesWinner : Bool
  isMonotonic : Bool

/-- How often the reader reads: taking turns, all committers are done before it is. -/
def reads : Nat := 8

/-- Let the committers loose. -/
def run (committers : Nat) : Result :=
  let calls := (List.range committers).map fun i => [Cell.Call.commit (outcome i)]
  let reader := List.replicate reads Cell.Call.state
  let start : CellCrew Nat := Crew.initial {} (calls ++ [reader])
  let c := start.takeTurns (Cell.rules Nat)
  let won := c.answers.filterMap fun
    | (.commit o, .won true) => some o
    | _ => none
  let losers := c.answers.countP fun
    | (.commit _, .won false) => true
    | _ => false
  let states := c.answers.filterMap fun
    | (_, .state st) => some st
    | _ => none
  { winners := won.length
    losers
    isTerminal := c.shared.isTerminal
    storesWinner := c.shared.result = won.head?
    isMonotonic := isMonotonic states }

end Eventual.Race.Committers
