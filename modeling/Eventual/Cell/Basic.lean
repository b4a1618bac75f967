import Eventual.Outcome

/-!
# The write-once cell

A cell holds at most one outcome. It is pending until a commit claims it, is
committing while the winner stores the outcome, and is settled from the moment
the winner publishes the side. The stored outcome is meaningful only in a
settled cell: a reader looks at the state first and at the outcome second.

`tryCommit` is a commit that nobody interferes with. `Cell.Routine` cuts commits
and reads into their single accesses.
-/

namespace Eventual

/-- What a reader can see of a cell's progress. -/
inductive Cell.State where
  | pending
  | committing
  | settled (side : Side)
  deriving DecidableEq, Inhabited

/-- A cell: its state, and the outcome once the winner has stored it. -/
structure Cell (α : Type) where
  state : Cell.State := .pending
  stored : Option (Outcome α) := none
  deriving Inhabited

namespace Cell

namespace State

/-- The side of a settled state. -/
def side? : State → Option Side
  | .settled s => some s
  | .pending | .committing => none

/-- Whether the state is final. -/
def isTerminal (st : State) : Bool := st.side?.isSome

/-- The state with the two sides exchanged. -/
def flip : State → State
  | .settled s => .settled s.other
  | st => st

@[simp] theorem side?_settled (s : Side) : (settled s).side? = some s := rfl

@[simp] theorem side?_pending : pending.side? = none := rfl

@[simp] theorem side?_committing : committing.side? = none := rfl

theorem side?_eq_some_iff {st : State} {s : Side} : st.side? = some s ↔ st = settled s := by
  cases st <;> simp [side?]

end State

variable {α : Type}

/-- Whether the cell is settled on the given side. -/
def isOn (c : Cell α) (s : Side) : Bool := c.state = .settled s

/-- Whether the cell is settled. -/
def isTerminal (c : Cell α) : Bool := c.state.isTerminal

/-- The outcome, as far as a reader may know it. -/
def result (c : Cell α) : Option (Outcome α) :=
  if c.isTerminal then c.stored else none

/-- The value on the demanded side, or the state that the cell is in instead. -/
def demand (c : Cell α) (s : Side) : Except State α :=
  match c.result with
  | some o => if o.side = s then .ok o.value else .error c.state
  | none => .error c.state

/-- Commit without interference: the first commit wins and every later one
leaves the cell alone. -/
def tryCommit (c : Cell α) (o : Outcome α) : Cell α × Bool :=
  match c.state with
  | .pending => ({ state := .settled o.side, stored := some o }, true)
  | .committing | .settled _ => (c, false)

theorem tryCommit_of_pending {c : Cell α} (h : c.state = .pending) (o : Outcome α) :
    c.tryCommit o = ({ state := .settled o.side, stored := some o }, true) := by
  simp [tryCommit, h]

theorem tryCommit_of_ne_pending {c : Cell α} (h : c.state ≠ .pending) (o : Outcome α) :
    c.tryCommit o = (c, false) := by
  unfold tryCommit
  split
  next e => exact absurd e h
  all_goals rfl

/-- The cell with the two sides exchanged. -/
def flip (c : Cell α) : Cell α :=
  { state := c.state.flip, stored := c.stored.map Outcome.flip }

end Cell

end Eventual
