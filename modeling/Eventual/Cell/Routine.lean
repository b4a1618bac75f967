import Eventual.Cell.Basic
import Eventual.Routine

/-!
# Accesses to a cell

The commits and the reads of a cell, one access a step. A commit looks at the
state, claims the cell by exchanging pending for committing, stores the outcome
and publishes the side; it gives up, without trying again, when the look or the
exchange finds the cell taken. A read of the outcome looks at the state and
reads what is stored only if the state was final. A demand for one side reads
the outcome and, if that side is not there, looks at the state once more to say
which state it found.
-/

namespace Eventual.Cell

variable {α : Type}

/-- Where a commit stands. -/
inductive CommitPoint where
  | look
  | claim
  | store
  | publish
  deriving DecidableEq, Inhabited

/-- One access of a commit of `o`; the answer says whether it won. -/
def commitStep (o : Outcome α) : Access (Cell α) CommitPoint Bool
  | c, .look =>
    match c.state with
    | .pending => (c, .goto .claim)
    | .committing | .settled _ => (c, .done false)
  | c, .claim =>
    match c.state with
    | .pending => ({ c with state := .committing }, .goto .store)
    | .committing | .settled _ => (c, .done false)
  | c, .store => ({ c with stored := some o }, .goto .publish)
  | c, .publish => ({ c with state := .settled o.side }, .done true)

/-- A commit that is alone does in four accesses what `tryCommit` does at once. -/
theorem runAlone_commitStep (c : Cell α) (o : Outcome α) :
    runAlone (commitStep o) 4 c .look = some (c.tryCommit o) := by
  obtain ⟨state, stored⟩ := c
  cases state <;> rfl

/-- What a thread can ask of a cell. -/
inductive Call (α : Type) where
  | commit (o : Outcome α)
  | state
  | isOn (s : Side)
  | isTerminal
  | result
  | demand (s : Side)
  deriving Inhabited

/-- Where a call on a cell stands. -/
inductive Point (α : Type) where
  | commit (o : Outcome α) (here : CommitPoint)
  | state
  | isOn (s : Side)
  | isTerminal
  | result
  | readResult
  | demand (s : Side)
  | readDemand (s : Side)
  | refuse (s : Side)
  deriving Inhabited

/-- What a call on a cell answers. -/
inductive Answer (α : Type) where
  | won (b : Bool)
  | state (st : State)
  | flag (b : Bool)
  | outcome (o : Option (Outcome α))
  | value (v : α)
  | refused (s : Side) (st : State)
  deriving Inhabited

/-- The first point of a call. -/
def Call.start : Call α → Point α
  | .commit o => .commit o .look
  | .state => .state
  | .isOn s => .isOn s
  | .isTerminal => .isTerminal
  | .result => .result
  | .demand s => .demand s

/-- One access of a call on a cell. -/
def step : Access (Cell α) (Point α) (Answer α)
  | c, .commit o p =>
    let (c', next) := commitStep o c p
    (c', next.map (.commit o) .won)
  | c, .state => (c, .done (.state c.state))
  | c, .isOn s => (c, .done (.flag (c.isOn s)))
  | c, .isTerminal => (c, .done (.flag c.isTerminal))
  | c, .result => (c, if c.isTerminal then .goto .readResult else .done (.outcome none))
  | c, .readResult => (c, .done (.outcome c.stored))
  | c, .demand s => (c, if c.isTerminal then .goto (.readDemand s) else .goto (.refuse s))
  | c, .readDemand s =>
    match c.stored with
    | some o => (c, if o.side = s then .done (.value o.value) else .goto (.refuse s))
    | none => (c, .goto (.refuse s))
  | c, .refuse s => (c, .done (.refused s c.state))

/-- A read that is alone answers what the cell holds. -/
theorem runAlone_result (c : Cell α) :
    runAlone step 2 c .result = some (c, .outcome c.result) := by
  by_cases h : c.isTerminal <;> simp [runAlone, step, result, h]

/-- A demand that is alone answers the value, or the state that refuses it. -/
theorem runAlone_demand (c : Cell α) (s : Side) :
    runAlone step 3 c (.demand s)
      = some (c, match c.demand s with
          | .ok v => .value v
          | .error st => .refused s st) := by
  by_cases h : c.isTerminal
  · cases hs : c.stored with
    | none => simp [runAlone, step, demand, result, h, hs]
    | some o => by_cases ho : o.side = s <;> simp [runAlone, step, demand, result, h, hs, ho]
  · simp [runAlone, step, demand, result, h]

end Eventual.Cell
