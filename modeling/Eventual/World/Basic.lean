import Eventual.World.Event

/-!
# Worlds

All objects of a run and the handles they live under. Cells, queues and
completions can die; their place stays empty afterwards. A deferred is a
reference to a completion with a context, a promise is that with a watch of its
own, so these two need no place: what lives and dies is the completion.

The history is kept newest first and read oldest first.
-/

namespace Eventual

/-- What a handle refers to. -/
inductive Ref where
  | cell (i : Nat)
  | queue (i : Nat)
  | completion (c : CompletionId)
  | context (ctx : Context)
  | deferred (c : CompletionId) (ctx : Context)
  | promise (c : CompletionId) (ctx : Context) (w : WatchId)
  | waker (w : WakerId)
  deriving Inhabited

/-- The thing that a reference keeps alive. -/
def Ref.entity? : Ref → Option Entity
  | .cell i => some (.cell i)
  | .queue i => some (.queue i)
  | .completion c | .deferred c _ | .promise c _ _ => some (.completion c)
  | .context _ | .waker _ => none

/-- A waker: the name under which its wake-ups are noted, and its body, which
runs when it is woken for the first time. -/
structure Waker where
  name : String
  body : Script
  spent : Bool := false
  deriving Inhabited

/-- The objects of a run, their handles, and the history. -/
structure World where
  handles : List (String × Ref) := []
  cells : Array (Option (Cell Value)) := #[]
  queues : Array (Option (Queue Value)) := #[]
  completions : Array (Option (Completion Value Item)) := #[]
  watches : Array (Watch WakerId) := #[]
  wakers : Array Waker := #[]
  trail : List Event := []
  deriving Inhabited

namespace World

/-- What has happened, oldest first. -/
def history (w : World) : List Event := w.trail.reverse

/-- Note an event. -/
def record (w : World) (e : Event) : World := { w with trail := e :: w.trail }

@[simp] theorem history_record (w : World) (e : Event) :
    (w.record e).history = w.history ++ [e] := by simp [history, record]

/-- Note several events. -/
def recordAll (w : World) (es : List Event) : World := es.foldl record w

@[simp] theorem history_recordAll (w : World) (es : List Event) :
    (w.recordAll es).history = w.history ++ es := by
  unfold recordAll
  induction es generalizing w with
  | nil => simp
  | cons e es ih => simp [ih]

/-- What a handle refers to. -/
def lookup (w : World) (handle : String) : Option Ref := w.handles.lookup handle

/-- The handles without the given one. -/
def unbound (handles : List (String × Ref)) (handle : String) : List (String × Ref) :=
  handles.filter fun entry => entry.1 ≠ handle

/-- The cell of an index; a dead one reads as a fresh one. -/
def cell (w : World) (i : Nat) : Cell Value := (w.cells[i]?.join).getD {}

/-- The queue of an index; a dead one reads as a fresh one. -/
def queue (w : World) (i : Nat) : Queue Value := (w.queues[i]?.join).getD {}

/-- The completion of an index; a dead one reads as a fresh one. -/
def completion (w : World) (c : CompletionId) : Completion Value Item :=
  (w.completions[c]?.join).getD {}

/-- Replace a cell. -/
def setCell (w : World) (i : Nat) (x : Cell Value) : World :=
  { w with cells := w.cells.setIfInBounds i (some x) }

/-- Replace a queue. -/
def setQueue (w : World) (i : Nat) (x : Queue Value) : World :=
  { w with queues := w.queues.setIfInBounds i (some x) }

/-- Replace a completion. -/
def setCompletion (w : World) (c : CompletionId) (x : Completion Value Item) : World :=
  { w with completions := w.completions.setIfInBounds c (some x) }

theorem completion_set (w : World) (c c' : CompletionId)
    (x : Option (Completion Value Item)) :
    World.completion { w with completions := w.completions.setIfInBounds c x } c'
      = if c = c' ∧ c < w.completions.size then x.getD {} else w.completion c' := by
  unfold World.completion
  dsimp only
  rw [Array.getElem?_setIfInBounds]
  by_cases hc : c = c'
  · subst hc
    by_cases hsize : c < w.completions.size
    · simp [hsize]
    · simp [hsize]
  · simp [hc]

/-- A completion together with all watches. -/
def site (w : World) (c : CompletionId) : Site Value Item WakerId :=
  { completion := w.completion c, watches := w.watches }

/-- Replace a completion and all watches. -/
def setSite (w : World) (c : CompletionId) (s : Site Value Item WakerId) : World :=
  { w.setCompletion c s.completion with watches := s.watches }

/-- Bring a cell into being. -/
def addCell (w : World) (x : Cell Value) : World × Nat :=
  ({ w with cells := w.cells.push (some x) }, w.cells.size)

/-- Bring a queue into being. -/
def addQueue (w : World) (x : Queue Value) : World × Nat :=
  ({ w with queues := w.queues.push (some x) }, w.queues.size)

/-- Bring a completion into being. -/
def addCompletion (w : World) (x : Completion Value Item) : World × CompletionId :=
  ({ w with completions := w.completions.push (some x) }, w.completions.size)

theorem completion_push (w : World) (c : CompletionId) (x : Completion Value Item) :
    (w.addCompletion x).1.completion c
      = if c = w.completions.size then x else w.completion c := by
  unfold World.completion World.addCompletion
  dsimp only
  rw [Array.getElem?_push]
  split <;> rfl

/-- Bring a watch into being. -/
def addWatch (w : World) : World × WatchId :=
  ({ w with watches := w.watches.push {} }, w.watches.size)

/-- Bring a waker into being. -/
def addWaker (w : World) (x : Waker) : World × WakerId :=
  ({ w with wakers := w.wakers.push x }, w.wakers.size)

/-- Wake a waker: its body runs now if this is the first time. -/
def wake (w : World) (i : WakerId) : World × Script :=
  match w.wakers[i]? with
  | none => (w, [])
  | some x =>
    let woken := { w with wakers := w.wakers.setIfInBounds i { x with spent := true } }
    (woken.record (.woken i x.name), if x.spent then [] else x.body)

end World

end Eventual
