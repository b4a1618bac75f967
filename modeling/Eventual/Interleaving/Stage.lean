import Eventual.Interleaving.System
import Eventual.Promise.Polling

/-!
# Threads on one completion

Threads that commit, complete, register, drain and poll on one completion. The
items they queue do not touch the completion themselves; what matters of them is
how their calls end. Taking an item from its queue and beginning its call are two
steps, and so are beginning and ending the call, so any thread may come in
between.

`Stage.moments` is what has happened so far, as a list; no step looks at it.
-/

namespace Eventual

/-- How the call of a callback ends: it returns, it panics, or it panics under a
context that contains the panic. -/
inductive Conduct where
  | returns
  | panics
  | contained
  deriving DecidableEq, Inhabited

/-- An item: a callback or a waker with a name of its own, or the relay of a watch. -/
inductive Player where
  | callback (name : Nat) (conduct : Conduct)
  | waker (name : Nat) (conduct : Conduct)
  | relay (w : WatchId)
  deriving DecidableEq, Inhabited

/-- How the call of an item ends. Relays wake and return. -/
def Player.conduct : Player → Conduct
  | .callback _ conduct | .waker _ conduct => conduct
  | .relay _ => .returns

/-- One thing that happened on a completion that threads share. -/
inductive Moment (α : Type) where
  | registered (k : Kind) (x : Player)
  | settled (o : Outcome α)
  | taken (k : Kind) (x : Player)
  | started (k : Kind) (x : Player) (arg : Option α)
  | returned (k : Kind) (x : Player)
  | panicked (k : Kind) (x : Player)
  | reported (k : Kind) (x : Player)
  | woken (w : WatchId) (waker : Nat)
  | logged (r : LogRecord)
  deriving Inhabited

/-- A completion with its watches, and what has happened on it, newest first. -/
structure Stage (α : Type) where
  site : Site α Player Nat := {}
  trail : List (Moment α) := []
  deriving Inhabited

namespace Stage

variable {α : Type}

/-- What has happened, oldest first. -/
def moments (s : Stage α) : List (Moment α) := s.trail.reverse

/-- Note that something happened. -/
def record (s : Stage α) (m : Moment α) : Stage α := { s with trail := m :: s.trail }

@[simp] theorem moments_record (s : Stage α) (m : Moment α) :
    (s.record m).moments = s.moments ++ [m] := by simp [moments, record]

@[simp] theorem site_record (s : Stage α) (m : Moment α) : (s.record m).site = s.site := rfl

/-- What is asked of the completion. -/
abbrev Call (α : Type) := Site.Call α Player Nat

/-- Where a thread stands: in a routine, with an item it has taken and not yet
called, or inside the call of an item. -/
inductive Point (α : Type) where
  | routine (here : Site.Point α Player Nat)
  | holding (k : Kind) (x : Player) (arg : Option α) (back : Site.Point α Player Nat)
  | inside (k : Kind) (x : Player) (back : Site.Point α Player Nat)
  deriving Inhabited

/-- How a call ended: with an answer, with the panic of an item, or with the
failure of a demand. -/
inductive Answer (α : Type) where
  | returned (a : Site.Answer α)
  | panicked (x : Player)
  | refused (s : Side) (st : Cell.State)
  deriving Inhabited

/-- What a routine gives notice of. -/
def notice : Notice α Player → Moment α
  | .registered k x => .registered k x
  | .settled o => .settled o
  | .logged r => .logged r

/-- A relay takes the waker out of its watch and wakes it. -/
def relay (s : Stage α) (w : WatchId) : Stage α :=
  match s.site.takeWaker w with
  | (site, none) => { s with site }
  | (site, some waker) => { s with site }.record (.woken w waker)

/-- One step of a thread. -/
def step : Access (Stage α) (Point α) (Answer α)
  | s, .routine here =>
    let (site, action) := s.site.step here
    let s := { s with site }
    match action with
    | .goto p => (s, .goto (.routine p))
    | .notice n p => (s.record (notice n), .goto (.routine p))
    | .call k x arg p => (s.record (.taken k x), .goto (.holding k x arg p))
    | .done a => (s, .done (.returned a))
    | .refused side st => (s, .done (.refused side st))
  | s, .holding k x arg back => (s.record (.started k x arg), .goto (.inside k x back))
  | s, .inside k x back =>
    let s :=
      match x with
      | .relay w => s.relay w
      | .callback _ _ | .waker _ _ => s
    match x.conduct with
    | .returns => (s.record (.returned k x), .goto (.routine back))
    | .contained => (s.record (.reported k x), .goto (.routine back))
    | .panics => (s.record (.panicked k x), .done (.panicked x))

/-- Calls on a completion, step by step. -/
def rules : Rules (Stage α) (Call α) (Point α) (Answer α) where
  start call := .routine call.start
  step := step

/-- How often a kind of item was called. -/
def countStarted (s : Stage α) (k : Kind) : Nat :=
  s.trail.countP fun
    | .started k' _ _ => k' = k
    | _ => false

end Stage

/-- Threads on one completion. -/
abbrev Troupe (α : Type) := Crew (Stage α) (Stage.Call α) (Stage.Point α) (Stage.Answer α)

end Eventual
