import Eventual.Routine

/-!
# Interleavings

Threads that make calls on one shared state, step by step, in any order. Each
thread has a list of calls to make, one after the other. The scheduler is free:
in every configuration it may pick any thread that has something left to do. A
thread that is picked begins its next call, which touches nothing shared, or
makes one access of the call it is in.

`Reachable` holds of the configurations that some schedule leads to. `rounds`
is one schedule, in which the threads take turns; `takeTurns` follows it to the end.
-/

namespace Eventual

/-- The rules of a kind of call: the point at which a call begins, and its accesses. -/
structure Rules (σ κ π ρ : Type) where
  start : κ → π
  step : Access σ π ρ

/-- A thread: the calls still to make, the call it is in and where it stands
there, and the calls that are over with their answers, oldest first. -/
structure Thread (κ π ρ : Type) where
  todo : List κ
  current : Option (κ × π) := none
  answers : List (κ × ρ) := []
  deriving Inhabited

/-- Whether a thread has nothing left to do. -/
def Thread.isDone {κ π ρ : Type} (t : Thread κ π ρ) : Bool :=
  t.current.isNone && t.todo.isEmpty

/-- Threads and what they share. -/
structure Crew (σ κ π ρ : Type) where
  shared : σ
  threads : List (Thread κ π ρ)
  deriving Inhabited

namespace Crew

variable {σ κ π ρ : Type}

/-- Threads that have begun nothing yet. -/
def initial (s : σ) (calls : List (List κ)) : Crew σ κ π ρ :=
  { shared := s, threads := calls.map fun todo => { todo } }

/-- The step of one thread; `none` if there is no such thread or it is done. -/
def step? (rules : Rules σ κ π ρ) (c : Crew σ κ π ρ) (i : Nat) : Option (Crew σ κ π ρ) :=
  match c.threads[i]? with
  | none => none
  | some t =>
    match t.current, t.todo with
    | none, [] => none
    | none, call :: rest =>
      some { c with threads :=
        c.threads.set i { t with todo := rest, current := some (call, rules.start call) } }
    | some (call, p), _ =>
      match rules.step c.shared p with
      | (s, .goto p') =>
        some { shared := s, threads := c.threads.set i { t with current := some (call, p') } }
      | (s, .done a) =>
        some {
          shared := s
          threads :=
            c.threads.set i { t with current := none, answers := t.answers ++ [(call, a)] } }

/-- The configurations that some schedule leads to. -/
inductive Reachable (rules : Rules σ κ π ρ) (start : Crew σ κ π ρ) : Crew σ κ π ρ → Prop
  | refl : Reachable rules start start
  | step {c c' : Crew σ κ π ρ} (i : Nat) :
      Reachable rules start c → c.step? rules i = some c' → Reachable rules start c'

/-- What holds at the start and is kept by every step holds wherever a schedule leads. -/
theorem Reachable.invariant {rules : Rules σ κ π ρ} {start c : Crew σ κ π ρ}
    {I : Crew σ κ π ρ → Prop} (h : Reachable rules start c) (base : I start)
    (kept : ∀ c c' i, I c → c.step? rules i = some c' → I c') : I c := by
  induction h with
  | refl => exact base
  | step i _ hstep ih => exact kept _ _ i ih hstep

/-- Whether all threads are done. -/
def isDone (c : Crew σ κ π ρ) : Bool := c.threads.all Thread.isDone

/-- One step of every thread in turn. -/
def round (rules : Rules σ κ π ρ) (c : Crew σ κ π ρ) : Crew σ κ π ρ :=
  (List.range c.threads.length).foldl (fun c i => (c.step? rules i).getD c) c

/-- At most `fuel` rounds, until all threads are done. -/
def rounds (rules : Rules σ κ π ρ) : (fuel : Nat) → Crew σ κ π ρ → Crew σ κ π ρ
  | 0, c => c
  | fuel + 1, c => if c.isDone then c else (c.round rules).rounds rules fuel

/-- More rounds than any crew that fits into memory can use up. -/
def patience : Nat := Nat.pow 2 40

/-- Let the threads take turns until all are done. -/
def takeTurns (rules : Rules σ κ π ρ) (c : Crew σ κ π ρ) : Crew σ κ π ρ :=
  c.rounds rules patience

/-- All answers, thread by thread. -/
def answers (c : Crew σ κ π ρ) : List (κ × ρ) := c.threads.flatMap Thread.answers

end Crew

end Eventual
