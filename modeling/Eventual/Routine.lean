/-!
# Routines

A routine is code cut at its accesses to shared state. It has a program point
for each place where it stands, and one step makes one access: it maps the
shared state and the point to the new shared state and either the next point or
the answer. Between two steps of one thread any other thread may take steps of
its own; a thread that is alone takes all of them in a row, which is what
`runAlone` does.
-/

namespace Eventual

/-- What follows one step of a routine: another point, or the answer. -/
inductive Next (π ρ : Type) where
  | goto (point : π)
  | done (answer : ρ)
  deriving Inhabited

/-- One access of a routine with points `π` and answers `ρ` to shared state `σ`. -/
abbrev Access (σ π ρ : Type) := σ → π → σ × Next π ρ

namespace Next

variable {π π' ρ ρ' : Type}

/-- The same continuation over other points and answers. -/
def map (f : π → π') (g : ρ → ρ') : Next π ρ → Next π' ρ'
  | .goto point => .goto (f point)
  | .done answer => .done (g answer)

@[simp] theorem map_goto (f : π → π') (g : ρ → ρ') (p : π) :
    (Next.goto p : Next π ρ).map f g = .goto (f p) := rfl

@[simp] theorem map_done (f : π → π') (g : ρ → ρ') (a : ρ) :
    (Next.done a : Next π ρ).map f g = .done (g a) := rfl

end Next

variable {σ π ρ : Type}

/-- Run a routine without interference for at most `fuel` steps; `none` if it
needs more. -/
def runAlone (step : Access σ π ρ) : (fuel : Nat) → σ → π → Option (σ × ρ)
  | 0, _, _ => none
  | fuel + 1, s, point =>
    match step s point with
    | (s', .goto point') => runAlone step fuel s' point'
    | (s', .done answer) => some (s', answer)

end Eventual
