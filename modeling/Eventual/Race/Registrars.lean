import Eventual.Interleaving.Stage
import Eventual.Text.Describe

/-!
# Registrars against committers and drainers

Registrars add callbacks of each kind while committers complete on one side and
drainers drain that side.
-/

namespace Eventual.Race.Registrars

/-- What became of the completion. -/
structure Result where
  wins : Nat
  state : Cell.State
  success : Nat
  failure : Nat
  always : Nat
  description : String

/-- The calls of one registrar: so many callbacks of each kind, named apart. -/
def registrar (i per : Nat) : List (Stage.Call Nat) :=
  (List.range per).flatMap fun n =>
    let name := i * per + n
    [.on .success, .on .failure, .always].map fun k =>
      .direct (.register k (.callback name .returns))

/-- Let everybody loose. -/
def run (registrars per committers drainers : Nat) (side : Side) : Result :=
  let registering := (List.range registrars).map fun i => registrar i per
  let committing := (List.range committers).map fun i =>
    [Site.Call.direct (.complete { side, value := i })]
  let draining := List.replicate drainers (List.replicate (per + 1) (.direct (.drain side)))
  let c : Troupe Nat :=
    (Crew.initial {} (registering ++ committing ++ draining)).takeTurns Stage.rules
  let completion := c.shared.site.completion
  { wins := c.answers.countP fun
      | (_, .returned (.direct .won)) => true
      | _ => false
    state := completion.cell.state
    success := c.shared.countStarted (.on .success)
    failure := c.shared.countStarted (.on .failure)
    always := c.shared.countStarted .always
    description := completion.layout.render false }

end Eventual.Race.Registrars
