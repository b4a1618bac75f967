import Eventual.Machine.Step
import Eventual.Script.Weight

/-!
# Whole runs

A run of a script from an empty world. Without panic handlers the weight of the
script bounds the number of steps. A handler runs as often as panics are caught,
which the text does not bound, so a run is allowed a further `handlerAllowance`.
-/

namespace Eventual.Machine

/-- Steps that a run may take beyond the weight of its script. -/
def handlerAllowance : Nat := Nat.pow 2 40

/-- The whole run of a script, with the handles to describe after each step. -/
def run (watched : List String) (script : Script) : Machine :=
  runFor (weightOf script + 2 + handlerAllowance) (initial watched script)

end Eventual.Machine
