import Eventual.Completion.Basic
import Eventual.Data
import Eventual.Promise.Policy
import Eventual.Text.Layout
import Eventual.Text.Quoted

/-!
# Descriptions

How data, cells, queues, completions, contexts, promises and errors describe
themselves. A completion shows its state and how many items wait in each of its
queues; it shows neither the outcome nor the items.
-/

namespace Eventual

open Text

mutual

/-- Data: null is the empty tuple, text is quoted. -/
def Data.layout : Data → Layout
  | .null => .atom "()"
  | .bool b => .atom (if b then "true" else "false")
  | .int n => .atom (toString n)
  | .text s => .atom (quoted s)
  | .list items => .list (Data.layouts items)

/-- Each piece of data. -/
def Data.layouts : List Data → List Layout
  | [] => []
  | d :: ds => d.layout :: Data.layouts ds

end

/-- Something that may be absent. -/
def optionLayout {α : Type} (f : α → Layout) : Option α → Layout
  | none => .atom "None"
  | some x => .tuple "Some" [f x]

/-- An outcome: its value, tagged by the side. -/
def Outcome.layout {α : Type} (f : α → Layout) (o : Outcome α) : Layout :=
  match o.side with
  | .success => .tuple "Ok" [f o.value]
  | .failure => .tuple "Err" [f o.value]

/-- A cell: its state and what a reader may know of the outcome. -/
def Cell.layout {α : Type} (f : α → Layout) (c : Cell α) : Layout :=
  .record "ResultSlot"
    [("state", .atom c.state.word), ("result", optionLayout (Outcome.layout f) c.result)]

/-- A queue: its length. -/
def Queue.layout {α : Type} (q : Queue α) : Layout :=
  .record "CallbackChain" [("len", .atom (toString q.length))]

/-- A completion: its state and the lengths of its queues. -/
def Completion.layout {α ι : Type} (c : Completion α ι) : Layout :=
  .record "Completion"
    [("state", .atom c.cell.state.word),
      ("success", .atom (toString c.success.length)),
      ("failure", .atom (toString c.failure.length)),
      ("always", .atom (toString c.always.length)),
      ("wakers", .atom (toString c.wakers.length))]

/-- A context: its name, its policy, and whether a handler is set. -/
def contextLayout (name : Option String) (policy : PanicPolicy) (handled : Bool) : Layout :=
  .record "Context"
    [("name", optionLayout (fun s => .atom (quoted s)) name),
      ("panic_policy", .atom policy.word),
      ("on_panic", .atom (if handled then "true" else "false"))]

/-- A deferred: its completion. -/
def deferredLayout (completion : Layout) : Layout :=
  .record "Deferred" [("completion", completion)]

/-- A promise: its completion and its context. -/
def promiseLayout (completion context : Layout) : Layout :=
  .record "Promise" [("completion", completion), ("context", context)]

/-- An error: which one it is, with its message if it has one. -/
def PromiseError.layout : PromiseError → Layout
  | .alreadyCompleted => .atom "AlreadyCompleted"
  | .panicked message => .record "Panicked" [("message", .atom (quoted message))]

/-- The side in one word. -/
def Side.word : Side → String
  | .success => "success"
  | .failure => "failure"

end Eventual
