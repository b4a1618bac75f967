import Eventual.Text.Describe
import Eventual.World.Basic

/-!
# Descriptions of what lives under handles
-/

namespace Eventual

open Text

/-- The layout of a context. -/
def Context.layout (ctx : Context) : Layout :=
  contextLayout ctx.name ctx.policy ctx.handler.isSome

namespace World

/-- The layout of what a reference refers to. A waker has none. -/
def layout? (w : World) : Ref → Option Layout
  | .cell i => some ((w.cell i).layout fun v => v.data.layout)
  | .queue i => some (w.queue i).layout
  | .completion c => some (w.completion c).layout
  | .context ctx => some ctx.layout
  | .deferred c _ => some (deferredLayout (w.completion c).layout)
  | .promise c ctx _ => some (promiseLayout (w.completion c).layout ctx.layout)
  | .waker _ => none

/-- The description of what a reference refers to. -/
def describe (w : World) (r : Ref) (asBlock : Bool) : String :=
  match w.layout? r with
  | some l => l.render asBlock
  | none => ""

/-- The description, on one line, of what is under a handle. -/
def describeHandle (w : World) (handle : String) : Option String :=
  ((w.lookup handle).bind w.layout?).map (Layout.render false)

end World

end Eventual
