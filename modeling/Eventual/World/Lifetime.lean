import Eventual.World.Basic

/-!
# Lifetimes

A thing lives as long as a handle or a running call refers to it. When the last
reference is released, the thing is buried: it lets go of its values and of the
items that never ran, and its place stays empty.
-/

namespace Eventual.World

/-- Whether a handle, or a reference held by a running call, keeps a thing alive. -/
def keeps (w : World) (held : List Ref) (e : Entity) : Bool :=
  w.handles.any (fun entry => entry.2.entity? = some e) || held.any (fun r => r.entity? = some e)

/-- What a thing lets go of when it dies: its values and its items, in order. -/
def estate (w : World) : Entity → List Value × List Item
  | .cell i => (((w.cell i).stored.map Outcome.value).toList, [])
  | .queue i => ((w.queue i).toList, [])
  | .completion c =>
    (((w.completion c).cell.stored.map Outcome.value).toList, (w.completion c).leftover)

/-- Empty the place of a thing. -/
def vacate (w : World) : Entity → World
  | .cell i => { w with cells := w.cells.setIfInBounds i none }
  | .queue i => { w with queues := w.queues.setIfInBounds i none }
  | .completion c => { w with completions := w.completions.setIfInBounds c none }

/-- The death of a thing. -/
def bury (w : World) (e : Entity) : World :=
  let (values, items) := w.estate e
  (w.vacate e).record (.buried e values items)

/-- Let go of a reference: what it alone kept alive dies. -/
def release (w : World) (held : List Ref) (r : Ref) : World :=
  match r.entity? with
  | none => w
  | some e => if w.keeps held e then w else w.bury e

/-- Let a handle refer to something new, and let go of what it referred to. -/
def bind (w : World) (held : List Ref) (handle : String) (r : Ref) : World :=
  let bound := { w with handles := (handle, r) :: unbound w.handles handle }
  match w.lookup handle with
  | none => bound
  | some old => bound.release held old

/-- Remove a handle and let go of what it referred to; `none` if there is no
such handle. -/
def unbind? (w : World) (held : List Ref) (handle : String) : Option World :=
  (w.lookup handle).map fun old =>
    { w with handles := unbound w.handles handle }.release held old

end Eventual.World
