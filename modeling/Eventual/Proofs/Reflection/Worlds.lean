import Mathlib.Data.List.Forall2
import Eventual.Machine.Begin
import Eventual.Proofs.Reflection.Calls

/-!
# Reflected worlds

Two worlds reflect each other when everything in them does. Their histories agree event by event
but for three things: the texts of descriptions differ, for they list success first; so do
those that are noted of the watched handles, though not which of them have one; and a
completion that dies lets go of its success callbacks before its failure callbacks in either
world. Whatever is done to a world, the reflected thing can be done to the other.
-/

namespace Eventual

variable {ρ : Relabelling}

/-- The reply is the reflected one, or both are descriptions. -/
inductive Reply.Reflects : Reply → Reply → Prop
  | flip (r : Reply) : Reflects r r.flip
  | text (s s' : String) : Reflects (.text s) (.text s')

/-- The verdict is the reflected one, up to descriptions. -/
inductive Verdict.Reflects : Verdict → Verdict → Prop
  | returned {r r' : Reply} : r.Reflects r' → Reflects (.returned r) (.returned r')
  | faulty (f : Fault) : Reflects (.faulty f) (.faulty f)
  | panicked (p : Panic) : Reflects (.panicked p) (.panicked p.flip)

/-- The event is the reflected one, up to descriptions and the order in which a dying completion
lets go of the callbacks of the two sides. -/
inductive Event.Reflects (ρ : Relabelling) : Event → Event → Prop
  | flip (ev : Event) : Reflects ρ ev (ev.flip ρ)
  | replied {label : String} {r r' : Reply} : r.Reflects r' →
      Reflects ρ (.replied label r) (.replied (ρ.label label) r')
  | buried {e : Entity} {values : List Value} {onSuccess onFailure others : List Item} :
      Reflects ρ (.buried e values (onSuccess ++ onFailure ++ others))
        (.buried e values ((onFailure ++ onSuccess ++ others).map (Item.flip ρ)))
  | concluded {v v' : Verdict} {shown shown' : List (Option String)} : v.Reflects v' →
      shown'.map Option.isSome = shown.map Option.isSome →
      Reflects ρ (.concluded v shown) (.concluded v' shown')

namespace World

/-- The worlds reflect each other. -/
structure Reflects (ρ : Relabelling) (w w' : World) : Prop where
  handles : w'.handles = w.handles.map fun entry => (entry.1, entry.2.flip ρ)
  cells : w'.cells = w.cells.map (Option.map Cell.flip)
  queues : w'.queues = w.queues
  births : w'.completions.size = w.completions.size
  completion : ∀ c, (w.completion c).Reflects (Item.flip ρ) (w'.completion c)
  watches : w'.watches = w.watches
  wakers : w'.wakers = w.wakers.map (Waker.flip ρ)
  trail : List.Forall₂ (Event.Reflects ρ) w.trail w'.trail

variable {w w' : World}

theorem Reflects.empty : Reflects ρ {} {} where
  handles := rfl
  cells := Array.map_empty.symm
  queues := rfl
  births := rfl
  completion _ := .empty
  watches := rfl
  wakers := Array.map_empty.symm
  trail := .nil

namespace Reflects

theorem history (h : Reflects ρ w w') :
    List.Forall₂ (Event.Reflects ρ) w.history w'.history :=
  List.forall₂_reverse_iff.2 h.trail

theorem record (h : Reflects ρ w w') {ev ev' : Event} (same : ev.Reflects ρ ev') :
    Reflects ρ (w.record ev) (w'.record ev') :=
  { h with trail := .cons same h.trail }

/-- An event whose reflection is noted. -/
theorem note (h : Reflects ρ w w') (ev : Event) :
    Reflects ρ (w.record ev) (w'.record (ev.flip ρ)) :=
  h.record (.flip ev)

/-! ## Reading -/

theorem lookup (h : Reflects ρ w w') (handle : String) :
    w'.lookup handle = (w.lookup handle).map (Ref.flip ρ) := by
  unfold World.lookup
  rw [h.handles]
  induction w.handles with
  | nil => rfl
  | cons entry handles ih =>
    rw [List.map_cons, List.lookup_cons, List.lookup_cons, ih]
    split <;> rfl

theorem cell (h : Reflects ρ w w') (i : Nat) : w'.cell i = (w.cell i).flip := by
  unfold World.cell
  rw [h.cells, Array.getElem?_map]
  rcases w.cells[i]? with _ | _ | x <;> rfl

theorem queue (h : Reflects ρ w w') (i : Nat) : w'.queue i = w.queue i :=
  congrArg (fun queues : Array (Option (Queue Value)) => (queues[i]?.join).getD {}) h.queues

theorem site (h : Reflects ρ w w') (c : CompletionId) :
    (w.site c).Reflects (Item.flip ρ) (w'.site c) :=
  ⟨h.completion c, h.watches⟩

theorem keeps (h : Reflects ρ w w') (held : List Ref) (e : Entity) :
    w'.keeps (held.map (Ref.flip ρ)) e = w.keeps held e := by
  unfold World.keeps
  rw [h.handles, List.any_map, List.any_map]
  simp only [Function.comp_def, Ref.entity?_flip]

/-! ## Changing objects -/

theorem setCell (h : Reflects ρ w w') (i : Nat) (x : Cell Value) :
    Reflects ρ (w.setCell i x) (w'.setCell i x.flip) := by
  refine { h with cells := ?_ }
  simp only [World.setCell, h.cells, Array.map_setIfInBounds]
  rfl

theorem setQueue (h : Reflects ρ w w') (i : Nat) (x : Queue Value) :
    Reflects ρ (w.setQueue i x) (w'.setQueue i x) :=
  { h with queues := congrArg (·.setIfInBounds i (some x)) h.queues }

/-- Two places are filled, or emptied, alike. -/
theorem setPlace (h : Reflects ρ w w') (c : CompletionId)
    {x x' : Option (Completion Value Item)}
    (same : (x.getD {}).Reflects (Item.flip ρ) (x'.getD {})) :
    Reflects ρ { w with completions := w.completions.setIfInBounds c x }
      { w' with completions := w'.completions.setIfInBounds c x' } := by
  refine { h with births := ?_, completion := fun c' => ?_ }
  · simp only [Array.size_setIfInBounds, h.births]
  · rw [completion_set, completion_set, h.births]
    split
    next => exact same
    next => exact h.completion c'

theorem setCompletion (h : Reflects ρ w w') (c : CompletionId) {x x' : Completion Value Item}
    (same : x.Reflects (Item.flip ρ) x') :
    Reflects ρ (w.setCompletion c x) (w'.setCompletion c x') :=
  @setPlace ρ w w' h c (some x) (some x') same

theorem setSite (h : Reflects ρ w w') (c : CompletionId) {s s' : Site Value Item WakerId}
    (same : s.Reflects (Item.flip ρ) s') : Reflects ρ (w.setSite c s) (w'.setSite c s') :=
  { h.setCompletion c same.completion with watches := same.watches }

/-! ## Bringing objects into being -/

theorem addCell (h : Reflects ρ w w') (x : Cell Value) :
    Reflects ρ (w.addCell x).1 (w'.addCell x.flip).1 ∧
      (w'.addCell x.flip).2 = (w.addCell x).2 := by
  constructor
  · refine { h with cells := ?_ }
    simp only [World.addCell, h.cells, Array.map_push]
    rfl
  · simp only [World.addCell, h.cells, Array.size_map]

theorem addQueue (h : Reflects ρ w w') (x : Queue Value) :
    Reflects ρ (w.addQueue x).1 (w'.addQueue x).1 ∧ (w'.addQueue x).2 = (w.addQueue x).2 :=
  ⟨{ h with queues := congrArg (·.push (some x)) h.queues }, congrArg Array.size h.queues⟩

theorem addCompletion (h : Reflects ρ w w') {x x' : Completion Value Item}
    (same : x.Reflects (Item.flip ρ) x') :
    Reflects ρ (w.addCompletion x).1 (w'.addCompletion x').1 ∧
      (w'.addCompletion x').2 = (w.addCompletion x).2 := by
  refine ⟨{ h with births := ?_, completion := fun c => ?_ }, h.births⟩
  · simp only [World.addCompletion, Array.size_push, h.births]
  · rw [completion_push, completion_push, h.births]
    split
    next => exact same
    next => exact h.completion c

theorem addWatch (h : Reflects ρ w w') :
    Reflects ρ w.addWatch.1 w'.addWatch.1 ∧ w'.addWatch.2 = w.addWatch.2 :=
  ⟨{ h with watches := congrArg (·.push {}) h.watches }, congrArg Array.size h.watches⟩

theorem addWaker (h : Reflects ρ w w') (x : Waker) :
    Reflects ρ (w.addWaker x).1 (w'.addWaker (x.flip ρ)).1 ∧
      (w'.addWaker (x.flip ρ)).2 = (w.addWaker x).2 := by
  constructor
  · refine { h with wakers := ?_ }
    simp only [World.addWaker, h.wakers, Array.map_push]
  · simp only [World.addWaker, h.wakers, Array.size_map]

/-! ## Lifetimes -/

theorem vacate (h : Reflects ρ w w') (e : Entity) : Reflects ρ (w.vacate e) (w'.vacate e) := by
  cases e with
  | cell i =>
    refine { h with cells := ?_ }
    simp only [World.vacate, h.cells, Array.map_setIfInBounds]
    rfl
  | queue i => exact { h with queues := congrArg (·.setIfInBounds i none) h.queues }
  | completion c => exact @setPlace ρ w w' h c none none .empty

/-- A flipped cell stores the same value. -/
theorem values_flip (c : Cell Value) :
    (c.flip.stored.map Outcome.value).toList = (c.stored.map Outcome.value).toList := by
  unfold Cell.flip
  rw [Option.map_map]
  rfl

theorem bury (h : Reflects ρ w w') (e : Entity) : Reflects ρ (w.bury e) (w'.bury e) := by
  refine (h.vacate e).record ?_
  cases e with
  | cell i =>
    simp only [h.cell, values_flip]
    exact .flip _
  | queue i =>
    simp only [h.queue]
    exact .flip _
  | completion c =>
    have onSuccess : (w'.completion c).waiting (.on .failure) = _ :=
      (h.completion c).waiting (.on .success)
    have onFailure : (w'.completion c).waiting (.on .success) = _ :=
      (h.completion c).waiting (.on .failure)
    have always : (w'.completion c).waiting .always = _ := (h.completion c).waiting .always
    have wakers : (w'.completion c).waiting .waker = _ := (h.completion c).waiting .waker
    simp only [(h.completion c).cell, values_flip, Completion.leftover, onSuccess, onFailure,
      always, wakers, ← List.map_append]
    rw [List.append_assoc, List.append_assoc _ _ ((w.completion c).waiting .waker)]
    exact .buried

theorem release (h : Reflects ρ w w') (held : List Ref) (r : Ref) :
    Reflects ρ (w.release held r) (w'.release (held.map (Ref.flip ρ)) (r.flip ρ)) := by
  unfold World.release
  rw [Ref.entity?_flip]
  split
  next => exact h
  next e _ =>
    rw [h.keeps]
    split
    next => exact h
    next => exact h.bury e

theorem unbound_map (handles : List (String × Ref)) (handle : String) :
    unbound (handles.map fun entry => (entry.1, entry.2.flip ρ)) handle
      = (unbound handles handle).map fun entry => (entry.1, entry.2.flip ρ) := by
  unfold unbound
  rw [List.filter_map]
  rfl

theorem bind (h : Reflects ρ w w') (held : List Ref) (handle : String) (r : Ref) :
    Reflects ρ (w.bind held handle r)
      (w'.bind (held.map (Ref.flip ρ)) handle (r.flip ρ)) := by
  have bound : Reflects ρ { w with handles := (handle, r) :: unbound w.handles handle }
      { w' with handles := (handle, r.flip ρ) :: unbound w'.handles handle } := by
    refine { h with handles := ?_ }
    rw [h.handles, unbound_map]
    rfl
  unfold World.bind
  rw [h.lookup]
  cases w.lookup handle with
  | none => exact bound
  | some old => exact bound.release held old

theorem unbind? (h : Reflects ρ w w') (held : List Ref) (handle : String) :
    Option.Rel (Reflects ρ) (w.unbind? held handle)
      (w'.unbind? (held.map (Ref.flip ρ)) handle) := by
  have removed : Reflects ρ { w with handles := unbound w.handles handle }
      { w' with handles := unbound w'.handles handle } := by
    refine { h with handles := ?_ }
    rw [h.handles, unbound_map]
  unfold World.unbind?
  rw [h.lookup]
  cases w.lookup handle with
  | none => exact .none
  | some old => exact .some (removed.release held old)

theorem bindPromise (h : Reflects ρ w w') (held : List Ref) (handle : String) (c : CompletionId)
    (ctx : Context) :
    Reflects ρ (w.bindPromise held handle c ctx)
      (w'.bindPromise (held.map (Ref.flip ρ)) handle c (ctx.flip ρ)) := by
  obtain ⟨added, watch⟩ := h.addWatch
  unfold World.bindPromise
  dsimp only
  rw [watch]
  exact added.bind held handle (.promise c ctx _)

/-! ## Queues and wakers -/

theorem append (h : Reflects ρ w w') (q : Nat) (v : Value) :
    Reflects ρ (w.append q v) (w'.append q v) := by
  unfold World.append
  rw [h.queue]
  exact (h.setQueue q _).note (.appended q v)

theorem take? (h : Reflects ρ w w') (q : Nat) :
    ∃ w₁', w'.take? q = (w₁', (w.take? q).2) ∧ Reflects ρ (w.take? q).1 w₁' := by
  refine ⟨w'.setQueue q ((w.queue q).take?).1, ?_, h.setQueue q _⟩
  unfold World.take?
  rw [h.queue]

theorem takeAll (h : Reflects ρ w w') (q fuel : Nat) :
    ∃ w₁', w'.takeAll q fuel = (w₁', (w.takeAll q fuel).2) ∧
      Reflects ρ (w.takeAll q fuel).1 w₁' := by
  induction fuel generalizing w w' with
  | zero => exact ⟨w', rfl, h⟩
  | succ fuel ih =>
    obtain ⟨w₁', taken', same⟩ := h.take? q
    unfold World.takeAll
    rw [taken']
    generalize w.take? q = taken at same
    rcases taken with ⟨w₁, _ | v⟩
    · exact ⟨w₁', rfl, same⟩
    · obtain ⟨w₂', others, same'⟩ := ih (same.note (.consumed q v))
      refine ⟨w₂', ?_, same'⟩
      dsimp only
      exact congrArg (fun taken : World × List Data => (taken.1, v.data :: taken.2)) others

theorem wake (h : Reflects ρ w w') (i : WakerId) :
    Reflects ρ (w.wake i).1 (w'.wake i).1 ∧ (w'.wake i).2 = flipSteps ρ (w.wake i).2 := by
  unfold World.wake
  rw [h.wakers, Array.getElem?_map]
  cases hx : w.wakers[i]? with
  | none => exact ⟨h, rfl⟩
  | some x =>
    have spent : Reflects ρ { w with wakers := w.wakers.setIfInBounds i { x with spent := true } }
        { w' with wakers := w'.wakers.setIfInBounds i { x.flip ρ with spent := true } } := by
      refine { h with wakers := ?_ }
      rw [h.wakers, Array.map_setIfInBounds]
      rfl
    refine ⟨?_, ?_⟩
    · have noted := spent.note (.woken i x.name)
      rw [h.wakers] at noted
      exact noted
    · simp only [Option.map_some, Waker.flip]
      split <;> rfl

end Reflects

end World

end Eventual
