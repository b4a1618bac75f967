import Eventual.Machine.Begin
import Eventual.Proofs.Completion.Steps
import Eventual.Proofs.Policy.Strip

/-!
# Worlds without policies

A world is stripped of another when it is what remains of it without panic policies. How the
queues of its completions hold what waits does not matter, as long as they are at rest. Histories
are compared veiled. Whatever is done to a world can be done, stripped, to the stripped one.
-/

namespace Eventual

/-! ## Completions -/

namespace Completion

variable {α ι : Type} {f : ι → ι} {x x' : Completion α ι}

/-- The second completion has the same cell, and images of the items of the first wait in it. -/
structure Image (f : ι → ι) (x x' : Completion α ι) : Prop where
  cell : x'.cell = x.cell
  waiting : ∀ k, x'.waiting k = (x.waiting k).map f

theorem Image.empty : Image f ({} : Completion α ι) {} := by
  refine ⟨rfl, ?_⟩
  rintro ((_ | _) | _ | _) <;> rfl

theorem Image.withCell (h : Image f x x') (cell : Cell α) :
    Image f { x with cell } { x' with cell } :=
  ⟨rfl, h.waiting⟩

theorem Image.setQueue (h : Image f x x') (k : Kind) {q q' : Queue ι}
    (same : q'.toList = q.toList.map f) : Image f (x.setQueue k q) (x'.setQueue k q') := by
  refine ⟨by rw [cell_setQueue, cell_setQueue, h.cell], fun k' => ?_⟩
  rw [waiting_setQueue, waiting_setQueue, h.waiting k', same]
  split <;> rfl

/-- A take from the second completion takes the image of what it takes from the first. -/
theorem Image.take? (h : Image f x x') (rest : x.AtRest) (rest' : x'.AtRest) (k : Kind) :
    ∃ q', (x'.queue k).take? = (q', (x.queue k).take?.2.map f) ∧
      q'.toList = (x.queue k).take?.1.toList.map f := by
  have same : (x'.queue k).toList = (x.queue k).toList.map f := h.waiting k
  have first : (x'.queue k).take?.2 = (x.queue k).take?.2.map f := by
    rw [Queue.take?_snd (rest k), Queue.take?_snd (rest' k), same, List.head?_map]
  have others : (x'.queue k).take?.1.toList = (x.queue k).take?.1.toList.map f := by
    rw [Queue.toList_take? (rest k), Queue.toList_take? (rest' k), same, List.map_tail]
  exact ⟨_, Prod.ext rfl first, others⟩

/-- What the second of two steps leads to is the image of what the first leads to. -/
inductive Tracks (f : ι → ι) : Completion α ι × Action α ι (Point α ι) (Answer α) →
    Completion α ι × Action α ι (Point α ι) (Answer α) → Prop
  | intro {x x' : Completion α ι} {a : Action α ι (Point α ι) (Answer α)} : Image f x x' →
      Tracks f (x, a) (x', a.onItems f (Point.onItems f))

/-- A step of a call on a completion, and that of the call with its item changed. -/
theorem Image.step (h : Image f x x') (rest : x.AtRest) (rest' : x'.AtRest)
    (p : Point α ι) : Tracks f (x.step p) (x'.step (p.onItems f)) := by
  cases p with
  | commit o drains here =>
    simp only [Completion.step, Point.onItems, h.cell]
    rcases Cell.commitStep o x.cell here with ⟨cell, here' | (_ | _)⟩
    · exact .intro (h.withCell cell)
    · exact .intro (h.withCell cell)
    · cases drains <;> exact .intro (h.withCell cell)
  | append k y =>
    refine .intro (h.setQueue k ?_)
    rw [Queue.toList_append (rest k), Queue.toList_append (rest' k), List.map_append]
    exact congrArg (· ++ [f y]) (h.waiting k)
  | consult k =>
    simp only [Completion.step, Point.onItems, h.cell]
    split
    next => split <;> exact .intro h
    all_goals exact .intro h
  | check s answer =>
    simp only [Completion.step, Point.onItems, h.cell]
    split <;> exact .intro h
  | fetch s answer =>
    simp only [Completion.step, Point.onItems, h.cell]
    cases x.cell.demand s with
    | ok v => exact .intro h
    | error st => exact .intro h
  | sweep s answer v stage called =>
    obtain ⟨q', taken', others⟩ := h.take? rest rest' (stage.kind s)
    simp only [Completion.step, Point.onItems, taken']
    generalize (x.queue (stage.kind s)).take? = taken at others
    rcases taken with ⟨q, _ | y⟩
    · cases stage <;> exact .intro (h.setQueue _ others)
    · exact .intro (h.setQueue _ others)
  | announce s => exact .intro h
  | report s answer called => exact .intro h
  | finish answer => exact .intro h

end Completion

namespace Site

variable {α ι τ : Type} {f : ι → ι} {s s' : Site α ι τ}

/-- The second completion is the image of the first, and the watches are the same. -/
structure Image (f : ι → ι) (s s' : Site α ι τ) : Prop where
  completion : s.completion.Image f s'.completion
  watches : s'.watches = s.watches

/-- What the second of two steps leads to is the image of what the first leads to. -/
inductive Tracks (f : ι → ι) : Site α ι τ × Action α ι (Point α ι τ) (Answer α) →
    Site α ι τ × Action α ι (Point α ι τ) (Answer α) → Prop
  | intro {s s' : Site α ι τ} {a : Action α ι (Point α ι τ) (Answer α)} : Image f s s' →
      Tracks f (s, a) (s', a.onItems f (Point.onItems f))

theorem Image.watch (h : Image f s s') (w : WatchId) : s'.watch w = s.watch w :=
  congrArg (fun watches : Array (Watch τ) => watches[w]?.getD {}) h.watches

theorem Image.updateWatch (h : Image f s s') (w : WatchId) (change : Watch τ → Watch τ) :
    Image f (s.updateWatch w change) (s'.updateWatch w change) :=
  ⟨h.completion, congrArg (·.modify w change) h.watches⟩

theorem Image.withCompletion (h : Image f s s') {x x' : Completion α ι} (same : x.Image f x') :
    Image f { s with completion := x } { s' with completion := x' } :=
  ⟨same, h.watches⟩

/-- A step of a call on a completion or a promise, and that of the call with its items changed. -/
theorem Image.step (h : Image f s s') (rest : s.completion.AtRest)
    (rest' : s'.completion.AtRest) (p : Point α ι τ) :
    Tracks f (s.step p) (s'.step (p.onItems f)) := by
  cases p with
  | direct here =>
    have tracks := h.completion.step rest rest' here
    simp only [Site.step, Point.onItems]
    generalize s.completion.step here = next at tracks
    generalize s'.completion.step (here.onItems f) = next' at tracks
    cases tracks with
    | @intro _ _ a same => cases a <;> exact .intro (h.withCompletion same)
  | look p =>
    simp only [Site.step, Point.onItems, h.completion.cell]
    cases s.completion.cell.result with
    | none => exact .intro h
    | some o => exact .intro h
  | store p => exact .intro (h.updateWatch p.watch _)
  | subscribe p =>
    have watch : s'.watch (p.onItems f).watch = s.watch p.watch := h.watch p.watch
    simp only [Site.step, Point.onItems, watch]
    split
    · exact .intro h
    · exact .intro (h.updateWatch p.watch _)
  | registering p here =>
    have tracks := h.completion.step rest rest' here
    simp only [Site.step, Point.onItems]
    generalize s.completion.step here = next at tracks
    generalize s'.completion.step (here.onItems f) = next' at tracks
    cases tracks with
    | @intro _ _ a same => cases a <;> exact .intro (h.withCompletion same)
  | lookAgain p =>
    simp only [Site.step, Point.onItems, h.completion.cell]
    cases s.completion.cell.result with
    | none => exact .intro h
    | some o => exact .intro h

/-- Taking the waker out of a watch. -/
theorem Image.takeWaker (h : Image f s s') (w : WatchId) :
    ∃ s₁', s'.takeWaker w = (s₁', (s.takeWaker w).2) ∧ Image f (s.takeWaker w).1 s₁' :=
  ⟨_, Prod.ext rfl (congrArg Watch.stored (h.watch w)), h.updateWatch w _⟩

end Site

/-! ## Worlds -/

namespace World

variable {w w' : World}

/-- The second world is what remains of the first without policies. -/
structure Stripped (w w' : World) : Prop where
  handles : w'.handles = w.handles.map fun entry => (entry.1, entry.2.strip)
  cells : w'.cells = w.cells
  queues : w'.queues = w.queues
  births : w'.completions.size = w.completions.size
  completion : ∀ c, (w.completion c).Image Item.strip (w'.completion c)
  watches : w'.watches = w.watches
  wakers : w'.wakers = w.wakers.map Waker.strip
  trail : w'.trail.map Event.veil = w.trail.map fun ev => ev.strip.veil

namespace Stripped

theorem empty : Stripped {} {} where
  handles := rfl
  cells := rfl
  queues := rfl
  births := rfl
  completion _ := .empty
  watches := rfl
  wakers := Array.map_empty.symm
  trail := rfl

theorem record (h : Stripped w w') {ev ev' : Event} (same : ev'.veil = ev.strip.veil) :
    Stripped (w.record ev) (w'.record ev') :=
  { h with trail := by simp only [World.record, List.map_cons, same, h.trail] }

/-- An event that is noted, stripped. -/
theorem note (h : Stripped w w') (ev : Event) : Stripped (w.record ev) (w'.record ev.strip) :=
  h.record rfl

/-! ### Reading -/

theorem lookup (h : Stripped w w') (handle : String) :
    w'.lookup handle = (w.lookup handle).map Ref.strip := by
  unfold World.lookup
  rw [h.handles]
  induction w.handles with
  | nil => rfl
  | cons entry handles ih =>
    rw [List.map_cons, List.lookup_cons, List.lookup_cons, ih]
    split <;> rfl

theorem cell (h : Stripped w w') (i : Nat) : w'.cell i = w.cell i :=
  congrArg (fun cells : Array (Option (Cell Value)) => (cells[i]?.join).getD {}) h.cells

theorem queue (h : Stripped w w') (i : Nat) : w'.queue i = w.queue i :=
  congrArg (fun queues : Array (Option (Queue Value)) => (queues[i]?.join).getD {}) h.queues

theorem site (h : Stripped w w') (c : CompletionId) :
    (w.site c).Image Item.strip (w'.site c) :=
  ⟨h.completion c, h.watches⟩

theorem keeps (h : Stripped w w') (held : List Ref) (e : Entity) :
    w'.keeps (held.map Ref.strip) e = w.keeps held e := by
  unfold World.keeps
  rw [h.handles, List.any_map, List.any_map]
  simp only [Function.comp_def, Ref.entity?_strip]

/-! ### Changing objects -/

theorem setCell (h : Stripped w w') (i : Nat) (x : Cell Value) :
    Stripped (w.setCell i x) (w'.setCell i x) :=
  { h with cells := congrArg (·.setIfInBounds i (some x)) h.cells }

theorem setQueue (h : Stripped w w') (i : Nat) (x : Queue Value) :
    Stripped (w.setQueue i x) (w'.setQueue i x) :=
  { h with queues := congrArg (·.setIfInBounds i (some x)) h.queues }

/-- Two places are filled, or emptied, alike. -/
theorem setPlace (h : Stripped w w') (c : CompletionId) {x x' : Option (Completion Value Item)}
    (same : (x.getD {}).Image Item.strip (x'.getD {})) :
    Stripped { w with completions := w.completions.setIfInBounds c x }
      { w' with completions := w'.completions.setIfInBounds c x' } := by
  refine { h with births := ?_, completion := fun c' => ?_ }
  · simp only [Array.size_setIfInBounds, h.births]
  · rw [completion_set, completion_set, h.births]
    split
    next => exact same
    next => exact h.completion c'

theorem setCompletion (h : Stripped w w') (c : CompletionId) {x x' : Completion Value Item}
    (same : x.Image Item.strip x') : Stripped (w.setCompletion c x) (w'.setCompletion c x') :=
  @setPlace w w' h c (some x) (some x') same

theorem setSite (h : Stripped w w') (c : CompletionId) {s s' : Site Value Item WakerId}
    (same : s.Image Item.strip s') : Stripped (w.setSite c s) (w'.setSite c s') :=
  { h.setCompletion c same.completion with watches := same.watches }

/-! ### Bringing objects into being -/

theorem addCell (h : Stripped w w') (x : Cell Value) :
    Stripped (w.addCell x).1 (w'.addCell x).1 ∧ (w'.addCell x).2 = (w.addCell x).2 :=
  ⟨{ h with cells := congrArg (·.push (some x)) h.cells }, congrArg Array.size h.cells⟩

theorem addQueue (h : Stripped w w') (x : Queue Value) :
    Stripped (w.addQueue x).1 (w'.addQueue x).1 ∧ (w'.addQueue x).2 = (w.addQueue x).2 :=
  ⟨{ h with queues := congrArg (·.push (some x)) h.queues }, congrArg Array.size h.queues⟩

theorem addCompletion (h : Stripped w w') {x x' : Completion Value Item}
    (same : x.Image Item.strip x') :
    Stripped (w.addCompletion x).1 (w'.addCompletion x').1 ∧
      (w'.addCompletion x').2 = (w.addCompletion x).2 := by
  refine ⟨{ h with births := ?_, completion := fun c => ?_ }, h.births⟩
  · simp only [World.addCompletion, Array.size_push, h.births]
  · rw [completion_push, completion_push, h.births]
    split
    next => exact same
    next => exact h.completion c

theorem addWatch (h : Stripped w w') :
    Stripped w.addWatch.1 w'.addWatch.1 ∧ w'.addWatch.2 = w.addWatch.2 :=
  ⟨{ h with watches := congrArg (·.push {}) h.watches }, congrArg Array.size h.watches⟩

theorem addWaker (h : Stripped w w') (x : Waker) :
    Stripped (w.addWaker x).1 (w'.addWaker x.strip).1 ∧
      (w'.addWaker x.strip).2 = (w.addWaker x).2 := by
  constructor
  · refine { h with wakers := ?_ }
    simp only [World.addWaker, h.wakers, Array.map_push]
  · simp only [World.addWaker, h.wakers, Array.size_map]

/-! ### Lifetimes -/

theorem vacate (h : Stripped w w') (e : Entity) : Stripped (w.vacate e) (w'.vacate e) := by
  cases e with
  | cell i => exact { h with cells := congrArg (·.setIfInBounds i none) h.cells }
  | queue i => exact { h with queues := congrArg (·.setIfInBounds i none) h.queues }
  | completion c => exact @setPlace w w' h c none none .empty

theorem bury (h : Stripped w w') (e : Entity) : Stripped (w.bury e) (w'.bury e) := by
  have estate : w'.estate e = ((w.estate e).1, (w.estate e).2.map Item.strip) := by
    cases e with
    | cell i => simp only [World.estate, h.cell, List.map_nil]
    | queue i => simp only [World.estate, h.queue, List.map_nil]
    | completion c =>
      simp only [World.estate, (h.completion c).cell, Completion.leftover,
        (h.completion c).waiting, List.map_append]
  unfold World.bury
  rw [estate]
  exact (h.vacate e).note (.buried e (w.estate e).1 (w.estate e).2)

theorem release (h : Stripped w w') (held : List Ref) (r : Ref) :
    Stripped (w.release held r) (w'.release (held.map Ref.strip) r.strip) := by
  unfold World.release
  rw [Ref.entity?_strip]
  split
  next => exact h
  next e _ =>
    rw [h.keeps]
    split
    next => exact h
    next => exact h.bury e

theorem unbound_map (handles : List (String × Ref)) (handle : String) :
    unbound (handles.map fun entry => (entry.1, entry.2.strip)) handle
      = (unbound handles handle).map fun entry => (entry.1, entry.2.strip) := by
  unfold unbound
  rw [List.filter_map]
  rfl

theorem bind (h : Stripped w w') (held : List Ref) (handle : String) (r : Ref) :
    Stripped (w.bind held handle r) (w'.bind (held.map Ref.strip) handle r.strip) := by
  have bound : Stripped { w with handles := (handle, r) :: unbound w.handles handle }
      { w' with handles := (handle, r.strip) :: unbound w'.handles handle } := by
    refine { h with handles := ?_ }
    rw [h.handles, unbound_map]
    rfl
  unfold World.bind
  rw [h.lookup]
  cases w.lookup handle with
  | none => exact bound
  | some old => exact bound.release held old

theorem unbind? (h : Stripped w w') (held : List Ref) (handle : String) :
    Option.Rel Stripped (w.unbind? held handle) (w'.unbind? (held.map Ref.strip) handle) := by
  have removed : Stripped { w with handles := unbound w.handles handle }
      { w' with handles := unbound w'.handles handle } := by
    refine { h with handles := ?_ }
    rw [h.handles, unbound_map]
  unfold World.unbind?
  rw [h.lookup]
  cases w.lookup handle with
  | none => exact .none
  | some old => exact .some (removed.release held old)

theorem bindPromise (h : Stripped w w') (held : List Ref) (handle : String) (c : CompletionId)
    (ctx : Context) :
    Stripped (w.bindPromise held handle c ctx)
      (w'.bindPromise (held.map Ref.strip) handle c ctx.strip) := by
  obtain ⟨added, watch⟩ := h.addWatch
  unfold World.bindPromise
  dsimp only
  rw [watch]
  exact added.bind held handle (.promise c ctx _)

/-! ### Queues and wakers -/

theorem append (h : Stripped w w') (q : Nat) (v : Value) :
    Stripped (w.append q v) (w'.append q v) := by
  unfold World.append
  rw [h.queue]
  exact (h.setQueue q _).note (.appended q v)

theorem take? (h : Stripped w w') (q : Nat) :
    ∃ w₁', w'.take? q = (w₁', (w.take? q).2) ∧ Stripped (w.take? q).1 w₁' := by
  refine ⟨w'.setQueue q ((w.queue q).take?).1, ?_, h.setQueue q _⟩
  unfold World.take?
  rw [h.queue]

theorem takeAll (h : Stripped w w') (q fuel : Nat) :
    ∃ w₁', w'.takeAll q fuel = (w₁', (w.takeAll q fuel).2) ∧
      Stripped (w.takeAll q fuel).1 w₁' := by
  induction fuel generalizing w w' with
  | zero => exact ⟨w', rfl, h⟩
  | succ fuel ih =>
    obtain ⟨w₁', taken', same⟩ := h.take? q
    unfold World.takeAll
    rw [taken']
    generalize w.take? q = taken at same
    rcases taken with ⟨w₁, _ | v⟩
    · exact ⟨w₁', rfl, same⟩
    · obtain ⟨w₂', others, same'⟩ := ih (same.note (.consumed q v))
      refine ⟨w₂', ?_, same'⟩
      exact congrArg (fun taken : World × List Data => (taken.1, v.data :: taken.2)) others

theorem wake (h : Stripped w w') (i : WakerId) :
    Stripped (w.wake i).1 (w'.wake i).1 ∧ (w'.wake i).2 = stripSteps (w.wake i).2 := by
  unfold World.wake
  rw [h.wakers, Array.getElem?_map]
  cases hx : w.wakers[i]? with
  | none => exact ⟨h, rfl⟩
  | some x =>
    have spent : Stripped { w with wakers := w.wakers.setIfInBounds i { x with spent := true } }
        { w' with wakers := w'.wakers.setIfInBounds i { x.strip with spent := true } } := by
      refine { h with wakers := ?_ }
      rw [h.wakers, Array.map_setIfInBounds]
      rfl
    refine ⟨?_, ?_⟩
    · have noted := spent.note (.woken i x.name)
      rw [h.wakers] at noted
      exact noted
    · simp only [Option.map_some, Waker.strip]
      split <;> rfl

end Stripped

end World

end Eventual
