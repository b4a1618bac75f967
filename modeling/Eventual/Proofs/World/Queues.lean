import Eventual.Machine.Begin
import Eventual.Proofs.Queue.Usage
import Eventual.Proofs.World.Evolution

/-!
# One queue of a world

What a world says of one of its queues, `Shows`: what it holds, and in the history what was
appended to it and what has left it for good. Whatever happens to other things happens `Aside`.
A queue is dropped only when nothing refers to it; whoever lets go of references `Sheds` queues,
this one at most once.
-/

namespace Eventual

open Queue

/-- The payload that an event says was appended to the queue. -/
def Event.appendsTo (q : Nat) : Event → List Value
  | .appended q' v => if q' = q then [v] else []
  | _ => []

/-- The payloads that an event says have left the queue for good, and whether they were handed
out. -/
def Event.partsFrom (q : Nat) : Event → List (Bool × Value)
  | .consumed q' v => if q' = q then [(true, v)] else []
  | .discarded q' v => if q' = q then [(false, v)] else []
  | .buried e vs _ => if e = .queue q then vs.map fun v => (false, v) else []
  | _ => []

/-- The event does not concern the queue. -/
def Event.Aside (q : Nat) (ev : Event) : Prop := ev.appendsTo q = [] ∧ ev.partsFrom q = []

/-- Whether the payload was handed to the program. -/
def Queue.Fate.handedOut : Fate → Bool
  | .returned => true
  | .rejected | .unwound | .left => false

namespace World

variable {w w' w'' : World} {held : List Ref} {q q' : Nat} {offered : List Value}
  {u : Usage (List Value) Value} {r : Ref} {handle : String}

/-- The queue has come into being and has not been dropped. -/
def HasQueue (w : World) (q : Nat) : Prop := ∃ x, w.queues[q]? = some (some x)

/-- The usage of the queue on which the given payloads are on offer. -/
structure Shows (w : World) (q : Nat) (offered : List Value) (u : Usage (List Value) Value) :
    Prop where
  rest : (w.queue q).AtRest
  store : u.store = (w.queue q).toList
  offered : u.offered = offered
  appended : u.appended = w.history.flatMap (Event.appendsTo q)
  parted : u.parted.map (fun part => (part.1.handedOut, part.2))
    = w.history.flatMap (Event.partsFrom q)
  gone : u.gone = true ↔ w.queues[q]? = some none

theorem Shows.empty : Shows {} q [] { store := Storage.plain.empty } :=
  ⟨.empty, rfl, rfl, rfl, rfl, by simp⟩

theorem Shows.lives (shows : w.Shows q offered u) (has : w.HasQueue q) : u.gone = false := by
  obtain ⟨x, hx⟩ := has
  rw [← Bool.not_eq_true, shows.gone, hx]
  exact fun same => Option.some_ne_none _ (Option.some.inj same)

/-! ## What happens to other things -/

/-- A handle refers to the queue. -/
def Names (w : World) (q : Nat) : Prop := ∃ entry ∈ w.handles, entry.2.entity? = some (.queue q)

/-- Nothing has happened to the queue, but that it may have come into being. -/
structure Aside (q : Nat) (w w' : World) : Prop where
  place : w'.queues[q]? = w.queues[q]? ∨
    w.queues[q]? = none ∧ w'.queues[q]? = some (some {})
  history : ∃ events, w'.history = w.history ++ events ∧ ∀ ev ∈ events, ev.Aside q
  names : w'.Names q → w.Names q ∨ w'.HasQueue q

namespace Aside

theorem hasQueue (h : Aside q w w') (has : w.HasQueue q) : w'.HasQueue q := by
  obtain ⟨x, hx⟩ := has
  obtain same | ⟨unborn, -⟩ := h.place
  · exact ⟨x, same.trans hx⟩
  · cases hx.symm.trans unborn

theorem refl (w : World) : Aside q w w :=
  ⟨.inl rfl, ⟨[], (List.append_nil _).symm, List.forall_mem_nil _⟩, .inl⟩

theorem trans (h : Aside q w w') (h' : Aside q w' w'') : Aside q w w'' := by
  obtain ⟨events, history, apart⟩ := h.history
  obtain ⟨events', history', apart'⟩ := h'.history
  refine ⟨?_, ⟨events ++ events', ?_, List.forall_mem_append.2 ⟨apart, apart'⟩⟩, fun names => ?_⟩
  · obtain same | ⟨unborn, born⟩ := h.place
    · rw [← same]
      exact h'.place
    · obtain same' | ⟨unborn', -⟩ := h'.place
      · exact .inr ⟨unborn, same'.trans born⟩
      · cases born.symm.trans unborn'
  · rw [history', history, List.append_assoc]
  · obtain names | has := h'.names names
    · exact (h.names names).imp_right h'.hasQueue
    · exact .inr has

/-- A change of anything but queues, handles and history. -/
theorem of_eq (queues : w'.queues = w.queues) (handles : w'.handles = w.handles)
    (trail : w'.trail = w.trail) : Aside q w w' := by
  refine ⟨.inl (by rw [queues]), ⟨[], ?_, List.forall_mem_nil _⟩, fun names => .inl ?_⟩
  · rw [World.history, World.history, trail, List.append_nil]
  · unfold Names at names ⊢
    rwa [handles] at names

theorem record (w : World) {ev : Event} (apart : ev.Aside q) : Aside q w (w.record ev) :=
  ⟨.inl rfl, ⟨[ev], history_record w ev, List.forall_mem_singleton.2 apart⟩, .inl⟩

theorem addQueue (w : World) : Aside q w (w.addQueue {}).1 := by
  refine ⟨?_, ⟨[], (List.append_nil _).symm, List.forall_mem_nil _⟩, .inl⟩
  unfold World.addQueue
  dsimp only
  rw [Array.getElem?_push]
  split
  next born =>
    subst born
    exact .inr ⟨Array.getElem?_eq_none (Nat.le_refl _), rfl⟩
  next => exact .inl rfl

theorem setQueue (other : q' ≠ q) (x : Queue Value) : Aside q w (w.setQueue q' x) :=
  ⟨.inl (Array.getElem?_setIfInBounds_ne other), ⟨[], (List.append_nil _).symm,
    List.forall_mem_nil _⟩, .inl⟩

/-- The death of another thing. -/
theorem bury {e : Entity} (other : e ≠ .queue q) : Aside q w (w.bury e) := by
  have event : (Event.buried e (w.estate e).1 (w.estate e).2).Aside q := ⟨rfl, if_neg other⟩
  refine Aside.trans ?_ (.record (w.vacate e) event)
  cases e with
  | queue q' =>
    have ne : q' ≠ q := fun same => other (congrArg Entity.queue same)
    exact ⟨.inl (Array.getElem?_setIfInBounds_ne ne), ⟨[], (List.append_nil _).symm,
      List.forall_mem_nil _⟩, .inl⟩
  | cell _ | completion _ => exact .of_eq rfl rfl rfl

/-- Handles may be changed as long as they refer to what exists. -/
theorem rebind {handles : List (String × Ref)}
    (known : ∀ entry ∈ handles, entry.2.entity? = some (.queue q) → w.Names q ∨ w.HasQueue q) :
    Aside q w { w with handles } := by
  refine ⟨.inl rfl, ⟨[], (List.append_nil _).symm, List.forall_mem_nil _⟩, ?_⟩
  rintro ⟨entry, hentry, refers⟩
  exact known entry hentry refers

theorem shows (h : Aside q w w') (shows : w.Shows q offered u) : w'.Shows q offered u := by
  have queue : w'.queue q = w.queue q := by
    unfold World.queue
    obtain same | ⟨unborn, born⟩ := h.place
    · rw [same]
    · rw [unborn, born]
      rfl
  obtain ⟨events, history, apart⟩ := h.history
  have counts : ∀ {β : Type} (f : Event → List β), (∀ ev ∈ events, f ev = []) →
      w'.history.flatMap f = w.history.flatMap f := by
    intro β f nothing
    rw [history, List.flatMap_append, List.flatMap_eq_nil_iff.2 nothing, List.append_nil]
  refine ⟨queue ▸ shows.rest, queue ▸ shows.store, shows.offered, ?_, ?_, ?_⟩
  · rw [counts _ fun ev hev => (apart ev hev).1, shows.appended]
  · rw [counts _ fun ev hev => (apart ev hev).2, shows.parted]
  · rw [shows.gone]
    obtain same | ⟨unborn, born⟩ := h.place
    · rw [same]
    · simp [unborn, born]

end Aside

/-! ## Letting go of references -/

/-- The queue exists if a handle or a running call refers to it. -/
def Anchored (w : World) (q : Nat) (held : List Ref) : Prop :=
  w.keeps held (.queue q) = true → w.HasQueue q

theorem keeps_queue_iff : w.keeps held (.queue q) = true ↔
    w.Names q ∨ ∃ r ∈ held, r.entity? = some (.queue q) := by
  simp [keeps, Names]

theorem Anchored.named (h : w.Anchored q held) (names : w.Names q) : w.HasQueue q :=
  h (keeps_queue_iff.2 (.inl names))

theorem Anchored.lookup (h : w.Anchored q held) (refers : w.lookup handle = some r)
    (entity : r.entity? = some (.queue q)) : w.HasQueue q := by
  obtain ⟨before, after, handles, -⟩ := List.lookup_eq_some_iff.1 refers
  exact h.named ⟨(handle, r), by simp [handles], entity⟩

theorem Anchored.aside (h : w.Anchored q held) (aside : Aside q w w') : w'.Anchored q held := by
  intro keeps
  obtain names | holds := keeps_queue_iff.1 keeps
  · obtain names | has := aside.names names
    · exact aside.hasQueue (h.named names)
    · exact has
  · exact aside.hasQueue (h (keeps_queue_iff.2 (.inr holds)))

/-- One change after another, by some of which references are let go of. -/
inductive Sheds (q : Nat) (held : List Ref) : World → World → Prop
  | aside {w w' : World} : Aside q w w' → Sheds q held w w'
  | bury {w : World} : w.HasQueue q → ¬ w.keeps held (.queue q) = true →
      Sheds q held w (w.bury (.queue q))
  | trans {w w' w'' : World} : Sheds q held w w' → Sheds q held w' w'' → Sheds q held w w''

namespace Sheds

theorem anchored (h : Sheds q held w w') (anchored : w.Anchored q held) : w'.Anchored q held := by
  induction h with
  | aside aside => exact anchored.aside aside
  | bury _ free => exact fun keeps => absurd keeps free
  | trans _ _ ih ih' => exact ih' (ih anchored)

theorem release (anchored : r.entity? = some (.queue q) → w.HasQueue q) :
    Sheds q held w (w.release held r) := by
  unfold World.release
  split
  next => exact .aside (.refl w)
  next e entity =>
    split
    next => exact .aside (.refl w)
    next free =>
      by_cases same : e = .queue q
      · subst same
        exact .bury (anchored entity) free
      · exact .aside (.bury same)

theorem bind (anchored : w.Anchored q held) (handle : String)
    (known : r.entity? = some (.queue q) → w.HasQueue q) :
    Sheds q held w (w.bind held handle r) := by
  have bound : Aside q w { w with handles := (handle, r) :: unbound w.handles handle } := by
    refine .rebind (List.forall_mem_cons.2 ⟨fun entity => .inr (known entity), ?_⟩)
    exact fun entry hentry refers => .inl ⟨entry, mem_of_mem_unbound hentry, refers⟩
  unfold World.bind
  split
  next => exact .aside bound
  next old refers =>
    exact .trans (.aside bound) (.release fun entity =>
      bound.hasQueue (anchored.lookup refers entity))

theorem unbind (anchored : w.Anchored q held) (h : w.unbind? held handle = some w') :
    Sheds q held w w' := by
  obtain ⟨old, refers, rfl⟩ := Option.map_eq_some_iff.1 h
  have unbound : Aside q w { w with handles := unbound w.handles handle } :=
    .rebind fun entry hentry refers => .inl ⟨entry, mem_of_mem_unbound hentry, refers⟩
  exact .trans (.aside unbound) (.release fun entity =>
    unbound.hasQueue (anchored.lookup refers entity))

theorem bindPromise {c : CompletionId} {ctx : Context} (anchored : w.Anchored q held)
    (handle : String) : Sheds q held w (w.bindPromise held handle c ctx) := by
  have watched : Aside q w w.addWatch.1 := .of_eq rfl rfl rfl
  exact .trans (.aside watched) (.bind (anchored.aside watched) handle nofun)

end Sheds

/-- The death of the queue is its being dropped, with nothing of it on offer. -/
theorem Shows.bury (shows : w.Shows q [] u) (has : w.HasQueue q) :
    u.plays .plain [.drop] = some (u.bury .plain, [.unit]) ∧
      (w.bury (.queue q)).Shows q [] (u.bury .plain) := by
  have lives := shows.lives has
  obtain ⟨x, hx⟩ := has
  have inside : q < w.queues.size := (Array.getElem?_eq_some_iff.1 hx).1
  have place : (w.bury (.queue q)).queues[q]? = some none :=
    Array.getElem?_setIfInBounds_self_of_lt inside
  have queue : (w.bury (.queue q)).queue q = {} := by simp [World.queue, place]
  refine ⟨Usage.plays_singleton _ ?_, ?_⟩
  · simp [Usage.step, lives, shows.offered]
  · refine ⟨queue ▸ .empty, by rw [queue]; rfl, shows.offered, ?_, ?_, by simp [Usage.bury, place]⟩
    · simp only [World.bury, history_record, List.flatMap_append, List.flatMap_singleton,
        Event.appendsTo, List.append_nil]
      exact shows.appended
    · simp only [World.bury, history_record, List.flatMap_append, List.flatMap_singleton,
        Event.partsFrom, if_true, Usage.bury, List.map_append, List.map_map, shows.parted,
        World.estate, shows.store]
      rfl

/-- Whoever lets go of references drops the queue at most once, and only when nothing is on
offer. -/
theorem Sheds.shows (h : Sheds q held w w') (shows : w.Shows q offered u)
    (unoffered : (¬ ∃ r ∈ held, r.entity? = some (.queue q)) → offered = []) :
    w'.Shows q offered u ∨
      u.plays .plain [.drop] = some (u.bury .plain, [.unit]) ∧
        w'.Shows q offered (u.bury .plain) := by
  induction h generalizing u with
  | aside aside => exact .inl (aside.shows shows)
  | bury has free =>
    obtain rfl := unoffered fun holds => free (keeps_queue_iff.2 (.inr holds))
    exact .inr (shows.bury has)
  | trans _ _ ih ih' =>
    obtain shows' | ⟨drops, shows'⟩ := ih shows
    · exact ih' shows'
    · obtain shows'' | ⟨drops', -⟩ := ih' shows'
      · exact .inr ⟨drops, shows''⟩
      · -- a queue that was dropped cannot be dropped again
        cases drops'

/-! ## Using the queue -/

theorem place_setQueue (has : w.HasQueue q) (x : Queue Value) :
    (w.setQueue q x).queues[q]? = some (some x) := by
  obtain ⟨y, hy⟩ := has
  exact Array.getElem?_setIfInBounds_self_of_lt (Array.getElem?_eq_some_iff.1 hy).1

theorem HasQueue.setQueue (has : w.HasQueue q) (x : Queue Value) : (w.setQueue q x).HasQueue q :=
  ⟨x, place_setQueue has x⟩

/-- The queue is replaced by another one. -/
theorem Shows.setQueue (shows : w.Shows q offered u) (has : w.HasQueue q) {x : Queue Value}
    (rest : x.AtRest) : (w.setQueue q x).Shows q offered { u with store := x.toList } := by
  have place := place_setQueue has x
  have queue : (w.setQueue q x).queue q = x := by simp [World.queue, place]
  exact ⟨queue.symm ▸ rest, by rw [queue], shows.offered, shows.appended, shows.parted,
    by simp [place, shows.lives has]⟩

theorem Shows.append (shows : w.Shows q offered u) (has : w.HasQueue q) (v : Value) :
    (w.append q v).Shows q offered
      { u with store := u.store ++ [v], appended := u.appended ++ [v] } := by
  obtain ⟨rest, store, offers, appended, parted, gone⟩ :=
    shows.setQueue has (shows.rest.append v)
  refine ⟨rest, ?_, offers, ?_, ?_, gone⟩
  · exact shows.store ▸ (toList_append shows.rest v).symm.trans store
  · simp only [World.append, history_record, List.flatMap_append, List.flatMap_singleton,
      Event.appendsTo, if_true]
    exact congrArg (· ++ [v]) appended
  · simp only [World.append, history_record, List.flatMap_append, List.flatMap_singleton,
      Event.partsFrom, List.append_nil]
    exact parted

/-- The first payload is taken from the queue. -/
theorem Shows.take? (shows : w.Shows q offered u) (has : w.HasQueue q) :
    (w.take? q).2 = u.store.head? ∧
      (w.take? q).1.Shows q offered { u with store := u.store.tail } := by
  refine ⟨(take?_snd shows.rest).trans (by rw [shows.store]), ?_⟩
  rw [shows.store, ← toList_take? shows.rest]
  exact shows.setQueue has shows.rest.take?

theorem HasQueue.take? (has : w.HasQueue q) : (w.take? q).1.HasQueue q := has.setQueue _

/-- The payload on offer, or one just taken, leaves the queue for good. -/
theorem Shows.part (shows : w.Shows q offered u) {fate : Fate} {v : Value} {ev : Event}
    (appends : ev.appendsTo q = []) (parts : ev.partsFrom q = [(fate.handedOut, v)])
    (rest : List Value) : (w.record ev).Shows q rest (u.part fate v rest) := by
  refine ⟨shows.rest, shows.store, rfl, ?_, ?_, shows.gone⟩
  · rw [history_record, List.flatMap_append, List.flatMap_singleton, appends, List.append_nil]
    exact shows.appended
  · rw [history_record, List.flatMap_append, List.flatMap_singleton, parts, ← shows.parted]
    simp [Usage.part]

end World

end Eventual
