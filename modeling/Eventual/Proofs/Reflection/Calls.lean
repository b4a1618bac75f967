import Eventual.Proofs.Completion.Steps
import Eventual.Proofs.Reflection.Flip

/-!
# Calls on reflected completions

Two completions reflect each other when their cells do, and what waits for one side of the one is
what waits for the other side of the other. How the queues hold it does not matter, as long as
they are at rest. A step of a call on the one is then a step of the reflected call on the other:
its action is reflected, and the completions still reflect each other.
-/

namespace Eventual

namespace Cell

variable {α : Type}

@[simp] theorem State.isTerminal_flip (st : State) : st.flip.isTerminal = st.isTerminal := by
  cases st <;> rfl

@[simp] theorem isTerminal_flip (c : Cell α) : c.flip.isTerminal = c.isTerminal :=
  State.isTerminal_flip c.state

theorem isOn_flip (c : Cell α) (s : Side) : c.flip.isOn s.other = c.isOn s := by
  unfold isOn flip
  cases c.state <;> simp [State.flip]

theorem result_flip (c : Cell α) : c.flip.result = c.result.map Outcome.flip := by
  unfold result
  rw [isTerminal_flip]
  split <;> rfl

/-- A demand for the one side is one for the other side of the reflected cell. -/
theorem demand_flip (c : Cell α) (s : Side) :
    c.flip.demand s.other = (c.demand s).mapError State.flip := by
  unfold demand
  rw [result_flip]
  cases c.result with
  | none => rfl
  | some o =>
    simp only [Option.map_some, Outcome.side_flip, Side.other_inj, Outcome.value_flip]
    split <;> rfl

theorem tryCommit_flip (c : Cell α) (o : Outcome α) :
    c.flip.tryCommit o.flip = ((c.tryCommit o).1.flip, (c.tryCommit o).2) := by
  obtain ⟨state, stored⟩ := c
  cases state <;> rfl

theorem commitStep_flip (c : Cell α) (o : Outcome α) (here : CommitPoint) :
    commitStep o.flip c.flip here = ((commitStep o c here).1.flip, (commitStep o c here).2) := by
  obtain ⟨state, stored⟩ := c
  cases here <;> cases state <;> rfl

end Cell

namespace Completion

variable {α ι : Type} {f : ι → ι} {x x' : Completion α ι}

/-- The completions reflect each other. -/
structure Reflects (f : ι → ι) (x x' : Completion α ι) : Prop where
  cell : x'.cell = x.cell.flip
  waiting : ∀ k, x'.waiting k.flip = (x.waiting k).map f

theorem Reflects.empty : Reflects f ({} : Completion α ι) {} := by
  refine ⟨rfl, ?_⟩
  rintro ((_ | _) | _ | _) <;> rfl

theorem Reflects.withCell (h : Reflects f x x') (cell : Cell α) :
    Reflects f { x with cell } { x' with cell := cell.flip } :=
  ⟨rfl, h.waiting⟩

/-- Queues that hold the same, but for the change of the items, take the places of two that
correspond. -/
theorem Reflects.setQueue (h : Reflects f x x') (k : Kind) {q q' : Queue ι}
    (same : q'.toList = q.toList.map f) : Reflects f (x.setQueue k q) (x'.setQueue k.flip q') := by
  refine ⟨by rw [cell_setQueue, cell_setQueue, h.cell], fun k' => ?_⟩
  have apart : k.flip = k'.flip ↔ k = k' :=
    ⟨fun e => by rw [← k.flip_flip, e, k'.flip_flip], congrArg Kind.flip⟩
  rw [waiting_setQueue, waiting_setQueue, h.waiting k', same]
  by_cases hk : k = k' <;> simp [apart, hk]

/-- A take from the one queue takes what corresponds to what it takes from the other. -/
theorem Reflects.take? (h : Reflects f x x') (rest : x.AtRest) (rest' : x'.AtRest) (k : Kind) :
    ∃ q', (x'.queue k.flip).take? = (q', (x.queue k).take?.2.map f) ∧
      q'.toList = (x.queue k).take?.1.toList.map f := by
  have same : (x'.queue k.flip).toList = (x.queue k).toList.map f := h.waiting k
  have first : (x'.queue k.flip).take?.2 = (x.queue k).take?.2.map f := by
    rw [Queue.take?_snd (rest k), Queue.take?_snd (rest' k.flip), same, List.head?_map]
  have others : (x'.queue k.flip).take?.1.toList = (x.queue k).take?.1.toList.map f := by
    rw [Queue.toList_take? (rest k), Queue.toList_take? (rest' k.flip), same, List.map_tail]
  exact ⟨_, Prod.ext rfl first, others⟩

@[simp] theorem Stage.kind_other (s : Side) (stage : Stage) :
    stage.kind s.other = (stage.kind s).flip := by
  cases stage <;> rfl

/-- What two steps lead to is reflected: the completions, and the actions. -/
inductive Follows (f : ι → ι) : Completion α ι × Action α ι (Point α ι) (Answer α) →
    Completion α ι × Action α ι (Point α ι) (Answer α) → Prop
  | intro {x x' : Completion α ι} {a : Action α ι (Point α ι) (Answer α)} : Reflects f x x' →
      Follows f (x, a) (x', a.flip f (Point.flip f) Answer.flip)

/-- A step of a call on a completion, and that of the reflected call on the reflected one. -/
theorem Reflects.step (h : Reflects f x x') (rest : x.AtRest) (rest' : x'.AtRest)
    (p : Point α ι) : Follows f (x.step p) (x'.step (p.flip f)) := by
  cases p with
  | commit o drains here =>
    have reflected := Cell.commitStep_flip x.cell o here
    rw [← h.cell] at reflected
    simp only [Completion.step, Point.flip]
    rw [reflected]
    rcases Cell.commitStep o x.cell here with ⟨cell, here' | (_ | _)⟩
    · exact .intro (h.withCell cell)
    · exact .intro (h.withCell cell)
    · cases drains <;> exact .intro (h.withCell cell)
  | append k y =>
    refine .intro (h.setQueue k ?_)
    rw [Queue.toList_append (rest k), Queue.toList_append (rest' k.flip), List.map_append]
    exact congrArg (· ++ [f y]) (h.waiting k)
  | consult k =>
    have state : x'.cell.state = x.cell.state.flip := congrArg Cell.state h.cell
    cases hs : x.cell.state with
    | pending | committing =>
      rw [hs] at state
      cases k <;> simp only [Completion.step, Point.flip, Kind.flip, hs, state, Cell.State.flip] <;>
        exact .intro h
    | settled s =>
      rw [hs] at state
      cases k with
      | on side =>
        simp only [Completion.step, Point.flip, Kind.flip, hs, state, Cell.State.flip,
          Side.other_inj]
        split <;> exact .intro h
      | always | waker =>
        simp only [Completion.step, Point.flip, Kind.flip, hs, state, Cell.State.flip]
        exact .intro h
  | check s answer =>
    have on : x'.cell.isOn s.other = x.cell.isOn s := h.cell ▸ Cell.isOn_flip x.cell s
    simp only [Completion.step, Point.flip, on]
    split <;> exact .intro h
  | fetch s answer =>
    have demand := Cell.demand_flip x.cell s
    rw [← h.cell] at demand
    simp only [Completion.step, Point.flip, demand]
    cases x.cell.demand s with
    | ok v => exact .intro h
    | error st => exact .intro h
  | sweep s answer v stage called =>
    obtain ⟨q', taken', others⟩ := h.take? rest rest' (stage.kind s)
    simp only [Completion.step, Point.flip, Stage.kind_other, taken']
    generalize (x.queue (stage.kind s)).take? = taken at others
    rcases taken with ⟨q, _ | y⟩
    · cases stage <;> exact .intro (h.setQueue _ others)
    · exact .intro (h.setQueue _ others)
  | announce s => exact .intro h
  | report s answer called => exact .intro h
  | finish answer => exact .intro h

end Completion

namespace Site

variable {α ι τ : Type} {f : ι → ι} {s s' : Site α ι τ}

/-- The completions of the sites reflect each other, and the watches are the same. -/
structure Reflects (f : ι → ι) (s s' : Site α ι τ) : Prop where
  completion : s.completion.Reflects f s'.completion
  watches : s'.watches = s.watches

/-- What two steps lead to is reflected: the sites, and the actions. -/
inductive Follows (f : ι → ι) : Site α ι τ × Action α ι (Point α ι τ) (Answer α) →
    Site α ι τ × Action α ι (Point α ι τ) (Answer α) → Prop
  | intro {s s' : Site α ι τ} {a : Action α ι (Point α ι τ) (Answer α)} : Reflects f s s' →
      Follows f (s, a) (s', a.flip f (Point.flip f) Answer.flip)

theorem Reflects.watch (h : Reflects f s s') (w : WatchId) : s'.watch w = s.watch w :=
  congrArg (fun watches : Array (Watch τ) => watches[w]?.getD {}) h.watches

theorem Reflects.updateWatch (h : Reflects f s s') (w : WatchId) (change : Watch τ → Watch τ) :
    Reflects f (s.updateWatch w change) (s'.updateWatch w change) :=
  ⟨h.completion, congrArg (·.modify w change) h.watches⟩

theorem Reflects.withCompletion (h : Reflects f s s') {x x' : Completion α ι}
    (same : x.Reflects f x') :
    Reflects f { s with completion := x } { s' with completion := x' } :=
  ⟨same, h.watches⟩

/-- A step of a call on a completion or a promise, and that of the reflected call. -/
theorem Reflects.step (h : Reflects f s s') (rest : s.completion.AtRest)
    (rest' : s'.completion.AtRest) (p : Point α ι τ) :
    Follows f (s.step p) (s'.step (p.flip f)) := by
  have looked : s'.completion.cell.result = s.completion.cell.result.map Outcome.flip := by
    rw [h.completion.cell, Cell.result_flip]
  cases p with
  | direct here =>
    have follows := h.completion.step rest rest' here
    simp only [Site.step, Point.flip]
    generalize s.completion.step here = next at follows
    generalize s'.completion.step (here.flip f) = next' at follows
    cases follows with
    | @intro _ _ a same => cases a <;> exact .intro (h.withCompletion same)
  | look p =>
    simp only [Site.step, Point.flip, looked]
    cases s.completion.cell.result with
    | none => exact .intro h
    | some o => exact .intro h
  | store p => exact .intro (h.updateWatch p.watch _)
  | subscribe p =>
    have watch : s'.watch (p.flip f).watch = s.watch p.watch := h.watch p.watch
    simp only [Site.step, Point.flip, watch]
    split
    · exact .intro h
    · exact .intro (h.updateWatch p.watch _)
  | registering p here =>
    have follows := h.completion.step rest rest' here
    simp only [Site.step, Point.flip]
    generalize s.completion.step here = next at follows
    generalize s'.completion.step (here.flip f) = next' at follows
    cases follows with
    | @intro _ _ a same => cases a <;> exact .intro (h.withCompletion same)
  | lookAgain p =>
    simp only [Site.step, Point.flip, looked]
    cases s.completion.cell.result with
    | none => exact .intro h
    | some o => exact .intro h

/-- Taking the waker out of a watch. -/
theorem Reflects.takeWaker (h : Reflects f s s') (w : WatchId) :
    ∃ s₁', s'.takeWaker w = (s₁', (s.takeWaker w).2) ∧ Reflects f (s.takeWaker w).1 s₁' :=
  ⟨_, Prod.ext rfl (congrArg Watch.stored (h.watch w)), h.updateWatch w _⟩

end Site

end Eventual
