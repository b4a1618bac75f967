import Eventual.Completion.Protocol
import Eventual.Queue.Lemmas

/-!
# One step of a call on a completion

`Does` lists what a step of a call can do: which access it makes, what becomes of
the completion, and what it wants from its surroundings. Everything else about
single steps is read off that list.

A completion is `Sound` when its queues are at rest and a settled cell has an
outcome of the side on which it settled. A point `Fits` a cell when what the code
has seen of the cell on the way to that point is still true: a commit that has
claimed the cell finds it claimed, and a drain finds it settled on its side. A step
keeps the completion sound and leads to a point that fits. It spoils the point of
another thread only if both have claimed the cell.

What a step calls it takes from the front of a queue, and what it registers it puts
at the back, which is `Does.waiting_eq`.
-/

namespace Eventual

section Actions

variable {α ι π π' ρ ρ' : Type}

/-- The point to which an action leads. -/
def Action.next? : Action α ι π ρ → Option π
  | .goto p | .notice _ p | .call _ _ _ p => some p
  | .done _ | .refused _ _ => none

/-- What an action calls of a kind. -/
def Action.called (k : Kind) : Action α ι π ρ → List ι
  | .call k' x _ _ => if k' = k then [x] else []
  | .goto _ | .notice _ _ | .done _ | .refused _ _ => []

/-- What an action gives notice of having registered of a kind. -/
def Action.registered (k : Kind) : Action α ι π ρ → List ι
  | .notice (.registered k' x) _ => if k' = k then [x] else []
  | .notice (.settled _) _ | .notice (.logged _) _ | .goto _ | .call _ _ _ _ | .done _
  | .refused _ _ => []

/-- The outcome that an action gives notice of, if the cell has been settled. -/
def Action.settled : Action α ι π ρ → List (Outcome α)
  | .notice (.settled o) _ => [o]
  | .notice (.registered _ _) _ | .notice (.logged _) _ | .goto _ | .call _ _ _ _ | .done _
  | .refused _ _ => []

/-- What an action answers. -/
def Action.answer? : Action α ι π ρ → Option ρ
  | .done a => some a
  | .goto _ | .notice _ _ | .call _ _ _ _ | .refused _ _ => none

/-- The point from which a call goes on by itself after an action. -/
def Action.onward? : Action α ι π ρ → Option π
  | .goto p | .notice _ p => some p
  | .call _ _ _ _ | .done _ | .refused _ _ => none

/-- An action that calls anything of a kind is the call of an item of that kind. -/
theorem Action.of_called_ne_nil {a : Action α ι π ρ} {k : Kind} (h : a.called k ≠ []) :
    ∃ x arg p, a = .call k x arg p := by
  cases a with
  | call k' x arg p =>
    by_cases hk : k' = k
    · subst hk
      exact ⟨x, arg, p, rfl⟩
    · exact absurd (if_neg hk) h
  | goto _ | notice _ _ | done _ | refused _ _ => exact absurd rfl h

theorem Action.next?_of_onward? {a : Action α ι π ρ} {p : π} (h : a.onward? = some p) :
    a.next? = some p := by
  cases a with
  | goto _ | notice _ _ => exact h
  | call _ _ _ _ | done _ | refused _ _ => cases h

@[simp] theorem Action.next?_map (f : π → π') (g : ρ → ρ') (a : Action α ι π ρ) :
    (a.map f g).next? = a.next?.map f := by cases a <;> rfl

@[simp] theorem Action.answer?_map (f : π → π') (g : ρ → ρ') (a : Action α ι π ρ) :
    (a.map f g).answer? = a.answer?.map g := by cases a <;> rfl

@[simp] theorem Action.onward?_map (f : π → π') (g : ρ → ρ') (a : Action α ι π ρ) :
    (a.map f g).onward? = a.onward?.map f := by cases a <;> rfl

@[simp] theorem Action.called_map (f : π → π') (g : ρ → ρ') (a : Action α ι π ρ) (k : Kind) :
    (a.map f g).called k = a.called k := by cases a <;> rfl

@[simp] theorem Action.registered_map (f : π → π') (g : ρ → ρ') (a : Action α ι π ρ) (k : Kind) :
    (a.map f g).registered k = a.registered k := by
  cases a with
  | notice n p => cases n <;> rfl
  | _ => rfl

@[simp] theorem Action.settled_map (f : π → π') (g : ρ → ρ') (a : Action α ι π ρ) :
    (a.map f g).settled = a.settled := by
  cases a with
  | notice n p => cases n <;> rfl
  | _ => rfl

end Actions

/-- A settled cell has an outcome of the side on which it settled. -/
def Cell.Sound {α : Type} (c : Cell α) : Prop :=
  ∀ s, c.state = .settled s → ∃ v, c.stored = some ⟨s, v⟩

theorem Cell.result_of_settled {α : Type} {c : Cell α} {s : Side} (hs : c.state = .settled s) :
    c.result = c.stored := by
  simp [Cell.result, Cell.isTerminal, Cell.State.isTerminal, hs]

/-- Before a cell is settled a reader finds nothing. -/
theorem Cell.result_of_unsettled {α : Type} {c : Cell α} (h : ∀ s, c.state ≠ .settled s) :
    c.result = none := by
  cases hs : c.state with
  | settled s => exact absurd hs (h s)
  | pending | committing => simp [Cell.result, Cell.isTerminal, Cell.State.isTerminal, hs]

/-- The value that a demand finds on the side of a settled cell is the stored one. -/
theorem Cell.Sound.demand_eq {α : Type} {c : Cell α} (h : c.Sound) {s : Side}
    (hs : c.state = .settled s) : ∃ v, c.stored = some ⟨s, v⟩ ∧ c.demand s = .ok v := by
  obtain ⟨v, hv⟩ := h s hs
  exact ⟨v, hv, by simp [Cell.demand, Cell.result_of_settled hs, hv]⟩

/-- The outcome that a reader finds is that of a settled cell. -/
theorem Cell.Sound.of_result {α : Type} {c : Cell α} (h : c.Sound) {o : Outcome α}
    (ho : c.result = some o) : c.state = .settled o.side ∧ c.stored = some o := by
  unfold Cell.result at ho
  split at ho
  next terminal =>
    obtain ⟨s, hs⟩ := Option.isSome_iff_exists.1 terminal
    rw [Cell.State.side?_eq_some_iff] at hs
    obtain ⟨v, hv⟩ := h s hs
    obtain rfl : ⟨s, v⟩ = o := Option.some.inj (hv.symm.trans ho)
    exact ⟨hs, ho⟩
  next => cases ho

/-- What an item of a kind is given of the value on which a completion has settled. -/
def Kind.argument {α : Type} (v : α) : Kind → Option α
  | .on _ => some v
  | .always | .waker => none

namespace Completion

variable {α ι : Type}

/-! ## What a step does -/

/-- What a step of a call on a completion does: the access by which it leaves its
point, the completion afterwards, and the action. -/
inductive Does (c : Completion α ι) :
    Point α ι → Completion α ι → Action α ι (Point α ι) (Answer α) → Prop
  | look {o drains} : c.cell.state = .pending →
      Does c (.commit o drains .look) c (.goto (.commit o drains .claim))
  | lookLate {o drains} : c.cell.state ≠ .pending →
      Does c (.commit o drains .look) c (.done (.lost o))
  | claim {o drains} : c.cell.state = .pending →
      Does c (.commit o drains .claim) { c with cell := { c.cell with state := .committing } }
        (.goto (.commit o drains .store))
  | claimLate {o drains} : c.cell.state ≠ .pending →
      Does c (.commit o drains .claim) c (.done (.lost o))
  | store {o drains} :
      Does c (.commit o drains .store) { c with cell := { c.cell with stored := some o } }
        (.goto (.commit o drains .publish))
  | publish {o drains} :
      Does c (.commit o drains .publish)
        { c with cell := { c.cell with state := .settled o.side } }
        (.notice (.settled o) (if drains then .announce o.side else .finish .won))
  | announce {s} : Does c (.announce s) c (.notice (.logged (.committed s)) (.check s .won))
  | append {k x} :
      Does c (.append k x) (c.setQueue k ((c.queue k).append x))
        (.notice (.registered k x) (.consult k))
  | consultMatching {s} : c.cell.state = .settled s →
      Does c (.consult (.on s)) c (.notice (.logged (.lateRegistration s)) (.check s .unit))
  | consultOther {k s} : c.cell.state = .settled s → k = .always ∨ k = .waker →
      Does c (.consult k) c (.goto (.check s .unit))
  | consultEarly {k} : (∀ s, c.cell.state = .settled s → k = .on s.other) →
      Does c (.consult k) c (.done .unit)
  | check {s a} : c.cell.state = .settled s → Does c (.check s a) c (.goto (.fetch s a))
  | checkOff {s a} : c.cell.state ≠ .settled s → Does c (.check s a) c (.done a)
  | fetch {s a v} : c.cell.demand s = .ok v →
      Does c (.fetch s a) c (.goto (.sweep s a v .wakers 0))
  | refuse {s a st} : c.cell.demand s = .error st → Does c (.fetch s a) c (.refused s st)
  | take {s a v stage n q x} : (c.queue (stage.kind s)).take? = (q, some x) →
      Does c (.sweep s a v stage n) (c.setQueue (stage.kind s) q)
        (.call (stage.kind s) x (stage.argument v) (.sweep s a v stage (n + 1)))
  | leave {s a v stage n q} {stage' : Stage} : (c.queue (stage.kind s)).take? = (q, none) →
      stage.next? = some stage' →
      Does c (.sweep s a v stage n) (c.setQueue (stage.kind s) q) (.goto (.sweep s a v stage' n))
  | close {s a v stage n q} : (c.queue (stage.kind s)).take? = (q, none) → stage.next? = none →
      Does c (.sweep s a v stage n) (c.setQueue (stage.kind s) q) (.goto (.report s a n))
  | report {s a n} : Does c (.report s a n) c (.notice (.logged (.drained n s)) (.finish a))
  | finish {a} : Does c (.finish a) c (.done a)

theorem step_does (c : Completion α ι) (p : Point α ι) : Does c p (c.step p).1 (c.step p).2 := by
  cases p with
  | commit o drains here =>
    cases here with
    | look =>
      cases hs : c.cell.state with
      | pending => simpa [step, Cell.commitStep, hs] using Does.look hs
      | committing | settled _ =>
        simpa [step, Cell.commitStep, hs] using Does.lookLate (c := c) (by simp [hs])
    | claim =>
      cases hs : c.cell.state with
      | pending => simpa [step, Cell.commitStep, hs] using Does.claim hs
      | committing | settled _ =>
        simpa [step, Cell.commitStep, hs] using Does.claimLate (c := c) (by simp [hs])
    | store => exact .store
    | publish => exact .publish
  | announce s => exact .announce
  | append k x => exact .append
  | consult k =>
    cases hs : c.cell.state with
    | pending | committing =>
      have does : Does c (.consult k) c (.done .unit) := .consultEarly (by simp [hs])
      cases k <;> simpa [step, hs] using does
    | settled s =>
      cases k with
      | on s' =>
        by_cases h : s = s'
        · subst h
          simpa [step, hs] using Does.consultMatching hs
        · have other : s' = s.other := by cases s <;> cases s' <;> simp_all [Side.other]
          simpa [step, hs, h] using
            Does.consultEarly (c := c) (k := .on s') (by simp [hs, other])
      | always => simpa [step, hs] using Does.consultOther hs (.inl rfl)
      | waker => simpa [step, hs] using Does.consultOther hs (.inr rfl)
  | check s a =>
    by_cases h : c.cell.state = .settled s
    · simpa [step, Cell.isOn, h] using Does.check h
    · simpa [step, Cell.isOn, h] using Does.checkOff (a := a) h
  | fetch s a =>
    cases h : c.cell.demand s with
    | ok v => simpa [step, h] using Does.fetch h
    | error st => simpa [step, h] using Does.refuse h
  | sweep s a v stage n =>
    rcases h : (c.queue (stage.kind s)).take? with ⟨q, x⟩
    cases x with
    | some x => simpa only [step, h] using Does.take h
    | none =>
      cases hn : stage.next? with
      | some stage' => simpa only [step, h, hn] using Does.leave h hn
      | none => simpa only [step, h, hn] using Does.close h hn
  | report s a n => exact .report
  | finish a => exact .finish

/-! ## The queues -/

/-- A completion on none of whose queues an operation is under way. -/
def AtRest (c : Completion α ι) : Prop := ∀ k, (c.queue k).AtRest

theorem AtRest.empty : ({} : Completion α ι).AtRest := by
  rintro ((_ | _) | _ | _) <;> exact Queue.AtRest.empty

theorem AtRest.setQueue {c : Completion α ι} (h : c.AtRest) {k : Kind} {q : Queue ι}
    (hq : q.AtRest) : (c.setQueue k q).AtRest := by
  intro k'
  by_cases hk : k' = k
  · subst hk
    rwa [queue_setQueue_self]
  · rw [queue_setQueue_of_ne c hk]
    exact h k'

theorem waiting_setQueue (c : Completion α ι) (k k' : Kind) (q : Queue ι) :
    (c.setQueue k q).waiting k' = if k = k' then q.toList else c.waiting k' := by
  unfold waiting
  split
  next h => rw [← h, queue_setQueue_self]
  next h => rw [queue_setQueue_of_ne c fun e => h e.symm]

section Effects

variable {c c' : Completion α ι} {p : Point α ι} {a : Action α ι (Point α ι) (Answer α)}

/-- A take from a queue at rest that finds something has taken the first item. -/
theorem AtRest.take?_some (h : c.AtRest) {k : Kind} {q : Queue ι} {x : ι}
    (ht : (c.queue k).take? = (q, some x)) : q.AtRest ∧ c.waiting k = x :: q.toList := by
  have rest := (h k).take?
  have first := Queue.take?_snd (h k)
  have others := Queue.toList_take? (h k)
  rw [ht] at rest first others
  refine ⟨rest, ?_⟩
  unfold waiting
  cases hl : (c.queue k).toList with
  | nil => simp [hl] at first
  | cons y ys =>
    rw [hl] at first others
    obtain rfl : x = y := Option.some.inj first
    rw [show q.toList = ys from others]

/-- A take from a queue at rest that finds nothing has found it empty. -/
theorem AtRest.take?_none (h : c.AtRest) {k : Kind} {q : Queue ι}
    (ht : (c.queue k).take? = (q, none)) :
    q.AtRest ∧ c.waiting k = [] ∧ q.toList = [] := by
  have rest := (h k).take?
  have first := Queue.take?_snd (h k)
  have others := Queue.toList_take? (h k)
  rw [ht] at rest first others
  have nil : (c.queue k).toList = [] := List.head?_eq_none_iff.1 first.symm
  exact ⟨rest, nil, by simpa [nil] using others⟩

theorem Does.atRest (does : Does c p c' a) (h : c.AtRest) : c'.AtRest := by
  cases does with
  | append => exact h.setQueue ((h _).append _)
  | take ht => exact h.setQueue (h.take?_some ht).1
  | leave ht | close ht => exact h.setQueue (h.take?_none ht).1
  | _ => exact h

/-- A step takes what it calls from the front and puts what it registers at the back. -/
theorem Does.waiting_eq (does : Does c p c' a) (h : c.AtRest) (k : Kind) :
    a.called k ++ c'.waiting k = c.waiting k ++ a.registered k := by
  cases does with
  | @append k' x =>
    rw [waiting_setQueue]
    by_cases hk : k' = k
    · subst hk
      simp [Action.called, Action.registered, Queue.toList_append (h k'), waiting]
    · simp [Action.called, Action.registered, hk]
  | @take s _ _ stage _ q x ht =>
    rw [waiting_setQueue]
    by_cases hk : stage.kind s = k
    · subst hk
      simp [Action.called, Action.registered, (h.take?_some ht).2]
    · simp [Action.called, Action.registered, hk]
  | @leave s _ _ stage _ q _ ht | @close s _ _ stage _ q ht =>
    rw [waiting_setQueue]
    by_cases hk : stage.kind s = k
    · subst hk
      simp [Action.called, Action.registered, (h.take?_none ht).2]
    · simp [Action.called, Action.registered, hk]
  | _ => simp [Action.called, Action.registered, waiting, queue]

end Effects

/-! ## The cell -/

/-- A commit has claimed the cell and not yet published its outcome. -/
def Point.Claims : Point α ι → Prop
  | .commit _ _ .store | .commit _ _ .publish => True
  | _ => False

/-- A drain calls items. -/
def Point.Sweeps : Point α ι → Prop
  | .sweep _ _ _ _ _ => True
  | _ => False

theorem Point.Sweeps.not_claims {p : Point α ι} (h : p.Sweeps) : ¬ p.Claims := by
  cases p with
  | sweep => exact not_false
  | _ => exact h.elim

/-- What the code has seen or made of the cell on its way to the point. -/
def Point.Fits (cell : Cell α) : Point α ι → Prop
  | .commit _ _ .store => cell.state = .committing
  | .commit o _ .publish => cell.state = .committing ∧ cell.stored = some o
  | .announce s | .fetch s _ | .report s _ _ => cell.state = .settled s
  | .sweep s _ v _ _ => cell.state = .settled s ∧ cell.stored = some ⟨s, v⟩
  | _ => True

theorem Call.start_fits (call : Call α ι) (cell : Cell α) : call.start.Fits cell := by
  cases call <;> trivial

theorem Call.not_claims_start (call : Call α ι) : ¬ call.start.Claims := by
  cases call <;> exact not_false

theorem Point.Fits.committing {cell : Cell α} {p : Point α ι} (h : p.Fits cell)
    (claims : p.Claims) : cell.state = .committing := by
  cases p with
  | commit o drains here =>
    cases here with
    | look | claim => exact claims.elim
    | store => exact h
    | publish => exact h.1
  | _ => exact claims.elim

/-- While the cell is not settled, only a commit that has claimed it has learnt
anything that could become untrue. -/
theorem Point.Fits.of_unsettled {cell : Cell α} {p : Point α ι} (h : p.Fits cell)
    (claims : ¬ p.Claims) (unsettled : ∀ s, cell.state ≠ .settled s) (cell' : Cell α) :
    p.Fits cell' := by
  cases p with
  | commit o drains here =>
    cases here with
    | look | claim => trivial
    | store | publish => exact absurd trivial claims
  | announce s | fetch s a | report s a n => exact absurd h (unsettled s)
  | sweep s a v stage n => exact absurd h.1 (unsettled s)
  | append | consult | check | finish => trivial

section Effects

variable {c c' : Completion α ι} {p q : Point α ι} {a : Action α ι (Point α ι) (Answer α)}

/-- A settled cell stays as it is. -/
theorem Does.cell_eq (does : Does c p c' a) (fits : p.Fits c.cell) {s : Side}
    (hs : c.cell.state = .settled s) : c'.cell = c.cell := by
  cases does with
  | claim h => simp [hs] at h
  | store => simp [Point.Fits, hs] at fits
  | publish => simp [Point.Fits, hs] at fits
  | append | take _ | leave _ _ | close _ _ => exact cell_setQueue ..
  | _ => rfl

/-- A cell that is pending after a step is as it was. -/
theorem Does.cell_eq_of_pending (does : Does c p c' a) (fits : p.Fits c.cell)
    (h : c'.cell.state = .pending) : c'.cell = c.cell := by
  cases does with
  | claim | publish => cases h
  | store =>
    have state : c.cell.state = .committing := fits
    cases state.symm.trans h
  | append | take _ | leave _ _ | close _ _ => exact cell_setQueue ..
  | _ => rfl

/-- A reader finds an outcome from the step on that gives notice of it. -/
theorem Does.result_eq (does : Does c p c' a) (fits : p.Fits c.cell) :
    c'.cell.result.toList = c.cell.result.toList ++ a.settled := by
  cases does with
  | claim h =>
    have before : c.cell.result = none := Cell.result_of_unsettled (by simp [h])
    rw [before, Cell.result_of_unsettled (by simp)]
    rfl
  | store =>
    have state : c.cell.state = .committing := fits
    have before : c.cell.result = none := Cell.result_of_unsettled (by simp [state])
    rw [before, Cell.result_of_unsettled (by simp [state])]
    rfl
  | @publish o drains =>
    have before : c.cell.result = none := Cell.result_of_unsettled (by simp [fits.1])
    have after := Cell.result_of_settled
      (show ({ c.cell with state := .settled o.side } : Cell α).state = .settled o.side from rfl)
    rw [before, after]
    exact congrArg Option.toList fits.2
  | append | take _ | leave _ _ | close _ _ =>
    rw [cell_setQueue]
    exact (List.append_nil _).symm
  | _ => exact (List.append_nil _).symm

theorem Does.sound (does : Does c p c' a) (fits : p.Fits c.cell) (h : c.cell.Sound) :
    c'.cell.Sound := by
  cases does with
  | claim => exact nofun
  | store =>
    have state : c.cell.state = .committing := fits
    intro s hs
    simp [state] at hs
  | @publish o drains =>
    intro s hs
    obtain rfl : o.side = s := by simpa using hs
    exact ⟨o.value, fits.2⟩
  | append | take _ | leave _ _ | close _ _ => rwa [cell_setQueue]
  | _ => exact h

/-- The point to which a step leads fits the cell that it leaves behind. -/
theorem Does.fits (does : Does c p c' a) (fits : p.Fits c.cell) (h : c.cell.Sound)
    {p' : Point α ι} (hp : a.next? = some p') : p'.Fits c'.cell := by
  cases does with
  | store =>
    cases hp
    exact ⟨fits, rfl⟩
  | @publish o drains =>
    cases hp
    cases drains with
    | true => exact rfl
    | false => trivial
  | check hs =>
    cases hp
    exact hs
  | @fetch s _ v hv =>
    cases hp
    obtain ⟨v', hv', demand⟩ := h.demand_eq fits
    obtain rfl : v' = v := Except.ok.inj (demand.symm.trans hv)
    exact ⟨fits, hv'⟩
  | take | leave =>
    cases hp
    rw [cell_setQueue]
    exact fits
  | close =>
    cases hp
    rw [cell_setQueue]
    exact fits.1
  | report | claim =>
    cases hp
    trivial
  | refuse | checkOff | finish | consultEarly | lookLate | claimLate => cases hp
  | _ =>
    cases hp
    trivial

/-- A step spoils the point of another thread only if both have claimed the cell. -/
theorem Point.Fits.spared (hq : q.Fits c.cell) (does : Does c p c' a) (fits : p.Fits c.cell)
    (apart : ¬ (p.Claims ∧ q.Claims)) : q.Fits c'.cell := by
  cases does with
  | claim h =>
    refine hq.of_unsettled (fun claims => ?_) (by simp [h]) _
    simp [hq.committing claims] at h
  | store =>
    have state : c.cell.state = .committing := fits
    exact hq.of_unsettled (fun claims => apart ⟨trivial, claims⟩) (by simp [state]) _
  | publish => exact hq.of_unsettled (fun claims => apart ⟨trivial, claims⟩) (by simp [fits.1]) _
  | append | take _ | leave _ _ | close _ _ => rwa [cell_setQueue]
  | _ => exact hq

/-- A commit claims a pending cell only. -/
theorem Does.claims (does : Does c p c' a) {p' : Point α ι} (hp : a.next? = some p')
    (claims : p'.Claims) : p.Claims ∨ c.cell.state = .pending := by
  cases does with
  | claim h => exact .inr h
  | store => exact .inl trivial
  | publish => exact .inl trivial
  | lookLate | claimLate | checkOff | refuse | finish | consultEarly => cases hp
  | _ =>
    cases hp
    exact claims.elim

/-- A demand that follows a look which found the side there is not refused. -/
theorem Does.not_refused (does : Does c p c' a) (fits : p.Fits c.cell) (h : c.cell.Sound)
    (s : Side) (st : Cell.State) : a ≠ .refused s st := by
  rintro rfl
  cases does with
  | refuse hst =>
    obtain ⟨v, -, demand⟩ := h.demand_eq fits
    cases demand.symm.trans hst

/-- Whatever is called is called by a drain, which has seen the cell settle on a side
and calls only what waits for that side or for either. -/
theorem Does.of_call {k : Kind} {x : ι} {arg : Option α} {p' : Point α ι}
    (does : Does c p c' (.call k x arg p')) (fits : p.Fits c.cell) :
    ∃ s, c.cell.state = .settled s ∧ k ≠ .on s.other ∧ p'.Sweeps := by
  cases does with
  | @take s _ v stage n q x ht =>
    refine ⟨s, fits.1, ?_, trivial⟩
    cases stage <;> simp [Stage.kind, (Side.other_ne s).symm]

/-- Whatever is called is given what its kind is given of the outcome that readers find. -/
theorem Does.of_argument {k : Kind} {x : ι} {arg : Option α} {p' : Point α ι}
    (does : Does c p c' (.call k x arg p')) (fits : p.Fits c.cell) :
    ∃ o, c.cell.result = some o ∧ k ≠ .on o.side.other ∧ arg = k.argument o.value := by
  obtain ⟨s, hs, hk, -⟩ := does.of_call fits
  cases does with
  | @take _ _ v stage =>
    obtain rfl := Cell.State.settled.inj (hs.symm.trans fits.1)
    refine ⟨⟨s, v⟩, (Cell.result_of_settled hs).trans fits.2, hk, ?_⟩
    cases stage <;> rfl

end Effects

/-! ## Which call a point belongs to -/

/-- A commit belongs to the call that commits that outcome, and drains if the call is
to complete; an append belongs to the call that registers that item, and the look that
follows it to a call that registers an item of that kind. -/
def Point.Serves : Point α ι → Call α ι → Prop
  | .commit o drains _, .tryCommit o' => o = o' ∧ drains = false
  | .commit o drains _, .complete o' => o = o' ∧ drains = true
  | .append k x, .register k' x' => k = k' ∧ x = x'
  | .consult k, .register k' _ => k = k'
  | .commit _ _ _, _ | .append _ _, _ | .consult _, _ => False
  | _, _ => True

theorem Call.start_serves (call : Call α ι) : call.start.Serves call := by
  cases call with
  | tryCommit o => exact ⟨rfl, rfl⟩
  | complete o => exact ⟨rfl, rfl⟩
  | register k x => exact ⟨rfl, rfl⟩
  | drain s => trivial

/-- A point of a commit. -/
def Point.Commits (p : Point α ι) : Prop := ∃ o drains here, p = .commit o drains here

section Effects

variable {c c' : Completion α ι} {p p' : Point α ι} {a : Action α ι (Point α ι) (Answer α)}

theorem Does.serves (does : Does c p c' a) {call : Call α ι} (h : p.Serves call)
    (hp : a.next? = some p') : p'.Serves call := by
  cases does with
  | look | claim | store =>
    cases hp
    cases call <;> exact h
  | @publish o drains =>
    cases hp
    cases drains <;> cases call <;> trivial
  | append =>
    cases hp
    cases call with
    | register k x => exact h.1
    | tryCommit o | complete o | drain s => exact h.elim
  | lookLate | claimLate | checkOff | refuse | finish | consultEarly => cases hp
  | _ =>
    cases hp
    cases call <;> trivial

/-- Only an append registers. -/
theorem Does.of_registered (does : Does c p c' a) {k : Kind} {x : ι}
    (h : x ∈ a.registered k) : p = .append k x := by
  cases does with
  | @append k' x' =>
    by_cases hk : k' = k
    · subst hk
      obtain rfl : x = x' := by simpa [Action.registered] using h
      rfl
    · simp [Action.registered, hk] at h
  | _ => simp [Action.registered] at h

/-- A cell that is no longer pending does not become so again. -/
theorem Does.not_pending (does : Does c p c' a) (h : c.cell.state ≠ .pending) :
    c'.cell.state ≠ .pending := by
  cases does with
  | claim | publish => exact nofun
  | append | take _ | leave _ _ | close _ _ => rwa [cell_setQueue]
  | _ => exact h

/-- A commit ends when the cell is taken, by itself or by another. -/
theorem Does.of_commits (does : Does c p c' a) (h : p.Commits) :
    (∃ p', a.next? = some p' ∧ p'.Commits) ∨ c'.cell.state ≠ .pending := by
  obtain ⟨o, drains, here, rfl⟩ := h
  cases does with
  | look | claim | store => exact .inl ⟨_, rfl, _, _, _, rfl⟩
  | publish => exact .inr nofun
  | lookLate h | claimLate h => exact .inr h

end Effects

/-! ## What a call registers -/

/-- What a call registers of a kind. -/
def Call.registers (k : Kind) : Call α ι → List ι
  | .register k' x => if k' = k then [x] else []
  | .tryCommit _ | .complete _ | .drain _ => []

/-- What a call at the point is about to register of a kind. -/
def Point.brings (k : Kind) : Point α ι → List ι
  | .append k' x => if k' = k then [x] else []
  | _ => []

theorem Call.brings_start (call : Call α ι) (k : Kind) :
    call.start.brings k = call.registers k := by cases call <;> rfl

section Effects

variable {c c' : Completion α ι} {p p' : Point α ι} {a : Action α ι (Point α ι) (Answer α)}

/-- What a call is about to register it gives notice of at once. -/
theorem Does.brings (does : Does c p c' a) (k : Kind) : a.registered k = p.brings k := by
  cases does <;> rfl

/-- A call registers with its first step at most. -/
theorem Does.brings_next (does : Does c p c' a) (next : a.next? = some p') (k : Kind) :
    p'.brings k = [] := by
  cases does with
  | @publish o drains =>
    cases next
    cases drains <;> rfl
  | lookLate | claimLate | consultEarly | checkOff | refuse | finish => cases next
  | _ =>
    cases next
    rfl

end Effects

/-! ## What a call offers -/

/-- The outcome that a commit at the point has offered and neither won nor lost with yet. -/
def Point.offers : Point α ι → List (Outcome α)
  | .commit o _ _ => [o]
  | _ => []

/-- What an answer gives back. -/
def Answer.returned : Answer α → List (Outcome α)
  | .lost o => [o]
  | .unit | .won => []

/-- A point does not carry the answer of a commit that lost: such a commit answers at once. -/
def Point.Candid : Point α ι → Prop
  | .check _ a | .fetch _ a | .sweep _ a _ _ _ | .report _ a _ | .finish a => a.returned = []
  | .commit _ _ _ | .announce _ | .append _ _ | .consult _ => True

theorem Call.start_candid (call : Call α ι) : call.start.Candid := by
  cases call with
  | drain s => rfl
  | _ => trivial

section Effects

variable {c c' : Completion α ι} {p p' : Point α ι} {a : Action α ι (Point α ι) (Answer α)}

theorem Does.candid (does : Does c p c' a) (candid : p.Candid) (next : a.next? = some p') :
    p'.Candid := by
  cases does with
  | @publish o drains =>
    cases next
    cases drains with
    | true => trivial
    | false => rfl
  | announce | consultMatching | consultOther =>
    cases next
    rfl
  | check | fetch | take | leave | close | report =>
    cases next
    exact candid
  | look | claim | store | append =>
    cases next
    trivial
  | lookLate | claimLate | consultEarly | checkOff | refuse | finish => cases next

/-- A commit goes on offering its outcome until it settles the cell with it or gives it
back. -/
theorem Does.offers_eq (does : Does c p c' a) (candid : p.Candid) :
    p.offers
      = a.settled ++ a.answer?.elim [] Answer.returned ++ a.onward?.elim [] Point.offers := by
  cases does with
  | @publish o drains => cases drains <;> rfl
  | @checkOff _ answer | @finish answer =>
    have nothing : answer.returned = [] := candid
    simp [Point.offers, Action.settled, Action.answer?, Action.onward?, nothing]
  | _ => rfl

/-- Nothing is offered after the first point of a call. -/
theorem Does.offers_next (does : Does c p c' a) (nothing : p.offers = [])
    (next : a.next? = some p') : p'.offers = [] := by
  cases does with
  | look | claim | store | publish => cases nothing
  | lookLate | claimLate | consultEarly | checkOff | refuse | finish => cases next
  | _ =>
    cases next
    rfl

end Effects

/-! ## Who empties which queue -/

/-- The kinds whose queues a drain empties from a stage on. -/
def Stage.kinds (s : Side) : Stage → List Kind
  | .wakers => [.waker, .on s, .always]
  | .matching => [.on s, .always]
  | .always => [.always]

/-- A call at the point empties the queue of the kind once the cell is settled on the
side, if nobody else does. -/
def Point.Minds (s : Side) (k : Kind) : Point α ι → Prop
  | .announce s' | .check s' _ | .fetch s' _ => s' = s
  | .sweep s' _ _ stage _ => s' = s ∧ k ∈ stage.kinds s
  | .consult k' => k' ≠ .on s.other
  | .commit _ _ _ | .append _ _ | .report _ _ _ | .finish _ => False

theorem Stage.mem_kinds_wakers {s : Side} {k : Kind} (hk : k ≠ .on s.other) :
    k ∈ Stage.wakers.kinds s := by
  cases k with
  | on s' => cases s <;> cases s' <;> simp_all [Stage.kinds, Side.other]
  | always | waker => simp [Stage.kinds]

/-- What a stage and those after it empty is what the stage empties and what those do. -/
theorem Stage.mem_kinds {s : Side} {k : Kind} {stage : Stage} (h : k ∈ stage.kinds s) :
    k = stage.kind s ∨ ∃ stage', stage.next? = some stage' ∧ k ∈ stage'.kinds s := by
  cases stage with
  | wakers =>
    rcases List.mem_cons.1 h with rfl | later
    · exact .inl rfl
    · exact .inr ⟨_, rfl, later⟩
  | matching =>
    rcases List.mem_cons.1 h with rfl | later
    · exact .inl rfl
    · exact .inr ⟨_, rfl, later⟩
  | always => exact .inl (List.mem_singleton.1 h)

section Effects

variable {c c' : Completion α ι} {p : Point α ι} {a : Action α ι (Point α ι) (Answer α)}
  {s : Side} {k : Kind}

/-- A drain that has reached the end of a queue goes on to those after it. -/
theorem Does.minds (does : Does c p c' a) (rest : c.AtRest) (cell : c.cell.Sound)
    (fits : p.Fits c.cell) (settled : c.cell.state = .settled s) (hk : k ≠ .on s.other)
    (waits : c'.waiting k ≠ []) (minds : p.Minds s k) :
    ∃ p', a.next? = some p' ∧ p'.Minds s k := by
  cases does with
  | announce | check => exact ⟨_, rfl, minds⟩
  | consultMatching h | consultOther h _ =>
    exact ⟨_, rfl, Cell.State.settled.inj (h.symm.trans settled)⟩
  | consultEarly h => exact absurd (h s settled) minds
  | checkOff h =>
    obtain rfl : _ = s := minds
    exact absurd settled h
  | fetch =>
    obtain rfl : _ = s := minds
    exact ⟨_, rfl, rfl, Stage.mem_kinds_wakers hk⟩
  | refuse h =>
    obtain rfl : _ = s := minds
    obtain ⟨v, -, demand⟩ := cell.demand_eq settled
    cases demand.symm.trans h
  | take => exact ⟨_, rfl, minds⟩
  | leave ht hnext =>
    obtain ⟨rfl, hmem⟩ := minds
    rcases Stage.mem_kinds hmem with rfl | ⟨stage'', hnext', later⟩
    · rw [waiting_setQueue, if_pos rfl] at waits
      exact absurd (rest.take?_none ht).2.2 waits
    · obtain rfl := Option.some.inj (hnext.symm.trans hnext')
      exact ⟨_, rfl, rfl, later⟩
  | close ht hnext =>
    obtain ⟨rfl, hmem⟩ := minds
    rcases Stage.mem_kinds hmem with rfl | ⟨stage'', hnext', -⟩
    · rw [waiting_setQueue, if_pos rfl] at waits
      exact absurd (rest.take?_none ht).2.2 waits
    · cases hnext.symm.trans hnext'
  | look | lookLate | claim | claimLate | store | publish | append | report | finish =>
    exact minds.elim

/-- Whoever settles the cell, or appends to a queue, minds what waits there. -/
theorem Does.attends (does : Does c p c' a) (rest : c.AtRest)
    (drains : ∀ o d here, p = .commit o d here → d = true)
    (settled : c'.cell.state = .settled s) (hk : k ≠ .on s.other) (waits : c'.waiting k ≠ []) :
    (∃ p', a.next? = some p' ∧ p'.Minds s k) ∨
      (c.cell.state = .settled s ∧ c.waiting k ≠ []) := by
  have waited : a.registered k = [] → c.waiting k ≠ [] := by
    intro hnone
    have queue := does.waiting_eq rest k
    rw [hnone, List.append_nil] at queue
    rw [← queue]
    exact fun h => waits (List.append_eq_nil_iff.1 h).2
  cases does with
  | @publish o d =>
    obtain rfl := drains _ _ _ rfl
    exact .inl ⟨_, rfl, Cell.State.settled.inj settled⟩
  | @append k' x =>
    by_cases hkk : k' = k
    · subst hkk
      exact .inl ⟨_, rfl, hk⟩
    · rw [cell_setQueue] at settled
      exact .inr ⟨settled, waited (if_neg hkk)⟩
  | claim => cases settled
  | take | leave | close =>
    rw [cell_setQueue] at settled
    exact .inr ⟨settled, waited rfl⟩
  | _ => exact .inr ⟨settled, waited rfl⟩

/-- While the cell is being committed somebody is about to publish. -/
theorem Does.committing (does : Does c p c' a) (h : c'.cell.state = .committing) :
    (∃ p', a.next? = some p' ∧ p'.Claims) ∨ (c.cell.state = .committing ∧ ¬ p.Claims) := by
  cases does with
  | claim | store => exact .inl ⟨_, rfl, trivial⟩
  | publish => cases h
  | append | take | leave | close =>
    rw [cell_setQueue] at h
    exact .inr ⟨h, not_false⟩
  | _ => exact .inr ⟨h, not_false⟩

end Effects

end Completion

end Eventual
