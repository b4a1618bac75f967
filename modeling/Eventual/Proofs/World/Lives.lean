import Eventual.Proofs.World.Changes

/-!
# The lives of cells and completions

Seen from one cell or completion a run is a life. The thing comes into being, is committed
to or called upon, and dies; each of these is a `Turn`, and a turn is all that any change
of the world can be for the thing. While it lives its story keeps a `Ledger`: what was
called of a kind and what still waits is what was registered; every outcome on offer has
settled the thing or was lost, but for the one of a commit that is going on; and readers
find the outcome that settled it. When it dies the ledger is closed, and what the thing
lets go of is what the ledger has open.

Besides, nothing in a story is without `Warrant`: an item is called with the value of an
outcome that has settled the completion before, a reader is given a copy of such an
outcome, and an outcome that settles the thing was offered.
-/

namespace Eventual

namespace Event

/-- What an event says was called of a kind. -/
def calls (k : Kind) : Event → List Item
  | .started _ k' x _ => if k' = k then [x] else []
  | _ => []

/-- What an event says was registered of a kind. -/
def registers (k : Kind) : Event → List Item
  | .registered _ k' x => if k' = k then [x] else []
  | _ => []

/-- The outcome that an event says was offered. -/
def offers : Event → List (Outcome Value)
  | .offered _ o => [o]
  | _ => []

/-- The outcome that an event says has settled a thing. -/
def settles : Event → List (Outcome Value)
  | .settled _ o => [o]
  | _ => []

/-- The outcome that an event says has settled a thing, or was lost and dropped. -/
def resolves : Event → List (Outcome Value)
  | .settled _ o | .lost _ o => [o]
  | _ => []

/-- An event is a death. -/
def Buries : Event → Prop
  | .buried _ _ _ => True
  | _ => False

/-- What happened before an event accounts for the value it passes on. -/
def Warranted (before : List Event) : Event → Prop
  | .started c k _ arg => ∃ o, .settled (.completion c) o ∈ before ∧ k ≠ .on o.side.other ∧
      arg = k.argument o.value
  | .copied c o => .settled (.completion c) o ∈ before
  | .settled e o => .offered e o ∈ before
  | _ => True

theorem Warranted.mono {before before' : List Event} {ev : Event} (h : ev.Warranted before)
    (sub : ∀ ev' ∈ before, ev' ∈ before') : ev.Warranted before' := by
  cases ev with
  | started c k x arg =>
    obtain ⟨o, settled, rest⟩ := h
    exact ⟨o, sub _ settled, rest⟩
  | copied c o => exact sub _ h
  | settled e o => exact sub _ h
  | _ => trivial

end Event

/-- Every event of a story is warranted by those before it. -/
def Warranted (story : List Event) : Prop :=
  ∀ before ev after, story = before ++ ev :: after → ev.Warranted before

theorem Warranted.append {story : List Event} {ev : Event} (h : Warranted story)
    (last : ev.Warranted story) : Warranted (story ++ [ev]) := by
  intro before ev' after split
  obtain rfl | ⟨after', y, rfl⟩ := List.eq_nil_or_concat after
  · obtain ⟨rfl, same⟩ := List.append_inj' split rfl
    obtain rfl : ev = ev' := by simpa using same
    exact last
  · have longer : story ++ [ev] = (before ++ ev' :: after') ++ [y] := by simpa using split
    exact h before ev' after' (List.append_inj' longer rfl).1

/-! ## Ledgers -/

/-- What a story has in common with the thing it is about, while the thing lives. -/
structure Ledger (x : Completion Value Item) (active : Option (Site.Point Value Item WakerId))
    (story : List Event) : Prop where
  atRest : x.AtRest
  sound : x.cell.Sound
  blank : x.cell.state = .pending → x.cell.stored = none
  /-- While the cell is being committed, the call that has claimed it goes on. -/
  committing : x.cell.state = .committing → ∃ p, active = some p ∧ p.Claims
  settled : story.flatMap Event.settles = x.cell.result.toList
  items : ∀ k, story.flatMap (Event.calls k) ++ x.waiting k = story.flatMap (Event.registers k)
  offers : story.flatMap Event.offers
    = story.flatMap Event.resolves ++ active.elim [] Site.Point.offers
  unburied : ∀ ev ∈ story, ¬ ev.Buries

/-- What a thing lets go of at its death is what its story has left open: the value of the
outcome that settled it, and the items that were registered and not called, kind by kind
and each kind in the order of its registrations. -/
structure Settlement (story : List Event) (values : List Value) (items : List Item) : Prop where
  winner : ∃ o : Option (Outcome Value), story.flatMap Event.settles = o.toList
  offers : story.flatMap Event.offers = story.flatMap Event.resolves
  values : values = (story.flatMap Event.settles).map Outcome.value
  items : ∃ left : Kind → List Item,
    (∀ k, story.flatMap (Event.calls k) ++ left k = story.flatMap (Event.registers k)) ∧
    items = left (.on .success) ++ left (.on .failure) ++ left .always ++ left .waker
  unburied : ∀ ev ∈ story, ¬ ev.Buries

/-- The cell that an outcome has settled, or that is still pending. -/
def Cell.holding : Option (Outcome Value) → Cell Value
  | none => {}
  | some o => { state := .settled o.side, stored := some o }

theorem Cell.result_holding (o : Option (Outcome Value)) : (Cell.holding o).result = o := by
  cases o <;> rfl

section Ledgers

variable {x : Completion Value Item} {story : List Event}

/-- Unless a call has claimed it, a cell is pending and empty, or settled and full. -/
theorem Ledger.cell_eq (h : Ledger x none story) : x.cell = .holding x.cell.result := by
  cases hs : x.cell.state with
  | pending =>
    have none : x.cell.result = none := Cell.result_of_unsettled (by simp [hs])
    have blank := h.blank hs
    rw [none]
    rw [show x.cell = ⟨x.cell.state, x.cell.stored⟩ from rfl, hs, blank]
    rfl
  | committing =>
    obtain ⟨p, hp, -⟩ := h.committing hs
    cases hp
  | settled s =>
    obtain ⟨v, hv⟩ := h.sound s hs
    rw [Cell.result_of_settled hs, hv]
    rw [show x.cell = ⟨x.cell.state, x.cell.stored⟩ from rfl, hs, hv]
    rfl

theorem Ledger.settlement (h : Ledger x none story) :
    Settlement story (x.cell.stored.map Outcome.value).toList x.leftover := by
  refine ⟨⟨_, h.settled⟩, ?_, ?_, ⟨x.waiting, h.items, rfl⟩, h.unburied⟩
  · exact h.offers.trans (List.append_nil _)
  · have stored : x.cell.stored = x.cell.result := by
      rw [h.cell_eq, Cell.result_holding]
      cases x.cell.result <;> rfl
    rw [h.settled, stored]
    cases x.cell.result <;> rfl

theorem Ledger.empty : Ledger {} none [] := by
  refine ⟨.empty, nofun, fun _ => rfl, nofun, rfl, ?_, rfl, List.forall_mem_nil _⟩
  rintro ((_ | _) | _ | _) <;> rfl

end Ledgers

/-! ## Turns -/

/-- What goes on record of an action of a call on a completion. -/
def Action.events {π : Type} (c : CompletionId) :
    Action Value Item π (Site.Answer Value) → List Event
  | .notice (.registered k x) _ => [.registered c k x]
  | .notice (.settled o) _ => [.settled (.completion c) o]
  | .call k x arg _ => [.started c k x arg]
  | .done (.direct (.lost o)) => [.lost (.completion c) o]
  | .done (.ready o) => [.copied c o]
  | .notice (.logged _) _ | .done _ | .goto _ | .refused _ _ => []

/-- A cell or a completion at one moment: its place, the point at which the call stands
that goes on with it, and what is on record about it. -/
structure Life where
  place : Option (Option (Completion Value Item))
  active : Option (Site.Point Value Item WakerId) := none
  story : List Event

/-- One turn in the life of a cell or a completion. -/
inductive Turn (e : Entity) : Life → Life → Prop
  | birth {story : List Event} :
      Turn e { place := none, story } { place := some (some {}), story }
  /-- A commit that nobody can interfere with. -/
  | commit {x : Completion Value Item} {o : Outcome Value} {story : List Event} :
      Turn e { place := some (some x), story }
        { place := some (some { x with cell := (x.cell.tryCommit o).1 })
          story := story ++ [.offered e o,
            if (x.cell.tryCommit o).2 then .settled e o else .lost e o] }
  | copy {c : CompletionId} {x : Completion Value Item} {o : Outcome Value}
      {story : List Event} : e = .completion c → x.cell.result = some o →
      Turn e { place := some (some x), story }
        { place := some (some x), story := story ++ [.copied c o] }
  /-- A call goes on, or begins. If it is a commit it makes its offer. -/
  | enter {x : Completion Value Item} {here : Site.Point Value Item WakerId}
      {story : List Event} :
      Turn e { place := some (some x), story }
        { place := some (some x), active := some here,
          story := story ++ here.offers.map (.offered e) }
  | drive {c : CompletionId} {s s' : Site Value Item WakerId}
      {here : Site.Point Value Item WakerId}
      {action : Action Value Item (Site.Point Value Item WakerId) (Site.Answer Value)}
      {story : List Event} : e = .completion c → Site.Does s here s' action →
      here.Fits s.completion.cell → here.Candid →
      Turn e { place := some (some s.completion), active := some here, story }
        { place := some (some s'.completion), active := action.onward?,
          story := story ++ action.events c }
  | death {x : Completion Value Item} {story : List Event} :
      Turn e { place := some (some x), story }
        { place := some none
          story := story ++ [.buried e (x.cell.stored.map Outcome.value).toList x.leftover] }

/-- The events tell what the action does. -/
structure Action.Tells {π : Type} (a : Action Value Item π (Site.Answer Value))
    (c : CompletionId) (events : List Event) : Prop where
  calls : ∀ k, events.flatMap (Event.calls k) = a.called k
  registers : ∀ k, events.flatMap (Event.registers k) = a.registered k
  settles : events.flatMap Event.settles = a.settled
  offers : events.flatMap Event.offers = []
  resolves : events.flatMap Event.resolves
    = a.settled ++ a.answer?.elim [] Site.Answer.returned
  about : ∀ ev ∈ events, ev.subject? = some (.completion c)
  unburied : ∀ ev ∈ events, ¬ ev.Buries

theorem Action.events_tell {π : Type} (a : Action Value Item π (Site.Answer Value))
    (c : CompletionId) : a.Tells c (a.events c) := by
  rcases a with _ | (_ | _ | _) | _ | ((_ | _ | _) | _ | _) | _ <;> constructor <;>
    simp [events, called, registered, settled, answer?, Event.calls, Event.registers,
      Event.settles, Event.offers, Event.resolves, Event.subject?, Event.Buries,
      Site.Answer.returned, Completion.Answer.returned]

/-- What is on record about a thing is in order: it is about the thing, every event has
its warrant, and it agrees with the place of the thing. -/
structure Life.Sound (e : Entity) (l : Life) : Prop where
  about : ∀ ev ∈ l.story, ev.subject? = some e
  warranted : Warranted l.story
  unborn : l.place = none → l.story = []
  living : ∀ x, l.place = some (some x) → Ledger x l.active l.story
  dead : l.place = some none → ∃ before values items,
    l.story = before ++ [.buried e values items] ∧ Settlement before values items

section Turns

variable {e : Entity} {l l' : Life} {x x' : Completion Value Item} {story : List Event}
  {active active' : Option (Site.Point Value Item WakerId)}

/-- A ledger goes on when what is added to the story tells what has changed. -/
theorem Ledger.append (h : Ledger x active story) {events : List Event} (atRest : x'.AtRest)
    (sound : x'.cell.Sound) (blank : x'.cell.state = .pending → x'.cell.stored = none)
    (committing : x'.cell.state = .committing → ∃ p, active' = some p ∧ p.Claims)
    (settled : x'.cell.result.toList = x.cell.result.toList ++ events.flatMap Event.settles)
    (items : ∀ k, events.flatMap (Event.calls k) ++ x'.waiting k
      = x.waiting k ++ events.flatMap (Event.registers k))
    (offers : active.elim [] Site.Point.offers ++ events.flatMap Event.offers
      = events.flatMap Event.resolves ++ active'.elim [] Site.Point.offers)
    (unburied : ∀ ev ∈ events, ¬ ev.Buries) : Ledger x' active' (story ++ events) := by
  refine ⟨atRest, sound, blank, committing, ?_, ?_, ?_, ?_⟩
  · rw [List.flatMap_append, h.settled, settled]
  · intro k
    calc (story ++ events).flatMap (Event.calls k) ++ x'.waiting k
        = story.flatMap (Event.calls k) ++ (events.flatMap (Event.calls k) ++ x'.waiting k) := by
          rw [List.flatMap_append, List.append_assoc]
      _ = story.flatMap (Event.registers k) ++ events.flatMap (Event.registers k) := by
          rw [items, ← List.append_assoc, h.items]
      _ = (story ++ events).flatMap (Event.registers k) := List.flatMap_append.symm
  · calc (story ++ events).flatMap Event.offers
        = story.flatMap Event.resolves
            ++ (active.elim [] Site.Point.offers ++ events.flatMap Event.offers) := by
          rw [List.flatMap_append, h.offers, List.append_assoc]
      _ = (story ++ events).flatMap Event.resolves ++ active'.elim [] Site.Point.offers := by
          rw [offers, List.flatMap_append, List.append_assoc]
  · intro ev hev
    obtain hold | hnew := List.mem_append.1 hev
    · exact h.unburied ev hold
    · exact unburied ev hnew

theorem Ledger.commit (h : Ledger x none story) (e : Entity) (o : Outcome Value) :
    Ledger { x with cell := (x.cell.tryCommit o).1 } none (story ++ [.offered e o,
      if (x.cell.tryCommit o).2 then .settled e o else .lost e o]) := by
  have waiting : ∀ (cell : Cell Value) k, ({ x with cell }).waiting k = x.waiting k :=
    fun _ _ => rfl
  by_cases pending : x.cell.state = .pending
  · have unsettled : x.cell.result = none := Cell.result_of_unsettled (by simp [pending])
    rw [Cell.tryCommit_of_pending pending]
    refine h.append h.atRest ?_ nofun nofun ?_ ?_ ?_ ?_
    · intro s hs
      obtain rfl : o.side = s := by simpa using hs
      exact ⟨o.value, rfl⟩
    · rw [unsettled]
      rfl
    · intro k
      simp [waiting, Event.calls, Event.registers]
    · rfl
    · simp [Event.Buries]
  · rw [Cell.tryCommit_of_ne_pending pending]
    refine h.append h.atRest h.sound h.blank h.committing ?_ ?_ ?_ ?_
    · exact (List.append_nil _).symm
    · intro k
      simp [Event.calls, Event.registers]
    · rfl
    · simp [Event.Buries]

/-- Whoever begins a commit makes its offer. -/
theorem Ledger.enter (h : Ledger x none story) (e : Entity)
    (here : Site.Point Value Item WakerId) :
    Ledger x (some here) (story ++ here.offers.map (.offered e)) := by
  refine h.append h.atRest h.sound h.blank ?_ ?_ ?_ ?_ ?_
  · intro committing
    obtain ⟨p, hp, -⟩ := h.committing committing
    cases hp
  · simp [List.flatMap_map, Event.settles]
  · intro k
    have nothing : here.offers.flatMap (fun _ => ([] : List Item)) = [] :=
      List.flatMap_eq_nil_iff.2 fun _ _ => rfl
    simp [List.flatMap_map, Event.calls, Event.registers, nothing]
  · simp [List.flatMap_map, Event.offers, Event.resolves]
  · intro ev hev
    obtain ⟨o, -, rfl⟩ := List.mem_map.1 hev
    exact not_false

/-- A step of a call keeps the ledger. -/
theorem Ledger.drive {c : CompletionId} {s s' : Site Value Item WakerId}
    {here : Site.Point Value Item WakerId}
    {action : Action Value Item (Site.Point Value Item WakerId) (Site.Answer Value)}
    (h : Ledger s.completion (some here) story) (does : Site.Does s here s' action)
    (fits : here.Fits s.completion.cell) (candid : here.Candid) :
    Ledger s'.completion action.onward? (story ++ action.events c) := by
  have tells := action.events_tell c
  refine h.append (does.atRest h.atRest) (does.sound fits h.sound) ?_ ?_ ?_ ?_ ?_ tells.unburied
  · intro pending
    have same := does.cell_eq_of_pending fits pending
    rw [same] at pending ⊢
    exact h.blank pending
  · intro committing
    obtain ⟨p, next, claims⟩ | ⟨before, unclaimed⟩ := does.committing committing
    · cases action with
      | goto _ | notice _ _ => exact ⟨p, next, claims⟩
      | call =>
        obtain ⟨-, -, -, sweeps⟩ := does.of_call fits
        obtain rfl := Option.some.inj next
        exact absurd claims sweeps.not_claims
      | done _ | refused _ _ => cases next
    · -- The call that has claimed the cell is the one that goes on.
      obtain ⟨p, same, claims⟩ := h.committing before
      obtain rfl := Option.some.inj same
      exact absurd claims unclaimed
  · rw [tells.settles, does.result_eq fits]
  · intro k
    rw [tells.calls, tells.registers, does.waiting_eq h.atRest]
  · rw [tells.offers, tells.resolves, List.append_nil]
    exact does.offers_eq candid

theorem mem_of_settles (about : ∀ ev ∈ story, ev.subject? = some e) {o : Outcome Value}
    (h : o ∈ story.flatMap Event.settles) : .settled e o ∈ story := by
  obtain ⟨ev, hev, ho⟩ := List.mem_flatMap.1 h
  cases ev with
  | settled e' o' =>
    obtain rfl := List.mem_singleton.1 ho
    obtain rfl := Option.some.inj (about _ hev)
    exact hev
  | _ => cases ho

theorem mem_of_offers (about : ∀ ev ∈ story, ev.subject? = some e) {o : Outcome Value}
    (h : o ∈ story.flatMap Event.offers) : .offered e o ∈ story := by
  obtain ⟨ev, hev, ho⟩ := List.mem_flatMap.1 h
  cases ev with
  | offered e' o' =>
    obtain rfl := List.mem_singleton.1 ho
    obtain rfl := Option.some.inj (about _ hev)
    exact hev
  | _ => cases ho

/-- The outcome that a reader of a living thing finds has settled it. -/
theorem Ledger.mem_settled (h : Ledger x active story)
    (about : ∀ ev ∈ story, ev.subject? = some e) {o : Outcome Value}
    (ho : x.cell.result = some o) : .settled e o ∈ story := by
  apply mem_of_settles about
  rw [h.settled, ho]
  exact List.mem_singleton_self o

theorem Warranted.append_offered (h : Warranted story) (e : Entity) (os : List (Outcome Value)) :
    Warranted (story ++ os.map (.offered e)) := by
  induction os generalizing story with
  | nil => rwa [List.map_nil, List.append_nil]
  | cons o os ih =>
    rw [List.map_cons, List.append_cons]
    exact ih (h.append trivial)

/-- What a step of a call says has its warrant in what it finds. -/
theorem Warranted.drive {c : CompletionId} {s s' : Site Value Item WakerId}
    {here : Site.Point Value Item WakerId}
    {action : Action Value Item (Site.Point Value Item WakerId) (Site.Answer Value)}
    (h : Warranted story) (about : ∀ ev ∈ story, ev.subject? = some (.completion c))
    (ledger : Ledger s.completion (some here) story) (does : Site.Does s here s' action)
    (fits : here.Fits s.completion.cell) (candid : here.Candid) :
    Warranted (story ++ action.events c) := by
  have nothing : Warranted (story ++ []) := by rwa [List.append_nil]
  cases action with
  | goto _ | refused _ _ => exact nothing
  | notice n p =>
    cases n with
    | registered k x => exact h.append trivial
    | logged r => exact nothing
    | settled o =>
      have offers := ledger.offers
      simp only [Option.elim_some, does.offers_eq candid, Action.settled] at offers
      exact h.append (mem_of_offers about (by simp [offers]))
  | call k x arg p =>
    obtain ⟨o, ho, hk, harg⟩ := does.of_argument fits
    exact h.append ⟨o, ledger.mem_settled about ho, hk, harg⟩
  | done a =>
    cases a with
    | direct a =>
      cases a with
      | lost o => exact h.append trivial
      | unit | won => exact nothing
    | ready o => exact h.append (ledger.mem_settled about does.of_ready.2)
    | pending => exact nothing

theorem Life.Sound.of_ledger {events : List Event} (old : ∀ ev ∈ story, ev.subject? = some e)
    (new : ∀ ev ∈ events, ev.subject? = some e) (warranted : Warranted (story ++ events))
    (ledger : Ledger x active (story ++ events)) :
    Life.Sound e { place := some (some x), active, story := story ++ events } := by
  refine ⟨?_, warranted, nofun, ?_, nofun⟩
  · exact List.forall_mem_append.2 ⟨old, new⟩
  · intro y hy
    obtain rfl : x = y := by simpa using hy
    exact ledger

theorem Life.Sound.unborn_place (e : Entity) : Life.Sound e { place := none, story := [] } := by
  refine ⟨List.forall_mem_nil _, ?_, fun _ => rfl, ?_, nofun⟩
  · intro before ev after split
    exact absurd split.symm (by simp)
  · intro x hx
    cases hx

/-- Every turn leaves a story in order. -/
theorem Turn.sound (turn : Turn e l l') (h : l.Sound e) : l'.Sound e := by
  cases turn with
  | birth =>
    obtain rfl := h.unborn rfl
    exact .of_ledger h.about h.about h.warranted .empty
  | @commit x o story =>
    have ledger := h.living x rfl
    refine .of_ledger h.about ?_ ?_ (ledger.commit e o)
    · intro ev hev
      obtain rfl | rfl : ev = _ ∨ ev = _ := by simpa using hev
      · rfl
      · split <;> rfl
    · have offered : Warranted (story ++ [Event.offered e o]) := h.warranted.append trivial
      rw [List.append_cons]
      refine offered.append ?_
      split
      · exact List.mem_append_right _ (List.mem_singleton_self _)
      · trivial
  | @copy c x o story he ho =>
    have ledger := h.living x rfl
    subst he
    have settled : .settled (.completion c) o ∈ story := ledger.mem_settled h.about ho
    refine .of_ledger h.about (List.forall_mem_singleton.2 rfl) (h.warranted.append settled) ?_
    exact ledger.append ledger.atRest ledger.sound ledger.blank ledger.committing
      (List.append_nil _).symm (fun _ => (List.append_nil _).symm) rfl
      (List.forall_mem_singleton.2 not_false)
  | @enter x here story =>
    have ledger := h.living x rfl
    refine .of_ledger h.about ?_ (h.warranted.append_offered e here.offers) (ledger.enter e here)
    intro ev hev
    obtain ⟨o, -, rfl⟩ := List.mem_map.1 hev
    rfl
  | @drive c s s' here action story he does fits candid =>
    have ledger := h.living _ rfl
    subst he
    exact .of_ledger h.about (action.events_tell c).about
      (h.warranted.drive h.about ledger does fits candid) (ledger.drive does fits candid)
  | @death x story =>
    have ledger := h.living x rfl
    refine ⟨?_, h.warranted.append trivial, nofun, ?_, fun _ => ⟨_, _, _, rfl, ?_⟩⟩
    · exact List.forall_mem_append.2 ⟨h.about, List.forall_mem_singleton.2 rfl⟩
    · intro x hx
      cases hx
    · exact ledger.settlement

end Turns

/-! ## Lives in a world -/

namespace World

variable {w w' : World} {held : List Ref} {e : Entity} {x : Completion Value Item}

/-- What is on record about a thing. -/
def story (w : World) (e : Entity) : List Event :=
  w.history.filter fun ev => ev.subject? = some e

/-- The life of a thing while no call goes on with it. -/
def life (w : World) (e : Entity) : Life := { place := w.place e, story := w.story e }

theorem story_record (w : World) (ev : Event) (e : Entity) :
    (w.record ev).story e = w.story e ++ if ev.subject? = some e then [ev] else [] := by
  rw [story, history_record, List.filter_append]
  split
  next h => simp [story, h]
  next h => simp [story, h]

theorem story_record_of_ne {ev : Event} (h : ev.subject? ≠ some e) :
    (w.record ev).story e = w.story e := by
  rw [story_record, if_neg h, List.append_nil]

theorem story_record_of_eq {ev : Event} (h : ev.subject? = some e) :
    (w.record ev).story e = w.story e ++ [ev] := by
  rw [story_record, if_pos h]

theorem story_congr (h : w'.trail = w.trail) (e : Entity) : w'.story e = w.story e := by
  simp only [story, history, h]

theorem life_of_place (h : w.place e = some (some x)) :
    w.life e = { place := some (some x), story := w.story e } := by
  rw [life, h]

theorem life_congr (place : w'.place e = w.place e) (story : w'.story e = w.story e) :
    w'.life e = w.life e := by
  rw [life, place, story]
  rfl

theorem story_setCell (w : World) (i : Nat) (cell : Cell Value) (e : Entity) :
    (w.setCell i cell).story e = w.story e := story_congr rfl e

theorem story_setCompletion (w : World) (c : CompletionId) (x : Completion Value Item)
    (e : Entity) : (w.setCompletion c x).story e = w.story e := story_congr rfl e

theorem turn_commit {i : Nat} (lives : w.Lives (.cell i)) (o : Outcome Value) :
    Turn (.cell i) (w.life (.cell i)) ((w.commit i o).life (.cell i)) := by
  have place : (w.commit i o).place (.cell i)
      = some (some { cell := ((w.cell i).tryCommit o).1 }) := by
    rw [World.commit, place_record, place_setCell (lives.record _)]
  have story : (w.commit i o).story (.cell i) = w.story (.cell i) ++ [Event.offered (.cell i) o,
      if ((w.cell i).tryCommit o).2 then .settled (.cell i) o else .lost (.cell i) o] := by
    rw [World.commit, story_record_of_eq (by split <;> rfl), story_setCell,
      story_record_of_eq rfl, List.append_assoc]
    rfl
  rw [life_of_place lives.place_cell, life_of_place place, story]
  exact .commit

theorem life_commit_of_ne {i : Nat} (he : e ≠ .cell i) (o : Outcome Value) :
    (w.commit i o).life e = w.life e := by
  have other : some (.cell i) ≠ some e := fun same => he (Option.some.inj same).symm
  apply life_congr
  · rw [World.commit, place_record, place_setCell_of_ne he, place_record]
  · rw [World.commit, story_record_of_ne, story_setCell, story_record_of_ne]
    · exact other
    · split <;> exact other

theorem turn_settle {c : CompletionId} (lives : w.Lives (.completion c))
    (pending : (w.completion c).cell.state = .pending) (o : Outcome Value) :
    Turn (.completion c) (w.life (.completion c)) ((w.settle c o).life (.completion c)) := by
  have won : ((w.completion c).cell.tryCommit o).2 = true := by
    rw [Cell.tryCommit_of_pending pending]
  have place : (w.settle c o).place (.completion c)
      = some (some { w.completion c with cell := ((w.completion c).cell.tryCommit o).1 }) := by
    rw [World.settle, place_record, place_setCompletion (lives.record _)]
  have story : (w.settle c o).story (.completion c) = w.story (.completion c)
      ++ [Event.offered (.completion c) o, if ((w.completion c).cell.tryCommit o).2
        then .settled (.completion c) o else .lost (.completion c) o] := by
    rw [World.settle, won, if_pos rfl, story_record_of_eq rfl, story_setCompletion,
      story_record_of_eq rfl, List.append_assoc]
    rfl
  rw [life_of_place lives.place_completion, life_of_place place, story]
  exact .commit

theorem life_settle_of_ne {c : CompletionId} (he : e ≠ .completion c) (o : Outcome Value) :
    (w.settle c o).life e = w.life e := by
  have other : some (.completion c) ≠ some e := fun same => he (Option.some.inj same).symm
  apply life_congr
  · rw [World.settle, place_record, place_setCompletion_of_ne he, place_record]
  · rw [World.settle, story_record_of_ne, story_setCompletion, story_record_of_ne]
    · exact other
    · exact other

/-- What a thing lets go of is what its place holds. -/
theorem turn_bury (settles : e.Settles) (lives : w.Lives e) :
    Turn e (w.life e) ((w.bury e).life e) := by
  have dead : (w.bury e).place e = some none := (place_record ..).trans (place_vacate lives)
  have told : (w.bury e).story e = w.story e ++ [.buried e (w.estate e).1 (w.estate e).2] :=
    (story_record_of_eq rfl).trans (congrArg (· ++ _) (story_congr (by cases e <;> rfl) e))
  rw [show (w.bury e).life e = { place := some none, story := _ } by rw [life, dead, told]]
  cases e with
  | cell i =>
    rw [life_of_place lives.place_cell]
    exact .death
  | completion c =>
    rw [life_of_place lives.place_completion]
    exact .death
  | queue q => exact settles.elim

theorem life_bury_of_ne {d : Entity} (he : e ≠ d) : (w.bury d).life e = w.life e := by
  have other : some d ≠ some e := fun same => he (Option.some.inj same).symm
  apply life_congr
  · exact (place_record ..).trans (place_vacate_of_ne he)
  · exact (story_record_of_ne (by exact other)).trans (story_congr (by cases d <;> rfl) e)

/-- For a cell or a completion every change is a turn, or nothing. -/
theorem Change.turn (h : Change held w w') (settles : e.Settles) :
    w'.life e = w.life e ∨ Turn e (w.life e) (w'.life e) := by
  cases h with
  | note hev => exact .inl (life_congr (place_record ..) (story_record_of_ne (by simp [hev])))
  | furnish handles cells completions trail =>
    refine .inl (life_congr ?_ (story_congr trail e))
    cases e <;> simp only [place, cells, completions]
  | @copy c o lives ho =>
    by_cases he : e = .completion c
    · subst he
      right
      rw [life_of_place lives.place_completion,
        life_of_place ((place_record ..).trans lives.place_completion), story_record_of_eq rfl]
      exact .copy rfl ho
    · have other : (Event.copied c o).subject? ≠ some e :=
        fun same => he (Option.some.inj same).symm
      exact .inl (life_congr (place_record ..) (story_record_of_ne other))
  | @commit i o lives =>
    by_cases he : e = .cell i
    · subst he
      exact .inr (turn_commit lives o)
    · exact .inl (life_commit_of_ne he o)
  | @settle c o lives pending =>
    by_cases he : e = .completion c
    · subst he
      exact .inr (turn_settle lives pending o)
    · exact .inl (life_settle_of_ne he o)
  | addCell =>
    have story : (w.addCell {}).1.story e = w.story e := story_congr rfl e
    by_cases he : e = .cell w.cells.size
    · subst he
      right
      rw [life, life, place_addCell, if_pos rfl, story,
        show w.place (.cell w.cells.size) = none by simp [place]]
      exact .birth
    · exact .inl (life_congr ((place_addCell w e).trans (if_neg he)) story)
  | addCompletion =>
    have story : (w.addCompletion {}).1.story e = w.story e := story_congr rfl e
    by_cases he : e = .completion w.completions.size
    · subst he
      right
      rw [life, life, place_addCompletion, if_pos rfl, story,
        show w.place (.completion w.completions.size) = none by simp [place]]
      exact .birth
    · exact .inl (life_congr ((place_addCompletion w e).trans (if_neg he)) story)
  | rebind => exact .inl rfl
  | @bury d lives free =>
    by_cases he : e = d
    · subst he
      exact .inr (turn_bury settles (lives settles))
    · exact .inl (life_bury_of_ne he)

/-- Whatever changes, the lives of cells and completions stay in order. -/
theorem Changes.sound_life (h : Changes held w w') (settles : e.Settles)
    (sound : (w.life e).Sound e) : (w'.life e).Sound e := by
  induction h with
  | refl => exact sound
  | step _ change ih =>
    obtain same | turn := change.turn settles
    · rw [same]
      exact ih
    · exact turn.sound ih

end World

end Eventual
