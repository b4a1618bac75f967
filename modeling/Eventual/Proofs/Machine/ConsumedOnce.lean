import Eventual.Proofs.Machine.Lives

/-!
# Everything handed to a cell or a completion is consumed once

Ownership goes many ways: from the caller into a queue, from there into a call, or with a
losing commit back to the caller; and handles may be let go in the midst of it, the last
one by a callback of the very completion that it kept alive. Whatever the way, the story
of the thing has every outcome offered to it settle or be lost in turn, and every item
registered with it called or left waiting. Its death is the last event of its story and
lets go of what is left: the value that settled it, and the items never called, those for
success first, then those for failure, those for either side, and wakers.
-/

namespace Eventual.Machine

/-- The outcome that a commit under way has offered to a thing and that has neither settled
it nor been lost. Only the call that goes on at the moment can have one. -/
def offering (m : Machine) (e : Entity) : List (Outcome Value) :=
  (m.active e).elim [] Site.Point.offers

section Stories

variable {m : Machine} {e : Entity}

theorem offering_of_ne_resume (h : m.control ≠ .resume) : m.offering e = [] := by
  unfold offering active
  split
  next hresume _ => exact absurd hresume h
  next => rfl

theorem Sound.lives_of_active (sound : m.Sound) {p : Site.Point Value Item WakerId}
    (h : m.active e = some p) : m.world.Lives e := by
  unfold active at h
  split at h
  next c here below _ hstack =>
    split at h
    next he =>
      subst he
      exact (sound.of_driving (hstack ▸ List.mem_cons_self ..)).1
    next => cases h
  next => cases h

theorem Sound.offering_of_not_lives (sound : m.Sound) (h : ¬ m.world.Lives e) :
    m.offering e = [] := by
  unfold offering
  cases hp : m.active e with
  | none => rfl
  | some p => exact absurd (sound.lives_of_active hp) h

/-- What is on record of a death is true of the story before it. -/
theorem Orderly.dead (h : m.Orderly) (settles : e.Settles) {values : List Value}
    {items : List Item} (buried : .buried e values items ∈ m.world.history) :
    ∃ before, m.world.story e = before ++ [.buried e values items] ∧
      Settlement before values items := by
  have told : .buried e values items ∈ m.world.story e :=
    List.mem_filter.2 ⟨buried, decide_eq_true rfl⟩
  have life := h.lives settles
  cases hp : m.world.place e with
  | none =>
    have silent : m.world.story e = [] := life.unborn hp
    rw [silent] at told
    cases told
  | some x =>
    cases x with
    | some x => exact absurd trivial ((life.living x hp).unburied _ told)
    | none =>
      obtain ⟨before, values', items', story, settlement⟩ := life.dead hp
      have story : m.world.story e = before ++ [.buried e values' items'] := story
      rw [story] at told
      obtain early | last := List.mem_append.1 told
      · exact absurd trivial (settlement.unburied _ early)
      · cases List.mem_singleton.1 last
        exact ⟨before, story, settlement⟩

/-- Every offer is resolved in turn, whatever becomes of the thing. -/
theorem Orderly.offers (h : m.Orderly) (sound : m.Sound) (settles : e.Settles) :
    (m.world.story e).flatMap Event.offers
      = (m.world.story e).flatMap Event.resolves ++ m.offering e := by
  have life := h.lives settles
  by_cases lives : m.world.Lives e
  · obtain ⟨x, hx⟩ := lives
    exact (life.living x hx).offers
  · rw [sound.offering_of_not_lives lives, List.append_nil]
    cases hp : m.world.place e with
    | none =>
      have silent : m.world.story e = [] := life.unborn hp
      rw [silent]
      rfl
    | some x =>
      cases x with
      | some x => exact absurd ⟨x, hp⟩ lives
      | none =>
        obtain ⟨before, values, items, story, settlement⟩ := life.dead hp
        have story : m.world.story e = before ++ [.buried e values items] := story
        simp [story, settlement.offers, Event.offers, Event.resolves]

end Stories

/-- At every moment of every run, for every cell and every completion: each outcome that was
offered to it has settled it or was lost and dropped, in the order of the offers, but for
that of a commit which is still under way and has not answered yet. While it lives, what was
called of each kind and what still waits is what was registered, in that order, and nothing
was let go. When it has died, its death is the last event that is about it, and there it has
let go, in this order, of the value that settled it and of what had been registered and never
called: the items for success, for failure, for either side, and the wakers, each kind in the
order of its registrations. -/
theorem consumed_exactly_once (watched : List String) (script : Script) (n : Nat) {e : Entity}
    (settles : e.Settles) :
    ((moment watched script n).world.story e).flatMap Event.offers
      = ((moment watched script n).world.story e).flatMap Event.resolves
        ++ (moment watched script n).offering e ∧
    ((moment watched script n).control ≠ .resume → (moment watched script n).offering e = []) ∧
    (∀ x, (moment watched script n).world.place e = some (some x) →
      (∀ k, ((moment watched script n).world.story e).flatMap (Event.calls k) ++ x.waiting k
        = ((moment watched script n).world.story e).flatMap (Event.registers k)) ∧
      ∀ ev ∈ (moment watched script n).world.story e, ¬ ev.Buries) ∧
    (∀ values items, .buried e values items ∈ (moment watched script n).world.history →
      ∃ (before : List Event) (left : Kind → List Item),
        (moment watched script n).world.story e = before ++ [.buried e values items] ∧
        (∀ ev ∈ before, ¬ ev.Buries) ∧
        before.flatMap Event.offers = before.flatMap Event.resolves ∧
        values = (before.flatMap Event.settles).map Outcome.value ∧
        (∀ k, before.flatMap (Event.calls k) ++ left k = before.flatMap (Event.registers k)) ∧
        items = left (.on .success) ++ left (.on .failure) ++ left .always ++ left .waker) := by
  have orderly := moment_orderly watched script n
  have sound := moment_sound watched script n
  refine ⟨orderly.offers sound settles, offering_of_ne_resume, ?_, ?_⟩
  · intro x hx
    have ledger := (orderly.lives settles).living x hx
    exact ⟨ledger.items, ledger.unburied⟩
  · intro values items buried
    obtain ⟨before, story, settlement⟩ := orderly.dead settles buried
    obtain ⟨left, order, rest⟩ := settlement.items
    exact ⟨before, left, story, settlement.unburied, settlement.offers, settlement.values, order,
      rest⟩

/-- A callback of a completion commits to it, which loses, and lets go of its only handle; one
for either side panics. -/
def lastHandleScript : Script :=
  [.mk "" (.create "c" .completion),
    .mk "" (.onCompletion "c" (.register (.on .success) (.mk "first"
      [.mk "" (.onCompletion "c" (.tryCommit ⟨.failure, { data := .int 2 }⟩)),
        .mk "" (.discard "c")]))),
    .mk "" (.onCompletion "c" (.register (.on .failure) (.mk "never" []))),
    .mk "" (.onCompletion "c" (.register .always (.mk "panics" [.mk "" (.raise (.number 1))]))),
    .mk "" (.onCompletion "c" (.register .always (.mk "late" []))),
    .mk "" (.onCompletion "c" (.complete ⟨.success, { data := .int 1 }⟩))]

def lastHandleItems : List Item :=
  [.callback (.mk "never" []) none, .callback (.mk "late" []) none]

/-- The handle is gone long before the drain unwinds; the completion dies when it has. -/
theorem consumed_exactly_once_last_handle :
    .buried (.completion 0) [{ data := .int 1 }] lastHandleItems
      ∈ (moment [] lastHandleScript 46).world.history ∧
    ((moment [] lastHandleScript 46).world.story (.completion 0)).flatMap Event.offers
      = ((moment [] lastHandleScript 46).world.story (.completion 0)).flatMap Event.resolves ∧
    ∃ (before : List Event) (left : Kind → List Item),
      (moment [] lastHandleScript 46).world.story (.completion 0)
        = before ++ [.buried (.completion 0) [{ data := .int 1 }] lastHandleItems] ∧
      [{ data := .int 1 }] = (before.flatMap Event.settles).map Outcome.value ∧
      (∀ k, before.flatMap (Event.calls k) ++ left k = before.flatMap (Event.registers k)) ∧
      lastHandleItems
        = left (.on .success) ++ left (.on .failure) ++ left .always ++ left .waker := by
  have last : (moment [] lastHandleScript 46).world.trail.head?
      = some (.buried (.completion 0) [{ data := .int 1 }] lastHandleItems) := rfl
  have died := List.mem_reverse.2 (List.mem_of_head? last)
  have unwinds : (moment [] lastHandleScript 46).control ≠ .resume := nofun
  obtain ⟨offers, nothing, -, dies⟩ :=
    consumed_exactly_once [] lastHandleScript 46 (show (Entity.completion 0).Settles from trivial)
  rw [nothing unwinds, List.append_nil] at offers
  obtain ⟨before, left, story, -, -, values, order, items⟩ := dies _ _ died
  exact ⟨died, offers, before, left, story, values, order, items⟩

end Eventual.Machine
