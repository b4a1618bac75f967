import Eventual.Proofs.Machine.Returns

/-!
# Drains whose items let them be

An item may do anything with the completion that calls it. One that does nothing with it, comes
back with an answer and leaves the handles alone that matter is `Harmless`. While the items of a
completion are harmless, what a call on it does can be told in advance: which items are called,
with which argument and in which order, and what is left waiting. `Books` keeps these accounts,
and `drains` says how a drain changes them.
-/

namespace Eventual

/-- What an event says was invoked by a completion: the kind, the item and its argument. -/
def Event.invokes (c : CompletionId) : Event → List (Kind × Item × Option Value)
  | .started c' k x arg => if c' = c then [(k, x, arg)] else []
  | _ => []

/-- What an action of a call on a completion invokes. -/
def Action.invokes {π ρ : Type} : Action Value Item π ρ → List (Kind × Item × Option Value)
  | .call k x arg _ => [(k, x, arg)]
  | .goto _ | .notice _ _ | .done _ | .refused _ _ => []

/-- The tally that an action of a call on a completion writes to the log. -/
def Action.tallies {π ρ : Type} : Action Value Item π ρ → List (Nat × Side)
  | .notice (.logged (.drained count s)) _ => [(count, s)]
  | _ => []

/-- The tally that an event says was written to the log by a drain of a completion. -/
def Event.tallies (c : CompletionId) : Event → List (Nat × Side)
  | .logged c' (.drained count s) => if c' = c then [(count, s)] else []
  | _ => []

/-- The tally that a call on a completion itself writes to the log at a point. -/
def Completion.Point.tallies {α ι : Type} : Completion.Point α ι → List (Nat × Side)
  | .report s _ count => [(count, s)]
  | .commit _ _ _ | .announce _ | .append _ _ | .consult _ | .check _ _ | .fetch _ _
  | .sweep _ _ _ _ _ | .finish _ => []

namespace World

/-- What was invoked by a completion, in the order in which the calls began. -/
def invoked (w : World) (c : CompletionId) : List (Kind × Item × Option Value) :=
  w.history.flatMap (Event.invokes c)

/-- The tallies that the drains of a completion have written to the log. -/
def tallies (w : World) (c : CompletionId) : List (Nat × Side) :=
  w.history.flatMap (Event.tallies c)

/-- What was called of a kind is what was invoked of that kind. -/
theorem called_eq (w : World) (c : CompletionId) (k : Kind) :
    w.called c k = ((w.invoked c).filter fun call => call.1 = k).map fun call => call.2.1 := by
  unfold called invoked
  induction w.history with
  | nil => rfl
  | cons ev history ih =>
    rw [List.flatMap_cons, List.flatMap_cons, List.filter_append, List.map_append, ih]
    congr 1
    cases ev with
    | started c' k' x arg =>
      simp only [Event.callsOn, Event.invokes]
      split
      next =>
        by_cases hk : k' = k <;> simp [hk]
      next => rfl
    | _ => rfl

/-- Nothing that has to do with a completion differs: neither the completion itself, nor what it
has invoked, nor the handles. -/
structure Same (c : CompletionId) (w w' : World) : Prop where
  completion : w'.completion c = w.completion c
  invoked : w'.invoked c = w.invoked c
  handles : w'.handles = w.handles

variable {c : CompletionId} {w w' w'' : World}

/-- An event that is no call. -/
theorem Same.record (w : World) {ev : Event} (quiet : ev.invokes c = []) :
    Same c w (w.record ev) := by
  have invoked : (w.record ev).invoked c = w.invoked c := by
    rw [World.invoked, history_record, List.flatMap_append, List.flatMap_singleton, quiet,
      List.append_nil]
    rfl
  exact ⟨rfl, invoked, rfl⟩

/-- Nothing has been done with a completion: it is as it was, and it has invoked nothing and
written no tally. -/
structure Untouched (c : CompletionId) (w w' : World) : Prop where
  completion : w'.completion c = w.completion c
  invoked : w'.invoked c = w.invoked c
  tallies : w'.tallies c = w.tallies c

theorem Untouched.refl (w : World) : Untouched c w w := ⟨rfl, rfl, rfl⟩

theorem Untouched.trans (h : Untouched c w w') (h' : Untouched c w' w'') : Untouched c w w'' :=
  ⟨h'.completion.trans h.completion, h'.invoked.trans h.invoked, h'.tallies.trans h.tallies⟩

/-- The accounts of a completion, and what the handles refer to that are named. -/
structure Books (named : List String) (refers : String → Option Ref) (c : CompletionId)
    (cell : Cell Value) (waiting : Kind → List Item) (invoked : List (Kind × Item × Option Value))
    (w : World) : Prop where
  refers : ∀ h ∈ named, w.lookup h = refers h
  cell : (w.completion c).cell = cell
  waiting : ∀ k, (w.completion c).waiting k = waiting k
  invoked : w.invoked c = invoked

theorem Books.same {named : List String} {refers : String → Option Ref} {cell : Cell Value}
    {waiting : Kind → List Item} {invoked : List (Kind × Item × Option Value)}
    (h : Books named refers c cell waiting invoked w) (same : Same c w w') :
    Books named refers c cell waiting invoked w' := by
  refine ⟨fun handle hh => ?_, ?_, fun k => ?_, same.invoked.trans h.invoked⟩
  · rw [lookup, same.handles]
    exact h.refers handle hh
  · rw [same.completion]
    exact h.cell
  · rw [same.completion]
    exact h.waiting k

end World

namespace Machine

open World

/-! ## Steps of calls -/

section Steps

variable {m m' : Machine} {w : World} {c d : CompletionId} {below : List Frame}

/-- What a move notes does not count where neither what is plain counts nor the settlement of a
newborn nor what a frame remarks. -/
theorem Moves.flatMap_history {β : Type} {frame : Frame} {control : Control}
    (h : Moves w below frame control m') (count : Event → List β)
    (plain : ∀ ev : Event, ev.Plain → count ev = [])
    (settled : ∀ o, count (.settled (.completion w.completions.size) o) = [])
    (lost : ∀ c s, count (.logged c (.lost s)) = [])
    (contained : ∀ c label p, count (.logged c (.contained label p)) = [])
    (reported : ∀ h p, count (.reported h p) = []) :
    m'.world.history.flatMap count = w.history.flatMap count := by
  obtain proceeds | ⟨r, w₁, act, base, births, proceeds, -⟩ := h.proceeds
  · exact (proceeds.flatMap_history _ plain).trans
      (flatMap_recordAll_remarks _ lost contained reported w frame control)
  · exact (proceeds.flatMap_history _ plain).trans (births.flatMap_history _ plain settled)

theorem invokes_of_plain (c : CompletionId) (ev : Event) (plain : ev.Plain) :
    ev.invokes c = [] := by
  cases ev with
  | started => exact plain.elim
  | _ => rfl

theorem tallies_of_plain (c : CompletionId) (ev : Event) (plain : ev.Plain) :
    ev.tallies c = [] := by
  cases ev with
  | logged => exact plain.elim
  | _ => rfl

theorem Moves.invoked {frame : Frame} {control : Control} (h : Moves w below frame control m')
    (c : CompletionId) : m'.world.invoked c = w.invoked c :=
  h.flatMap_history _ (invokes_of_plain c) (fun _ => rfl) (fun _ _ => rfl) (fun _ _ _ => rfl)
    fun _ _ => rfl

theorem Moves.tallies {frame : Frame} {control : Control} (h : Moves w below frame control m')
    (c : CompletionId) : m'.world.tallies c = w.tallies c :=
  h.flatMap_history _ (tallies_of_plain c) (fun _ => rfl) (fun _ _ => rfl) (fun _ _ _ => rfl)
    fun _ _ => rfl

/-- A move leaves the completions alone that exist and live on. -/
theorem Moves.completion {frame : Frame} {control : Control} (h : Moves w below frame control m')
    (born : c < w.completions.size) (alive : m'.world.Alive c) :
    m'.world.completion c = w.completion c := by
  obtain proceeds | ⟨r, w₁, act, base, births, proceeds, -⟩ := h.proceeds
  · rw [proceeds.completion alive, World.completion, completions_recordAll]
    rfl
  · rw [proceeds.completion alive, World.completion, births.getElem? born]
    rfl

theorem Works.invoked {here : Site.Point Value Item WakerId} {s : Site Value Item WakerId}
    {action : Action Value Item (Site.Point Value Item WakerId) (Site.Answer Value)}
    (works : Works w d here below m s action) (c : CompletionId) :
    m.world.invoked c = w.invoked c ++ if d = c then action.invokes else [] := by
  have noted : (action.events d ++ action.logs d).flatMap (Event.invokes c)
      = if d = c then action.invokes else [] := by
    rcases action with _ | (_ | _ | _) | _ | ((_ | _ | _) | _ | _) | _ <;>
      simp [Action.events, Action.logs, Action.invokes, Event.invokes]
  have step := works.proceeds.flatMap_history _ (invokes_of_plain c)
  rw [history_recordAll, List.flatMap_append, noted] at step
  exact step

theorem Works.tallies {here : Site.Point Value Item WakerId} {s : Site Value Item WakerId}
    {action : Action Value Item (Site.Point Value Item WakerId) (Site.Answer Value)}
    (works : Works w d here below m s action) (c : CompletionId) :
    m.world.tallies c = w.tallies c ++ if d = c then action.tallies else [] := by
  have noted : (action.events d ++ action.logs d).flatMap (Event.tallies c)
      = if d = c then action.tallies else [] := by
    rcases action with _ | (_ | _ | (_ | _ | _ | _ | _)) | _ | ((_ | _ | _) | _ | _) | _ <;>
      simp [Action.events, Action.logs, Action.tallies, Event.tallies]
  have step := works.proceeds.flatMap_history _ (tallies_of_plain c)
  rw [history_recordAll, List.flatMap_append, noted] at step
  exact step

/-- A call on a completion itself is about to make a step. -/
structure Acting (c : CompletionId) (below : List Frame) (here : Completion.Point Value Item)
    (m : Machine) : Prop where
  stack : m.stack = .driving c (.direct here) :: below
  control : m.control = .resume

/-- A step of a call on a completion itself. -/
structure Acts (c : CompletionId) (below : List Frame) (here : Completion.Point Value Item)
    (x : Completion Value Item)
    (a : Action Value Item (Completion.Point Value Item) (Completion.Answer Value))
    (m m' : Machine) : Prop where
  does : Completion.Does (m.world.completion c) here x a
  completion : m'.world.completion c = x
  invoked : m'.world.invoked c = m.world.invoked c ++ a.invokes
  handles : m'.world.handles = m.world.handles
  leads : Leads c below (a.map .direct .direct) m'.stack m'.control

theorem Acting.acts {here : Completion.Point Value Item} (acting : Acting c below here m)
    (sound : m.Sound) : ∃ x a, Acts c below here x a m m.step := by
  obtain ⟨s, action, works⟩ := sound.works acting.stack acting.control
  obtain ⟨x, a, does, hx, rfl⟩ : ∃ x a, Completion.Does (m.world.completion c) here x a ∧
      s.completion = x ∧ action = a.map .direct .direct := by
    cases works.does with
    | direct inner => exact ⟨_, _, inner, rfl, rfl⟩
  refine ⟨x, a, does, works.this.trans hx, ?_, ?_, works.leads⟩
  · rw [works.invoked, if_pos rfl]
    cases a <;> rfl
  · rw [step_of_resume acting.stack acting.control]
    exact handles_drive ..

theorem Acting.tallies {here : Completion.Point Value Item} (acting : Acting c below here m)
    (sound : m.Sound) : m.step.world.tallies c = m.world.tallies c ++ here.tallies := by
  obtain ⟨s, action, works⟩ := sound.works acting.stack acting.control
  rw [works.tallies, if_pos rfl]
  cases works.does with
  | direct does => cases does <;> rfl

variable {named : List String} {refers : String → Option Ref} {cell : Cell Value}
  {waiting : Kind → List Item} {invoked : List (Kind × Item × Option Value)}
  {here p : Completion.Point Value Item} {x : Completion Value Item}
  {a : Action Value Item (Completion.Point Value Item) (Completion.Answer Value)}

/-- A step from which the call goes on by itself. -/
theorem Acts.onward (h : Acts c below here x a m m') (next : a.onward? = some p)
    (books : Books named refers c cell waiting invoked m.world) :
    Acting c below p m' ∧ Books named refers c x.cell x.waiting invoked m'.world := by
  have leads := h.leads
  have silent := h.invoked
  generalize hstack : m'.stack = stack at leads
  generalize hcontrol : m'.control = control at leads
  have books' : a.invokes = [] → Books named refers c x.cell x.waiting invoked m'.world := by
    intro nothing
    rw [nothing, List.append_nil] at silent
    refine ⟨fun handle hh => ?_, by rw [h.completion], fun k => by rw [h.completion],
      silent.trans books.invoked⟩
    rw [World.lookup, h.handles]
    exact books.refers handle hh
  cases a with
  | goto | notice =>
    cases next
    cases leads
    exact ⟨⟨hstack, hcontrol⟩, books' rfl⟩
  | call | done | refused => cases next

/-- A step with which the call comes to its end. -/
theorem Acts.done {answer : Completion.Answer Value}
    (h : Acts c below here x (.done answer) m m')
    (books : Books named refers c cell waiting invoked m.world) :
    m'.stack = below ∧ (∃ r, m'.control = .answer r) ∧
      Books named refers c x.cell x.waiting invoked m'.world := by
  have books' : Books named refers c x.cell x.waiting invoked m'.world := by
    refine ⟨fun handle hh => ?_, by rw [h.completion], fun k => by rw [h.completion], ?_⟩
    · rw [World.lookup, h.handles]
      exact books.refers handle hh
    · rw [h.invoked]
      exact (List.append_nil _).trans books.invoked
  have leads := h.leads
  generalize m'.stack = stack at leads ⊢
  generalize m'.control = control at leads ⊢
  cases leads with
  | done => exact ⟨rfl, ⟨_, rfl⟩, books'⟩

end Steps

/-! ## Items that let their completion be -/

section Items

variable {watched : List String} {script : Script} {named : List String} {c : CompletionId}
  {base below : List Frame} {i j : Nat}

/-- How what was called comes back: with an answer, or with the panic. -/
def Fared : Option Panic → Control → Prop
  | none, control => ∃ r, control = .answer r
  | some p, control => control = .unwind p

/-- An item that is called at moment `i` above the frames comes back as it is said; until then
nothing is done with the completion, and the handles that are named refer again to what they
did. -/
def Fares (watched : List String) (script : Script) (named : List String) (c : CompletionId)
    (base : List Frame) (fate : Option Panic) (i : Nat) : Prop :=
  ∃ j, i < j ∧
    (∀ k, i < k → k < j → base.length < (moment watched script k).stack.length ∧
      ∀ here below, (moment watched script k).stack ≠ .driving c here :: below) ∧
    (moment watched script j).stack = base ∧
    Fared fate (moment watched script j).control ∧
    ∀ h ∈ named, (moment watched script j).world.lookup h
      = (moment watched script (i + 1)).world.lookup h

/-- An item that is called at moment `i` above the frames does no harm if it comes back with an
answer. -/
def Harmless (watched : List String) (script : Script) (named : List String) (c : CompletionId)
    (base : List Frame) (i : Nat) : Prop :=
  Fares watched script named c base none i

/-- A completion has invoked nothing and written no tally. -/
structure Still (c : CompletionId) (m m' : Machine) : Prop where
  invoked : m'.world.invoked c = m.world.invoked c
  tallies : m'.world.tallies c = m.world.tallies c

theorem Moves.still {m m' : Machine} {frame : Frame} {control : Control}
    (h : Moves m.world below frame control m') (c : CompletionId) : Still c m m' :=
  ⟨h.invoked c, h.tallies c⟩

/-- In what is no step of a call on a completion, it invokes nothing and writes no tally. -/
theorem Sound.still {m : Machine} (sound : m.Sound)
    (apart : ∀ here below, m.stack ≠ .driving c here :: below) : Still c m m.step := by
  cases hstack : m.stack with
  | nil =>
    rw [step_of_isOver (List.isEmpty_iff.2 hstack)]
    exact ⟨rfl, rfl⟩
  | cons frame below =>
    obtain moves | ⟨d, here, s, action, -, rfl, works⟩ := sound.moves_or_works hstack
    · exact moves.still c
    · have other : d ≠ c := by
        rintro rfl
        exact apart here below hstack
      refine ⟨?_, ?_⟩
      · rw [works.invoked, if_neg other, List.append_nil]
      · rw [works.tallies, if_neg other, List.append_nil]

/-- What is no step of a call on a completion leaves it as it is, as long as it lives. -/
theorem Sound.untouched {m : Machine} (sound : m.Sound) (alive : m.world.Alive c)
    (alive' : m.step.world.Alive c)
    (apart : ∀ here below, m.stack ≠ .driving c here :: below) :
    Untouched c m.world m.step.world := by
  obtain ⟨invoked, tallies⟩ := sound.still apart
  refine ⟨?_, invoked, tallies⟩
  cases hstack : m.stack with
  | nil => rw [step_of_isOver (List.isEmpty_iff.2 hstack)]
  | cons frame below =>
    obtain moves | ⟨d, here, s, action, -, rfl, works⟩ := sound.moves_or_works hstack
    · exact moves.completion alive.lt_size alive'
    · refine works.others c ?_
      rintro rfl
      exact apart here below hstack

/-- What lives has lived since it came into being. -/
theorem Sound.alive_of_step {m : Machine} (sound : m.Sound) (born : c < m.world.completions.size)
    (alive : m.step.world.Alive c) : m.world.Alive c := by
  obtain ⟨x, hx⟩ := alive
  cases hstack : m.stack with
  | nil =>
    rw [step_of_isOver (List.isEmpty_iff.2 hstack)] at hx
    exact ⟨x, hx⟩
  | cons frame below =>
    obtain moves | ⟨d, here, s, action, -, rfl, works⟩ := sound.moves_or_works hstack
    · obtain proceeds | ⟨r, w₁, act, base, births, proceeds, -⟩ := moves.proceeds
      · obtain same | dead := proceeds.places c
        · exact ⟨x, by rw [← hx, same, completions_recordAll]⟩
        · cases hx.symm.trans dead
      · obtain same | dead := proceeds.places c
        · exact ⟨x, by rw [← hx, same, births.getElem? born]⟩
        · cases hx.symm.trans dead
    · by_cases this : d = c
      · subst this
        exact (sound.of_driving (hstack ▸ List.mem_cons_self ..)).1
      · obtain same | dead := works.proceeds.places c
        · refine ⟨x, ?_⟩
          rw [← hx, same, completions_recordAll]
          exact (Array.getElem?_setIfInBounds_ne this).symm
        · cases hx.symm.trans dead

/-- As long as no call on it makes a step, a completion that lives on is left as it is. -/
theorem untouched_between (born : c < (moment watched script i).world.completions.size)
    (hij : i ≤ j) (alive : (moment watched script j).world.Alive c)
    (apart : ∀ k, i ≤ k → k < j →
      ∀ here below, (moment watched script k).stack ≠ .driving c here :: below) :
    Untouched c (moment watched script i).world (moment watched script j).world := by
  induction hij with
  | refl => exact .refl _
  | @step j hij ih =>
    have sound := moment_sound watched script j
    rw [Nat.succ_eq_add_one, moment_succ] at alive ⊢
    have alive' := sound.alive_of_step (Nat.lt_of_lt_of_le born (size_le hij)) alive
    have before := ih alive' fun k hik hkj => apart k hik (Nat.lt_succ_of_lt hkj)
    exact before.trans (sound.untouched alive' alive (apart j hij (Nat.lt_succ_self j)))

/-- However it comes back, an item that does nothing with its completion leaves the accounts as
they are. -/
theorem Fares.keeps {refers : String → Option Ref} {cell : Cell Value}
    {waiting : Kind → List Item} {invoked : List (Kind × Item × Option Value)}
    {p : Site.Point Value Item WakerId} {frames : List Frame} {fate : Option Panic}
    (h : Fares watched script named c (.driving c p :: below) fate i)
    (hstack : (moment watched script (i + 1)).stack = frames ++ .driving c p :: below)
    (books : Books named refers c cell waiting invoked (moment watched script (i + 1)).world) :
    ∃ j, i < j ∧ (∀ k, i < k → k < j → below.length < (moment watched script k).stack.length) ∧
      (moment watched script j).stack = .driving c p :: below ∧
      Fared fate (moment watched script j).control ∧
      Books named refers c cell waiting invoked (moment watched script j).world ∧
      (moment watched script j).world.tallies c
        = (moment watched script (i + 1)).world.tallies c := by
  obtain ⟨j, hij, running, back, fared, lookups⟩ := h
  -- Until it comes back the item runs above its drain, which keeps the completion alive.
  have alive : ∀ l frames, (moment watched script l).stack = frames ++ .driving c p :: below →
      (moment watched script l).world.Alive c := by
    intro l frames hl
    have member : .driving c p ∈ (moment watched script l).stack := by simp [hl]
    exact ((moment_sound watched script l).of_driving member).1
  have untouched := untouched_between (alive (i + 1) frames hstack).lt_size hij (alive j [] back)
    fun k hik hkj => (running k hik hkj).2
  refine ⟨j, hij, fun k hik hkj => ?_, back, fared,
    ⟨fun handle hh => ?_, ?_, fun k => ?_, ?_⟩, untouched.tallies⟩
  · exact Nat.lt_trans (Nat.lt_succ_self _) (running k hik hkj).1
  · exact (lookups handle hh).trans (books.refers handle hh)
  · rw [untouched.completion]
    exact books.cell
  · rw [untouched.completion]
    exact books.waiting k
  · exact untouched.invoked.trans books.invoked

/-- From moment `i` up to, but without, moment `j`, something runs above the frames. -/
structure Stays (watched : List String) (script : Script) (below : List Frame) (i j : Nat) :
    Prop where
  le : i ≤ j
  high : ∀ k, i ≤ k → k < j → below.length < (moment watched script k).stack.length

theorem Stays.refl (i : Nat) : Stays watched script below i i :=
  ⟨Nat.le_refl i, fun _ hik hki => absurd hki (Nat.not_lt_of_le hik)⟩

theorem Stays.trans {l : Nat} (h : Stays watched script below i j)
    (h' : Stays watched script below j l) : Stays watched script below i l := by
  refine ⟨Nat.le_trans h.le h'.le, fun k hik hkl => ?_⟩
  obtain sooner | later := Nat.lt_or_ge k j
  · exact h.high k hik sooner
  · exact h'.high k later hkl

theorem Stays.step (high : below.length < (moment watched script i).stack.length) :
    Stays watched script below i (i + 1) := by
  refine ⟨Nat.le_succ i, fun k hik hki => ?_⟩
  obtain rfl : k = i := by omega
  exact high

theorem Stays.above (h : Stays watched script below i j) (le : base.length ≤ below.length) :
    Stays watched script base i j :=
  ⟨h.le, fun k hik hkj => Nat.lt_of_le_of_lt le (h.high k hik hkj)⟩

/-- From moment `n` on, as long as something runs above the frames, whatever the completion calls
is harmless. -/
def Undisturbed (watched : List String) (script : Script) (named : List String)
    (c : CompletionId) (base : List Frame) (n : Nat) : Prop :=
  ∀ i here below p frames k x, Stays watched script base n i → base.length ≤ below.length →
    (moment watched script i).stack = .driving c here :: below →
    (moment watched script (i + 1)).stack = frames ++ .driving c p :: below →
    (moment watched script (i + 1)).world.called c k
      = (moment watched script i).world.called c k ++ [x] →
    Harmless watched script named c (.driving c p :: below) i

/-- What an item does comes to an end when the stack is as low again as when it was called. -/
theorem Fares.of_low {frames : List Frame} {fate : Option Panic}
    (hstack : (moment watched script (i + 1)).stack = frames ++ base) (hij : i < j)
    (running : ∀ k, i < k → k < j → base.length < (moment watched script k).stack.length ∧
      ∀ here below, (moment watched script k).stack ≠ .driving c here :: below)
    (low : (moment watched script j).stack.length ≤ base.length)
    (fared : Fared fate (moment watched script j).control)
    (lookups : ∀ h ∈ named, (moment watched script j).world.lookup h
      = (moment watched script (i + 1)).world.lookup h) :
    Fares watched script named c base fate i := by
  refine ⟨j, hij, running, ?_, fared, lookups⟩
  cases frames with
  | nil =>
    obtain sooner | rfl : i + 1 < j ∨ i + 1 = j := by omega
    · have high := (running (i + 1) (Nat.lt_succ_self i) sooner).1
      rw [hstack] at high
      exact absurd high (Nat.lt_irrefl _)
    · exact hstack
  | cons f frames =>
    obtain ⟨i', hi', hj, -, back⟩ := @exists_first_back watched script base (i + 1) j
      ⟨f, frames, hstack⟩ hij low
    obtain sooner | rfl := Nat.lt_or_eq_of_le hj
    · have high := (running i' (Nat.lt_of_succ_lt hi') sooner).1
      rw [back.stack] at high
      exact absurd high (Nat.lt_irrefl _)
    · exact back.stack

/-- Whether the topmost frame is a call on the completion. -/
def attends (c : CompletionId) (m : Machine) : Bool :=
  m.stack.head?.any fun
    | .driving c' _ => c' = c
    | _ => false

theorem ne_driving_of_attends {m : Machine} (apart : attends c m = false)
    (here : Site.Point Value Item WakerId) (below : List Frame) :
    m.stack ≠ .driving c here :: below := by
  intro on
  rw [attends, on] at apart
  simp at apart

/-- Whether the topmost frame is told an answer. -/
def isAnswered (m : Machine) : Bool :=
  match m.control with
  | .answer _ => true
  | .resume | .faulty _ | .unwind _ => false

/-- Whether what is called at moment `i` has come back by moment `j`, without doing anything with
the completion. -/
def comesBack (watched : List String) (script : Script) (c : CompletionId) (i j : Nat) : Bool :=
  let high := fun k =>
    (moment watched script i).stack.length < (moment watched script k).stack.length
  i < j && !high j &&
    (List.range j).all fun k => k ≤ i || (high k && !attends c (moment watched script k))

/-- Whether it has come back so with an answer. -/
def letsBe (watched : List String) (script : Script) (c : CompletionId) (i j : Nat) : Bool :=
  comesBack watched script c i j && isAnswered (moment watched script j)

theorem Fares.of_comesBack {here p : Site.Point Value Item WakerId} {frames : List Frame}
    {fate : Option Panic} (hstack : (moment watched script i).stack = .driving c here :: below)
    (hstack' : (moment watched script (i + 1)).stack = frames ++ .driving c p :: below)
    (back : comesBack watched script c i j = true)
    (fared : Fared fate (moment watched script j).control)
    (lookups : ∀ h ∈ named, (moment watched script j).world.lookup h
      = (moment watched script (i + 1)).world.lookup h) :
    Fares watched script named c (.driving c p :: below) fate i := by
  simp only [comesBack, Bool.and_eq_true, Bool.not_eq_true', decide_eq_true_eq,
    decide_eq_false_iff_not, List.all_eq_true, List.mem_range, Bool.or_eq_true] at back
  obtain ⟨⟨hij, low⟩, running⟩ := back
  have high : (Frame.driving c p :: below).length = (moment watched script i).stack.length := by
    rw [hstack]
    rfl
  refine .of_low hstack' hij (fun k hik hkj => ?_) (high ▸ Nat.le_of_not_lt low) fared lookups
  obtain early | ⟨above, apart⟩ := running k hkj
  · exact absurd early (Nat.not_le_of_lt hik)
  · exact ⟨high ▸ above, ne_driving_of_attends apart⟩

/-- What is called is invoked. -/
theorem invoked_of_called {k : Kind} {x : Item}
    (called : (moment watched script (i + 1)).world.called c k
      = (moment watched script i).world.called c k ++ [x]) :
    ((moment watched script (i + 1)).world.invoked c).length
      ≠ ((moment watched script i).world.invoked c).length := by
  have starts : (moment watched script i).step.world.called c k
      ≠ (moment watched script i).world.called c k := by
    rw [← moment_succ, called]
    simp
  obtain ⟨_, _, _, _, _, _, -, works⟩ := (moment_sound watched script i).works_of_called starts
  rw [moment_succ, works.invoked, if_pos rfl, List.length_append]
  exact Nat.succ_ne_self _

/-- In a run that comes to its end, each call of an item is looked at on its own. -/
theorem Undisturbed.of_calls {n last : Nat} (halted : (moment watched script last).stack = [])
    (calls : ∀ i < last, n ≤ i →
      ((moment watched script (i + 1)).world.invoked c).length
        ≠ ((moment watched script i).world.invoked c).length →
      ∃ j, letsBe watched script c i j = true ∧
        ∀ h ∈ named, (moment watched script j).world.lookup h
          = (moment watched script (i + 1)).world.lookup h) :
    Undisturbed watched script named c base n := by
  intro i here below p frames k x stays _ hstack hstack' called
  have before : i < last := by
    apply Nat.lt_of_not_le
    intro later
    rw [moment_of_isOver (List.isEmpty_iff.2 halted) later, halted] at hstack
    cases hstack
  obtain ⟨j, lets, lookups⟩ := calls i before stays.le (invoked_of_called called)
  obtain ⟨back, answered⟩ := (Bool.and_eq_true ..).mp lets
  refine Fares.of_comesBack hstack hstack' back (?_ : Fared none _) lookups
  unfold isAnswered at answered
  split at answered
  next r control => exact ⟨r, control⟩
  all_goals cases answered

theorem Undisturbed.later {n : Nat} (h : Undisturbed watched script named c base n)
    (stays : Stays watched script base n i) : Undisturbed watched script named c base i :=
  fun i' here below p frames k x stays' => h i' here below p frames k x (stays.trans stays')

theorem Undisturbed.above {n : Nat} (h : Undisturbed watched script named c base n)
    (le : base.length ≤ below.length) : Undisturbed watched script named c below n :=
  fun i here below' p frames k x stays le' =>
    h i here below' p frames k x (stays.above le) (Nat.le_trans le le')

end Items

/-! ## Drains -/

section Drains

variable {watched : List String} {script : Script} {named : List String}
  {refers : String → Option Ref} {c : CompletionId} {below : List Frame}
  {cell : Cell Value} {waiting : Kind → List Item} {invoked : List (Kind × Item × Option Value)}
  {i j n : Nat} {s : Side} {v : Value} {answer : Completion.Answer Value}
  {stage : Completion.Stage}

/-- At moment `i` a call on the completion is about to make a step, and the accounts are as
given. -/
structure At (watched : List String) (script : Script) (named : List String)
    (refers : String → Option Ref) (c : CompletionId) (below : List Frame)
    (here : Completion.Point Value Item) (cell : Cell Value) (waiting : Kind → List Item)
    (invoked : List (Kind × Item × Option Value)) (i : Nat) : Prop where
  acting : Acting c below here (moment watched script i)
  books : Books named refers c cell waiting invoked (moment watched script i).world

/-- At moment `j` a call on the completion, above the frames, has come back with an answer, and
the accounts are as given. -/
structure Answered (watched : List String) (script : Script) (named : List String)
    (refers : String → Option Ref) (c : CompletionId) (below : List Frame)
    (cell : Cell Value) (waiting : Kind → List Item)
    (invoked : List (Kind × Item × Option Value)) (j : Nat) : Prop where
  stack : (moment watched script j).stack = below
  answers : ∃ r, (moment watched script j).control = .answer r
  books : Books named refers c cell waiting invoked (moment watched script j).world

/-- What waits for a completion, with the items of one kind replaced. -/
def replaced (waiting : Kind → List Item) (k : Kind) (items : List Item) : Kind → List Item :=
  fun k' => if k = k' then items else waiting k'

theorem replaced_replaced (k : Kind) (items items' : List Item) :
    replaced (replaced waiting k items) k items' = replaced waiting k items' := by
  funext k'
  unfold replaced
  split <;> rfl

theorem replaced_self (k : Kind) : replaced waiting k (waiting k) = waiting := by
  funext k'
  unfold replaced
  split
  next h => rw [h]
  next => rfl

section Steps

variable {cell' : Cell Value} {waiting' : Kind → List Item}
  {here p : Completion.Point Value Item}

theorem At.stays (h : At watched script named refers c below here cell waiting invoked i) :
    Stays watched script below i (i + 1) :=
  .step (by rw [h.acting.stack]; exact Nat.lt_succ_self _)

theorem At.rest (h : At watched script named refers c below here cell waiting invoked i) :
    ((moment watched script i).world.completion c).AtRest := by
  have sound := moment_sound watched script i
  obtain ⟨alive, -⟩ := sound.of_driving (h.acting.stack ▸ List.mem_cons_self ..)
  exact (sound.world.exact alive.getElem?).atRest

theorem At.acts (h : At watched script named refers c below here cell waiting invoked i) :
    ∃ x a, Acts c below here x a (moment watched script i) (moment watched script (i + 1)) := by
  rw [moment_succ]
  exact h.acting.acts (moment_sound watched script i)

/-- A step from which the call goes on by itself. -/
theorem At.onward (h : At watched script named refers c below here cell waiting invoked i)
    (leads : ∀ x a, Completion.Does ((moment watched script i).world.completion c) here x a →
      a.onward? = some p ∧ x.cell = cell' ∧ ∀ k, x.waiting k = waiting' k) :
    At watched script named refers c below p cell' waiting' invoked (i + 1) := by
  obtain ⟨x, a, acts⟩ := h.acts
  obtain ⟨next, hcell, hwaiting⟩ := leads x a acts.does
  obtain ⟨acting, books⟩ := acts.onward next h.books
  exact ⟨acting, ⟨books.refers, books.cell.trans hcell,
    fun k => (books.waiting k).trans (hwaiting k), books.invoked⟩⟩

/-- A step with which the call comes to its end. -/
theorem At.ends (h : At watched script named refers c below here cell waiting invoked i)
    (leads : ∀ x a, Completion.Does ((moment watched script i).world.completion c) here x a →
      (∃ answer, a = .done answer) ∧ x = (moment watched script i).world.completion c) :
    Answered watched script named refers c below cell waiting invoked (i + 1) := by
  obtain ⟨x, a, acts⟩ := h.acts
  obtain ⟨⟨answer, rfl⟩, rfl⟩ := leads x a acts.does
  obtain ⟨stack, answers, books⟩ := acts.done h.books
  exact ⟨stack, answers, ⟨books.refers, books.cell.trans h.books.cell,
    fun k => (books.waiting k).trans (h.books.waiting k), books.invoked⟩⟩

end Steps

/-- A drain calls the item that is first in the queue it empties. It goes on when that has
answered, and comes to its end when that has panicked. -/
theorem At.calls (fate : Option Panic) {x : Item} {items : List Item}
    (h : At watched script named refers c below (.sweep s answer v stage n) cell waiting invoked i)
    (first : waiting (stage.kind s) = x :: items)
    (fares : ∀ frames, (moment watched script (i + 1)).stack
        = frames ++ .driving c (.direct (.sweep s answer v stage (n + 1))) :: below →
      (moment watched script (i + 1)).world.called c (stage.kind s)
        = (moment watched script i).world.called c (stage.kind s) ++ [x] →
      Fares watched script named c
        (.driving c (.direct (.sweep s answer v stage (n + 1))) :: below) fate i) :
    ∃ j, Stays watched script below i j ∧
      (moment watched script j).world.tallies c = (moment watched script i).world.tallies c ∧
      Books named refers c cell (replaced waiting (stage.kind s) items)
        (invoked ++ [(stage.kind s, x, stage.argument v)]) (moment watched script j).world ∧
      match fate with
      | none => Acting c below (.sweep s answer v stage (n + 1)) (moment watched script j)
      | some p => (moment watched script j).stack = below ∧
          (moment watched script j).control = .unwind p := by
  have queue := (h.books.waiting (stage.kind s)).trans first
  obtain ⟨x', a, acts⟩ := h.acts
  have noted := acts.invoked
  have leads := acts.leads
  have silent := h.acting.tallies (moment_sound watched script i)
  rw [← moment_succ, Completion.Point.tallies, List.append_nil] at silent
  cases acts.does with
  | leave ht | close ht => cases (h.rest.take?_none ht).2.1.symm.trans queue
  | @take _ _ _ _ _ q y ht =>
    obtain ⟨rfl, rfl⟩ := List.cons.inj ((h.rest.take?_some ht).2.symm.trans queue)
    have called : (moment watched script (i + 1)).world.called c (stage.kind s)
        = (moment watched script i).world.called c (stage.kind s) ++ [y] := by
      rw [called_eq, called_eq, noted, List.filter_append, List.map_append]
      congr 1
      simp [Action.invokes]
    have books : Books named refers c cell (replaced waiting (stage.kind s) q.toList)
        (invoked ++ [(stage.kind s, y, stage.argument v)])
        (moment watched script (i + 1)).world := by
      refine ⟨fun handle hh => ?_, ?_, fun k => ?_, ?_⟩
      · rw [World.lookup, acts.handles]
        exact h.books.refers handle hh
      · rw [acts.completion, Completion.cell_setQueue]
        exact h.books.cell
      · rw [acts.completion, Completion.waiting_setQueue, h.books.waiting]
        rfl
      · rw [noted, h.books.invoked]
        rfl
    obtain ⟨frames, hstack⟩ : ∃ frames, (moment watched script (i + 1)).stack
        = frames ++ .driving c (.direct (.sweep s answer v stage (n + 1))) :: below := by
      generalize (moment watched script (i + 1)).stack = stack at leads
      cases leads with
      | call => exact ⟨_, rfl⟩
    obtain ⟨j, hij, running, back, fared, books', silent'⟩ :=
      (fares frames hstack called).keeps hstack books
    have high : ∀ k, i ≤ k → k < j + 1 →
        below.length < (moment watched script k).stack.length := by
      intro k hik hkj
      obtain rfl | later := Nat.eq_or_lt_of_le hik
      · exact h.stays.high i (Nat.le_refl i) (Nat.lt_succ_self i)
      · obtain sooner | rfl := Nat.lt_or_eq_of_le (Nat.le_of_lt_succ hkj)
        · exact running k later sooner
        · rw [back]
          exact Nat.lt_succ_self _
    have stays : Stays watched script below i (j + 1) := ⟨by omega, high⟩
    refine ⟨j + 1, stays, ?_⟩
    cases fate with
    | none =>
      obtain ⟨r, answers⟩ := fared
      have next := step_of_answer back answers
      rw [← moment_succ] at next
      rw [next]
      exact ⟨silent'.trans silent, books', rfl, rfl⟩
    | some p =>
      have next := step_of_unwind back fared
      rw [← moment_succ] at next
      rw [next]
      exact ⟨silent'.trans silent, books', rfl, rfl⟩

/-- A drain calls the item that is first in the queue it empties, and goes on when that has
come back. -/
theorem At.takes (undisturbed : Undisturbed watched script named c below i) {x : Item}
    {items : List Item}
    (h : At watched script named refers c below (.sweep s answer v stage n) cell waiting invoked i)
    (first : waiting (stage.kind s) = x :: items) :
    ∃ j, Stays watched script below i j ∧
      At watched script named refers c below (.sweep s answer v stage (n + 1)) cell
        (replaced waiting (stage.kind s) items)
        (invoked ++ [(stage.kind s, x, stage.argument v)]) j := by
  obtain ⟨j, stays, -, books, acting⟩ := h.calls none first
    fun frames hstack called =>
      undisturbed i _ _ _ _ _ _ (.refl i) (Nat.le_refl _) h.acting.stack hstack called
  exact ⟨j, stays, acting, books⟩

/-- A drain empties a queue from the front to the back, however many items there are. -/
theorem At.empties (undisturbed : Undisturbed watched script named c below i)
    (h : At watched script named refers c below (.sweep s answer v stage n) cell waiting
      invoked i) :
    ∃ j n', Stays watched script below i j ∧
      At watched script named refers c below (.sweep s answer v stage n') cell
        (replaced waiting (stage.kind s) [])
        (invoked ++ (waiting (stage.kind s)).map fun x => (stage.kind s, x, stage.argument v))
        j := by
  generalize hitems : waiting (stage.kind s) = items
  induction items generalizing waiting invoked i n with
  | nil =>
    refine ⟨i, n, .refl i, ?_⟩
    rw [← hitems, replaced_self, hitems, List.map_nil, List.append_nil]
    exact h
  | cons x items ih =>
    obtain ⟨j, stays, h'⟩ := h.takes undisturbed hitems
    obtain ⟨l, n', stays', h''⟩ := ih (undisturbed.later stays) h' (if_pos rfl)
    rw [replaced_replaced, List.append_assoc] at h''
    exact ⟨l, n', stays.trans stays', h''⟩

/-- A drain that finds a queue empty goes on to the next stage, or reports. -/
theorem At.leaves
    (h : At watched script named refers c below (.sweep s answer v stage n) cell waiting invoked i)
    (empty : waiting (stage.kind s) = []) :
    At watched script named refers c below
      (match stage.next? with
        | some stage' => .sweep s answer v stage' n
        | none => .report s answer n) cell waiting invoked (i + 1) := by
  have queue := (h.books.waiting (stage.kind s)).trans empty
  have emptied : ∀ {q : Queue Item},
      (((moment watched script i).world.completion c).queue (stage.kind s)).take? = (q, none) →
      (((moment watched script i).world.completion c).setQueue (stage.kind s) q).cell = cell ∧
        ∀ k, (((moment watched script i).world.completion c).setQueue (stage.kind s) q).waiting k
          = waiting k := by
    intro q ht
    refine ⟨(Completion.cell_setQueue ..).trans h.books.cell, fun k => ?_⟩
    rw [Completion.waiting_setQueue, (h.rest.take?_none ht).2.2]
    split
    next hk => rw [← hk, empty]
    next => exact h.books.waiting k
  refine h.onward fun x a does => ?_
  cases does with
  | take ht => cases (h.rest.take?_some ht).2.symm.trans queue
  | leave ht next =>
    rw [next]
    exact ⟨rfl, emptied ht⟩
  | close ht next =>
    rw [next]
    exact ⟨rfl, emptied ht⟩

/-- What is left waiting by a drain on a side. -/
def leftWaiting (s : Side) (waiting : Kind → List Item) : Kind → List Item :=
  fun k => if k = .on s.other then waiting k else []

/-- What a drain calls of what waits, with its arguments and in its order. -/
def drainCalls (o : Outcome Value) (waiting : Kind → List Item) :
    List (Kind × Item × Option Value) :=
  [Kind.waker, .on o.side, .always].flatMap fun k =>
    (waiting k).map fun x => (k, x, k.argument o.value)

/-- A drain invokes of each kind what waits, except for the other side. -/
theorem drainCalls_of_kind (o : Outcome Value) (waiting : Kind → List Item) (k : Kind) :
    (drainCalls o waiting).filter (fun call => call.1 = k)
      = if k = .on o.side.other then [] else
          (waiting k).map fun x => (k, x, k.argument o.value) := by
  have part : ∀ k', ((waiting k').map fun x => (k', x, k'.argument o.value)).filter
      (fun call => call.1 = k) = if k' = k then
        (waiting k).map fun x => (k, x, k.argument o.value) else [] := by
    intro k'
    split
    next same =>
      subst same
      rw [List.filter_eq_self]
      simp
    next other =>
      rw [List.filter_eq_nil_iff]
      simp [other]
  unfold drainCalls
  simp only [List.flatMap_cons, List.flatMap_nil, List.filter_append, part,
    List.append_nil]
  rcases k with s | _ | _
  · cases hs : o.side <;> cases s <;> simp [Side.other]
  · simp
  · simp

/-- What a drain calls does not depend on what waits for the other side. -/
theorem drainCalls_congr {o : Outcome Value} {waiting' : Kind → List Item}
    (same : ∀ k, k ≠ .on o.side.other → waiting k = waiting' k) :
    drainCalls o waiting = drainCalls o waiting' := by
  have matching := same (.on o.side) fun e => Side.other_ne o.side (Kind.on.inj e).symm
  simp only [drainCalls, List.flatMap_cons, List.flatMap_nil, same .waker nofun, matching,
    same .always nofun]

theorem replaced_thrice (s : Side) :
    replaced (replaced (replaced waiting .waker []) (.on s) []) .always []
      = leftWaiting s waiting := by
  funext k
  unfold replaced leftWaiting
  rcases k with s' | _ | _
  · cases s <;> cases s' <;> simp [Side.other]
  · simp
  · simp

/-- A drain on the side on which the completion has settled fetches the value. -/
theorem At.fetches {o : Outcome Value}
    (h : At watched script named refers c below (.check o.side answer) (.holding (some o))
      waiting invoked i) :
    At watched script named refers c below (.fetch o.side answer) (.holding (some o)) waiting
      invoked (i + 1) := by
  refine h.onward fun x a does => ?_
  cases does with
  | check => exact ⟨rfl, h.books.cell, h.books.waiting⟩
  | checkOff off =>
    rw [h.books.cell] at off
    exact absurd rfl off

/-- With the value a drain turns to the wakers. -/
theorem At.opens {o : Outcome Value}
    (h : At watched script named refers c below (.fetch o.side answer) (.holding (some o))
      waiting invoked i) :
    At watched script named refers c below (.sweep o.side answer o.value .wakers 0)
      (.holding (some o)) waiting invoked (i + 1) := by
  have demand : (Cell.holding (some o)).demand o.side = .ok o.value := by
    unfold Cell.demand
    rw [Cell.result_holding]
    exact if_pos rfl
  refine h.onward fun x a does => ?_
  cases does with
  | fetch hv =>
    rw [h.books.cell, demand] at hv
    cases hv
    exact ⟨rfl, h.books.cell, h.books.waiting⟩
  | refuse hst =>
    rw [h.books.cell, demand] at hst
    cases hst

/-- A drain of a settled completion calls all wakers, then what waits for the outcome's side,
then what waits for either, and leaves the other side alone. -/
theorem At.drains {o : Outcome Value} (undisturbed : Undisturbed watched script named c below i)
    (h : At watched script named refers c below (.check o.side answer) (.holding (some o))
      waiting invoked i) :
    ∃ j, Stays watched script below i j ∧
      Answered watched script named refers c below (.holding (some o))
        (leftWaiting o.side waiting) (invoked ++ drainCalls o waiting) j := by
  have fetch := h.fetches
  have sweep := fetch.opens
  have stays₀ : Stays watched script below i (i + 1 + 1) := h.stays.trans fetch.stays
  obtain ⟨j₁, n₁, stays₁, wakers⟩ := sweep.empties (undisturbed.later stays₀)
  have matching := wakers.leaves (if_pos rfl)
  have stays₁' := (stays₀.trans stays₁).trans wakers.stays
  obtain ⟨j₂, n₂, stays₂, matching'⟩ := matching.empties (undisturbed.later stays₁')
  have always := matching'.leaves (if_pos rfl)
  have stays₂' := (stays₁'.trans stays₂).trans matching'.stays
  obtain ⟨j₃, n₃, stays₃, always'⟩ := always.empties (undisturbed.later stays₂')
  have report := always'.leaves (if_pos rfl)
  have finish : At watched script named refers c below (.finish answer) _ _ _ (j₃ + 1 + 1) :=
    report.onward fun x a does => by
      cases does with
      | report => exact ⟨rfl, report.books.cell, report.books.waiting⟩
  have ended := finish.ends fun x a does => by
    cases does with
    | finish => exact ⟨⟨_, rfl⟩, rfl⟩
  have stays := (((stays₂'.trans stays₃).trans always'.stays).trans report.stays).trans
    finish.stays
  refine ⟨_, stays, ?_⟩
  have calls : ∀ stage : Completion.Stage, stage.argument o.value
      = (stage.kind o.side).argument o.value := by
    intro stage
    cases stage <;> rfl
  simpa [replaced_thrice, drainCalls, replaced, calls, Completion.Stage.kind] using ended

end Drains

end Machine

end Eventual
