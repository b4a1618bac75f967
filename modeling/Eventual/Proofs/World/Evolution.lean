import Eventual.Machine.Frame
import Eventual.Proofs.Promise.Steps

/-!
# How worlds evolve

The history of a run says what was registered with each completion and what was
called. A living completion is `Exact` when these accounts agree with its queues:
what was called of a kind, followed by what still waits, is what was registered.

A world is `Sound` while the running calls hold some references, when every living
completion is exact, every reference that is held or bound to a handle leads to a
living completion, and nothing is on record for completions that do not exist yet.

`Evolves` relates two moments of a run between which the running calls below go on
holding what they hold: if the first world is sound so is the second, and what those
calls have seen of a completion is still true. There is one lemma for each kind of
change: a `Quiet` one, the birth of a completion, a handle that is bound or let go,
a death, and a step of a call on one completion.
-/

namespace Eventual

/-- What an event says was called on a completion. -/
def Event.callsOn (c : CompletionId) (k : Kind) : Event → List Item
  | .started c' k' x _ => if c' = c then if k' = k then [x] else [] else []
  | _ => []

/-- What an event says was registered with a completion. -/
def Event.registersWith (c : CompletionId) (k : Kind) : Event → List Item
  | .registered c' k' x => if c' = c then if k' = k then [x] else [] else []
  | _ => []

namespace World

/-- What was called of a kind on a completion, in the order in which the calls began. -/
def called (w : World) (c : CompletionId) (k : Kind) : List Item :=
  w.history.flatMap (Event.callsOn c k)

/-- What was registered of a kind with a completion, in the order of the appends. -/
def registered (w : World) (c : CompletionId) (k : Kind) : List Item :=
  w.history.flatMap (Event.registersWith c k)

@[simp] theorem called_record (w : World) (e : Event) (c : CompletionId) (k : Kind) :
    (w.record e).called c k = w.called c k ++ e.callsOn c k := by simp [called]

@[simp] theorem registered_record (w : World) (e : Event) (c : CompletionId) (k : Kind) :
    (w.record e).registered c k = w.registered c k ++ e.registersWith c k := by simp [registered]

/-- A completion and what is on record for it agree. -/
structure Exact (w : World) (c : CompletionId) (x : Completion Value Item) : Prop where
  atRest : x.AtRest
  cell : x.cell.Sound
  order : ∀ k, w.called c k ++ x.waiting k = w.registered c k
  settled : ∀ k, w.called c k ≠ [] → ∃ s, x.cell.state = .settled s ∧ k ≠ .on s.other

/-- Exactness depends on what is on record for the one completion. -/
theorem Exact.congr {w w' : World} {c : CompletionId} {x : Completion Value Item}
    (h : w.Exact c x) (called : ∀ k, w'.called c k = w.called c k)
    (registered : ∀ k, w'.registered c k = w.registered c k) : w'.Exact c x := by
  refine ⟨h.atRest, h.cell, ?_, ?_⟩
  · intro k
    rw [called, registered, h.order]
  · intro k hk
    rw [called] at hk
    exact h.settled k hk

/-- A completion lives. -/
def Alive (w : World) (c : CompletionId) : Prop := ∃ x, w.completions[c]? = some (some x)

/-- A handle refers to the completion. -/
def Binds (w : World) (c : CompletionId) : Prop :=
  ∃ entry ∈ w.handles, entry.2.entity? = some (.completion c)

end World

/-- One of the references keeps the completion alive. -/
def Holds (held : List Ref) (c : CompletionId) : Prop :=
  ∃ r ∈ held, r.entity? = some (.completion c)

namespace World

/-- A world whose accounts are right, while running calls hold the references. -/
structure Sound (w : World) (held : List Ref) : Prop where
  exact : ∀ {c x}, w.completions[c]? = some (some x) → w.Exact c x
  unborn : ∀ {c}, w.completions.size ≤ c → ∀ k, w.called c k = [] ∧ w.registered c k = []
  held : ∀ {c}, Holds held c → w.Alive c
  bound : ∀ {c}, w.Binds c → w.Alive c

/-- What becomes of a world while running calls hold the references. -/
structure Evolves (held : List Ref) (w w' : World) : Prop where
  sound : w'.Sound held
  /-- What a call that holds a completion has seen of it stays true. -/
  keeps : ∀ c, Holds held c → ∀ p : Site.Point Value Item WakerId,
    p.Fits (w.completion c).cell → ¬ p.Claims → p.Fits (w'.completion c).cell

variable {w w' w'' : World} {held : List Ref}

theorem completion_eq {c : CompletionId} {x : Completion Value Item}
    (h : w.completions[c]? = some (some x)) : w.completion c = x := by
  simp [completion, h]

theorem Alive.getElem? {c : CompletionId} (h : w.Alive c) :
    w.completions[c]? = some (some (w.completion c)) := by
  obtain ⟨x, hx⟩ := h
  rw [hx, completion_eq hx]

theorem Alive.lt_size {c : CompletionId} (h : w.Alive c) : c < w.completions.size :=
  (Array.getElem?_eq_some_iff.1 h.getElem?).1

theorem Alive.setCompletion {c : CompletionId} (h : w.Alive c) (x : Completion Value Item) :
    (w.setCompletion c x).Alive c :=
  ⟨x, Array.getElem?_setIfInBounds_self_of_lt h.lt_size⟩

/-- The queues of a completion are at rest between two steps. -/
theorem Sound.completion_atRest (sound : w.Sound held) (c : CompletionId) :
    (w.completion c).AtRest := by
  unfold World.completion
  rcases hx : w.completions[c]? with _ | _ | x
  · exact .empty
  · exact .empty
  · exact (sound.exact hx).atRest

theorem binds_of_lookup {handle : String} {r : Ref} {c : CompletionId}
    (h : w.lookup handle = some r) (hr : r.entity? = some (.completion c)) : w.Binds c := by
  obtain ⟨before, after, handles, -⟩ := List.lookup_eq_some_iff.1 h
  exact ⟨(handle, r), by simp [handles], hr⟩

namespace Evolves

theorem refl (h : w.Sound held) : Evolves held w w :=
  ⟨h, fun _ _ _ fits _ => fits⟩

theorem trans (h : Evolves held w w') (h' : w'.Sound held → Evolves held w' w'') :
    Evolves held w w'' :=
  ⟨(h' h.sound).sound, fun c hc p fits claims =>
    (h' h.sound).keeps c hc p (h.keeps c hc p fits claims) claims⟩

end Evolves

/-! ## Quiet changes -/

/-- Nothing has changed that concerns completions or handles. -/
structure Quiet (w w' : World) : Prop where
  completions : w'.completions = w.completions
  handles : w'.handles = w.handles
  called : ∀ c k, w'.called c k = w.called c k
  registered : ∀ c k, w'.registered c k = w.registered c k

namespace Quiet

variable {e : Event}

theorem refl (w : World) : Quiet w w := ⟨rfl, rfl, fun _ _ => rfl, fun _ _ => rfl⟩

theorem trans (h : Quiet w w') (h' : Quiet w' w'') : Quiet w w'' :=
  ⟨h'.completions.trans h.completions, h'.handles.trans h.handles,
    fun c k => (h'.called c k).trans (h.called c k),
    fun c k => (h'.registered c k).trans (h.registered c k)⟩

/-- A change of anything but completions, handles and history. -/
theorem of_eq (completions : w'.completions = w.completions) (handles : w'.handles = w.handles)
    (trail : w'.trail = w.trail) : Quiet w w' := by
  refine ⟨completions, handles, ?_, ?_⟩
  · intro c k
    simp only [World.called, history, trail]
  · intro c k
    simp only [World.registered, history, trail]

/-- Any other event than a call or a registration. -/
theorem record (h : ∀ c k, e.callsOn c k = [] ∧ e.registersWith c k = []) (w : World) :
    Quiet w (w.record e) :=
  ⟨rfl, rfl, fun c k => by simp [(h c k).1], fun c k => by simp [(h c k).2]⟩

theorem alive (h : Quiet w w') {c : CompletionId} (hc : w.Alive c) : w'.Alive c := by
  obtain ⟨x, hx⟩ := hc
  exact ⟨x, by rw [h.completions, hx]⟩

theorem completion (h : Quiet w w') (c : CompletionId) : w'.completion c = w.completion c := by
  simp only [World.completion, h.completions]

theorem sound (h : Quiet w w') (sound : w.Sound held) : w'.Sound held := by
  constructor
  · intro c x hx
    rw [h.completions] at hx
    exact (sound.exact hx).congr (h.called c) (h.registered c)
  · intro c hc k
    rw [h.completions] at hc
    rw [h.called, h.registered]
    exact sound.unborn hc k
  · intro c hc
    exact h.alive (sound.held hc)
  · rintro c ⟨entry, hentry, hc⟩
    rw [h.handles] at hentry
    exact h.alive (sound.bound ⟨entry, hentry, hc⟩)

theorem evolves (h : Quiet w w') (sound : w.Sound held) : Evolves held w w' := by
  refine ⟨h.sound sound, ?_⟩
  intro c _ p fits _
  rwa [h.completion]

end Quiet

/-! ## Birth, binding and death -/

theorem Sound.mono {held' : List Ref} (h : w.Sound held)
    (sub : ∀ {c}, Holds held' c → w.Alive c) : w.Sound held' :=
  ⟨h.exact, h.unborn, sub, h.bound⟩

theorem getElem?_addCompletion (w : World) (x : Completion Value Item) (c : CompletionId) :
    (w.addCompletion x).1.completions[c]?
      = if c = w.completions.size then some (some x) else w.completions[c]? := by
  simp [addCompletion, Array.getElem?_push]

theorem Alive.addCompletion {c : CompletionId} (h : w.Alive c) (x : Completion Value Item) :
    (w.addCompletion x).1.Alive c := by
  refine ⟨w.completion c, ?_⟩
  rw [getElem?_addCompletion, if_neg (Nat.ne_of_lt h.lt_size), h.getElem?]

theorem alive_addCompletion (w : World) (x : Completion Value Item) :
    (w.addCompletion x).1.Alive (w.addCompletion x).2 :=
  ⟨x, by rw [getElem?_addCompletion]; simp [World.addCompletion]⟩

/-- A completion may come into being if nothing waits for it yet. -/
theorem Evolves.addCompletion (sound : w.Sound held) {x : Completion Value Item}
    (atRest : x.AtRest) (cell : x.cell.Sound) (bare : ∀ k, x.waiting k = []) :
    Evolves held w (w.addCompletion x).1 := by
  have called : ∀ c k, (w.addCompletion x).1.called c k = w.called c k := fun _ _ => rfl
  have registered : ∀ c k, (w.addCompletion x).1.registered c k = w.registered c k :=
    fun _ _ => rfl
  refine ⟨⟨?_, ?_, ?_, ?_⟩, ?_⟩
  · intro c y hy
    rw [getElem?_addCompletion] at hy
    split at hy
    next hc =>
      obtain rfl : x = y := by simpa using hy
      have unborn := sound.unborn (Nat.le_of_eq hc.symm)
      refine ⟨atRest, cell, ?_, ?_⟩
      · intro k
        rw [called, registered, (unborn k).1, (unborn k).2, bare k]
        rfl
      · intro k hk
        exact absurd (unborn k).1 hk
    next => exact (sound.exact hy).congr (called c) (registered c)
  · intro c hc k
    rw [World.addCompletion, Array.size_push] at hc
    exact sound.unborn (Nat.le_of_succ_le hc) k
  · intro c hc
    exact (sound.held hc).addCompletion x
  · intro c hc
    exact (sound.bound hc).addCompletion x
  · intro c hc p fits _
    have alive := sound.held hc
    have same := (getElem?_addCompletion w x c).trans (if_neg (Nat.ne_of_lt alive.lt_size))
    rwa [completion_eq (same.trans alive.getElem?)]

/-- Handles may be changed as long as all of them refer to what lives. -/
theorem Evolves.rebind (sound : w.Sound held) {handles : List (String × Ref)}
    (alive : ∀ entry ∈ handles, ∀ c, entry.2.entity? = some (.completion c) → w.Alive c) :
    Evolves held w { w with handles } := by
  refine ⟨⟨?_, sound.unborn, sound.held, ?_⟩, fun _ _ _ fits _ => fits⟩
  · intro c x hx
    exact (sound.exact hx).congr (fun _ => rfl) fun _ => rfl
  · rintro c ⟨entry, hentry, hc⟩
    exact alive entry hentry c hc

theorem keeps_completion_iff {c : CompletionId} :
    w.keeps held (.completion c) = true ↔ w.Binds c ∨ Holds held c := by
  simp [keeps, Binds, Holds]

/-- A completion that nothing refers to may die. -/
theorem Evolves.vacate (sound : w.Sound held) {c : CompletionId} (unbound : ¬ w.Binds c)
    (unheld : ¬ Holds held c) : Evolves held w (w.vacate (.completion c)) := by
  have others : ∀ c', c' ≠ c → (w.vacate (.completion c)).completions[c']? = w.completions[c']? :=
    fun c' hc' => Array.getElem?_setIfInBounds_ne fun e => hc' e.symm
  have alive : ∀ {c'}, c' ≠ c → w.Alive c' → (w.vacate (.completion c)).Alive c' := by
    rintro c' hc' ⟨x, hx⟩
    exact ⟨x, (others c' hc').trans hx⟩
  refine ⟨⟨?_, ?_, ?_, ?_⟩, ?_⟩
  · intro c' x hx
    have hne : c' ≠ c := by
      rintro rfl
      simp [World.vacate, Array.getElem?_setIfInBounds] at hx
    rw [others c' hne] at hx
    exact (sound.exact hx).congr (fun _ => rfl) fun _ => rfl
  · intro c' hc' k
    rw [World.vacate, Array.size_setIfInBounds] at hc'
    exact sound.unborn hc' k
  · intro c' hc'
    exact alive (fun e => unheld (e ▸ hc')) (sound.held hc')
  · intro c' hc'
    exact alive (fun e => unbound (e ▸ hc')) (sound.bound hc')
  · intro c' hc' p fits _
    have hne : c' ≠ c := fun e => unheld (e ▸ hc')
    rwa [completion_eq ((others c' hne).trans (sound.held hc').getElem?)]

/-- Letting go of a reference lets nothing die that anything else refers to. -/
theorem Evolves.release (sound : w.Sound held) (r : Ref) : Evolves held w (w.release held r) := by
  unfold World.release
  split
  next => exact .refl sound
  next e _ =>
    split
    next => exact .refl sound
    next free =>
      unfold World.bury
      have vacated : Evolves held w (w.vacate e) := by
        cases e with
        | cell i =>
          have quiet : Quiet w (w.vacate (.cell i)) := .of_eq rfl rfl rfl
          exact quiet.evolves sound
        | queue i =>
          have quiet : Quiet w (w.vacate (.queue i)) := .of_eq rfl rfl rfl
          exact quiet.evolves sound
        | completion c =>
          rw [keeps_completion_iff, not_or] at free
          exact .vacate sound free.1 free.2
      exact vacated.trans (Quiet.record (fun _ _ => ⟨rfl, rfl⟩) _).evolves

theorem mem_of_mem_unbound {handle : String} {entry : String × Ref}
    (h : entry ∈ unbound w.handles handle) : entry ∈ w.handles :=
  (List.mem_filter.1 h).1

theorem Evolves.bind (sound : w.Sound held) (handle : String) {r : Ref}
    (alive : ∀ c, r.entity? = some (.completion c) → w.Alive c) :
    Evolves held w (w.bind held handle r) := by
  have bound : Evolves held w { w with handles := (handle, r) :: unbound w.handles handle } := by
    apply Evolves.rebind sound
    intro entry hentry c hc
    rcases List.mem_cons.1 hentry with rfl | hold
    · exact alive c hc
    · exact sound.bound ⟨entry, mem_of_mem_unbound hold, hc⟩
  unfold World.bind
  split
  next => exact bound
  next old _ => exact bound.trans fun sound' => .release sound' old

theorem Evolves.unbind (sound : w.Sound held) {handle : String}
    (h : w.unbind? held handle = some w') : Evolves held w w' := by
  obtain ⟨old, -, rfl⟩ := Option.map_eq_some_iff.1 h
  have unbound : Evolves held w { w with handles := unbound w.handles handle } :=
    .rebind sound fun entry hentry c hc => sound.bound ⟨entry, mem_of_mem_unbound hentry, hc⟩
  exact unbound.trans fun sound' => .release sound' old

theorem handles_release (w : World) (held : List Ref) (r : Ref) :
    (w.release held r).handles = w.handles := by
  unfold World.release
  split
  · rfl
  next e _ =>
    split
    · rfl
    · cases e <;> rfl

theorem binds_bind (w : World) (held : List Ref) (handle : String) {r : Ref} {c : CompletionId}
    (hr : r.entity? = some (.completion c)) : (w.bind held handle r).Binds c := by
  refine ⟨(handle, r), ?_, hr⟩
  unfold World.bind
  split
  · exact List.mem_cons_self ..
  · rw [handles_release]
    exact List.mem_cons_self ..

/-! ## A step on one completion -/

/-- One completion changes, and so may what is on record for it. -/
theorem Evolves.update (sound : w.Sound held) {c : CompletionId} {x : Completion Value Item}
    (alive : w.Alive c) (completions : w'.completions = w.completions.setIfInBounds c (some x))
    (handles : w'.handles = w.handles)
    (called : ∀ c', c' ≠ c → ∀ k, w'.called c' k = w.called c' k)
    (registered : ∀ c', c' ≠ c → ∀ k, w'.registered c' k = w.registered c' k)
    (exact : w'.Exact c x)
    (keeps : ∀ p : Site.Point Value Item WakerId,
      p.Fits (w.completion c).cell → ¬ p.Claims → p.Fits x.cell) : Evolves held w w' := by
  have this : w'.completions[c]? = some (some x) := by
    rw [completions, Array.getElem?_setIfInBounds_self_of_lt alive.lt_size]
  have others : ∀ c', c' ≠ c → w'.completions[c']? = w.completions[c']? := by
    intro c' hc'
    rw [completions, Array.getElem?_setIfInBounds_ne fun e => hc' e.symm]
  have lives : ∀ {c'}, w.Alive c' → w'.Alive c' := by
    rintro c' ⟨y, hy⟩
    by_cases hc' : c' = c
    · exact ⟨x, hc' ▸ this⟩
    · exact ⟨y, (others c' hc').trans hy⟩
  refine ⟨⟨?_, ?_, ?_, ?_⟩, ?_⟩
  · intro c' y hy
    by_cases hc' : c' = c
    · subst hc'
      obtain rfl : x = y := by simpa [this] using hy
      exact exact
    · rw [others c' hc'] at hy
      exact (sound.exact hy).congr (called c' hc') (registered c' hc')
  · intro c' hc' k
    rw [completions, Array.size_setIfInBounds] at hc'
    have hne : c' ≠ c := fun e => Nat.not_lt_of_le hc' (e ▸ alive.lt_size)
    rw [called c' hne, registered c' hne]
    exact sound.unborn hc' k
  · intro c' hc'
    exact lives (sound.held hc')
  · rintro c' ⟨entry, hentry, hc'⟩
    rw [handles] at hentry
    exact lives (sound.bound ⟨entry, hentry, hc'⟩)
  · intro c' hc' p fits claims
    by_cases h : c' = c
    · subst h
      rw [completion_eq this]
      exact keeps p fits claims
    · rwa [completion_eq ((others c' h).trans (sound.held hc').getElem?)]

end World

end Eventual
