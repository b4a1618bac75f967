import Eventual.Machine.Begin
import Eventual.Proofs.World.Evolution

/-!
# What can change in a world

Everything a run does to its world, the steps of calls on completions apart, is put
together from a few kinds of `Change`: an event is noted, something comes into being,
handles are bound, a cell is committed to, a thing dies. A thing dies only when no handle
and no running call refers to it, and handles are bound only to what lives, so a world
stays `Rooted`: whatever it is referred to by, a cell or a completion lives.
-/

namespace Eventual

/-- The things that an outcome can settle: cells and completions. -/
def Entity.Settles : Entity → Prop
  | .cell _ | .completion _ => True
  | .queue _ => False

/-- The thing that an event is about. -/
def Event.subject? : Event → Option Entity
  | .registered c _ _ | .started c _ _ _ | .copied c _ => some (.completion c)
  | .offered e _ | .settled e _ | .lost e _ | .buried e _ _ => some e
  | .appended _ _ | .tested _ _ | .discarded _ _ | .consumed _ _ | .forgone _ _ | .woken _ _
  | .ended _ | .reported _ _ | .logged _ _ | .replied _ _ | .faulted _ _ | .concluded _ _ => none

namespace World

variable {w w' w'' : World} {held : List Ref} {e : Entity} {r : Ref} {i : Nat}
  {c : CompletionId}

/-! ## Places -/

/-- The place of a thing that an outcome can settle: `none` before the thing comes into
being, `some none` after its death. A cell counts as a completion that nothing waits for. -/
def place (w : World) : Entity → Option (Option (Completion Value Item))
  | .cell i => w.cells[i]?.map (Option.map fun cell => { cell })
  | .completion c => w.completions[c]?
  | .queue _ => none

/-- A thing lives. -/
def Lives (w : World) (e : Entity) : Prop := ∃ x, w.place e = some (some x)

theorem Lives.place_completion (h : w.Lives (.completion c)) :
    w.place (.completion c) = some (some (w.completion c)) :=
  Alive.getElem? h

theorem Lives.place_cell (h : w.Lives (.cell i)) :
    w.place (.cell i) = some (some { cell := w.cell i }) := by
  obtain ⟨x, hx⟩ := h
  obtain ⟨cell, hcell, found⟩ := Option.map_eq_some_iff.1 hx
  obtain ⟨y, rfl, -⟩ := Option.map_eq_some_iff.1 found
  have same : w.cell i = y := by simp [World.cell, hcell]
  rw [World.place, hcell, same]
  rfl

theorem Lives.cell_lt (h : w.Lives (.cell i)) : i < w.cells.size := by
  obtain ⟨x, hx⟩ := h
  obtain ⟨cell, hcell, -⟩ := Option.map_eq_some_iff.1 hx
  exact (Array.getElem?_eq_some_iff.1 hcell).1

@[simp] theorem place_record (w : World) (ev : Event) (e : Entity) :
    (w.record ev).place e = w.place e := by cases e <;> rfl

theorem place_setCell (h : w.Lives (.cell i)) (x : Cell Value) :
    (w.setCell i x).place (.cell i) = some (some { cell := x }) := by
  simp [place, setCell, Array.getElem?_setIfInBounds_self_of_lt h.cell_lt]

theorem place_setCell_of_ne (h : e ≠ .cell i) (x : Cell Value) :
    (w.setCell i x).place e = w.place e := by
  cases e with
  | cell j =>
    have hne : i ≠ j := fun same => h (same ▸ rfl)
    simp [place, setCell, Array.getElem?_setIfInBounds_ne hne]
  | completion _ | queue _ => rfl

theorem place_setCompletion (h : w.Lives (.completion c)) (x : Completion Value Item) :
    (w.setCompletion c x).place (.completion c) = some (some x) :=
  Array.getElem?_setIfInBounds_self_of_lt (Alive.lt_size h)

theorem place_setCompletion_of_ne (h : e ≠ .completion c) (x : Completion Value Item) :
    (w.setCompletion c x).place e = w.place e := by
  cases e with
  | completion d =>
    exact Array.getElem?_setIfInBounds_ne fun same => h (congrArg Entity.completion same.symm)
  | cell _ | queue _ => rfl

theorem place_addCell (w : World) (e : Entity) :
    (w.addCell {}).1.place e
      = if e = .cell w.cells.size then some (some {}) else w.place e := by
  cases e with
  | cell i =>
    by_cases hi : i = w.cells.size
    · subst hi
      simp [place, addCell]
    · simp [place, addCell, Array.getElem?_push, hi]
  | completion _ | queue _ => rfl

theorem place_addCompletion (w : World) (e : Entity) :
    (w.addCompletion {}).1.place e
      = if e = .completion w.completions.size then some (some {}) else w.place e := by
  cases e with
  | completion c =>
    have born := getElem?_addCompletion w {} c
    by_cases hc : c = w.completions.size
    · subst hc
      simpa [place] using born
    · simpa [place, hc] using born
  | cell _ | queue _ => rfl

theorem place_vacate_of_ne {d : Entity} (h : e ≠ d) : (w.vacate d).place e = w.place e := by
  cases d with
  | cell i =>
    cases e with
    | cell j =>
      have hne : i ≠ j := fun same => h (same ▸ rfl)
      simp [place, vacate, Array.getElem?_setIfInBounds_ne hne]
    | completion _ | queue _ => rfl
  | completion c =>
    cases e with
    | completion d =>
      exact Array.getElem?_setIfInBounds_ne fun same => h (congrArg Entity.completion same.symm)
    | cell _ | queue _ => rfl
  | queue q => cases e <;> rfl

theorem place_vacate (h : w.Lives e) : (w.vacate e).place e = some none := by
  cases e with
  | cell i => simp [place, vacate, Array.getElem?_setIfInBounds_self_of_lt h.cell_lt]
  | completion c => exact Array.getElem?_setIfInBounds_self_of_lt (Alive.lt_size h)
  | queue q =>
    obtain ⟨x, hx⟩ := h
    cases hx

/-! ## Roots -/

/-- What a reference refers to lives, if it is a cell or a completion. -/
def Valid (w : World) (r : Ref) : Prop := ∀ e, r.entity? = some e → e.Settles → w.Lives e

/-- All handles and all references that the running calls hold refer to what lives. -/
structure Rooted (w : World) (held : List Ref) : Prop where
  bound : ∀ entry ∈ w.handles, w.Valid entry.2
  held : ∀ r ∈ held, w.Valid r

theorem Rooted.lookup (h : w.Rooted held) {handle : String} (hr : w.lookup handle = some r) :
    w.Valid r := by
  obtain ⟨before, after, handles, -⟩ := List.lookup_eq_some_iff.1 hr
  exact h.bound (handle, r) (by simp [handles])

theorem Rooted.of_lives (h : w.Rooted held) (handles : w'.handles = w.handles)
    (lives : ∀ e, w.Lives e → w'.Lives e) : w'.Rooted held := by
  constructor
  · intro entry hentry e he settles
    rw [handles] at hentry
    exact lives e (h.bound entry hentry e he settles)
  · intro r hr e he settles
    exact lives e (h.held r hr e he settles)

theorem not_keeps_iff :
    ¬ w.keeps held e = true ↔
      (∀ entry ∈ w.handles, entry.2.entity? ≠ some e) ∧ ∀ r ∈ held, r.entity? ≠ some e := by
  simp [keeps]

/-! ## Changes -/

/-- Commit to a cell, with what goes on record. -/
def commit (w : World) (i : Nat) (o : Outcome Value) : World :=
  ((w.record (.offered (.cell i) o)).setCell i ((w.cell i).tryCommit o).1).record
    (if ((w.cell i).tryCommit o).2 then .settled (.cell i) o else .lost (.cell i) o)

/-- Settle a completion that nobody knows yet, with what goes on record. -/
def settle (w : World) (c : CompletionId) (o : Outcome Value) : World :=
  ((w.record (.offered (.completion c) o)).setCompletion c
    { w.completion c with cell := ((w.completion c).cell.tryCommit o).1 }).record
    (.settled (.completion c) o)

/-- One change of a world, made while the running calls hold the references. -/
inductive Change (held : List Ref) : World → World → Prop
  /-- An event that is not about a thing goes on record. -/
  | note {w : World} {ev : Event} : ev.subject? = none → Change held w (w.record ev)
  /-- Queues, watches and wakers come into being or change. -/
  | furnish {w w' : World} : w'.handles = w.handles → w'.cells = w.cells →
      w'.completions = w.completions → w'.trail = w.trail → Change held w w'
  /-- A reader is given a copy of an outcome. -/
  | copy {w : World} {c : CompletionId} {o : Outcome Value} : w.Lives (.completion c) →
      (w.completion c).cell.result = some o → Change held w (w.record (.copied c o))
  | commit {w : World} {i : Nat} {o : Outcome Value} : w.Lives (.cell i) →
      Change held w (w.commit i o)
  | settle {w : World} {c : CompletionId} {o : Outcome Value} : w.Lives (.completion c) →
      (w.completion c).cell.state = .pending → Change held w (w.settle c o)
  | addCell {w : World} : Change held w (w.addCell {}).1
  | addCompletion {w : World} : Change held w (w.addCompletion {}).1
  /-- Handles are bound to what lives, or let go. -/
  | rebind {w : World} {handles : List (String × Ref)} : (∀ entry ∈ handles, w.Valid entry.2) →
      Change held w { w with handles }
  /-- A thing dies that nothing refers to. -/
  | bury {w : World} {e : Entity} : (e.Settles → w.Lives e) → ¬ w.keeps held e = true →
      Change held w (w.bury e)

/-- One change after another. -/
inductive Changes (held : List Ref) : World → World → Prop
  | refl {w : World} : Changes held w w
  | step {w w' w'' : World} : Changes held w w' → Change held w' w'' → Changes held w w''

theorem Change.changes (h : Change held w w') : Changes held w w' := .step .refl h

theorem Changes.trans (h : Changes held w w') (h' : Changes held w' w'') :
    Changes held w w'' := by
  induction h' with
  | refl => exact h
  | step _ change ih => exact .step ih change

theorem Lives.setCell {x : Cell Value} (h : w.Lives e) (this : w.Lives (.cell i)) :
    (w.setCell i x).Lives e := by
  by_cases hi : e = .cell i
  · subst hi
    exact ⟨_, place_setCell this x⟩
  · obtain ⟨y, hy⟩ := h
    exact ⟨y, (place_setCell_of_ne hi x).trans hy⟩

theorem Lives.setCompletion {x : Completion Value Item} (h : w.Lives e)
    (this : w.Lives (.completion c)) : (w.setCompletion c x).Lives e := by
  by_cases hc : e = .completion c
  · subst hc
    exact ⟨_, place_setCompletion this x⟩
  · obtain ⟨y, hy⟩ := h
    exact ⟨y, (place_setCompletion_of_ne hc x).trans hy⟩

theorem Lives.record (h : w.Lives e) (ev : Event) : (w.record ev).Lives e := by
  obtain ⟨x, hx⟩ := h
  exact ⟨x, (place_record w ev e).trans hx⟩

theorem lives_addCell (w : World) : (w.addCell {}).1.Lives (.cell w.cells.size) :=
  ⟨{}, by rw [place_addCell, if_pos rfl]⟩

theorem lives_addCompletion (w : World) :
    (w.addCompletion {}).1.Lives (.completion w.completions.size) :=
  ⟨{}, by rw [place_addCompletion, if_pos rfl]⟩

/-- What a handle or a running call refers to lives after every change. -/
theorem Change.rooted (h : Change held w w') (rooted : w.Rooted held) : w'.Rooted held := by
  cases h with
  | note _ | copy _ _ => exact rooted.of_lives rfl fun e lives => lives.record _
  | furnish handles cells completions _ =>
    refine rooted.of_lives handles fun e lives => ?_
    obtain ⟨x, hx⟩ := lives
    refine ⟨x, ?_⟩
    cases e <;> simpa only [place, cells, completions] using hx
  | commit this =>
    exact rooted.of_lives rfl fun e lives =>
      ((lives.record _).setCell (this.record _)).record _
  | settle this _ =>
    exact rooted.of_lives rfl fun e lives =>
      ((lives.record _).setCompletion (this.record _)).record _
  | addCell =>
    refine rooted.of_lives rfl fun e lives => ?_
    obtain ⟨x, hx⟩ := lives
    unfold Lives
    rw [place_addCell]
    split
    · exact ⟨_, rfl⟩
    · exact ⟨x, hx⟩
  | addCompletion =>
    refine rooted.of_lives rfl fun e lives => ?_
    obtain ⟨x, hx⟩ := lives
    unfold Lives
    rw [place_addCompletion]
    split
    · exact ⟨_, rfl⟩
    · exact ⟨x, hx⟩
  | rebind valid => exact ⟨valid, rooted.held⟩
  | @bury d _ free =>
    obtain ⟨unbound, unheld⟩ := not_keeps_iff.1 free
    have spared : ∀ {r : Ref}, w.Valid r → r.entity? ≠ some d → (w.bury d).Valid r := by
      intro r valid hr e he settles
      obtain ⟨x, hx⟩ := valid e he settles
      have hne : e ≠ d := fun same => hr (same ▸ he)
      exact ⟨x, (place_record _ _ e).trans ((place_vacate_of_ne hne).trans hx)⟩
    have handles : (w.bury d).handles = w.handles := by cases d <;> rfl
    constructor
    · intro entry hentry
      rw [handles] at hentry
      exact spared (rooted.bound entry hentry) (unbound entry hentry)
    · intro r hr
      exact spared (rooted.held r hr) (unheld r hr)

theorem Changes.rooted (h : Changes held w w') (rooted : w.Rooted held) : w'.Rooted held := by
  induction h with
  | refl => exact rooted
  | step _ change ih => exact change.rooted ih

/-- The history only grows. -/
theorem Changes.history (h : Changes held w w') : w.history <+: w'.history := by
  have grows : ∀ {w w' : World}, w.trail <:+ w'.trail → w.history <+: w'.history :=
    fun grown => List.reverse_prefix.2 grown
  induction h with
  | refl => exact List.prefix_rfl
  | step _ change ih =>
    refine ih.trans (grows ?_)
    cases change with
    | note _ | copy _ _ => exact List.suffix_cons ..
    | furnish _ _ _ trail => exact trail ▸ List.suffix_rfl
    | commit _ | settle _ _ => exact (List.suffix_cons ..).trans (List.suffix_cons ..)
    | addCell | addCompletion | rebind _ => exact List.suffix_rfl
    | @bury d _ _ => cases d <;> exact List.suffix_cons ..

/-! ## Handles -/

theorem Changes.release (valid : w.Valid r) :
    Changes held w (w.release held r) := by
  unfold World.release
  split
  next => exact .refl
  next e he =>
    split
    next => exact .refl
    next free => exact (Change.bury (valid e he) free).changes

theorem Rooted.unbound (h : w.Rooted held) (handle : String) :
    ∀ entry ∈ unbound w.handles handle, w.Valid entry.2 :=
  fun entry hentry => h.bound entry (mem_of_mem_unbound hentry)

theorem Changes.bind (rooted : w.Rooted held) (handle : String) (valid : w.Valid r) :
    Changes held w (w.bind held handle r) := by
  have bound : Change held w { w with handles := (handle, r) :: unbound w.handles handle } :=
    .rebind (List.forall_mem_cons.2 ⟨valid, rooted.unbound handle⟩)
  unfold World.bind
  split
  next => exact bound.changes
  next old hold =>
    exact bound.changes.trans (.release (rooted.lookup hold))

theorem Changes.unbind (rooted : w.Rooted held) {handle : String}
    (h : w.unbind? held handle = some w') : Changes held w w' := by
  obtain ⟨old, hold, rfl⟩ := Option.map_eq_some_iff.1 h
  have unbound : Change held w { w with handles := unbound w.handles handle } :=
    .rebind (rooted.unbound handle)
  exact unbound.changes.trans (.release (rooted.lookup hold))

theorem Changes.bindPromise (rooted : w.Rooted held) (handle : String) (ctx : Context)
    (lives : w.Lives (.completion c)) : Changes held w (w.bindPromise held handle c ctx) := by
  have watched : Change held w w.addWatch.1 := .furnish rfl rfl rfl rfl
  refine watched.changes.trans (.bind (watched.rooted rooted) handle ?_)
  intro e he _
  obtain rfl : .completion c = e := by simpa [Ref.entity?] using he
  exact lives

end World

end Eventual
