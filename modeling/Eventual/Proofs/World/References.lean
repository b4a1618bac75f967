import Eventual.Proofs.World.Changes

/-!
# Who can come to know a completion

Whoever has a reference can make others of it: copies, and from a deferred the promises of
its completion. Nothing else makes a reference to a completion, which is `Ref.Yields`.

`Proceeds` is what a step does to its world that neither brings a completion into being nor
goes on with a call on one: the events that it notes are `Plain`, completions stay as they
are or die, and the handles refer to what the handles before yield, or to what is granted.
A completion comes into being with one reference that is granted, `Births`.
-/

namespace Eventual

/-- The references that can be made of a reference. -/
inductive Ref.Yields : Ref → Ref → Prop
  | refl (r : Ref) : Yields r r
  | promise {c : CompletionId} {ctx : Context} {watch : WatchId} :
      Yields (.deferred c ctx) (.promise c ctx watch)
  | clone {c : CompletionId} {ctx : Context} {watch watch' : WatchId} :
      Yields (.promise c ctx watch) (.promise c ctx watch')

theorem Ref.Yields.trans {r r' r'' : Ref} (h : r.Yields r') (h' : r'.Yields r'') :
    r.Yields r'' := by
  cases h with
  | refl _ => exact h'
  | promise => cases h' <;> exact .promise
  | clone => cases h' <;> exact .clone

theorem Ref.Yields.entity? {r r' : Ref} (h : r.Yields r') : r'.entity? = r.entity? := by
  cases h <;> rfl

/-- A deferred is made of a deferred only. -/
theorem Ref.Yields.of_deferred {r : Ref} {c : CompletionId} {ctx : Context}
    (h : r.Yields (.deferred c ctx)) : r = .deferred c ctx := by
  cases h
  rfl

/-- An event that neither calls, registers, logs or reports anything, nor settles a
completion. -/
def Event.Plain : Event → Prop
  | .registered _ _ _ | .started _ _ _ _ | .logged _ _ | .reported _ _ => False
  | .settled (.completion _) _ => False
  | _ => True

namespace World

/-- A reference that refers to no completion, or is made of those of the handles or of what is
granted. -/
def Learns (granted : List Ref) (w : World) (r : Ref) : Prop :=
  (∃ old ∈ w.handles, old.2.Yields r) ∨ (∃ r' ∈ granted, r'.Yields r) ∨
    ∀ c, r.entity? ≠ some (.completion c)

/-- What a step does to its world, some references granted, that neither brings a completion
into being nor goes on with a call on one. -/
structure Proceeds (granted : List Ref) (w w' : World) : Prop where
  history : ∃ events, w'.history = w.history ++ events ∧ ∀ ev ∈ events, ev.Plain
  size : w'.completions.size = w.completions.size
  places : ∀ c : CompletionId,
    w'.completions[c]? = w.completions[c]? ∨ w'.completions[c]? = some none
  handles : ∀ entry ∈ w'.handles, Learns granted w entry.2

namespace Proceeds

variable {granted : List Ref} {w w' w'' : World} {held : List Ref} {handle : String} {r : Ref}
  {c : CompletionId}

theorem refl (w : World) : Proceeds granted w w :=
  ⟨⟨[], (List.append_nil _).symm, List.forall_mem_nil _⟩, rfl, fun _ => .inl rfl,
    fun entry hentry => .inl ⟨entry, hentry, .refl _⟩⟩

/-- What can be learned after some steps can be learned before them. -/
theorem learns (h : Proceeds granted w w') (known : Learns granted w' r) :
    Learns granted w r := by
  obtain ⟨old, hold, yields⟩ | known := known
  · obtain ⟨older, holder, yields'⟩ | ⟨r', hr', yields'⟩ | apart := h.handles old hold
    · exact .inl ⟨older, holder, yields'.trans yields⟩
    · exact .inr (.inl ⟨r', hr', yields'.trans yields⟩)
    · exact .inr (.inr fun c hc => apart c (yields.entity? ▸ hc))
  · exact .inr known

theorem trans (h : Proceeds granted w w') (h' : Proceeds granted w' w'') :
    Proceeds granted w w'' := by
  obtain ⟨events, history, plain⟩ := h.history
  obtain ⟨events', history', plain'⟩ := h'.history
  refine ⟨⟨events ++ events', ?_, ?_⟩, h'.size.trans h.size, ?_, ?_⟩
  · rw [history', history, List.append_assoc]
  · exact List.forall_mem_append.2 ⟨plain, plain'⟩
  · intro c
    obtain same' | dead' := h'.places c
    · rw [same']
      exact h.places c
    · exact .inr dead'
  · exact fun entry hentry => h.learns (h'.handles entry hentry)

/-- A change of anything but completions, handles and history. -/
theorem of_eq (completions : w'.completions = w.completions) (handles : w'.handles = w.handles)
    (trail : w'.trail = w.trail) : Proceeds granted w w' := by
  refine ⟨⟨[], ?_, List.forall_mem_nil _⟩, congrArg _ completions, ?_, ?_⟩
  · rw [World.history, World.history, trail, List.append_nil]
  · exact fun c => .inl (by rw [completions])
  · exact fun entry hentry => .inl ⟨entry, handles ▸ hentry, .refl _⟩

theorem record (w : World) (ev : Event) (plain : ev.Plain) : Proceeds granted w (w.record ev) :=
  ⟨⟨[ev], history_record w ev, List.forall_mem_singleton.2 plain⟩, rfl, fun _ => .inl rfl,
    fun entry hentry => .inl ⟨entry, hentry, .refl _⟩⟩

theorem vacate (w : World) (e : Entity) : Proceeds granted w (w.vacate e) := by
  cases e with
  | cell i | queue i => exact .of_eq rfl rfl rfl
  | completion c =>
    refine ⟨⟨[], (List.append_nil _).symm, List.forall_mem_nil _⟩, Array.size_setIfInBounds, ?_,
      fun entry hentry => .inl ⟨entry, hentry, .refl _⟩⟩
    intro c'
    by_cases same : c = c' ∧ c < w.completions.size
    · obtain ⟨rfl, hc⟩ := same
      exact .inr (Array.getElem?_setIfInBounds_self_of_lt hc)
    · apply Or.inl
      by_cases hc : c = c'
      · subst hc
        have out : w.completions.size ≤ c := Nat.le_of_not_lt fun hc => same ⟨rfl, hc⟩
        simp [World.vacate, out]
      · exact Array.getElem?_setIfInBounds_ne hc

theorem release (w : World) (held : List Ref) (r : Ref) :
    Proceeds granted w (w.release held r) := by
  unfold World.release
  split
  next => exact .refl w
  next e _ =>
    split
    next => exact .refl w
    next => exact (vacate w e).trans (.record _ _ trivial)

/-- Handles may be changed as long as they refer to what can be learned. -/
theorem rebind {handles : List (String × Ref)}
    (known : ∀ entry ∈ handles, Learns granted w entry.2) :
    Proceeds granted w { w with handles } :=
  ⟨⟨[], (List.append_nil _).symm, List.forall_mem_nil _⟩, rfl, fun _ => .inl rfl, known⟩

theorem unbound (granted : List Ref) (w : World) (handle : String) :
    ∀ entry ∈ unbound w.handles handle, Learns granted w entry.2 :=
  fun entry hentry => .inl ⟨entry, mem_of_mem_unbound hentry, .refl _⟩

theorem bind (held : List Ref) (handle : String) (known : Learns granted w r) :
    Proceeds granted w (w.bind held handle r) := by
  have bound : Proceeds granted w
      { w with handles := (handle, r) :: World.unbound w.handles handle } :=
    rebind (List.forall_mem_cons.2 ⟨known, unbound granted w handle⟩)
  unfold World.bind
  split
  next => exact bound
  next old _ => exact bound.trans (.release _ held old)

theorem unbind (h : w.unbind? held handle = some w') : Proceeds granted w w' := by
  obtain ⟨old, -, rfl⟩ := Option.map_eq_some_iff.1 h
  have unbound : Proceeds granted w { w with handles := World.unbound w.handles handle } :=
    rebind (unbound granted w handle)
  exact unbound.trans (.release _ held old)

theorem bindPromise {ctx : Context} (held : List Ref) (handle : String)
    (known : ∀ watch, Learns granted w (.promise c ctx watch)) :
    Proceeds granted w (w.bindPromise held handle c ctx) := by
  have watched : Proceeds granted w w.addWatch.1 := .of_eq rfl rfl rfl
  exact watched.trans (.bind held handle (known w.watches.size))

/-- What is counted of other events than plain ones does not change. -/
theorem flatMap_history {β : Type} (h : Proceeds granted w w') (f : Event → List β)
    (plain : ∀ ev, ev.Plain → f ev = []) : w'.history.flatMap f = w.history.flatMap f := by
  obtain ⟨events, history, all⟩ := h.history
  have nothing : events.flatMap f = [] :=
    List.flatMap_eq_nil_iff.2 fun ev hev => plain ev (all ev hev)
  rw [history, List.flatMap_append, nothing, List.append_nil]

theorem called (h : Proceeds granted w w') (c : CompletionId) (k : Kind) :
    w'.called c k = w.called c k := by
  refine h.flatMap_history _ fun ev plain => ?_
  cases ev with
  | started => exact plain.elim
  | _ => rfl

theorem registered (h : Proceeds granted w w') (c : CompletionId) (k : Kind) :
    w'.registered c k = w.registered c k := by
  refine h.flatMap_history _ fun ev plain => ?_
  cases ev with
  | registered => exact plain.elim
  | _ => rfl

/-- A completion that lives on is as it was. -/
theorem completion (h : Proceeds granted w w') (alive : w'.Alive c) :
    w'.completion c = w.completion c := by
  obtain ⟨x, hx⟩ := alive
  obtain same | dead := h.places c
  · rw [World.completion, World.completion, same]
  · cases hx.symm.trans dead

end Proceeds

/-- A completion comes into being, with the reference that is granted for it: pending, or
settled at once. -/
inductive Births (w : World) : World → Ref → Prop
  | pending {r : Ref} : r.entity? = some (.completion w.completions.size) →
      Births w (w.addCompletion {}).1 r
  | settled {ctx : Context} {watch : WatchId} {o : Outcome Value} :
      Births w ((w.addCompletion {}).1.settle w.completions.size o)
        (.promise w.completions.size ctx watch)

namespace Births

variable {w w' : World} {r : Ref}

theorem entity? (h : Births w w' r) : r.entity? = some (.completion w.completions.size) := by
  cases h with
  | pending hr => exact hr
  | settled => rfl

theorem handles (h : Births w w' r) : w'.handles = w.handles := by cases h <;> rfl

theorem size (h : Births w w' r) : w'.completions.size = w.completions.size + 1 := by
  cases h with
  | pending _ => exact Array.size_push _
  | settled =>
    show (Array.setIfInBounds ..).size = _
    rw [Array.size_setIfInBounds]
    exact Array.size_push _

/-- The completions before are as they were. -/
theorem getElem? (h : Births w w' r) {c : CompletionId} (hc : c < w.completions.size) :
    w'.completions[c]? = w.completions[c]? := by
  have old := (getElem?_addCompletion w {} c).trans (if_neg (Nat.ne_of_lt hc))
  cases h with
  | pending _ => exact old
  | settled => exact (Array.getElem?_setIfInBounds_ne (Nat.ne_of_lt hc).symm).trans old

/-- What is counted of other events than settlements and plain ones does not change. -/
theorem flatMap_history {β : Type} (h : Births w w' r) (f : Event → List β)
    (plain : ∀ ev, ev.Plain → f ev = [])
    (settled : ∀ o, f (.settled (.completion w.completions.size) o) = []) :
    w'.history.flatMap f = w.history.flatMap f := by
  cases h with
  | pending _ => rfl
  | @settled _ _ o =>
    rw [World.settle, history_record, List.flatMap_append, List.flatMap_singleton, settled,
      List.append_nil]
    have offered : f (.offered (.completion w.completions.size) o) = [] := plain _ trivial
    show ((w.addCompletion {}).1.record _).history.flatMap f = _
    rw [history_record, List.flatMap_append, List.flatMap_singleton, offered, List.append_nil]
    rfl

theorem called (h : Births w w' r) (c : CompletionId) (k : Kind) :
    w'.called c k = w.called c k := by
  refine h.flatMap_history _ (fun ev plain => ?_) fun _ => rfl
  cases ev with
  | started => exact plain.elim
  | _ => rfl

theorem registered (h : Births w w' r) (c : CompletionId) (k : Kind) :
    w'.registered c k = w.registered c k := by
  refine h.flatMap_history _ (fun ev plain => ?_) fun _ => rfl
  cases ev with
  | registered => exact plain.elim
  | _ => rfl

end Births

end World

theorem mem_of_lookup {w : World} {handle : String} {r : Ref} (h : w.lookup handle = some r) :
    (handle, r) ∈ w.handles := by
  obtain ⟨before, after, handles, -⟩ := List.lookup_eq_some_iff.1 h
  simp [handles]

end Eventual
