import Eventual.Proofs.Interleaving.Ends

/-!
# What a poll answers

Threads register callbacks on a promise, settle it and poll its handles, and some of
the callbacks panic. A poll looks at the outcome, registers its relay and looks again.
When it registers, it may find that the cell has been settled since its first look.
Then it drains on its own thread, so it calls the callbacks that nobody has taken yet,
and a panic that the policy lets out of one of them ends the poll: the poll has been
overtaken. That is the only way in which a poll fails to answer that it is pending or
ready, and whoever has been overtaken while such a callback waits does fail when it is
left alone.

What a poll has passed through is a fact about the past. `Passes` says it of a
configuration and the start, and `Traced` is the invariant that carries it along a
schedule: a point between the two looks has a look in vain behind it, and a point of
the drain has in addition a look at the settled cell.
-/

namespace Eventual

/-- How the call of a callback ends for whoever drains: whether its body panics, and
whether the handler to which an isolated panic is reported panics in its turn. -/
def PanicPolicy.conduct (policy : PanicPolicy) (body handler : Bool) : Conduct :=
  match body, policy, handler with
  | false, _, _ => .returns
  | true, .isolate, false => .contained
  | true, .propagate, _ | true, .isolate, true => .panics

/-- What a thread does with a promise: it registers a callback for one side or for
either, it settles the promise, or it polls a handle. -/
inductive Use (α : Type) where
  | register (on : Option Side) (name : Nat) (panics : Bool)
  | settle (o : Outcome α)
  | poll (handle : WatchId) (waker : Nat)

/-- The call on the completion that a use of a promise makes. -/
def Use.call {α : Type} (policy : PanicPolicy) (handler : Bool) : Use α → Stage.Call α
  | .register on name panics =>
    .direct (.register (on.elim .always .on) (.callback name (policy.conduct panics handler)))
  | .settle o => .direct (.complete o)
  | .poll handle waker => .poll { watch := handle, waker, relay := .relay handle }

namespace Site

variable {α ι τ : Type}

/-- A point of a poll between its two looks. -/
def Point.Tries (p : Poll ι τ) : Point α ι τ → Prop
  | .store p' | .subscribe p' | .registering p' _ => p' = p
  | .direct _ | .look _ | .lookAgain _ => False

/-- A point of a poll that has found the cell settled when it registered. -/
def Point.Drains (p : Poll ι τ) (here : Point α ι τ) : Prop :=
  ∃ inner, here = .registering p inner ∧ (∀ k x, inner ≠ .append k x) ∧ ∀ k, inner ≠ .consult k

section Effects

variable {s s' : Site α ι τ} {p p' : Point α ι τ} {a : Action α ι (Point α ι τ) (Answer α)}
  {poll : Poll ι τ}

/-- A poll goes on from its first look when it has found nothing. -/
theorem Does.tries (does : Does s p s' a) (next : a.next? = some p') (h : p'.Tries poll) :
    p.Tries poll ∨ (p = .look poll ∧ s.completion.cell.result = none) := by
  cases does with
  | @direct here c a' inner =>
    rw [Action.next?_map] at next
    obtain ⟨here', -, rfl⟩ := Option.map_eq_some_iff.1 next
    exact h.elim
  | @unready p hnone =>
    cases next
    obtain rfl : p = poll := h
    exact .inr ⟨rfl, hnone⟩
  | store =>
    cases next
    exact .inl h
  | subscribe =>
    cases next
    exact .inl h
  | registering =>
    rw [Action.next?_map] at next
    obtain ⟨here', -, rfl⟩ := Option.map_eq_some_iff.1 next
    exact .inl h
  | subscribed | registered =>
    cases next
    exact h.elim
  | ready | readyAgain | pending => cases next

/-- A poll drains when it has registered and found the cell settled. -/
theorem Does.drains (does : Does s p s' a) (next : a.next? = some p') (h : p'.Drains poll) :
    p.Drains poll ∨ ∃ k, p = .registering poll (.consult k) ∧
      ∃ side, s.completion.cell.state = .settled side := by
  obtain ⟨inner', rfl, not_append, not_consult⟩ := h
  cases does with
  | @direct here c a' inner =>
    rw [Action.next?_map] at next
    obtain ⟨here', -, h⟩ := Option.map_eq_some_iff.1 next
    cases h
  | @registering p here c a' inner _ =>
    rw [Action.next?_map] at next
    obtain ⟨here', hnext, h⟩ := Option.map_eq_some_iff.1 next
    cases h
    cases inner with
    | append =>
      cases hnext
      exact absurd rfl (not_consult _)
    | consultMatching hs => exact .inr ⟨_, rfl, _, hs⟩
    | consultOther hs _ => exact .inr ⟨_, rfl, _, hs⟩
    | consultEarly => cases hnext
    | _ => exact .inl ⟨_, rfl, nofun, nofun⟩
  | subscribe =>
    cases next
    exact absurd rfl (not_append _ _)
  | unready | store | subscribed | registered => cases next
  | ready | readyAgain | pending => cases next

end Effects

/-- A poll that calls items drains. -/
theorem drains_of_sweeps {here : Point α ι τ} {p : Poll ι τ} (serves : here.Serves (.poll p))
    (sweeps : here.Sweeps) : here.Drains p := by
  obtain ⟨inner, hinner, sweeps⟩ := sweeps
  cases here with
  | registering p' here =>
    cases hinner
    obtain ⟨rfl, -⟩ := serves
    refine ⟨inner, rfl, ?_, ?_⟩
    · rintro k x rfl
      exact sweeps
    · rintro k rfl
      exact sweeps
  | direct here => exact serves.elim
  | look | store | subscribe | lookAgain => cases hinner

end Site

namespace Stage

variable {α : Type}

/-! ## What a poll has passed through -/

/-- On the way from the start to a configuration, one thread, after the answers that
it had then, has made its access at a point, in a stage of which something is true. -/
def Passes (start c : Troupe α) (i : Nat) (earlier : List (Call α × Answer α))
    (here : Site.Point α Player Nat) (holds : Stage α → Prop) : Prop :=
  ∃ c₁ c₂, Crew.Reachable rules start c₁ ∧ c₁.step? rules i = some c₂ ∧
    Crew.Reachable rules c₂ c ∧ c₁.answersOf i = earlier ∧
    c₁.point? i = some (.routine here) ∧ holds c₁.shared

/-- A poll has looked while the cell was not settled. -/
def Looked (start c : Troupe α) (i : Nat) (earlier : List (Call α × Answer α))
    (p : Site.Poll Player Nat) : Prop :=
  Passes start c i earlier (.look p) fun s => ∀ side, s.cell.state ≠ .settled side

/-- A poll has looked while the cell was not settled, and has found it settled when it
registered its relay. -/
def Overtaken (start c : Troupe α) (i : Nat) (earlier : List (Call α × Answer α))
    (p : Site.Poll Player Nat) : Prop :=
  Looked start c i earlier p ∧
    Passes start c i earlier (.registering p (.consult .waker)) fun s =>
      ∃ side, s.cell.state = .settled side

section Runs

variable {only : Kind → Player → Prop} {start c c' : Troupe α} {i j : Nat}
  {earlier : List (Call α × Answer α)} {here : Site.Point α Player Nat}
  {holds : Stage α → Prop} {p : Site.Poll Player Nat}

theorem Passes.step (h : Passes start c i earlier here holds) (hstep : c.step? rules j = some c') :
    Passes start c' i earlier here holds := by
  obtain ⟨c₁, c₂, before, access, after, facts⟩ := h
  exact ⟨c₁, c₂, before, access, after.step j hstep, facts⟩

theorem Overtaken.step (h : Overtaken start c i earlier p) (hstep : c.step? rules j = some c') :
    Overtaken start c' i earlier p := ⟨h.1.step hstep, h.2.step hstep⟩

/-- What a thread has passed through on the way to the point at which it stands, and on
the way to those answers of its that are panics of polls. -/
structure Traced (start c : Troupe α) (i : Nat) : Prop where
  tries : ∀ {q p}, c.point? i = some q → q.back.Tries p → Looked start c i (c.answersOf i) p
  drains : ∀ {q p}, c.point? i = some q → q.back.Drains p →
    Overtaken start c i (c.answersOf i) p
  panicked : ∀ {before p x after},
    c.answersOf i = before ++ (.poll p, .panicked x) :: after → Overtaken start c i before p

/-- An entry of a list to which one is added was there before or is the new one. -/
theorem entry_of_append {β : Type} {old before after : List β} {new entry : β}
    (h : old ++ [new] = before ++ entry :: after) :
    (∃ rest, old = before ++ entry :: rest) ∨ (old = before ∧ new = entry) := by
  rcases List.eq_nil_or_concat after with rfl | ⟨rest, last, rfl⟩
  · obtain ⟨hold, hnew⟩ := List.append_inj' h rfl
    exact .inr ⟨hold, (List.cons.inj hnew).1⟩
  · have h' : old ++ [new] = (before ++ entry :: rest) ++ [last] := by simp [h]
    exact .inl ⟨rest, (List.append_inj' h' rfl).1⟩

/-- A thread that goes on between the two looks of a poll has made the first in vain. -/
theorem Traced.looked (h : Traced start c i) (reach : Crew.Reachable rules start c)
    (sound : c.shared.cell.Sound) (hstep : c.step? rules i = some c') {q q' : Point α}
    (hq : c.point? i = some q) (does : Does c.shared q c'.shared (.goto q'))
    (tries : q'.back.Tries p) : Looked start c' i (c.answersOf i) p := by
  rcases does.back_eq with ⟨here, action, rfl, inner, next⟩ | ⟨-, same⟩
  · rcases inner.tries next tries with before | ⟨rfl, hnone⟩
    · exact (h.tries hq before).step hstep
    · refine ⟨c, c', reach, hstep, .refl, rfl, hq, ?_⟩
      intro side hs
      obtain ⟨v, hv⟩ := sound side hs
      have found := (Cell.result_of_settled hs).trans hv
      cases hnone.symm.trans found
  · rw [same] at tries
    exact (h.tries hq tries).step hstep

/-- A thread that goes on in the drain of a poll has been overtaken. -/
theorem Traced.overtaken (h : Traced start c i) (reach : Crew.Reachable rules start c)
    (hstep : c.step? rules i = some c') {q q' : Point α} {call : Call α}
    (hq : c.point? i = some q) (serves : q.back.Serves call)
    (does : Does c.shared q c'.shared (.goto q')) (drains : q'.back.Drains p) :
    Overtaken start c' i (c.answersOf i) p := by
  rcases does.back_eq with ⟨here, action, rfl, inner, next⟩ | ⟨-, same⟩
  · rcases inner.drains next drains with before | ⟨k, rfl, hs⟩
    · exact (h.drains hq before).step hstep
    · have waker : k = .waker := by
        cases call with
        | direct call => exact serves.elim
        | poll p' => exact serves.2
      subst waker
      exact ⟨(h.tries hq rfl).step hstep, c, c', reach, hstep, .refl, rfl, hq, hs⟩
  · rw [same] at drains
    exact (h.drains hq drains).step hstep

/-- A step of another thread takes nothing away from what a thread has passed through. -/
theorem Traced.other (h : Traced start c i) (hstep : c.step? rules j = some c')
    (same : c'.threads[i]? = c.threads[i]?) : Traced start c' i := by
  have point : c'.point? i = c.point? i := by rw [Crew.point?, Crew.point?, same]
  have answers : c'.answersOf i = c.answersOf i := by rw [Crew.answersOf, Crew.answersOf, same]
  constructor
  · intro q p hq tries
    rw [answers]
    exact (h.tries (point.symm.trans hq) tries).step hstep
  · intro q p hq drains
    rw [answers]
    exact (h.drains (point.symm.trans hq) drains).step hstep
  · intro before p x after hentry
    exact (h.panicked (answers.symm.trans hentry)).step hstep

/-- A thread that begins a call has yet to look. -/
theorem Traced.begins (h : Traced start c i) (hstep : c.step? rules i = some c') {call : Call α}
    (hq : c'.point? i = some (rules.start call)) (answers : c'.answersOf i = c.answersOf i) :
    Traced start c' i := by
  constructor
  · intro q p hq' tries
    cases hq.symm.trans hq'
    cases call <;> exact tries.elim
  · rintro q p hq' ⟨inner, hinner, -⟩
    cases hq.symm.trans hq'
    cases call <;> cases hinner
  · intro before p x after hentry
    exact (h.panicked (answers.symm.trans hentry)).step hstep

theorem Traced.goes (h : Traced start c i) (reach : Crew.Reachable rules start c)
    (sound : c.shared.cell.Sound) (hstep : c.step? rules i = some c') {q q' : Point α}
    {call : Call α} (hq : c.point? i = some q) (serves : q.back.Serves call)
    (does : Does c.shared q c'.shared (.goto q')) (hq' : c'.point? i = some q')
    (answers : c'.answersOf i = c.answersOf i) : Traced start c' i := by
  constructor
  · intro q'' p hq'' tries
    cases hq'.symm.trans hq''
    rw [answers]
    exact h.looked reach sound hstep hq does tries
  · intro q'' p hq'' drains
    cases hq'.symm.trans hq''
    rw [answers]
    exact h.overtaken reach hstep hq serves does drains
  · intro before p x after hentry
    exact (h.panicked (answers.symm.trans hentry)).step hstep

/-- A poll that ends with a panic ends in its drain. -/
theorem Traced.finishes (h : Traced start c i) (hstep : c.step? rules i = some c')
    {q : Point α} {call : Call α} {a : Answer α} (hq : c.point? i = some q)
    (serves : q.back.Serves call) (stands : Stands c.shared q)
    (does : Does c.shared q c'.shared (.done a)) (idle : c'.point? i = none)
    (hanswers : c'.answersOf i = c.answersOf i ++ [(call, a)]) : Traced start c' i := by
  constructor
  · intro q' p hq' tries
    cases idle.symm.trans hq'
  · intro q' p hq' drains
    cases idle.symm.trans hq'
  · intro before p x after hentry
    rcases entry_of_append (hanswers.symm.trans hentry) with ⟨rest, old⟩ | ⟨old, new⟩
    · exact (h.panicked old).step hstep
    · cases new
      rw [← old]
      obtain ⟨k, back, rfl⟩ := does.of_panicked
      exact (h.drains hq (Site.drains_of_sweeps serves stands.2.1)).step hstep

theorem Traced.step (h : Traced start c i) (reach : Crew.Reachable rules start c)
    (outlined : (outline only).Holds c) (hstep : c.step? rules j = some c') :
    Traced start c' i := by
  obtain ⟨t, t', ht, ht', move, others⟩ := Crew.exists_move hstep
  by_cases hij : i = j
  · subst hij
    have point := Crew.point?_of_getElem? ht
    have point' := Crew.point?_of_getElem? ht'
    have answers := Crew.answersOf_of_getElem? ht
    have answers' := Crew.answersOf_of_getElem? ht'
    have annotated := outlined.annotated t (List.mem_of_getElem? ht)
    generalize hshared : c'.shared = s' at move
    cases move with
    | begins hcur htodo => exact h.begins hstep point' (answers'.trans answers.symm)
    | @goes call q q' _ hcur hs =>
      obtain ⟨-, serves, -⟩ := annotated.stands hcur
      have at_q : c.point? i = some q := by rw [point, hcur, Option.map_some]
      exact h.goes reach outlined.shared.cell hstep at_q serves (hshared ▸ does_of_step hs) point'
        (answers'.trans answers.symm)
    | @answers call q a _ hcur hs =>
      obtain ⟨stands, serves, -⟩ := annotated.stands hcur
      have at_q : c.point? i = some q := by rw [point, hcur, Option.map_some]
      exact h.finishes hstep at_q serves stands (hshared ▸ does_of_step hs) point'
        (answers ▸ answers')
  · exact h.other hstep (others i hij)

end Runs

/-! ## Who is left alone with a panic -/

section Effects

variable {only : Kind → Player → Prop} {s s' : Stage α} {p : Point α}
  {n : Next (Point α) (Answer α)}

/-- A poll answers that it is pending, or that it is ready with the outcome on which the
cell is settled, or ends with the panic of an item that was called. -/
theorem Answered.poll {p : Site.Poll Player Nat} {a : Answer α} (h : Answered s (.poll p) a) :
    a = .returned .pending ∨
      (∃ o, a = .returned (.ready o) ∧ s.cell.state = .settled o.side ∧ s.cell.stored = some o) ∨
      ∃ k x, a = .panicked x ∧ x.conduct = .panics ∧ x ∈ s.started k := by
  cases a with
  | returned a =>
    cases a with
    | pending => exact .inl rfl
    | ready o => exact .inr (.inl ⟨o, rfl, h.ready o rfl⟩)
    | direct d =>
      obtain ⟨call, hcall⟩ := h.direct d rfl
      cases hcall
  | refused side st => exact absurd rfl (h.refused side st)
  | panicked x =>
    obtain ⟨panics, k, started⟩ := h.panicked x rfl
    exact .inr (.inr ⟨k, x, rfl, panics, started⟩)

/-- An item that waits goes on waiting unless the thread takes it. -/
theorem Does.waits_or_takes (does : Does s p s' n) (h : s.site.completion.AtRest) {k : Kind}
    {x : Player} (hx : x ∈ s.waiting k) :
    x ∈ s'.waiting k ∨ ∃ arg back, n = .goto (.holding k x arg back) := by
  cases does with
  | goes inner | notices inner | answers inner | refuses inner =>
    have queue := inner.waiting_eq h k
    simp only [Action.called, List.nil_append] at queue
    exact .inl ((congrArg (x ∈ ·) queue).mpr (List.mem_append_left _ hx))
  | @takes here site k' x' arg p inner =>
    have queue := inner.waiting_eq h k
    simp only [Action.called, Action.registered, List.append_nil] at queue
    have here_or_there : x ∈ (if k' = k then [x'] else []) ++ site.completion.waiting k :=
      queue ▸ hx
    rcases List.mem_append.1 here_or_there with taken | waits
    · by_cases hk : k' = k
      · subst hk
        rw [if_pos rfl] at taken
        obtain rfl := List.mem_singleton.1 taken
        exact .inr ⟨_, _, rfl⟩
      · rw [if_neg hk] at taken
        cases taken
    · exact .inl waits
  | starts => exact .inl hx
  | @returns k' x' back | @contains k' x' back | @panics k' x' back =>
    rw [waiting, site_record, (s.attend_same x').1]
    exact .inl hx

end Effects

section Schedules

variable {watches : Array (Watch Nat)} {calls : List (List (Call α))} {c c' : Troupe α} {i : Nat}

/-- What began to be called some call has registered. -/
theorem registers_of_started (h : Crew.Reachable rules (.initial { site := { watches } } calls) c)
    {k : Kind} {x : Player} (started : x ∈ c.shared.started k) :
    ∃ todo ∈ calls, ∃ call ∈ todo, Registers k x call := by
  have registered : x ∈ c.shared.registered k := by
    rw [(accounts h k).mem_iff]
    exact List.mem_append_left _ (List.mem_append_left _ started)
  exact (outline_holds h).shared.registered k x registered

end Schedules

/-! ## Polls of a promise -/

section Promises

variable {watches : Array (Watch Nat)} {policy : PanicPolicy} {handler : Bool}
  {uses : List (List (Use α))} {c : Troupe α}

/-- The start of a crew that uses a promise. -/
def users (watches : Array (Watch Nat)) (policy : PanicPolicy) (handler : Bool)
    (uses : List (List (Use α))) : Troupe α :=
  .initial { site := { watches } } (uses.map fun todo => todo.map (Use.call policy handler))

end Promises

/-- One thread registers a callback that panics, one resolves, one polls. -/
def windowUses : List (List (Use Nat)) :=
  [[.register (some .success) 0 true], [.settle ⟨.success, 1⟩], [.poll 0 0]]

/-- The callback is registered, the poll looks in vain and queues its relay, and the
outcome is published before the poll looks at the cell again. -/
def window : Troupe Nat :=
  (users #[{}] .propagate false windowUses).after rules
    (List.replicate 4 0 ++ List.replicate 5 2 ++ List.replicate 5 1)

/-- The poll goes on before anybody drains. -/
def overtaken : Troupe Nat := window.after rules (List.replicate 20 2)

end Stage

end Eventual
