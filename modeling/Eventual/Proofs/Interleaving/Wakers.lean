import Eventual.Proofs.Interleaving.Polls
import Eventual.Proofs.Promise.Drains

/-!
# No panic strands a waker

A panic ends the drain it happens in, and what that drain has not taken stays queued until
somebody drains again. Wakers do not depend on that. A drain calls the wakers before all
callbacks, so a thread that has taken a callback has come past the queue of the wakers:
`Point.InOrder` says so of the points at which items are called. When it dies in the
callback, it was not one of those that were on the way to a waker, and a waker that is
appended after it had passed is its registrar's business. So the wakers stay minded as
long as no waker panics, whatever the callbacks do.

Items leave their queue in the order in which they came. So whoever comes past a queue,
which is when it is empty, knows that all that was registered before the cell was settled
has been taken. `Swept` says so of a record of what has happened, and stays true of every
longer one.
-/

namespace Eventual

/-- What a moment says was taken from its queue. -/
def Moment.takes {α : Type} (k : Kind) : Moment α → List Player
  | .taken k' x => if k' = k then [x] else []
  | _ => []

/-- The outcome on which a moment says that the cell was settled. -/
def Moment.settles {α : Type} : Moment α → List (Outcome α)
  | .settled o => [o]
  | _ => []

namespace Stage

variable {α : Type}

/-- What was taken of a kind, in order. -/
def taken (s : Stage α) (k : Kind) : List Player := s.moments.flatMap (Moment.takes k)

/-- The outcomes on which the cell was settled. -/
def settlements (s : Stage α) : List (Outcome α) := s.moments.flatMap Moment.settles

@[simp] theorem taken_record (s : Stage α) (m : Moment α) (k : Kind) :
    (s.record m).taken k = s.taken k ++ m.takes k := by simp [taken]

@[simp] theorem settlements_record (s : Stage α) (m : Moment α) :
    (s.record m).settlements = s.settlements ++ m.settles := by simp [settlements]

/-- The call of an item takes nothing from a queue and settles nothing. -/
theorem attend_takes (s : Stage α) (x : Player) :
    (∀ k, (s.attend x).taken k = s.taken k) ∧ (s.attend x).settlements = s.settlements := by
  obtain ⟨-, -, ms, hms, woken⟩ := s.attend_same x
  have none : ∀ {β : Type} (f : Moment α → List β), (∀ w i, f (.woken w i) = []) →
      ms.flatMap f = [] := by
    intro β f hf
    rw [List.flatMap_eq_nil_iff]
    intro m hm
    obtain ⟨w, i, rfl⟩ := woken m hm
    exact hf w i
  constructor
  · intro k
    rw [taken, hms, List.flatMap_append, none _ fun _ _ => rfl, List.append_nil, taken]
  · rw [settlements, hms, List.flatMap_append, none _ fun _ _ => rfl, List.append_nil, settlements]

section Effects

variable {s s' : Stage α} {p p' : Point α} {n : Next (Point α) (Answer α)}

/-- What a step takes it takes from the front of a queue, and what it registers it puts at
the back. -/
theorem Does.flow (does : Does s p s' n) (h : s.site.completion.AtRest) (k : Kind) :
    ∃ took new, s'.taken k = s.taken k ++ took ∧ s'.registered k = s.registered k ++ new ∧
      took ++ s'.waiting k = s.waiting k ++ new := by
  cases does with
  | goes inner | answers inner | refuses inner =>
    exact ⟨[], [], (List.append_nil _).symm, (List.append_nil _).symm, inner.waiting_eq h k⟩
  | @notices here site n p inner =>
    refine ⟨[], (notice n).registers k, ?_, registered_record .., ?_⟩
    · rw [taken_record]
      cases n <;> rfl
    · have queue := inner.waiting_eq h k
      cases n <;> exact queue
  | @takes here site k' x arg p inner =>
    exact ⟨_, [], taken_record .., registered_record .., inner.waiting_eq h k⟩
  | starts =>
    exact ⟨[], [], taken_record .., registered_record .., (List.append_nil _).symm⟩
  | @returns k' x back | @contains k' x back | @panics k' x back =>
    obtain ⟨same, records, -⟩ := s.attend_same x
    refine ⟨[], [], ?_, ?_, ?_⟩
    · rw [taken_record, (s.attend_takes x).1]
      rfl
    · rw [registered_record, (records k).1]
      rfl
    · rw [waiting, site_record, same, List.append_nil]
      rfl

/-- The cell is settled when a reader finds an outcome, on that outcome and once. -/
theorem Does.settlements_eq (does : Does s p s' n) (stands : Stands s p)
    (h : s.settlements = s.cell.result.toList) : s'.settlements = s'.cell.result.toList := by
  cases does with
  | goes inner | answers inner | refuses inner =>
    exact h.trans ((inner.result_eq stands).trans (List.append_nil _)).symm
  | @notices here site n p inner =>
    have result := inner.result_eq stands
    have settles : (notice n).settles
        = (Action.notice n p : Action α Player _ (Site.Answer α)).settled := by cases n <;> rfl
    rw [settlements_record, settles, cell, site_record, result]
    exact congrArg (· ++ _) h
  | takes inner =>
    rw [settlements_record, cell, site_record, inner.result_eq stands]
    exact congrArg (· ++ []) h
  | starts =>
    rw [settlements_record]
    exact (List.append_nil _).trans h
  | @returns k x back | @contains k x back | @panics k x back =>
    rw [settlements_record, (s.attend_takes x).2, cell, site_record, (s.attend_same x).1]
    exact (List.append_nil _).trans h

end Effects

/-! ## Whoever calls a callback has passed the wakers -/

/-- Whoever calls an item has come past the queues that a drain empties before. -/
def Point.InOrder : Point α → Prop
  | .routine _ => True
  | .holding k _ _ back | .inside k _ back =>
    ∃ side, k ≠ .on side.other ∧ ∀ k' ∈ k.before side, back.Passed side k'

theorem Does.inOrder {s s' : Stage α} {p p' : Point α} (does : Does s p s' (.goto p'))
    (stands : Stands s p) (h : p.InOrder) : p'.InOrder := by
  cases does with
  | takes inner =>
    obtain ⟨side, -, hk, passed⟩ := inner.called_passed stands
    exact ⟨side, hk, fun k' hk' => (passed k' hk').2⟩
  | starts => exact h
  | goes | notices | returns | contains => trivial

/-- Wakers come first. -/
theorem waker_mem_before {side : Side} {k : Kind} (h : k ≠ .waker) : .waker ∈ k.before side := by
  cases k with
  | waker => exact absurd rfl h
  | on s | always => exact List.mem_cons_self ..

/-- Everything of the kind that was registered before the cell was settled was taken. -/
def Swept (k : Kind) (ms : List (Moment α)) : Prop :=
  ∃ early o late, ms = early ++ .settled o :: late ∧
    early.flatMap (Moment.registers k) <+: ms.flatMap (Moment.takes k)

theorem Swept.append {k : Kind} {ms : List (Moment α)} (h : Swept k ms) (more : List (Moment α)) :
    Swept k (ms ++ more) := by
  obtain ⟨early, o, late, rfl, taken⟩ := h
  refine ⟨early, o, late ++ more, by simp, ?_⟩
  rw [List.flatMap_append]
  exact taken.trans (List.prefix_append ..)

/-- An entry of a list to which others are added was there before. -/
theorem entry_of_append_others {β : Type} {old others before after : List β} {entry : β}
    (h : old ++ others = before ++ entry :: after) (other : entry ∉ others) :
    ∃ rest, old = before ++ entry :: rest := by
  obtain ⟨rest, rfl, hrest⟩ | ⟨rest, rfl, hrest⟩ := List.append_eq_append_iff.1 h
  · exact absurd (hrest ▸ List.mem_append_right _ (List.mem_cons_self ..)) other
  · obtain ⟨rfl, rfl⟩ | ⟨rest, rfl, -⟩ := List.cons_eq_append_iff.1 hrest
    · exact absurd (List.mem_cons_self ..) other
    · exact ⟨rest, rfl⟩

/-- A call begins when the thread that holds the item makes its step. -/
theorem Does.of_started {s s' : Stage α} {p : Point α} {n : Next (Point α) (Answer α)}
    (does : Does s p s' n) {before after : List (Moment α)} {k : Kind} {x : Player}
    {arg : Option α} (h : s'.moments = before ++ .started k x arg :: after) :
    (∃ rest, s.moments = before ++ .started k x arg :: rest) ∨
      (s.moments = before ∧ ∃ back, p = .holding k x arg back) := by
  cases does with
  | goes | answers | refuses => exact .inl ⟨after, h⟩
  | @notices here site n p inner =>
    obtain old | ⟨-, new⟩ := entry_of_append ((moments_record ..).symm.trans h)
    · exact .inl old
    · cases n <;> cases new
  | takes =>
    obtain old | ⟨-, new⟩ := entry_of_append ((moments_record ..).symm.trans h)
    · exact .inl old
    · cases new
  | starts =>
    obtain old | ⟨old, new⟩ := entry_of_append ((moments_record ..).symm.trans h)
    · exact .inl old
    · cases new
      exact .inr ⟨old, _, rfl⟩
  | @returns k' x' back | @contains k' x' back | @panics k' x' back =>
    obtain ⟨-, -, ms, hms, woken⟩ := s.attend_same x'
    obtain ⟨rest, old⟩ | ⟨-, new⟩ := entry_of_append ((moments_record ..).symm.trans h)
    · refine .inl (entry_of_append_others (hms.symm.trans old) ?_)
      intro mem
      obtain ⟨w, i, hm⟩ := woken _ mem
      cases hm
    · cases new

/-- Whoever finds a queue empty after the cell was settled finds all of it taken that was
registered before. -/
theorem swept_of_empty {s : Stage α} {k : Kind} {side : Side} (sound : s.cell.Sound)
    (settlements : s.settlements = s.cell.result.toList)
    (fifo : s.registered k = s.taken k ++ s.waiting k) (settled : s.cell.state = .settled side)
    (empty : s.waiting k = []) : Swept k s.moments := by
  obtain ⟨v, hv⟩ := sound side settled
  have mem : (⟨side, v⟩ : Outcome α) ∈ s.settlements := by
    rw [settlements, Cell.result_of_settled settled, hv]
    exact List.mem_singleton_self _
  obtain ⟨m, hm, ho⟩ := List.mem_flatMap.1 mem
  obtain ⟨early, late, split⟩ := List.append_of_mem hm
  cases m with
  | settled o =>
    refine ⟨early, o, late, split, ?_⟩
    have all : s.moments.flatMap (Moment.takes k) = s.moments.flatMap (Moment.registers k) := by
      rw [empty, List.append_nil] at fifo
      exact fifo.symm
    rw [all, split, List.flatMap_append]
    exact List.prefix_append ..
  | _ => cases ho

/-! ## Every schedule -/

section Schedules

variable {watches : Array (Watch Nat)} {calls : List (List (Call α))} {c c' : Troupe α} {i : Nat}

theorem fifo (h : Crew.Reachable rules (.initial { site := { watches } } calls) c) (k : Kind) :
    c.shared.registered k = c.shared.taken k ++ c.shared.waiting k := by
  induction h with
  | refl => rcases k with (_ | _) | _ | _ <;> rfl
  | @step c c' i hreach hstep ih =>
    obtain ⟨-, ⟨-, same⟩ | ⟨p, n, -, hs, -⟩⟩ := Crew.point?_of_step hstep
    · rw [same]
      exact ih
    · obtain ⟨took, new, taken, registered, queue⟩ :=
        (does_of_step hs).flow (outline_holds hreach).shared.atRest k
      rw [registered, taken, ih, List.append_assoc, List.append_assoc, queue]

theorem settlements_eq (h : Crew.Reachable rules (.initial { site := { watches } } calls) c) :
    c.shared.settlements = c.shared.cell.result.toList := by
  induction h with
  | refl => rfl
  | @step c c' i hreach hstep ih =>
    obtain ⟨-, ⟨-, same⟩ | ⟨p, n, hp, hs, -⟩⟩ := Crew.point?_of_step hstep
    · rw [same]
      exact ih
    · obtain ⟨t, call, ht, hcur, stands, -⟩ := (outline_holds hreach).stands hp
      exact (does_of_step hs).settlements_eq stands ih

theorem in_order (h : Crew.Reachable rules (.initial { site := { watches } } calls) c) {p : Point α}
    (hp : c.point? i = some p) : p.InOrder := by
  induction h generalizing i p with
  | refl => cases (Crew.point?_initial _ _ i).symm.trans hp
  | @step c c' j hreach hstep ih =>
    obtain ⟨-, before⟩ | ⟨call, rfl, -⟩ | ⟨q, -, before, hs⟩ := Crew.of_point?_step hstep hp
    · exact ih before
    · trivial
    · obtain ⟨t, call, ht, hcur, stands, -⟩ := (outline_holds hreach).stands before
      exact (does_of_step hs).inOrder stands (ih before)

/-- What has happened stays on record. -/
theorem moments_grow (hstep : c.step? rules i = some c') :
    ∃ ms, c'.shared.moments = c.shared.moments ++ ms := by
  obtain ⟨-, ⟨-, same⟩ | ⟨p, n, hp, hs, -⟩⟩ := Crew.point?_of_step hstep
  · exact ⟨[], by rw [same, List.append_nil]⟩
  · exact (does_of_step hs).moments_eq

theorem moments_after (h : Crew.Reachable rules c c') :
    ∃ ms, c'.shared.moments = c.shared.moments ++ ms := by
  induction h with
  | refl => exact ⟨[], (List.append_nil _).symm⟩
  | step i _ hstep ih =>
    obtain ⟨ms, hms⟩ := ih
    obtain ⟨new, hnew⟩ := moments_grow hstep
    exact ⟨ms ++ new, by rw [hnew, hms, List.append_assoc]⟩

/-- Whoever has come past a queue knows that it was swept. -/
theorem swept_of_passed (h : Crew.Reachable rules (.initial { site := { watches } } calls) c)
    {p : Point α} (hp : c.point? i = some p) {side : Side} {k : Kind}
    (passed : p.back.Passed side k) : Swept k c.shared.moments := by
  induction h generalizing i p with
  | refl => cases (Crew.point?_initial _ _ i).symm.trans hp
  | @step c c' j hreach hstep ih =>
    obtain ⟨ms, hms⟩ := moments_grow hstep
    rw [hms]
    obtain ⟨-, before⟩ | ⟨call, rfl, -⟩ | ⟨q, rfl, before, hs⟩ := Crew.of_point?_step hstep hp
    · exact (ih before passed).append ms
    · exact absurd passed call.not_passed_start
    · have reach' := hreach.step _ hstep
      have holds' := outline_holds reach'
      obtain ⟨t, call, ht, hcur, stands, -⟩ := holds'.stands hp
      have settled := passed.settled stands.fits
      obtain ⟨here, action, rfl, inner, next⟩ | ⟨-, same⟩ := (does_of_step hs).back_eq
      · obtain earlier | empty := inner.passes (outline_holds hreach).shared.atRest next passed
        · exact (ih before earlier).append ms
        · rw [← hms]
          exact swept_of_empty holds'.shared.cell (settlements_eq reach') (fifo reach' k) settled
            empty
      · exact (ih before (same ▸ passed)).append ms

/-- When an item begins to be called, what is called before it has been swept. -/
theorem swept_before_start
    (h : Crew.Reachable rules (.initial { site := { watches } } calls) c)
    {before after : List (Moment α)} {k : Kind} {x : Player} {arg : Option α}
    (starts : c.shared.moments = before ++ .started k x arg :: after) :
    ∃ side, k ≠ .on side.other ∧ ∀ k' ∈ k.before side, Swept k' before := by
  induction h generalizing before after with
  | refl => cases (List.append_eq_nil_iff.1 starts.symm).2
  | @step c c' i hreach hstep ih =>
    obtain ⟨-, ⟨-, same⟩ | ⟨p, n, hp, hs, -⟩⟩ := Crew.point?_of_step hstep
    · exact ih (same ▸ starts)
    · obtain ⟨rest, old⟩ | ⟨rfl, back, rfl⟩ := (does_of_step hs).of_started starts
      · exact ih old
      · obtain ⟨side, hk, passed⟩ := in_order hreach hp
        exact ⟨side, hk, fun k' hk' => swept_of_passed hreach hp (passed k' hk')⟩

theorem claimed (h : Crew.Reachable rules (.initial { site := { watches } } calls) c) :
    Claimed c := by
  induction h with
  | refl => exact nofun
  | step i hreach hstep ih => exact claimed_step ih (outline_holds hreach) hstep

/-- Whatever callbacks panic, somebody is on the way to the wakers that wait once the cell
is settled, for a thread that calls a callback is not one of those. -/
theorem minded_wakers (h : Crew.Reachable rules (.initial { site := { watches } } calls) c)
    (completes : ∀ todo ∈ calls, ∀ call ∈ todo, ∀ o, call ≠ .direct (.tryCommit o))
    (wakes : ∀ todo ∈ calls, ∀ call ∈ todo, ∀ x, Registers .waker x call → x.conduct ≠ .panics) :
    Minded .waker c := by
  induction h with
  | refl => exact nofun
  | @step c c' i hreach hstep ih =>
    have holds := outline_holds hreach
    apply minded_step ih holds hstep fun t ht => completes _ (calls_mem hreach ht)
    intro k x back side hp panics minds
    obtain ⟨t, call, ht, hcur, stands, -⟩ := holds.stands hp
    have notWaker : k ≠ .waker := by
      rintro rfl
      obtain ⟨todo, htodo, call, hcall, registers⟩ := registers_of_started hreach stands.2.2.2
      exact wakes todo htodo call hcall x registers panics
    obtain ⟨side', -, passed⟩ := in_order hreach hp
    have past := passed _ (waker_mem_before notWaker)
    obtain rfl : side' = side := past.side_eq minds
    exact past.not_minds minds

end Schedules

section Schedules

variable {watches : Array (Watch Nat)} {calls : List (List (Completion.Call α Player))}
  {c : Troupe α}

/-- The start of a crew whose threads make calls on the completion. -/
def callers (watches : Array (Watch Nat)) (calls : List (List (Completion.Call α Player))) :
    Troupe α :=
  .initial { site := { watches } } (calls.map fun todo => todo.map .direct)

/-- Threads register with, complete and drain one completion, in any order, and callbacks
panic. The cell is settled once at most. When all threads are done and one of them was to
complete, the cell is settled; and if it is, no waker waits any more and each that a call
was to register has been woken, as often as it was to be registered. Whenever a callback
begins to be called, the cell has been settled and every waker that was registered before
it was settled has been taken from its queue. -/
theorem no_waker_stranded (h : Crew.Reachable rules (callers watches calls) c)
    (completes : ∀ todo ∈ calls, ∀ o, .tryCommit o ∉ todo)
    (wakes : ∀ todo ∈ calls, ∀ x, .register .waker x ∈ todo → x.conduct ≠ .panics) :
    c.shared.settlements.length ≤ 1 ∧
    (c.isDone = true → (∃ todo ∈ calls, ∃ o, .complete o ∈ todo) →
      ∃ side, c.shared.cell.state = .settled side) ∧
    (∀ side, c.isDone = true → c.shared.cell.state = .settled side →
      c.shared.waiting .waker = [] ∧
      (c.shared.started .waker).Perm
        (calls.flatMap fun todo => todo.flatMap (Completion.Call.registers .waker))) ∧
    (∀ before k x arg after, c.shared.moments = before ++ .started k x arg :: after →
      k ≠ .waker → ∃ early o late, before = early ++ .settled o :: late ∧
        early.flatMap (Moment.registers .waker) <+: before.flatMap (Moment.takes .waker)) := by
  have completes' : ∀ todo ∈ calls.map fun todo => todo.map Site.Call.direct, ∀ call ∈ todo,
      ∀ o, call ≠ (.direct (.tryCommit o) : Call α) := by
    rintro todo' htodo' call hcall o rfl
    obtain ⟨todo, htodo, rfl⟩ := List.mem_map.1 htodo'
    obtain ⟨call, hcall, heq⟩ := List.mem_map.1 hcall
    cases heq
    exact completes todo htodo o hcall
  have wakes' : ∀ todo ∈ calls.map fun todo => todo.map Site.Call.direct, ∀ call ∈ todo,
      ∀ x, Registers .waker x (call : Call α) → x.conduct ≠ .panics := by
    intro todo' htodo' call' hcall' x registers
    obtain ⟨todo, htodo, rfl⟩ := List.mem_map.1 htodo'
    obtain ⟨call, hcall, rfl⟩ := List.mem_map.1 hcall'
    cases call with
    | register k y =>
      obtain ⟨rfl, rfl⟩ := registers
      exact wakes todo htodo _ hcall
    | tryCommit o | complete o | drain s => exact registers.elim
  refine ⟨?_, ?_, ?_, ?_⟩
  · rw [settlements_eq h]
    exact Option.length_toList_le
  · rintro done ⟨todo, htodo, o, ho⟩
    exact settled_of_claimed h (claimed h) done (List.mem_map_of_mem htodo)
      (List.mem_map_of_mem ho)
  · intro side done settled
    have waiting : c.shared.waiting .waker = [] := by
      apply Classical.byContradiction
      intro waits
      obtain ⟨i, p, hp, -⟩ := minded_wakers h completes' wakes' settled nofun waits
      cases (Crew.point?_of_isDone done i).symm.trans hp
    refine ⟨waiting, ?_⟩
    have accounts := accounts h .waker
    rw [inHand_of_done done, waiting, List.append_nil, List.append_nil] at accounts
    have direct : ∀ todo ∈ calls.map fun todo => todo.map Site.Call.direct, ∀ call ∈ todo,
        ∃ call', call = (.direct call' : Call α) := by
      intro todo' htodo' call' hcall'
      obtain ⟨todo, -, rfl⟩ := List.mem_map.1 htodo'
      obtain ⟨call, -, rfl⟩ := List.mem_map.1 hcall'
      exact ⟨call, rfl⟩
    have registered := registered_of_done h done .waker fun _ => direct
    simp only [List.flatMap_map, Site.Call.registers] at registered
    exact accounts.symm.trans registered.symm
  · intro before k x arg after starts callback
    obtain ⟨side, -, swept⟩ := swept_before_start h starts
    exact swept _ (waker_mem_before callback)

end Schedules

/-- One thread registers a waker and a callback that panics, another completes, and a third
registers a waker of its own. -/
def deathCalls : List (List (Completion.Call Nat Player)) :=
  [[.register .waker (.waker 0 .returns), .register (.on .success) (.callback 1 .panics)],
    [.complete ⟨.success, 7⟩],
    [.register .waker (.waker 2 .returns)]]

/-- The thread that completes has passed the wakers and taken the callback when the third
thread appends its waker. Then it dies in the callback, and the third thread goes on. -/
def death : Troupe Nat :=
  (callers #[] deathCalls).after rules
    (List.replicate 6 0 ++ List.replicate 13 1 ++ [2, 2, 1, 1] ++ List.replicate 12 2)

theorem no_waker_stranded_death :
    Crew.Reachable rules (callers #[] deathCalls) death ∧
    (∀ todo ∈ deathCalls, ∀ o, .tryCommit o ∉ todo) ∧
    (∀ todo ∈ deathCalls, ∀ x, .register .waker x ∈ todo → x.conduct ≠ .panics) ∧
    death.isDone = true ∧ death.shared.cell.state = .settled .success ∧
    death.answersOf 1
      = [(.direct (.complete ⟨.success, 7⟩), .panicked (.callback 1 .panics))] ∧
    (∃ side, death.shared.cell.state = .settled side) ∧
    (death.shared.waiting .waker = [] ∧
      (death.shared.started .waker).Perm [.waker 0 .returns, .waker 2 .returns]) ∧
    ∀ before k x arg after, death.shared.moments = before ++ .started k x arg :: after →
      k ≠ .waker → ∃ early o late, before = early ++ .settled o :: late ∧
        early.flatMap (Moment.registers .waker) <+: before.flatMap (Moment.takes .waker) := by
  have reachable : Crew.Reachable rules (callers #[] deathCalls) death :=
    Crew.Reachable.refl.after _
  have completes : ∀ todo ∈ deathCalls, ∀ o, .tryCommit o ∉ todo := by simp [deathCalls]
  have wakes : ∀ todo ∈ deathCalls, ∀ x, .register .waker x ∈ todo → x.conduct ≠ .panics := by
    simp [deathCalls, Player.conduct]
  have done : death.isDone = true := by decide +kernel
  have settled : death.shared.cell.state = .settled .success := by decide +kernel
  have died : death.answersOf 1
      = [(.direct (.complete ⟨.success, 7⟩), .panicked (.callback 1 .panics))] := rfl
  obtain ⟨-, settles, woken, swept⟩ := no_waker_stranded reachable completes wakes
  exact ⟨reachable, completes, wakes, done, settled, died,
    settles done ⟨_, List.mem_cons_of_mem _ (List.mem_cons_self ..), _, List.mem_cons_self ..⟩,
    woken _ done settled, swept⟩

end Stage

end Eventual
