import Eventual.Proofs.Cell.Steps
import Eventual.Proofs.Machine.Undisturbed

/-!
# Drains go on where a panic stopped them

A panic of an item ends the drain that called it, and what that drain has not taken stays queued.
A `Plan` lists what waits for a settled completion in the order in which drains call it, and how
each of these calls fares. One drain makes the `stretch` of it up to the first panic,
`Acting.advances`; what it leaves is the plan of the next. So any number of drains in a row make
the whole plan, each call once, `draining_resumes`.
-/

namespace Eventual

open World

/-! ## Plans -/

/-- Calls that are to be made, and how each of them fares: it answers, or it panics. -/
abbrev Plan : Type := List ((Kind × Item × Option Value) × Option Panic)

namespace Plan

/-- The calls up to the first that panics, that one included. -/
def stretch : Plan → Plan
  | [] => []
  | (call, none) :: plan => (call, none) :: stretch plan
  | (call, some p) :: _ => [(call, some p)]

/-- The calls after the first that panics. -/
def rest : Plan → Plan
  | [] => []
  | (_, none) :: plan => rest plan
  | (_, some _) :: plan => plan

/-- The panics, in their order. -/
def panics (plan : Plan) : List Panic := plan.filterMap Prod.snd

/-- The items of a kind, in their order. -/
def items (plan : Plan) (k : Kind) : List Item :=
  (plan.filter fun entry => entry.1.1 = k).map fun entry => entry.1.2.1

theorem items_cons (call : Kind × Item × Option Value) (fate : Option Panic) (plan : Plan)
    (k : Kind) : items ((call, fate) :: plan) k
      = if call.1 = k then call.2.1 :: plan.items k else plan.items k := by
  unfold items
  rw [List.filter_cons]
  by_cases same : call.1 = k <;> simp [same]

/-- What is left of a plan after so many panics. -/
def after (plan : Plan) : Nat → Plan
  | 0 => plan
  | t + 1 => (plan.after t).rest

theorem stretch_append_rest (plan : Plan) : plan.stretch ++ plan.rest = plan := by
  induction plan with
  | nil => rfl
  | cons entry plan ih =>
    obtain ⟨call, _ | p⟩ := entry
    · exact congrArg ((call, none) :: ·) ih
    · rfl

theorem panics_rest (plan : Plan) : plan.rest.panics = plan.panics.tail := by
  induction plan with
  | nil => rfl
  | cons entry plan ih =>
    obtain ⟨call, _ | p⟩ := entry
    · exact ih
    · rfl

/-- Nothing is left when nothing panics. -/
theorem rest_eq_nil (plan : Plan) (calm : plan.panics = []) : plan.rest = [] := by
  induction plan with
  | nil => rfl
  | cons entry plan ih =>
    obtain ⟨call, _ | p⟩ := entry
    · exact ih calm
    · cases calm

theorem panics_after (plan : Plan) (t : Nat) : (plan.after t).panics = plan.panics.drop t := by
  induction t with
  | zero => rfl
  | succ t ih => rw [after, panics_rest, ih, List.tail_drop]

/-- The stretches one after the other and what is left are the plan: nothing is lost, and nothing
comes twice. -/
theorem stretches_append_after (plan : Plan) (t : Nat) :
    ((List.range t).flatMap fun t' => (plan.after t').stretch) ++ plan.after t = plan := by
  induction t with
  | zero => rfl
  | succ t ih =>
    rw [List.range_succ, List.flatMap_append, List.flatMap_singleton, List.append_assoc, after,
      stretch_append_rest, ih]

theorem after_eq_nil (plan : Plan) {t : Nat} (late : plan.panics.length < t) :
    plan.after t = [] := by
  cases t with
  | zero => cases late
  | succ t =>
    apply rest_eq_nil
    rw [panics_after]
    exact List.drop_eq_nil_of_le (Nat.le_of_lt_succ late)

/-! ### Plans in the order of a drain -/

theorem items_eq (plan : Plan) (k : Kind) :
    plan.items k
      = ((plan.map Prod.fst).filter fun call => call.1 = k).map fun call => call.2.1 := by
  rw [List.filter_map, List.map_map]
  rfl

/-- The plan is in the order in which a drain makes its calls. -/
def Arranged (o : Outcome Value) (plan : Plan) : Prop :=
  plan.map Prod.fst = Machine.drainCalls o plan.items

variable {o : Outcome Value} {plan : Plan} {waiting : Kind → List Item}

/-- A plan of what waits lists what waits. -/
theorem items_of_planned (planned : plan.map Prod.fst = Machine.drainCalls o waiting) {k : Kind}
    (drained : k ≠ .on o.side.other) : waiting k = plan.items k := by
  rw [items_eq, planned, Machine.drainCalls_of_kind, if_neg drained, List.map_map]
  exact (List.map_id _).symm

theorem Arranged.of_planned (planned : plan.map Prod.fst = Machine.drainCalls o waiting) :
    plan.Arranged o :=
  planned.trans (Machine.drainCalls_congr fun _ drained => items_of_planned planned drained)

/-- A plan in that order stays so when its first call has been made. -/
theorem Arranged.tail {entry : (Kind × Item × Option Value) × Option Panic}
    (h : Arranged o (entry :: plan)) : plan.Arranged o := by
  obtain ⟨⟨k, x, arg⟩, fate⟩ := entry
  unfold Arranged at h ⊢
  simp only [Machine.drainCalls, List.map_cons, List.flatMap_cons, List.flatMap_nil, List.append_nil,
    items_cons] at h ⊢
  have other : Kind.on o.side ≠ .waker ∧ Kind.on o.side ≠ .always := by simp
  -- what comes before the first call in the order of a drain is empty
  cases k with
  | waker => simpa [other.1.symm] using congrArg List.tail h
  | always =>
    cases hw : plan.items .waker with
    | cons y ys => simp [hw] at h
    | nil =>
      cases hm : plan.items (.on o.side) with
      | cons y ys => simp [hw, hm] at h
      | nil =>
        simpa [hw, hm] using congrArg List.tail h
  | on s =>
    cases hw : plan.items .waker with
    | cons y ys => simp [hw] at h
    | nil =>
      by_cases hs : s = o.side
      · subst hs
        simpa [hw] using congrArg List.tail h
      · cases hm : plan.items (.on o.side) with
        | cons y ys =>
          simp [hw, hm, hs] at h
        | nil => cases ha : plan.items .always <;> simp [hw, hm, ha, hs] at h

theorem Arranged.rest (h : plan.Arranged o) : plan.rest.Arranged o := by
  induction plan with
  | nil => exact h
  | cons entry plan ih =>
    obtain ⟨call, _ | p⟩ := entry
    · exact ih h.tail
    · exact h.tail

theorem Arranged.after (h : plan.Arranged o) (t : Nat) : (plan.after t).Arranged o := by
  induction t with
  | zero => exact h
  | succ t ih => exact ih.rest

end Plan

namespace Completion

/-- A stage of a drain and those after it. -/
def Stage.onward : Stage → List Stage
  | .wakers => [.wakers, .matching, .always]
  | .matching => [.matching, .always]
  | .always => [.always]

theorem Stage.onward_eq (stage : Stage) :
    stage.onward = stage :: stage.next?.elim [] Stage.onward := by cases stage <;> rfl

/-- No stage looks at the other side. -/
theorem Stage.kind_ne_other (stage : Stage) (s : Side) : stage.kind s ≠ .on s.other := by
  cases stage <;> cases s <;> decide

/-- What holds of a stage if it holds of the stage after it, holds of each stage. -/
theorem Stage.backwards {P : Stage → Prop}
    (step : ∀ stage, (∀ stage', stage.next? = some stage' → P stage') → P stage)
    (stage : Stage) : P stage := by
  have always : P .always := step .always nofun
  have matching : P .matching := step .matching fun _ next => Option.some.inj next ▸ always
  have wakers : P .wakers := step .wakers fun _ next => Option.some.inj next ▸ matching
  cases stage <;> assumption

end Completion

namespace Machine

section Drains

variable {watched : List String} {script : Script} {refers : String → Option Ref}
  {c : CompletionId} {base : List Frame} {waiting : Kind → List Item}
  {invoked : List (Kind × Item × Option Value)} {i j l n : Nat} {o : Outcome Value}
  {stage : Completion.Stage} {plan : Plan}

/-! ## What a drain is going to call -/

/-- What a drain calls from a stage on. -/
def upcoming (o : Outcome Value) (waiting : Kind → List Item) (stage : Completion.Stage) :
    List (Kind × Item × Option Value) :=
  stage.onward.flatMap fun stage =>
    (waiting (stage.kind o.side)).map fun x => (stage.kind o.side, x, stage.argument o.value)

/-- From the wakers on, everything that a drain calls is yet to be called. -/
theorem upcoming_wakers (o : Outcome Value) (waiting : Kind → List Item) :
    upcoming o waiting .wakers = drainCalls o waiting := rfl

/-- Of a stage whose queue is empty nothing is called. -/
theorem upcoming_of_nil (empty : waiting (stage.kind o.side) = []) :
    upcoming o waiting stage = stage.next?.elim [] (upcoming o waiting) := by
  unfold upcoming
  rw [stage.onward_eq, List.flatMap_cons, empty, List.map_nil, List.nil_append]
  cases stage.next? <;> rfl

/-- What is first in the queue of a stage is called first. -/
theorem upcoming_of_cons {x : Item} {items : List Item}
    (first : waiting (stage.kind o.side) = x :: items) :
    upcoming o waiting stage = (stage.kind o.side, x, stage.argument o.value)
      :: upcoming o (replaced waiting (stage.kind o.side) items) stage := by
  cases stage <;>
    simp_all [upcoming, Completion.Stage.onward, Completion.Stage.kind, replaced]

/-- From moment `i` on, as long as the drain above the frames is under way, what it calls fares as
planned: its first item as the first of the plan, and so on. -/
def Fates (watched : List String) (script : Script) (c : CompletionId) (base : List Frame)
    (plan : Plan) (i : Nat) : Prop :=
  ∀ l m here p frames k x, Stays watched script base i l →
    ((moment watched script l).world.invoked c).length
      = ((moment watched script i).world.invoked c).length + m →
    (moment watched script l).stack = .driving c here :: base →
    (moment watched script (l + 1)).stack = frames ++ .driving c p :: base →
    (moment watched script (l + 1)).world.called c k
      = (moment watched script l).world.called c k ++ [x] →
    Fares watched script [] c (.driving c p :: base) (plan[m]?.bind Prod.snd) l

theorem Fates.later (done : Plan) (h : Fates watched script c base (done ++ plan) i)
    (stays : Stays watched script base i l)
    (made : ((moment watched script l).world.invoked c).length
      = ((moment watched script i).world.invoked c).length + done.length) :
    Fates watched script c base plan l := by
  intro l' m here p frames k x stays' later hstack hstack' called
  have fares := h l' (done.length + m) here p frames k x (stays.trans stays') (by omega) hstack
    hstack' called
  rwa [List.getElem?_append_right (Nat.le_add_right ..), Nat.add_sub_cancel_left] at fares

/-- In a drain that comes to its end, each call of an item is looked at on its own. -/
theorem Fates.of_calls {last : Nat} (later : i ≤ last)
    (low : (moment watched script last).stack.length ≤ base.length)
    (calls : ∀ l < last, i ≤ l →
      ((moment watched script (l + 1)).world.invoked c).length
        ≠ ((moment watched script l).world.invoked c).length →
      ∃ j, comesBack watched script c l j = true ∧
        Fared (plan[((moment watched script l).world.invoked c).length
            - ((moment watched script i).world.invoked c).length]?.bind Prod.snd)
          (moment watched script j).control) :
    Fates watched script c base plan i := by
  intro l m here p frames k x stays made hstack hstack' called
  have before : l < last := by
    apply Nat.lt_of_not_le
    intro past
    obtain rfl | sooner := Nat.eq_or_lt_of_le past
    · rw [hstack] at low
      exact absurd low (Nat.not_succ_le_self _)
    · exact absurd (stays.high last later sooner) (Nat.not_lt_of_le low)
  obtain ⟨j, back, fared⟩ := calls l before stays.le (invoked_of_called called)
  rw [made, Nat.add_sub_cancel_left] at fared
  exact .of_comesBack hstack hstack' back fared (List.forall_mem_nil _)

/-! ## One drain -/

/-- A drain of a completion that is settled, at moment `i` above the frames and with so many items
called before, has come to its end by moment `j`. It has made the calls of the plan up to the first
that panics. With that panic it unwinds, and otherwise it answers and writes to the log how many
items it has called. The rest of the plan waits, and the cell and the other side are as they
were. -/
structure Advanced (watched : List String) (script : Script) (c : CompletionId)
    (o : Outcome Value) (base : List Frame) (called : Nat) (plan : Plan) (i j : Nat) : Prop where
  stays : Stays watched script base i j
  stack : (moment watched script j).stack = base
  control : (moment watched script j).control = match plan.panics.head? with
    | some p => .unwind p
    | none => .answer .unit
  invoked : (moment watched script j).world.invoked c
    = (moment watched script i).world.invoked c ++ plan.stretch.map Prod.fst
  cell : ((moment watched script j).world.completion c).cell
    = ((moment watched script i).world.completion c).cell
  waiting : ∀ k, ((moment watched script j).world.completion c).waiting k =
    if k = .on o.side.other then ((moment watched script i).world.completion c).waiting k
    else plan.rest.items k
  tallies : (moment watched script j).world.tallies c = (moment watched script i).world.tallies c
    ++ if plan.panics = [] then [(called + plan.length, o.side)] else []

/-- The drain was under way already, and has done nothing that counts. -/
theorem Advanced.earlier (h : Advanced watched script c o base n plan l j)
    (stays : Stays watched script base i l) {cell : Cell Value}
    (before : Books [] refers c cell waiting invoked (moment watched script i).world)
    (after : Books [] refers c cell waiting invoked (moment watched script l).world)
    (silent : (moment watched script l).world.tallies c
      = (moment watched script i).world.tallies c) :
    Advanced watched script c o base n plan i j := by
  refine ⟨stays.trans h.stays, h.stack, h.control, ?_, ?_, fun k => ?_, silent ▸ h.tallies⟩
  · rw [h.invoked, before.invoked, after.invoked]
  · rw [h.cell, before.cell, after.cell]
  · rw [h.waiting, before.waiting, after.waiting]

/-- The drain has called an item before, which has answered. -/
theorem Advanced.cons {x : Item} {items : List Item} {arg : Option Value} {k : Kind}
    (h : Advanced watched script c o base (n + 1) plan l j)
    (stays : Stays watched script base i l) {cell : Cell Value} (drained : k ≠ .on o.side.other)
    (before : Books [] refers c cell waiting invoked (moment watched script i).world)
    (after : Books [] refers c cell (replaced waiting k items) (invoked ++ [(k, x, arg)])
      (moment watched script l).world)
    (silent : (moment watched script l).world.tallies c
      = (moment watched script i).world.tallies c) :
    Advanced watched script c o base n (((k, x, arg), none) :: plan) i j := by
  refine ⟨stays.trans h.stays, h.stack, h.control, ?_, ?_, fun k' => ?_, ?_⟩
  · rw [h.invoked, before.invoked, after.invoked, List.append_assoc]
    rfl
  · rw [h.cell, before.cell, after.cell]
  · rw [h.waiting, before.waiting, after.waiting]
    split
    next other => exact if_neg fun same => drained (same.trans other)
    next => rfl
  · rw [h.tallies, silent, Nat.add_assoc, Nat.add_comm 1]
    rfl

/-- The drain calls an item, which panics. -/
theorem Advanced.panics {x : Item} {items : List Item} {arg : Option Value} {k : Kind} {p : Panic}
    (stays : Stays watched script base i j) {cell : Cell Value} (drained : k ≠ .on o.side.other)
    (before : Books [] refers c cell waiting invoked (moment watched script i).world)
    (after : Books [] refers c cell (replaced waiting k items) (invoked ++ [(k, x, arg)])
      (moment watched script j).world)
    (left : ∀ k', k' ≠ .on o.side.other → replaced waiting k items k' = plan.items k')
    (silent : (moment watched script j).world.tallies c
      = (moment watched script i).world.tallies c)
    (stack : (moment watched script j).stack = base)
    (control : (moment watched script j).control = .unwind p) :
    Advanced watched script c o base n (((k, x, arg), some p) :: plan) i j := by
  refine ⟨stays, stack, control, ?_, ?_, fun k' => ?_, ?_⟩
  · rw [before.invoked, after.invoked]
    rfl
  · rw [before.cell, after.cell]
  · rw [before.waiting, after.waiting]
    split
    next other => exact if_neg fun same => drained (same.trans other)
    next other => exact left k' other
  · exact silent.trans (List.append_nil _).symm

theorem At.tallies {here : Completion.Point Value Item} {cell : Cell Value}
    (h : At watched script [] refers c base here cell waiting invoked i) :
    (moment watched script (i + 1)).world.tallies c
      = (moment watched script i).world.tallies c ++ here.tallies := by
  rw [moment_succ]
  exact h.acting.tallies (moment_sound watched script i)

/-- A drain that has still something to call comes to it. -/
theorem At.finds {cell : Cell Value} {call : Kind × Item × Option Value}
    {calls : List (Kind × Item × Option Value)}
    (h : At watched script [] refers c base (.sweep o.side .unit o.value stage n) cell waiting
      invoked i)
    (next : upcoming o waiting stage = call :: calls) :
    ∃ stage' x items l, Stays watched script base i l ∧
      At watched script [] refers c base (.sweep o.side .unit o.value stage' n) cell waiting
        invoked l ∧
      (moment watched script l).world.tallies c = (moment watched script i).world.tallies c ∧
      waiting (stage'.kind o.side) = x :: items ∧ upcoming o waiting stage' = call :: calls := by
  induction stage using Completion.Stage.backwards generalizing i with
  | step stage ih =>
    cases empty : waiting (stage.kind o.side) with
    | cons x items => exact ⟨stage, x, items, i, .refl i, h, rfl, empty, next⟩
    | nil =>
      have leaves := h.leaves empty
      have silent := h.tallies.trans (List.append_nil _)
      rw [upcoming_of_nil empty] at next
      cases onward : stage.next? with
      | none =>
        rw [onward] at next
        cases next
      | some stage' =>
        rw [onward] at next leaves
        obtain ⟨stage'', x, items, l, stays, sweep, silent', first, next'⟩ :=
          ih stage' onward leaves next
        exact ⟨stage'', x, items, l, h.stays.trans stays, sweep, silent'.trans silent, first,
          next'⟩

/-- A drain that has nothing more to call writes its tally to the log and answers. -/
theorem At.closes {cell : Cell Value}
    (h : At watched script [] refers c base (.sweep o.side .unit o.value stage n) cell waiting
      invoked i)
    (done : upcoming o waiting stage = []) :
    ∃ j, Stays watched script base i j ∧ (moment watched script j).stack = base ∧
      (moment watched script j).control = .answer .unit ∧
      Books [] refers c cell waiting invoked (moment watched script j).world ∧
      (moment watched script j).world.tallies c
        = (moment watched script i).world.tallies c ++ [(n, o.side)] := by
  induction stage using Completion.Stage.backwards generalizing i with
  | step stage ih =>
    have empty : waiting (stage.kind o.side) = [] := by
      cases first : waiting (stage.kind o.side) with
      | nil => rfl
      | cons x items =>
        rw [upcoming_of_cons first] at done
        cases done
    have leaves := h.leaves empty
    have silent := h.tallies.trans (List.append_nil _)
    rw [upcoming_of_nil empty] at done
    cases onward : stage.next? with
    | some stage' =>
      rw [onward] at done leaves
      obtain ⟨j, stays, stack, control, books, tallies⟩ := ih stage' onward leaves done
      exact ⟨j, h.stays.trans stays, stack, control, books, silent ▸ tallies⟩
    | none =>
      rw [onward] at leaves
      have finish : At watched script [] refers c base (.finish .unit) cell waiting invoked
          (i + 1 + 1) := leaves.onward fun x a does => by
        cases does with
        | report => exact ⟨rfl, leaves.books.cell, leaves.books.waiting⟩
      have ended := finish.ends fun x a does => by
        cases does with
        | finish => exact ⟨⟨_, rfl⟩, rfl⟩
      refine ⟨_, (h.stays.trans leaves.stays).trans finish.stays, ended.stack, ?_, ended.books, ?_⟩
      · rw [moment_succ, step_of_resume finish.acting.stack finish.acting.control]
        rfl
      · rw [finish.tallies, leaves.tallies, silent]
        exact List.append_nil _

/-- A drain in its stages makes the calls of the plan up to the first that panics. -/
theorem At.sweeps {cell : Cell Value} (fates : Fates watched script c base plan i)
    (h : At watched script [] refers c base (.sweep o.side .unit o.value stage n) cell waiting
      invoked i)
    (planned : plan.map Prod.fst = upcoming o waiting stage)
    (left : ∀ k, k ≠ .on o.side.other → waiting k = plan.items k) :
    ∃ j, Advanced watched script c o base n plan i j := by
  induction plan generalizing stage waiting invoked i n with
  | nil =>
    obtain ⟨j, stays, stack, control, books, tallies⟩ := h.closes planned.symm
    refine ⟨j, stays, stack, control, ?_, ?_, fun k => ?_, tallies⟩
    · rw [books.invoked, h.books.invoked]
      exact (List.append_nil _).symm
    · rw [books.cell, h.books.cell]
    · rw [books.waiting, h.books.waiting]
      split
      next => rfl
      next drained => exact left k drained
  | cons entry plan ih =>
    obtain ⟨stage', x, items, l, stays, sweep, silent, first, next⟩ := h.finds planned.symm
    rw [upcoming_of_cons first] at next
    obtain ⟨call, fate⟩ := entry
    obtain ⟨rfl, planned'⟩ := List.cons.inj next
    have drained : stage'.kind o.side ≠ .on o.side.other := stage'.kind_ne_other o.side
    have left' : ∀ k, k ≠ .on o.side.other →
        replaced waiting (stage'.kind o.side) items k = Plan.items plan k := by
      intro k hk
      have whole := left k hk
      unfold replaced
      split
      next same =>
        rw [← same, first, Plan.items_cons, if_pos rfl] at whole
        rw [← same]
        exact (List.cons.inj whole).2
      next other => rwa [Plan.items_cons, if_neg other] at whole
    have fates' : Fates watched script c base (_ :: plan) l := fates.later [] stays (by
      rw [sweep.books.invoked, h.books.invoked]
      rfl)
    obtain ⟨j, stays', silent', books, outcome⟩ := sweep.calls fate first
      fun frames hstack called => fates' l 0 _ _ frames _ x (.refl l) rfl sweep.acting.stack hstack
        called
    have before := stays.trans stays'
    have tallies := silent'.trans silent
    cases fate with
    | none =>
      have fates'' : Fates watched script c base plan j := fates.later [_] before (by
        rw [books.invoked, h.books.invoked, List.length_append]
        rfl)
      obtain ⟨j', rest⟩ := ih fates'' ⟨outcome, books⟩ planned'.symm left'
      exact ⟨j', rest.cons before drained h.books books tallies⟩
    | some p =>
      exact ⟨j, .panics before drained h.books books left' tallies outcome.1 outcome.2⟩

/-- A drain that begins makes the calls of the plan up to the first that panics. -/
theorem Acting.advances
    (acting : Acting c base (Completion.Call.drain o.side).start (moment watched script i))
    (cell : ((moment watched script i).world.completion c).cell = .holding (some o))
    (planned : plan.map Prod.fst
      = drainCalls o ((moment watched script i).world.completion c).waiting)
    (left : ∀ k, k ≠ .on o.side.other →
      ((moment watched script i).world.completion c).waiting k = plan.items k)
    (fates : Fates watched script c base plan i) :
    ∃ j, Advanced watched script c o base 0 plan i j := by
  have check : At watched script [] (fun _ => none) c base (.check o.side .unit)
      (.holding (some o)) ((moment watched script i).world.completion c).waiting
      ((moment watched script i).world.invoked c) i :=
    ⟨acting, ⟨List.forall_mem_nil _, cell, fun _ => rfl, rfl⟩⟩
  have fetch := check.fetches
  have sweep := fetch.opens
  have stays := check.stays.trans fetch.stays
  have fates' : Fates watched script c base plan (i + 1 + 1) := fates.later [] stays (by
    rw [sweep.books.invoked]
    rfl)
  obtain ⟨j, drained⟩ := sweep.sweeps fates' (planned.trans (upcoming_wakers o _).symm) left
  refine ⟨j, drained.earlier stays check.books sweep.books ?_⟩
  rw [fetch.tallies, check.tallies]
  exact (List.append_nil _).trans (List.append_nil _)

end Drains

/-! ## Drains in a row -/

section Rows

variable {watched : List String} {script : Script} {c : CompletionId} {o : Outcome Value}
  {times : Nat} {start : Nat → Nat} {base : Nat → List Frame} {plan : Plan} {t : Nat}

/-- So many drains of a completion in a row. Each begins at its moment, above its frames, and from
the end of one to the beginning of the next nothing is done with the completion. -/
structure InRow (watched : List String) (script : Script) (c : CompletionId) (s : Side)
    (times : Nat) (start : Nat → Nat) (base : Nat → List Frame) : Prop where
  begins : ∀ t < times,
    Acting c (base t) (Completion.Call.drain s).start (moment watched script (start t))
  between : ∀ t, t + 1 < times → ∃ j, Stays watched script (base t) (start t) j ∧
    (moment watched script j).stack.length ≤ (base t).length ∧ j ≤ start (t + 1) ∧
    ∀ k, j ≤ k → k < start (t + 1) →
      ∀ here below, (moment watched script k).stack ≠ .driving c here :: below

/-- A drain ends at the first moment at which the stack is as low as below it. -/
theorem Stays.unique {below : List Frame} {i j j' : Nat} (h : Stays watched script below i j)
    (low : (moment watched script j).stack.length ≤ below.length)
    (h' : Stays watched script below i j')
    (low' : (moment watched script j').stack.length ≤ below.length) : j = j' := by
  obtain sooner | same | later := Nat.lt_trichotomy j j'
  · exact absurd (h'.high j h.le sooner) (Nat.not_lt_of_le low)
  · exact same
  · exact absurd (h.high j' h'.le later) (Nat.not_lt_of_le low')

/-- From the end of a drain to the beginning of the next nothing happens to the completion. -/
theorem InRow.untouched {s : Side} (row : InRow watched script c s times start base)
    (ht : t + 1 < times) {j : Nat} (stays : Stays watched script (base t) (start t) j)
    (stack : (moment watched script j).stack = base t) :
    j ≤ start (t + 1) ∧
      Untouched c (moment watched script j).world (moment watched script (start (t + 1))).world := by
  obtain ⟨j', stays', low, le, apart⟩ := row.between t ht
  obtain rfl := stays.unique (Nat.le_of_eq (congrArg List.length stack)) stays' low
  have lives : ∀ t < times, (moment watched script (start t)).world.Alive c := fun t ht =>
    ((moment_sound watched script _).of_driving
      ((row.begins t ht).stack ▸ List.mem_cons_self ..)).1
  have born := Nat.lt_of_lt_of_le (lives t (Nat.lt_of_succ_lt ht)).lt_size (size_le stays.le)
  exact ⟨le, untouched_between born le (lives (t + 1) ht) apart⟩

/-- What a drain of the row finds: the completion is settled, and what is left of the plan
waits. -/
structure Finds (watched : List String) (script : Script) (c : CompletionId) (o : Outcome Value)
    (plan : Plan) (i₀ i : Nat) (t : Nat) : Prop where
  cell : ((moment watched script i).world.completion c).cell = .holding (some o)
  waiting : ∀ k, ((moment watched script i).world.completion c).waiting k =
    if k = .on o.side.other then ((moment watched script i₀).world.completion c).waiting k
    else (plan.after t).items k
  invoked : (moment watched script i).world.invoked c = (moment watched script i₀).world.invoked c
    ++ ((List.range t).flatMap fun t' => (plan.after t').stretch).map Prod.fst

/-- A drain of the row leaves to the next what it has not called itself. -/
theorem Finds.next {below : List Frame} {i₀ i j : Nat}
    (finds : Finds watched script c o plan i₀ i t)
    (drained : Advanced watched script c o below 0 (plan.after t) i j) :
    Finds watched script c o plan i₀ j (t + 1) := by
  refine ⟨drained.cell.trans finds.cell, fun k => ?_, ?_⟩
  · rw [drained.waiting, finds.waiting]
    split
    next => rfl
    next => rfl
  · rw [drained.invoked, finds.invoked, List.append_assoc, ← List.map_append, List.range_succ,
      List.flatMap_append, List.flatMap_singleton]

theorem Finds.untouched {i₀ i j : Nat} (finds : Finds watched script c o plan i₀ i t)
    (untouched : Untouched c (moment watched script i).world (moment watched script j).world) :
    Finds watched script c o plan i₀ j t := by
  refine ⟨?_, fun k => ?_, untouched.invoked.trans finds.invoked⟩
  · rw [untouched.completion]
    exact finds.cell
  · rw [untouched.completion]
    exact finds.waiting k

theorem Finds.advances (arranged : plan.Arranged o) {below : List Frame} {i₀ i : Nat}
    (finds : Finds watched script c o plan i₀ i t)
    (acting : Acting c below (Completion.Call.drain o.side).start (moment watched script i))
    (fates : Fates watched script c below (plan.after t) i) :
    ∃ j, Advanced watched script c o below 0 (plan.after t) i j := by
  have left : ∀ k, k ≠ .on o.side.other →
      ((moment watched script i).world.completion c).waiting k = (plan.after t).items k :=
    fun k drained => (finds.waiting k).trans (if_neg drained)
  have planned := (arranged.after t).trans (drainCalls_congr fun k drained => (left k drained).symm)
  exact acting.advances finds.cell planned left fates

end Rows

/-- Draining after panics goes on exactly where it stopped. Let a completion have settled with an
outcome, and let a plan say in which order a drain without panics would call what waits for it,
with which arguments, and which of these calls panic. Of drains in a row on the matching side, of
which nothing that is called does anything with the completion, each makes the calls of what is
left of the plan up to the next panic, with which it unwinds. What is left then waits, while the
cell and what waits for the other side are as they were. Only drains that find no panic answer
and write their tally. After as many drains as there are panics one makes all calls that are left,
and those after it make none; so the whole plan is called, in its order, and each item once. -/
theorem draining_resumes (watched : List String) (script : Script) (c : CompletionId)
    (o : Outcome Value) (times : Nat) (start : Nat → Nat) (base : Nat → List Frame) (plan : Plan)
    (row : InRow watched script c o.side times start base)
    (settled : ((moment watched script (start 0)).world.completion c).cell.result = some o)
    (planned : plan.map Prod.fst
      = drainCalls o ((moment watched script (start 0)).world.completion c).waiting)
    (fates : ∀ t < times, Fates watched script c (base t) (plan.after t) (start t)) :
    (∀ t < times, ∃ j,
      Advanced watched script c o (base t) 0 (plan.after t) (start t) j ∧
      Finds watched script c o plan (start 0) j (t + 1) ∧
      (t + 1 < times → j ≤ start (t + 1) ∧ Untouched c (moment watched script j).world
        (moment watched script (start (t + 1))).world)) ∧
    (∀ t, (plan.after t).panics = plan.panics.drop t) ∧
    (∀ t, ((List.range t).flatMap fun t' => (plan.after t').stretch) ++ plan.after t = plan) ∧
    ∀ t, plan.panics.length < t → plan.after t = [] := by
  have arranged : plan.Arranged o := .of_planned planned
  have finds : ∀ t < times, Finds watched script c o plan (start 0) (start t) t := by
    intro t ht
    induction t with
    | zero =>
      have alive := ((moment_sound watched script _).of_driving
        ((row.begins 0 ht).stack ▸ List.mem_cons_self ..)).1
      have exact := (moment_sound watched script (start 0)).world.exact alive.getElem?
      obtain ⟨state, stored⟩ := exact.cell.of_result settled
      refine ⟨?_, fun k => ?_, (List.append_nil _).symm⟩
      · exact (Cell.SettledWith.mk state stored).eq
      · split
        next => rfl
        next drained => exact Plan.items_of_planned planned drained
    | succ t ih =>
      have before := ih (Nat.lt_of_succ_lt ht)
      obtain ⟨j, drained⟩ := before.advances arranged (row.begins t (Nat.lt_of_succ_lt ht))
        (fates t (Nat.lt_of_succ_lt ht))
      exact (before.next drained).untouched (row.untouched ht drained.stays drained.stack).2
  refine ⟨fun t ht => ?_, plan.panics_after, plan.stretches_append_after,
    fun t => plan.after_eq_nil⟩
  obtain ⟨j, drained⟩ := (finds t ht).advances arranged (row.begins t ht) (fates t ht)
  exact ⟨j, drained, (finds t ht).next drained,
    fun more => row.untouched more drained.stays drained.stack⟩

/-- A drain whose panics are caught. -/
def caughtDrain : Step := .mk "" (.attempt [.mk "" (.onCompletion "c" (.drain .success))])

/-- A waker, two callbacks for success, one for failure and one for either side, of which the
waker, the first callback for success and the last one panic. The completion is committed and then
drained five times. -/
def panickingScript : Script :=
  [.mk "" (.create "c" .completion), .mk "" (.create "w" (.waker [.mk "" (.raise (.text "w"))])),
    .mk "" (.onCompletion "c" (.registerWaker "w")),
    .mk "" (.onCompletion "c" (.register (.on .success) (.mk "a" [.mk "" (.raise (.text "a"))]))),
    .mk "" (.onCompletion "c" (.register (.on .success) (.mk "b" []))),
    .mk "" (.onCompletion "c" (.register (.on .failure) (.mk "f" []))),
    .mk "" (.onCompletion "c" (.register .always (.mk "z" [.mk "" (.raise (.text "z"))]))),
    .mk "" (.onCompletion "c" (.tryCommit ⟨.success, { data := .int 5 }⟩))]
    ++ List.replicate 5 caughtDrain

/-- What the drains of the script call. -/
def panickingPlan : Plan :=
  [((.waker, .waker 0, none), some (.text "w")),
    ((.on .success, .callback (.mk "a" [.mk "" (.raise (.text "a"))]) none,
      some { data := .int 5 }), some (.text "a")),
    ((.on .success, .callback (.mk "b" []) none, some { data := .int 5 }), none),
    ((.always, .callback (.mk "z" [.mk "" (.raise (.text "z"))]) none, none), some (.text "z"))]

/-- The moments at which the drains of the script begin. -/
def drainBegins (t : Nat) : Nat := [39, 51, 64, 81, 95].getD t 0

/-- The moments at which they end. -/
def drainEnds (t : Nat) : Nat := [45, 58, 75, 88, 102].getD t 0

/-- The frames below them. -/
def drainBase (t : Nat) : List Frame :=
  [.holding (.completion 0), .body "" [], .catching, .session [] (List.replicate (4 - t) caughtDrain)]

/-- Three drains panic, the fourth one answers, and the fifth one finds nothing. -/
theorem draining_resumes_thrice : panickingPlan.panics.length = 3 ∧ ∀ t < 5, ∃ j,
    Advanced [] panickingScript 0 ⟨.success, { data := .int 5 }⟩ (drainBase t) 0
      (panickingPlan.after t) (drainBegins t) j := by
  have ends : ∀ t < 5, drainBegins t ≤ drainEnds t ∧
      (moment [] panickingScript (drainEnds t)).stack.length ≤ 4 ∧
      ∀ k < drainEnds t, drainBegins t ≤ k → 4 < (moment [] panickingScript k).stack.length := by
    decide +kernel
  have apart : ∀ t < 4, drainEnds t ≤ drainBegins (t + 1) ∧ ∀ k < drainBegins (t + 1),
      drainEnds t ≤ k → attends 0 (moment [] panickingScript k) = false := by decide +kernel
  have row : InRow [] panickingScript 0 .success 5 drainBegins drainBase := by
    constructor
    · rintro (_ | _ | _ | _ | _ | t) ht
      · exact ⟨rfl, rfl⟩
      · exact ⟨rfl, rfl⟩
      · exact ⟨rfl, rfl⟩
      · exact ⟨rfl, rfl⟩
      · exact ⟨rfl, rfl⟩
      · omega
    · intro t ht
      obtain ⟨le, low, high⟩ := ends t (by omega)
      obtain ⟨le', quiet⟩ := apart t (by omega)
      exact ⟨drainEnds t, ⟨le, fun k hk hk' => high k hk' hk⟩, low, le', fun k hk hk' =>
        ne_driving_of_attends (quiet k hk' hk)⟩
  have calls : ∀ l < 102, ((moment [] panickingScript (l + 1)).world.invoked 0).length
      ≠ ((moment [] panickingScript l).world.invoked 0).length →
      l = 41 ∨ l = 54 ∨ l = 67 ∨ l = 71 := by decide +kernel
  have whose : ∀ t < 5, drainEnds t ≤ 102 ∧
      (∀ l ∈ [41], drainBegins t ≤ l → l < drainEnds t → t = 0) ∧
      (∀ l ∈ [54], drainBegins t ≤ l → l < drainEnds t → t = 1) ∧
      ∀ l ∈ [67, 71], drainBegins t ≤ l → l < drainEnds t → t = 2 := by decide
  have fates : ∀ t < 5, Fates [] panickingScript 0 (drainBase t) (panickingPlan.after t)
      (drainBegins t) := by
    intro t ht
    obtain ⟨le, low, -⟩ := ends t ht
    obtain ⟨last, first, second, third⟩ := whose t ht
    refine .of_calls le low fun l hl hl' new => ?_
    obtain rfl | rfl | rfl | rfl := calls l (Nat.lt_of_lt_of_le hl last) new
    · obtain rfl := first _ (by simp) hl' hl
      exact ⟨44, by decide +kernel, rfl⟩
    · obtain rfl := second _ (by simp) hl' hl
      exact ⟨57, by decide +kernel, rfl⟩
    · obtain rfl := third _ (by simp) hl' hl
      exact ⟨69, by decide +kernel, _, rfl⟩
    · obtain rfl := third _ (by simp) hl' hl
      exact ⟨74, by decide +kernel, rfl⟩
  obtain ⟨drains, -⟩ := draining_resumes [] panickingScript 0 ⟨.success, { data := .int 5 }⟩ 5
    drainBegins drainBase panickingPlan row rfl rfl fates
  exact ⟨rfl, fun t ht => (drains t ht).imp fun j drained => drained.1⟩

end Machine

end Eventual
