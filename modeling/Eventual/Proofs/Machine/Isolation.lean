import Eventual.Proofs.Machine.Returns
import Eventual.World.Report

/-!
# What isolation contains, and what it reports

A guard stands between a drain and the body of every callback of a deferred, `Invokes`. Where
the context isolates, a panic that comes out of the body ends at this guard: the guard logs it,
calls the panic handler and goes on, `Reports`. Nothing else in a run logs a contained panic, so
the reports on record are, one by one, those of the moments at which a guard is told of a panic.

When it has been reported, what the panic carries is dropped, `Drops`, and no guard stands above
the drain any more. This is the one way out: the drop of an object can panic itself, and then the
panic unwinds the drain. As long as drops come back, no panic reaches a drain of the deferred, and
no drain stops before its time. So whatever waits after the deferred has settled is minded by a
drain that is under way, `Attended`, and once none is under way nothing waits.
-/

namespace Eventual

open World

/-- The event, if it logs a contained panic or reports one. -/
def Event.reports : Event → List Event
  | .logged c (.contained label p) => [.logged c (.contained label p)]
  | .reported h p => [.reported h p]
  | _ => []

namespace Machine

variable {watched : List String} {script : Script} {n i j : Nat} {c : CompletionId}
  {ctx : Context} {base below : List Frame} {m : Machine}

/-- What the guard of a callback reports when it is told of a panic of the body. -/
def reports (m : Machine) : List Event :=
  match m.stack, m.control with
  | .guarding c ctx :: _, .unwind p =>
    match ctx.policy with
    | .propagate => []
    | .isolate =>
      .logged c (.contained ctx.label p) :: (ctx.handler.map fun h => .reported h.name p).toList
  | _, _ => []

/-- A guard is told of a panic of the body above it. -/
structure Catches (c : CompletionId) (ctx : Context) (p : Panic) (base : List Frame)
    (m : Machine) : Prop where
  stack : m.stack = .guarding c ctx :: base
  control : m.control = .unwind p

/-- The guard logs the panic and is gone. If there is a panic handler it is called, and keeps
what the panic carries below it; else this is dropped at once, which may wake a waker. -/
structure Reports (c : CompletionId) (ctx : Context) (p : Panic) (base : List Frame)
    (m m' : Machine) : Prop where
  history : ∃ woken, m'.world.history = m.world.history
      ++ (.logged c (.contained ctx.label p)
        :: (ctx.handler.map fun h => .reported h.name p).toList) ++ woken ∧
    ∀ ev ∈ woken, ∃ i name, ev = .woken i name
  handled : ∀ h, ctx.handler = some h →
    m'.stack = .body "" h.body :: .dropping p :: base ∧ m'.control = .resume
  dropped : ctx.handler = none →
    m' = dispose (m.world.record (.logged c (.contained ctx.label p))) base p

/-! ## What a drop does -/

theorem wake_history (w : World) (i : WakerId) :
    ∃ woken, (w.wake i).1.history = w.history ++ woken ∧
      ∀ ev ∈ woken, ∃ i name, ev = .woken i name := by
  unfold World.wake
  split
  next => exact ⟨[], (List.append_nil _).symm, List.forall_mem_nil _⟩
  next => exact ⟨_, history_record _ _, List.forall_mem_singleton.2 ⟨_, _, rfl⟩⟩

theorem dispose_history (w : World) (base : List Frame) (p : Panic) :
    ∃ woken, (dispose w base p).world.history = w.history ++ woken ∧
      ∀ ev ∈ woken, ∃ i name, ev = .woken i name := by
  unfold dispose
  split
  next i _ => exact wake_history w i
  next => exact ⟨[], (List.append_nil _).symm, List.forall_mem_nil _⟩

theorem dispose_stack (w : World) (base : List Frame) (p : Panic) :
    ∃ new, (dispose w base p).stack = new ++ base ∧ ∀ f ∈ new, ∃ body, f = .body "" body := by
  unfold dispose
  split
  next => exact ⟨[_], rfl, List.forall_mem_singleton.2 ⟨_, rfl⟩⟩
  next => exact ⟨[], rfl, List.forall_mem_nil _⟩

/-- A text, a number or a refused demand is dropped without ado. -/
theorem dispose_of_inert {p : Panic} (inert : p.wakes? = none) (w : World) (base : List Frame) :
    dispose w base p = hand w base .unit := by
  simp only [dispose, inert, Option.bind_none]

/-! ## What a guard does with a panic -/

theorem Catches.reports {p : Panic} (catches : Catches c ctx p base m)
    (isolates : ctx.policy = .isolate) : Reports c ctx p base m m.step := by
  have step : m.step = contain m.world base c ctx p := by
    rw [step_of_unwind catches.stack catches.control]
    simp only [unwind, isolates]
  rw [step]
  unfold contain
  cases hh : ctx.handler with
  | some h =>
    refine ⟨⟨[], by simp [hh, goOn, history_record], by simp⟩, ?_, ?_⟩
    · rintro h' same
      cases hh.symm.trans same
      exact ⟨rfl, rfl⟩
    · exact fun silent => absurd (silent.symm.trans hh) (by simp)
  | none =>
    refine ⟨?_, fun h same => absurd (hh.symm.trans same) (by simp), fun _ => rfl⟩
    obtain ⟨woken, history, wakes⟩ :=
      dispose_history (m.world.record (.logged c (.contained ctx.label p))) base p
    exact ⟨woken, by rw [history, history_record, hh]; rfl, wakes⟩

/-- What the panic carries that a guard caught at moment `j` is dropped at moment `i`: at once, or
when the panic handler has come back with an answer. -/
inductive Drops (watched : List String) (script : Script) (c : CompletionId) (ctx : Context)
    (p : Panic) (base : List Frame) (j : Nat) : Nat → Prop
  | atOnce : ctx.handler = none → Catches c ctx p base (moment watched script j) →
      Drops watched script c ctx p base j j
  | handled {h : PanicHandler} {i : Nat} {r : Reply} : ctx.handler = some h →
      Catches c ctx p base (moment watched script j) → j < i →
      (∀ k, j < k → k < i → base.length + 1 < (moment watched script k).stack.length) →
      (moment watched script i).stack = .dropping p :: base →
      (moment watched script i).control = .answer r → Drops watched script c ctx p base j i

theorem Drops.catches {p : Panic} (drops : Drops watched script c ctx p base j i) :
    Catches c ctx p base (moment watched script j) := by
  cases drops with
  | atOnce _ catches | handled _ catches => exact catches

theorem Drops.step {p : Panic} (drops : Drops watched script c ctx p base j i)
    (isolates : ctx.policy = .isolate) : ∃ w, moment watched script (i + 1) = dispose w base p := by
  rw [moment_succ]
  cases drops with
  | atOnce silent catches => exact ⟨_, (catches.reports isolates).dropped silent⟩
  | handled _ _ _ _ hstack answer => exact ⟨_, step_of_answer hstack answer⟩

theorem Drops.returns_of_inert {p : Panic} (drops : Drops watched script c ctx p base j i)
    (isolates : ctx.policy = .isolate) (inert : p.wakes? = none) :
    Returns watched script n i base := by
  obtain ⟨w, next⟩ := drops.step isolates
  rw [dispose_of_inert inert] at next
  refine Returns.of_first (fun k hik hki => by omega) (Nat.lt_succ_self i) ?_ ⟨.unit, ?_⟩
  · rw [next]
    exact Nat.le_refl _
  · rw [next]
    rfl

/-- Between the catch and the drop the guard's place is taken. -/
theorem Drops.later {p : Panic} (drops : Drops watched script c ctx p base j i) :
    j ≤ i ∧ ∀ k, j < k → k ≤ i → base.length < (moment watched script k).stack.length := by
  cases drops with
  | atOnce => exact ⟨Nat.le_refl _, fun k hjk hkj => by omega⟩
  | handled _ _ hji running hstack =>
    refine ⟨Nat.le_of_lt hji, fun k hjk hki => ?_⟩
    obtain sooner | rfl := Nat.lt_or_eq_of_le hki
    · exact Nat.lt_of_succ_lt (running k hjk sooner)
    · rw [hstack]
      exact Nat.lt_succ_self _

/-- If the panic handler comes back, and then the drop of what the panic carries, so does the
guard. -/
theorem Catches.returns {p : Panic} (catches : Catches c ctx p base (moment watched script j))
    (isolates : ctx.policy = .isolate)
    (handler : ∀ h, ctx.handler = some h → Returns watched script n j (.dropping p :: base))
    (drops : ∀ i < n, Drops watched script c ctx p base j i → Returns watched script n i base) :
    Returns watched script n j base := by
  intro l hjl hln running back
  have reports := catches.reports isolates
  rw [← moment_succ] at reports
  cases hh : ctx.handler with
  | none => exact drops j (Nat.lt_of_lt_of_le hjl hln) (.atOnce hh catches) l hjl hln running back
  | some h =>
    obtain ⟨i, hji, hil, handling, returned⟩ := @exists_first_back watched script
      (.dropping p :: base) (j + 1) l ⟨_, [], (reports.handled h hh).1⟩ hjl (by rw [back]; simp)
    have sooner : i < l := by
      apply Nat.lt_of_le_of_ne hil
      rintro rfl
      cases returned.stack.symm.trans back
    have handling' : ∀ k, j < k → k < i → (Frame.dropping p :: base).length
        < (moment watched script k).stack.length := fun k hjk hki => (handling k hjk hki).higher
    obtain ⟨r, answer⟩ := handler h hh i (Nat.lt_of_succ_lt hji)
      (Nat.le_of_lt (Nat.lt_of_lt_of_le sooner hln)) handling' returned.stack
    have drop : Drops watched script c ctx p base j i :=
      .handled hh catches (Nat.lt_of_succ_lt hji) handling' returned.stack answer
    exact drops i (Nat.lt_of_lt_of_le sooner hln) drop l sooner hln
      (fun k hik => running k (by omega)) back

/-! ## What is reported -/

theorem reports_of_does {s s' : Site Value Item WakerId} {here : Site.Point Value Item WakerId}
    {a : Action Value Item (Site.Point Value Item WakerId) (Site.Answer Value)}
    (does : Site.Does s here s' a) (c : CompletionId) :
    (a.events c ++ a.logs c).flatMap Event.reports = [] := by
  have events : (a.events c).flatMap Event.reports = [] := by
    rcases a with _ | (_ | _ | _) | _ | ((_ | _ | _) | _ | _) | _ <;> rfl
  have logs : (a.logs c).flatMap Event.reports = [] := by
    cases does with
    | direct inner | registering inner => cases inner <;> rfl
    | _ => rfl
  rw [List.flatMap_append, events, logs, List.append_nil]

theorem reports_remarks {frame : Frame} (hstack : m.stack = frame :: below) :
    (frame.remarks m.control).flatMap Event.reports = m.reports := by
  unfold reports
  rw [hstack]
  cases frame with
  | guarding c ctx =>
    cases m.control with
    | unwind p =>
      simp only [Frame.remarks]
      cases ctx.policy with
      | propagate => rfl
      | isolate => cases ctx.handler <;> rfl
    | _ => rfl
  | settling c s =>
    cases m.control with
    | answer r =>
      cases r with
      | flag b => cases b <;> rfl
      | _ => rfl
    | _ => rfl
  | _ => cases m.control <;> rfl

theorem reports_step (sound : m.Sound) :
    m.step.world.history.flatMap Event.reports
      = m.world.history.flatMap Event.reports ++ m.reports := by
  have plain : ∀ ev : Event, ev.Plain → ev.reports = [] := by
    intro ev plain
    cases ev with
    | logged | reported => exact plain.elim
    | _ => rfl
  cases hstack : m.stack with
  | nil =>
    rw [step_of_isOver (List.isEmpty_iff.2 hstack)]
    simp [reports, hstack]
  | cons frame below =>
    rw [← reports_remarks hstack]
    obtain moves | ⟨d, here, s, action, hresume, rfl, works⟩ := sound.moves_or_works hstack
    · obtain proceeds | ⟨r, w₁, act, base, births, proceeds, begins, -⟩ := moves.proceeds
      · rw [proceeds.flatMap_history _ plain, history_recordAll, List.flatMap_append]
      · rw [proceeds.flatMap_history _ plain, births.flatMap_history _ plain fun _ => rfl]
        have resumes : m.control = .resume := by
          cases begins with
          | session _ hresume | body _ hresume => exact hresume
        rw [resumes, frame.remarks_resume, List.flatMap_nil, List.append_nil]
    · rw [works.proceeds.flatMap_history _ plain, history_recordAll, List.flatMap_append,
        reports_of_does works.does, hresume]
      rfl

theorem reports_eq (watched : List String) (script : Script) (n : Nat) :
    (moment watched script n).world.history.flatMap Event.reports
      = (List.range n).flatMap fun i => (moment watched script i).reports := by
  induction n with
  | zero => rfl
  | succ n ih =>
    rw [moment_succ, reports_step (moment_sound watched script n), ih, List.range_succ,
      List.flatMap_append, List.flatMap_singleton]

/-! ## Invocations -/

/-- A drain of the deferred calls a callback: the body begins above its guard, and the guard
stands above the drain. -/
structure Invokes (c : CompletionId) (ctx : Context) (k : Kind) (cb : Callback)
    (base : List Frame) (m : Machine) : Prop where
  drain : ∃ here p below, m.stack = .driving c here :: below ∧ base = .driving c p :: below
  called : m.step.world.called c k = m.world.called c k ++ [.callback cb (some ctx)]
  stack : m.step.stack = .body "" cb.body :: .guarding c ctx :: base
  control : m.step.control = .resume

theorem Owned.invokes (owned : m.Owned c ctx) (sound : m.Sound) {k : Kind} {cb : Callback}
    {guard : Option Context}
    (starts : m.step.world.called c k = m.world.called c k ++ [.callback cb guard]) :
    guard = some ctx ∧ ∃ base, Invokes c ctx k cb base m := by
  have some : m.step.world.called c k ≠ m.world.called c k := by simp [starts]
  obtain ⟨here, below, s, x, arg, p, hstack, works⟩ := sound.works_of_called some
  have called := works.called c k
  rw [starts, if_pos rfl, List.append_cancel_left_eq] at called
  obtain rfl : .callback cb guard = x := by simpa [Action.called] using called
  have kin := owned.kin_of_call sound hstack works.does
  obtain ⟨frames, runs, hstack'⟩ := works.runs _ _ _ _ rfl
  generalize hcontrol : m.step.control = control at runs
  cases kin
  cases runs
  exact ⟨rfl, _, ⟨here, p, below, hstack, rfl⟩, starts, hstack', hcontrol⟩

/-- A guard of the deferred that newly stands above some frames has been put there to guard a
callback that is invoked. -/
theorem Owned.invokes_of_guard (owned : m.Owned c ctx) (sound : m.Sound)
    (absent : ¬ Stands (· = .guarding c ctx) base m)
    (stands : Stands (· = .guarding c ctx) base m.step) :
    ∃ k cb, Invokes c ctx k cb base m := by
  cases hstack : m.stack with
  | nil =>
    rw [step_of_isOver (List.isEmpty_iff.2 hstack)] at stands
    exact absurd stands absent
  | cons frame rest =>
    obtain moves | ⟨d, here, s, action, hresume, rfl, works⟩ := sound.moves_or_works hstack
    · obtain ⟨new, hstack', shape⟩ := moves.pushes
      obtain ⟨above, f, lower, rfl, hnew, hbelow⟩ := stands.of_new absent hstack hstack'
      have member : .guarding c ctx ∈ new := by simp [hnew]
      obtain rfl | calm | ⟨d, here, lower', rfl, calm, -⟩ := shape
      · obtain ⟨same, rfl⟩ := @eq_of_last _ _ [] _ _ hnew List.not_mem_nil
        exact absurd ⟨[], _, same.symm, by rw [hstack, hbelow]; rfl⟩ absent
      · exact (calm _ member).elim
      · obtain same | later := List.mem_cons.1 member
        · cases same
        · exact (calm _ later).elim
    · obtain hstack' | ⟨frames, p, hstack', runs⟩ := works.pushes
      · obtain ⟨above, f, lower, -, hnew, -⟩ := stands.of_new absent hstack hstack'
        exact absurd hnew.symm (by simp)
      · obtain ⟨above, f, lower, rfl, hnew, hbelow⟩ := stands.of_new absent hstack hstack'
        by_cases apart : .guarding c ctx ∈ frames
        · obtain rfl | ⟨k, x, arg, rfl, runs⟩ := runs
          · cases apart
          obtain rfl := runs.on apart rfl
          have called : m.step.world.called d k = m.world.called d k ++ [x] := by
            rw [works.called, if_pos rfl]
            exact congrArg _ (if_pos rfl)
          have kin := owned.kin_of_call sound hstack works.does
          generalize hcontrol : m.step.control = control at runs
          cases kin with
          | relay => cases runs <;> simp at apart
          | @callback cb =>
            cases runs
            obtain rfl : lower = [.driving d p] := by
              cases above with
              | nil => cases hnew
              | cons f above =>
                have hnew' := (List.cons.inj hnew).2
                cases above with
                | nil => exact (List.cons.inj hnew').2.symm
                | cons f above =>
                  cases (@eq_of_last _ _ [] _ _ (List.cons.inj hnew').2 List.not_mem_nil).1
            subst hbelow
            exact ⟨k, cb, ⟨here, p, rest, hstack, rfl⟩, called, hstack', hcontrol⟩
        · cases (eq_of_last hnew apart).1

theorem not_stands_of_guard (hstack : m.stack = .guarding c ctx :: base)
    (handed : m.control.Handed) : ¬ Stands (· = .guarding c ctx) base m.step := by
  have leaves : ∃ new, m.step.stack = new ++ base ∧ .guarding c ctx ∉ new := by
    cases told : m.control with
    | answer r =>
      rw [step_of_answer hstack told]
      exact ⟨[], rfl, List.not_mem_nil⟩
    | unwind p =>
      rw [step_of_unwind hstack told]
      simp only [unwind, contain]
      split
      next => exact ⟨[], rfl, List.not_mem_nil⟩
      next =>
        split
        next =>
          obtain ⟨new, hstack', bodies⟩ :=
            dispose_stack (m.world.record (.logged c (.contained ctx.label p))) base p
          refine ⟨new, hstack', fun stands => ?_⟩
          obtain ⟨body, same⟩ := bodies _ stands
          cases same
        next h _ => exact ⟨[.body "" h.body, .dropping p], rfl, by simp⟩
    | resume | faulty _ =>
      rw [told] at handed
      exact handed.elim
  obtain ⟨new, hstack', apart⟩ := leaves
  rintro ⟨above, f, rfl, stands⟩
  rw [hstack', List.append_cons, List.append_cancel_right_eq] at stands
  exact apart (stands ▸ List.mem_append_right _ (List.mem_singleton_self _))

/-- A callback of the deferred is invoked at moment `i`, and its body runs above its guard until
moment `j`. -/
structure RunsUntil (watched : List String) (script : Script) (c : CompletionId) (ctx : Context)
    (base : List Frame) (i j : Nat) : Prop where
  later : i < j
  invokes : ∃ k cb, Invokes c ctx k cb base (moment watched script i)
  running : ∀ k, i < k → k < j → base.length + 1 < (moment watched script k).stack.length

/-- Two bodies do not run above one guard. -/
theorem RunsUntil.not_lt {i' : Nat} (h : RunsUntil watched script c ctx base i j)
    (h' : RunsUntil watched script c ctx base i' j) : ¬ i < i' := by
  intro sooner
  obtain ⟨k, cb, invokes⟩ := h'.invokes
  obtain ⟨here, p, below, hstack, rfl⟩ := invokes.drain
  have high := h.running i' sooner h'.later
  rw [hstack, List.length_cons, List.length_cons] at high
  omega

theorem Catches.runs {b : Nat} (newborn : Newborn c ctx (moment watched script (b + 1)))
    (hbj : b < j) {p : Panic} (catches : Catches c ctx p base (moment watched script j)) :
    ∃ i, RunsUntil watched script c ctx base i j := by
  have absent : ¬ Stands (· = .guarding c ctx) base (moment watched script (b + 1)) := by
    rintro ⟨above, f, rfl, hstack⟩
    have unvisited := newborn.unvisited (.guarding c ctx)
    rw [hstack] at unvisited
    exact unvisited (List.mem_append_right _ (List.mem_cons_self ..)) rfl
  obtain ⟨i, hbi, hij, absent', since⟩ :=
    @exists_onset j (fun k => Stands (· = .guarding c ctx) base (moment watched script k)) (b + 1)
      absent hbj ⟨[], _, rfl, catches.stack⟩
  have now := since (i + 1) (Nat.lt_succ_self i) hij
  rw [moment_succ] at now
  obtain ⟨k, cb, invokes⟩ :=
    (newborn.owned_later hbi).invokes_of_guard (moment_sound watched script i) absent' now
  have starts := invokes.stack
  rw [← moment_succ] at starts
  obtain ⟨i', hi', hj, running, back⟩ := @exists_first_back watched script _ (i + 1) j
    ⟨_, [], starts⟩ hij (Nat.le_of_eq (congrArg List.length catches.stack))
  -- Had the body come back before, its guard would be gone.
  obtain sooner | rfl := Nat.lt_or_eq_of_le hj
  · have still := since (i' + 1) (by omega) sooner
    rw [moment_succ] at still
    exact absurd still (not_stands_of_guard back.stack back.control)
  · exact ⟨i, hij, ⟨k, cb, invokes⟩, fun l hil hlj => (running l hil hlj).higher⟩

/-! ## What happens to a deferred happens after its birth -/

section Birth

variable {b : Nat}

theorem Catches.born {p : Panic} (catches : Catches c ctx p base (moment watched script j))
    (unborn : ∀ i ≤ b, (moment watched script i).world.completions.size ≤ c) : b < j := by
  apply Nat.lt_of_not_le
  intro hjb
  have unvisited := moment_unvisited watched script j (unborn j hjb) (.guarding c ctx)
  rw [catches.stack] at unvisited
  exact unvisited (List.mem_cons_self ..) rfl

theorem Uses.born {act : Act} (uses : Uses (moment watched script i).world c ctx act)
    (unborn : ∀ i ≤ b, (moment watched script i).world.completions.size ≤ c) : b < i := by
  apply Nat.lt_of_not_le
  intro hib
  have rooted := (moment_orderly watched script i).rooted
  have alive : (moment watched script i).world.Alive c := by
    cases uses with
    | deferred refers | promise refers =>
      exact rooted.lookup refers (.completion c) rfl trivial
  exact absurd alive.lt_size (Nat.not_lt_of_le (unborn i hib))

theorem Newborn.born_of_settled (newborn : Newborn c ctx (moment watched script (b + 1)))
    {o : Outcome Value} (settled : (moment watched script i).world.settlement c = some o) :
    b < i := by
  apply Nat.lt_of_not_le
  intro hib
  have settled' := settlement_lasts settled (Nat.le_succ_of_le hib)
  rw [newborn.unsettled] at settled'
  cases settled'

theorem Newborn.born_of_called (newborn : Newborn c ctx (moment watched script (b + 1)))
    (unborn : ∀ i ≤ b, (moment watched script i).world.completions.size ≤ c) {k : Kind} {x : Item}
    (starts : (moment watched script (i + 1)).world.called c k
      = (moment watched script i).world.called c k ++ [x]) : b < i := by
  apply Nat.lt_of_not_le
  intro hib
  have nothing : (moment watched script (i + 1)).world.called c k = [] := by
    obtain sooner | rfl := Nat.lt_or_eq_of_le hib
    · exact ((moment_sound watched script (i + 1)).world.unborn (unborn _ sooner) k).1
    · exact newborn.called k
  rw [nothing] at starts
  exact absurd starts.symm (by simp)

end Birth

/-! ## What a guard leads to -/

/-- A callback that is invoked at moment `i`: its body comes back to the guard at moment `j`, the
guard reports the panic if there was one, and comes back itself, with an answer, at moment `l`. -/
structure Guarded (watched : List String) (script : Script) (c : CompletionId) (ctx : Context)
    (base : List Frame) (i j l : Nat) : Prop where
  runs : RunsUntil watched script c ctx base i j
  later : j < l
  back : (moment watched script j).stack = .guarding c ctx :: base
  outcome : ((∃ r, (moment watched script j).control = .answer r) ∧
      (moment watched script (j + 1)).world = (moment watched script j).world) ∨
    ∃ p, (moment watched script j).control = .unwind p ∧
      Reports c ctx p base (moment watched script j) (moment watched script (j + 1))
  reporting : ∀ k, j < k → k < l → base.length < (moment watched script k).stack.length
  returned : (moment watched script l).stack = base ∧
    ∃ r, (moment watched script l).control = .answer r

theorem Tame.guarded (tame : Tame watched script n c ctx) (isolates : ctx.policy = .isolate)
    {k : Kind} {cb : Callback} (invokes : Invokes c ctx k cb base (moment watched script i))
    {last : Nat} (hil : i < last) (hlast : last ≤ n)
    (low : (moment watched script last).stack.length ≤ base.length) :
    ∃ j l, l ≤ last ∧ Guarded watched script c ctx base i j l := by
  have starts := invokes.stack
  rw [← moment_succ] at starts
  obtain ⟨j, hij, hj, running, back⟩ := @exists_first_back watched script (.guarding c ctx :: base)
    (i + 1) last ⟨_, [], starts⟩ hil (Nat.le_succ_of_le low)
  have runs : RunsUntil watched script c ctx base i j :=
    ⟨Nat.lt_of_succ_lt hij, ⟨k, cb, invokes⟩, fun k hik hkj => (running k hik hkj).higher⟩
  have sooner : j < last := by
    apply Nat.lt_of_le_of_ne hj
    rintro rfl
    rw [back.stack] at low
    exact absurd low (Nat.not_succ_le_self _)
  have handed := back.control
  cases told : (moment watched script j).control with
  | answer r =>
    have next := step_of_answer back.stack told
    rw [← moment_succ] at next
    refine ⟨j, j + 1, sooner, runs, Nat.lt_succ_self j, back.stack,
      .inl ⟨⟨r, told⟩, by rw [next]; rfl⟩, fun k hjk hkj => by omega, by rw [next]; rfl,
      .unit, by rw [next]; rfl⟩
  | unwind p =>
    have catches : Catches c ctx p base (moment watched script j) := ⟨back.stack, told⟩
    have reports := catches.reports isolates
    rw [← moment_succ] at reports
    have returns := tame.handler j (Nat.lt_of_lt_of_le sooner hlast) p base back.stack told
    obtain ⟨l, hjl, hl, handling, returned⟩ :=
      @exists_first_back watched script base j last ⟨_, [], back.stack⟩ hj low
    have reporting : ∀ k, j < k → k < l →
        base.length < (moment watched script k).stack.length :=
      fun k hjk hkl => (handling k (Nat.le_of_lt hjk) hkl).higher
    have answers := returns l hjl (Nat.le_trans hl hlast) reporting returned.stack
    exact ⟨j, l, hl, runs, hjl, back.stack, .inr ⟨p, told, reports⟩, reporting, returned.stack,
      answers⟩
  | resume | faulty _ =>
    rw [told] at handed
    exact handed.elim

/-! ## What waits -/

/-- Whatever waits for a deferred after it has settled is minded by a call that is under way. -/
def Attended (c : CompletionId) (m : Machine) : Prop :=
  ∀ o k, m.world.settlement c = some o → k ≠ .on o.side.other →
    m.world.called c k ≠ m.world.registered c k →
    ∃ p, .driving c p ∈ m.stack ∧ p.Minds o.side k

/-- A completion lives on when a call on it makes a step. -/
theorem Sound.alive_step (sound : m.Sound) {here : Site.Point Value Item WakerId}
    (hstack : m.stack = .driving c here :: below) : m.step.world.Alive c := by
  obtain ⟨new, hstack', -⟩ := sound.keeps_below hstack
  have stands := sound.stack
  rw [hstack] at stands
  obtain ⟨r, hr, hc⟩ : Holds (heldBy below) c := stands.1.1
  apply sound.step.world.held
  refine ⟨r, ?_, hc⟩
  rw [hstack']
  unfold heldBy
  rw [List.filterMap_append]
  exact List.mem_append_right _ hr

theorem Attended.works (h : Attended c m) (owned : m.Owned c ctx) (sound : m.Sound)
    (orderly : m.Orderly) {here : Site.Point Value Item WakerId} {s : Site Value Item WakerId}
    {action : Action Value Item (Site.Point Value Item WakerId) (Site.Answer Value)}
    (hstack : m.stack = .driving c here :: below)
    (works : Works m.world c here below m.step s action) : Attended c m.step := by
  intro o k settled hk waits
  obtain ⟨alive, fits⟩ := sound.of_driving (hstack ▸ List.mem_cons_self ..)
  have exact := sound.world.exact alive.getElem?
  have alive' := sound.alive_step hstack
  have exact' := sound.step.world.exact alive'.getElem?
  have this := works.this
  -- What waits after the step has been appended and not taken.
  have waits' : s.completion.waiting k ≠ [] := by
    intro nothing
    have order := exact'.order k
    rw [this, nothing, List.append_nil] at order
    exact waits order
  have state' : s.completion.cell.state = .settled o.side := by
    have result := (orderly.step sound).result_eq alive'
    rw [this, settled] at result
    exact (this ▸ exact'.cell).of_result result |>.1
  have next : ∀ p, action.next? = some p → .driving c p ∈ m.step.stack := by
    intro p hp
    have leads := works.leads
    generalize m.step.stack = stack' at leads
    generalize m.step.control = control' at leads
    cases leads with
    | goto | notice =>
      cases hp
      exact List.mem_cons_self ..
    | call =>
      cases hp
      exact List.mem_append_right _ (List.mem_cons_self ..)
    | done | refused => cases hp
  have drains : ∀ o d at', here.inner? = some (.commit o d at') → d = true := by
    obtain ⟨call, serves, kin⟩ :=
      owned.frames (.driving c here) (hstack ▸ List.mem_cons_self ..) rfl
    exact fun o d at' commits => kin.drains serves commits
  obtain ⟨p, hp, minds⟩ | ⟨state, waited⟩ := works.does.attends exact.atRest drains state' hk waits'
  · exact ⟨p, next p hp, minds⟩
  · -- It waited before the step as well, and whoever minded it then minds it still.
    have before : m.world.settlement c = some o := by
      obtain ⟨v, stored⟩ := exact.cell _ state
      have result := orderly.result_eq alive
      have state₀ : (m.world.completion c).cell.state = .settled o.side := state
      rw [Cell.result_of_settled state₀, stored] at result
      rw [← result, ← settled, orderly.settlement_step sound result.symm]
    obtain ⟨p, hp, minds⟩ := h o k before hk fun same => waited (by
      have order := exact.order k
      rw [same] at order
      exact List.self_eq_append_right.1 order.symm)
    rw [hstack] at hp
    obtain same | lower := List.mem_cons.1 hp
    · cases same
      obtain ⟨p', hp', minds'⟩ :=
        works.does.minds exact.atRest exact.cell fits state hk waits' minds
      exact ⟨p', next p' hp', minds'⟩
    · obtain ⟨new, hstack', -⟩ := sound.keeps_below hstack
      exact ⟨p, hstack' ▸ List.mem_append_right _ lower, minds⟩

theorem Attended.step (h : Attended c m) (owned : m.Owned c ctx) (sound : m.Sound)
    (orderly : m.Orderly)
    (sober : ∀ here below p, m.stack = .driving c here :: below → m.control ≠ .unwind p) :
    Attended c m.step := by
  cases hstack : m.stack with
  | nil => rwa [step_of_isOver (List.isEmpty_iff.2 hstack)]
  | cons frame below =>
    by_cases on : ∃ here, frame = .driving c here
    · obtain ⟨here, rfl⟩ := on
      have stays : Attended c (goOn m.world (.driving c here :: below)) := by
        rw [← hstack]
        exact h
      cases told : m.control with
      | resume =>
        obtain ⟨s, action, works⟩ := sound.works hstack told
        exact h.works owned sound orderly hstack works
      | answer r =>
        rw [step_of_answer hstack told]
        exact stays
      | faulty f =>
        rw [step_of_faulty hstack told]
        exact stays
      | unwind p => exact absurd told (sober here below p hstack)
    · obtain ⟨settlement, called, registered⟩ :
          m.step.world.settlement c = m.world.settlement c ∧
          (∀ k, m.step.world.called c k = m.world.called c k) ∧
          ∀ k, m.step.world.registered c k = m.world.registered c k := by
        obtain moves | ⟨d, here, s, action, -, rfl, works⟩ := sound.moves_or_works hstack
        · exact ⟨moves.settlement owned.born, moves.called c, moves.registered c⟩
        · have other : d ≠ c := fun same => on ⟨here, by rw [same]⟩
          refine ⟨works.settlement (if_neg other), fun k => ?_, fun k => ?_⟩
          · rw [works.called, if_neg other, List.append_nil]
          · rw [works.registered, if_neg other, List.append_nil]
      intro o k settled hk waits
      rw [settlement] at settled
      rw [called, registered] at waits
      obtain ⟨p, hp, minds⟩ := h o k settled hk waits
      rw [hstack] at hp
      obtain same | lower := List.mem_cons.1 hp
      · exact absurd ⟨p, same.symm⟩ on
      · obtain ⟨new, hstack', -⟩ := sound.keeps_below hstack
        exact ⟨p, hstack' ▸ List.mem_append_right _ lower, minds⟩

theorem Tame.attended (tame : Tame watched script n c ctx) {b : Nat}
    (newborn : Newborn c ctx (moment watched script (b + 1))) (hbi : b < i) (hin : i ≤ n) :
    Attended c (moment watched script i) := by
  induction hbi with
  | refl =>
    intro o k settled
    rw [newborn.unsettled] at settled
    cases settled
  | @step i hbi ih =>
    rw [Nat.succ_eq_add_one, moment_succ]
    refine (ih (Nat.le_of_lt hin)).step (newborn.owned_later hbi) (moment_sound watched script i)
      (moment_orderly watched script i) ?_
    exact fun here below p hstack => tame.not_unwind newborn hbi (Nat.le_of_lt hin) hstack p

/-! ## Which guard catches -/

/-- A frame that a panic passes. -/
def Porous : Frame → Prop
  | .session _ _ | .catching => False
  | .guarding _ ctx => ctx.policy = .propagate
  | .dropping payload => payload.wakes? = none
  | .body _ _ | .repeating _ _ | .holding _ | .driving _ _ | .settling _ _ | .ending _
  | .probing _ _ _ _ | .chaining _ _ _ => True

/-- A panic passes all frames that do not stop it. -/
theorem unwinds_through {frames : List Frame} {p : Panic} (porous : ∀ f ∈ frames, Porous f)
    (hstack : (moment watched script j).stack = frames ++ base)
    (unwound : (moment watched script j).control = .unwind p) :
    (moment watched script (j + frames.length)).stack = base ∧
      (moment watched script (j + frames.length)).control = .unwind p := by
  induction frames generalizing j with
  | nil => exact ⟨hstack, unwound⟩
  | cons f frames ih =>
    obtain ⟨first, rest⟩ := List.forall_mem_cons.1 porous
    have next := step_of_unwind hstack unwound
    rw [← moment_succ] at next
    obtain ⟨w, raised⟩ : ∃ w, unwind (moment watched script j).world (frames ++ base) p f
        = raise w (frames ++ base) p := by
      cases f with
      | session | catching => exact first.elim
      | guarding c ctx =>
        refine ⟨(moment watched script j).world, ?_⟩
        simp only [unwind, show ctx.policy = .propagate from first]
      | dropping payload =>
        refine ⟨(moment watched script j).world, ?_⟩
        simp only [unwind, show payload.wakes? = none from first]
      | _ => exact ⟨_, rfl⟩
    replace next := next.trans raised
    have later := @ih (j + 1) rest (by rw [next]; rfl) (by rw [next]; rfl)
    rwa [List.length_cons, Nat.add_comm frames.length 1, ← Nat.add_assoc]

/-! ## Containment -/

/-- What becomes of the panics that the guards of an isolated deferred catch. Each is reported, and
comes out of one callback that was invoked under this guard; a panic is caught by the nearest guard
that isolates; and nothing else in a run is ever logged or reported as a caught panic. -/
structure Reporting (watched : List String) (script : Script) (c : CompletionId) (ctx : Context) :
    Prop where
  caught : ∀ j p base, Catches c ctx p base (moment watched script j) →
    Reports c ctx p base (moment watched script j) (moment watched script (j + 1)) ∧
    ∃ i, RunsUntil watched script c ctx base i j ∧
      ∀ i', RunsUntil watched script c ctx base i' j → i' = i
  nearest : ∀ j frames p base, (moment watched script j).stack = frames ++ .guarding c ctx :: base →
    (moment watched script j).control = .unwind p → (∀ f ∈ frames, Porous f) →
    Catches c ctx p base (moment watched script (j + frames.length))
  recorded : ∀ i, (moment watched script i).world.history.flatMap Event.reports
    = (List.range i).flatMap fun j => (moment watched script j).reports
  worded : ∀ p, (Event.logged c (.contained ctx.label p)).lines (some .error)
        = [.logged "ERROR" ("[" ++ ctx.name.getD "promise" ++ "] "
            ++ ("callback panicked: " ++ p.text?.getD "non-string panic payload"))] ∧
      p.error = .panicked (p.text?.getD "non-string panic payload")

/-- Up to moment `n`, nothing that is asked of the deferred, through itself, its clones or its
promises, unwinds. Whenever it has settled, and no call on it is under way, whatever was registered
for the side on which it settled, or for either, has been called, each item once and in order.
Every callback that is called runs under a guard; the body comes back to the guard, and if it comes
back with a panic the guard logs the panic, calls the handler and returns. -/
structure Contained (watched : List String) (script : Script) (n : Nat) (c : CompletionId)
    (ctx : Context) : Prop where
  returns : ∀ i last act base, Begins act (moment watched script i) base →
    Uses (moment watched script i).world c ctx act → i < last → last ≤ n →
    (moment watched script last).stack.length ≤ base.length →
    ∃ j, i < j ∧ j ≤ last ∧
      (∀ k, i < k → k < j → base.length < (moment watched script k).stack.length) ∧
      (moment watched script j).stack = base ∧
      ∀ p, (moment watched script j).control ≠ .unwind p
  called : ∀ i ≤ n, ∀ o k, (moment watched script i).world.settlement c = some o →
    (∀ here, .driving c here ∉ (moment watched script i).stack) → k ≠ .on o.side.other →
    (moment watched script i).world.called c k = (moment watched script i).world.registered c k
  guarded : ∀ i < n, ∀ k cb guard, (moment watched script (i + 1)).world.called c k
      = (moment watched script i).world.called c k ++ [.callback cb guard] →
    ∃ base, Invokes c ctx k cb base (moment watched script i) ∧
      ∀ last, i < last → last ≤ n → (moment watched script last).stack.length ≤ base.length →
        ∃ j l, l ≤ last ∧ Guarded watched script c ctx base i j l

/-- What becomes of the drain that had called a callback when what its panic carries is dropped at
moment `i`. A text, a number or a refused demand is dropped without a panic. A panic of the drop of
an object comes out into the drain, and passes it and whatever below it does not stop panics. -/
structure Disposal (watched : List String) (script : Script) (n : Nat) (c : CompletionId)
    (p : Panic) (base : List Frame) (i : Nat) : Prop where
  drain : ∃ here below, base = .driving c here :: below
  inert : p.wakes? = none → Returns watched script n i base
  escapes : ∀ l q frames lower, (moment watched script l).stack = base →
    (moment watched script l).control = .unwind q → base = frames ++ lower →
    (∀ f ∈ frames, Porous f) →
    (moment watched script (l + frames.length)).stack = lower ∧
      (moment watched script (l + frames.length)).control = .unwind q

theorem reporting_of_newborn (isolates : ctx.policy = .isolate) {b : Nat}
    (unborn : ∀ i ≤ b, (moment watched script i).world.completions.size ≤ c)
    (newborn : Newborn c ctx (moment watched script (b + 1))) :
    Reporting watched script c ctx := by
  refine ⟨fun j p base catches => ?_, fun j frames p base hstack unwound porous => ?_,
    reports_eq watched script, fun p => ⟨rfl, rfl⟩⟩
  · have reports := catches.reports isolates
    rw [← moment_succ] at reports
    obtain ⟨i, runs⟩ := catches.runs newborn (catches.born unborn)
    refine ⟨reports, i, runs, fun i' runs' => ?_⟩
    exact Nat.le_antisymm (Nat.le_of_not_lt (runs.not_lt runs'))
      (Nat.le_of_not_lt (runs'.not_lt runs))
  · obtain ⟨hstack', unwound'⟩ := unwinds_through porous hstack unwound
    exact ⟨hstack', unwound'⟩

theorem Tame.contained (tame : Tame watched script n c ctx) (isolates : ctx.policy = .isolate)
    {b : Nat} (unborn : ∀ i ≤ b, (moment watched script i).world.completions.size ≤ c)
    (newborn : Newborn c ctx (moment watched script (b + 1))) :
    Contained watched script n c ctx := by
  refine ⟨?_, ?_, ?_⟩
  · intro i last act base begins uses hil hlast low
    have hbi := uses.born unborn
    exact tame.returns_of_uses (fun k hik => newborn.owned_later (Nat.lt_of_lt_of_le hbi hik))
      begins uses hil hlast low
  · intro i hin o k settled idle hk
    apply Classical.byContradiction
    intro waits
    obtain ⟨p, hp, -⟩ :=
      tame.attended newborn (newborn.born_of_settled settled) hin o k settled hk waits
    exact idle p hp
  · intro i hin k cb guard starts
    have owned := newborn.owned_later (newborn.born_of_called unborn starts)
    rw [moment_succ] at starts
    obtain ⟨rfl, base, invokes⟩ := owned.invokes (moment_sound watched script i) starts
    exact ⟨base, invokes, fun last hil hlast low => tame.guarded isolates invokes hil hlast low⟩

/-- Where panics are contained, what is dropped comes back. -/
theorem Contained.returns_of_drop (contained : Contained watched script n c ctx) {b : Nat}
    (newborn : Newborn c ctx (moment watched script (b + 1))) (hbj : b < j) {p : Panic}
    (drops : Drops watched script c ctx p base j i) : Returns watched script n i base := by
  intro l hil hln running back
  obtain ⟨hji, high⟩ := drops.later
  have catches := drops.catches
  obtain ⟨i₀, runs⟩ := catches.runs newborn hbj
  obtain ⟨k, cb, invokes⟩ := runs.invokes
  have called := invokes.called
  have starts := invokes.stack
  rw [← moment_succ] at called starts
  obtain ⟨base', invokes', ends⟩ :=
    contained.guarded i₀ (by have := runs.later; omega) k cb _ called
  obtain rfl : base' = base := by
    have starts' := invokes'.stack
    rw [← moment_succ, starts] at starts'
    exact (List.cons.inj (List.cons.inj starts').2).2.symm
  obtain ⟨j', l', hl', guarded⟩ :=
    ends l (by have := runs.later; omega) hln (Nat.le_of_eq (congrArg List.length back))
  -- The body comes back to its guard once, and the guard once to its drain.
  obtain rfl : j' = j := by
    have low := congrArg List.length catches.stack
    have low' := congrArg List.length guarded.back
    obtain sooner | same | later := Nat.lt_trichotomy j' j
    · exact absurd (runs.running j' guarded.runs.later sooner) (by rw [low']; exact Nat.lt_irrefl _)
    · exact same
    · exact absurd (guarded.runs.running j runs.later later) (by rw [low]; exact Nat.lt_irrefl _)
  obtain ⟨hstack, answer⟩ := guarded.returned
  obtain sooner | rfl := Nat.lt_or_eq_of_le hl'
  · have higher : base'.length < (moment watched script l').stack.length := by
      obtain within | beyond := Nat.lt_or_ge i l'
      · exact running l' within sooner
      · exact high l' guarded.later beyond
    rw [hstack] at higher
    exact absurd higher (Nat.lt_irrefl _)
  · exact answer

theorem Drops.disposal {b : Nat} (newborn : Newborn c ctx (moment watched script (b + 1)))
    (hbj : b < j) (isolates : ctx.policy = .isolate) {p : Panic}
    (drops : Drops watched script c ctx p base j i) :
    Disposal watched script n c p base i where
  drain := by
    obtain ⟨i₀, runs⟩ := drops.catches.runs newborn hbj
    obtain ⟨k, cb, invokes⟩ := runs.invokes
    obtain ⟨here, at', below, -, rfl⟩ := invokes.drain
    exact ⟨at', below, rfl⟩
  inert := drops.returns_of_inert isolates
  escapes l q frames lower hstack unwound passed porous :=
    unwinds_through porous (hstack.trans passed) unwound

/-- For a deferred that was built with a context that isolates, up to a moment by which its wakers
and its panic handler, when they were called, returned normally: whatever a guard catches is
reported, and it is contained as long as what the panics carry is dropped without a panic, and only
then. -/
theorem isolation_contains_panics (watched : List String) (script : Script) (n seen : Nat)
    (handle : String) (c : CompletionId) (ctx : Context)
    (refers : (moment watched script seen).world.lookup handle = some (.deferred c ctx))
    (isolates : ctx.policy = .isolate)
    (wakers : ∀ i < n, ∀ here below k watch p,
      (moment watched script i).stack = .driving c here :: below →
      (moment watched script (i + 1)).world.called c k
        = (moment watched script i).world.called c k ++ [.relay watch] →
      Returns watched script n i (.driving c p :: below))
    (handler : ∀ h, ctx.handler = some h → ∀ i < n, ∀ p base,
      Catches c ctx p base (moment watched script i) →
      Returns watched script n i (.dropping p :: base)) :
    Reporting watched script c ctx ∧
    ((∀ j p base, ∀ i < n, Drops watched script c ctx p base j i →
        Returns watched script n i base) ↔ Contained watched script n c ctx) ∧
    ∀ j i p base, Drops watched script c ctx p base j i →
      Disposal watched script n c p base i := by
  obtain ⟨b, -, unborn, newborn⟩ := exists_birth refers
  refine ⟨reporting_of_newborn isolates unborn newborn, ⟨fun drops => ?_, fun contained => ?_⟩, ?_⟩
  · have tame : Tame watched script n c ctx := by
      refine ⟨wakers, fun j hjn p base hstack unwound => ?_⟩
      have catches : Catches c ctx p base (moment watched script j) := ⟨hstack, unwound⟩
      exact catches.returns isolates (fun h hh => handler h hh j hjn p base catches)
        fun i hin drop => drops j p base i hin drop
    exact tame.contained isolates unborn newborn
  · intro j p base i hin drops
    exact contained.returns_of_drop newborn (drops.catches.born unborn) drops
  · exact fun j i p base drops => drops.disposal newborn (drops.catches.born unborn) isolates

def isolatingContext : Context where
  name := some "job"
  policy := .isolate
  handler := some { name := "handler", body := [.mk "" (.onPromise "p" .flags)] }

/-- A callback registers another one while the drain is under way that has called it; both
panic, with a text and with an object that wakes a waker when it is dropped. A poll has left
another waker. -/
def isolatedScript : Script :=
  [.mk "" (.create "x" (.context [.name "job", .policy .isolate,
      .handler "handler" [.mk "" (.onPromise "p" .flags)]])),
    .mk "" (.create "d" (.deferred (some "x"))),
    .mk "" (.onDeferred "d" (.promise "p")),
    .mk "" (.create "w" (.waker [])),
    .mk "" (.create "v" (.waker [.mk "" (.onPromise "p" .flags)])),
    .mk "" (.onPromise "p" (.register (.on .success) (.mk "outer"
      [.mk "" (.onPromise "p" (.register (.on .success) (.mk "inner"
          [.mk "" (.raise (.text "inner panic"))]))),
        .mk "" (.raise (.object "v"))]))),
    .mk "" (.onPromise "p" (.poll "w")),
    .mk "" (.onDeferred "d" (.settle ⟨.success, { data := .int 1 }⟩))]

/-- One relay is called, at moment 32, and has come back at moment 34. -/
theorem isolated_waker_returns : ∀ i < 77, ∀ here below k watch p,
    (moment [] isolatedScript i).stack = .driving 0 here :: below →
    (moment [] isolatedScript (i + 1)).world.called 0 k
      = (moment [] isolatedScript i).world.called 0 k ++ [.relay watch] →
    Returns [] isolatedScript 77 i (.driving 0 p :: below) := by
  have relays : ∀ i, i < 77 → ∀ k ∈ [Kind.on .success, .on .failure, .always, .waker],
      ((moment [] isolatedScript (i + 1)).world.called 0 k).length
        ≠ ((moment [] isolatedScript i).world.called 0 k).length → i = 32 ∨
      ((moment [] isolatedScript (i + 1)).world.called 0 k).getLast?.any (fun
        | .relay _ => false
        | _ => true) = true := by decide +kernel
  have running : ∀ k, k < 34 → 32 < k → 4 < (moment [] isolatedScript k).stack.length := by
    decide +kernel
  intro i hi here below k watch p hstack starts
  have all : k ∈ [Kind.on .success, .on .failure, .always, .waker] := by
    rcases k with (_ | _) | _ | _ <;> simp
  obtain rfl | other := relays i hi k all (by simp [starts])
  · have high := (congrArg List.length hstack).symm
    exact .of_length running high (by decide) (by decide +kernel) ⟨.unit, rfl⟩
  · simp [starts] at other

/-- The handler is called at moments 46 and 60, and has come back at moments 50 and 64. -/
theorem isolated_handler_returns : ∀ h, isolatingContext.handler = some h → ∀ i < 77, ∀ p base,
    Catches 0 isolatingContext p base (moment [] isolatedScript i) →
    Returns [] isolatedScript 77 i (.dropping p :: base) := by
  have reporting : ∀ i, i < 77 → (moment [] isolatedScript i).reports.isEmpty = false →
      i = 46 ∨ i = 60 := by decide +kernel
  have first : ∀ k, k < 50 → 46 < k → 9 < (moment [] isolatedScript k).stack.length := by
    decide +kernel
  have second : ∀ k, k < 64 → 60 < k → 5 < (moment [] isolatedScript k).stack.length := by
    decide +kernel
  intro h _ i hi p base catches
  have some : (moment [] isolatedScript i).reports.isEmpty = false := by
    unfold reports
    rw [catches.stack, catches.control]
    rfl
  have high := (congrArg List.length catches.stack).symm
  obtain rfl | rfl := reporting i hi some
  · exact .of_length first high (by decide) (by decide +kernel) ⟨.unit, rfl⟩
  · exact .of_length second high (by decide) (by decide +kernel) ⟨.unit, rfl⟩

/-- The object is dropped at moment 64, and the body of its waker has come back at moment 68. -/
theorem isolated_drop_returns : ∀ j p base, ∀ i < 77,
    Drops [] isolatedScript 0 isolatingContext p base j i →
    Returns [] isolatedScript 77 i base := by
  have objects : ∀ i, i < 77 → (moment [] isolatedScript i).stack.head?.any (fun
      | .dropping p => p.wakes?.isSome
      | _ => false) = true → i = 64 := by decide +kernel
  have running : ∀ k, k < 68 → 64 < k → 4 < (moment [] isolatedScript k).stack.length := by
    decide +kernel
  intro j p base i hi drop
  cases inert : p.wakes? with
  | none => exact drop.returns_of_inert rfl inert
  | some waker =>
    cases drop with
    | atOnce silent => cases silent
    | handled _ _ _ _ hstack =>
      obtain rfl := objects i hi (by simp [hstack, inert])
      have high : base.length = 4 := Nat.succ.inj (congrArg List.length hstack).symm
      exact .of_length running high (by decide) (by decide +kernel) ⟨.unit, rfl⟩

/-- The settlement begins at moment 24; the inner callback panics at moment 45 and the outer one at
moment 59. The run is over at moment 77. -/
theorem isolation_contains_panics_nested :
    (∃ j ≤ 77, (moment [] isolatedScript j).stack = (moment [] isolatedScript 76).stack ∧
      ∀ p, (moment [] isolatedScript j).control ≠ .unwind p) ∧
    (moment [] isolatedScript 77).world.called 0 (.on .success)
      = (moment [] isolatedScript 77).world.registered 0 (.on .success) ∧
    ((moment [] isolatedScript 77).world.called 0 (.on .success)).length = 2 ∧
    (∃ base i, RunsUntil [] isolatedScript 0 isolatingContext base i 46 ∧
      Reports 0 isolatingContext (.text "inner panic") base (moment [] isolatedScript 46)
        (moment [] isolatedScript 47)) ∧
    (∃ base, Catches 0 isolatingContext (.object "v") base (moment [] isolatedScript 60)) ∧
    (∃ here below, Drops [] isolatedScript 0 isolatingContext (.object "v")
      (.driving 0 here :: below) 60 64) ∧
    (moment [] isolatedScript 77).world.history.flatMap Event.reports
      = [.logged 0 (.contained "job" (.text "inner panic")),
        .reported "handler" (.text "inner panic"),
        .logged 0 (.contained "job" (.object "v")), .reported "handler" (.object "v")] := by
  have refers : (moment [] isolatedScript 4).world.lookup "d"
      = some (.deferred 0 isolatingContext) := rfl
  obtain ⟨reporting, contains, disposes⟩ := isolation_contains_panics [] isolatedScript 77 4 "d" 0
    isolatingContext refers rfl isolated_waker_returns isolated_handler_returns
  have contained := contains.1 isolated_drop_returns
  refine ⟨?_, ?_, by decide +kernel, ?_, ?_, ?_, ?_⟩
  · obtain ⟨j, -, hj, -, back, sober⟩ := contained.returns 24 77 _ _ (.session rfl rfl)
      (@Uses.deferred _ _ _ "d" _ rfl) (by decide) (Nat.le_refl _) (by decide +kernel)
    exact ⟨j, hj, back, sober⟩
  · have settled : (moment [] isolatedScript 77).world.settlement 0
        = some ⟨.success, { data := .int 1 }⟩ := by decide +kernel
    have halted : (moment [] isolatedScript 77).isOver = true := by decide +kernel
    refine contained.called 77 (Nat.le_refl _) _ _ settled (fun here => ?_) nofun
    rw [List.isEmpty_iff.1 halted]
    exact List.not_mem_nil
  · obtain ⟨reports, i, runs, -⟩ := reporting.caught 46 (.text "inner panic") _ ⟨rfl, rfl⟩
    exact ⟨_, i, runs, reports⟩
  · exact ⟨_, reporting.nearest 59 [.body "" []] (.object "v") _ rfl rfl
      (List.forall_mem_singleton.2 trivial)⟩
  · have running : ∀ k, k < 64 → 60 < k → 5 < (moment [] isolatedScript k).stack.length := by
      decide +kernel
    have drops : Drops [] isolatedScript 0 isolatingContext (.object "v") _ 60 64 :=
      .handled rfl ⟨rfl, rfl⟩ (by decide) (fun k hk hk' => running k hk' hk) rfl rfl
    obtain ⟨here, below, drain⟩ := (disposes 60 64 _ _ drops).drain
    exact ⟨here, below, drain ▸ drops⟩
  · rw [reporting.recorded]
    rfl

/-- The first of two callbacks panics with an object whose drop panics. -/
def droppedScript : Script :=
  [.mk "" (.create "x" (.context [.policy .isolate])),
    .mk "" (.create "d" (.deferred (some "x"))),
    .mk "" (.onDeferred "d" (.promise "p")),
    .mk "" (.create "w" (.waker [.mk "" (.raise (.text "dropped"))])),
    .mk "" (.onPromise "p" (.register (.on .success) (.mk "first"
      [.mk "" (.raise (.object "w"))]))),
    .mk "" (.onPromise "p" (.register (.on .success) (.mk "second" []))),
    .mk "" (.onDeferred "d" (.settle ⟨.success, { data := .int 1 }⟩))]

/-- No panic handler is there, and no waker waits for the deferred. The guard catches and logs the
panic of the first callback at moment 30, and drops the object; the settlement, which began at
moment 18, unwinds with the panic of the drop, and when the run is over the second callback has not
been called. -/
theorem drop_escapes_isolation :
    (moment [] droppedScript 18).world.lookup "d" = some (.deferred 0 { policy := .isolate }) ∧
    (∃ base, Begins (.onDeferred "d" (.settle ⟨.success, { data := .int 1 }⟩))
        (moment [] droppedScript 18) base ∧
      (moment [] droppedScript 36).stack = base ∧
      (moment [] droppedScript 36).control = .unwind (.text "dropped")) ∧
    (∃ base, Drops [] droppedScript 0 { policy := .isolate } (.object "w") base 30 30) ∧
    (moment [] droppedScript 38).isOver = true ∧
    (moment [] droppedScript 38).world.settlement 0 = some ⟨.success, { data := .int 1 }⟩ ∧
    (moment [] droppedScript 38).world.registered 0 .waker = [] ∧
    ((moment [] droppedScript 38).world.called 0 (.on .success)).length = 1 ∧
    ((moment [] droppedScript 38).world.registered 0 (.on .success)).length = 2 := by
  refine ⟨rfl, ⟨_, .session rfl rfl, rfl, rfl⟩, ⟨_, .atOnce rfl ⟨rfl, rfl⟩⟩, ?_⟩
  exact ⟨rfl, rfl, rfl, rfl, rfl⟩

end Machine

end Eventual
