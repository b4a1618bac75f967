import Eventual.Machine.Run
import Eventual.Proofs.Machine.Begin

/-!
# Every item is called at most once, in order, and not before its time

A run may be cut off anywhere: in the middle of a commit, of a drain that was started
by an item of another drain, or while a panic is on its way up. At each such point the
accounts of every living completion are exact. What was called of a kind, in the order
in which the calls began, followed by what still waits, is what was registered of that
kind, in the order of the appends; and nothing was called unless the completion is
settled, nor anything that waits for the other side.

The proof follows the machine. `drive_sound` is the step of the routine that all calls
on a completion share; the other frames change no completion. So `step_sound` holds for
every frame and every control, and with it every run is sound.
-/

namespace Eventual

open World

/-! ## A step of a call on a completion -/

section Drive

variable {w w' : World} {held : List Ref} {c : CompletionId}
  {here : Site.Point Value Item WakerId} {s : Site Value Item WakerId}
  {action : Action Value Item (Site.Point Value Item WakerId) (Site.Answer Value)}

theorem exact_of_does (exact : w.Exact c (w.completion c))
    (does : Site.Does (w.site c) here s action) (fits : here.Fits (w.completion c).cell)
    (called : ∀ k, w'.called c k = w.called c k ++ action.called k)
    (registered : ∀ k, w'.registered c k = w.registered c k ++ action.registered k) :
    w'.Exact c s.completion := by
  refine ⟨does.atRest exact.atRest, does.sound fits exact.cell, ?_, ?_⟩
  · intro k
    calc w'.called c k ++ s.completion.waiting k
        = w.called c k ++ (action.called k ++ s.completion.waiting k) := by
          rw [called, List.append_assoc]
      _ = w.called c k ++ ((w.completion c).waiting k ++ action.registered k) := by
          rw [does.waiting_eq exact.atRest]
          rfl
      _ = w'.registered c k := by
          rw [← List.append_assoc, exact.order, registered]
  · intro k hk
    have settled : ∃ side, (w.completion c).cell.state = .settled side ∧ k ≠ .on side.other := by
      by_cases hold : w.called c k = []
      · -- Nothing of the kind was called before, so this step calls it.
        rw [called, hold, List.nil_append] at hk
        obtain ⟨x, arg, p, rfl⟩ := Action.of_called_ne_nil hk
        obtain ⟨side, hs, hside, -⟩ := does.of_call fits
        exact ⟨side, hs, hside⟩
      · exact exact.settled k hold
    obtain ⟨side, hs, hside⟩ := settled
    have same : s.completion.cell = (w.completion c).cell := does.cell_eq fits hs
    exact ⟨side, by rw [same, hs], hside⟩

/-- A step of a call on a completion, with the event by which it goes on record. -/
theorem evolves_drive (sound : w.Sound held) (alive : w.Alive c)
    (does : Site.Does (w.site c) here s action) (fits : here.Fits (w.completion c).cell)
    (completions : w'.completions = w.completions.setIfInBounds c (some s.completion))
    (handles : w'.handles = w.handles)
    (called : ∀ c' k, w'.called c' k = w.called c' k ++ if c = c' then action.called k else [])
    (registered : ∀ c' k,
      w'.registered c' k = w.registered c' k ++ if c = c' then action.registered k else []) :
    Evolves held w w' := by
  apply Evolves.update sound alive completions handles
  · intro c' hc' k
    rw [called, if_neg fun e => hc' e.symm, List.append_nil]
  · intro c' hc' k
    rw [registered, if_neg fun e => hc' e.symm, List.append_nil]
  · apply exact_of_does (sound.exact alive.getElem?) does fits
    · intro k
      rw [called, if_pos rfl]
    · intro k
      rw [registered, if_pos rfl]
  · intro p fits' claims
    exact fits'.spared does fits fun both => claims both.2

/-- A step that calls and registers nothing. -/
theorem evolves_setSite (sound : w.Sound held) (alive : w.Alive c)
    (does : Site.Does (w.site c) here s action) (fits : here.Fits (w.completion c).cell)
    (silent : ∀ k, action.called k = [] ∧ action.registered k = []) :
    Evolves held w (w.setSite c s) := by
  refine evolves_drive sound alive does fits rfl rfl ?_ ?_
  · intro c' k
    rw [(silent k).1, ite_self, List.append_nil]
    rfl
  · intro c' k
    rw [(silent k).2, ite_self, List.append_nil]
    rfl

/-- A step that goes on record as a notice: only a registration counts. -/
theorem evolves_notice (sound : w.Sound held) (alive : w.Alive c) {n : Notice Value Item}
    {p : Site.Point Value Item WakerId} (does : Site.Does (w.site c) here s (.notice n p))
    (fits : here.Fits (w.completion c).cell) :
    Evolves held w (Machine.notice (w.setSite c s) c n) := by
  cases n with
  | registered k x =>
    refine evolves_drive sound alive does fits rfl rfl ?_ ?_
    · intro c' k'
      rw [Machine.notice, called_record, Action.called, ite_self]
      rfl
    · intro c' k'
      rw [Machine.notice, registered_record]
      rfl
  | settled o =>
    exact (evolves_setSite sound alive does fits fun k => ⟨rfl, rfl⟩).trans
      (Quiet.record (fun _ _ => ⟨rfl, rfl⟩) _).evolves
  | logged r =>
    exact (evolves_setSite sound alive does fits fun k => ⟨rfl, rfl⟩).trans
      (Quiet.record (fun _ _ => ⟨rfl, rfl⟩) _).evolves

/-- A step that calls an item, with the start of the call on record. -/
theorem evolves_call (sound : w.Sound held) (alive : w.Alive c) {k : Kind} {x : Item}
    {arg : Option Value} {p : Site.Point Value Item WakerId}
    (does : Site.Does (w.site c) here s (.call k x arg p))
    (fits : here.Fits (w.completion c).cell) :
    Evolves held w ((w.setSite c s).record (.started c k x arg)) := by
  refine evolves_drive sound alive does fits rfl rfl ?_ ?_
  · intro c' k'
    rw [called_record]
    rfl
  · intro c' k'
    rw [registered_record, Action.registered, ite_self]
    rfl

end Drive

/-! ## The frames -/

section Frames

variable {w : World} {below : List Frame} {c : CompletionId}

theorem quiet_wake (w : World) (i : WakerId) : Quiet w (w.wake i).1 := by
  unfold World.wake
  split
  next => exact .refl w
  next x _ =>
    have spent : Quiet w { w with wakers := w.wakers.setIfInBounds i { x with spent := true } } :=
      .of_eq rfl rfl rfl
    exact spent.trans (.record (fun _ _ => ⟨rfl, rfl⟩) _)

theorem wake_sound (sound : w.Sound (heldBy below)) (waiting : Waiting w below) (i : WakerId) :
    (Machine.wake w below i).Sound :=
  .push waiting ((quiet_wake w i).evolves sound) trivial

theorem dispose_sound (sound : w.Sound (heldBy below)) (waiting : Waiting w below) (p : Panic) :
    (Machine.dispose w below p).Sound := by
  unfold Machine.dispose
  split
  next i _ => exact wake_sound sound waiting i
  next => exact .below waiting (.refl sound)

/-- Replacing a living completion by itself changes nothing but the watches. -/
theorem quiet_setSite (alive : w.Alive c) (watches : Array (Watch WakerId)) :
    Quiet w (w.setSite c { completion := w.completion c, watches }) := by
  refine .of_eq ?_ rfl rfl
  apply Array.ext_getElem?
  intro j
  simp only [World.setSite, World.setCompletion, Array.getElem?_setIfInBounds]
  split
  next h =>
    subst h
    rw [if_pos alive.lt_size, alive.getElem?]
  next => rfl

/-- Calling an item leaves the completion that called it alone until the code of the
item goes on. -/
theorem call_sound (sound : w.Sound (heldBy below)) (waiting : Waiting w below)
    (holds : Holds (heldBy below) c) (x : Item) : (Machine.call w below c x).Sound := by
  have same : Evolves (heldBy below) w w := .refl sound
  cases x with
  | callback cb guard =>
    cases guard with
    | none => exact .push waiting same trivial
    | some ctx =>
      exact .push (waiting.cons (.guarding c ctx) trivial) same trivial
  | countdown k name n =>
    cases n with
    | zero => exact .push waiting same trivial
    | succ n =>
      exact .of_acts (waiting.cons (.ending _) trivial) same rfl
        ⟨holds, Site.Call.start_fits _ _⟩
  | waker i => exact wake_sound sound waiting i
  | relay watch =>
    have quiet : Quiet w (w.setSite c ((w.site c).takeWaker watch).1) :=
      quiet_setSite (sound.held holds) _
    unfold Machine.call
    dsimp only
    split
    next s h =>
      rw [h] at quiet
      exact .below waiting (quiet.evolves sound)
    next s i h =>
      rw [h] at quiet
      exact wake_sound (quiet.sound sound) (waiting.evolve (quiet.evolves sound)) i

theorem deliver_sound (sound : w.Sound (heldBy below)) (waiting : Waiting w below)
    (a : Site.Answer Value) : (Machine.deliver w below c a).Sound := by
  cases a with
  | direct a =>
    cases a with
    | lost o => exact .below waiting ((Quiet.record (fun _ _ => ⟨rfl, rfl⟩) w).evolves sound)
    | unit | won => exact .below waiting (.refl sound)
  | ready o => exact .below waiting ((Quiet.record (fun _ _ => ⟨rfl, rfl⟩) w).evolves sound)
  | pending => exact .below waiting (.refl sound)

/-- A step of the routine on a completion keeps the accounts right. -/
theorem drive_sound (sound : w.Sound (heldBy below)) (waiting : Waiting w below)
    (holds : Holds (heldBy below) c) {here : Site.Point Value Item WakerId}
    (fits : here.Fits (w.completion c).cell) : (Machine.drive w below c here).Sound := by
  have alive := sound.held holds
  have does := Site.step_does (w.site c) here
  have cellSound := (sound.exact alive.getElem?).cell
  rcases h : (w.site c).step here with ⟨s, action⟩
  rw [h] at does
  have cell_eq : ∀ {w' : World},
      w'.completions = w.completions.setIfInBounds c (some s.completion) →
      w'.completion c = s.completion := fun hw =>
    completion_eq (by rw [hw, Array.getElem?_setIfInBounds_self_of_lt alive.lt_size])
  unfold Machine.drive
  simp only [h]
  cases action with
  | goto p =>
    have evolves := evolves_setSite sound alive does fits fun k => ⟨rfl, rfl⟩
    refine .of_acts waiting evolves rfl ⟨holds, ?_⟩
    rw [cell_eq rfl]
    exact does.fits fits cellSound rfl
  | notice n p =>
    have evolves := evolves_notice sound alive does fits
    refine .of_acts waiting evolves rfl ⟨holds, ?_⟩
    rw [cell_eq (by cases n <;> rfl)]
    exact does.fits fits cellSound rfl
  | call k x arg p =>
    have evolves := evolves_call sound alive does fits
    -- The drain waits for the item: it has seen the cell settle and claims nothing.
    have waits : Waiting ((w.setSite c s).record (.started c k x arg)) (.driving c p :: below) := by
      refine ⟨⟨holds, ?_, ?_⟩, waiting.evolve evolves⟩
      · rw [cell_eq rfl]
        exact does.fits fits cellSound rfl
      · obtain ⟨_, _, _, sweeps⟩ := does.of_call fits
        exact sweeps.not_claims
    have sound' : World.Sound _ (heldBy (.driving c p :: below)) := evolves.sound
    exact call_sound sound' waits holds x
  | done a =>
    have evolves := evolves_setSite sound alive does fits fun k => ⟨rfl, rfl⟩
    exact deliver_sound evolves.sound (waiting.evolve evolves) a
  | refused side st =>
    exact .below waiting (evolves_setSite sound alive does fits fun k => ⟨rfl, rfl⟩)

theorem probe_sound (sound : w.Sound (heldBy below)) (waiting : Waiting w below) (q : Nat)
    (t : Test) (n : Nat) (v : Value) : (Machine.probe w below q t n v).Sound := by
  unfold Machine.probe
  split
  next => exact .below waiting ((Quiet.record (fun _ _ => ⟨rfl, rfl⟩) w).evolves sound)
  next =>
    have tested : Quiet w (w.record (.tested v true)) := .record (fun _ _ => ⟨rfl, rfl⟩) w
    exact .below waiting
      ((tested.trans (.record (fun _ _ => ⟨rfl, rfl⟩) _)).evolves sound)
  next =>
    have tested : Quiet w (w.record (.tested v false)) := .record (fun _ _ => ⟨rfl, rfl⟩) w
    have discarded : Quiet w ((w.record (.tested v false)).record (.discarded q v)) :=
      tested.trans (.record (fun _ _ => ⟨rfl, rfl⟩) _)
    have taken := discarded.trans (quiet_take? _ q)
    split
    next w' h =>
      rw [h] at taken
      exact .below waiting (taken.evolves sound)
    next w' v' h =>
      rw [h] at taken
      exact .push waiting (taken.evolves sound) trivial

theorem chain_sound (sound : w.Sound (heldBy below)) (waiting : Waiting w below)
    (holds : Holds (heldBy below) c) (ctx : Context) (rest : List (Kind × Callback)) :
    (Machine.chain w below c ctx rest).Sound := by
  cases rest with
  | nil => exact .below waiting (.refl sound)
  | cons entry rest =>
    have waits : Waiting w (.chaining c ctx rest :: below) := ⟨holds, waiting⟩
    exact .of_acts waits (.refl sound) rfl ⟨holds, Site.Call.start_fits _ _⟩

theorem contain_sound (sound : w.Sound (heldBy below)) (waiting : Waiting w below)
    (ctx : Context) (p : Panic) : (Machine.contain w below c ctx p).Sound := by
  have logged : Quiet w (w.record (.logged c (.contained ctx.label p))) :=
    .record (fun _ _ => ⟨rfl, rfl⟩) w
  unfold Machine.contain
  dsimp only
  split
  next => exact dispose_sound (logged.sound sound) (waiting.evolve (logged.evolves sound)) p
  next h _ =>
    have reported := logged.trans (.record (e := .reported h.name p) (fun _ _ => ⟨rfl, rfl⟩) _)
    exact .push (waiting.cons (.dropping p) trivial) (reported.evolves sound) trivial

theorem enter_sound {stack : List Frame} (waiting : Waiting w stack)
    (sound : w.Sound (heldBy stack)) (act : Act) : (Machine.enter w stack act).Sound :=
  begin_sound sound act stack rfl waiting

theorem conclude_quiet (w : World) (watched : List String) (v : Verdict) :
    Quiet w (Machine.conclude w watched v) :=
  .record (fun _ _ => ⟨rfl, rfl⟩) w

theorem resume_sound {frame : Frame} (sound : w.Sound (heldBy (frame :: below)))
    (acts : frame.Acts w (heldBy below)) (waiting : Waiting w below) :
    (Machine.resume w below frame).Sound := by
  have below_sound : w.Sound (heldBy below) := sound.mono fun hc => sound.held (hc.cons frame)
  have same : Evolves (heldBy below) w w := .refl below_sound
  cases frame with
  | session watched rest =>
    cases rest with
    | nil => exact .below waiting same
    | cons step rest =>
      exact enter_sound (waiting.cons (.session watched rest) trivial) below_sound _
  | body label rest =>
    cases rest with
    | nil => exact .below waiting same
    | cons step rest =>
      exact enter_sound (waiting.cons (.body step.label rest) trivial) below_sound _
  | repeating count script =>
    cases count with
    | zero => exact .below waiting same
    | succ n => exact .push (waiting.cons (.repeating n script) trivial) same trivial
  | driving c here => exact drive_sound below_sound waiting acts.1 acts.2
  | chaining c ctx rest => exact chain_sound below_sound waiting acts ctx rest
  | probing q t n v => exact probe_sound below_sound waiting q t n v
  | catching | holding _ | settling _ _ | guarding _ _ | dropping _ | ending _ =>
    exact .below waiting same

theorem receive_sound {frame : Frame} (sound : w.Sound (heldBy (frame :: below)))
    (acts : frame.Acts w (heldBy below)) (waiting : Waiting w below) (r : Reply) :
    (Machine.receive w below r frame).Sound := by
  have below_sound : w.Sound (heldBy below) := sound.mono fun hc => sound.held (hc.cons frame)
  have same : Evolves (heldBy below) w w := .refl below_sound
  cases frame with
  | session watched rest =>
    exact .push waiting ((conclude_quiet w watched _).evolves below_sound) trivial
  | body label rest =>
    exact .push waiting ((Quiet.record (fun _ _ => ⟨rfl, rfl⟩) w).evolves below_sound) trivial
  | holding ref => exact .below waiting (.release below_sound ref)
  | settling c s =>
    simp only [Machine.receive]
    split
    next =>
      exact .below waiting ((Quiet.record (fun _ _ => ⟨rfl, rfl⟩) w).evolves below_sound)
    next => exact .below waiting same
  | ending label =>
    exact .below waiting ((Quiet.record (fun _ _ => ⟨rfl, rfl⟩) w).evolves below_sound)
  | probing q t n v => exact probe_sound below_sound waiting q t n v
  | catching | guarding _ _ => exact .below waiting same
  | dropping payload => exact dispose_sound below_sound waiting payload
  | driving c here | chaining c ctx rest => exact .of_acts waiting same rfl acts
  | repeating count script => exact .push waiting same trivial

theorem reject_sound {frame : Frame} (sound : w.Sound (heldBy (frame :: below)))
    (acts : frame.Acts w (heldBy below)) (waiting : Waiting w below) (f : Fault) :
    (Machine.reject w below f frame).Sound := by
  have below_sound : w.Sound (heldBy below) := sound.mono fun hc => sound.held (hc.cons frame)
  cases frame with
  | session watched rest =>
    exact .push waiting ((conclude_quiet w watched _).evolves below_sound) trivial
  | body label rest =>
    exact .push waiting ((Quiet.record (fun _ _ => ⟨rfl, rfl⟩) w).evolves below_sound) trivial
  | _ => exact ⟨sound, acts, waiting⟩

theorem unwind_sound {frame : Frame} (sound : w.Sound (heldBy (frame :: below)))
    (waiting : Waiting w below) (p : Panic) : (Machine.unwind w below p frame).Sound := by
  have below_sound : w.Sound (heldBy below) := sound.mono fun hc => sound.held (hc.cons frame)
  have same : Evolves (heldBy below) w w := .refl below_sound
  cases frame with
  | session watched rest =>
    exact .push waiting ((conclude_quiet w watched _).evolves below_sound) trivial
  | holding ref => exact .below waiting (.release below_sound ref)
  | guarding c ctx =>
    simp only [Machine.unwind]
    split
    next => exact .below waiting same
    next => exact contain_sound below_sound waiting ctx p
  | dropping payload =>
    simp only [Machine.unwind]
    split
    next => exact .below waiting same
    next =>
      have raises := waiting.cons (.repeating 1 [.mk "" (.raise p)]) trivial
      have raises_sound : w.Sound (heldBy (.repeating 1 [.mk "" (.raise p)] :: below)) :=
        below_sound
      exact dispose_sound raises_sound raises payload
  | probing q t n v =>
    exact .below waiting ((Quiet.record (fun _ _ => ⟨rfl, rfl⟩) w).evolves below_sound)
  | chaining c ctx rest =>
    exact .below waiting ((Quiet.record (fun _ _ => ⟨rfl, rfl⟩) w).evolves below_sound)
  | catching | body _ _ | repeating _ _ | driving _ _ | settling _ _ | ending _ =>
    exact .below waiting same

end Frames

namespace Machine

/-- Every step keeps the accounts right. -/
theorem Sound.step {m : Machine} (h : m.Sound) : m.step.Sound := by
  obtain ⟨w, stack, control⟩ := m
  obtain ⟨sound, stands⟩ := h
  cases stack with
  | nil => exact ⟨sound, stands⟩
  | cons frame below =>
    obtain ⟨acts, waiting⟩ := stands
    cases control with
    | resume => exact resume_sound sound acts waiting
    | answer r => exact receive_sound sound acts waiting r
    | faulty f => exact reject_sound sound acts waiting f
    | unwind p => exact unwind_sound sound waiting p

theorem initial_sound (watched : List String) (script : Script) :
    (initial watched script).Sound := by
  refine ⟨⟨?_, ?_, ?_, ?_⟩, trivial, trivial⟩
  · intro c x hx
    cases (Array.getElem?_empty (i := c)).symm.trans hx
  · exact fun _ _ => ⟨rfl, rfl⟩
  · rintro c ⟨r, hr, -⟩
    cases hr
  · rintro c ⟨entry, hentry, -⟩
    cases hentry

theorem Sound.runFor {m : Machine} (h : m.Sound) (n : Nat) : (runFor n m).Sound := by
  induction n generalizing m with
  | zero => exact h
  | succ n ih =>
    unfold Machine.runFor
    split
    · exact h
    · exact ih h.step

/-- At every moment of every run, and for every kind, what a living completion has
called is the front part of what was registered with it and what still waits is the
rest, both in order. Nothing was called unless the completion is settled, and nothing
that waits for the side on which it did not settle. -/
theorem called_exactly_once (watched : List String) (script : Script) (n : Nat)
    {c : CompletionId} {x : Completion Value Item}
    (alive : (runFor n (initial watched script)).world.completions[c]? = some (some x)) :
    (∀ k, (runFor n (initial watched script)).world.called c k ++ x.waiting k
      = (runFor n (initial watched script)).world.registered c k) ∧
    (∀ k, (runFor n (initial watched script)).world.called c k ≠ [] → x.cell.isTerminal) ∧
    (∀ s, x.cell.state = .settled s →
      (runFor n (initial watched script)).world.called c (.on s.other) = []) := by
  have exact := ((initial_sound watched script).runFor n).world.exact alive
  refine ⟨exact.order, ?_, ?_⟩
  · intro k hk
    obtain ⟨s, hs, -⟩ := exact.settled k hk
    simp [Cell.isTerminal, Cell.State.isTerminal, hs]
  · intro s hs
    apply Classical.byContradiction
    intro hk
    obtain ⟨s', hs', hside⟩ := exact.settled _ hk
    obtain rfl : s = s' := Cell.State.settled.inj (hs.symm.trans hs')
    exact hside rfl

/-- Of two callbacks the first registers a third, which panics. -/
def nestedScript : Script :=
  [.mk "" (.create "c" .completion),
    .mk "" (.onCompletion "c" (.register (.on .success) (.mk "first"
      [.mk "" (.onCompletion "c" (.register (.on .success) (.mk "third"
        [.mk "" (.raise (.number 1))])))]))),
    .mk "" (.onCompletion "c" (.register (.on .success) (.mk "second" []))),
    .mk "" (.onCompletion "c" (.complete ⟨.success, { data := .null }⟩))]

/-- The moment at which the drain inside the first callback has called the second one. -/
def nestedRun : Machine := runFor 30 (initial [] nestedScript)

theorem called_exactly_once_nested :
    (nestedRun.world.called 0 (.on .success)).length = 2 ∧
    ((nestedRun.world.completion 0).waiting (.on .success)).length = 1 ∧
    nestedRun.world.completions[0]? = some (some (nestedRun.world.completion 0)) ∧
    (∀ k, nestedRun.world.called 0 k ++ (nestedRun.world.completion 0).waiting k
      = nestedRun.world.registered 0 k) ∧
    (∀ k, nestedRun.world.called 0 k ≠ [] → (nestedRun.world.completion 0).cell.isTerminal) ∧
    (∀ s, (nestedRun.world.completion 0).cell.state = .settled s →
      nestedRun.world.called 0 (.on s.other) = []) := by
  have lives : (nestedRun.world.completions[0]?.join).isSome = true := by decide +kernel
  have alive : nestedRun.world.completions[0]? = some (some (nestedRun.world.completion 0)) := by
    obtain ⟨x, hx⟩ := Option.isSome_iff_exists.1 lives
    exact World.Alive.getElem? ⟨x, Option.join_eq_some_iff.1 hx⟩
  exact ⟨by decide +kernel, by decide +kernel, alive, called_exactly_once [] nestedScript 30 alive⟩

end Machine

end Eventual
