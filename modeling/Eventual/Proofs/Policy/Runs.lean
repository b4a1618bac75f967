import Eventual.Proofs.Machine.Isolation
import Eventual.Proofs.Policy.Begin

/-!
# Without panics the policy cannot be observed

A policy is read in one place only, when the guard of a callback is told of a panic. As long as no
panic leaves the body of a callback that was registered through a promise, no step of a run
depends on any policy, and the runs of two scripts that differ in policies alone go on side by
side. The panics that bodies catch themselves are no matter, nor is how deep the bodies nest.
-/

namespace Eventual

open World

namespace Machine

variable {w w' : World} {m m' : Machine} {below : List Frame}

/-! ## What frames do -/

/-- The second machine is what remains of the first without policies. -/
structure Stripped (m m' : Machine) : Prop where
  world : m.world.Stripped m'.world
  stack : m'.stack = m.stack.map Frame.strip
  control : m'.control.veil = m.control.veil

theorem Stripped.hand (h : w.Stripped w') (below : List Frame) {r r' : Reply}
    (same : r'.veil = r.veil) :
    Stripped (Machine.hand w below r) (Machine.hand w' (below.map Frame.strip) r') :=
  ⟨h, rfl, congrArg Control.answer same⟩

theorem Stripped.raise (h : w.Stripped w') (below : List Frame) (p : Panic) :
    Stripped (Machine.raise w below p) (Machine.raise w' (below.map Frame.strip) p) :=
  ⟨h, rfl, rfl⟩

theorem Stripped.goOn (h : w.Stripped w') {stack stack' : List Frame}
    (same : stack' = stack.map Frame.strip) :
    Stripped (Machine.goOn w stack) (Machine.goOn w' stack') :=
  ⟨h, same, rfl⟩

theorem heldBy_strip (stack : List Frame) :
    heldBy (stack.map Frame.strip) = (heldBy stack).map Ref.strip := by
  unfold heldBy
  rw [List.filterMap_map, List.map_filterMap]
  congr 1
  funext frame
  cases frame <;> rfl

theorem Stripped.enter (h : w.Stripped w') (stack : List Frame) (act : Act) :
    Stripped (Machine.enter w stack act)
      (Machine.enter w' (stack.map Frame.strip) act.strip) := by
  have begins := @begin_stripped w w' (heldBy stack) h act
  unfold Machine.enter
  rw [heldBy_strip]
  refine ⟨begins.world, ?_, begins.control⟩
  dsimp only
  rw [begins.frames, List.map_append]

theorem Stripped.wake (h : w.Stripped w') (below : List Frame) (i : WakerId) :
    Stripped (Machine.wake w below i) (Machine.wake w' (below.map Frame.strip) i) := by
  obtain ⟨woken, body⟩ := h.wake i
  have frames : Frame.body "" (w'.wake i).2 :: below.map Frame.strip
      = List.map Frame.strip (.body "" (w.wake i).2 :: below) := by
    rw [body, List.map_cons, Frame.strip]
  exact .goOn woken frames

theorem Stripped.dispose (h : w.Stripped w') (below : List Frame) (p : Panic) :
    Stripped (Machine.dispose w below p) (Machine.dispose w' (below.map Frame.strip) p) := by
  have found : p.wakes?.bind w'.lookup = (p.wakes?.bind w.lookup).map Ref.strip := by
    cases p.wakes? with
    | none => rfl
    | some handle => exact h.lookup handle
  unfold Machine.dispose
  rw [found]
  rcases p.wakes?.bind w.lookup with _ | r
  · exact .hand h below rfl
  · cases r with
    | waker i => exact .wake h below i
    | _ => exact .hand h below rfl

theorem Stripped.call (h : w.Stripped w') (below : List Frame) (c : CompletionId) (x : Item) :
    Stripped (Machine.call w below c x)
      (Machine.call w' (below.map Frame.strip) c x.strip) := by
  cases x with
  | callback cb guard =>
    cases guard with
    | none => exact .goOn h (by simp [Frame.strip])
    | some ctx => exact .goOn h (by simp [Frame.strip])
  | countdown k name n =>
    cases n with
    | zero => exact .hand h (.ending _ :: below) rfl
    | succ n => exact .goOn h rfl
  | waker i => exact .wake h below i
  | relay watch =>
    obtain ⟨s', taken', same⟩ := (h.site c).takeWaker watch
    simp only [Machine.call, Item.strip, taken']
    generalize (w.site c).takeWaker watch = taken at same
    rcases taken with ⟨s, _ | i⟩
    · exact .hand (h.setSite c same) below rfl
    · exact .wake (h.setSite c same) below i

theorem notice_stripped (h : w.Stripped w') (c : CompletionId) (n : Notice Value Item) :
    (Machine.notice w c n).Stripped (Machine.notice w' c (n.onItems Item.strip)) := by
  cases n with
  | registered k x => exact h.note (.registered c k x)
  | settled o => exact h.note (.settled (.completion c) o)
  | logged r => exact h.note (.logged c r)

theorem Stripped.deliver (h : w.Stripped w') (below : List Frame) (c : CompletionId)
    (a : Site.Answer Value) :
    Stripped (Machine.deliver w below c a)
      (Machine.deliver w' (below.map Frame.strip) c a) := by
  cases a with
  | direct a =>
    cases a with
    | unit => exact .hand h below rfl
    | won => exact .hand h below rfl
    | lost o => exact .hand (h.note (.lost (.completion c) o)) below rfl
  | ready o => exact .hand (h.note (.copied c o)) below rfl
  | pending => exact .hand h below rfl

/-- A step of a call on a completion. -/
theorem Stripped.drive (h : w.Stripped w') (below : List Frame) (c : CompletionId)
    (rest : (w.completion c).AtRest) (rest' : (w'.completion c).AtRest)
    (here : Site.Point Value Item WakerId) :
    Stripped (Machine.drive w below c here)
      (Machine.drive w' (below.map Frame.strip) c (here.onItems Item.strip)) := by
  have tracks := (h.site c).step rest rest' here
  unfold Machine.drive
  generalize (w.site c).step here = next at tracks
  generalize (w'.site c).step (here.onItems Item.strip) = next' at tracks
  cases tracks with
  | @intro s s' a same =>
    have set := h.setSite c same
    cases a with
    | goto p => exact .goOn set rfl
    | notice n p => exact .goOn (notice_stripped set c n) rfl
    | call k x arg p =>
      exact .call (set.note (.started c k x arg)) (.driving c p :: below) c x
    | done a => exact .deliver set below c a
    | refused s st => exact .raise set below (.refused s st)

theorem Stripped.probe (h : w.Stripped w') (below : List Frame) (q : Nat) (t : Test) (n : Nat)
    (v : Value) :
    Stripped (Machine.probe w below q t n v)
      (Machine.probe w' (below.map Frame.strip) q t n v) := by
  unfold Machine.probe
  rcases t.answer n v.data with p | _ | _
  · exact .raise (h.note (.discarded q v)) below p
  · obtain ⟨w₁', taken', same⟩ := ((h.note (.tested v false)).note (.discarded q v)).take? q
    dsimp only [Event.strip] at taken' ⊢
    rw [taken']
    generalize ((w.record (.tested v false)).record (.discarded q v)).take? q = taken at same
    rcases taken with ⟨w₁, _ | v'⟩
    · exact .hand same below rfl
    · exact .hand same (.probing q t (n + 1) v' :: below) rfl
  · exact .hand ((h.note (.tested v true)).note (.consumed q v)) below rfl

theorem Stripped.chain (h : w.Stripped w') (below : List Frame) (c : CompletionId)
    (ctx : Context) (rest : List (Kind × Callback)) :
    Stripped (Machine.chain w below c ctx rest)
      (Machine.chain w' (below.map Frame.strip) c ctx.strip
        (rest.map fun entry => (entry.1, entry.2.strip))) := by
  cases rest with
  | nil =>
    simp only [Machine.chain, List.map_nil, (h.completion c).cell]
    exact .hand h below rfl
  | cons entry rest => exact .goOn h rfl

/-! ## Steps -/

/-- A panic leaves the body of a callback that was registered through a promise: the guard
around the body is told of it. -/
def leaks (m : Machine) : Bool :=
  match m.stack, m.control with
  | .guarding _ _ :: _, .unwind _ => true
  | _, _ => false

/-- What the watched handles show differs, but not which of them show anything. -/
theorem conclude_stripped (h : w.Stripped w') (watched : List String) {v v' : Verdict}
    (same : v'.veil = v.veil) : (conclude w watched v).Stripped (conclude w' watched v') := by
  have shown : ∀ handle, (w'.describeHandle handle).map (fun _ => "")
      = (w.describeHandle handle).map fun _ => "" := by
    intro handle
    unfold World.describeHandle
    rw [h.lookup, Option.map_map, Option.map_map]
    cases w.lookup handle with
    | none => rfl
    | some r => cases r <;> rfl
  refine h.record ?_
  simp only [Event.strip, Event.veil, same, List.map_map]
  exact congrArg _ (List.map_congr_left fun handle _ => shown handle)

theorem resume_stripped (h : w.Stripped w') (below : List Frame) (frame : Frame)
    (rest : ∀ c, (w.completion c).AtRest) (rest' : ∀ c, (w'.completion c).AtRest) :
    Stripped (resume w below frame) (resume w' (below.map Frame.strip) frame.strip) := by
  cases frame with
  | session watched steps =>
    cases steps with
    | nil => exact .hand h below rfl
    | cons step steps =>
      simp only [resume, Frame.strip, stripSteps, Step.act_strip]
      exact .enter h (.session watched steps :: below) step.act
  | body label steps =>
    cases steps with
    | nil => exact .hand h below rfl
    | cons step steps =>
      simp only [resume, Frame.strip, stripSteps, Step.act_strip, Step.label_strip]
      exact .enter h (.body step.label steps :: below) step.act
  | repeating count script =>
    cases count with
    | zero => exact .hand h below rfl
    | succ n => exact .goOn h rfl
  | driving c here => exact .drive h below c (rest c) (rest' c) here
  | chaining c ctx entries => exact .chain h below c ctx entries
  | probing q t n v => exact .probe h below q t n v
  | catching | holding _ | settling _ _ | guarding _ _ | dropping _ | ending _ =>
    exact .hand h below rfl

/-- A settlement learns that it lost from one answer, which shows no policy. -/
theorem veil_eq_flag {r : Reply} {b : Bool} : r.veil = .flag b ↔ r = .flag b := by
  cases r <;> simp [Reply.veil]

theorem receive_stripped (h : w.Stripped w') (below : List Frame) (frame : Frame)
    {r r' : Reply} (same : r'.veil = r.veil) :
    Stripped (receive w below r frame) (receive w' (below.map Frame.strip) r' frame.strip) := by
  cases frame with
  | session watched rest =>
    have verdict : (Verdict.returned r').veil = (Verdict.returned r).veil :=
      congrArg Verdict.returned same
    exact .goOn (conclude_stripped h watched verdict) rfl
  | body label rest =>
    have replied : (Event.replied label r').veil = (Event.replied label r).strip.veil :=
      congrArg (Event.replied label) same
    exact .goOn (h.record replied) rfl
  | catching => exact .hand h below rfl
  | holding ref =>
    simp only [receive, Frame.strip, heldBy_strip]
    exact .hand (h.release _ ref) below same
  | settling c s =>
    by_cases lost : r = .flag false
    · have lost' : r' = .flag false := by rw [← veil_eq_flag, same, veil_eq_flag, lost]
      subst lost lost'
      exact .hand (h.note (.logged c (.lost s))) below rfl
    · have won : r' ≠ .flag false := by rwa [Ne, ← veil_eq_flag, same, veil_eq_flag]
      have accepted : ∀ (w : World) (below : List Frame) (r : Reply), r ≠ .flag false →
          receive w below r (.settling c s) = Machine.hand w below .accepted := by
        intro w below r won
        simp only [receive]
      rw [Frame.strip, accepted _ _ _ lost, accepted _ _ _ won]
      exact .hand h below rfl
  | guarding c ctx => exact .hand h below rfl
  | dropping payload => exact .dispose h below payload
  | ending label => exact .hand (h.note (.ended label)) below rfl
  | probing q t n v => exact .probe h below q t n v
  | repeating _ _ | driving _ _ | chaining _ _ _ => exact .goOn h rfl

theorem reject_stripped (h : w.Stripped w') (below : List Frame) (frame : Frame) (f : Fault) :
    Stripped (reject w below f frame) (reject w' (below.map Frame.strip) f frame.strip) := by
  cases frame with
  | session watched rest => exact .goOn (conclude_stripped h watched rfl) rfl
  | body label rest => exact .goOn (h.note (.faulted label f)) rfl
  | _ => exact .goOn h rfl

/-- Of all frames that may be told of a panic only the guards of callbacks look at a policy. -/
theorem unwind_stripped (h : w.Stripped w') (below : List Frame) (frame : Frame) (p : Panic)
    (unguarded : ∀ c ctx, frame ≠ .guarding c ctx) :
    Stripped (unwind w below p frame) (unwind w' (below.map Frame.strip) p frame.strip) := by
  cases frame with
  | session watched rest => exact .goOn (conclude_stripped h watched rfl) rfl
  | catching => exact .hand h below rfl
  | holding ref =>
    simp only [unwind, Frame.strip, heldBy_strip]
    exact .raise (h.release _ ref) below p
  | guarding c ctx => exact absurd rfl (unguarded c ctx)
  | dropping payload =>
    simp only [unwind, Frame.strip]
    cases payload.wakes? with
    | none => exact .raise h below p
    | some _ => exact .dispose h (.repeating 1 [.mk "" (.raise p)] :: below) payload
  | probing q t n v => exact .raise (h.note (.discarded q v)) below p
  | chaining c ctx rest =>
    have forgone := h.note (.forgone c (rest.map Prod.snd).reverse)
    have callbacks : (rest.map Prod.snd).reverse.map Callback.strip
        = ((rest.map fun entry => (entry.1, entry.2.strip)).map Prod.snd).reverse := by
      rw [List.map_reverse, List.map_map, List.map_map]
      rfl
    simp only [Event.strip, callbacks] at forgone
    exact .raise forgone below p
  | body _ _ | repeating _ _ | driving _ _ | settling _ _ | ending _ => exact .raise h below p

/-- A panic leaves the body of a callback in both machines or in neither. -/
theorem Stripped.leaks_eq (h : Stripped m m') : m'.leaks = m.leaks := by
  obtain ⟨w, stack, control⟩ := m
  obtain ⟨w', stack', control'⟩ := m'
  obtain ⟨-, same, told⟩ := h
  dsimp only at same told
  subst same
  cases stack with
  | nil => rfl
  | cons frame below =>
    cases frame with
    | guarding c ctx => cases control <;> cases control' <;> first | rfl | cases told
    | _ => rfl

/-- As long as no panic leaves the body of a callback, a machine and the stripped machine make a
step and the stripped step. -/
theorem Stripped.step (h : Stripped m m') (sound : m.Sound) (sound' : m'.Sound)
    (contained : m.leaks = false) : Stripped m.step m'.step := by
  obtain ⟨w, stack, control⟩ := m
  obtain ⟨w', stack', control'⟩ := m'
  obtain ⟨world, same, told⟩ := h
  dsimp only at world same told
  subst same
  cases stack with
  | nil => exact ⟨world, rfl, told⟩
  | cons frame below =>
    cases control with
    | resume =>
      cases control' with
      | resume =>
        exact resume_stripped world below frame sound.world.completion_atRest
          sound'.world.completion_atRest
      | _ => cases told
    | answer r =>
      cases control' with
      | answer r' => exact receive_stripped world below frame (Control.answer.inj told)
      | _ => cases told
    | faulty f =>
      cases control' with
      | faulty f' =>
        cases told
        exact reject_stripped world below frame f
      | _ => cases told
    | unwind p =>
      cases control' with
      | unwind p' =>
        cases told
        refine unwind_stripped world below frame p ?_
        rintro c ctx rfl
        cases contained
      | _ => cases told

/-! ## Runs -/

/-- The run of a script without policies stays, while no panic leaves the body of a callback,
what remains of the run of the script. -/
theorem stripped_moment {watched : List String} {script : Script} {n : Nat}
    (contained : ∀ i < n, (moment watched script i).leaks = false) :
    Stripped (moment watched script n) (moment watched (stripSteps script) n) := by
  induction n with
  | zero => exact ⟨.empty, rfl, rfl⟩
  | succ n ih =>
    rw [moment_succ, moment_succ]
    exact (ih fun i hi => contained i (Nat.lt_succ_of_lt hi)).step
      (moment_sound watched script n) (moment_sound watched _ n)
      (contained n (Nat.lt_succ_self n))

/-- In the machines everything is the same but for policies, and for answers and descriptions
that show one: what has happened, what the cells store, what waits and in which order, the
handles, and what is under way. -/
structure Alike (m m' : Machine) : Prop where
  history : m'.world.history.map (fun ev => ev.strip.veil)
    = m.world.history.map fun ev => ev.strip.veil
  slots : ∀ c, (m'.world.completion c).cell = (m.world.completion c).cell
  chains : ∀ c k, ((m'.world.completion c).waiting k).map Item.strip
    = ((m.world.completion c).waiting k).map Item.strip
  cells : m'.world.cells = m.world.cells
  queues : m'.world.queues = m.world.queues
  watches : m'.world.watches = m.world.watches
  wakers : m'.world.wakers.map Waker.strip = m.world.wakers.map Waker.strip
  handles : m'.world.handles.map (fun entry => (entry.1, entry.2.strip))
    = m.world.handles.map fun entry => (entry.1, entry.2.strip)
  stack : m'.stack.map Frame.strip = m.stack.map Frame.strip
  control : m'.control.veil = m.control.veil

/-- Machines of which the same remains without policies are alike. -/
theorem Stripped.alike {m₀ : Machine} (h : Stripped m m₀) (h' : Stripped m' m₀) :
    Alike m m' where
  history := by
    simp only [World.history, List.map_reverse]
    rw [← h.world.trail, ← h'.world.trail]
  slots c := by rw [← (h.world.completion c).cell, ← (h'.world.completion c).cell]
  chains c k := by rw [← (h.world.completion c).waiting, ← (h'.world.completion c).waiting]
  cells := by rw [← h.world.cells, ← h'.world.cells]
  queues := by rw [← h.world.queues, ← h'.world.queues]
  watches := by rw [← h.world.watches, ← h'.world.watches]
  wakers := by rw [← h.world.wakers, ← h'.world.wakers]
  handles := by rw [← h.world.handles, ← h'.world.handles]
  stack := by rw [← h.stack, ← h'.stack]
  control := by rw [← h.control, ← h'.control]

/-- Where no panic leaves the body of a callback, no guard reports anything. -/
theorem reports_of_contained (contained : m.leaks = false) : m.reports = [] := by
  unfold leaks at contained
  unfold reports
  split
  next hstack hcontrol => simp [hstack, hcontrol] at contained
  next => rfl

theorem no_reports {watched : List String} {script : Script}
    (contained : ∀ n, (moment watched script n).leaks = false) (n : Nat) :
    (moment watched script n).world.history.flatMap Event.reports = [] := by
  rw [reports_eq, List.flatMap_eq_nil_iff]
  exact fun i _ => reports_of_contained (contained i)

/-- Without panics the panic policy is unobservable. Take two scripts that differ in nothing but
the policies of their contexts, and let no panic in the run of the first ever leave the body of a
callback that was registered through a promise. Then none does in the run of the second; the two
runs are alike at every moment, so that what has happened is the same, event by event and in the
same order, and cells and queues hold the same; and neither run logs a contained panic or calls a
panic handler. -/
theorem policy_unobservable {watched : List String} {script script' : Script}
    (alike : stripSteps script' = stripSteps script)
    (contained : ∀ n, (moment watched script n).leaks = false) :
    ∀ n, (moment watched script' n).leaks = false ∧
      Alike (moment watched script n) (moment watched script' n) ∧
      (moment watched script n).world.history.flatMap Event.reports = [] ∧
      (moment watched script' n).world.history.flatMap Event.reports = [] := by
  have stripped : ∀ n, Stripped (moment watched script n)
      (moment watched (stripSteps script) n) := fun n => stripped_moment fun i _ => contained i
  have contained₀ : ∀ n, (moment watched (stripSteps script) n).leaks = false :=
    fun n => (stripped n).leaks_eq.trans (contained n)
  have stripped' : ∀ n, Stripped (moment watched script' n)
      (moment watched (stripSteps script) n) := by
    intro n
    induction n using Nat.strongRecOn with
    | ind n ih =>
      rw [← alike] at ih ⊢
      exact stripped_moment fun i hi => by
        rw [← (ih i hi).leaks_eq, alike]
        exact contained₀ i
  have contained' : ∀ n, (moment watched script' n).leaks = false :=
    fun n => (stripped' n).leaks_eq.symm.trans (contained₀ n)
  exact fun n => ⟨contained' n, (stripped n).alike (stripped' n), no_reports contained n,
    no_reports contained' n⟩

/-- A callback of a promise catches a panic in its own body and registers a second one, which
settles the deferred once more. -/
def reentrantScript (policy : PanicPolicy) : Script :=
  [.mk "" (.create "x" (.context [.name "job", .policy policy,
      .handler "handler" [.mk "" (.raise (.number 7))]])),
    .mk "" (.create "d" (.deferred (some "x"))),
    .mk "" (.onDeferred "d" (.promise "p")),
    .mk "" (.onPromise "p" (.register (.on .success) (.mk "outer"
      [.mk "caught" (.attempt [.mk "" (.raise (.text "inside"))]),
        .mk "late" (.onPromise "p" (.register .always (.mk "inner"
          [.mk "again" (.onDeferred "d" (.settle ⟨.failure, { data := .int 2 }⟩))])))]))),
    .mk "" (.onDeferred "d" (.settle ⟨.success, { data := .int 1 }⟩))]

/-- The run is over at moment 58. The outer callback is called at moment 28, and the inner one
while the outer one has not yet come back. -/
theorem policy_unobservable_reentrant :
    (∀ n, (moment [] (reentrantScript .isolate) n).leaks = false) ∧
    Alike (moment [] (reentrantScript .isolate) 58) (moment [] (reentrantScript .propagate) 58) ∧
    (moment [] (reentrantScript .propagate) 58).world.history.flatMap Event.reports = [] ∧
    ((moment [] (reentrantScript .propagate) 58).world.called 0 .always).length = 1 := by
  have ended : (moment [] (reentrantScript .isolate) 58).isOver = true := by decide +kernel
  have contained : ∀ n, (moment [] (reentrantScript .isolate) n).leaks = false := by
    intro n
    obtain running | later := Nat.lt_or_ge n 58
    · have looked : ∀ n, n < 58 → (moment [] (reentrantScript .isolate) n).leaks = false := by
        decide +kernel
      exact looked n running
    · rw [moment_of_isOver ended later]
      decide +kernel
  obtain ⟨-, alike, -, silent⟩ := policy_unobservable
    (show stripSteps (reentrantScript .propagate) = stripSteps (reentrantScript .isolate) from rfl)
    contained 58
  exact ⟨contained, alike, silent, by decide +kernel⟩

end Machine

end Eventual
