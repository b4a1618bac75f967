import Eventual.Proofs.Machine.Steps
import Eventual.Proofs.Reflection.Begin

/-!
# Success and failure are reflections of each other

The run of a script with success and failure exchanged everywhere is the run of the script with
the same exchange applied to all that happens. Each step of the one run is reflected by a step of
the other; the queues of a completion are at rest in either, so what the one takes corresponds
to what the other takes.
-/

namespace Eventual

open World

namespace Machine

variable {ρ : Relabelling} {w w' : World} {m m' : Machine} {below : List Frame}

/-- The machines reflect each other: their worlds, what stands on the stack, and what the topmost
frame is told. -/
structure Reflects (ρ : Relabelling) (m m' : Machine) : Prop where
  world : m.world.Reflects ρ m'.world
  stack : m'.stack = m.stack.map (Frame.flip ρ)
  control : m.control.Reflects m'.control

/-! ## What frames do -/

theorem Reflects.hand (h : w.Reflects ρ w') (below : List Frame) {r r' : Reply}
    (same : r.Reflects r') :
    Reflects ρ (Machine.hand w below r) (Machine.hand w' (below.map (Frame.flip ρ)) r') :=
  ⟨h, rfl, .answer same⟩

theorem Reflects.raise (h : w.Reflects ρ w') (below : List Frame) (p : Panic) :
    Reflects ρ (Machine.raise w below p)
      (Machine.raise w' (below.map (Frame.flip ρ)) p.flip) :=
  ⟨h, rfl, .unwind p⟩

theorem Reflects.goOn (h : w.Reflects ρ w') {stack stack' : List Frame}
    (same : stack' = stack.map (Frame.flip ρ)) :
    Reflects ρ (Machine.goOn w stack) (Machine.goOn w' stack') :=
  ⟨h, same, .resume⟩

theorem heldBy_map (stack : List Frame) :
    heldBy (stack.map (Frame.flip ρ)) = (heldBy stack).map (Ref.flip ρ) := by
  unfold heldBy
  rw [List.filterMap_map, List.map_filterMap]
  congr 1
  funext frame
  cases frame <;> rfl

theorem Reflects.enter (h : w.Reflects ρ w') (stack : List Frame) (act : Act) :
    Reflects ρ (Machine.enter w stack act)
      (Machine.enter w' (stack.map (Frame.flip ρ)) (act.flip ρ)) := by
  have begins := @begin_reflects ρ w w' (heldBy stack) h act
  unfold Machine.enter
  rw [heldBy_map]
  refine ⟨begins.world, ?_, begins.control⟩
  dsimp only
  rw [begins.frames, List.map_append]

theorem Reflects.wake (h : w.Reflects ρ w') (below : List Frame) (i : WakerId) :
    Reflects ρ (Machine.wake w below i) (Machine.wake w' (below.map (Frame.flip ρ)) i) := by
  obtain ⟨woken, body⟩ := h.wake i
  have frames : Frame.body "" (w'.wake i).2 :: below.map (Frame.flip ρ)
      = List.map (Frame.flip ρ) (.body "" (w.wake i).2 :: below) := by
    rw [body, List.map_cons, Frame.flip, ρ.label_empty]
  exact .goOn woken frames

theorem Reflects.dispose (h : w.Reflects ρ w') (below : List Frame) (p : Panic) :
    Reflects ρ (Machine.dispose w below p)
      (Machine.dispose w' (below.map (Frame.flip ρ)) p.flip) := by
  have found : p.wakes?.bind w'.lookup = (p.wakes?.bind w.lookup).map (Ref.flip ρ) := by
    cases p.wakes? with
    | none => rfl
    | some handle => exact h.lookup handle
  unfold Machine.dispose
  rw [p.wakes?_flip, found]
  rcases p.wakes?.bind w.lookup with _ | r
  · exact .hand h below (.flip .unit)
  · cases r with
    | waker i => exact .wake h below i
    | _ => exact .hand h below (.flip .unit)

theorem Reflects.call (h : w.Reflects ρ w') (below : List Frame) (c : CompletionId) (x : Item) :
    Reflects ρ (Machine.call w below c x)
      (Machine.call w' (below.map (Frame.flip ρ)) c (x.flip ρ)) := by
  cases x with
  | callback cb guard =>
    cases guard with
    | none => exact .goOn h (by simp [Frame.flip, ρ.label_empty])
    | some ctx => exact .goOn h (by simp [Frame.flip, ρ.label_empty])
  | countdown k name n =>
    cases n with
    | zero => exact .hand h (.ending _ :: below) (.flip .unit)
    | succ n => exact .goOn h rfl
  | waker i => exact .wake h below i
  | relay watch =>
    obtain ⟨s', taken', same⟩ := (h.site c).takeWaker watch
    simp only [Machine.call, Item.flip, taken']
    generalize (w.site c).takeWaker watch = taken at same
    rcases taken with ⟨s, _ | i⟩
    · exact .hand (h.setSite c same) below (.flip .unit)
    · exact .wake (h.setSite c same) below i

theorem notice_reflects (h : w.Reflects ρ w') (c : CompletionId) (n : Notice Value Item) :
    (Machine.notice w c n).Reflects ρ (Machine.notice w' c (n.flip (Item.flip ρ))) := by
  cases n with
  | registered k x => exact h.note (.registered c k x)
  | settled o => exact h.note (.settled (.completion c) o)
  | logged r => exact h.note (.logged c r)

theorem Reflects.deliver (h : w.Reflects ρ w') (below : List Frame) (c : CompletionId)
    (a : Site.Answer Value) :
    Reflects ρ (Machine.deliver w below c a)
      (Machine.deliver w' (below.map (Frame.flip ρ)) c a.flip) := by
  cases a with
  | direct a =>
    cases a with
    | unit => exact .hand h below (.flip .unit)
    | won => exact .hand h below (.flip (.flag true))
    | lost o => exact .hand (h.note (.lost (.completion c) o)) below (.flip (.flag false))
  | ready o => exact .hand (h.note (.copied c o)) below (.flip (.ready (o.map Value.data)))
  | pending => exact .hand h below (.flip .pending)

/-- A step of a call on a completion. -/
theorem Reflects.drive (h : w.Reflects ρ w') (below : List Frame) (c : CompletionId)
    (rest : (w.completion c).AtRest) (rest' : (w'.completion c).AtRest)
    (here : Site.Point Value Item WakerId) :
    Reflects ρ (Machine.drive w below c here)
      (Machine.drive w' (below.map (Frame.flip ρ)) c (here.flip (Item.flip ρ))) := by
  have follows := (h.site c).step rest rest' here
  unfold Machine.drive
  generalize (w.site c).step here = next at follows
  generalize (w'.site c).step (here.flip (Item.flip ρ)) = next' at follows
  cases follows with
  | @intro s s' a same =>
    have set := h.setSite c same
    cases a with
    | goto p => exact .goOn set rfl
    | notice n p => exact .goOn (notice_reflects set c n) rfl
    | call k x arg p =>
      exact .call (set.note (.started c k x arg)) (.driving c p :: below) c x
    | done a => exact .deliver set below c a
    | refused s st => exact .raise set below (.refused s st)

/-- A test panics with a text, which is the same on both sides. -/
theorem flip_of_answer {t : Test} {call : Nat} {d : Data} {p : Panic}
    (panics : t.answer call d = .error p) : p.flip = p := by
  cases t with
  | panicAt n =>
    simp only [Test.answer] at panics
    split at panics
    · cases panics
      rfl
    · cases panics
  | always | never | equal _ | differ _ | above _ | nth _ => cases panics

theorem Reflects.probe (h : w.Reflects ρ w') (below : List Frame) (q : Nat) (t : Test) (n : Nat)
    (v : Value) :
    Reflects ρ (Machine.probe w below q t n v)
      (Machine.probe w' (below.map (Frame.flip ρ)) q t n v) := by
  unfold Machine.probe
  cases answer : t.answer n v.data with
  | error p =>
    have raised := Reflects.raise (h.note (.discarded q v)) below p
    rw [flip_of_answer answer] at raised
    exact raised
  | ok b =>
    cases b with
    | true =>
      exact .hand ((h.note (.tested v true)).note (.consumed q v)) below
        (.flip (.popped (some v.data)))
    | false =>
      obtain ⟨w₁', taken', same⟩ := ((h.note (.tested v false)).note (.discarded q v)).take? q
      dsimp only [Event.flip] at taken' ⊢
      rw [taken']
      generalize ((w.record (.tested v false)).record (.discarded q v)).take? q = taken at same
      rcases taken with ⟨w₁, _ | v'⟩
      · exact .hand same below (.flip (.popped none))
      · exact .hand same (.probing q t (n + 1) v' :: below) (.flip .unit)

theorem Reflects.chain (h : w.Reflects ρ w') (below : List Frame) (c : CompletionId)
    (ctx : Context) (rest : List (Kind × Callback)) :
    Reflects ρ (Machine.chain w below c ctx rest)
      (Machine.chain w' (below.map (Frame.flip ρ)) c (ctx.flip ρ)
        (rest.map fun entry => (entry.1.flip, entry.2.flip ρ))) := by
  cases rest with
  | nil =>
    simp only [Machine.chain, List.map_nil, (h.completion c).cell, Cell.isTerminal_flip]
    exact .hand h below (.flip (.flag _))
  | cons entry rest => exact .goOn h rfl

theorem Reflects.contain (h : w.Reflects ρ w') (below : List Frame) (c : CompletionId)
    (ctx : Context) (p : Panic) :
    Reflects ρ (Machine.contain w below c ctx p)
      (Machine.contain w' (below.map (Frame.flip ρ)) c (ctx.flip ρ) p.flip) := by
  have logged := h.note (.logged c (.contained ctx.label p))
  unfold Machine.contain
  dsimp only [Context.flip]
  cases ctx.handler with
  | none => exact .dispose logged below p
  | some handler =>
    refine .goOn (logged.note (.reported handler.name p)) ?_
    rw [List.map_cons, Frame.flip, ρ.label_empty]
    rfl

/-! ## Steps -/

/-- What the watched handles show differs, but not which of them show anything. -/
theorem conclude_reflects (h : w.Reflects ρ w') (watched : List String) {v v' : Verdict}
    (same : v.Reflects v') :
    (conclude w watched v).Reflects ρ (conclude w' watched v') := by
  have shown : ∀ handle, (w'.describeHandle handle).isSome = (w.describeHandle handle).isSome := by
    intro handle
    unfold World.describeHandle
    rw [Option.isSome_map, Option.isSome_map, h.lookup]
    cases w.lookup handle with
    | none => rfl
    | some r => cases r <;> rfl
  refine h.record (.concluded same ?_)
  rw [List.map_map, List.map_map]
  exact List.map_congr_left fun handle _ => shown handle

theorem resume_reflects (h : w.Reflects ρ w') (below : List Frame) (frame : Frame)
    (rest : ∀ c, (w.completion c).AtRest) (rest' : ∀ c, (w'.completion c).AtRest) :
    Reflects ρ (resume w below frame)
      (resume w' (below.map (Frame.flip ρ)) (frame.flip ρ)) := by
  cases frame with
  | session watched steps =>
    cases steps with
    | nil => exact .hand h below (.flip .unit)
    | cons step steps =>
      simp only [resume, Frame.flip, flipSteps, Step.act_flip]
      exact .enter h (.session watched steps :: below) step.act
  | body label steps =>
    cases steps with
    | nil => exact .hand h below (.flip .unit)
    | cons step steps =>
      simp only [resume, Frame.flip, flipSteps, Step.act_flip, Step.label_flip]
      exact .enter h (.body step.label steps :: below) step.act
  | repeating count script =>
    cases count with
    | zero => exact .hand h below (.flip .unit)
    | succ n => exact .goOn h (by simp [Frame.flip, ρ.label_empty])
  | driving c here => exact .drive h below c (rest c) (rest' c) here
  | chaining c ctx entries => exact .chain h below c ctx entries
  | probing q t n v => exact .probe h below q t n v
  | catching | holding _ | settling _ _ | guarding _ _ | dropping _ | ending _ =>
    exact .hand h below (.flip .unit)

theorem receive_reflects (h : w.Reflects ρ w') (below : List Frame) (frame : Frame)
    {r r' : Reply} (same : r.Reflects r') :
    Reflects ρ (receive w below r frame)
      (receive w' (below.map (Frame.flip ρ)) r' (frame.flip ρ)) := by
  cases frame with
  | session watched rest => exact .goOn (conclude_reflects h watched (.returned same)) rfl
  | body label rest => exact .goOn (h.record (.replied same)) rfl
  | catching => exact .hand h below (.flip (.caught none))
  | holding ref =>
    simp only [receive, Frame.flip, heldBy_map]
    exact .hand (h.release _ ref) below same
  | settling c s =>
    have accepted : Reflects ρ (Machine.hand w below .accepted)
        (Machine.hand w' (below.map (Frame.flip ρ)) .accepted) := .hand h below (.flip .accepted)
    cases same with
    | flip r =>
      cases r with
      | flag b =>
        cases b with
        | true => exact accepted
        | false =>
          exact .hand (h.note (.logged c (.lost s))) below (.flip (.rejected .alreadyCompleted))
      | _ => exact accepted
    | text => exact accepted
  | guarding c ctx => exact .hand h below (.flip .unit)
  | dropping payload => exact .dispose h below payload
  | ending label => exact .hand (h.note (.ended label)) below (.flip .unit)
  | probing q t n v => exact .probe h below q t n v
  | repeating _ _ | driving _ _ | chaining _ _ _ => exact .goOn h rfl

theorem reject_reflects (h : w.Reflects ρ w') (below : List Frame) (frame : Frame) (f : Fault) :
    Reflects ρ (reject w below f frame)
      (reject w' (below.map (Frame.flip ρ)) f (frame.flip ρ)) := by
  cases frame with
  | session watched rest => exact .goOn (conclude_reflects h watched (.faulty f)) rfl
  | body label rest => exact .goOn (h.note (.faulted label f)) rfl
  | _ => exact .goOn h rfl

theorem unwind_reflects (h : w.Reflects ρ w') (below : List Frame) (frame : Frame) (p : Panic) :
    Reflects ρ (unwind w below p frame)
      (unwind w' (below.map (Frame.flip ρ)) p.flip (frame.flip ρ)) := by
  cases frame with
  | session watched rest => exact .goOn (conclude_reflects h watched (.panicked p)) rfl
  | catching => exact .hand h below (.flip (.caught (some p)))
  | holding ref =>
    simp only [unwind, Frame.flip, heldBy_map]
    exact .raise (h.release _ ref) below p
  | guarding c ctx =>
    have policy : (ctx.flip ρ).policy = ctx.policy := rfl
    simp only [unwind, Frame.flip, policy]
    cases ctx.policy with
    | propagate => exact .raise h below p
    | isolate => exact .contain h below c ctx p
  | dropping payload =>
    simp only [unwind, Frame.flip, payload.wakes?_flip]
    cases payload.wakes? with
    | none => exact .raise h below p
    | some _ =>
      have disposed := Reflects.dispose h (.repeating 1 [.mk "" (.raise p)] :: below) payload
      rw [List.map_cons, Frame.flip, flipSteps, flipSteps, Step.flip, Act.flip, ρ.label_empty]
        at disposed
      exact disposed
  | probing q t n v => exact .raise (h.note (.discarded q v)) below p
  | chaining c ctx rest =>
    have forgone := h.note (.forgone c (rest.map Prod.snd).reverse)
    have callbacks : (rest.map Prod.snd).reverse.map (Callback.flip ρ)
        = ((rest.map fun entry => (entry.1.flip, entry.2.flip ρ)).map Prod.snd).reverse := by
      rw [List.map_reverse, List.map_map, List.map_map]
      rfl
    simp only [Event.flip, callbacks] at forgone
    exact .raise forgone below p
  | body _ _ | repeating _ _ | driving _ _ | settling _ _ | ending _ => exact .raise h below p

/-- Machines that reflect each other make steps that reflect each other. -/
theorem Reflects.step (h : Reflects ρ m m') (sound : m.Sound) (sound' : m'.Sound) :
    Reflects ρ m.step m'.step := by
  obtain ⟨w, stack, control⟩ := m
  obtain ⟨w', stack', control'⟩ := m'
  obtain ⟨world, same, told⟩ := h
  dsimp only at world same told
  subst same
  cases stack with
  | nil => exact ⟨world, rfl, told⟩
  | cons frame below =>
    cases told with
    | resume =>
      exact resume_reflects world below frame sound.world.completion_atRest
        sound'.world.completion_atRest
    | answer same => exact receive_reflects world below frame same
    | faulty f => exact reject_reflects world below frame f
    | unwind p => exact unwind_reflects world below frame p

/-- Success and failure are reflections of each other. Exchange them everywhere in a script: then
at every moment, and when it is over, its run reflects that of the script, in its world, on its
stack and in what it tells the topmost frame; and what has happened is the same, event by event
and in the same order, with the same exchange applied to each event. -/
theorem reflected_run (ρ : Relabelling) (watched : List String) (script : Script) :
    (∀ n, (moment watched script n).Reflects ρ (moment watched (flipSteps ρ script) n)) ∧
      (run watched script).Reflects ρ (run watched (flipSteps ρ script)) ∧
      List.Forall₂ (Event.Reflects ρ) (run watched script).world.history
        (run watched (flipSteps ρ script)).world.history := by
  have moments : ∀ n, (moment watched script n).Reflects ρ
      (moment watched (flipSteps ρ script) n) := by
    intro n
    induction n with
    | zero => exact ⟨.empty, rfl, .resume⟩
    | succ n ih =>
      rw [moment_succ, moment_succ]
      exact ih.step (moment_sound watched script n) (moment_sound watched _ n)
  have whole : (run watched script).Reflects ρ (run watched (flipSteps ρ script)) := by
    unfold run
    rw [weightOf_flipSteps]
    exact moments _
  exact ⟨moments, whole, whole.world.history⟩

end Machine

end Eventual
