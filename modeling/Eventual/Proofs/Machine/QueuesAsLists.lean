import Eventual.Proofs.Machine.QueueOperations
import Eventual.Proofs.Machine.Steps

/-!
# Queues are plain lists

What a run does with a queue is what a program does with a plain list, move by move. Each step of
a run makes the moves it asks for, or it asks for none and drops the queue, because the last
reference to it is let go of. While a payload is on offer a call holds the queue, so nothing is on
offer then.
-/

namespace Eventual

open World Queue

namespace Machine

variable {m m' : Machine} {w w' : World} {q : Nat} {u : Usage (List Value) Value}
  {below : List Frame}

/-- The moves on the queue that the next step asks for. -/
def asks (q : Nat) (m : Machine) : List (Move Value) :=
  match m.stack, m.control with
  | .session _ (step :: _) :: _, .resume => step.act.moves q m.world
  | .body _ (step :: _) :: _, .resume => step.act.moves q m.world
  | .probing q' t call v :: _, .resume => if q' = q then [t.move call v] else []
  | .probing q' t call v :: _, .answer _ => if q' = q then [t.move call v] else []
  | .probing q' _ _ _ :: _, .unwind _ => if q' = q then [.panic] else []
  | _, _ => []

/-- The usage of the queue that a run shows at a moment. -/
def Shows (m : Machine) (q : Nat) (u : Usage (List Value) Value) : Prop :=
  m.world.Shows q (m.stack.flatMap (Frame.offers q)) u

/-- What refers to the queue refers to something that exists, and what is on offer is held. -/
structure Tended (m : Machine) (q : Nat) : Prop where
  anchored : m.world.Anchored q (heldBy m.stack)
  tethered : Tethered q m.stack

/-- A step makes the moves it asks for, or it asks for none and the queue is dropped. -/
structure Deals (q : Nat) (u : Usage (List Value) Value) (m m' : Machine) : Prop where
  tended : m'.Tended q
  moves : (∃ u' told, u.plays .plain (m.asks q) = some (u', told) ∧ m'.Shows q u' ∧
      Conveys told m'.control) ∨
    m.asks q = [] ∧ u.plays .plain [.drop] = some (u.bury .plain, [.unit]) ∧
      m'.Shows q (u.bury .plain)

/-! ## Steps that ask for nothing -/

/-- A step by which references may be let go of, and that puts frames onto the stack which have
nothing to do with the queue. -/
theorem Deals.of_sheds {old new rest : List Frame} (tended : m.Tended q) (shows : m.Shows q u)
    (quiet : m.asks q = []) (hstack : m.stack = old ++ rest) (hstack' : m'.stack = new ++ rest)
    (offers : old.flatMap (Frame.offers q) = []) (aside : ∀ f ∈ new, f.Aside q)
    (sheds : Sheds q (heldBy rest) m.world m'.world) : Deals q u m m' := by
  obtain ⟨anchored, tethered⟩ := tended
  have lower : Tethered q rest ∧ m.world.Anchored q (heldBy rest) := by
    rw [hstack] at anchored tethered
    constructor
    · clear anchored hstack offers
      induction old with
      | nil => exact tethered
      | cons f old ih => exact ih tethered.2
    · intro keeps
      apply anchored
      rw [keeps_queue_iff] at keeps ⊢
      refine keeps.imp_right ?_
      rintro ⟨r, hr, entity⟩
      refine ⟨r, ?_, entity⟩
      rw [heldBy, List.filterMap_append]
      exact List.mem_append_right _ hr
  have shown : m.world.Shows q (rest.flatMap (Frame.offers q)) u := by
    unfold Shows at shows
    rwa [hstack, List.flatMap_append, offers, List.nil_append] at shows
  refine ⟨⟨fun keeps => ?_, ?_⟩, ?_⟩
  · rw [hstack'] at keeps
    exact sheds.anchored lower.2 (keeps_append aside keeps)
  · rw [hstack']
    exact lower.1.append aside
  · unfold Shows
    rw [hstack', flatMap_offers aside, quiet]
    obtain still | ⟨drops, gone⟩ := sheds.shows shown fun free => lower.1.unoffered free
    · exact .inl ⟨u, [], rfl, still, .nothing _⟩
    · exact .inr ⟨rfl, drops, gone⟩

/-- A step that leaves the queue alone. -/
theorem Deals.of_aside {old new rest : List Frame} (tended : m.Tended q) (shows : m.Shows q u)
    (quiet : m.asks q = []) (hstack : m.stack = old ++ rest) (hstack' : m'.stack = new ++ rest)
    (offers : old.flatMap (Frame.offers q) = []) (aside : ∀ f ∈ new, f.Aside q)
    (same : World.Aside q m.world m'.world) : Deals q u m m' :=
  .of_sheds tended shows quiet hstack hstack' offers aside (.aside same)

end Machine

namespace Machine

variable {m m' : Machine} {w : World} {q : Nat} {u : Usage (List Value) Value}
  {below : List Frame}

/-! ## Steps of the frames -/

/-- The step of a script begins that is next. -/
theorem Deals.enter {frame frame' : Frame} {act : Act} (tended : m.Tended q)
    (shows : m.Shows q u) (hstack : m.stack = frame :: below) (asks : m.asks q = act.moves q m.world)
    (aside : frame.Aside q) (aside' : frame'.Aside q) (unheld : frame'.held? = none) :
    Deals q u m (Machine.enter m.world (frame' :: below) act) := by
  have held : heldBy (frame' :: below) = heldBy below := List.filterMap_cons_none unheld
  have anchored : m.world.Anchored q (heldBy below) := by
    have whole := tended.anchored
    rw [hstack] at whole
    intro keeps
    apply whole
    rw [keeps_queue_iff] at keeps ⊢
    exact keeps.imp_right fun holds => HoldsQueue.cons holds frame
  have tethered : Tethered q below := by
    have whole := tended.tethered
    rw [hstack] at whole
    exact whole.2
  by_cases addressed : ∃ handle op, act = .onQueue handle op ∧
      m.world.lookup handle = some (.queue q)
  · obtain ⟨handle, op, rfl, refers⟩ := addressed
    have shown : m.world.Shows q (below.flatMap (Frame.offers q)) u := by
      unfold Shows at shows
      rwa [hstack, List.flatMap_cons, aside.1, List.nil_append] at shows
    have begins : begin m.world (heldBy below) (.onQueue handle op) = beginQueue m.world q op := by
      simp only [begin, refers]
    have serves := beginQueue_serves (anchored.lookup refers rfl) shown op
    obtain ⟨u', told, plays, shows', conveys⟩ := serves.plays
    unfold Machine.enter
    rw [held, begins]
    refine ⟨⟨fun _ => serves.hasQueue, ?_⟩, .inl ⟨u', told, ?_, ?_, conveys⟩⟩
    · exact serves.frames _ ⟨fun offers => absurd aside'.1 offers, tethered⟩
    · rw [asks]
      simpa only [Act.moves, refers, if_true] using plays
    · unfold Shows
      rw [List.flatMap_append, List.flatMap_cons, aside'.1, List.nil_append]
      exact shows'
  · have other : ∀ handle op, act = .onQueue handle op →
        ∀ q', m.world.lookup handle = some (.queue q') → q' ≠ q := by
      rintro handle op rfl q' refers rfl
      exact addressed ⟨handle, op, rfl, refers⟩
    have quiet : act.moves q m.world = [] := by
      cases act with
      | onQueue handle op =>
        simp only [Act.moves]
        split
        next q' refers => exact if_neg (other handle op rfl q' refers)
        next => rfl
      | _ => rfl
    have spares := begin_spares anchored other
    unfold Machine.enter
    rw [held]
    refine .of_sheds tended shows (asks.trans quiet) (show m.stack = [frame] ++ below from hstack)
      (List.append_cons ..) ?_ ?_ spares.sheds
    · rw [List.flatMap_singleton, aside.1]
    · exact List.forall_mem_append.2 ⟨spares.frames, List.forall_mem_singleton.2 aside'⟩

section Exposed

variable {t : Test} {call : Nat} {v : Value}

/-- What is known while a take offers a payload of the queue to its predicate. -/
structure Exposed (q : Nat) (u : Usage (List Value) Value) (v : Value) (w : World)
    (below : List Frame) : Prop where
  shows : w.Shows q (v :: below.flatMap (Frame.offers q)) u
  has : w.HasQueue q
  holds : HoldsQueue q (heldBy below)
  tethered : Tethered q below

theorem Tended.exposed (tended : m.Tended q) (shows : m.Shows q u)
    (hstack : m.stack = .probing q t call v :: below) : Exposed q u v m.world below := by
  obtain ⟨anchored, tethered⟩ := tended
  rw [hstack] at anchored tethered
  have holds : HoldsQueue q (heldBy below) := tethered.1 (by simp [Frame.offers])
  refine ⟨?_, anchored (keeps_queue_iff.2 (.inr holds)), holds, tethered.2⟩
  unfold Shows at shows
  rw [hstack, List.flatMap_cons] at shows
  simpa only [Frame.offers, if_true, List.singleton_append] using shows

variable {world : World}

theorem Exposed.onOffer {β : Type} (h : Exposed q u v world below)
    (f : Value → List Value → β) : u.onOffer f = some (f v (below.flatMap (Frame.offers q))) := by
  simp only [Usage.onOffer, h.shows.offered]

theorem Exposed.record (h : Exposed q u v world below) {ev : Event} (aside : ev.Aside q) :
    Exposed q u v (world.record ev) below :=
  { h with shows := (World.Aside.record world aside).shows h.shows, has := h.has }

/-- The predicate panics: the payload is dropped, and the panic goes on. -/
theorem Exposed.panics (h : Exposed q u v world below) (asks : m.asks q = [.panic]) (p : Panic) :
    Deals q u m (Machine.raise (world.record (.discarded q v)) below p) := by
  have discarded : (Event.discarded q v).partsFrom q = [(Fate.unwound.handedOut, v)] := if_pos rfl
  refine ⟨⟨fun _ => h.has, h.tethered⟩, .inl ⟨_, [.unwound], ?_, h.shows.part rfl discarded _,
    .unwound p⟩⟩
  rw [asks]
  apply Usage.plays_singleton
  simp only [Usage.step, h.shows.lives h.has, h.onOffer, Bool.false_eq_true, if_false]
  rfl

/-- The predicate accepts: the payload is handed out. -/
theorem Exposed.accepts (h : Exposed q u v world below) (asks : m.asks q = [.accept]) :
    Deals q u m
      (Machine.hand (world.record (.consumed q v)) below (.popped (some v.data))) := by
  have consumed : (Event.consumed q v).partsFrom q = [(Fate.returned.handedOut, v)] := if_pos rfl
  refine ⟨⟨fun _ => h.has, h.tethered⟩, .inl ⟨_, [.popped (some v)], ?_,
    h.shows.part rfl consumed _, .popped (some v)⟩⟩
  rw [asks]
  apply Usage.plays_singleton
  simp only [Usage.step, h.shows.lives h.has, h.onOffer, Bool.false_eq_true, if_false]
  rfl

/-- The predicate rejects: the payload is dropped, and the next one is put on offer. -/
theorem Exposed.rejects (h : Exposed q u v world below) (asks : m.asks q = [.reject])
    (t : Test) (call : Nat) :
    Deals q u m (match (world.record (.discarded q v)).take? q with
      | (w, none) => Machine.hand w below (.popped none)
      | (w, some v') => Machine.hand w (.probing q t call v' :: below) .unit) := by
  have discarded : (Event.discarded q v).partsFrom q = [(Fate.rejected.handedOut, v)] := if_pos rfl
  have parted := h.shows.part rfl discarded (below.flatMap (Frame.offers q))
  generalize hrejected : u.part .rejected v (below.flatMap (Frame.offers q)) = rejected at parted
  have has : (world.record (.discarded q v)).HasQueue q := h.has
  have taken := has.take?
  obtain ⟨first, tells, shows⟩ := seek_serves has parted
  have plays : u.plays .plain [.reject]
      = some ((rejected.seek .plain).1, [(rejected.seek .plain).2]) := by
    apply Usage.plays_singleton
    simp only [Usage.step, h.shows.lives h.has, h.onOffer, Bool.false_eq_true, if_false, hrejected]
  rw [← asks, tells] at plays
  generalize (world.record (.discarded q v)).take? q = next at first shows taken
  obtain ⟨w', x⟩ := next
  dsimp only at first
  subst first
  generalize rejected.store.head? = x at plays shows
  cases x with
  | none => exact ⟨⟨fun _ => taken, h.tethered⟩, .inl ⟨_, _, plays, shows, .popped none⟩⟩
  | some v' =>
    refine ⟨⟨fun _ => taken, fun _ => h.holds, h.tethered⟩, .inl ⟨_, _, plays, ?_, .again v'⟩⟩
    simpa [Shows, Machine.hand, Frame.offers] using shows

/-- The predicate of a take from the queue answers. -/
theorem Exposed.probe (h : Exposed q u v world below) (asks : m.asks q = [t.move call v]) :
    Deals q u m (Machine.probe world below q t call v) := by
  unfold Machine.probe
  rw [Test.move] at asks
  generalize t.answer call v.data = answer at asks
  rcases answer with p | _ | _
  · exact h.panics asks p
  · exact Exposed.rejects (h.record ⟨rfl, rfl⟩) asks t (call + 1)
  · exact Exposed.accepts (h.record ⟨rfl, rfl⟩) asks

end Exposed

/-! ## All steps -/

theorem aside_wake (w : World) (i : WakerId) : World.Aside q w (w.wake i).1 := by
  unfold World.wake
  split
  next => exact .refl w
  next x _ =>
    have spent : World.Aside q w
        { w with wakers := w.wakers.setIfInBounds i { x with spent := true } } :=
      .of_eq rfl rfl rfl
    exact spent.trans (.record _ ⟨rfl, rfl⟩)

/-- What leaves the queue alone and puts some frames onto the stack that have nothing to do with
it. -/
structure LeavesAlone (q : Nat) (w : World) (below : List Frame) (m' : Machine) : Prop where
  world : World.Aside q w m'.world
  stack : ∃ new, m'.stack = new ++ below ∧ ∀ f ∈ new, f.Aside q

/-- A frame that was put below for the step has come above those further below. -/
theorem LeavesAlone.of_cons {frame : Frame} (h : LeavesAlone q w (frame :: below) m)
    (aside : frame.Aside q) : LeavesAlone q w below m := by
  obtain ⟨new, hstack, hnew⟩ := h.stack
  exact ⟨h.world, new ++ [frame], hstack.trans (List.append_cons ..),
    List.forall_mem_append.2 ⟨hnew, List.forall_mem_singleton.2 aside⟩⟩

theorem dispose_leavesAlone {w' : World} (world : World.Aside q w w') (below : List Frame)
    (p : Panic) : LeavesAlone q w below (dispose w' below p) := by
  unfold dispose
  split
  next i _ =>
    exact ⟨world.trans (aside_wake w' i), [_],
      rfl, List.forall_mem_singleton.2 ⟨rfl, by simp [Frame.held?]⟩⟩
  next => exact ⟨world, [], rfl, List.forall_mem_nil _⟩

theorem contain_leavesAlone (w : World) (below : List Frame) (c : CompletionId) (ctx : Context)
    (p : Panic) : LeavesAlone q w below (contain w below c ctx p) := by
  have logged : World.Aside q w (w.record (.logged c (.contained ctx.label p))) :=
    .record w ⟨rfl, rfl⟩
  have plain : ∀ f : Frame, f.offers q = [] → f.held? = none → f.Aside q :=
    fun f offers held => ⟨offers, by simp [held]⟩
  unfold contain
  dsimp only
  split
  next => exact dispose_leavesAlone logged below p
  next h _ =>
    refine ⟨logged.trans (.record _ ⟨rfl, rfl⟩), [_, _], rfl, ?_⟩
    exact List.forall_mem_cons.2 ⟨plain _ rfl rfl, List.forall_mem_singleton.2 (plain _ rfl rfl)⟩

theorem call_leavesAlone (w : World) (below : List Frame) (c : CompletionId) (x : Item) :
    LeavesAlone q w below (call w below c x) := by
  have frame : ∀ f : Frame, f.offers q = [] → f.held? = none → f.Aside q :=
    fun f offers held => ⟨offers, by simp [held]⟩
  have woken : ∀ (w : World) (i : WakerId), LeavesAlone q w below (wake w below i) :=
    fun w i => ⟨aside_wake w i, [_], rfl, List.forall_mem_singleton.2 (frame _ rfl rfl)⟩
  cases x with
  | callback cb guard =>
    cases guard with
    | none => exact ⟨.refl w, [_], rfl, List.forall_mem_singleton.2 (frame _ rfl rfl)⟩
    | some ctx =>
      refine ⟨.refl w, [_, _], rfl, List.forall_mem_cons.2 ⟨frame _ rfl rfl, ?_⟩⟩
      exact List.forall_mem_singleton.2 (frame _ rfl rfl)
  | countdown k name n =>
    cases n with
    | zero => exact ⟨.refl w, [_], rfl, List.forall_mem_singleton.2 (frame _ rfl rfl)⟩
    | succ n =>
      refine ⟨.refl w, [_, _], rfl, List.forall_mem_cons.2 ⟨frame _ rfl rfl, ?_⟩⟩
      exact List.forall_mem_singleton.2 (frame _ rfl rfl)
  | waker i => exact woken w i
  | relay watch =>
    unfold call
    dsimp only
    split
    next s _ => exact ⟨.of_eq rfl rfl rfl, [], rfl, List.forall_mem_nil _⟩
    next s i _ =>
      have set : World.Aside q w (w.setSite c s) := .of_eq rfl rfl rfl
      exact ⟨set.trans (woken _ i).world, (woken _ i).stack⟩

/-- Calls on completions leave the queue alone. -/
theorem drive_leavesAlone (w : World) (below : List Frame) (c : CompletionId)
    (here : Site.Point Value Item WakerId) :
    LeavesAlone q w below (drive w below c here) := by
  have driving : ∀ p, (Frame.driving c p).Aside q := fun p => ⟨rfl, by simp [Frame.held?]⟩
  unfold drive
  generalize (w.site c).step here = next
  obtain ⟨s, action⟩ := next
  have set : World.Aside q w (w.setSite c s) := .of_eq rfl rfl rfl
  cases action with
  | goto p => exact ⟨set, [_], rfl, List.forall_mem_singleton.2 (driving p)⟩
  | notice n p =>
    refine ⟨?_, [_], rfl, List.forall_mem_singleton.2 (driving p)⟩
    cases n <;> exact set.trans (.record _ ⟨rfl, rfl⟩)
  | call k x arg p =>
    have started : World.Aside q w ((w.setSite c s).record (.started c k x arg)) :=
      set.trans (.record _ ⟨rfl, rfl⟩)
    obtain ⟨world, new, hstack, aside⟩ := call_leavesAlone (q := q)
      ((w.setSite c s).record (.started c k x arg)) (.driving c p :: below) c x
    exact ⟨started.trans world, new ++ [.driving c p], by rw [← List.append_cons]; exact hstack,
      List.forall_mem_append.2 ⟨aside, List.forall_mem_singleton.2 (driving p)⟩⟩
  | done a =>
    rcases a with (_ | _ | o) | o | _
    · exact ⟨set, [], rfl, List.forall_mem_nil _⟩
    · exact ⟨set, [], rfl, List.forall_mem_nil _⟩
    · exact ⟨set.trans (.record _ ⟨rfl, rfl⟩), [], rfl, List.forall_mem_nil _⟩
    · exact ⟨set.trans (.record _ ⟨rfl, rfl⟩), [], rfl, List.forall_mem_nil _⟩
    · exact ⟨set, [], rfl, List.forall_mem_nil _⟩
  | refused side st => exact ⟨set, [], rfl, List.forall_mem_nil _⟩

/-- A take from another queue leaves the queue alone. -/
theorem probe_leavesAlone {q' : Nat} (other : q' ≠ q) (w : World) (below : List Frame) (t : Test)
    (n : Nat) (v : Value) : LeavesAlone q w below (probe w below q' t n v) := by
  have discarded : ∀ w : World, World.Aside q w (w.record (.discarded q' v)) :=
    fun w => .record w ⟨rfl, if_neg other⟩
  have tested : ∀ b, World.Aside q w (w.record (.tested v b)) := fun b => .record w ⟨rfl, rfl⟩
  unfold probe
  split
  next p _ => exact ⟨discarded w, [], rfl, List.forall_mem_nil _⟩
  next => exact ⟨(tested true).trans (.record _ ⟨rfl, if_neg other⟩), [], rfl, List.forall_mem_nil _⟩
  next =>
    have rejected := (tested false).trans (discarded _)
    have taken : World.Aside q _
        (((w.record (.tested v false)).record (.discarded q' v)).take? q').1 := .setQueue other _
    split
    next w₁ h =>
      rw [h] at taken
      exact ⟨rejected.trans taken, [], rfl, List.forall_mem_nil _⟩
    next w₁ v' h =>
      rw [h] at taken
      refine ⟨rejected.trans taken, [_], rfl, List.forall_mem_singleton.2 ⟨if_neg other, ?_⟩⟩
      simp [Frame.held?]

/-- A frame that offers nothing of the queue is gone, and others may have come in its place. -/
theorem Deals.of_leavesAlone {frame : Frame} (tended : m.Tended q) (shows : m.Shows q u)
    (quiet : m.asks q = []) (hstack : m.stack = frame :: below) (offers : frame.offers q = [])
    (alone : LeavesAlone q m.world below m') : Deals q u m m' := by
  obtain ⟨world, new, hstack', aside⟩ := alone
  exact .of_aside tended shows quiet (show m.stack = [frame] ++ below from hstack) hstack'
    (by rw [List.flatMap_singleton, offers]) aside world

/-- The stack stays as it is. -/
theorem Deals.of_same (tended : m.Tended q) (shows : m.Shows q u) (quiet : m.asks q = [])
    (hstack' : m'.stack = m.stack) (world : World.Aside q m.world m'.world) : Deals q u m m' :=
  .of_aside tended shows quiet (List.nil_append _).symm
    (hstack'.trans (List.nil_append _).symm) rfl (List.forall_mem_nil _) world

/-- A call lets go of what it holds. -/
theorem Deals.of_release {r : Ref} (tended : m.Tended q) (shows : m.Shows q u)
    (quiet : m.asks q = []) (hstack : m.stack = .holding r :: below) (control : Control) :
    Deals q u m { world := m.world.release (heldBy below) r, stack := below, control } := by
  have anchored := tended.anchored
  rw [hstack] at anchored
  refine .of_sheds tended shows quiet (show m.stack = [.holding r] ++ below from hstack)
    (List.nil_append _).symm rfl (List.forall_mem_nil _) (.release fun entity => ?_)
  exact anchored (keeps_queue_iff.2 (.inr ⟨r, List.mem_cons_self .., entity⟩))

section Steps

variable {frame : Frame}

theorem resume_deals
    (tended : Tended { world := w, stack := frame :: below, control := .resume } q)
    (shows : Shows { world := w, stack := frame :: below, control := .resume } q u) :
    Deals q u { world := w, stack := frame :: below, control := .resume }
      (resume w below frame) := by
  have handed : ∀ r, LeavesAlone q w below (hand w below r) := fun r =>
    ⟨.refl w, [], rfl, List.forall_mem_nil _⟩
  have plain : ∀ f : Frame, f.offers q = [] → f.held? = none → f.Aside q :=
    fun f offers held => ⟨offers, by simp [held]⟩
  cases frame with
  | session watched rest =>
    cases rest with
    | nil => exact .of_leavesAlone tended shows rfl rfl rfl (handed _)
    | cons step rest => exact .enter tended shows rfl rfl (plain _ rfl rfl) (plain _ rfl rfl) rfl
  | body label rest =>
    cases rest with
    | nil => exact .of_leavesAlone tended shows rfl rfl rfl (handed _)
    | cons step rest => exact .enter tended shows rfl rfl (plain _ rfl rfl) (plain _ rfl rfl) rfl
  | repeating count script =>
    refine .of_leavesAlone tended shows rfl rfl rfl ?_
    cases count with
    | zero => exact handed _
    | succ n =>
      exact ⟨.refl w, [_, _], rfl, List.forall_mem_cons.2
        ⟨plain _ rfl rfl, List.forall_mem_singleton.2 (plain _ rfl rfl)⟩⟩
  | driving c here =>
    exact .of_leavesAlone tended shows rfl rfl rfl (drive_leavesAlone w below c here)
  | chaining c ctx rest =>
    refine .of_leavesAlone tended shows rfl rfl rfl ?_
    cases rest with
    | nil => exact handed _
    | cons entry rest =>
      exact ⟨.refl w, [_, _], rfl, List.forall_mem_cons.2
        ⟨plain _ rfl rfl, List.forall_mem_singleton.2 (plain _ rfl rfl)⟩⟩
  | probing q' t n v =>
    by_cases same : q' = q
    · subst same
      exact (tended.exposed shows rfl).probe (if_pos rfl)
    · exact .of_leavesAlone tended shows (if_neg same) rfl (if_neg same)
        (probe_leavesAlone same w below t n v)
  | catching | holding _ | settling _ _ | guarding _ _ | dropping _ | ending _ =>
    exact .of_leavesAlone tended shows rfl rfl rfl (handed _)

theorem receive_deals {r : Reply}
    (tended : Tended { world := w, stack := frame :: below, control := .answer r } q)
    (shows : Shows { world := w, stack := frame :: below, control := .answer r } q u) :
    Deals q u { world := w, stack := frame :: below, control := .answer r }
      (receive w below r frame) := by
  have handed : ∀ r, LeavesAlone q w below (hand w below r) := fun r =>
    ⟨.refl w, [], rfl, List.forall_mem_nil _⟩
  cases frame with
  | session watched rest | body label rest =>
    exact .of_same tended shows (by cases rest <;> rfl) rfl (.record w ⟨rfl, rfl⟩)
  | holding r => exact .of_release tended shows rfl rfl _
  | settling c s =>
    refine .of_leavesAlone tended shows rfl rfl rfl ?_
    simp only [receive]
    split
    next => exact ⟨.record w ⟨rfl, rfl⟩, [], rfl, List.forall_mem_nil _⟩
    next => exact handed _
  | ending label =>
    exact .of_leavesAlone tended shows rfl rfl rfl
      ⟨.record w ⟨rfl, rfl⟩, [], rfl, List.forall_mem_nil _⟩
  | probing q' t n v =>
    by_cases same : q' = q
    · subst same
      exact (tended.exposed shows rfl).probe (if_pos rfl)
    · exact .of_leavesAlone tended shows (if_neg same) rfl (if_neg same)
        (probe_leavesAlone same w below t n v)
  | catching | guarding _ _ => exact .of_leavesAlone tended shows rfl rfl rfl (handed _)
  | dropping payload =>
    exact .of_leavesAlone tended shows rfl rfl rfl (dispose_leavesAlone (.refl w) below payload)
  | repeating _ _ | driving _ _ | chaining _ _ _ =>
    exact .of_same tended shows rfl rfl (.refl w)

theorem reject_deals {f : Fault}
    (tended : Tended { world := w, stack := frame :: below, control := .faulty f } q)
    (shows : Shows { world := w, stack := frame :: below, control := .faulty f } q u) :
    Deals q u { world := w, stack := frame :: below, control := .faulty f }
      (reject w below f frame) := by
  cases frame with
  | session watched rest | body label rest =>
    exact .of_same tended shows (by cases rest <;> rfl) rfl (.record w ⟨rfl, rfl⟩)
  | catching | repeating _ _ | holding _ | driving _ _ | settling _ _ | guarding _ _ | dropping _
    | ending _ | probing _ _ _ _ | chaining _ _ _ => exact .of_same tended shows rfl rfl (.refl w)

theorem unwind_deals {p : Panic}
    (tended : Tended { world := w, stack := frame :: below, control := .unwind p } q)
    (shows : Shows { world := w, stack := frame :: below, control := .unwind p } q u) :
    Deals q u { world := w, stack := frame :: below, control := .unwind p }
      (unwind w below p frame) := by
  have raised : LeavesAlone q w below (raise w below p) := ⟨.refl w, [], rfl, List.forall_mem_nil _⟩
  cases frame with
  | session watched rest =>
    exact .of_same tended shows (by cases rest <;> rfl) rfl (.record w ⟨rfl, rfl⟩)
  | holding r => exact .of_release tended shows rfl rfl _
  | guarding c ctx =>
    refine .of_leavesAlone tended shows rfl rfl rfl ?_
    unfold unwind
    dsimp only
    split
    next => exact raised
    next => exact contain_leavesAlone w below c ctx p
  | dropping payload =>
    refine .of_leavesAlone tended shows rfl rfl rfl ?_
    unfold unwind
    dsimp only
    split
    next => exact raised
    next =>
      exact .of_cons (dispose_leavesAlone (.refl w) _ payload) ⟨rfl, by simp [Frame.held?]⟩
  | probing q' t n v =>
    by_cases same : q' = q
    · subst same
      refine (tended.exposed shows rfl).panics ?_ p
      exact if_pos rfl
    · exact .of_leavesAlone tended shows (if_neg same) rfl (if_neg same)
        ⟨.record w ⟨rfl, if_neg same⟩, [], rfl, List.forall_mem_nil _⟩
  | chaining c ctx rest =>
    exact .of_leavesAlone tended shows rfl rfl rfl
      ⟨.record w ⟨rfl, rfl⟩, [], rfl, List.forall_mem_nil _⟩
  | catching =>
    exact .of_leavesAlone tended shows rfl rfl rfl ⟨.refl w, [], rfl, List.forall_mem_nil _⟩
  | body label rest =>
    exact .of_leavesAlone tended shows (by cases rest <;> rfl) rfl rfl raised
  | repeating _ _ | driving _ _ | settling _ _ | ending _ =>
    exact .of_leavesAlone tended shows rfl rfl rfl raised

end Steps

/-- Each step of a run makes the moves it asks for, or it asks for none and drops the queue. -/
theorem step_deals (tended : m.Tended q) (shows : m.Shows q u) : Deals q u m m.step := by
  obtain ⟨w, stack, control⟩ := m
  cases stack with
  | nil => exact .of_same tended shows rfl rfl (.refl w)
  | cons frame below =>
    cases control with
    | resume => exact resume_deals tended shows
    | answer r => exact receive_deals tended shows
    | faulty f => exact reject_deals tended shows
    | unwind p => exact unwind_deals tended shows

/-! ## Runs -/

/-- From one usage of the queue to the next while the run takes a step. The moves that the step
asks for are made, and what they tell is conveyed; or it asks for none and the queue is dropped. -/
def Follows (q : Nat) (m m' : Machine) (u u' : Usage (List Value) Value) : Prop :=
  (∃ told, u.plays .plain (m.asks q) = some (u', told) ∧ Conveys told m'.control) ∨
    m.asks q = [] ∧ u.plays .plain [.drop] = some (u', [.unit])

theorem Deals.follows (deals : Deals q u m m') : ∃ u', m'.Shows q u' ∧ Follows q m m' u u' := by
  obtain ⟨u', told, plays, shows, conveys⟩ | ⟨quiet, drops, shows⟩ := deals.moves
  · exact ⟨u', shows, .inl ⟨told, plays, conveys⟩⟩
  · exact ⟨_, shows, .inr ⟨quiet, drops⟩⟩

theorem Follows.balanced {u' : Usage (List Value) Value} (h : Follows q m m' u u')
    (balanced : u.Balanced) : u'.Balanced := by
  obtain ⟨told, plays, -⟩ | ⟨-, drops⟩ := h
  · exact balanced.plays plays
  · exact balanced.plays drops

variable {watched : List String} {script : Script}

theorem initial_tended : (initial watched script).Tended q := by
  refine ⟨fun keeps => absurd keeps ?_, fun offers => absurd rfl offers, trivial⟩
  exact Bool.false_ne_true

/-- What can always go on goes on for ever. -/
theorem exists_course {β : Type} {P : Nat → β → Prop} {R : Nat → β → β → Prop} {b : β}
    (start : P 0 b) (next : ∀ n b, P n b → ∃ b', P (n + 1) b' ∧ R n b b') :
    ∃ f : Nat → β, f 0 = b ∧ ∀ n, P n (f n) ∧ R n (f n) (f (n + 1)) := by
  have goes : ∀ at_ : (n : Nat) × { b // P n b }, ∃ b', P (at_.1 + 1) b' ∧ R at_.1 at_.2 b' :=
    fun ⟨n, b, h⟩ => next n b h
  obtain ⟨g, hg⟩ := Classical.axiomOfChoice goes
  let course : (n : Nat) → { b // P n b } :=
    fun n => n.rec ⟨b, start⟩ fun n x => ⟨g ⟨n, x⟩, (hg ⟨n, x⟩).1⟩
  exact ⟨fun n => (course n).1, rfl, fun n => ⟨(course n).2, (hg ⟨n, course n⟩).2⟩⟩

/-- The usage of a queue in the course of a run. -/
theorem exists_usage (watched : List String) (script : Script) (q : Nat) :
    ∃ usage : Nat → Usage (List Value) Value, usage 0 = { store := [] } ∧ ∀ n,
      ((moment watched script n).Tended q ∧ (moment watched script n).Shows q (usage n) ∧
        (usage n).Balanced) ∧
      Follows q (moment watched script n) (moment watched script (n + 1)) (usage n)
        (usage (n + 1)) := by
  refine exists_course
    (P := fun n u => (moment watched script n).Tended q ∧ (moment watched script n).Shows q u ∧
      u.Balanced)
    (R := fun n => Follows q (moment watched script n) (moment watched script (n + 1))) ?_ ?_
  · exact ⟨initial_tended, .empty, .refl _, nofun⟩
  · rintro n u ⟨tended, shows, balanced⟩
    rw [moment_succ]
    have deals := step_deals tended shows
    obtain ⟨u', shows', follows⟩ := deals.follows
    exact ⟨u', ⟨deals.tended, shows', follows.balanced balanced⟩, follows⟩

/-- The linked queue is a plain list to every program with one thread. Whatever moves a program
makes, deciding on each by what it has been told so far, both tell it the same after each move,
and the linked queue holds what the list holds; every payload that was appended came to its end
once, is on offer once, or is queued once. And what a run of a script does with a queue of its own,
predicates that use the queue again and panics included, is one usage of a plain list: the history
and the queue show it at each moment, and each step makes the moves it asks for and is told what
they tell, or asks for none and drops the queue. -/
theorem queue_agrees_with_list {α : Type} (client : Client α) (moves : Nat)
    (watched : List String) (script : Script) (q : Nat) :
    (client.play .plain moves
        = ((client.play .linked moves).1.toPlain, (client.play .linked moves).2) ∧
      (client.play .linked moves).1.store.AtRest ∧
      (client.play .plain moves).1.Balanced) ∧
    ∃ usage : Nat → Usage (List Value) Value, usage 0 = { store := [] } ∧ ∀ n,
      (moment watched script n).Shows q (usage n) ∧ (usage n).Balanced ∧
      Follows q (moment watched script n) (moment watched script (n + 1)) (usage n)
        (usage (n + 1)) := by
  obtain ⟨same, rest⟩ := play_linked client moves
  refine ⟨⟨same, rest, play_balanced client moves⟩, ?_⟩
  obtain ⟨usage, start, goes⟩ := exists_usage watched script q
  exact ⟨usage, start, fun n => ⟨(goes n).1.2.1, (goes n).1.2.2, (goes n).2⟩⟩

end Machine

end Eventual
