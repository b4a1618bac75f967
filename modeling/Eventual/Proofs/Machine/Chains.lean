import Eventual.Proofs.Machine.Steps
import Eventual.Proofs.Queue.Nesting

/-!
# What one thread does to the queues of a run

Whatever a run does to a queue, a queue of its own or one of a completion, it appends to it or takes
from it. So what is true of the empty queue, and stays true when something is appended or taken, is
true of every queue at every moment: `World.Every` and `moment_every`.

That a queue was made by calls of one thread, and that it is at rest, are such properties. A call
that finds a queue at rest gets every lock it tries for, however the calls of one thread come to be
inside each other; hence no code that a run calls is ever called with a lock held.
-/

namespace Eventual

/-- The property holds of the empty queue and survives appends and takes. -/
structure Queue.Closed (P : ∀ {α : Type}, Queue α → Prop) : Prop where
  empty : ∀ {α : Type}, P ({} : Queue α)
  append : ∀ {α : Type} {q : Queue α} (x : α), P q → P (q.append x)
  take : ∀ {α : Type} {q : Queue α}, P q → P q.take?.1

theorem Queue.closed_atRest : Queue.Closed fun q => q.AtRest :=
  ⟨.empty, fun x h => h.append x, .take?⟩

/-- Every queue of a completion has the property. -/
def Completion.Every {α ι : Type} (P : ∀ {α : Type}, Queue α → Prop) (c : Completion α ι) : Prop :=
  ∀ k, P (c.queue k)

/-- Every queue of the world has the property. -/
structure World.Every (P : ∀ {α : Type}, Queue α → Prop) (w : World) : Prop where
  queue : ∀ q, P (w.queue q)
  completion : ∀ c, (w.completion c).Every P

variable {P : ∀ {α : Type}, Queue α → Prop}

namespace Completion

variable {α ι : Type} {c c' : Completion α ι}

theorem Every.empty (closed : Queue.Closed P) : ({} : Completion α ι).Every P := by
  rintro ((_ | _) | _ | _) <;> exact closed.empty

theorem Every.setQueue (h : c.Every P) {k : Kind} {q : Queue ι} (hq : P q) :
    (c.setQueue k q).Every P := by
  intro k'
  by_cases hk : k' = k
  · rwa [hk, queue_setQueue_self]
  · rw [queue_setQueue_of_ne c hk]
    exact h k'

theorem Does.every (closed : Queue.Closed P) {p : Point α ι} {a : Action α ι (Point α ι) (Answer α)}
    (does : Does c p c' a) (h : c.Every P) : c'.Every P := by
  cases does with
  | append => exact h.setQueue (closed.append _ (h _))
  | @take s _ _ stage _ q x ht | @leave s _ _ stage _ q _ ht | @close s _ _ stage _ q ht =>
    have taken := closed.take (h (stage.kind s))
    rw [ht] at taken
    exact h.setQueue taken
  | _ => exact h

end Completion

namespace World

variable {w w' : World}

theorem Every.of_eq (h : w.Every P) (queues : w'.queues = w.queues)
    (completions : w'.completions = w.completions) : w'.Every P := by
  constructor
  · intro q
    rw [World.queue, queues]
    exact h.queue q
  · intro c
    rw [World.completion, completions]
    exact h.completion c

theorem Every.record (h : w.Every P) (ev : Event) : (w.record ev).Every P := h.of_eq rfl rfl

theorem Every.empty (closed : Queue.Closed P) : ({} : World).Every P :=
  ⟨fun _ => closed.empty, fun _ => .empty closed⟩

/-- The queue in a place, which may have become another one. -/
theorem queue_set (w : World) (q q' : Nat) (x : Option (Queue Value)) :
    World.queue { w with queues := w.queues.setIfInBounds q x } q'
      = if q = q' ∧ q < w.queues.size then x.getD {} else w.queue q' := by
  unfold World.queue
  dsimp only
  rw [Array.getElem?_setIfInBounds]
  by_cases hq : q = q'
  · subst hq
    by_cases hsize : q < w.queues.size <;> simp [hsize]
  · simp [hq]

theorem Every.setPlace (h : w.Every P) (q : Nat) {x : Option (Queue Value)} (hx : P (x.getD {})) :
    World.Every P { w with queues := w.queues.setIfInBounds q x } := by
  refine ⟨fun q' => ?_, h.completion⟩
  rw [queue_set]
  split
  · exact hx
  · exact h.queue q'

theorem Every.setCompletionPlace (h : w.Every P) (c : CompletionId)
    {x : Option (Completion Value Item)} (hx : (x.getD {}).Every P) :
    World.Every P { w with completions := w.completions.setIfInBounds c x } := by
  refine ⟨h.queue, fun c' => ?_⟩
  rw [completion_set]
  split
  · exact hx
  · exact h.completion c'

theorem Every.setQueue (h : w.Every P) (q : Nat) {x : Queue Value} (hx : P x) :
    (w.setQueue q x).Every P := h.setPlace (x := some x) q hx

theorem Every.setCompletion (h : w.Every P) (c : CompletionId) {x : Completion Value Item}
    (hx : x.Every P) : (w.setCompletion c x).Every P := h.setCompletionPlace (x := some x) c hx

theorem Every.release (closed : Queue.Closed P) (h : w.Every P) (held : List Ref) (r : Ref) :
    (w.release held r).Every P := by
  unfold World.release
  split
  · exact h
  next e _ =>
    split
    · exact h
    · have vacated : (w.vacate e).Every P := by
        cases e with
        | cell i => exact h.of_eq rfl rfl
        | queue q => exact h.setPlace (x := none) q closed.empty
        | completion c => exact h.setCompletionPlace (x := none) c (.empty closed)
      exact vacated.record _

theorem Every.bind (closed : Queue.Closed P) (h : w.Every P) (held : List Ref) (handle : String)
    (r : Ref) : (w.bind held handle r).Every P := by
  have bound : World.Every P { w with handles := (handle, r) :: unbound w.handles handle } :=
    h.of_eq rfl rfl
  unfold World.bind
  dsimp only
  split
  · exact bound
  · exact bound.release closed held _

theorem Every.unbind (closed : Queue.Closed P) (h : w.Every P) {held : List Ref} {handle : String}
    (unbinds : w.unbind? held handle = some w') : w'.Every P := by
  obtain ⟨old, -, rfl⟩ := Option.map_eq_some_iff.1 unbinds
  have unbound : World.Every P { w with handles := unbound w.handles handle } := h.of_eq rfl rfl
  exact unbound.release closed held old

theorem Every.bindPromise (closed : Queue.Closed P) (h : w.Every P) (held : List Ref)
    (handle : String) (c : CompletionId) (ctx : Context) :
    (w.bindPromise held handle c ctx).Every P := by
  have watched : w.addWatch.1.Every P := h.of_eq rfl rfl
  exact watched.bind closed held handle _

theorem Every.addQueue (closed : Queue.Closed P) (h : w.Every P) : (w.addQueue {}).1.Every P := by
  refine ⟨fun q => ?_, h.completion⟩
  unfold World.queue World.addQueue
  dsimp only
  rw [Array.getElem?_push]
  split
  · exact closed.empty
  · exact h.queue q

theorem Every.addCompletion (closed : Queue.Closed P) (h : w.Every P) :
    (w.addCompletion {}).1.Every P := by
  refine ⟨h.queue, fun c => ?_⟩
  rw [completion_push]
  split
  · exact .empty closed
  · exact h.completion c

theorem Every.append (closed : Queue.Closed P) (h : w.Every P) (q : Nat) (v : Value) :
    (w.append q v).Every P :=
  (h.setQueue q (closed.append v (h.queue q))).record _

theorem Every.appendAll (closed : Queue.Closed P) (h : w.Every P) (q : Nat) (ns : List Int) :
    (ns.foldl (fun w n => w.append q { data := .int n }) w).Every P := by
  induction ns generalizing w with
  | nil => exact h
  | cons n ns ih => exact ih (h.append closed q _)

theorem Every.take? (closed : Queue.Closed P) (h : w.Every P) (q : Nat) : (w.take? q).1.Every P :=
  h.setQueue q (closed.take (h.queue q))

theorem Every.takeAll (closed : Queue.Closed P) (h : w.Every P) (q fuel : Nat) :
    (w.takeAll q fuel).1.Every P := by
  induction fuel generalizing w with
  | zero => exact h
  | succ fuel ih =>
    have taken := h.take? closed q
    unfold World.takeAll
    split
    next w₁ empty => exact congrArg Prod.fst empty ▸ taken
    next w₁ v full =>
      rw [full] at taken
      exact ih (taken.record _)

theorem Every.wake (h : w.Every P) (i : WakerId) : (w.wake i).1.Every P := by
  unfold World.wake
  split <;> exact h.of_eq rfl rfl

end World

/-! ## Beginning a step -/

section Beginnings

variable {w : World} {held : List Ref}

theorem every_read (h : w.Every P) (cell : Cell Value) (r : Reading) :
    (Start.read w cell r).world.Every P := by
  cases r with
  | demand s =>
    unfold Start.read
    dsimp only
    split <;> exact h
  | _ => exact h

theorem beginQueue_every (closed : Queue.Closed P) (h : w.Every P) (q : Nat) (op : QueueOp) :
    (beginQueue w q op).world.Every P := by
  have taken := h.take? closed q
  cases op with
  | append v => exact h.append closed q v
  | appendRange start stop => exact h.appendAll closed q _
  | popAll => exact h.takeAll closed q _
  | isEmpty | length | describe _ | faulty _ => exact h
  | pop =>
    unfold beginQueue
    dsimp only
    split
    next empty =>
      rw [empty] at taken
      exact taken
    next full =>
      rw [full] at taken
      exact taken.record _
  | popMatching body t =>
    unfold beginQueue
    dsimp only
    split
    next empty =>
      rw [empty] at taken
      exact taken
    next full =>
      rw [full] at taken
      exact taken

theorem beginCompletion_every (h : w.Every P) (c : CompletionId) (op : CompletionOp) :
    (beginCompletion w c op).world.Every P := by
  cases op with
  | tryCommit o | complete o => exact h.record _
  | read r => exact every_read h _ r
  | registerWaker handle =>
    unfold beginCompletion
    dsimp only
    split <;> exact h
  | _ => exact h

theorem beginDeferred_every (closed : Queue.Closed P) (h : w.Every P) (c : CompletionId)
    (ctx : Context) (op : DeferredOp) : (beginDeferred w held c ctx op).world.Every P := by
  cases op with
  | settle o => exact h.record _
  | promise handle => exact h.bindPromise closed held handle c ctx
  | clone handle => exact h.bind closed held handle _
  | profile | describe _ | faulty _ => exact h

theorem beginPromise_every (closed : Queue.Closed P) (h : w.Every P) (c : CompletionId)
    (ctx : Context) (watch : WatchId) (op : PromiseOp) :
    (beginPromise w held c ctx watch op).world.Every P := by
  cases op with
  | flags => exact every_read h (w.completion c).cell .flags
  | clone handle => exact h.bindPromise closed held handle c ctx
  | poll wakes =>
    unfold beginPromise
    dsimp only
    split
    · split <;> exact h
    · exact h
  | blockOn =>
    unfold beginPromise
    dsimp only
    split
    · exact h.record _
    · exact h
  | _ => exact h

theorem beginMaker_every (closed : Queue.Closed P) (h : w.Every P) (handle : String) (m : Maker) :
    (beginMaker w held handle m).world.Every P := by
  have added := h.addCompletion closed
  cases m with
  | cell =>
    have made : (w.addCell {}).1.Every P := h.of_eq rfl rfl
    exact made.bind closed held handle _
  | queue => exact (h.addQueue closed).bind closed held handle _
  | completion => exact added.bind closed held handle _
  | waker body =>
    have made : (w.addWaker { name := handle, body }).1.Every P := h.of_eq rfl rfl
    exact made.bind closed held handle _
  | context settings => exact h.bind closed held handle _
  | deferred context =>
    cases context with
    | none => exact added.bind closed held handle _
    | some name =>
      unfold beginMaker
      dsimp only
      split
      · exact added.bind closed held handle _
      · exact h
  | pair promise => exact (added.bind closed held handle _).bindPromise closed held promise _ _
  | settled o =>
    have offered := added.record (.offered (.completion w.completions.size) o)
    have settled := (offered.setCompletion w.completions.size (x :=
      { (w.addCompletion {}).1.completion w.completions.size with
        cell := (((w.addCompletion {}).1.completion w.completions.size).cell.tryCommit o).1 })
      (offered.completion _)).record (.settled (.completion w.completions.size) o)
    exact settled.bindPromise closed held handle _ _

theorem begin_every (closed : Queue.Closed P) (h : w.Every P) (act : Act) :
    (begin w held act).world.Every P := by
  cases act with
  | create handle m => exact beginMaker_every closed h handle m
  | discard handle =>
    unfold begin
    dsimp only
    split
    next unbinds => exact h.unbind closed unbinds
    next => exact h
  | onCell handle op =>
    unfold begin
    dsimp only
    split
    · cases op with
      | tryCommit o => exact h.of_eq rfl rfl
      | read r => exact every_read h _ r
      | describe _ | faulty _ => exact h
    · exact h
  | onQueue handle op =>
    unfold begin
    dsimp only
    split
    · exact beginQueue_every closed h _ op
    · exact h
  | onCompletion handle op =>
    unfold begin
    dsimp only
    split
    · exact beginCompletion_every h _ op
    · exact h
  | onContext handle op =>
    unfold begin
    dsimp only
    split
    · cases op with
      | clone handle => exact h.bind closed held handle _
      | profile | describe _ | faulty _ => exact h
    · exact h
  | onDeferred handle op =>
    unfold begin
    dsimp only
    split
    · exact beginDeferred_every closed h _ _ op
    · exact h
  | onPromise handle op =>
    unfold begin
    dsimp only
    split
    · exact beginPromise_every closed h _ _ _ op
    · exact h
  | _ => exact h

end Beginnings

namespace Machine

/-! ## One step of a run -/

section Steps

variable {w : World} {below : List Frame}

theorem dispose_every (h : w.Every P) (below : List Frame) (p : Panic) :
    (dispose w below p).world.Every P := by
  unfold dispose
  split
  next i _ => exact h.wake i
  next => exact h

theorem call_every (h : w.Every P) (below : List Frame) (c : CompletionId) (x : Item) :
    (call w below c x).world.Every P := by
  cases x with
  | callback cb guard => cases guard <;> exact h
  | countdown k name n => cases n <;> exact h
  | waker i => exact h.wake i
  | relay watch =>
    have taken : (w.setSite c ((w.site c).takeWaker watch).1).Every P :=
      (h.setCompletion c (h.completion c)).of_eq rfl rfl
    unfold call
    dsimp only
    split
    next s idle =>
      rw [idle] at taken
      exact taken
    next s i stored =>
      rw [stored] at taken
      exact taken.wake i

theorem drive_every (closed : Queue.Closed P) (h : w.Every P) (below : List Frame)
    (c : CompletionId) (here : Site.Point Value Item WakerId) :
    (drive w below c here).world.Every P := by
  have does := Site.step_does (w.site c) here
  unfold drive
  rcases hstep : (w.site c).step here with ⟨s, action⟩
  rw [hstep] at does
  have chains : s.completion.Every P := by
    obtain ⟨_, _, -, inner, -⟩ | ⟨same, -⟩ := does.inner_or_idle
    · exact inner.every closed (h.completion c)
    · exact same ▸ h.completion c
  have set : (w.setSite c s).Every P := (h.setCompletion c chains).of_eq rfl rfl
  cases action with
  | goto p | refused side st => exact set
  | notice n p => cases n <;> exact set.record _
  | call k x arg p => exact call_every (set.record _) _ c x
  | done a => rcases a with (_ | _ | _) | _ | _ <;> first | exact set | exact set.record _

theorem probe_every (closed : Queue.Closed P) (h : w.Every P) (below : List Frame) (q : Nat)
    (t : Test) (n : Nat) (v : Value) : (probe w below q t n v).world.Every P := by
  unfold probe
  split
  · exact h.record _
  · exact (h.record _).record _
  · have taken := ((h.record (.tested v false)).record (.discarded q v)).take? closed q
    split
    next empty =>
      rw [empty] at taken
      exact taken
    next full =>
      rw [full] at taken
      exact taken

theorem resume_every (closed : Queue.Closed P) (h : w.Every P) (frame : Frame) :
    (resume w below frame).world.Every P := by
  cases frame with
  | session watched rest | body label rest =>
    cases rest with
    | nil => exact h
    | cons step rest => exact begin_every closed h step.act
  | repeating count script => cases count <;> exact h
  | driving c here => exact drive_every closed h below c here
  | chaining c ctx rest => cases rest <;> exact h
  | probing q t n v => exact probe_every closed h below q t n v
  | catching | holding _ | settling _ _ | guarding _ _ | dropping _ | ending _ => exact h

theorem receive_every (closed : Queue.Closed P) (h : w.Every P) (r : Reply) (frame : Frame) :
    (receive w below r frame).world.Every P := by
  cases frame with
  | session watched rest => exact h.record _
  | body label rest => exact h.record _
  | ending label => exact h.record _
  | holding ref => exact h.release closed _ ref
  | settling c s =>
    unfold receive
    dsimp only
    split
    · exact h.record _
    · exact h
  | probing q t n v => exact probe_every closed h below q t n v
  | dropping payload => exact dispose_every h below payload
  | catching | guarding _ _ | repeating _ _ | driving _ _ | chaining _ _ _ => exact h

theorem unwind_every (closed : Queue.Closed P) (h : w.Every P) (p : Panic) (frame : Frame) :
    (unwind w below p frame).world.Every P := by
  cases frame with
  | session watched rest => exact h.record _
  | holding ref => exact h.release closed _ ref
  | guarding c ctx =>
    unfold unwind contain
    dsimp only
    split
    · exact h
    · split
      · exact dispose_every (h.record _) below p
      · exact (h.record _).record _
  | dropping payload =>
    unfold unwind
    dsimp only
    split
    · exact h
    · exact dispose_every h _ payload
  | probing q t n v => exact h.record _
  | chaining c ctx rest => exact h.record _
  | catching | body _ _ | repeating _ _ | driving _ _ | settling _ _ | ending _ => exact h

end Steps

theorem step_every (closed : Queue.Closed P) {m : Machine} (h : m.world.Every P) :
    m.step.world.Every P := by
  unfold step
  split
  next => exact h
  next frame below _ =>
    cases m.control with
    | resume => exact resume_every closed h frame
    | answer r => exact receive_every closed h r frame
    | faulty f => cases frame <;> first | exact h | exact h.record _
    | unwind p => exact unwind_every closed h p frame

/-- Whatever the empty queue has and appends and takes keep, all queues of a run have. -/
theorem moment_every (closed : Queue.Closed P) (watched : List String) (script : Script) (n : Nat) :
    (moment watched script n).world.Every P := by
  induction n with
  | zero => exact .empty closed
  | succ n ih =>
    rw [moment_succ]
    exact step_every closed ih

/-- No lock of a queue is held while other code is in control. One thread makes calls on a queue
inside each other as it likes, from predicates and from payloads that are dropped, and panics where
it likes: whenever no call is in control nothing is locked, and a call in control gets each lock at
once, never begins again, and soon gives control back. And in any run, at every moment, each queue
and each queue of a completion has been made by such a thread from an empty queue, and such a thread
may go on with it. -/
theorem no_lock_held_in_foreign_code {α : Type} (watched : List String) (script : Script) (n : Nat) :
    ({} : Queue α).NeverBlocks ∧
    (moment watched script n).world.Every fun q =>
      Queue.Reached {} { queue := q } ∧ q.NeverBlocks := by
  have made : Queue.Closed fun q => Queue.Reached {} { queue := q } :=
    ⟨.refl, fun x h => h.trans (Queue.reached_append _ x), fun h => h.trans (Queue.reached_take? _)⟩
  have rested : ∀ {α : Type} {q : Queue α}, Queue.Reached {} { queue := q } → q.AtRest :=
    fun reached => (Queue.Nest.tidy_of_reached .empty reached).calm
  have every := moment_every made watched script n
  refine ⟨Queue.AtRest.empty.neverBlocks, fun q => ?_, fun c k => ?_⟩
  · exact ⟨every.queue q, (rested (every.queue q)).neverBlocks⟩
  · exact ⟨every.completion c k, (rested (every.completion c k)).neverBlocks⟩

end Machine

end Eventual
