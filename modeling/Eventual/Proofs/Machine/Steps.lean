import Eventual.Proofs.Machine.ExactlyOnce

/-!
# What one step of a run does

A step of a run is either a step of a call on a completion, which is `Drives`, or it
calls and registers nothing, which is `Idles`. In both cases the frames below the
topmost one stay as they are; what comes above them are frames that begin, or the one
that was there; and if nothing comes above them they are handed an answer or a panic.
So a piece of code has the stack below it to itself until it comes back.

While the frames below hold a completion, an idle step leaves its queues alone, for the
accounts before and after are both exact, which is `Sound.waiting_eq_of_silent`.
-/

namespace Eventual

/-- A frame that begins: a call on a completion stands at its first point. -/
def Frame.Fresh : Frame → Prop
  | .driving _ p => ∃ call : Site.Call Value Item WakerId, p = call.start
  | _ => True

/-- The code above has come back, with an answer or with a panic. -/
def Control.Handed : Control → Prop
  | .answer _ | .unwind _ => True
  | .resume | .faulty _ => False

/-! ## Silent changes -/

namespace World

/-- Nothing was called or registered. -/
structure Silent (w w' : World) : Prop where
  called : ∀ c k, w'.called c k = w.called c k
  registered : ∀ c k, w'.registered c k = w.registered c k

namespace Silent

variable {w w' w'' : World} {held : List Ref}

theorem refl (w : World) : Silent w w := ⟨fun _ _ => rfl, fun _ _ => rfl⟩

theorem trans (h : Silent w w') (h' : Silent w' w'') : Silent w w'' :=
  ⟨fun c k => (h'.called c k).trans (h.called c k),
    fun c k => (h'.registered c k).trans (h.registered c k)⟩

theorem of_quiet (h : Quiet w w') : Silent w w' := ⟨h.called, h.registered⟩

/-- A change of anything but history. -/
theorem of_trail (h : w'.trail = w.trail) : Silent w w' := by
  constructor
  · intro c k
    simp only [World.called, history, h]
  · intro c k
    simp only [World.registered, history, h]

/-- Any other event than a call or a registration. -/
theorem record {e : Event} (h : ∀ c k, e.callsOn c k = [] ∧ e.registersWith c k = [])
    (w : World) : Silent w (w.record e) :=
  of_quiet (.record h w)

theorem release (w : World) (held : List Ref) (r : Ref) : Silent w (w.release held r) := by
  unfold World.release
  split
  next => exact .refl w
  next e _ =>
    split
    next => exact .refl w
    next =>
      have vacated : Silent w (w.vacate e) := .of_trail (by cases e <;> rfl)
      exact vacated.trans (.record (fun _ _ => ⟨rfl, rfl⟩) _)

theorem bind (w : World) (held : List Ref) (handle : String) (r : Ref) :
    Silent w (w.bind held handle r) := by
  have bound : Silent w { w with handles := (handle, r) :: unbound w.handles handle } :=
    .of_trail rfl
  unfold World.bind
  split
  next => exact bound
  next old _ => exact bound.trans (.release _ held old)

theorem unbind {handle : String} (h : w.unbind? held handle = some w') : Silent w w' := by
  obtain ⟨old, -, rfl⟩ := Option.map_eq_some_iff.1 h
  have unbound : Silent w { w with handles := unbound w.handles handle } := .of_trail rfl
  exact unbound.trans (.release _ held old)

theorem bindPromise (w : World) (held : List Ref) (handle : String) (c : CompletionId)
    (ctx : Context) : Silent w (w.bindPromise held handle c ctx) := by
  have watched : Silent w w.addWatch.1 := .of_trail rfl
  exact watched.trans (.bind _ held handle _)

end Silent

end World

open World

/-! ## Beginning a step -/

/-- Beginning a step calls and registers nothing, and what it starts is at its beginning. -/
structure Start.Begins (w : World) (s : Start) : Prop where
  silent : Silent w s.world
  fresh : ∀ frame ∈ s.frames, frame.Fresh

namespace Start

variable {w w' : World} {held : List Ref}

theorem Begins.of_nil {s : Start} (silent : Silent w s.world) (h : s.frames = []) : s.Begins w :=
  ⟨silent, by simp [h]⟩

theorem Begins.engage {r : Ref} {c : CompletionId} {awaiting : List Frame}
    (silent : Silent w w') (call : Site.Call Value Item WakerId)
    (fresh : ∀ frame ∈ awaiting, frame.Fresh) : (engage w' r c call awaiting).Begins w := by
  refine ⟨silent, ?_⟩
  intro frame hframe
  rcases List.mem_cons.1 hframe with rfl | later
  · exact ⟨call, rfl⟩
  · rcases List.mem_append.1 later with hawaiting | hholding
    · exact fresh frame hawaiting
    · obtain rfl := List.mem_singleton.1 hholding
      trivial

theorem Begins.read (silent : Silent w w') (cell : Cell Value) (r : Reading) :
    (read w' cell r).Begins w := by
  cases r with
  | state | flags | result => exact .of_nil silent rfl
  | demand s =>
    unfold Start.read
    dsimp only
    split
    next => exact .of_nil silent rfl
    next => exact .of_nil silent rfl

end Start

section Beginnings

variable (w : World) (held : List Ref) (c : CompletionId)

theorem beginCell_begins (i : Nat) (op : CellOp) : (beginCell w i op).Begins w := by
  cases op with
  | tryCommit o =>
    have offered : Silent w (w.record (.offered (.cell i) o)) :=
      .record (fun _ _ => ⟨rfl, rfl⟩) w
    have set : Silent (w.record (.offered (.cell i) o))
        ((w.record (.offered (.cell i) o)).setCell i ((w.cell i).tryCommit o).1) := .of_trail rfl
    exact .of_nil ((offered.trans set).trans
      (.record (fun _ _ => by split <;> exact ⟨rfl, rfl⟩) _)) rfl
  | read r => exact .read (.refl w) (w.cell i) r
  | describe _ | faulty _ => exact .of_nil (.refl w) rfl

theorem beginQueue_begins (q : Nat) (op : QueueOp) : (beginQueue w q op).Begins w := by
  have taken := Silent.of_quiet (quiet_take? w q)
  cases op with
  | append v => exact .of_nil (.of_quiet (quiet_append w q v)) rfl
  | appendRange start stop => exact .of_nil (.of_quiet (quiet_appendAll w q _)) rfl
  | popAll => exact .of_nil (.of_quiet (quiet_takeAll w q (w.queue q).length)) rfl
  | isEmpty | length | describe _ | faulty _ => exact .of_nil (.refl w) rfl
  | pop =>
    unfold beginQueue
    dsimp only
    split
    next w₁ h =>
      rw [h] at taken
      exact .of_nil taken rfl
    next w₁ v h =>
      rw [h] at taken
      exact .of_nil (taken.trans (.record (fun _ _ => ⟨rfl, rfl⟩) _)) rfl
  | popMatching body t =>
    unfold beginQueue
    dsimp only
    split
    next w₁ h =>
      rw [h] at taken
      exact .of_nil taken rfl
    next w₁ v h =>
      rw [h] at taken
      exact ⟨taken, by simp [Start.run, Frame.Fresh]⟩

theorem beginCompletion_begins (op : CompletionOp) : (beginCompletion w c op).Begins w := by
  have offered : ∀ o, Silent w (w.record (.offered (.completion c) o)) :=
    fun o => .record (fun _ _ => ⟨rfl, rfl⟩) w
  cases op with
  | tryCommit o | complete o => exact .engage (offered o) _ (List.forall_mem_nil _)
  | register k cb | registerCountdown k name n | drain s =>
    exact .engage (.refl w) _ (List.forall_mem_nil _)
  | registerWaker handle =>
    unfold beginCompletion
    dsimp only
    split
    next => exact .engage (.refl w) _ (List.forall_mem_nil _)
    next => exact .of_nil (.refl w) rfl
  | read r => exact .read (.refl w) _ r
  | describe _ | faulty _ => exact .of_nil (.refl w) rfl

theorem beginContext_begins (ctx : Context) (op : ContextOp) :
    (beginContext w held ctx op).Begins w := by
  cases op with
  | clone handle => exact .of_nil (.bind w held handle _) rfl
  | profile | describe _ | faulty _ => exact .of_nil (.refl w) rfl

theorem beginDeferred_begins (ctx : Context) (op : DeferredOp) :
    (beginDeferred w held c ctx op).Begins w := by
  cases op with
  | settle o =>
    exact .engage (.record (fun _ _ => ⟨rfl, rfl⟩) w) _ (List.forall_mem_singleton.2 trivial)
  | promise handle => exact .of_nil (.bindPromise w held handle c ctx) rfl
  | clone handle => exact .of_nil (.bind w held handle _) rfl
  | profile | describe _ | faulty _ => exact .of_nil (.refl w) rfl

theorem beginPromise_begins (ctx : Context) (watch : WatchId) (op : PromiseOp) :
    (beginPromise w held c ctx watch op).Begins w := by
  cases op with
  | register k cb => exact .engage (.refl w) _ (List.forall_mem_nil _)
  | chained first onFirst onOther always =>
    exact ⟨.refl w, by simp [Start.run, beginPromise, Frame.Fresh]⟩
  | flags => exact Start.Begins.read (.refl w) (w.completion c).cell .flags
  | clone handle => exact .of_nil (.bindPromise w held handle c ctx) rfl
  | poll handle =>
    unfold beginPromise
    dsimp only
    split
    next =>
      split
      next => exact .of_nil (.refl w) rfl
      next => exact .engage (.refl w) _ (List.forall_mem_nil _)
    next => exact .of_nil (.refl w) rfl
  | blockOn =>
    unfold beginPromise
    dsimp only
    split
    next => exact .of_nil (.record (fun _ _ => ⟨rfl, rfl⟩) w) rfl
    next => exact .of_nil (.refl w) rfl
  | profile | describe _ | faulty _ => exact .of_nil (.refl w) rfl

theorem beginMaker_begins (handle : String) (m : Maker) :
    (beginMaker w held handle m).Begins w := by
  have born : Silent w (w.addCompletion {}).1 := .of_trail rfl
  cases m with
  | cell =>
    have added : Silent w (w.addCell {}).1 := .of_trail rfl
    exact .of_nil (added.trans (.bind _ held handle _)) rfl
  | queue =>
    have added : Silent w (w.addQueue {}).1 := .of_trail rfl
    exact .of_nil (added.trans (.bind _ held handle _)) rfl
  | waker body =>
    have added : Silent w (w.addWaker { name := handle, body }).1 := .of_trail rfl
    exact .of_nil (added.trans (.bind _ held handle _)) rfl
  | completion => exact .of_nil (born.trans (.bind _ held handle _)) rfl
  | context settings => exact .of_nil (.bind w held handle _) rfl
  | deferred context =>
    cases context with
    | none => exact .of_nil (born.trans (.bind _ held handle _)) rfl
    | some name =>
      unfold beginMaker
      dsimp only
      split
      next => exact .of_nil (born.trans (.bind _ held handle _)) rfl
      next => exact .of_nil (.refl w) rfl
  | pair promise =>
    exact .of_nil ((born.trans (.bind _ held handle _)).trans (.bindPromise _ held promise _ _)) rfl
  | settled o =>
    let w₁ := (w.addCompletion {}).1
    let c := w.completions.size
    let w₂ := w₁.record (.offered (.completion c) o)
    let w₃ := w₂.setCompletion c
      { w₂.completion c with cell := ((w₂.completion c).cell.tryCommit o).1 }
    let w₄ := w₃.record (.settled (.completion c) o)
    have offered : Silent w₁ w₂ := .record (fun _ _ => ⟨rfl, rfl⟩) w₁
    have set : Silent w₂ w₃ := .of_trail rfl
    have noted : Silent w₃ w₄ := .record (fun _ _ => ⟨rfl, rfl⟩) w₃
    exact .of_nil ((((born.trans offered).trans set).trans noted).trans
      (.bindPromise _ held handle c {})) rfl

theorem begin_begins (act : Act) : (begin w held act).Begins w := by
  cases act with
  | attempt body => exact ⟨.refl w, by simp [begin, Start.run, Frame.Fresh]⟩
  | iterate count body => exact ⟨.refl w, by simp [begin, Start.run, Frame.Fresh]⟩
  | create handle m => exact beginMaker_begins w held handle m
  | faulty _ | raise _ | compare _ _ _ | onUnknown _ => exact .of_nil (.refl w) rfl
  | discard handle =>
    unfold begin
    dsimp only
    split
    next w' h => exact .of_nil (.unbind h) rfl
    next => exact .of_nil (.refl w) rfl
  | onCell handle op =>
    unfold begin
    dsimp only
    split
    next i _ => exact beginCell_begins w i op
    next => exact .of_nil (.refl w) rfl
  | onQueue handle op =>
    unfold begin
    dsimp only
    split
    next q _ => exact beginQueue_begins w q op
    next => exact .of_nil (.refl w) rfl
  | onCompletion handle op =>
    unfold begin
    dsimp only
    split
    next c _ => exact beginCompletion_begins w c op
    next => exact .of_nil (.refl w) rfl
  | onContext handle op =>
    unfold begin
    dsimp only
    split
    next ctx _ => exact beginContext_begins w held ctx op
    next => exact .of_nil (.refl w) rfl
  | onDeferred handle op =>
    unfold begin
    dsimp only
    split
    next c ctx _ => exact beginDeferred_begins w held c ctx op
    next => exact .of_nil (.refl w) rfl
  | onPromise handle op =>
    unfold begin
    dsimp only
    split
    next c ctx watch _ => exact beginPromise_begins w held c ctx watch op
    next => exact .of_nil (.refl w) rfl

end Beginnings

/-! ## Idle steps -/

namespace Machine

/-- What a step does that is not one of a call on a completion. -/
structure Idles (w : World) (frame : Frame) (below : List Frame) (m : Machine) : Prop where
  silent : Silent w m.world
  stack : ∃ frames, m.stack = frames ++ below ∧ (∀ f ∈ frames, f = frame ∨ f.Fresh) ∧
    (frames = [] → m.control.Handed)

section Frames

variable {w w' : World} {frame : Frame} {below : List Frame} {c : CompletionId}

theorem Idles.hand (silent : Silent w w') (r : Reply) : Idles w frame below (hand w' below r) :=
  ⟨silent, [], rfl, List.forall_mem_nil _, fun _ => trivial⟩

theorem Idles.raise (silent : Silent w w') (p : Panic) : Idles w frame below (raise w' below p) :=
  ⟨silent, [], rfl, List.forall_mem_nil _, fun _ => trivial⟩

/-- One frame comes above those below. -/
theorem Idles.goOn {f : Frame} {control : Control} (silent : Silent w w')
    (fresh : f = frame ∨ f.Fresh) :
    Idles w frame below { world := w', stack := f :: below, control } :=
  ⟨silent, [f], rfl, List.forall_mem_singleton.2 fresh, nofun⟩

theorem Idles.enter (f : Frame) (fresh : f.Fresh) (act : Act) :
    Idles w frame below (enter w (f :: below) act) := by
  have begins := begin_begins w (heldBy (f :: below)) act
  refine ⟨begins.silent, (begin w (heldBy (f :: below)) act).frames ++ [f], ?_, ?_, ?_⟩
  · rw [List.append_assoc]
    rfl
  · intro f' hf'
    rcases List.mem_append.1 hf' with started | last
    · exact .inr (begins.fresh f' started)
    · obtain rfl := List.mem_singleton.1 last
      exact .inr fresh
  · intro none
    cases (List.append_eq_nil_iff.1 none).2

theorem conclude_silent (w : World) (watched : List String) (v : Verdict) :
    Silent w (conclude w watched v) :=
  .record (fun _ _ => ⟨rfl, rfl⟩) w

theorem probe_idles (w : World) (below : List Frame) (q : Nat) (t : Test) (n : Nat) (v : Value) :
    Idles w frame below (probe w below q t n v) := by
  unfold probe
  split
  next => exact .raise (.record (fun _ _ => ⟨rfl, rfl⟩) w) _
  next =>
    have tested : Silent w (w.record (.tested v true)) := .record (fun _ _ => ⟨rfl, rfl⟩) w
    exact .hand (tested.trans (.record (fun _ _ => ⟨rfl, rfl⟩) _)) _
  next =>
    have tested : Silent w (w.record (.tested v false)) := .record (fun _ _ => ⟨rfl, rfl⟩) w
    have discarded : Silent w ((w.record (.tested v false)).record (.discarded q v)) :=
      tested.trans (.record (fun _ _ => ⟨rfl, rfl⟩) _)
    have taken := discarded.trans (.of_quiet (quiet_take? _ q))
    split
    next w' h =>
      rw [h] at taken
      exact .hand taken _
    next w' v' h =>
      rw [h] at taken
      exact .goOn taken (.inr trivial)

theorem chain_idles (w : World) (below : List Frame) (c : CompletionId) (ctx : Context)
    (rest : List (Kind × Callback)) : Idles w frame below (chain w below c ctx rest) := by
  cases rest with
  | nil => exact .hand (.refl w) _
  | cons entry rest =>
    refine ⟨.refl w, [.driving c _, .chaining c ctx rest], rfl, ?_, nofun⟩
    intro f hf
    rcases List.mem_cons.1 hf with rfl | hf
    · exact .inr ⟨_, rfl⟩
    · obtain rfl := List.mem_singleton.1 hf
      exact .inr trivial

/-- A frame that was put below for the step has come above those further below. -/
theorem Idles.of_cons {f : Frame} {m : Machine} (h : Idles w frame (f :: below) m)
    (fresh : f.Fresh) : Idles w frame below m := by
  obtain ⟨frames, hstack, hframes, -⟩ := h.stack
  refine ⟨h.silent, frames ++ [f], hstack.trans (List.append_cons ..), ?_, fun none => ?_⟩
  · intro f' hf'
    obtain started | last := List.mem_append.1 hf'
    · exact hframes f' started
    · exact .inr (List.mem_singleton.1 last ▸ fresh)
  · cases (List.append_eq_nil_iff.1 none).2

theorem dispose_idles (silent : Silent w w') (below : List Frame) (p : Panic) :
    Idles w frame below (dispose w' below p) := by
  unfold dispose
  split
  next i _ => exact .goOn (silent.trans (.of_quiet (quiet_wake w' i))) (.inr trivial)
  next => exact .hand silent _

theorem contain_idles (w : World) (below : List Frame) (c : CompletionId) (ctx : Context)
    (p : Panic) : Idles w frame below (contain w below c ctx p) := by
  have logged : Silent w (w.record (.logged c (.contained ctx.label p))) :=
    .record (fun _ _ => ⟨rfl, rfl⟩) w
  unfold contain
  dsimp only
  split
  next => exact dispose_idles logged below p
  next h _ =>
    have reported := logged.trans (.record (e := .reported h.name p) (fun _ _ => ⟨rfl, rfl⟩) _)
    exact .of_cons (.goOn reported (.inr trivial)) trivial

theorem resume_idles (w : World) (below : List Frame)
    (idle : ∀ c here, frame ≠ .driving c here) : Idles w frame below (resume w below frame) := by
  cases frame with
  | session watched rest =>
    cases rest with
    | nil => exact .hand (.refl w) _
    | cons step rest => exact .enter (.session watched rest) trivial _
  | body label rest =>
    cases rest with
    | nil => exact .hand (.refl w) _
    | cons step rest => exact .enter (.body step.label rest) trivial _
  | repeating count script =>
    cases count with
    | zero => exact .hand (.refl w) _
    | succ n =>
      exact ⟨.refl w, [.body "" script, .repeating n script], rfl, by simp [Frame.Fresh], nofun⟩
  | driving c here => exact absurd rfl (idle c here)
  | chaining c ctx rest => exact chain_idles w below c ctx rest
  | probing q t n v => exact probe_idles w below q t n v
  | catching | holding _ | settling _ _ | guarding _ _ | dropping _ | ending _ =>
    exact .hand (.refl w) _

theorem receive_idles (w : World) (below : List Frame) (r : Reply) (frame : Frame) :
    Idles w frame below (receive w below r frame) := by
  cases frame with
  | session watched rest => exact .goOn (conclude_silent w watched _) (.inl rfl)
  | body label rest => exact .goOn (.record (fun _ _ => ⟨rfl, rfl⟩) w) (.inl rfl)
  | holding ref => exact .hand (.release w _ ref) _
  | settling c s =>
    simp only [receive]
    split
    next => exact .hand (.record (fun _ _ => ⟨rfl, rfl⟩) w) _
    next => exact .hand (.refl w) _
  | ending label => exact .hand (.record (fun _ _ => ⟨rfl, rfl⟩) w) _
  | probing q t n v => exact probe_idles w below q t n v
  | catching | guarding _ _ => exact .hand (.refl w) _
  | dropping payload => exact dispose_idles (.refl w) below payload
  | driving c here | chaining c ctx rest | repeating count script =>
    exact .goOn (.refl w) (.inl rfl)

theorem reject_idles (w : World) (below : List Frame) (f : Fault) (frame : Frame) :
    Idles w frame below (reject w below f frame) := by
  cases frame with
  | session watched rest => exact .goOn (conclude_silent w watched _) (.inl rfl)
  | body label rest => exact .goOn (.record (fun _ _ => ⟨rfl, rfl⟩) w) (.inl rfl)
  | _ => exact .goOn (.refl w) (.inl rfl)

theorem unwind_idles (w : World) (below : List Frame) (p : Panic) (frame : Frame) :
    Idles w frame below (unwind w below p frame) := by
  cases frame with
  | session watched rest => exact .goOn (conclude_silent w watched _) (.inl rfl)
  | catching => exact .hand (.refl w) _
  | holding ref => exact .raise (.release w _ ref) _
  | guarding c ctx =>
    simp only [unwind]
    split
    next => exact .raise (.refl w) _
    next => exact contain_idles w below c ctx p
  | dropping payload =>
    simp only [unwind]
    split
    next => exact .raise (.refl w) _
    next => exact .of_cons (dispose_idles (.refl w) _ payload) trivial
  | probing q t n v => exact .raise (.record (fun _ _ => ⟨rfl, rfl⟩) w) _
  | chaining c ctx rest => exact .raise (.record (fun _ _ => ⟨rfl, rfl⟩) w) _
  | body _ _ | repeating _ _ | driving _ _ | settling _ _ | ending _ => exact .raise (.refl w) _

end Frames

/-! ## Steps of calls on completions -/

/-- Where an action of a call on a completion leads: the stack, and what its topmost
frame is told. -/
inductive Leads (c : CompletionId) (below : List Frame) :
    Action Value Item (Site.Point Value Item WakerId) (Site.Answer Value) →
      List Frame → Control → Prop
  | goto {p} : Leads c below (.goto p) (.driving c p :: below) .resume
  | notice {n p} : Leads c below (.notice n p) (.driving c p :: below) .resume
  | call {k x arg p frames control} : (∀ f ∈ frames, f.Fresh) →
      (frames = [] → control.Handed) →
      Leads c below (.call k x arg p) (frames ++ .driving c p :: below) control
  | done {a r} : Leads c below (.done a) below (.answer r)
  | refused {s st} : Leads c below (.refused s st) below (.unwind (.refused s st))

/-- What a step of a call on a completion does. -/
structure Drives (w : World) (c : CompletionId) (here : Site.Point Value Item WakerId)
    (below : List Frame) (m : Machine) (s : Site Value Item WakerId)
    (action : Action Value Item (Site.Point Value Item WakerId) (Site.Answer Value)) : Prop where
  does : Site.Does (w.site c) here s action
  called : ∀ c' k, m.world.called c' k = w.called c' k ++ if c = c' then action.called k else []
  registered : ∀ c' k,
    m.world.registered c' k = w.registered c' k ++ if c = c' then action.registered k else []
  this : m.world.completion c = s.completion
  others : ∀ c', c' ≠ c → m.world.completion c' = w.completion c'
  leads : Leads c below action m.stack m.control

section Drive

variable {w w' : World} {below : List Frame} {c : CompletionId}

/-- The call of an item begins above the frames below, or is over at once. -/
theorem call_begins (alive : w.Alive c) (below : List Frame) (x : Item) :
    Quiet w (call w below c x).world ∧
      ∃ frames, (call w below c x).stack = frames ++ below ∧ (∀ f ∈ frames, f.Fresh) ∧
        (frames = [] → (call w below c x).control.Handed) := by
  have woken : ∀ w' i, Quiet w w' → Quiet w (wake w' below i).world ∧
      ∃ frames, (wake w' below i).stack = frames ++ below ∧ (∀ f ∈ frames, f.Fresh) ∧
        (frames = [] → (wake w' below i).control.Handed) := fun w' i quiet =>
    ⟨quiet.trans (quiet_wake w' i), [.body "" _], rfl, List.forall_mem_singleton.2 trivial, nofun⟩
  cases x with
  | callback cb guard =>
    cases guard with
    | none =>
      exact ⟨.refl w, [.body "" cb.body], rfl, List.forall_mem_singleton.2 trivial, nofun⟩
    | some ctx =>
      exact ⟨.refl w, [.body "" cb.body, .guarding c ctx], rfl, by simp [Frame.Fresh], nofun⟩
  | countdown k name n =>
    cases n with
    | zero =>
      exact ⟨.refl w, [.ending _], rfl, List.forall_mem_singleton.2 trivial, nofun⟩
    | succ n =>
      refine ⟨.refl w, [.driving c _, .ending _], rfl, ?_, nofun⟩
      intro f hf
      rcases List.mem_cons.1 hf with rfl | hf
      · exact ⟨_, rfl⟩
      · obtain rfl := List.mem_singleton.1 hf
        trivial
  | waker i => exact woken w i (.refl w)
  | relay watch =>
    have quiet : Quiet w (w.setSite c ((w.site c).takeWaker watch).1) := quiet_setSite alive _
    unfold call
    dsimp only
    split
    next s h =>
      rw [h] at quiet
      exact ⟨quiet, [], rfl, List.forall_mem_nil _, fun _ => trivial⟩
    next s i h =>
      rw [h] at quiet
      exact woken _ i quiet

theorem deliver_answers (w : World) (below : List Frame) (c : CompletionId)
    (a : Site.Answer Value) :
    Quiet w (deliver w below c a).world ∧ (deliver w below c a).stack = below ∧
      ∃ r, (deliver w below c a).control = .answer r := by
  cases a with
  | direct a =>
    cases a with
    | lost o => exact ⟨.record (fun _ _ => ⟨rfl, rfl⟩) w, rfl, _, rfl⟩
    | unit | won => exact ⟨.refl w, rfl, _, rfl⟩
  | ready o => exact ⟨.record (fun _ _ => ⟨rfl, rfl⟩) w, rfl, _, rfl⟩
  | pending => exact ⟨.refl w, rfl, _, rfl⟩

theorem completion_setSite (alive : w.Alive c) (s : Site Value Item WakerId) :
    (w.setSite c s).completion c = s.completion ∧
      ∀ c', c' ≠ c → (w.setSite c s).completion c' = w.completion c' := by
  constructor
  · exact completion_eq (Array.getElem?_setIfInBounds_self_of_lt alive.lt_size)
  · intro c' hc'
    simp only [World.completion, World.setSite, World.setCompletion,
      Array.getElem?_setIfInBounds_ne fun e => hc' e.symm]

/-- A step that calls and registers nothing, up to what is quiet. -/
theorem Drives.of_quiet {here : Site.Point Value Item WakerId} {m : Machine}
    {s : Site Value Item WakerId}
    {action : Action Value Item (Site.Point Value Item WakerId) (Site.Answer Value)}
    (alive : w.Alive c) (does : Site.Does (w.site c) here s action)
    (silent : ∀ k, action.called k = [] ∧ action.registered k = [])
    (quiet : Quiet (w.setSite c s) m.world) (leads : Leads c below action m.stack m.control) :
    Drives w c here below m s action := by
  obtain ⟨this, others⟩ := completion_setSite alive s
  refine ⟨does, ?_, ?_, (quiet.completion c).trans this,
    fun c' hc' => (quiet.completion c').trans (others c' hc'), leads⟩
  · intro c' k
    rw [quiet.called, (silent k).1, ite_self, List.append_nil]
    rfl
  · intro c' k
    rw [quiet.registered, (silent k).2, ite_self, List.append_nil]
    rfl

/-- A step of a call does what the step of its routine says. -/
theorem drive_step_drives (alive : w.Alive c) (below : List Frame)
    (here : Site.Point Value Item WakerId) :
    Drives w c here below (drive w below c here) ((w.site c).step here).1
      ((w.site c).step here).2 := by
  have does := Site.step_does (w.site c) here
  rcases h : (w.site c).step here with ⟨s, action⟩
  rw [h] at does
  obtain ⟨this, others⟩ := completion_setSite alive s
  unfold drive
  simp only [h]
  cases action with
  | goto p => exact .of_quiet alive does (fun _ => ⟨rfl, rfl⟩) (.refl _) .goto
  | notice n p =>
    cases n with
    | registered k x =>
      refine ⟨does, ?_, ?_, this, others, .notice⟩
      · intro c' k'
        simp only [goOn, notice, called_record, Action.called, ite_self]
        rfl
      · intro c' k'
        simp only [goOn, notice, registered_record]
        rfl
    | settled o | logged r =>
      exact .of_quiet alive does (fun _ => ⟨rfl, rfl⟩) (.record (fun _ _ => ⟨rfl, rfl⟩) _) .notice
  | call k x arg p =>
    have alive' : ((w.setSite c s).record (.started c k x arg)).Alive c :=
      alive.setCompletion s.completion
    obtain ⟨quiet, frames, stack, fresh, handed⟩ := call_begins alive' (.driving c p :: below) x
    refine ⟨does, ?_, ?_, (quiet.completion c).trans this,
      fun c' hc' => (quiet.completion c').trans (others c' hc'), ?_⟩
    · intro c' k'
      rw [quiet.called, called_record]
      rfl
    · intro c' k'
      rw [quiet.registered, registered_record, Action.registered, ite_self]
      rfl
    · dsimp only
      rw [stack]
      exact .call fresh handed
  | done a =>
    obtain ⟨quiet, stack, r, control⟩ := deliver_answers (w.setSite c s) below c a
    refine .of_quiet alive does (fun _ => ⟨rfl, rfl⟩) quiet ?_
    dsimp only
    rw [stack, control]
    exact .done
  | refused side st => exact .of_quiet alive does (fun _ => ⟨rfl, rfl⟩) (.refl _) .refused

theorem drive_drives (alive : w.Alive c) (below : List Frame)
    (here : Site.Point Value Item WakerId) :
    ∃ s action, Drives w c here below (drive w below c here) s action :=
  ⟨_, _, drive_step_drives alive below here⟩

end Drive

/-! ## Runs -/

section Runs

variable {m : Machine}

theorem step_of_isOver (h : m.isOver = true) : m.step = m := by
  unfold step
  rw [List.isEmpty_iff.1 h]

theorem runFor_of_isOver (h : m.isOver = true) (n : Nat) : runFor n m = m := by
  cases n with
  | zero => rfl
  | succ n => rw [runFor, if_pos h]

/-- A run is one step after another. -/
theorem runFor_succ (n : Nat) (m : Machine) : runFor (n + 1) m = (runFor n m).step := by
  induction n generalizing m with
  | zero =>
    simp only [runFor]
    split
    next ended => exact (step_of_isOver ended).symm
    next => rfl
  | succ n ih =>
    rw [runFor]
    split
    next ended => rw [runFor_of_isOver ended, step_of_isOver ended]
    next running =>
      rw [ih m.step, runFor, if_neg running]

/-- A step of a run that stands on frames is an idle one, or one of a call on a completion. -/
theorem Sound.step_cases (h : m.Sound) {frame : Frame} {below : List Frame}
    (hstack : m.stack = frame :: below) :
    (Idles m.world frame below m.step ∧
      ¬ (m.control = .resume ∧ ∃ c here, frame = .driving c here)) ∨
    ∃ c here s action, m.control = .resume ∧ frame = .driving c here ∧
      Drives m.world c here below m.step s action := by
  obtain ⟨w, stack, control⟩ := m
  obtain ⟨sound, stands⟩ := h
  dsimp only at hstack
  subst hstack
  cases control with
  | resume =>
    by_cases driving : ∃ c here, frame = .driving c here
    · obtain ⟨c, here, rfl⟩ := driving
      have alive : w.Alive c := sound.held (stands.1.1.cons (.driving c here))
      obtain ⟨s, action, drives⟩ := drive_drives alive below here
      exact .inr ⟨c, here, s, action, rfl, rfl, drives⟩
    · exact .inl ⟨resume_idles w below fun c here e => driving ⟨c, here, e⟩,
        fun both => driving both.2⟩
  | answer r => exact .inl ⟨receive_idles w below r frame, fun both => nomatch both.1⟩
  | faulty f => exact .inl ⟨reject_idles w below f frame, fun both => nomatch both.1⟩
  | unwind p => exact .inl ⟨unwind_idles w below p frame, fun both => nomatch both.1⟩

/-- A step that calls an item is a step of the drain that takes it. -/
theorem Sound.of_called (h : m.Sound) {c : CompletionId} {k : Kind}
    (starts : m.step.world.called c k ≠ m.world.called c k) :
    ∃ here below s x arg p, m.stack = .driving c here :: below ∧
      Drives m.world c here below m.step s (.call k x arg p) := by
  cases hstack : m.stack with
  | nil =>
    rw [step_of_isOver (List.isEmpty_iff.2 hstack)] at starts
    exact absurd rfl starts
  | cons frame below =>
    rcases h.step_cases hstack with ⟨idles, -⟩ | ⟨c', here, s, action, -, rfl, drives⟩
    · exact absurd (idles.silent.called c k) starts
    · have called := drives.called c k
      by_cases hc : c' = c
      · subst hc
        have new : action.called k ≠ [] := by
          intro none
          rw [if_pos rfl, none, List.append_nil] at called
          exact starts called
        obtain ⟨x, arg, p, rfl⟩ := Action.of_called_ne_nil new
        exact ⟨here, below, s, x, arg, p, rfl, drives⟩
      · rw [if_neg hc, List.append_nil] at called
        exact absurd called starts

/-- A call on a completion that is under way finds it alive, and what it has seen of the
cell is true. -/
theorem Sound.of_driving (h : m.Sound) {c : CompletionId} {p : Site.Point Value Item WakerId}
    (hp : .driving c p ∈ m.stack) :
    m.world.Alive c ∧ p.Fits (m.world.completion c).cell := by
  have waits : ∀ {stack : List Frame}, Waiting m.world stack → .driving c p ∈ stack →
      Holds (heldBy stack) c ∧ p.Fits (m.world.completion c).cell := by
    intro stack waiting hmem
    induction stack with
    | nil => cases hmem
    | cons frame below ih =>
      rcases List.mem_cons.1 hmem with rfl | later
      · exact ⟨waiting.1.1.cons _, waiting.1.2.1⟩
      · obtain ⟨holds, fits⟩ := ih waiting.2 later
        exact ⟨holds.cons _, fits⟩
  obtain ⟨sound, stands⟩ := h
  generalize m.stack = stack at hp sound stands
  cases stack with
  | nil => cases hp
  | cons frame below =>
    rcases List.mem_cons.1 hp with rfl | later
    · exact ⟨sound.held (stands.1.1.cons _), stands.1.2⟩
    · obtain ⟨holds, fits⟩ := waits stands.2 later
      exact ⟨sound.held (holds.cons _), fits⟩

/-- An idle step leaves the queues alone of a completion that lives on. -/
theorem Sound.waiting_eq_of_silent {w w' : World} {held held' : List Ref} (h : w.Sound held)
    (h' : w'.Sound held') (silent : Silent w w') {c : CompletionId} (alive : w.Alive c)
    (alive' : w'.Alive c) (k : Kind) :
    (w'.completion c).waiting k = (w.completion c).waiting k := by
  have before := (h.exact alive.getElem?).order k
  have after := (h'.exact alive'.getElem?).order k
  rw [silent.called, silent.registered, ← before] at after
  exact List.append_cancel_left after

end Runs

/-! ## Code that comes back -/

/-- Code runs above the frames. -/
def Above (base : List Frame) (m : Machine) : Prop :=
  ∃ frame above, m.stack = frame :: (above ++ base)

/-- The code above the frames has come back to them, with an answer or with a panic. -/
structure Back (base : List Frame) (m : Machine) : Prop where
  stack : m.stack = base
  control : m.control.Handed

section Above

variable {m : Machine} {base : List Frame}

theorem Above.higher (h : Above base m) : base.length < m.stack.length := by
  obtain ⟨frame, above, hstack⟩ := h
  rw [hstack, List.length_cons, List.length_append]
  omega

theorem above_or_back {frames : List Frame} (hstack : m.stack = frames ++ base)
    (handed : frames = [] → m.control.Handed) : Above base m ∨ Back base m := by
  cases frames with
  | nil => exact .inr ⟨hstack, handed rfl⟩
  | cons frame above => exact .inl ⟨frame, above, hstack⟩

/-- A step of a call on a completion puts frames onto those below, or hands them something. -/
theorem Leads.stack_eq {c : CompletionId} {below stack : List Frame} {control : Control}
    {action : Action Value Item (Site.Point Value Item WakerId) (Site.Answer Value)}
    (h : Leads c below action stack control) :
    ∃ frames, stack = frames ++ below ∧ (frames = [] → control.Handed) := by
  cases h with
  | goto | notice => exact ⟨[_], rfl, nofun⟩
  | @call _ _ _ p frames _ fresh handed =>
    refine ⟨frames ++ [.driving c p], by simp, ?_⟩
    intro none
    cases (List.append_eq_nil_iff.1 none).2
  | done | refused => exact ⟨[], rfl, fun _ => trivial⟩

/-- A step leaves the frames below the topmost one as they are. -/
theorem Sound.keeps_below (h : m.Sound) {frame : Frame} {rest : List Frame}
    (hstack : m.stack = frame :: rest) :
    ∃ frames, m.step.stack = frames ++ rest ∧ (frames = [] → m.step.control.Handed) := by
  rcases h.step_cases hstack with ⟨idles, -⟩ | ⟨_, _, _, _, -, -, drives⟩
  · obtain ⟨frames, hstack', -, handed⟩ := idles.stack
    exact ⟨frames, hstack', handed⟩
  · exact drives.leads.stack_eq

/-- Code that runs above some frames leaves them as they are until it comes back. -/
theorem Sound.above_step (h : m.Sound) (above : Above base m) :
    Above base m.step ∨ Back base m.step := by
  obtain ⟨frame, frames', hstack⟩ := above
  obtain ⟨frames, hstack', handed⟩ := h.keeps_below hstack
  rw [← List.append_assoc] at hstack'
  exact above_or_back hstack' fun none => handed (List.append_eq_nil_iff.1 none).1

end Above

/-! ## The moments of a run -/

/-- A run of a script after so many steps. -/
def moment (watched : List String) (script : Script) (n : Nat) : Machine :=
  runFor n (initial watched script)

section Moments

variable (watched : List String) (script : Script)

theorem moment_succ (n : Nat) :
    moment watched script (n + 1) = (moment watched script n).step :=
  runFor_succ n (initial watched script)

section Told

variable {m : Machine} {frame : Frame} {below : List Frame}

/-- A machine whose topmost frame is told to go on. -/
theorem step_of_resume (hstack : m.stack = frame :: below) (told : m.control = .resume) :
    m.step = resume m.world below frame := by
  unfold step
  rw [hstack, told]

theorem step_of_answer {r : Reply} (hstack : m.stack = frame :: below)
    (told : m.control = .answer r) : m.step = receive m.world below r frame := by
  unfold step
  rw [hstack, told]

theorem step_of_faulty {f : Fault} (hstack : m.stack = frame :: below)
    (told : m.control = .faulty f) : m.step = reject m.world below f frame := by
  unfold step
  rw [hstack, told]

theorem step_of_unwind {p : Panic} (hstack : m.stack = frame :: below)
    (told : m.control = .unwind p) : m.step = unwind m.world below p frame := by
  unfold step
  rw [hstack, told]

end Told

theorem moment_sound (n : Nat) : (moment watched script n).Sound :=
  (initial_sound watched script).runFor n

variable {watched script}

/-- A run that is over stays as it is. -/
theorem moment_of_isOver {last n : Nat} (ended : (moment watched script last).isOver = true)
    (later : last ≤ n) : moment watched script n = moment watched script last := by
  induction later with
  | refl => rfl
  | step _ ih => rw [moment_succ, ih, step_of_isOver ended]

/-- Code that is followed, moment by moment, while it runs above some frames, has come to its end
before the stack is as low as they are. -/
theorem exists_end {Running Ended : Nat → Prop} {base : List Frame} {n j : Nat}
    (step : ∀ i, i < j → Running i → Running (i + 1) ∨ Ended (i + 1))
    (higher : ∀ {i}, Running i → base.length < (moment watched script i).stack.length)
    (start : Running n) (hnj : n ≤ j)
    (low : (moment watched script j).stack.length ≤ base.length) :
    ∃ i, n < i ∧ i ≤ j ∧ (∀ k, n ≤ k → k < i → Running k) ∧ Ended i := by
  have follow : ∀ l, n ≤ l → l ≤ j → (Running l ∧ ∀ k, n ≤ k → k < l → Running k) ∨
      ∃ i, n < i ∧ i ≤ l ∧ (∀ k, n ≤ k → k < i → Running k) ∧ Ended i := by
    intro l hnl
    induction hnl with
    | refl => exact fun _ => .inl ⟨start, fun k hnk hkn => absurd hkn (Nat.not_lt_of_le hnk)⟩
    | @step l hnl ih =>
      intro hlj
      obtain ⟨still, before⟩ | ⟨i, hni, hil, before, ended⟩ := ih (Nat.le_of_lt hlj)
      · have before' : ∀ k, n ≤ k → k < l + 1 → Running k := by
          intro k hnk hkl
          obtain sooner | rfl := Nat.lt_or_eq_of_le (Nat.le_of_lt_succ hkl)
          · exact before k hnk sooner
          · exact still
        obtain still' | ended := step l hlj still
        · exact .inl ⟨still', before'⟩
        · exact .inr ⟨l + 1, Nat.lt_succ_of_le hnl, Nat.le_refl _, before', ended⟩
      · exact .inr ⟨i, hni, Nat.le_succ_of_le hil, before, ended⟩
  obtain ⟨still, -⟩ | ended := follow j hnj (Nat.le_refl j)
  · exact absurd (higher still) (Nat.not_lt_of_le low)
  · exact ended

/-- Code that runs above some frames has come back before the stack is as low as they are, and
has run above them until then. -/
theorem exists_first_back {base : List Frame} {i j : Nat}
    (above : Above base (moment watched script i)) (hij : i ≤ j)
    (low : (moment watched script j).stack.length ≤ base.length) :
    ∃ i', i < i' ∧ i' ≤ j ∧ (∀ k, i ≤ k → k < i' → Above base (moment watched script k)) ∧
      Back base (moment watched script i') := by
  apply @exists_end watched script (fun k => Above base (moment watched script k))
    (fun k => Back base (moment watched script k)) base i j ?_ Above.higher above hij low
  intro k _ above
  rw [moment_succ]
  exact (moment_sound watched script k).above_step above

/-- Code that runs above some frames has come back before the stack is as low as they are. -/
theorem exists_back {base : List Frame} {i j : Nat} (above : Above base (moment watched script i))
    (hij : i ≤ j) (low : (moment watched script j).stack.length ≤ base.length) :
    ∃ i', i < i' ∧ i' ≤ j ∧ Back base (moment watched script i') := by
  obtain ⟨i', hi', hj, -, back⟩ := exists_first_back above hij low
  exact ⟨i', hi', hj, back⟩

/-- Code that is followed, moment by moment, while it runs above some frames, has been followed
to its end when the stack is as low as they are. -/
theorem ended_at {Running Ended : Nat → Prop} {base : List Frame} {n j : Nat}
    (step : ∀ i, Running i → Running (i + 1) ∨ Ended (i + 1))
    (higher : ∀ {i}, Running i → base.length < (moment watched script i).stack.length)
    (low : ∀ {i}, Ended i → (moment watched script i).stack = base)
    (start : Running n) (hnj : n < j)
    (running : ∀ i, n ≤ i → i < j → base.length < (moment watched script i).stack.length)
    (back : (moment watched script j).stack = base) : Ended j := by
  obtain ⟨i, hni, hij, -, ended⟩ := exists_end (fun i _ => step i) higher start (Nat.le_of_lt hnj)
    (Nat.le_of_eq (congrArg List.length back))
  obtain sooner | rfl := Nat.lt_or_eq_of_le hij
  · have high := running i (Nat.le_of_lt hni) sooner
    rw [low ended] at high
    exact absurd high (Nat.lt_irrefl _)
  · exact ended

/-- Code that is followed by what the machine shows at each moment. -/
theorem ended_of_back {Running Ended : Machine → Prop} {base : List Frame} {n j : Nat}
    (step : ∀ i, Running (moment watched script i) →
      Running (moment watched script (i + 1)) ∨ Ended (moment watched script (i + 1)))
    (higher : ∀ {m}, Running m → base.length < m.stack.length)
    (low : ∀ {m}, Ended m → m.stack = base)
    (start : Running (moment watched script n)) (hnj : n < j)
    (running : ∀ i, n ≤ i → i < j → base.length < (moment watched script i).stack.length)
    (back : (moment watched script j).stack = base) : Ended (moment watched script j) :=
  @ended_at watched script (fun i => Running (moment watched script i))
    (fun i => Ended (moment watched script i)) base n j step higher low start hnj running back

end Moments

end Machine

end Eventual
