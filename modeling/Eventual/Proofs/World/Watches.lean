import Eventual.Proofs.World.References

/-!
# Each promise has a watch of its own

A promise comes under a handle together with a new watch, and under no other handle afterwards:
what is cloned has a watch of its own. `Issues` is what a step does about this that does not go on
with a call on a completion. It issues at most one promise, and leaves the watches as they are that
exist.

A call is `About` a watch if it is a poll through its handle, or is about to register its relay.
What a step of a script starts is about watches of promises that handles refer to.
-/

namespace Eventual

/-- The completion and the watch of a promise. -/
def Ref.promise? : Ref → Option (CompletionId × WatchId)
  | .promise c _ x => some (c, x)
  | .cell _ | .queue _ | .completion _ | .context _ | .deferred _ _ | .waker _ => none

namespace World

/-- A watch of a world. -/
def watch (w : World) (x : WatchId) : Watch WakerId := w.watches[x]?.getD {}

/-- What a step does about promises and wakers that does not go on with a call on a completion: it
leaves the watches alone, but may issue a promise, which has a new watch; and the wakers that
handles come to refer to exist. -/
structure Issues (issued : Option (String × Ref)) (w w' : World) : Prop where
  watches : w'.watches = issued.elim w.watches fun _ => w.watches.push {}
  wakers : w.wakers.size ≤ w'.wakers.size
  fresh : ∀ entry, issued = some entry → ∃ c, entry.2.promise? = some (c, w.watches.size)
  handles : ∀ entry ∈ w'.handles, entry ∈ w.handles ∨ issued = some entry ∨
    (entry.2.promise? = none ∧ ∀ i, entry.2 = .waker i → i < w'.wakers.size)

namespace Issues

variable {issued : Option (String × Ref)} {w w' w'' : World} {held : List Ref} {handle : String}
  {r : Ref}

/-- A change of anything but watches, wakers and handles. -/
theorem of_eq (watches : w'.watches = w.watches) (wakers : w'.wakers = w.wakers)
    (handles : w'.handles = w.handles) : Issues none w w' :=
  ⟨watches, Nat.le_of_eq (by rw [wakers]), nofun, fun _ hentry => .inl (handles ▸ hentry)⟩

/-- The watches that exist stay as they are. -/
theorem watch_eq (h : Issues issued w w') {x : WatchId} (inside : x < w.watches.size) :
    w'.watch x = w.watch x := by
  rw [World.watch, h.watches]
  cases issued with
  | none => rfl
  | some entry =>
    rw [Option.elim_some, Array.getElem?_push, if_neg (Nat.ne_of_lt inside)]
    rfl

/-- The watch of a promise that is issued holds nothing yet. -/
theorem watch_new {entry : String × Ref} (h : Issues (some entry) w w') :
    w'.watch w.watches.size = {} := by
  rw [World.watch, h.watches, Option.elim_some, Array.getElem?_push, if_pos rfl]
  rfl

theorem refl (w : World) : Issues none w w := .of_eq rfl rfl rfl

theorem record (w : World) (ev : Event) : Issues none w (w.record ev) := .of_eq rfl rfl rfl

theorem trans (h : Issues none w w') (h' : Issues issued w' w'') : Issues issued w w'' := by
  have same : w'.watches = w.watches := h.watches
  refine ⟨?_, Nat.le_trans h.wakers h'.wakers, ?_, ?_⟩
  · rw [h'.watches, same]
  · rw [← same]
    exact h'.fresh
  · intro entry hentry
    obtain before | other := h'.handles entry hentry
    · obtain before | issues | ⟨apart, real⟩ := h.handles entry before
      · exact .inl before
      · cases issues
      · exact .inr (.inr ⟨apart, fun i hi => Nat.lt_of_lt_of_le (real i hi) h'.wakers⟩)
    · exact .inr other

/-- A promise is issued before something else is done. -/
theorem andThen (h : Issues issued w w') (h' : Issues none w' w'') : Issues issued w w'' := by
  refine ⟨h'.watches.trans h.watches, Nat.le_trans h.wakers h'.wakers, h.fresh, ?_⟩
  intro entry hentry
  obtain before | issues | other := h'.handles entry hentry
  · obtain before | issues | ⟨apart, real⟩ := h.handles entry before
    · exact .inl before
    · exact .inr (.inl issues)
    · exact .inr (.inr ⟨apart, fun i hi => Nat.lt_of_lt_of_le (real i hi) h'.wakers⟩)
  · cases issues
  · exact .inr (.inr other)

theorem release (w : World) (held : List Ref) (r : Ref) : Issues none w (w.release held r) := by
  unfold World.release
  split
  next => exact .refl w
  next e _ =>
    split
    next => exact .refl w
    next => cases e <;> exact .of_eq rfl rfl rfl

theorem bind (held : List Ref) (handle : String) (apart : r.promise? = none)
    (real : ∀ i, r = .waker i → i < w.wakers.size) : Issues none w (w.bind held handle r) := by
  have bound : Issues none w { w with handles := (handle, r) :: unbound w.handles handle } := by
    refine ⟨rfl, Nat.le_refl _, nofun, List.forall_mem_cons.2 ⟨.inr (.inr ⟨apart, real⟩), ?_⟩⟩
    exact fun entry hentry => .inl (mem_of_mem_unbound hentry)
  unfold World.bind
  split
  next => exact bound
  next old _ => exact bound.trans (.release _ held old)

theorem unbind (h : w.unbind? held handle = some w') : Issues none w w' := by
  obtain ⟨old, -, rfl⟩ := Option.map_eq_some_iff.1 h
  have unbound : Issues none w { w with handles := unbound w.handles handle } :=
    ⟨rfl, Nat.le_refl _, nofun, fun entry hentry => .inl (mem_of_mem_unbound hentry)⟩
  exact unbound.trans (.release _ held old)

theorem bindPromise (w : World) (held : List Ref) (handle : String) (c : CompletionId)
    (ctx : Context) : Issues (some (handle, .promise c ctx w.watches.size)) w
      (w.bindPromise held handle c ctx) := by
  have bound : Issues (some (handle, .promise c ctx w.watches.size)) w
      { w.addWatch.1 with
        handles := (handle, .promise c ctx w.watches.size) :: unbound w.handles handle } := by
    refine ⟨rfl, Nat.le_refl _, fun entry he => ?_, List.forall_mem_cons.2 ⟨.inr (.inl rfl), ?_⟩⟩
    · cases he
      exact ⟨c, rfl⟩
    · exact fun entry hentry => .inl (mem_of_mem_unbound hentry)
  unfold World.bindPromise World.bind
  dsimp only
  split
  next => exact bound
  next old _ => exact bound.andThen (.release _ held old)

end Issues

end World

/-! ## Calls about a watch -/

/-- A call at the point is about the watch: it is a poll through its handle, or about to register
its relay. -/
inductive Site.Point.About (x : WatchId) : Site.Point Value Item WakerId → Prop
  | poll {p : Site.Point Value Item WakerId} {poll : Site.Poll Item WakerId} :
      p.poll? = some poll → poll.watch = x ∨ poll.relay = .relay x → About x p
  | append {p : Site.Point Value Item WakerId} {k : Kind} :
      p.inner? = some (.append k (.relay x)) → About x p

/-- The frame is a call on the completion about the watch. -/
def Frame.About (c : CompletionId) (x : WatchId) : Frame → Prop
  | .driving d p => d = c ∧ p.About x
  | .session _ _ | .body _ _ | .catching | .repeating _ _ | .holding _ | .settling _ _
  | .guarding _ _ | .dropping _ | .ending _ | .probing _ _ _ _ | .chaining _ _ _ => False

section About

variable {s s' : Site Value Item WakerId} {p p' : Site.Point Value Item WakerId}
  {a : Action Value Item (Site.Point Value Item WakerId) (Site.Answer Value)} {x : WatchId}

theorem Site.Does.about (does : Site.Does s p s' a) (next : a.next? = some p')
    (about : p'.About x) : p.About x := by
  cases about with
  | poll hpoll same => exact .poll ((does.next_poll? next).symm.trans hpoll) same
  | @append k appends =>
    obtain nothing | ⟨poll, rfl, -, rfl⟩ := does.brings_next next
    · have brings : p'.brings k = [.relay x] := by
        simp [Site.Point.brings, appends, Completion.Point.brings]
      rw [nothing] at brings
      cases brings
    · exact .poll rfl (.inr (Completion.Point.append.inj (Option.some.inj appends)).2)

/-- A call that registers what is no relay is about no watch. -/
theorem not_about_register {k : Kind} {y : Item} (other : ∀ x, y ≠ .relay x) :
    ¬ (Site.Call.direct (.register k y) : Site.Call Value Item WakerId).start.About x := by
  rintro (⟨poll, -⟩ | appends)
  · cases poll
  · cases appends
    exact other x rfl

end About

/-! ## Beginning a step -/

/-- What the beginning of a step does about promises, and starts about watches. -/
structure Start.Issues (w : World) (s : Start) : Prop where
  world : ∃ issued, World.Issues issued w s.world
  about : ∀ f ∈ s.frames, ∀ c x, f.About c x → ∃ entry ∈ w.handles, entry.2.promise? = some (c, x)

section Beginnings

open World

variable {w w' : World} {held : List Ref} {c : CompletionId} {ctx : Context}
  {issued : Option (String × Ref)}

theorem Start.Issues.of_nil {s : Start} (world : World.Issues issued w s.world)
    (h : s.frames = []) : s.Issues w :=
  ⟨⟨issued, world⟩, by simp [h]⟩

/-- A call that is no poll, and registers no relay. -/
theorem Start.Issues.engage {r : Ref} {call : Site.Call Value Item WakerId}
    {awaiting : List Frame} (world : World.Issues none w w')
    (apart : ∀ x, ¬ call.start.About x) (awaits : ∀ f ∈ awaiting, ∀ c x, ¬ f.About c x) :
    (Start.engage w' r c call awaiting).Issues w := by
  refine ⟨⟨none, world⟩, fun f hf d x about => ?_⟩
  obtain hf | hf := List.mem_append.1 hf
  · obtain rfl | hf := List.mem_cons.1 hf
    · exact absurd about.2 (apart x)
    · exact absurd about (awaits f hf d x)
  · obtain rfl := List.mem_singleton.1 hf
    exact about.elim

theorem Start.Issues.read (cell : Cell Value) (r : Reading) :
    (Start.read w cell r).Issues w := by
  cases r with
  | state | flags | result => exact .of_nil (.refl w) rfl
  | demand s =>
    unfold Start.read
    dsimp only
    split
    next => exact .of_nil (.refl w) rfl
    next => exact .of_nil (.refl w) rfl

theorem beginCell_issues (i : Nat) (op : CellOp) : (beginCell w i op).Issues w := by
  cases op with
  | tryCommit o => exact .of_nil (.of_eq rfl rfl rfl) rfl
  | read r => exact .read (w.cell i) r
  | describe _ | faulty _ => exact .of_nil (.refl w) rfl

theorem issues_append (w : World) (q : Nat) (v : Value) : Issues none w (w.append q v) :=
  .of_eq rfl rfl rfl

theorem issues_appendAll (w : World) (q : Nat) (ns : List Int) :
    Issues none w (ns.foldl (fun w n => w.append q { data := .int n }) w) := by
  induction ns generalizing w with
  | nil => exact .refl w
  | cons n ns ih => exact (issues_append w q _).trans (ih _)

theorem issues_take? (w : World) (q : Nat) : Issues none w (w.take? q).1 := .of_eq rfl rfl rfl

theorem issues_takeAll (w : World) (q fuel : Nat) : Issues none w (w.takeAll q fuel).1 := by
  induction fuel generalizing w with
  | zero => exact .refl w
  | succ fuel ih =>
    have taken := issues_take? w q
    unfold World.takeAll
    split
    next w₁ h => exact (congrArg Prod.fst h) ▸ taken
    next w₁ v h =>
      rw [h] at taken
      exact (taken.trans (.record w₁ (.consumed q v))).trans (ih _)

theorem beginQueue_issues (q : Nat) (op : QueueOp) : (beginQueue w q op).Issues w := by
  have taken := issues_take? w q
  cases op with
  | append v => exact .of_nil (issues_append w q v) rfl
  | appendRange start stop => exact .of_nil (issues_appendAll w q _) rfl
  | popAll => exact .of_nil (issues_takeAll w q (w.queue q).length) rfl
  | isEmpty | length | describe _ | faulty _ => exact .of_nil (.refl w) rfl
  | pop =>
    unfold beginQueue
    dsimp only
    split
    next w₁ h =>
      rw [h] at taken
      exact .of_nil taken rfl
    next w₁ v h =>
      rw [h] at taken
      exact .of_nil (taken.trans (.record w₁ _)) rfl
  | popMatching body t =>
    unfold beginQueue
    dsimp only
    split
    next w₁ h =>
      rw [h] at taken
      exact .of_nil taken rfl
    next w₁ v h =>
      rw [h] at taken
      exact ⟨⟨none, taken⟩, by simp [Start.run, Frame.About]⟩

theorem beginCompletion_issues (op : CompletionOp) : (beginCompletion w c op).Issues w := by
  have none : ∀ f ∈ ([] : List Frame), ∀ c x, ¬ f.About c x := List.forall_mem_nil _
  have commits : ∀ {x o drains}, ¬ Site.Point.About x (.direct (.commit o drains .look)) := by
    rintro x o drains (⟨poll, -⟩ | appends)
    · cases poll
    · cases appends
  cases op with
  | tryCommit o | complete o => exact .engage (.record w _) (fun _ => commits) none
  | register k cb => exact .engage (.refl w) (fun _ => not_about_register nofun) none
  | registerCountdown k name n => exact .engage (.refl w) (fun _ => not_about_register nofun) none
  | drain s =>
    refine .engage (.refl w) ?_ none
    rintro x (⟨poll, -⟩ | appends)
    · cases poll
    · cases appends
  | registerWaker handle =>
    unfold beginCompletion
    dsimp only
    split
    next => exact .engage (.refl w) (fun _ => not_about_register nofun) none
    next => exact .of_nil (.refl w) rfl
  | read r => exact .read _ r
  | describe _ | faulty _ => exact .of_nil (.refl w) rfl

theorem beginContext_issues (op : ContextOp) : (beginContext w held ctx op).Issues w := by
  cases op with
  | clone handle => exact .of_nil (.bind held handle rfl nofun) rfl
  | profile | describe _ | faulty _ => exact .of_nil (.refl w) rfl

theorem beginDeferred_issues (op : DeferredOp) : (beginDeferred w held c ctx op).Issues w := by
  cases op with
  | settle o =>
    refine .engage (.record w _) ?_ (List.forall_mem_singleton.2 fun _ _ => not_false)
    rintro x (⟨poll, -⟩ | appends)
    · cases poll
    · cases appends
  | promise handle => exact .of_nil (.bindPromise w held handle c ctx) rfl
  | clone handle => exact .of_nil (.bind held handle rfl nofun) rfl
  | profile | describe _ | faulty _ => exact .of_nil (.refl w) rfl

theorem beginPromise_issues {handle : String} {watch : WatchId}
    (refers : w.lookup handle = some (.promise c ctx watch)) (op : PromiseOp) :
    (beginPromise w held c ctx watch op).Issues w := by
  cases op with
  | register k cb =>
    exact .engage (.refl w) (fun _ => not_about_register nofun) (List.forall_mem_nil _)
  | chained first onFirst onOther always =>
    exact ⟨⟨none, .refl w⟩, by simp [beginPromise, Start.run, Frame.About]⟩
  | flags => exact .read _ .flags
  | clone handle => exact .of_nil (.bindPromise w held handle c ctx) rfl
  | poll wakes =>
    unfold beginPromise
    dsimp only
    split
    next i _ =>
      split
      next => exact .of_nil (.refl w) rfl
      next =>
        refine ⟨⟨none, .refl w⟩, fun f hf d x about => ?_⟩
        obtain rfl | hf := List.mem_cons.1 hf
        · -- The poll is one through the handle.
          obtain ⟨rfl, ⟨poll, same⟩ | appends⟩ := about
          · cases poll
            obtain rfl : watch = x := same.elim id Item.relay.inj
            exact ⟨_, mem_of_lookup refers, rfl⟩
          · cases appends
        · obtain rfl := List.mem_singleton.1 hf
          exact about.elim
    next => exact .of_nil (.refl w) rfl
  | blockOn =>
    unfold beginPromise
    dsimp only
    split
    next => exact .of_nil (.record w _) rfl
    next => exact .of_nil (.refl w) rfl
  | profile | describe _ | faulty _ => exact .of_nil (.refl w) rfl

theorem beginMaker_issues (handle : String) (m : Maker) :
    (beginMaker w held handle m).Issues w := by
  have completed : Issues none w (w.addCompletion {}).1 := .of_eq rfl rfl rfl
  cases m with
  | cell =>
    have added : Issues none w (w.addCell {}).1 := .of_eq rfl rfl rfl
    exact .of_nil (added.trans (.bind held handle rfl nofun)) rfl
  | queue =>
    have added : Issues none w (w.addQueue {}).1 := .of_eq rfl rfl rfl
    exact .of_nil (added.trans (.bind held handle rfl nofun)) rfl
  | waker body =>
    have size : (w.addWaker { name := handle, body }).1.wakers.size = w.wakers.size + 1 :=
      Array.size_push _
    have added : Issues none w (w.addWaker { name := handle, body }).1 :=
      ⟨rfl, size ▸ Nat.le_succ _, nofun, fun _ hentry => .inl hentry⟩
    refine .of_nil (added.trans (.bind held handle rfl fun i hi => ?_)) rfl
    cases hi
    exact size ▸ Nat.lt_succ_self _
  | completion => exact .of_nil (completed.trans (.bind held handle rfl nofun)) rfl
  | context settings => exact .of_nil (.bind held handle rfl nofun) rfl
  | deferred context =>
    cases context with
    | none => exact .of_nil (completed.trans (.bind held handle rfl nofun)) rfl
    | some name =>
      unfold beginMaker
      dsimp only
      split
      next => exact .of_nil (completed.trans (.bind held handle rfl nofun)) rfl
      next => exact .of_nil (.refl w) rfl
  | pair promise =>
    have bound := completed.trans
      (.bind (r := .deferred w.completions.size {}) held handle rfl nofun)
    exact .of_nil (bound.trans (.bindPromise _ held promise w.completions.size {})) rfl
  | settled o =>
    have settled : Issues none w ((w.addCompletion {}).1.settle w.completions.size o) :=
      .of_eq rfl rfl rfl
    exact .of_nil (settled.trans (.bindPromise _ held handle w.completions.size {})) rfl

/-- A step that begins issues at most one promise, and what it starts is about watches of promises
that handles refer to. -/
theorem begin_issues (act : Act) : (begin w held act).Issues w := by
  cases act with
  | attempt body => exact ⟨⟨none, .refl w⟩, by simp [begin, Start.run, Frame.About]⟩
  | iterate count body => exact ⟨⟨none, .refl w⟩, by simp [begin, Start.run, Frame.About]⟩
  | create handle m => exact beginMaker_issues handle m
  | faulty _ | raise _ | compare _ _ _ | onUnknown _ => exact .of_nil (.refl w) rfl
  | discard handle =>
    unfold begin
    dsimp only
    split
    next w' h => exact .of_nil (.unbind h) rfl
    next => exact .of_nil (.refl w) rfl
  | onCell handle op =>
    unfold begin
    dsimp only
    split
    next i _ => exact beginCell_issues i op
    next => exact .of_nil (.refl w) rfl
  | onQueue handle op =>
    unfold begin
    dsimp only
    split
    next q _ => exact beginQueue_issues q op
    next => exact .of_nil (.refl w) rfl
  | onCompletion handle op =>
    unfold begin
    dsimp only
    split
    next => exact beginCompletion_issues op
    next => exact .of_nil (.refl w) rfl
  | onContext handle op =>
    unfold begin
    dsimp only
    split
    next => exact beginContext_issues op
    next => exact .of_nil (.refl w) rfl
  | onDeferred handle op =>
    unfold begin
    dsimp only
    split
    next => exact beginDeferred_issues op
    next => exact .of_nil (.refl w) rfl
  | onPromise handle op =>
    unfold begin
    dsimp only
    split
    next h => exact beginPromise_issues h op
    next => exact .of_nil (.refl w) rfl

end Beginnings

end Eventual
