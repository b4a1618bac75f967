import Eventual.Proofs.World.Changes
import Eventual.Proofs.World.Queues

/-!
# Operations on a queue

A step of a script on a queue *asks* for moves, and so does a predicate that answers for the
payload it was offered. What the script is told then *conveys* what the moves tell. Every
operation on a queue serves the moves it asks for as a plain list does, `beginQueue_serves`; every
other step of a script spares the queue, `begin_spares`, but may let go of references to it.
-/

namespace Eventual

open World Queue

/-- The moves that an operation on a queue asks for, when the queue holds so many payloads. -/
def QueueOp.moves (held : Nat) : QueueOp → List (Move Value)
  | .append v => [.append v]
  | .appendRange start stop => (intRange start stop).map fun n => .append { data := .int n }
  | .pop => [.pop]
  | .popAll => List.replicate held .pop
  | .popMatching _ _ => [.search]
  | .isEmpty => [.isEmpty]
  | .length => [.length]
  | .describe _ | .faulty _ => []

/-- The moves on the queue that a step of a script asks for. -/
def Act.moves (q : Nat) (w : World) : Act → List (Move Value)
  | .onQueue handle op =>
    match w.lookup handle with
    | some (.queue q') => if q' = q then op.moves (w.queue q).length else []
    | _ => []
  | _ => []

/-- The answer of a predicate, as a move. -/
def Test.move (t : Test) (call : Nat) (v : Value) : Move Value :=
  match t.answer call v.data with
  | .ok true => .accept
  | .ok false => .reject
  | .error _ => .panic

/-- What is said to a program by what the topmost frame is told. -/
inductive Conveys : List (Told Value) → Control → Prop
  | nothing (control : Control) : Conveys [] control
  | appended (n : Nat) : Conveys (List.replicate n .unit) (.answer .unit)
  | popped (x : Option Value) : Conveys [.popped x] (.answer (.popped (x.map Value.data)))
  | items (xs : List Value) :
      Conveys (xs.map fun x => .popped (some x)) (.answer (.items (xs.map Value.data)))
  | flag (b : Bool) : Conveys [.flag b] (.answer (.flag b))
  | count (n : Nat) : Conveys [.count n] (.answer (.count n))
  /-- The body of a predicate begins. -/
  | offered (v : Value) : Conveys [.offered v] .resume
  /-- The predicate of a take under way is asked again. -/
  | again (v : Value) : Conveys [.offered v] (.answer .unit)
  | unwound (p : Panic) : Conveys [.unwound] (.unwind p)

/-- The payload that a take from the queue offers. -/
def Frame.offers (q : Nat) : Frame → List Value
  | .probing q' _ _ v => if q' = q then [v] else []
  | _ => []

/-- The frame neither offers a payload of the queue nor holds the queue. -/
def Frame.Aside (q : Nat) (frame : Frame) : Prop :=
  frame.offers q = [] ∧ ∀ r, frame.held? = some r → r.entity? ≠ some (.queue q)

/-- The running calls hold the queue. -/
def HoldsQueue (q : Nat) (held : List Ref) : Prop := ∃ r ∈ held, r.entity? = some (.queue q)

/-- Below each take that offers a payload of the queue stands a call that holds the queue. -/
def Tethered (q : Nat) : List Frame → Prop
  | [] => True
  | frame :: below => (frame.offers q ≠ [] → HoldsQueue q (heldBy below)) ∧ Tethered q below

section Stacks

variable {q : Nat} {frame : Frame} {below new : List Frame}

theorem HoldsQueue.cons (h : HoldsQueue q (heldBy below)) (frame : Frame) :
    HoldsQueue q (heldBy (frame :: below)) := by
  obtain ⟨r, hr, entity⟩ := h
  refine ⟨r, ?_, entity⟩
  unfold heldBy
  rw [List.filterMap_cons]
  split
  · exact hr
  · exact List.mem_cons_of_mem _ hr

/-- Nothing is on offer above frames none of which holds the queue. -/
theorem Tethered.unoffered (h : Tethered q below) (free : ¬ HoldsQueue q (heldBy below)) :
    below.flatMap (Frame.offers q) = [] := by
  induction below with
  | nil => rfl
  | cons frame below ih =>
    have free' : ¬ HoldsQueue q (heldBy below) := fun holds => free (holds.cons frame)
    have nothing : frame.offers q = [] := by
      by_cases offers : frame.offers q = []
      · exact offers
      · exact absurd (h.1 offers) free'
    rw [List.flatMap_cons, nothing, ih h.2 free', List.append_nil]

theorem Tethered.append (h : Tethered q below) (aside : ∀ f ∈ new, f.Aside q) :
    Tethered q (new ++ below) := by
  induction new with
  | nil => exact h
  | cons f new ih =>
    obtain ⟨first, others⟩ := List.forall_mem_cons.1 aside
    exact ⟨fun offers => absurd first.1 offers, ih others⟩

theorem flatMap_offers (aside : ∀ f ∈ new, f.Aside q) :
    (new ++ below).flatMap (Frame.offers q) = below.flatMap (Frame.offers q) := by
  rw [List.flatMap_append, List.flatMap_eq_nil_iff.2 fun f hf => (aside f hf).1, List.nil_append]

theorem keeps_append {w : World} (aside : ∀ f ∈ new, f.Aside q)
    (keeps : w.keeps (heldBy (new ++ below)) (.queue q) = true) :
    w.keeps (heldBy below) (.queue q) = true := by
  rw [keeps_queue_iff] at keeps ⊢
  refine keeps.imp_right ?_
  rintro ⟨r, hr, entity⟩
  refine ⟨r, ?_, entity⟩
  rw [heldBy, List.filterMap_append, List.mem_append] at hr
  obtain hr | hr := hr
  · obtain ⟨f, hf, held⟩ := List.mem_filterMap.1 hr
    exact absurd entity ((aside f hf).2 r held)
  · exact hr

end Stacks

/-! ## Beginning a step -/

/-- The beginning of a step of a script that does not concern the queue. -/
structure Start.Spares (q : Nat) (held : List Ref) (w : World) (s : Start) : Prop where
  sheds : Sheds q held w s.world
  frames : ∀ f ∈ s.frames, f.Aside q

section Beginnings

variable {w w' : World} {q : Nat} {held : List Ref}

theorem Start.Spares.of_nil {s : Start} (sheds : Sheds q held w s.world) (h : s.frames = []) :
    s.Spares q held w :=
  ⟨sheds, by simp [h]⟩

theorem Start.Spares.same {s : Start} (world : s.world = w) (h : s.frames = []) :
    s.Spares q held w :=
  .of_nil (world.symm ▸ .aside (.refl w)) h

theorem Start.Spares.engage (aside : World.Aside q w w') {r : Ref} {c : CompletionId}
    (entity : r.entity? = some (.completion c)) (call : Site.Call Value Item WakerId)
    {awaiting : List Frame} (others : ∀ f ∈ awaiting, f.Aside q) :
    (Start.engage w' r c call awaiting).Spares q held w := by
  refine ⟨.aside aside, ?_⟩
  simp only [Start.engage, Start.run, List.cons_append, List.forall_mem_cons,
    List.forall_mem_append]
  refine ⟨⟨rfl, by simp [Frame.held?]⟩, others, ⟨rfl, ?_⟩, List.forall_mem_nil _⟩
  rintro _ ⟨⟩
  simp [entity]

theorem Start.Spares.read (cell : Cell Value) (r : Reading) :
    (Start.read w cell r).Spares q held w := by
  cases r with
  | demand s =>
    unfold Start.read
    dsimp only
    split <;> exact .same rfl rfl
  | state | flags | result => exact .same rfl rfl

theorem beginCell_spares (i : Nat) (op : CellOp) : (beginCell w i op).Spares q held w := by
  cases op with
  | tryCommit o =>
    have offered : World.Aside q w (w.record (.offered (.cell i) o)) := .record w ⟨rfl, rfl⟩
    have set : World.Aside q (w.record (.offered (.cell i) o))
        ((w.record (.offered (.cell i) o)).setCell i ((w.cell i).tryCommit o).1) :=
      .of_eq rfl rfl rfl
    refine .of_nil (.aside ((offered.trans set).trans (.record _ ?_))) rfl
    split <;> exact ⟨rfl, rfl⟩
  | read r => exact .read (w.cell i) r
  | describe _ | faulty _ => exact .same rfl rfl

theorem beginCompletion_spares (c : CompletionId) (op : CompletionOp) :
    (beginCompletion w c op).Spares q held w := by
  have offered : ∀ o, World.Aside q w (w.record (.offered (.completion c) o)) :=
    fun o => .record w ⟨rfl, rfl⟩
  cases op with
  | tryCommit o | complete o => exact .engage (offered o) rfl _ (List.forall_mem_nil _)
  | register k cb | registerCountdown k name n | drain s =>
    exact .engage (.refl w) rfl _ (List.forall_mem_nil _)
  | registerWaker handle =>
    unfold beginCompletion
    dsimp only
    split
    next => exact .engage (.refl w) rfl _ (List.forall_mem_nil _)
    next => exact .same rfl rfl
  | read r => exact .read _ r
  | describe _ | faulty _ => exact .same rfl rfl

theorem beginContext_spares (anchored : w.Anchored q held) (ctx : Context) (op : ContextOp) :
    (beginContext w held ctx op).Spares q held w := by
  cases op with
  | clone handle => exact .of_nil (.bind anchored handle (by simp [Ref.entity?])) rfl
  | profile | describe _ | faulty _ => exact .same rfl rfl

theorem beginDeferred_spares (anchored : w.Anchored q held) (c : CompletionId) (ctx : Context)
    (op : DeferredOp) : (beginDeferred w held c ctx op).Spares q held w := by
  cases op with
  | settle o =>
    exact .engage (.record w ⟨rfl, rfl⟩) rfl _
      (List.forall_mem_singleton.2 ⟨rfl, by simp [Frame.held?]⟩)
  | promise handle => exact .of_nil (.bindPromise anchored handle) rfl
  | clone handle => exact .of_nil (.bind anchored handle (by simp [Ref.entity?])) rfl
  | profile | describe _ | faulty _ => exact .same rfl rfl

theorem beginPromise_spares (anchored : w.Anchored q held) (c : CompletionId) (ctx : Context)
    (watch : WatchId) (op : PromiseOp) :
    (beginPromise w held c ctx watch op).Spares q held w := by
  cases op with
  | register k cb => exact .engage (.refl w) rfl _ (List.forall_mem_nil _)
  | chained first onFirst onOther always =>
    refine ⟨.aside (.refl w), ?_⟩
    simp [beginPromise, Start.run, Frame.Aside, Frame.offers, Frame.held?, Ref.entity?]
  | flags => exact .read _ .flags
  | clone handle => exact .of_nil (.bindPromise anchored handle) rfl
  | poll handle =>
    unfold beginPromise
    dsimp only
    split
    next =>
      split
      next => exact .same rfl rfl
      next => exact .engage (.refl w) rfl _ (List.forall_mem_nil _)
    next => exact .same rfl rfl
  | blockOn =>
    unfold beginPromise
    dsimp only
    split
    next => exact .of_nil (.aside (.record w ⟨rfl, rfl⟩)) rfl
    next => exact .same rfl rfl
  | profile | describe _ | faulty _ => exact .same rfl rfl

theorem beginMaker_spares (anchored : w.Anchored q held) (handle : String) (m : Maker) :
    (beginMaker w held handle m).Spares q held w := by
  have bound : ∀ (w₁ : World) (r : Ref), World.Aside q w w₁ →
      (r.entity? = some (.queue q) → w₁.HasQueue q) → Sheds q held w (w₁.bind held handle r) :=
    fun w₁ r aside known => .trans (.aside aside) (.bind (anchored.aside aside) handle known)
  have completion : World.Aside q w (w.addCompletion {}).1 := .of_eq rfl rfl rfl
  cases m with
  | cell => exact .of_nil (bound _ _ (.of_eq rfl rfl rfl) (by simp [Ref.entity?])) rfl
  | queue =>
    refine .of_nil (bound _ (.queue w.queues.size) (.addQueue w) ?_) rfl
    rintro ⟨⟩
    exact ⟨{}, by simp⟩
  | completion => exact .of_nil (bound _ _ completion (by simp [Ref.entity?])) rfl
  | waker body => exact .of_nil (bound _ _ (.of_eq rfl rfl rfl) (by simp [Ref.entity?])) rfl
  | context settings => exact .of_nil (bound _ _ (.refl w) (by simp [Ref.entity?])) rfl
  | deferred context =>
    cases context with
    | none => exact .of_nil (bound _ _ completion (by simp [Ref.entity?])) rfl
    | some name =>
      unfold beginMaker
      dsimp only
      split
      next => exact .of_nil (bound _ _ completion (by simp [Ref.entity?])) rfl
      next => exact .same rfl rfl
  | pair promise =>
    have first := bound _ (.deferred w.completions.size {}) completion (by simp [Ref.entity?])
    exact .of_nil (first.trans (.bindPromise (first.anchored anchored) promise)) rfl
  | settled o =>
    have settled : World.Aside q w ((w.addCompletion {}).1.settle (w.addCompletion {}).2 o) := by
      have event : (Event.offered (.completion (w.addCompletion {}).2) o).Aside q := ⟨rfl, rfl⟩
      have offered := completion.trans (.record _ event)
      have placed : ∀ (w : World) c x, World.Aside q w (w.setCompletion c x) :=
        fun _ _ _ => .of_eq rfl rfl rfl
      exact (offered.trans (placed _ _ _)).trans (.record _ ⟨rfl, rfl⟩)
    exact .of_nil (.trans (.aside settled) (.bindPromise (anchored.aside settled) handle)) rfl

/-- Another queue is put to use. -/
theorem beginQueue_spares {q' : Nat} (other : q' ≠ q) (op : QueueOp) :
    (beginQueue w q' op).Spares q held w := by
  have appended : ∀ (w : World) (v : Value), World.Aside q w (w.append q' v) := fun w v =>
    (World.Aside.setQueue other _).trans (.record _ ⟨if_neg other, rfl⟩)
  have taken : ∀ w : World, World.Aside q w (w.take? q').1 := fun w => .setQueue other _
  have consumed : ∀ (w : World) (v : Value), World.Aside q w (w.record (.consumed q' v)) :=
    fun w v => .record w ⟨rfl, if_neg other⟩
  have all : ∀ fuel (w : World), World.Aside q w (w.takeAll q' fuel).1 := by
    intro fuel
    induction fuel with
    | zero => exact .refl
    | succ fuel ih =>
      intro w
      have first := taken w
      unfold World.takeAll
      split
      next w₁ h => exact (congrArg Prod.fst h) ▸ first
      next w₁ v h =>
        rw [h] at first
        exact (first.trans (consumed w₁ v)).trans (ih _)
  have first := taken w
  cases op with
  | append v => exact .of_nil (.aside (appended w v)) rfl
  | appendRange start stop =>
    have several : ∀ (ns : List Int) (w : World), World.Aside q w
        (ns.foldl (fun w n => w.append q' { data := .int n }) w) := by
      intro ns
      induction ns with
      | nil => exact .refl
      | cons n ns ih => exact fun w => (appended w _).trans (ih _)
    exact .of_nil (.aside (several _ w)) rfl
  | popAll => exact .of_nil (.aside (all _ w)) rfl
  | pop =>
    unfold beginQueue
    dsimp only
    split
    next w₁ h =>
      rw [h] at first
      exact .of_nil (.aside first) rfl
    next w₁ v h =>
      rw [h] at first
      exact .of_nil (.aside (first.trans (consumed w₁ v))) rfl
  | popMatching body t =>
    unfold beginQueue
    dsimp only
    split
    next w₁ h =>
      rw [h] at first
      exact .of_nil (.aside first) rfl
    next w₁ v h =>
      rw [h] at first
      refine ⟨.aside first, ?_⟩
      simp [Start.run, Frame.Aside, Frame.offers, Frame.held?, Ref.entity?, other]
  | isEmpty | length | describe _ | faulty _ => exact .same rfl rfl

/-- A step of a script that is no operation on the queue. -/
theorem begin_spares (anchored : w.Anchored q held) {act : Act}
    (other : ∀ handle op, act = .onQueue handle op → ∀ q', w.lookup handle = some (.queue q') →
      q' ≠ q) : (begin w held act).Spares q held w := by
  cases act with
  | attempt body =>
    refine ⟨.aside (.refl w), ?_⟩
    simp [begin, Start.run, Frame.Aside, Frame.offers, Frame.held?]
  | iterate count body =>
    refine ⟨.aside (.refl w), ?_⟩
    simp [begin, Start.run, Frame.Aside, Frame.offers, Frame.held?]
  | create handle m => exact beginMaker_spares anchored handle m
  | faulty _ | raise _ | compare _ _ _ | onUnknown _ => exact .same rfl rfl
  | discard handle =>
    unfold begin
    dsimp only
    split
    next w' h => exact .of_nil (.unbind anchored h) rfl
    next => exact .same rfl rfl
  | onCell handle op =>
    unfold begin
    dsimp only
    split
    next i _ => exact beginCell_spares i op
    next => exact .same rfl rfl
  | onQueue handle op =>
    unfold begin
    dsimp only
    split
    next q' refers => exact beginQueue_spares (other handle op rfl q' refers) op
    next => exact .same rfl rfl
  | onCompletion handle op =>
    unfold begin
    dsimp only
    split
    next c _ => exact beginCompletion_spares c op
    next => exact .same rfl rfl
  | onContext handle op =>
    unfold begin
    dsimp only
    split
    next ctx _ => exact beginContext_spares anchored ctx op
    next => exact .same rfl rfl
  | onDeferred handle op =>
    unfold begin
    dsimp only
    split
    next c ctx _ => exact beginDeferred_spares anchored c ctx op
    next => exact .same rfl rfl
  | onPromise handle op =>
    unfold begin
    dsimp only
    split
    next c ctx watch _ => exact beginPromise_spares anchored c ctx watch op
    next => exact .same rfl rfl

end Beginnings

/-! ## Operations on the queue -/

section Operations

variable {w : World} {q : Nat} {offered : List Value} {u : Usage (List Value) Value}

/-- What an operation on the queue leads to: the moves it asks for are made, what they tell is
conveyed, and a payload that is put on offer is offered by the topmost takes. -/
structure Start.Serves (q : Nat) (offered : List Value) (u : Usage (List Value) Value)
    (moves : List (Move Value)) (s : Start) : Prop where
  plays : ∃ u' told, u.plays .plain moves = some (u', told) ∧
    s.world.Shows q (s.frames.flatMap (Frame.offers q) ++ offered) u' ∧ Conveys told s.control
  hasQueue : s.world.HasQueue q
  frames : ∀ below, Tethered q below → Tethered q (s.frames ++ below)

theorem Start.Serves.reply {w' : World} {r : Reply} {u' : Usage (List Value) Value}
    {moves : List (Move Value)} {told : List (Told Value)}
    (plays : u.plays .plain moves = some (u', told)) (shows : w'.Shows q offered u')
    (has : w'.HasQueue q) (conveys : Conveys told (.answer r)) :
    (Start.reply w' r).Serves q offered u moves :=
  ⟨⟨u', told, plays, shows, conveys⟩, has, fun _ tethered => tethered⟩

theorem World.HasQueue.append (has : w.HasQueue q) (v : Value) : (w.append q v).HasQueue q :=
  has.setQueue _

theorem appendAll_serves (has : w.HasQueue q) (shows : w.Shows q offered u) (ns : List Int) :
    ∃ u', u.plays .plain (ns.map fun n => .append { data := .int n })
        = some (u', List.replicate ns.length .unit) ∧
      (ns.foldl (fun w n => w.append q { data := .int n }) w).Shows q offered u' ∧
      (ns.foldl (fun w n => w.append q { data := .int n }) w).HasQueue q := by
  induction ns generalizing w u with
  | nil => exact ⟨u, rfl, shows, has⟩
  | cons n ns ih =>
    have lives := shows.lives has
    obtain ⟨u', plays, shows', has'⟩ :=
      ih (has.append _) (shows.append has { data := .int n })
    exact ⟨u', Usage.plays_cons _ (by simp [Usage.step, lives, Storage.plain]) plays, shows', has'⟩

/-- What a take hands out is noted. -/
def World.handOut (q : Nat) : World × Option Value → World
  | (w, none) => w
  | (w, some v) => w.record (.consumed q v)

/-- A take hands out the first payload. -/
theorem pop_serves (has : w.HasQueue q) (shows : w.Shows q offered u) :
    ∃ u', u.step .plain .pop = some (u', .popped u.store.head?) ∧ u'.store = u.store.tail ∧
      (w.take? q).2 = u.store.head? ∧ (World.handOut q (w.take? q)).Shows q offered u' := by
  have lives := shows.lives has
  obtain ⟨first, others⟩ := shows.take? has
  generalize w.take? q = taken at first others
  obtain ⟨w', x⟩ := taken
  dsimp only at first others
  subst first
  cases hstore : u.store with
  | nil =>
    rw [hstore] at others
    refine ⟨{ u with store := [] }, ?_, rfl, rfl, others⟩
    simp [Usage.step, Usage.take, Storage.plain, lives, hstore]
  | cons v rest =>
    rw [hstore] at others
    have parts : (Event.consumed q v).partsFrom q = [(Fate.returned.handedOut, v)] := if_pos rfl
    have parted := others.part rfl parts offered
    refine ⟨_, ?_, rfl, rfl, parted⟩
    simp [Usage.step, Usage.take, Storage.plain, lives, hstore, Usage.part, shows.offered]

theorem World.HasQueue.handOut (has : w.HasQueue q) : (World.handOut q (w.take? q)).HasQueue q := by
  have taken := has.take?
  generalize w.take? q = next at taken
  obtain ⟨w', _ | v⟩ := next <;> exact taken

/-- Taking all payloads hands out each. -/
theorem takeAll_serves (has : w.HasQueue q) (shows : w.Shows q offered u) :
    ∃ u', u.plays .plain (List.replicate u.store.length .pop)
        = some (u', u.store.map fun x => .popped (some x)) ∧
      (w.takeAll q u.store.length).2 = u.store.map Value.data ∧
      (w.takeAll q u.store.length).1.Shows q offered u' ∧
      (w.takeAll q u.store.length).1.HasQueue q := by
  generalize hstore : u.store = xs
  induction xs generalizing w u with
  | nil => exact ⟨u, rfl, rfl, shows, has⟩
  | cons v rest ih =>
    obtain ⟨u₁, pops, others, first, shows₁⟩ := pop_serves has shows
    have has₁ := has.handOut
    rw [hstore] at pops others first
    simp only [List.length_cons, World.takeAll]
    generalize w.take? q = taken at first shows₁ has₁
    obtain ⟨w', x⟩ := taken
    dsimp only [List.head?_cons] at first
    subst first
    obtain ⟨u', plays, datas, shows', has'⟩ := ih has₁ shows₁ others
    exact ⟨u', Usage.plays_cons _ pops plays, congrArg (v.data :: ·) datas, shows', has'⟩

/-- The first payload is put on offer, if there is one. -/
theorem seek_serves (has : w.HasQueue q) (shows : w.Shows q offered u) :
    (w.take? q).2 = u.store.head? ∧
      (u.seek .plain).2 = (u.store.head?.elim (.popped none) .offered) ∧
      (w.take? q).1.Shows q (u.store.head?.toList ++ offered) (u.seek .plain).1 := by
  obtain ⟨first, others⟩ := shows.take? has
  refine ⟨first, ?_⟩
  cases hstore : u.store with
  | nil =>
    rw [hstore] at others
    simp only [Usage.seek, Storage.plain, hstore, List.head?_nil, List.tail_nil]
    exact ⟨rfl, others⟩
  | cons v rest =>
    rw [hstore] at others
    simp only [Usage.seek, Storage.plain, hstore, List.head?_cons, List.tail_cons]
    exact ⟨rfl, others.rest, others.store, congrArg (v :: ·) others.offered, others.appended,
      others.parted, others.gone⟩

/-- Every operation on the queue is served as on a plain list. -/
theorem beginQueue_serves (has : w.HasQueue q) (shows : w.Shows q offered u) (op : QueueOp) :
    (beginQueue w q op).Serves q offered u (op.moves (w.queue q).length) := by
  have lives := shows.lives has
  cases op with
  | append v =>
    exact .reply (Usage.plays_singleton _ (by simp [Usage.step, lives, Storage.plain]))
      (shows.append has v) (has.append v) (.appended 1)
  | appendRange start stop =>
    obtain ⟨u', plays, shows', has'⟩ := appendAll_serves has shows (intRange start stop)
    exact .reply plays shows' has' (.appended _)
  | pop =>
    obtain ⟨u', pops, -, first, shows'⟩ := pop_serves has shows
    have has' := has.handOut
    unfold beginQueue
    dsimp only
    generalize w.take? q = taken at first shows' has'
    obtain ⟨w', x⟩ := taken
    dsimp only at first
    subst first
    cases hstore : u.store with
    | nil =>
      rw [hstore] at pops shows' has'
      exact .reply (Usage.plays_singleton _ pops) shows' has' (.popped none)
    | cons v rest =>
      rw [hstore] at pops shows' has'
      exact .reply (Usage.plays_singleton _ pops) shows' has' (.popped (some v))
  | popAll =>
    have length : (w.queue q).length = u.store.length := by
      rw [length_eq shows.rest, shows.store]
    obtain ⟨u', plays, datas, shows', has'⟩ := takeAll_serves has shows
    simp only [beginQueue, QueueOp.moves, length]
    refine .reply plays shows' has' ?_
    rw [datas]
    exact .items u.store
  | popMatching body t =>
    obtain ⟨first, tells, shows'⟩ := seek_serves has shows
    have has' := has.take?
    have plays : u.plays .plain [.search] = some ((u.seek .plain).1, [(u.seek .plain).2]) :=
      Usage.plays_singleton _ (by simp [Usage.step, lives])
    unfold beginQueue
    dsimp only
    generalize w.take? q = taken at first shows' has'
    obtain ⟨w', x⟩ := taken
    dsimp only at first
    subst first
    cases hstore : u.store with
    | nil =>
      rw [hstore] at tells shows'
      rw [tells] at plays
      exact .reply plays shows' has' (.popped none)
    | cons v rest =>
      rw [hstore] at tells shows'
      rw [tells] at plays
      refine ⟨⟨_, _, plays, ?_, .offered v⟩, has', fun below tethered => ?_⟩
      · simpa [Start.run, Frame.offers] using shows'
      · refine ⟨fun offers => absurd rfl offers, fun _ => ?_, fun offers => absurd rfl offers,
          tethered⟩
        exact ⟨.queue q, List.mem_cons_self .., rfl⟩
  | isEmpty =>
    have empty : (w.queue q).isEmpty = u.store.isEmpty := by rw [isEmpty_eq shows.rest, shows.store]
    simp only [beginQueue, empty]
    exact .reply (Usage.plays_singleton _ (by simp [Usage.step, lives, Storage.plain])) shows has
      (.flag _)
  | length =>
    have length : (w.queue q).length = u.store.length := by
      rw [length_eq shows.rest, shows.store]
    simp only [beginQueue, length]
    exact .reply (Usage.plays_singleton _ (by simp [Usage.step, lives, Storage.plain])) shows has
      (.count _)
  | describe _ => exact .reply rfl shows has (.nothing _)
  | faulty f =>
    exact ⟨⟨u, [], rfl, shows, .nothing _⟩, has, fun _ tethered => tethered⟩

end Operations

end Eventual
