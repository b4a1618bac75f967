import Eventual.Proofs.Machine.Chains
import Eventual.Proofs.Machine.Undisturbed
import Eventual.Proofs.World.Weights

/-!
# Every operation comes to an end

A run weighs what its frames have left to do and what its world has in store. As long as no panic
handler is called, every step lowers that weight (`step_pays`): a drain that calls an item pays for
it with the weight that the item had in its queue, and that weight was paid by the text of whatever
registered the item, whose own text is thereby used up. The queues that a drain empties may be
refilled by what it calls, and its calls may drain other completions; none of this needs a case of
its own. So whatever runs above some frames comes back to them (`comes_back`).

Each call that a drain makes takes an item away that was chained before or has been registered since
(`invocations_le`).
-/

namespace Eventual

/-! ## What frames weigh -/

theorem Callback.weight_eq (cb : Callback) : cb.weight = 4 + weightOf cb.body := by
  cases cb
  simp only [Callback.weight, Callback.body]

theorem weightOf_cons (step : Step) (rest : Script) :
    weightOf (step :: rest) = step.act.weight + weightOf rest := by
  cases step
  simp only [weightOf, Step.weight, Step.act]

/-- What a frame has left to do. -/
def Frame.weight : Frame → Nat
  | .session _ rest | .body _ rest => 2 + weightOf rest
  | .catching | .holding _ | .settling _ _ | .guarding _ _ | .ending _ => 1
  | .dropping _ => 9
  | .repeating count script => 2 + count * (3 + weightOf script)
  | .driving _ here => here.weightBy Item.weight
  | .probing _ _ _ _ => 2
  | .chaining _ _ rest => 2 + (rest.map fun entry => 11 + entry.2.weight).sum

/-- What frames have left to do. -/
def stackWeight (stack : List Frame) : Nat := (stack.map Frame.weight).sum

@[simp] theorem stackWeight_nil : stackWeight [] = 0 := rfl

@[simp] theorem stackWeight_cons (frame : Frame) (stack : List Frame) :
    stackWeight (frame :: stack) = frame.weight + stackWeight stack := rfl

theorem stackWeight_append (frames stack : List Frame) :
    stackWeight (frames ++ stack) = stackWeight frames + stackWeight stack := by
  simp [stackWeight]

/-- An answer, a fault or a panic is still to be handed on, and what a panic carries to be
dropped. -/
def Control.weight : Control → Nat
  | .resume => 0
  | .answer _ | .faulty _ => 1
  | .unwind p => 1 + p.weight

theorem Panic.weight_le (p : Panic) : p.weight ≤ 1 := by
  cases p with
  | object => exact Nat.le_refl 1
  | text | number | refused => exact Nat.zero_le 1

theorem Panic.weight_of_wakes? {p : Panic} {handle : String} (wakes : p.wakes? = some handle) :
    p.weight = 1 := by
  cases p with
  | object => rfl
  | text | number | refused => cases wakes

/-- The panic of a predicate carries a text. -/
theorem Test.weight_of_answer {t : Test} {n : Nat} {d : Data} {p : Panic}
    (panics : t.answer n d = .error p) : p.weight = 0 := by
  cases t with
  | panicAt m =>
    simp only [Test.answer] at panics
    split at panics
    · cases panics
      rfl
    · cases panics
  | _ => cases panics

/-- The frame only waits for the code above it. -/
def Frame.Passive : Frame → Prop
  | .catching | .holding _ | .settling _ _ | .guarding _ _ | .dropping _ | .ending _ => True
  | _ => False

/-- The frame carries steps of a script. -/
def Frame.Scripted : Frame → Prop
  | .session _ _ | .body _ _ => True
  | _ => False

namespace Machine

/-- What a run has left to do, together with what its world has in store. -/
def weight (m : Machine) : Nat := m.world.weight + stackWeight m.stack + m.control.weight

/-- Whoever is told to go on has something to do, and only a script is told of a fault. -/
def Poised (m : Machine) : Prop :=
  ∀ frame below, m.stack = frame :: below →
    (m.control = .resume → ¬ frame.Passive) ∧ ∀ f, m.control = .faulty f → frame.Scripted

/-- The next step calls a panic handler. -/
def summons (m : Machine) : Bool :=
  match m.stack, m.control with
  | .guarding _ ctx :: _, .unwind _ =>
    match ctx.policy with
    | .isolate => ctx.handler.isSome
    | .propagate => false
  | _, _ => false

/-- What has come of something that weighed so much, in the world and above the frames. -/
structure Pays (w : World) (cost : Nat) (below : List Frame) (m' : Machine) : Prop where
  less : m'.weight < w.weight + cost + stackWeight below
  poised : m'.Poised

section Pays

variable {w w' : World} {cost : Nat} {below : List Frame}

/-- Who is handed an answer is told neither to go on nor of a fault. -/
theorem Poised.hand (w : World) (stack : List Frame) (r : Reply) :
    (Machine.hand w stack r).Poised := by
  intro frame rest _
  exact ⟨fun told => (by cases told), fun f told => by cases told⟩

theorem Pays.hand (le : w'.weight + 1 < w.weight + cost) (r : Reply) :
    Pays w cost below (Machine.hand w' below r) := by
  refine ⟨?_, .hand w' below r⟩
  simp only [Machine.weight, Machine.hand, Control.weight]
  omega

theorem Pays.raise {p : Panic} (le : w'.weight + (1 + p.weight) < w.weight + cost) :
    Pays w cost below (Machine.raise w' below p) := by
  refine ⟨?_, fun _ _ _ => ⟨nofun, nofun⟩⟩
  simp only [Machine.weight, Machine.raise, Control.weight]
  omega

theorem Pays.goOn {frame : Frame} {rest : List Frame} (busy : ¬ frame.Passive)
    (le : w'.weight + frame.weight + stackWeight rest < w.weight + cost + stackWeight below) :
    Pays w cost below (Machine.goOn w' (frame :: rest)) := by
  refine ⟨?_, fun frame' _ hstack => ⟨fun _ => ?_, nofun⟩⟩
  · simp only [Machine.weight, Machine.goOn, Control.weight, stackWeight_cons]
    omega
  · obtain ⟨rfl, -⟩ := List.cons.inj hstack
    exact busy

end Pays

end Machine

/-! ## Beginning a step -/

/-- What a step of a script starts is paid for by its text, and either it has answered or its first
frame goes on. -/
structure Start.Pays (w : World) (cost : Nat) (s : Start) : Prop where
  less : s.world.weight + stackWeight s.frames + s.control.weight < w.weight + cost
  begun : (s.frames = [] ∧ s.control ≠ .resume) ∨
    s.control = .resume ∧ ∃ frame rest, s.frames = frame :: rest ∧ ¬ frame.Passive

section Beginnings

open World

variable {w w' : World} {held : List Ref} {cost : Nat}

theorem weight_append_le (rest : w.Every fun q => q.AtRest) (q : Nat) (v : Value) :
    (w.append q v).weight ≤ w.weight + payloadWeight := by
  have set := weight_setQueue_le w q ((w.queue q).append v)
  rw [Queue.toList_append (rest.queue q), List.length_append] at set
  simp only [World.append, weight_record, payloadWeight, List.length_singleton] at set ⊢
  omega

theorem weight_appendAll_le (rest : w.Every fun q => q.AtRest) (q : Nat) (ns : List Int) :
    (ns.foldl (fun w n => w.append q { data := .int n }) w).weight
      ≤ w.weight + payloadWeight * ns.length := by
  induction ns generalizing w with
  | nil => exact Nat.le_refl _
  | cons n ns ih =>
    have first := weight_append_le rest q { data := .int n }
    have others := ih (rest.append Queue.closed_atRest q { data := .int n })
    simp only [List.foldl_cons, List.length_cons, payloadWeight] at first others ⊢
    omega

/-- A take lets go of the weight of the payload that it finds. -/
theorem weight_take?_le (rest : w.Every fun q => q.AtRest) (q : Nat) :
    (w.take? q).1.weight + payloadWeight * (w.take? q).2.toList.length ≤ w.weight := by
  have set := weight_setQueue_le w q (w.queue q).take?.1
  have first := Queue.take?_snd (rest.queue q)
  rw [Queue.toList_take? (rest.queue q)] at set
  have taken : w.take? q = (w.setQueue q (w.queue q).take?.1, (w.queue q).take?.2) := rfl
  rw [taken, first]
  cases hl : (w.queue q).toList with
  | nil =>
    rw [hl] at set
    exact set
  | cons v vs =>
    rw [hl] at set
    simp only [List.tail_cons, List.length_cons, List.head?_cons, Option.toList_some,
      List.length_nil, payloadWeight] at set ⊢
    omega

theorem weight_takeAll_le (rest : w.Every fun q => q.AtRest) (q fuel : Nat) :
    (w.takeAll q fuel).1.weight ≤ w.weight := by
  induction fuel generalizing w with
  | zero => exact Nat.le_refl _
  | succ fuel ih =>
    have taken := weight_take?_le rest q
    have rest' := rest.take? Queue.closed_atRest q
    unfold World.takeAll
    split
    next w₁ empty =>
      rw [empty] at taken
      exact taken
    next w₁ v full =>
      rw [full] at taken rest'
      have others := ih (rest'.record (.consumed q v))
      rw [weight_record] at others
      exact Nat.le_trans others (Nat.le_trans (Nat.le_add_right _ _) taken)

theorem Start.Pays.reply (le : w'.weight + 1 < w.weight + cost) (r : Reply) :
    (Start.reply w' r).Pays w cost := ⟨le, .inl ⟨rfl, nofun⟩⟩

theorem Start.Pays.fault (le : w'.weight + 1 < w.weight + cost) (f : Fault) :
    (Start.fault w' f).Pays w cost := ⟨le, .inl ⟨rfl, nofun⟩⟩

theorem Start.Pays.panic {p : Panic} (le : w'.weight + (1 + p.weight) < w.weight + cost) :
    (Start.panic w' p).Pays w cost := ⟨le, .inl ⟨rfl, nofun⟩⟩

theorem Start.Pays.run {frame : Frame} {rest : List Frame} (busy : ¬ frame.Passive)
    (le : w'.weight + frame.weight + stackWeight rest < w.weight + cost) :
    (Start.run w' (frame :: rest)).Pays w cost := by
  refine ⟨?_, .inr ⟨rfl, frame, rest, rfl, busy⟩⟩
  simp only [Start.run, stackWeight_cons, Control.weight]
  omega

/-- A call on a completion is paid for together with whoever awaits its answer. -/
theorem Start.Pays.engage {r : Ref} {c : CompletionId} {call : Site.Call Value Item WakerId}
    {awaiting : List Frame}
    (le : w'.weight + (call.start.weightBy Item.weight + stackWeight awaiting + 1)
      < w.weight + cost) :
    (Start.engage w' r c call awaiting).Pays w cost := by
  refine @Start.Pays.run w w' cost (.driving c call.start) (awaiting ++ [.holding r]) not_false ?_
  simp only [Frame.weight, stackWeight_append, stackWeight_cons, stackWeight_nil]
  omega

theorem Start.Pays.read (le : w.weight + 1 < w'.weight + cost) (cell : Cell Value) (r : Reading) :
    (Start.read w cell r).Pays w' cost := by
  cases r with
  | demand s =>
    unfold Start.read
    dsimp only
    split
    · exact .reply le _
    · exact .panic le
  | _ => exact .reply le _

/-- Two is enough for whatever answers at once. -/
theorem answers_of_le (le : w'.weight ≤ w.weight) : w'.weight + 1 < w.weight + 2 := by omega

theorem beginQueue_pays (rest : w.Every fun q => q.AtRest) (q : Nat) (op : QueueOp) :
    (beginQueue w q op).Pays w op.weight := by
  have taken := weight_take?_le rest q
  cases op with
  | append v =>
    have appended := weight_append_le rest q v
    refine .reply ?_ _
    simp only [QueueOp.weight]
    omega
  | appendRange start stop =>
    have appended := weight_appendAll_le rest q (intRange start stop)
    refine .reply ?_ _
    rw [intRange, List.length_map, List.length_range] at appended
    simp only [QueueOp.weight]
    exact Nat.lt_of_le_of_lt (Nat.add_le_add_right appended 1) (by omega)
  | popAll =>
    refine .reply ?_ _
    simp only [QueueOp.weight]
    exact answers_of_le (weight_takeAll_le rest q _)
  | isEmpty | length | describe _ | faulty _ =>
    simp only [QueueOp.weight]
    first
      | exact .reply (answers_of_le (Nat.le_refl _)) _
      | exact .fault (answers_of_le (Nat.le_refl _)) _
  | pop =>
    simp only [QueueOp.weight]
    unfold beginQueue
    dsimp only
    split
    next empty =>
      rw [empty] at taken
      exact .reply (answers_of_le taken) _
    next full =>
      rw [full] at taken
      refine .reply ?_ _
      rw [weight_record]
      exact answers_of_le (Nat.le_trans (Nat.le_add_right _ _) taken)
  | popMatching body t =>
    simp only [QueueOp.weight]
    unfold beginQueue
    dsimp only
    split
    next empty =>
      rw [empty] at taken
      refine .reply ?_ _
      simp only [Option.toList_none, List.length_nil] at taken
      omega
    next full =>
      rw [full] at taken
      refine .run not_false ?_
      simp only [Option.toList_some, List.length_singleton, payloadWeight] at taken
      simp only [Frame.weight, stackWeight_cons, stackWeight_nil]
      omega

theorem beginCompletion_pays (c : CompletionId) (op : CompletionOp) :
    (beginCompletion w c op).Pays w op.weight := by
  cases op with
  | tryCommit o | complete o =>
    refine .engage ?_
    simp only [CompletionOp.weight, weight_record, stackWeight_nil, Site.Call.start,
      Completion.Call.start, Site.Point.weightBy, Completion.Point.weightBy]
    omega
  | register k cb =>
    refine .engage ?_
    simp only [CompletionOp.weight, stackWeight_nil, Site.Call.start, Completion.Call.start,
      Site.Point.weightBy, Completion.Point.weightBy, Item.weight]
    omega
  | registerCountdown k name n =>
    refine .engage ?_
    simp only [CompletionOp.weight, stackWeight_nil, Site.Call.start, Completion.Call.start,
      Site.Point.weightBy, Completion.Point.weightBy, Item.weight]
    omega
  | registerWaker handle =>
    simp only [CompletionOp.weight]
    unfold beginCompletion
    dsimp only
    split
    · refine .engage ?_
      simp only [stackWeight_nil, Site.Call.start, Completion.Call.start, Site.Point.weightBy,
        Completion.Point.weightBy, Item.weight]
      omega
    · exact .fault (by omega) _
  | drain s =>
    refine .engage ?_
    simp only [CompletionOp.weight, stackWeight_nil, Site.Call.start, Completion.Call.start,
      Site.Point.weightBy, Completion.Point.weightBy]
    omega
  | read r =>
    simp only [CompletionOp.weight]
    exact .read (answers_of_le (Nat.le_refl _)) _ r
  | describe _ =>
    simp only [CompletionOp.weight]
    exact .reply (answers_of_le (Nat.le_refl _)) _
  | faulty _ =>
    simp only [CompletionOp.weight]
    exact .fault (answers_of_le (Nat.le_refl _)) _

theorem weight_bindPromise_le (w : World) (held : List Ref) (handle : String) (c : CompletionId)
    (ctx : Context) : (w.bindPromise held handle c ctx).weight ≤ w.weight :=
  weight_bind_le w.addWatch.1 held handle _

theorem beginDeferred_pays (c : CompletionId) (ctx : Context) (op : DeferredOp) :
    (beginDeferred w held c ctx op).Pays w 16 := by
  cases op with
  | settle o =>
    refine .engage ?_
    simp only [weight_record, stackWeight_cons, stackWeight_nil, Frame.weight, Site.Call.start,
      Completion.Call.start, Site.Point.weightBy, Completion.Point.weightBy]
    omega
  | promise handle =>
    have le := weight_bindPromise_le w held handle c ctx
    exact .reply (by omega) _
  | clone handle =>
    have le := weight_bind_le w held handle (.deferred c ctx)
    exact .reply (by omega) _
  | profile | describe _ => exact .reply (by omega) _
  | faulty _ => exact .fault (by omega) _

theorem beginPromise_pays (c : CompletionId) (ctx : Context) (watch : WatchId) (op : PromiseOp) :
    (beginPromise w held c ctx watch op).Pays w op.weight := by
  cases op with
  | register k cb =>
    refine .engage ?_
    simp only [PromiseOp.weight, stackWeight_nil, Site.Call.start, Completion.Call.start,
      Site.Point.weightBy, Completion.Point.weightBy, Item.weight]
    omega
  | chained first onFirst onOther always =>
    refine .run not_false ?_
    simp only [PromiseOp.weight, Frame.weight, stackWeight_cons, stackWeight_nil, List.map_cons,
      List.map_nil, List.sum_cons, List.sum_nil]
    omega
  | flags =>
    simp only [PromiseOp.weight]
    exact Start.Pays.read (answers_of_le (Nat.le_refl _)) (w.completion c).cell .flags
  | clone handle =>
    simp only [PromiseOp.weight]
    exact .reply (answers_of_le (weight_bindPromise_le w held handle c ctx)) _
  | poll wakes =>
    simp only [PromiseOp.weight]
    unfold beginPromise
    dsimp only
    split
    · split
      · exact .fault (by omega) _
      · refine .engage ?_
        simp only [stackWeight_nil, Site.Call.start, Site.Point.weightBy, Item.weight]
        omega
    · exact .fault (by omega) _
  | blockOn =>
    simp only [PromiseOp.weight]
    unfold beginPromise
    dsimp only
    split
    next o _ => exact .reply (answers_of_le (Nat.le_of_eq (weight_record w (.copied c o)))) _
    next => exact .reply (answers_of_le (Nat.le_refl _)) _
  | profile | describe _ =>
    simp only [PromiseOp.weight]
    exact .reply (answers_of_le (Nat.le_refl _)) _
  | faulty _ =>
    simp only [PromiseOp.weight]
    exact .fault (answers_of_le (Nat.le_refl _)) _

theorem beginMaker_pays (handle : String) (m : Maker) :
    (beginMaker w held handle m).Pays w m.weight := by
  have bound : ∀ {w' : World} (r : Ref), w'.weight ≤ w.weight →
      (Start.reply (w'.bind held handle r) .unit).Pays w 2 := fun r le =>
    .reply (answers_of_le (Nat.le_trans (weight_bind_le _ held handle r) le)) _
  have added : (w.addCompletion {}).1.weight ≤ w.weight := Nat.le_of_eq (weight_addCompletion w rfl)
  cases m with
  | cell =>
    simp only [Maker.weight]
    exact bound (.cell w.cells.size) (Nat.le_of_eq (weight_of_eq rfl rfl rfl))
  | queue =>
    simp only [Maker.weight]
    exact bound (.queue w.queues.size) (Nat.le_of_eq (weight_addQueue w))
  | completion =>
    simp only [Maker.weight]
    exact bound (.completion w.completions.size) added
  | waker body =>
    have made := weight_addWaker w { name := handle, body }
    have le := weight_bind_le (w.addWaker { name := handle, body }).1 held handle
      (.waker w.wakers.size)
    have fresh : Waker.weight { name := handle, body } = weightOf body := rfl
    refine .reply (Nat.lt_of_le_of_lt (Nat.add_le_add_right le 1) ?_) _
    simp only [Maker.weight]
    omega
  | context settings =>
    simp only [Maker.weight]
    exact bound (.context (.ofSettings settings)) (Nat.le_refl _)
  | deferred context =>
    simp only [Maker.weight]
    cases context with
    | none => exact bound (.deferred w.completions.size {}) added
    | some name =>
      unfold beginMaker
      dsimp only
      split
      next ctx _ => exact bound (.deferred w.completions.size ctx) added
      next => exact .fault (answers_of_le (Nat.le_refl _)) _
  | pair promise =>
    have le := weight_bind_le (w.addCompletion {}).1 held handle (.deferred w.completions.size {})
    simp only [Maker.weight]
    exact .reply (answers_of_le (Nat.le_trans (weight_bindPromise_le _ held promise _ {})
      (Nat.le_trans le added))) _
  | settled o =>
    simp only [Maker.weight]
    refine .reply (answers_of_le (Nat.le_trans (weight_bindPromise_le _ held handle _ {}) ?_)) _
    have set := weight_setSite_le ((w.addCompletion {}).1.record
      (.offered (.completion w.completions.size) o)) w.completions.size
      { completion := { (w.addCompletion {}).1.completion w.completions.size with
          cell := (((w.addCompletion {}).1.completion w.completions.size).cell.tryCommit o).1 },
        watches := w.watches }
    exact Nat.le_trans (Nat.le_of_add_le_add_right set) added

/-- Whatever a step asks for, what it starts is paid for by its text. -/
theorem begin_pays (rest : w.Every fun q => q.AtRest) (act : Act) :
    (begin w held act).Pays w act.weight := by
  cases act with
  | attempt body =>
    refine .run not_false ?_
    simp only [Act.weight, Frame.weight, stackWeight_cons, stackWeight_nil]
    omega
  | iterate count body =>
    refine .run not_false ?_
    simp only [Act.weight, Frame.weight, stackWeight_nil]
    omega
  | create handle m =>
    simp only [Act.weight]
    exact beginMaker_pays handle m
  | faulty _ | onUnknown _ =>
    simp only [Act.weight]
    exact .fault (answers_of_le (Nat.le_refl _)) _
  | raise _ =>
    simp only [Act.weight]
    exact .panic (by omega)
  | compare _ _ _ =>
    simp only [Act.weight]
    exact .reply (answers_of_le (Nat.le_refl _)) _
  | discard handle =>
    simp only [Act.weight]
    unfold begin
    dsimp only
    split
    next unbinds => exact .reply (answers_of_le (weight_unbind_le unbinds)) _
    next => exact .fault (answers_of_le (Nat.le_refl _)) _
  | onCell handle op =>
    simp only [Act.weight]
    unfold begin
    dsimp only
    split
    · cases op with
      | tryCommit o =>
        unfold beginCell
        dsimp only
        refine .reply (answers_of_le (Nat.le_of_eq ?_)) _
        exact weight_of_eq rfl rfl rfl
      | read r => exact .read (answers_of_le (Nat.le_refl _)) _ r
      | describe _ => exact .reply (answers_of_le (Nat.le_refl _)) _
      | faulty _ => exact .fault (answers_of_le (Nat.le_refl _)) _
    · exact .fault (answers_of_le (Nat.le_refl _)) _
  | onQueue handle op =>
    have two : 2 ≤ op.weight := by cases op <;> simp only [QueueOp.weight] <;> omega
    simp only [Act.weight]
    unfold begin
    dsimp only
    split
    · exact beginQueue_pays rest _ op
    · exact .fault (by omega) _
  | onCompletion handle op =>
    have two : 2 ≤ op.weight := by cases op <;> simp only [CompletionOp.weight] <;> omega
    simp only [Act.weight]
    unfold begin
    dsimp only
    split
    · exact beginCompletion_pays _ op
    · exact .fault (by omega) _
  | onContext handle op =>
    simp only [Act.weight]
    unfold begin
    dsimp only
    split
    · cases op with
      | clone handle => exact .reply (answers_of_le (weight_bind_le w held handle _)) _
      | profile | describe _ => exact .reply (answers_of_le (Nat.le_refl _)) _
      | faulty _ => exact .fault (answers_of_le (Nat.le_refl _)) _
    · exact .fault (answers_of_le (Nat.le_refl _)) _
  | onDeferred handle op =>
    simp only [Act.weight]
    unfold begin
    dsimp only
    split
    · exact beginDeferred_pays _ _ op
    · exact .fault (by omega) _
  | onPromise handle op =>
    have two : 2 ≤ op.weight := by cases op <;> simp only [PromiseOp.weight] <;> omega
    simp only [Act.weight]
    unfold begin
    dsimp only
    split
    · exact beginPromise_pays _ _ _ op
    · exact .fault (by omega) _

end Beginnings

namespace Machine

/-! ## One step of a run -/

section Steps

open World

variable {w : World} {below : List Frame}

/-- A script goes on with its next step, which its text pays for. -/
theorem enter_pays (rest : w.Every fun q => q.AtRest) {frame : Frame} (scripted : frame.Scripted)
    (act : Act) :
    Pays w (frame.weight + act.weight) below (enter w (frame :: below) act) := by
  obtain ⟨less, begun⟩ := @begin_pays w (heldBy (frame :: below)) rest act
  unfold enter
  generalize begin w (heldBy (frame :: below)) act = start at less begun
  refine ⟨?_, ?_⟩
  · simp only [Machine.weight, stackWeight_append, stackWeight_cons]
    omega
  · obtain ⟨none, told⟩ | ⟨goes, first, others, some, busy⟩ := begun
    · intro top under hstack
      dsimp only at hstack ⊢
      rw [none] at hstack
      obtain ⟨rfl, -⟩ := List.cons.inj hstack
      exact ⟨fun resume => absurd resume told, fun _ _ => scripted⟩
    · intro top under hstack
      dsimp only at hstack ⊢
      rw [some] at hstack
      obtain ⟨rfl, -⟩ := List.cons.inj hstack
      exact ⟨fun _ => busy, fun f hf => by cases goes.symm.trans hf⟩

/-- The body of a waker that is woken is paid for by the world. -/
theorem wake_pays {w' : World} (i : WakerId) (again : List Frame)
    (le : w'.weight + 2 + stackWeight again < w.weight + cost) :
    Pays w cost below (wake w' (again ++ below) i) := by
  have woken := weight_wake_le w' i
  have goes : wake w' (again ++ below) i
      = goOn (w'.wake i).1 (.body "" (w'.wake i).2 :: (again ++ below)) := rfl
  rw [goes]
  refine .goOn not_false ?_
  simp only [Frame.weight, stackWeight_append]
  omega

/-- The call of an item is paid for by what the item weighed in its queue, and if it wakes a waker,
by the body of the waker. -/
theorem call_pays (below : List Frame) (c : CompletionId) (x : Item) :
    Pays w x.weight below (call w below c x) := by
  have woken : ∀ {w' : World} (i : WakerId), w'.weight ≤ w.weight →
      Pays w wakerWeight below (wake w' below i) := fun i le =>
    wake_pays i [] (by simp only [stackWeight_nil, wakerWeight]; omega)
  cases x with
  | callback cb guard =>
    have weight := cb.weight_eq
    cases guard with
    | none =>
      refine .goOn not_false ?_
      simp only [Item.weight, Frame.weight]
      omega
    | some ctx =>
      refine .goOn not_false ?_
      simp only [Item.weight, Frame.weight, stackWeight_cons]
      omega
  | countdown k name n =>
    cases n with
    | zero =>
      refine ⟨?_, .hand _ _ _⟩
      simp only [Machine.weight, call, hand, stackWeight_cons, Frame.weight, Control.weight,
        Item.weight, countdownWeight]
      omega
    | succ n =>
      refine .goOn not_false ?_
      simp only [Frame.weight, stackWeight_cons, Item.weight, countdownWeight, Site.Call.start,
        Completion.Call.start, Site.Point.weightBy, Completion.Point.weightBy]
      omega
  | waker i => exact woken i (Nat.le_refl _)
  | relay watch =>
    have set := weight_setSite_le w c ((w.site c).takeWaker watch).1
    have taken : (w.setSite c ((w.site c).takeWaker watch).1).weight ≤ w.weight :=
      Nat.le_of_add_le_add_right set
    unfold call
    dsimp only
    split
    next s idle =>
      rw [idle] at taken
      exact .hand (by simp only [Item.weight, wakerWeight] at taken ⊢; omega) _
    next s i stored =>
      rw [stored] at taken
      exact woken i taken

/-- A step of a call on a completion is paid for by the call, or by the item that it takes. -/
theorem drive_pays (rest : w.Every fun q => q.AtRest) (c : CompletionId)
    (here : Site.Point Value Item WakerId) :
    Pays w (here.weightBy Item.weight) below (drive w below c here) := by
  have pays := (Site.step_does (w.site c) here).pays (f := Item.weight) (rest.completion c)
  unfold drive
  rcases hstep : (w.site c).step here with ⟨s, action⟩
  rw [hstep] at pays
  have set := weight_setSite_le w c s
  have budget : (w.setSite c s).weight + action.leaves Item.weight (Site.Point.weightBy Item.weight)
      ≤ w.weight + here.weightBy Item.weight := by
    have same : (w.site c).completion = w.completion c := rfl
    rw [same] at pays
    dsimp only at pays
    omega
  cases action with
  | goto p =>
    refine .goOn not_false ?_
    simp only [Action.leaves, Frame.weight] at budget ⊢
    omega
  | notice n p =>
    have noted : (notice (w.setSite c s) c n).weight = (w.setSite c s).weight := by cases n <;> rfl
    refine .goOn not_false ?_
    simp only [Action.leaves, Frame.weight] at budget ⊢
    omega
  | call k x arg p =>
    obtain ⟨less, poised⟩ := call_pays (w := (w.setSite c s).record (.started c k x arg))
      (.driving c p :: below) c x
    refine ⟨?_, poised⟩
    simp only [Action.leaves, weight_record, stackWeight_cons, Frame.weight] at budget less ⊢
    omega
  | done a =>
    simp only [Action.leaves] at budget
    rcases a with (_ | _ | _) | _ | _ <;>
      exact .hand (by first | omega | (rw [weight_record]; omega)) _
  | refused side st =>
    simp only [Action.leaves] at budget
    exact .raise (by simp only [Panic.weight]; omega)

/-- A predicate answers, and the take pays for the next one with the payload that it takes. -/
theorem probe_pays (rest : w.Every fun q => q.AtRest) (q : Nat) (t : Test) (n : Nat) (v : Value) :
    Pays w 2 below (probe w below q t n v) := by
  have taken := weight_take?_le ((rest.record (.tested v false)).record (.discarded q v)) q
  rw [weight_record, weight_record] at taken
  unfold probe
  split
  next panics =>
    have inert := Test.weight_of_answer panics
    exact .raise (by rw [weight_record]; omega)
  next => exact .hand (by rw [weight_record, weight_record]; omega) _
  next =>
    split
    next empty =>
      rw [empty] at taken
      simp only [Option.toList_none, List.length_nil] at taken
      exact .hand (by omega) _
    next w' v' full =>
      rw [full] at taken
      simp only [Option.toList_some, List.length_singleton, payloadWeight] at taken
      refine ⟨?_, .hand _ _ _⟩
      simp only [Machine.weight, hand, stackWeight_cons, Frame.weight, Control.weight]
      omega

/-- Dropping what a panic carries is paid for by the panic, and the body of a waker by the
world. -/
theorem dispose_pays {w' : World} {p : Panic} (again : List Frame)
    (le : w'.weight + (1 + p.weight) + stackWeight again < w.weight + cost) :
    Pays w cost below (dispose w' (again ++ below) p) := by
  unfold dispose
  split
  next i found =>
    obtain ⟨handle, wakes, -⟩ := Option.bind_eq_some_iff.1 found
    have pays := Panic.weight_of_wakes? wakes
    exact wake_pays i again (by omega)
  next =>
    refine ⟨?_, .hand _ _ _⟩
    simp only [Machine.weight, hand, Control.weight, stackWeight_append]
    omega

theorem resume_pays (rest : w.Every fun q => q.AtRest) {frame : Frame} (busy : ¬ frame.Passive) :
    Pays w frame.weight below (resume w below frame) := by
  cases frame with
  | session watched script =>
    cases script with
    | nil => exact .hand (by simp only [Frame.weight]; omega) _
    | cons step script =>
      have pays := @enter_pays w below rest (.session watched script) trivial step.act
      simp only [Frame.weight, weightOf_cons] at pays ⊢
      rwa [Nat.add_comm step.act.weight, ← Nat.add_assoc]
  | body label script =>
    cases script with
    | nil => exact .hand (by simp only [Frame.weight]; omega) _
    | cons step script =>
      have pays := @enter_pays w below rest (.body step.label script) trivial step.act
      simp only [Frame.weight, weightOf_cons] at pays ⊢
      rwa [Nat.add_comm step.act.weight, ← Nat.add_assoc]
  | repeating count script =>
    cases count with
    | zero => exact .hand (by simp only [Frame.weight]; omega) _
    | succ n =>
      refine .goOn not_false ?_
      simp only [Frame.weight, stackWeight_cons, Nat.succ_mul]
      omega
  | driving c here => exact drive_pays rest c here
  | chaining c ctx entries =>
    cases entries with
    | nil => exact .hand (by simp only [Frame.weight]; omega) _
    | cons entry entries =>
      refine .goOn not_false ?_
      simp only [Frame.weight, stackWeight_cons, List.map_cons, List.sum_cons, Site.Call.start,
        Completion.Call.start, Site.Point.weightBy, Completion.Point.weightBy, Item.weight]
      omega
  | probing q t n v => exact probe_pays rest q t n v
  | catching | holding _ | settling _ _ | guarding _ _ | dropping _ | ending _ =>
    exact absurd trivial busy

theorem receive_pays (rest : w.Every fun q => q.AtRest) (r : Reply) (frame : Frame) :
    Pays w (frame.weight + 1) below (receive w below r frame) := by
  cases frame with
  | session watched script =>
    refine .goOn not_false ?_
    simp only [conclude, weight_record]
    omega
  | body label script =>
    refine .goOn not_false ?_
    simp only [weight_record]
    omega
  | holding ref =>
    have released := weight_release_le w (heldBy below) ref
    exact .hand (by simp only [Frame.weight]; omega) _
  | settling c s =>
    unfold receive
    dsimp only
    split
    · exact .hand (by simp only [weight_record, Frame.weight]; omega) _
    · exact .hand (by simp only [Frame.weight]; omega) _
  | catching | guarding _ _ => exact .hand (by simp only [Frame.weight]; omega) _
  | dropping payload =>
    have bound := payload.weight_le
    exact dispose_pays [] (by simp only [Frame.weight, stackWeight_nil]; omega)
  | ending label => exact .hand (by simp only [weight_record, Frame.weight]; omega) _
  | probing q t n v =>
    obtain ⟨less, poised⟩ := @probe_pays w below rest q t n v
    exact ⟨by simp only [receive, Frame.weight] at less ⊢; omega, poised⟩
  | repeating _ _ | driving _ _ | chaining _ _ _ =>
    refine .goOn not_false ?_
    omega

theorem reject_pays {frame : Frame} (scripted : frame.Scripted) (f : Fault) :
    Pays w (frame.weight + 1) below (reject w below f frame) := by
  cases frame with
  | session watched script =>
    refine .goOn not_false ?_
    simp only [conclude, weight_record]
    omega
  | body label script =>
    refine .goOn not_false ?_
    simp only [weight_record]
    omega
  | _ => exact absurd scripted not_false

theorem unwind_pays (p : Panic) {frame : Frame}
    (quiet : summons { world := w, stack := frame :: below, control := .unwind p } = false) :
    Pays w (frame.weight + (1 + p.weight)) below (unwind w below p frame) := by
  cases frame with
  | session watched script =>
    refine .goOn not_false ?_
    simp only [conclude, weight_record]
    omega
  | catching => exact .hand (by simp only [Frame.weight]; omega) _
  | holding ref =>
    have released := weight_release_le w (heldBy below) ref
    exact .raise (by simp only [Frame.weight]; omega)
  | guarding c ctx =>
    unfold unwind contain
    dsimp only [summons] at quiet ⊢
    split
    · exact .raise (by simp only [Frame.weight]; omega)
    next isolates =>
      rw [isolates] at quiet
      split
      · exact dispose_pays [] (by simp only [weight_record, Frame.weight, stackWeight_nil]; omega)
      next h handled =>
        rw [handled] at quiet
        cases quiet
  | dropping payload =>
    have bound := payload.weight_le
    unfold unwind
    dsimp only
    split
    next => exact .raise (by simp only [Frame.weight]; omega)
    next =>
      refine dispose_pays [.repeating 1 [.mk "" (.raise p)]] ?_
      simp only [Frame.weight, stackWeight_cons, stackWeight_nil, weightOf, Step.weight, Act.weight]
      omega
  | probing q t n v => exact .raise (by simp only [weight_record, Frame.weight]; omega)
  | chaining c ctx entries => exact .raise (by simp only [weight_record, Frame.weight]; omega)
  | body _ _ | repeating _ _ | settling _ _ | ending _ =>
    exact .raise (by simp only [Frame.weight]; omega)
  | driving c here =>
    have positive := here.weightBy_pos Item.weight
    exact .raise (by simp only [Frame.weight]; omega)

/-- As long as no panic handler is called, every step pays for what comes of it. -/
theorem step_pays {m : Machine} {frame : Frame} (rest : m.world.Every fun q => q.AtRest)
    (poised : m.Poised) (hstack : m.stack = frame :: below) (quiet : m.summons = false) :
    Pays m.world (frame.weight + m.control.weight) below m.step := by
  obtain ⟨w, stack, control⟩ := m
  obtain rfl : stack = frame :: below := hstack
  obtain ⟨busy, scripted⟩ := poised frame below rfl
  cases control with
  | resume => exact resume_pays rest (busy rfl)
  | answer r => exact receive_pays rest r frame
  | faulty f => exact reject_pays (scripted f rfl) f
  | unwind p => exact unwind_pays p quiet

/-- Only a guard that catches a panic calls a panic handler. -/
theorem of_summons {m : Machine} (summons : m.summons = true) :
    ∃ c ctx lower p h, m.stack = .guarding c ctx :: lower ∧ m.control = .unwind p ∧
      ctx.policy = .isolate ∧ ctx.handler = some h := by
  unfold Machine.summons at summons
  split at summons
  next c ctx lower p hstack told =>
    cases policy : ctx.policy with
    | propagate => simp [policy] at summons
    | isolate =>
      simp only [policy] at summons
      obtain ⟨h, handled⟩ := Option.isSome_iff_exists.1 summons
      exact ⟨c, ctx, lower, p, h, hstack, told, policy, handled⟩
  next => cases summons

theorem Poised.step {m : Machine} (poised : m.Poised) (rest : m.world.Every fun q => q.AtRest) :
    m.step.Poised := by
  cases hstack : m.stack with
  | nil =>
    rw [step_of_isOver (List.isEmpty_iff.2 hstack)]
    exact poised
  | cons frame below =>
    cases summons : m.summons with
    | false => exact (step_pays rest poised hstack summons).poised
    | true =>
      -- The handler has a body, which is told to go on.
      obtain ⟨c, ctx, lower, p, h, hstack, told, policy, handled⟩ := of_summons summons
      rw [step_of_unwind hstack told]
      simp only [unwind, policy, contain, handled]
      rintro top under ⟨⟩
      exact ⟨fun _ => not_false, fun _ told => by cases told⟩

end Steps

/-! ## A whole run -/

section Moments

variable {watched : List String} {script : Script} {n : Nat} {base : List Frame}

theorem moment_rest (n : Nat) : (moment watched script n).world.Every fun q => q.AtRest :=
  moment_every Queue.closed_atRest watched script n

theorem moment_poised (n : Nat) : (moment watched script n).Poised := by
  induction n with
  | zero =>
    intro frame below hstack
    obtain ⟨rfl, -⟩ := List.cons.inj hstack
    exact ⟨fun _ => not_false, nofun⟩
  | succ n ih =>
    rw [moment_succ]
    exact ih.step (moment_rest n)

/-- As long as no panic handler is called, every step lowers what is left to do. -/
theorem weight_moment_lt {frame : Frame} {below : List Frame}
    (hstack : (moment watched script n).stack = frame :: below)
    (quiet : (moment watched script n).summons = false) :
    (moment watched script (n + 1)).weight < (moment watched script n).weight := by
  have pays := (step_pays (moment_rest n) (moment_poised n) hstack quiet).less
  rw [moment_succ]
  simp only [weight, hstack, stackWeight_cons] at pays ⊢
  omega

/-- From a moment on, no panic handler is called as long as something runs above the frames. -/
def Unhandled (watched : List String) (script : Script) (base : List Frame) (n : Nat) : Prop :=
  ∀ i, n ≤ i → (∀ k, n ≤ k → k ≤ i → Above base (moment watched script k)) →
    (moment watched script i).summons = false

/-- Whatever runs above some frames comes back to them, with an answer or with a panic, unless panic
handlers are called. -/
theorem comes_back (above : Above base (moment watched script n))
    (unhandled : Unhandled watched script base n) :
    ∃ j, n < j ∧ j ≤ n + (moment watched script n).weight ∧
      (∀ k, n ≤ k → k < j → Above base (moment watched script k)) ∧
      Back base (moment watched script j) := by
  -- The weight of the whole run, on what is left of it.
  induction bound : (moment watched script n).weight using Nat.strongRecOn generalizing n with
  | ind b ih =>
    subst bound
    have here : ∀ k, n ≤ k → k ≤ n → Above base (moment watched script k) := fun k hnk hkn => by
      obtain rfl := Nat.le_antisymm hkn hnk
      exact above
    obtain ⟨frame, frames, hstack⟩ := id above
    have less := weight_moment_lt hstack (unhandled n (Nat.le_refl n) here)
    have goes := (moment_sound watched script n).above_step above
    rw [← moment_succ] at goes
    obtain above' | back := goes
    · have unhandled' : Unhandled watched script base (n + 1) := by
        intro i hi since
        refine unhandled i (Nat.le_of_succ_le hi) fun k hnk hki => ?_
        obtain rfl | later := Nat.eq_or_lt_of_le hnk
        · exact above
        · exact since k later hki
      obtain ⟨j, hj, le, since, back⟩ := ih _ less above' unhandled' rfl
      refine ⟨j, Nat.lt_of_succ_lt hj, by omega, fun k hnk hkj => ?_, back⟩
      obtain rfl | later := Nat.eq_or_lt_of_le hnk
      · exact above
      · exact since k later hkj
    · exact ⟨n + 1, Nat.lt_succ_self n, by omega,
        fun k hnk hkn => here k hnk (Nat.le_of_lt_succ hkn), back⟩

/-- A run in which no panic handler is called is over after as many steps as its text weighs. -/
theorem isOver_of_unhandled (unhandled : ∀ i, (moment watched script i).summons = false) :
    (moment watched script (weightOf script + 2)).isOver = true := by
  have begun : (moment watched script 0).weight = weightOf script + 2 := by
    have world : (moment watched script 0).world.weight = 0 := rfl
    have stack : stackWeight (moment watched script 0).stack = 2 + weightOf script := rfl
    have control : (moment watched script 0).control.weight = 0 := rfl
    rw [weight, world, stack, control]
    omega
  obtain ⟨j, -, le, -, back⟩ := @comes_back watched script 0 [] ⟨_, [], rfl⟩
    fun i _ _ => unhandled i
  have ended : (moment watched script j).isOver = true := List.isEmpty_iff.2 back.stack
  rw [moment_of_isOver ended (by omega)]
  exact ended

end Moments

end Machine

/-! ## What is called was chained -/

/-- The item that an event says began to be called. -/
def Event.invocation : Event → List (CompletionId × Item)
  | .started c _ x _ => [(c, x)]
  | _ => []

/-- The item that an event says was chained. -/
def Event.registration : Event → List (CompletionId × Item)
  | .registered c _ x => [(c, x)]
  | _ => []

namespace World

/-- How many callbacks and wakers have been called on all completions. -/
def invocations (w : World) : Nat := (w.history.flatMap Event.invocation).length

/-- How many callbacks and wakers have been registered on all completions. -/
def registrations (w : World) : Nat := (w.history.flatMap Event.registration).length

/-- How many callbacks and wakers are chained on all completions. -/
def chainedItems (w : World) : Nat := w.chained fun _ => 1

variable {w w' : World}

/-- A step that goes on with no call chains nothing. -/
theorem Proceeds.chained_le {granted : List Ref} (h : w.Proceeds granted w') (f : Item → Nat) :
    w'.chained f ≤ w.chained f := by
  refine sumOf_le h.size fun i x y hx hy => ?_
  obtain same | gone := h.places i
  · obtain rfl : y = x := Option.some.inj (hy.symm.trans (same.trans hx))
    exact Nat.le_refl _
  · obtain rfl : y = none := Option.some.inj (hy.symm.trans gone)
    exact Nat.zero_le _

theorem Births.chained_le {r : Ref} (h : Births w w' r) (f : Item → Nat) :
    w'.chained f ≤ w.chained f := by
  have added : (w.addCompletion {}).1.chained f = w.chained f := by
    simp only [chained, addCompletion, sumOf_push]
    rfl
  cases h with
  | pending => exact Nat.le_of_eq added
  | @settled ctx watch o =>
    have set := chained_set_le f ((w.addCompletion {}).1.record
      (.offered (.completion w.completions.size) o)) w.completions.size
      (some { (w.addCompletion {}).1.completion w.completions.size with
        cell := (((w.addCompletion {}).1.completion w.completions.size).cell.tryCommit o).1 })
    exact Nat.le_trans (Nat.le_of_add_le_add_right set) (Nat.le_of_eq added)

end World

namespace Machine

theorem invocation_of_plain (ev : Event) (plain : ev.Plain) : ev.invocation = [] := by
  cases ev with
  | started => exact plain.elim
  | _ => rfl

theorem registration_of_plain (ev : Event) (plain : ev.Plain) : ev.registration = [] := by
  cases ev with
  | registered => exact plain.elim
  | _ => rfl

/-- What an action of a call puts on record is what it takes from a queue or adds to one. -/
theorem length_events {π : Type} (a : Action Value Item π (Site.Answer Value)) (c : CompletionId) :
    ((a.events c ++ a.logs c).flatMap Event.invocation).length = a.takes (fun _ => 1) ∧
      ((a.events c ++ a.logs c).flatMap Event.registration).length = a.adds (fun _ => 1) := by
  rcases a with _ | (_ | _ | _) | _ | ((_ | _ | _) | _ | _) | _ <;> exact ⟨rfl, rfl⟩

section Counts

variable {w : World} {below : List Frame} {m' : Machine}

/-- A step that is no step of a call neither calls nor chains anything. -/
theorem Moves.invocations_le {frame : Frame} {control : Control}
    (moves : Moves w below frame control m') :
    m'.world.invocations = w.invocations ∧ m'.world.registrations = w.registrations ∧
      m'.world.chainedItems ≤ w.chainedItems := by
  refine ⟨congrArg List.length ?_, congrArg List.length ?_, ?_⟩
  · exact moves.flatMap_history _ invocation_of_plain (fun _ => rfl) (fun _ _ => rfl)
      (fun _ _ _ => rfl) fun _ _ => rfl
  · exact moves.flatMap_history _ registration_of_plain (fun _ => rfl) (fun _ _ => rfl)
      (fun _ _ _ => rfl) fun _ _ => rfl
  · obtain proceeds | ⟨r, w₁, act, base, births, proceeds, -⟩ := moves.proceeds
    · have noted : (w.recordAll (frame.remarks control)).chainedItems = w.chainedItems := by
        rw [World.chainedItems, World.chained, completions_recordAll]
        rfl
      exact noted ▸ proceeds.chained_le _
    · exact Nat.le_trans (proceeds.chained_le _) (births.chained_le _)

/-- A step of a call takes what it calls from a queue, and chains what it registers. -/
theorem Works.invocations_le {c : CompletionId} {here : Site.Point Value Item WakerId}
    {s : Site Value Item WakerId}
    {action : Action Value Item (Site.Point Value Item WakerId) (Site.Answer Value)}
    (works : Works w c here below m' s action) (rest : (w.completion c).AtRest) :
    m'.world.invocations + m'.world.chainedItems + w.registrations
      ≤ w.invocations + w.chainedItems + m'.world.registrations := by
  have burden := works.does.burden_eq (f := fun _ => 1) rest
  have set := World.chained_set_le (fun _ => 1) w c (some s.completion)
  have kept := works.proceeds.chained_le fun _ => 1
  have called := works.proceeds.flatMap_history _ invocation_of_plain
  have registered := works.proceeds.flatMap_history _ registration_of_plain
  rw [World.history_recordAll, List.flatMap_append] at called registered
  obtain ⟨taken, added⟩ := length_events action c
  have invocations : m'.world.invocations = w.invocations + action.takes fun _ => 1 := by
    rw [World.invocations, called, List.length_append, taken]
    rfl
  have registrations : m'.world.registrations = w.registrations + action.adds fun _ => 1 := by
    rw [World.registrations, registered, List.length_append, added]
    rfl
  have noted : ((w.setSite c s).recordAll (action.events c ++ action.logs c)).chained (fun _ => 1)
      = (w.setSite c s).chained fun _ => 1 := by
    rw [World.chained, completions_recordAll, World.chained]
  have chained : (w.setSite c s).chained (fun _ => 1) + (w.completion c).burden (fun _ => 1)
      ≤ w.chained (fun _ => 1) + s.completion.burden fun _ => 1 := set
  have site : (w.site c).completion = w.completion c := rfl
  rw [site] at burden
  simp only [World.chainedItems]
  omega

variable {watched : List String} {script : Script}

/-- Each call takes an item away that was chained before or has been registered since. -/
theorem invocations_le {i j : Nat} (le : i ≤ j) :
    (moment watched script j).world.invocations + (moment watched script j).world.chainedItems
        + (moment watched script i).world.registrations
      ≤ (moment watched script i).world.invocations + (moment watched script i).world.chainedItems
        + (moment watched script j).world.registrations := by
  induction le with
  | refl => exact Nat.le_refl _
  | @step j _ ih =>
    rw [Nat.succ_eq_add_one]
    have sound := moment_sound watched script j
    cases hstack : (moment watched script j).stack with
    | nil =>
      have ended := step_of_isOver (List.isEmpty_iff.2 hstack)
      rw [moment_succ, ended]
      exact ih
    | cons frame below =>
      have works_or_moves := sound.moves_or_works hstack
      rw [← moment_succ] at works_or_moves
      obtain moves | ⟨c, here, s, action, -, rfl, works⟩ := works_or_moves
      · obtain ⟨invocations, registrations, chained⟩ := moves.invocations_le
        omega
      · have counts := works.invocations_le ((moment_rest j).completion c)
        omega

/-- Every operation on a completion comes to an end. A call on a completion begins, above any
frames of any run, and while it runs no panic handler is called: then it comes back to the frames,
with an answer or with a panic, and it has called no more callbacks and wakers than were chained on
all completions when it began and have been registered since. It takes no more steps than the run
weighs. -/
theorem every_operation_ends {n : Nat} {c : CompletionId}
    {call : Site.Call Value Item WakerId} {below : List Frame}
    (begins : (moment watched script n).stack = .driving c call.start :: below)
    (unhandled : Unhandled watched script below n) :
    ∃ j, n < j ∧ j ≤ n + (moment watched script n).weight ∧
      (∀ i, n ≤ i → i < j → Above below (moment watched script i)) ∧
      Back below (moment watched script j) ∧
      (moment watched script j).world.invocations + (moment watched script n).world.registrations
        ≤ (moment watched script n).world.invocations + (moment watched script n).world.chainedItems
          + (moment watched script j).world.registrations := by
  obtain ⟨j, hnj, le, above, back⟩ := comes_back ⟨_, [], begins⟩ unhandled
  have counts := @invocations_le watched script _ _ (Nat.le_of_lt hnj)
  exact ⟨j, hnj, le, above, back, by omega⟩

end Counts

/-- A countdown and a callback are chained on the one completion, and a callback on the other. When
the one is completed, its callback completes the other, whose callback registers another one with
the first and then panics. -/
def crossingScript : Script :=
  [.mk "" (.create "a" .completion), .mk "" (.create "b" .completion),
    .mk "" (.onCompletion "a" (.registerCountdown .always "again" 2)),
    .mk "" (.onCompletion "a" (.register (.on .success) (.mk "crosses"
      [.mk "" (.onCompletion "b" (.complete ⟨.failure, { data := .int 2 }⟩))]))),
    .mk "" (.onCompletion "b" (.register (.on .failure) (.mk "refills"
      [.mk "" (.onCompletion "a" (.register .always (.mk "late" []))),
        .mk "" (.raise (.text "lost"))]))),
    .mk "" (.onCompletion "a" (.complete ⟨.success, { data := .int 1 }⟩))]

/-- The outermost drain of `crossingScript` unwinds after 67 steps. Three items were chained before,
three were registered meanwhile, and all six have been called. -/
theorem every_operation_ends_crossing :
    (moment [] crossingScript 20).stack
      = .driving 0 (Site.Call.direct (.complete ⟨.success, { data := .int 1 }⟩)).start
        :: (moment [] crossingScript 87).stack ∧
    (moment [] crossingScript 20).world.chainedItems = 3 ∧
    (moment [] crossingScript 87).world.invocations = 6 ∧
    ∃ j, 20 < j ∧ j ≤ 20 + 84 ∧
      Back (moment [] crossingScript 87).stack (moment [] crossingScript j) ∧
      (moment [] crossingScript j).world.invocations
        ≤ (moment [] crossingScript j).world.registrations := by
  have begins : (moment [] crossingScript 20).stack
      = .driving 0 (Site.Call.direct (.complete ⟨.success, { data := .int 1 }⟩)).start
        :: (moment [] crossingScript 87).stack := rfl
  have ended : (moment [] crossingScript 90).isOver = true := by decide +kernel
  have quiet : ∀ i < 90, (moment [] crossingScript i).summons = false := by decide +kernel
  have unhandled : ∀ i, (moment [] crossingScript i).summons = false := by
    intro i
    obtain early | late := Nat.lt_or_ge i 90
    · exact quiet i early
    · rw [moment_of_isOver ended late]
      rfl
  have weight : (moment [] crossingScript 20).weight = 84 := by decide +kernel
  have chained : (moment [] crossingScript 20).world.chainedItems = 3 := by decide +kernel
  have earlier : (moment [] crossingScript 20).world.invocations = 0 ∧
      (moment [] crossingScript 20).world.registrations = 3 := by decide +kernel
  obtain ⟨j, hj, le, -, back, counts⟩ := every_operation_ends begins fun i _ _ => unhandled i
  refine ⟨begins, chained, by decide +kernel, j, hj, weight ▸ le, back, ?_⟩
  rw [chained, earlier.1, earlier.2] at counts
  omega

end Machine

end Eventual
