import Eventual.Proofs.Machine.OneOutcome
import Eventual.Proofs.World.References

/-!
# What a step of a run can be

The steps of a run, listed once. A step that is no step of a call on a completion is one of
the `Moves`: a step of a script begins, a frame goes on or comes to its end, a panic passes a
frame or is contained, and what it carries is dropped. A step of a script either starts a call on a completion that a handle
refers to, `Engages`, or starts nothing that has to do with completions.

A step of a call on a completion is as `Drives` has it, and besides leaves the handles and
other completions alone and notes what the action says, `Works`. What an item puts onto the
stack when it is called is `Item.Runs`.
-/

namespace Eventual

/-- A frame that has nothing to do with a completion: code of the user, or a take from a
queue. -/
def Frame.Aloof : Frame → Prop
  | .body _ _ | .catching | .repeating _ _ | .dropping _ | .probing _ _ _ _ => True
  | .holding r => ∀ c, r.entity? ≠ some (.completion c)
  | .session _ _ | .driving _ _ | .settling _ _ | .guarding _ _ | .ending _
  | .chaining _ _ _ => False

theorem Frame.Aloof.idle {f : Frame} (h : f.Aloof) : f.Idle := by
  cases f with
  | driving => exact h.elim
  | _ => trivial

/-- A step of a script starts a call on a completion: the reference that a handle has and
that the call holds, the call, and the frames that await its answer. -/
inductive Engages (w : World) (c : CompletionId) :
    Act → Ref → Site.Call Value Item WakerId → List Frame → Prop
  | direct {handle : String} {op : CompletionOp} {call : Completion.Call Value Item} :
      w.lookup handle = some (.completion c) →
      Engages w c (.onCompletion handle op) (.completion c) (.direct call) []
  | settle {handle : String} {ctx : Context} {o : Outcome Value} :
      w.lookup handle = some (.deferred c ctx) →
      Engages w c (.onDeferred handle (.settle o)) (.deferred c ctx) (.direct (.complete o))
        [.settling c o.side]
  | register {handle : String} {ctx : Context} {watch : WatchId} {k : Kind} {cb : Callback} :
      w.lookup handle = some (.promise c ctx watch) →
      Engages w c (.onPromise handle (.register k cb)) (.promise c ctx watch)
        (.direct (.register k (.callback cb (some ctx)))) []
  | poll {handle wakes : String} {ctx : Context} {watch : WatchId} {i : WakerId} :
      w.lookup handle = some (.promise c ctx watch) →
      Engages w c (.onPromise handle (.poll wakes)) (.promise c ctx watch)
        (.poll { watch, waker := i, relay := .relay watch }) []

/-- What the beginning of a step of a script leads to. -/
inductive Start.Opens (w : World) (act : Act) : Start → Prop
  | aloof {s : Start} : w.Proceeds [] s.world → (∀ f ∈ s.frames, f.Aloof) →
      (s.frames ≠ [] → s.control = .resume) → Opens w act s
  | births {handle : String} {m : Maker} {r : Ref} {w₁ w' : World} : act = .create handle m →
      World.Births w w₁ r → World.Proceeds [r] w₁ w' → Opens w act (Start.reply w' .unit)
  | engages {w' : World} {c : CompletionId} {r : Ref} {call : Site.Call Value Item WakerId}
      {awaiting : List Frame} : Engages w c act r call awaiting → w.Proceeds [] w' →
      Opens w act (Start.engage w' r c call awaiting)
  | chains {handle : String} {c : CompletionId} {ctx : Context} {watch : WatchId} {first : Side}
      {onFirst onOther always : Callback} {rest : List (Kind × Callback)} :
      act = .onPromise handle (.chained first onFirst onOther always) →
      w.lookup handle = some (.promise c ctx watch) →
      Opens w act (Start.run w [.chaining c ctx rest, .holding (.promise c ctx watch)])

/-- What an item puts onto the stack when it is called, and what the topmost frame is told. -/
inductive Item.Runs (c : CompletionId) : Item → List Frame → Control → Prop
  | bare {cb : Callback} : Runs c (.callback cb none) [.body "" cb.body] .resume
  | guarded {cb : Callback} {ctx : Context} :
      Runs c (.callback cb (some ctx)) [.body "" cb.body, .guarding c ctx] .resume
  | last {k : Kind} {name : String} :
      Runs c (.countdown k name 0) [.ending (countdownLabel name 0)] (.answer .unit)
  | again {k : Kind} {name : String} {n : Nat} :
      Runs c (.countdown k name (n + 1))
        [.driving c (Site.Call.direct (.register k (.countdown k name n))).start,
          .ending (countdownLabel name (n + 1))] .resume
  | waker {i : WakerId} {body : Script} : Runs c (.waker i) [.body "" body] .resume
  | relay {watch : WatchId} {body : Script} : Runs c (.relay watch) [.body "" body] .resume
  /-- A relay that finds no waker has nothing to run. -/
  | idle {watch : WatchId} : Runs c (.relay watch) [] (.answer .unit)

/-- The line that an action of a call on a completion writes to the log. -/
def Action.logs {π : Type} (c : CompletionId) :
    Action Value Item π (Site.Answer Value) → List Event
  | .notice (.logged r) _ => [.logged c r]
  | .notice (.registered _ _) _ | .notice (.settled _) _ | .goto _ | .call _ _ _ _ | .done _
  | .refused _ _ => []

/-- The lines that a frame writes to the log when it is told something, and whom it reports
to. -/
def Frame.remarks : Frame → Control → List Event
  | .settling c s, .answer (.flag false) => [.logged c (.lost s)]
  | .guarding c ctx, .unwind p =>
    match ctx.policy with
    | .propagate => []
    | .isolate =>
      .logged c (.contained ctx.label p) :: (ctx.handler.map fun h => .reported h.name p).toList
  | _, _ => []

theorem Frame.remarks_resume (f : Frame) : f.remarks .resume = [] := by cases f <;> rfl

/-- The remarks of a frame are lines of the log and reports. -/
theorem Frame.flatMap_remarks {β : Type} (count : Event → List β)
    (lost : ∀ c s, count (.logged c (.lost s)) = [])
    (contained : ∀ c label p, count (.logged c (.contained label p)) = [])
    (reported : ∀ h p, count (.reported h p) = [])
    (frame : Frame) (control : Control) : (frame.remarks control).flatMap count = [] := by
  unfold Frame.remarks
  split
  next => rw [List.flatMap_cons, lost, List.flatMap_nil, List.append_nil]
  next ctx _ =>
    cases ctx.policy with
    | propagate => rfl
    | isolate =>
      rw [List.flatMap_cons, contained, List.nil_append]
      cases ctx.handler with
      | none => rfl
      | some h => exact (List.flatMap_singleton count _).trans (reported h.name _)
  next => rfl

open World

/-! ## Settlements -/

/-- The outcome that an event says has settled a completion. -/
def Event.settlesOn (c : CompletionId) : Event → List (Outcome Value)
  | .settled (.completion c') o => if c' = c then [o] else []
  | _ => []

/-- What a completion has settled on, read off the whole history. -/
theorem settlement_eq (w : World) (c : CompletionId) :
    w.settlement c = (w.history.flatMap (Event.settlesOn c)).head? := by
  unfold World.settlement World.story
  congr 1
  induction w.history with
  | nil => rfl
  | cons ev history ih =>
    rw [List.filter_cons, List.flatMap_cons, ← ih]
    cases ev with
    | settled e o =>
      cases e with
      | completion c' =>
        by_cases hc : c' = c <;> simp [Event.subject?, Event.settlesOn, Event.settles, hc]
      | cell i | queue i => simp [Event.subject?, Event.settlesOn]
    | _ => simp [Event.settlesOn, Event.settles, apply_ite]

theorem World.Proceeds.settlement {granted : List Ref} {w w' : World}
    (h : Proceeds granted w w') (c : CompletionId) : w'.settlement c = w.settlement c := by
  rw [settlement_eq, settlement_eq, h.flatMap_history]
  intro ev plain
  cases ev with
  | settled e o =>
    cases e with
    | completion => exact plain.elim
    | _ => rfl
  | _ => rfl

theorem World.Births.settlement {w w' : World} {r : Ref} (h : Births w w' r) {c : CompletionId}
    (other : w.completions.size ≠ c) : w'.settlement c = w.settlement c := by
  rw [settlement_eq, settlement_eq, h.flatMap_history]
  · intro ev plain
    cases ev with
    | settled e o =>
      cases e with
      | completion => exact plain.elim
      | _ => rfl
    | _ => rfl
  · exact fun o => if_neg other

/-! ## Beginning a step -/

section Beginnings

variable {w w' : World} {held : List Ref} {act : Act} {c : CompletionId}

theorem Start.Opens.of_nil {s : Start} (proceeds : w.Proceeds [] s.world) (h : s.frames = []) :
    s.Opens w act :=
  .aloof proceeds (by simp [h]) fun ne => absurd h ne

theorem Start.Opens.read (proceeds : w.Proceeds [] w') (cell : Cell Value) (r : Reading) :
    (Start.read w' cell r).Opens w act := by
  cases r with
  | state | flags | result => exact .of_nil proceeds rfl
  | demand s =>
    unfold Start.read
    dsimp only
    split
    next => exact .of_nil proceeds rfl
    next => exact .of_nil proceeds rfl

theorem proceeds_offered (w : World) (e : Entity) (o : Outcome Value) :
    w.Proceeds [] (w.record (.offered e o)) := .record w _ trivial

theorem beginCell_opens (i : Nat) (op : CellOp) : (beginCell w i op).Opens w act := by
  cases op with
  | tryCommit o =>
    have set : Proceeds [] (w.record (.offered (.cell i) o))
        ((w.record (.offered (.cell i) o)).setCell i ((w.cell i).tryCommit o).1) :=
      .of_eq rfl rfl rfl
    exact .of_nil (((proceeds_offered w _ o).trans set).trans
      (.record _ _ (by split <;> trivial))) rfl
  | read r => exact .read (.refl w) (w.cell i) r
  | describe _ | faulty _ => exact .of_nil (.refl w) rfl

theorem proceeds_append (w : World) (q : Nat) (v : Value) : w.Proceeds [] (w.append q v) := by
  have set : Proceeds [] w (w.setQueue q ((w.queue q).append v)) := .of_eq rfl rfl rfl
  exact set.trans (.record _ _ trivial)

theorem proceeds_appendAll (w : World) (q : Nat) (ns : List Int) :
    w.Proceeds [] (ns.foldl (fun w n => w.append q { data := .int n }) w) := by
  induction ns generalizing w with
  | nil => exact .refl w
  | cons n ns ih => exact (proceeds_append w q _).trans (ih _)

theorem proceeds_take? (w : World) (q : Nat) : w.Proceeds [] (w.take? q).1 := .of_eq rfl rfl rfl

theorem proceeds_takeAll (w : World) (q fuel : Nat) : w.Proceeds [] (w.takeAll q fuel).1 := by
  induction fuel generalizing w with
  | zero => exact .refl w
  | succ fuel ih =>
    have taken := proceeds_take? w q
    unfold World.takeAll
    split
    next w₁ h => exact (congrArg Prod.fst h) ▸ taken
    next w₁ v h =>
      rw [h] at taken
      exact (taken.trans (.record w₁ (.consumed q v) trivial)).trans (ih _)

theorem beginQueue_opens (q : Nat) (op : QueueOp) : (beginQueue w q op).Opens w act := by
  have taken := proceeds_take? w q
  cases op with
  | append v => exact .of_nil (proceeds_append w q v) rfl
  | appendRange start stop => exact .of_nil (proceeds_appendAll w q _) rfl
  | popAll => exact .of_nil (proceeds_takeAll w q (w.queue q).length) rfl
  | isEmpty | length | describe _ | faulty _ => exact .of_nil (.refl w) rfl
  | pop =>
    unfold beginQueue
    dsimp only
    split
    next w₁ h =>
      rw [h] at taken
      exact .of_nil taken rfl
    next w₁ v h =>
      rw [h] at taken
      exact .of_nil (taken.trans (.record w₁ _ trivial)) rfl
  | popMatching body t =>
    unfold beginQueue
    dsimp only
    split
    next w₁ h =>
      rw [h] at taken
      exact .of_nil taken rfl
    next w₁ v h =>
      rw [h] at taken
      exact .aloof taken (by simp [Start.run, Frame.Aloof, Ref.entity?]) fun _ => rfl

theorem beginCompletion_opens {handle : String} (refers : w.lookup handle = some (.completion c))
    (op : CompletionOp) : (beginCompletion w c op).Opens w (.onCompletion handle op) := by
  cases op with
  | tryCommit o | complete o => exact .engages (.direct refers) (proceeds_offered w _ o)
  | register k cb | registerCountdown k name n | drain s =>
    exact .engages (.direct refers) (.refl w)
  | registerWaker handle =>
    unfold beginCompletion
    dsimp only
    split
    next => exact .engages (.direct refers) (.refl w)
    next => exact .of_nil (.refl w) rfl
  | read r => exact .read (.refl w) _ r
  | describe _ | faulty _ => exact .of_nil (.refl w) rfl

/-- What refers to no completion may be bound. -/
theorem proceeds_bind {r : Ref} (held : List Ref) (handle : String)
    (apart : ∀ c, r.entity? ≠ some (.completion c)) : w.Proceeds [] (w.bind held handle r) :=
  .bind held handle (.inr (.inr apart))

theorem beginContext_opens (ctx : Context) (op : ContextOp) :
    (beginContext w held ctx op).Opens w act := by
  cases op with
  | clone handle => exact .of_nil (proceeds_bind held handle nofun) rfl
  | profile | describe _ | faulty _ => exact .of_nil (.refl w) rfl

theorem beginDeferred_opens {handle : String} {ctx : Context}
    (refers : w.lookup handle = some (.deferred c ctx)) (op : DeferredOp) :
    (beginDeferred w held c ctx op).Opens w (.onDeferred handle op) := by
  have known := mem_of_lookup refers
  cases op with
  | settle o => exact .engages (.settle refers) (proceeds_offered w _ o)
  | promise handle =>
    exact .of_nil (.bindPromise held handle fun _ => .inl ⟨_, known, .promise⟩) rfl
  | clone handle => exact .of_nil (.bind held handle (.inl ⟨_, known, .refl _⟩)) rfl
  | profile | describe _ | faulty _ => exact .of_nil (.refl w) rfl

theorem beginPromise_opens {handle : String} {ctx : Context} {watch : WatchId}
    (refers : w.lookup handle = some (.promise c ctx watch)) (op : PromiseOp) :
    (beginPromise w held c ctx watch op).Opens w (.onPromise handle op) := by
  have known := mem_of_lookup refers
  cases op with
  | register k cb => exact .engages (.register refers) (.refl w)
  | chained first onFirst onOther always => exact .chains rfl refers
  | flags => exact Start.Opens.read (.refl w) (w.completion c).cell .flags
  | clone handle =>
    exact .of_nil (.bindPromise held handle fun _ => .inl ⟨_, known, .clone⟩) rfl
  | poll wakes =>
    unfold beginPromise
    dsimp only
    split
    next =>
      split
      next => exact .of_nil (.refl w) rfl
      next => exact .engages (.poll refers) (.refl w)
    next => exact .of_nil (.refl w) rfl
  | blockOn =>
    unfold beginPromise
    dsimp only
    split
    next => exact .of_nil (.record w _ trivial) rfl
    next => exact .of_nil (.refl w) rfl
  | profile | describe _ | faulty _ => exact .of_nil (.refl w) rfl

theorem learns_granted (w : World) (r : Ref) : Learns [r] w r :=
  .inr (.inl ⟨r, List.mem_singleton_self r, .refl r⟩)

theorem beginMaker_opens (handle : String) (m : Maker) :
    (beginMaker w held handle m).Opens w (.create handle m) := by
  have bound : ∀ w' r, Proceeds [r] w' (w'.bind held handle r) := fun w' r =>
    .bind held handle (learns_granted w' r)
  cases m with
  | cell =>
    have added : Proceeds [] w (w.addCell {}).1 := .of_eq rfl rfl rfl
    exact .of_nil (added.trans (proceeds_bind held handle nofun)) rfl
  | queue =>
    have added : Proceeds [] w (w.addQueue {}).1 := .of_eq rfl rfl rfl
    exact .of_nil (added.trans (proceeds_bind held handle nofun)) rfl
  | waker body =>
    have added : Proceeds [] w (w.addWaker { name := handle, body }).1 := .of_eq rfl rfl rfl
    exact .of_nil (added.trans (proceeds_bind held handle nofun)) rfl
  | completion => exact .births rfl (.pending rfl) (bound _ _)
  | context settings => exact .of_nil (proceeds_bind held handle nofun) rfl
  | deferred context =>
    cases context with
    | none => exact .births rfl (.pending rfl) (bound _ _)
    | some name =>
      unfold beginMaker
      dsimp only
      split
      next => exact .births rfl (.pending rfl) (bound _ _)
      next => exact .of_nil (.refl w) rfl
  | pair promise =>
    refine .births rfl (.pending rfl) ((bound _ (.deferred w.completions.size {})).trans ?_)
    exact .bindPromise held promise fun _ => .inr (.inl ⟨_, List.mem_singleton_self _, .promise⟩)
  | settled o =>
    exact .births rfl (@Births.settled _ {} 0 o) (.bindPromise held handle fun _ =>
      .inr (.inl ⟨_, List.mem_singleton_self _, .clone⟩))

theorem begin_opens (act : Act) : (begin w held act).Opens w act := by
  cases act with
  | attempt body =>
    exact .aloof (.refl w) (by simp [begin, Start.run, Frame.Aloof]) fun _ => rfl
  | iterate count body =>
    exact .aloof (.refl w) (by simp [begin, Start.run, Frame.Aloof]) fun _ => rfl
  | create handle m => exact beginMaker_opens handle m
  | faulty _ | raise _ | compare _ _ _ | onUnknown _ => exact .of_nil (.refl w) rfl
  | discard handle =>
    unfold begin
    dsimp only
    split
    next w' h => exact .of_nil (.unbind h) rfl
    next => exact .of_nil (.refl w) rfl
  | onCell handle op =>
    unfold begin
    dsimp only
    split
    next i _ => exact beginCell_opens i op
    next => exact .of_nil (.refl w) rfl
  | onQueue handle op =>
    unfold begin
    dsimp only
    split
    next q _ => exact beginQueue_opens q op
    next => exact .of_nil (.refl w) rfl
  | onCompletion handle op =>
    unfold begin
    dsimp only
    split
    next c h => exact beginCompletion_opens h op
    next => exact .of_nil (.refl w) rfl
  | onContext handle op =>
    unfold begin
    dsimp only
    split
    next ctx _ => exact beginContext_opens ctx op
    next => exact .of_nil (.refl w) rfl
  | onDeferred handle op =>
    unfold begin
    dsimp only
    split
    next c ctx h => exact beginDeferred_opens h op
    next => exact .of_nil (.refl w) rfl
  | onPromise handle op =>
    unfold begin
    dsimp only
    split
    next c ctx watch h => exact beginPromise_opens h op
    next => exact .of_nil (.refl w) rfl

end Beginnings

namespace Machine

/-! ## Steps that are no steps of calls on completions -/

/-- What a step can be of a frame that is told something, above the frames below. -/
inductive Moves (w : World) (below : List Frame) : Frame → Control → Machine → Prop
  /-- A step of a script begins. -/
  | begins {frame : Frame} {act : Act} {base : List Frame} :
      Begins act { world := w, stack := frame :: below, control := .resume } base →
      Moves w below frame .resume (enter w base act)
  /-- A body is run once more. -/
  | repeats {n : Nat} {script : Script} :
      Moves w below (.repeating (n + 1) script) .resume
        (goOn w (.body "" script :: .repeating n script :: below))
  /-- The next callback of a promise is registered. -/
  | chains {c : CompletionId} {ctx : Context} {k : Kind} {cb : Callback}
      {rest : List (Kind × Callback)} :
      Moves w below (.chaining c ctx ((k, cb) :: rest)) .resume
        (goOn w (.driving c (Site.Call.direct (.register k (.callback cb (some ctx)))).start
          :: .chaining c ctx rest :: below))
  /-- The code above has come back, and the frame goes on. A panic only a session survives so. -/
  | resumes {w' : World} {frame : Frame} {control : Control} : w.Proceeds [] w' →
      control ≠ .resume → frame.remarks control = [] →
      (∀ p, control = .unwind p → ∃ watched rest, frame = .session watched rest) →
      Moves w below frame control (goOn w' (frame :: below))
  /-- A take offers the next payload to its predicate. -/
  | offers {w' : World} {q n n' : Nat} {t : Test} {v v' : Value} {control : Control} :
      w.Proceeds [] w' →
      Moves w below (.probing q t n v) control (hand w' (.probing q t n' v' :: below) .unit)
  /-- The frame comes to its end. -/
  | answers {w' : World} {frame : Frame} {control : Control} {r : Reply} : w.Proceeds [] w' →
      frame.remarks control = [] → Moves w below frame control (hand w' below r)
  /-- The frame was a settlement that has lost. -/
  | loses {c : CompletionId} {s : Side} :
      Moves w below (.settling c s) (.answer (.flag false))
        (hand (w.record (.logged c (.lost s))) below (.rejected .alreadyCompleted))
  /-- A predicate panics. -/
  | breaks {w' : World} {q n : Nat} {t : Test} {v : Value} {control : Control} {p : Panic} :
      w.Proceeds [] w' → Moves w below (.probing q t n v) control (raise w' below p)
  /-- A panic passes the frame. -/
  | passes {w' : World} {frame : Frame} {p : Panic} : w.Proceeds [] w' →
      frame.remarks (.unwind p) = [] → Moves w below frame (.unwind p) (raise w' below p)
  /-- A panic is contained, or what it carries is dropped: code of the user comes in the place of
  the frame. -/
  | yields {w' : World} {frame : Frame} {control control' : Control} {new : List Frame} :
      (w.recordAll (frame.remarks control)).Proceeds [] w' → (∀ f ∈ new, f.Aloof) →
      Moves w below frame control { world := w', stack := new ++ below, control := control' }

section Moves

variable {w : World} {below : List Frame}

theorem Moves.probe {q n : Nat} {t : Test} {v : Value} (control : Control) :
    Moves w below (.probing q t n v) control (probe w below q t n v) := by
  unfold Machine.probe
  split
  next => exact .breaks (.record w _ trivial)
  next =>
    have tested : w.Proceeds [] (w.record (.tested v true)) := .record w _ trivial
    exact .answers (tested.trans (.record _ _ trivial)) rfl
  next =>
    have tested : w.Proceeds [] (w.record (.tested v false)) := .record w _ trivial
    have taken := (tested.trans (.record _ (.discarded q v) trivial)).trans (proceeds_take? _ q)
    split
    next w' h =>
      rw [h] at taken
      exact .answers taken rfl
    next w' v' h =>
      rw [h] at taken
      exact .offers taken

theorem proceeds_wake (w : World) (i : WakerId) : w.Proceeds [] (w.wake i).1 := by
  unfold World.wake
  split
  next => exact .refl w
  next x _ =>
    have spent : w.Proceeds []
        { w with wakers := w.wakers.setIfInBounds i { x with spent := true } } :=
      .of_eq rfl rfl rfl
    exact spent.trans (.record _ _ trivial)

/-- What a panic carries is dropped above some code of the user. -/
theorem Moves.dispose {w' : World} {frame : Frame} {control : Control} {new : List Frame}
    (noted : (w.recordAll (frame.remarks control)).Proceeds [] w') (aloof : ∀ f ∈ new, f.Aloof)
    (p : Panic) : Moves w below frame control (dispose w' (new ++ below) p) := by
  unfold Machine.dispose
  split
  next i _ =>
    have woken : ∀ f ∈ .body "" (w'.wake i).2 :: new, Frame.Aloof f :=
      List.forall_mem_cons.2 ⟨trivial, aloof⟩
    exact .yields (noted.trans (proceeds_wake w' i)) woken
  next => exact .yields noted aloof

theorem Moves.contain {c : CompletionId} {ctx : Context} {p : Panic}
    (isolates : ctx.policy = .isolate) :
    Moves w below (.guarding c ctx) (.unwind p) (contain w below c ctx p) := by
  have remarks : Frame.remarks (.guarding c ctx) (.unwind p)
      = .logged c (.contained ctx.label p)
        :: (ctx.handler.map fun h => .reported h.name p).toList := by
    simp only [Frame.remarks, isolates]
  unfold Machine.contain
  cases handler : ctx.handler with
  | none =>
    rw [handler] at remarks
    exact .dispose (remarks ▸ .refl _) (List.forall_mem_nil _) p
  | some h =>
    rw [handler] at remarks
    have code : ∀ f ∈ [.body "" h.body, .dropping p], Frame.Aloof f := by simp [Frame.Aloof]
    exact .yields (remarks ▸ .refl _) code

theorem resume_moves {frame : Frame} (idle : ∀ c here, frame ≠ .driving c here) :
    Moves w below frame .resume (resume w below frame) := by
  cases frame with
  | session watched rest =>
    cases rest with
    | nil => exact .answers (.refl w) rfl
    | cons step rest =>
      obtain ⟨label, act⟩ := step
      exact .begins (.session rfl rfl)
  | body label rest =>
    cases rest with
    | nil => exact .answers (.refl w) rfl
    | cons step rest =>
      obtain ⟨label, act⟩ := step
      exact .begins (.body rfl rfl)
  | repeating count script =>
    cases count with
    | zero => exact .answers (.refl w) rfl
    | succ n => exact .repeats
  | driving c here => exact absurd rfl (idle c here)
  | chaining c ctx rest =>
    cases rest with
    | nil => exact .answers (.refl w) rfl
    | cons entry rest => exact .chains
  | probing q t n v => exact .probe .resume
  | catching | holding _ | settling _ _ | guarding _ _ | dropping _ | ending _ =>
    exact .answers (.refl w) rfl

theorem receive_moves (r : Reply) (frame : Frame) :
    Moves w below frame (.answer r) (receive w below r frame) := by
  cases frame with
  | session watched rest => exact .resumes (.record w _ trivial) nofun rfl nofun
  | body label rest => exact .resumes (.record w _ trivial) nofun rfl nofun
  | catching | guarding _ _ => exact .answers (.refl w) rfl
  | holding ref => exact .answers (.release w _ ref) rfl
  | settling c s =>
    simp only [receive]
    split
    next => exact .loses
    next won =>
      refine .answers (.refl w) ?_
      simp only [Frame.remarks]
      split
      next same => exact absurd (Control.answer.inj same) won
      next => cases ‹Frame.settling c s = .guarding _ _›
      next => rfl
  | dropping payload => exact .dispose (.refl w) (List.forall_mem_nil _) payload
  | ending label => exact .answers (.record w _ trivial) rfl
  | probing q t n v => exact .probe _
  | repeating _ _ | driving _ _ | chaining _ _ _ => exact .resumes (.refl w) nofun rfl nofun

theorem reject_moves (f : Fault) (frame : Frame) :
    Moves w below frame (.faulty f) (reject w below f frame) := by
  cases frame with
  | session watched rest => exact .resumes (.record w _ trivial) nofun rfl nofun
  | body label rest => exact .resumes (.record w _ trivial) nofun rfl nofun
  | _ => exact .resumes (.refl w) nofun rfl nofun

theorem unwind_moves (p : Panic) (frame : Frame) :
    Moves w below frame (.unwind p) (unwind w below p frame) := by
  cases frame with
  | session watched rest => exact .resumes (.record w _ trivial) nofun rfl fun _ _ => ⟨_, _, rfl⟩
  | catching => exact .answers (.refl w) rfl
  | holding ref => exact .passes (.release w _ ref) rfl
  | guarding c ctx =>
    simp only [unwind]
    split
    next propagates => exact .passes (.refl w) (by simp only [Frame.remarks, propagates])
    next isolates => exact .contain isolates
  | dropping payload =>
    simp only [unwind]
    split
    next => exact .passes (.refl w) rfl
    next =>
      have raises : ∀ f ∈ [.repeating 1 [.mk "" (.raise p)]], Frame.Aloof f :=
        List.forall_mem_singleton.2 trivial
      exact .dispose (.refl w) raises payload
  | probing q t n v => exact .passes (.record w _ trivial) rfl
  | chaining c ctx rest => exact .passes (.record w _ trivial) rfl
  | body _ _ | repeating _ _ | driving _ _ | settling _ _ | ending _ =>
    exact .passes (.refl w) rfl

end Moves

/-- A move notes the remarks of the frame before anything else, unless a completion comes into
being. -/
theorem Moves.proceeds {w : World} {below : List Frame} {frame : Frame} {control : Control}
    {m' : Machine} (h : Moves w below frame control m') :
    Proceeds [] (w.recordAll (frame.remarks control)) m'.world ∨
      ∃ r w₁ act base, Births w w₁ r ∧ Proceeds [r] w₁ m'.world ∧
        Begins act { world := w, stack := frame :: below, control } base ∧ m'.stack = base ∧
        m'.control = .answer .unit := by
  cases h with
  | @begins frame act base begins =>
    have opens := @begin_opens w (heldBy base) act
    rw [frame.remarks_resume]
    unfold enter
    generalize begin w (heldBy base) act = start at opens
    cases opens with
    | aloof proceeds _ _ | engages _ proceeds => exact .inl proceeds
    | chains => exact .inl (.refl w)
    | births _ births proceeds => exact .inr ⟨_, _, _, _, births, proceeds, begins, rfl, rfl⟩
  | repeats | chains => exact .inl (.refl w)
  | resumes proceeds _ quiet _ | answers proceeds quiet | passes proceeds quiet =>
    rw [quiet]
    exact .inl proceeds
  | offers proceeds | breaks proceeds => exact .inl proceeds
  | loses => exact .inl (.refl _)
  | yields proceeds => exact .inl proceeds

section Counts

variable {w : World} {below : List Frame} {frame : Frame} {control : Control} {m' : Machine}

theorem flatMap_recordAll_remarks {β : Type} (count : Event → List β)
    (lost : ∀ c s, count (.logged c (.lost s)) = [])
    (contained : ∀ c label p, count (.logged c (.contained label p)) = [])
    (reported : ∀ h p, count (.reported h p) = [])
    (w : World) (frame : Frame) (control : Control) :
    (w.recordAll (frame.remarks control)).history.flatMap count = w.history.flatMap count := by
  rw [history_recordAll, List.flatMap_append,
    frame.flatMap_remarks count lost contained reported control, List.append_nil]

theorem called_remarks (w : World) (frame : Frame) (control : Control) (c : CompletionId)
    (k : Kind) : (w.recordAll (frame.remarks control)).called c k = w.called c k :=
  flatMap_recordAll_remarks _ (fun _ _ => rfl) (fun _ _ _ => rfl) (fun _ _ => rfl) w frame control

/-- The remarks of a frame register nothing. -/
theorem registered_remarks (w : World) (frame : Frame) (control : Control) (c : CompletionId)
    (k : Kind) : (w.recordAll (frame.remarks control)).registered c k = w.registered c k :=
  flatMap_recordAll_remarks _ (fun _ _ => rfl) (fun _ _ _ => rfl) (fun _ _ => rfl) w frame control

/-- The remarks of a frame settle nothing. -/
theorem settlement_remarks (w : World) (frame : Frame) (control : Control) (c : CompletionId) :
    (w.recordAll (frame.remarks control)).settlement c = w.settlement c := by
  rw [settlement_eq, settlement_eq,
    flatMap_recordAll_remarks _ (fun _ _ => rfl) (fun _ _ _ => rfl) (fun _ _ => rfl) w frame control]

theorem Moves.called (h : Moves w below frame control m') (c : CompletionId) (k : Kind) :
    m'.world.called c k = w.called c k := by
  obtain proceeds | ⟨r, w₁, act, base, births, proceeds, -⟩ := h.proceeds
  · rw [proceeds.called, called_remarks]
  · rw [proceeds.called, births.called]

theorem Moves.registered (h : Moves w below frame control m') (c : CompletionId) (k : Kind) :
    m'.world.registered c k = w.registered c k := by
  obtain proceeds | ⟨r, w₁, act, base, births, proceeds, -⟩ := h.proceeds
  · rw [proceeds.registered, registered_remarks]
  · rw [proceeds.registered, births.registered]

/-- A move settles nothing that exists. -/
theorem Moves.settlement (h : Moves w below frame control m') {c : CompletionId}
    (born : c < w.completions.size) : m'.world.settlement c = w.settlement c := by
  obtain proceeds | ⟨r, w₁, act, base, births, proceeds, -⟩ := h.proceeds
  · rw [proceeds.settlement, settlement_remarks]
  · rw [proceeds.settlement, births.settlement (Nat.ne_of_lt born).symm]

end Counts

/-! ## Steps of calls on completions -/

theorem handles_recordAll (w : World) (events : List Event) :
    (w.recordAll events).handles = w.handles := by rw [recordAll_eq]

theorem completions_recordAll (w : World) (events : List Event) :
    (w.recordAll events).completions = w.completions := by rw [recordAll_eq]

/-- A step of a call on a completion: what `Drives` says, what goes on record, and what the
item that it calls puts onto the stack. -/
structure Works (w : World) (c : CompletionId) (here : Site.Point Value Item WakerId)
    (below : List Frame) (m : Machine) (s : Site Value Item WakerId)
    (action : Action Value Item (Site.Point Value Item WakerId) (Site.Answer Value)) : Prop
    extends Drives w c here below m s action where
  proceeds : ((w.setSite c s).recordAll (action.events c ++ action.logs c)).Proceeds [] m.world
  runs : ∀ k x arg p, action = .call k x arg p →
    ∃ frames, x.Runs c frames m.control ∧ m.stack = frames ++ .driving c p :: below

/-- What goes on record of a step of a call settles what the call settles. -/
theorem settlesOn_events {π : Type}
    (a : Action Value Item π (Site.Answer Value)) (c d : CompletionId) :
    (a.events d ++ a.logs d).flatMap (Event.settlesOn c) = if d = c then a.settled else [] := by
  rcases a with _ | (_ | _ | _) | _ | ((_ | _ | _) | _ | _) | _ <;>
    simp [Action.events, Action.logs, Action.settled, Event.settlesOn]

section Works

variable {w : World} {below : List Frame} {c : CompletionId}

theorem call_runs (alive : w.Alive c) (below : List Frame) (x : Item) :
    w.Proceeds [] (call w below c x).world ∧
      ∃ frames, x.Runs c frames (call w below c x).control ∧
        (call w below c x).stack = frames ++ below := by
  cases x with
  | callback cb guard =>
    cases guard with
    | none => exact ⟨.refl w, _, .bare, rfl⟩
    | some ctx => exact ⟨.refl w, _, .guarded, rfl⟩
  | countdown k name n =>
    cases n with
    | zero => exact ⟨.refl w, _, .last, rfl⟩
    | succ n => exact ⟨.refl w, _, .again, rfl⟩
  | waker i => exact ⟨proceeds_wake w i, _, .waker, rfl⟩
  | relay watch =>
    have quiet : Quiet w (w.setSite c ((w.site c).takeWaker watch).1) := quiet_setSite alive _
    have taken : w.Proceeds [] (w.setSite c ((w.site c).takeWaker watch).1) :=
      .of_eq quiet.completions rfl rfl
    unfold call
    dsimp only
    split
    next s h =>
      rw [h] at taken
      exact ⟨taken, _, .idle, rfl⟩
    next s i h =>
      rw [h] at taken
      exact ⟨taken.trans (proceeds_wake _ i), _, .relay, rfl⟩

/-- What the surroundings note of a step of a call is what the action says, and what is
plain. -/
theorem drive_proceeds (alive : w.Alive c) (below : List Frame)
    {here : Site.Point Value Item WakerId} {s : Site Value Item WakerId}
    {action : Action Value Item (Site.Point Value Item WakerId) (Site.Answer Value)}
    (h : (w.site c).step here = (s, action)) :
    ((w.setSite c s).recordAll (action.events c ++ action.logs c)).Proceeds []
      (drive w below c here).world := by
  unfold drive
  simp only [h]
  cases action with
  | call k x arg p =>
    have alive' : ((w.setSite c s).record (.started c k x arg)).Alive c :=
      alive.setCompletion s.completion
    exact (call_runs alive' (.driving c p :: below) x).1
  | notice n p => cases n <;> exact .refl _
  | done a => rcases a with (_ | _ | _) | _ | _ <;> exact .refl _
  | goto p | refused side st => exact .refl _

theorem drive_works_of_step (alive : w.Alive c) (below : List Frame)
    {here : Site.Point Value Item WakerId} {s : Site Value Item WakerId}
    {action : Action Value Item (Site.Point Value Item WakerId) (Site.Answer Value)}
    (h : (w.site c).step here = (s, action)) :
    Works w c here below (drive w below c here) s action := by
  have drives := drive_step_drives alive below here
  rw [h] at drives
  refine ⟨drives, drive_proceeds alive below h, ?_⟩
  rintro k x arg p rfl
  have alive' : ((w.setSite c s).record (.started c k x arg)).Alive c :=
    alive.setCompletion s.completion
  obtain ⟨-, frames, runs, stack⟩ := call_runs alive' (.driving c p :: below) x
  refine ⟨frames, ?_, ?_⟩
  · simpa only [drive, h] using runs
  · simpa only [drive, h] using stack

theorem drive_works (alive : w.Alive c) (below : List Frame)
    (here : Site.Point Value Item WakerId) :
    ∃ s action, Works w c here below (drive w below c here) s action :=
  ⟨_, _, drive_works_of_step alive below rfl⟩

end Works

/-! Calls leave the handles alone. -/

theorem handles_wake (w : World) (i : WakerId) : (w.wake i).1.handles = w.handles := by
  unfold World.wake
  split <;> rfl

theorem handles_call (w : World) (below : List Frame) (c : CompletionId) (x : Item) :
    (call w below c x).world.handles = w.handles := by
  cases x with
  | callback cb guard => cases guard <;> rfl
  | countdown k name n => cases n <;> rfl
  | waker i => exact handles_wake w i
  | relay watch =>
    unfold call
    dsimp only
    split
    next => rfl
    next => exact handles_wake _ _

theorem handles_drive (w : World) (below : List Frame) (c : CompletionId)
    (here : Site.Point Value Item WakerId) : (drive w below c here).world.handles = w.handles := by
  unfold drive
  rcases (w.site c).step here with ⟨s, action⟩
  cases action with
  | call k x arg p => exact handles_call _ _ c x
  | notice n p => cases n <;> rfl
  | done a => rcases a with (_ | _ | _) | _ | _ <;> rfl
  | goto p | refused side st => rfl

/-- A step of a call settles what its action says. -/
theorem Works.settlement {w : World} {d : CompletionId} {here : Site.Point Value Item WakerId}
    {below : List Frame} {m : Machine} {s : Site Value Item WakerId}
    {action : Action Value Item (Site.Point Value Item WakerId) (Site.Answer Value)}
    (works : Works w d here below m s action) {c : CompletionId}
    (nothing : (if d = c then action.settled else []) = []) :
    m.world.settlement c = w.settlement c := by
  rw [works.proceeds.settlement, settlement_eq, history_recordAll, List.flatMap_append,
    settlesOn_events, nothing, List.append_nil, settlement_eq]
  rfl

/-- A call on a completion that is told to go on makes a step. -/
theorem Sound.works {m : Machine} (h : m.Sound) {c : CompletionId}
    {here : Site.Point Value Item WakerId} {below : List Frame}
    (hstack : m.stack = .driving c here :: below) (hresume : m.control = .resume) :
    ∃ s action, Works m.world c here below m.step s action := by
  obtain ⟨alive, -⟩ := h.of_driving (hstack ▸ List.mem_cons_self ..)
  obtain ⟨w, stack, control⟩ := m
  obtain rfl : stack = .driving c here :: below := hstack
  obtain rfl : control = .resume := hresume
  exact drive_works alive below here

/-- A step of a run that stands on frames is one of the moves, or one of a call on a
completion. -/
theorem Sound.moves_or_works {m : Machine} (h : m.Sound) {frame : Frame} {below : List Frame}
    (hstack : m.stack = frame :: below) :
    Moves m.world below frame m.control m.step ∨
      ∃ c here s action, m.control = .resume ∧ frame = .driving c here ∧
        Works m.world c here below m.step s action := by
  obtain ⟨w, stack, control⟩ := m
  obtain ⟨sound, stands⟩ := h
  dsimp only at hstack
  subst hstack
  cases control with
  | resume =>
    by_cases driving : ∃ c here, frame = .driving c here
    · obtain ⟨c, here, rfl⟩ := driving
      have alive : w.Alive c := sound.held (stands.1.1.cons (.driving c here))
      obtain ⟨s, action, works⟩ := drive_works alive below here
      exact .inr ⟨c, here, s, action, rfl, rfl, works⟩
    · exact .inl (resume_moves fun c here e => driving ⟨c, here, e⟩)
  | answer r => exact .inl (receive_moves r frame)
  | faulty f => exact .inl (reject_moves f frame)
  | unwind p => exact .inl (unwind_moves p frame)

/-- Whatever is called is called by a call on the completion that it waited for. -/
theorem Sound.works_of_called {m : Machine} (h : m.Sound) {c : CompletionId} {k : Kind}
    (starts : m.step.world.called c k ≠ m.world.called c k) :
    ∃ here below s x arg p, m.stack = .driving c here :: below ∧
      Works m.world c here below m.step s (.call k x arg p) := by
  cases hstack : m.stack with
  | nil =>
    rw [step_of_isOver (List.isEmpty_iff.2 hstack)] at starts
    exact absurd rfl starts
  | cons frame below =>
    obtain moves | ⟨d, here, s, action, -, rfl, works⟩ := h.moves_or_works hstack
    · exact absurd (moves.called c k) starts
    · by_cases same : d = c ∧ action.called k ≠ []
      · obtain ⟨rfl, some⟩ := same
        obtain ⟨x, arg, p, rfl⟩ := Action.of_called_ne_nil some
        exact ⟨here, below, s, x, arg, p, rfl, works⟩
      · refine absurd ?_ starts
        rw [works.called]
        split
        next hd =>
          rw [Classical.not_not.1 fun some => same ⟨hd, some⟩, List.append_nil]
        next => rw [List.append_nil]

end Machine

end Eventual
