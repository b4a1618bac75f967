import Eventual.Machine.Run

/-!
# Exchanging success and failure

What becomes of scripts, and of all that a run is made of, when success and failure are
exchanged everywhere. A script names its operations by the labels of its steps, and the names
differ on the two sides, so a `Relabelling` comes with the exchange. Handles, names of callbacks
and values stay as they are.
-/

namespace Eventual

/-- A change of labels. What has no label gets none. -/
structure Relabelling where
  label : String → String
  label_empty : label "" = ""

instance : Inhabited Relabelling := ⟨⟨id, rfl⟩⟩

/-! ## Operations and scripts -/

/-- The panic with the two sides exchanged. -/
def Panic.flip : Panic → Panic
  | .text message => .text message
  | .number n => .number n
  | .refused s st => .refused s.other st.flip
  | .object waker => .object waker

/-- The reading with the two sides exchanged. -/
def Reading.flip : Reading → Reading
  | .demand s => .demand s.other
  | .state => .state
  | .flags => .flags
  | .result => .result

/-- The operation with the two sides exchanged. -/
def CellOp.flip : CellOp → CellOp
  | .tryCommit o => .tryCommit o.flip
  | .read r => .read r.flip
  | .describe block => .describe block
  | .faulty f => .faulty f

/-- The operation with the two sides exchanged. -/
def DeferredOp.flip : DeferredOp → DeferredOp
  | .settle o => .settle o.flip
  | .promise handle => .promise handle
  | .clone handle => .clone handle
  | .profile => .profile
  | .describe block => .describe block
  | .faulty f => .faulty f

mutual

/-- The step with the two sides exchanged. -/
def Step.flip (ρ : Relabelling) : Step → Step
  | .mk label act => .mk (ρ.label label) (act.flip ρ)

/-- The script with the two sides exchanged. -/
def flipSteps (ρ : Relabelling) : List Step → List Step
  | [] => []
  | step :: rest => step.flip ρ :: flipSteps ρ rest

/-- The act with the two sides exchanged. -/
def Act.flip (ρ : Relabelling) : Act → Act
  | .faulty f => .faulty f
  | .raise p => .raise p.flip
  | .attempt body => .attempt (flipSteps ρ body)
  | .iterate count body => .iterate count (flipSteps ρ body)
  | .discard handle => .discard handle
  | .compare e other block => .compare e other block
  | .create handle m => .create handle (m.flip ρ)
  | .onCell handle op => .onCell handle op.flip
  | .onQueue handle op => .onQueue handle (op.flip ρ)
  | .onCompletion handle op => .onCompletion handle (op.flip ρ)
  | .onContext handle op => .onContext handle op
  | .onDeferred handle op => .onDeferred handle op.flip
  | .onPromise handle op => .onPromise handle (op.flip ρ)
  | .onUnknown handle => .onUnknown handle

/-- What is made with the two sides exchanged. -/
def Maker.flip (ρ : Relabelling) : Maker → Maker
  | .cell => .cell
  | .queue => .queue
  | .completion => .completion
  | .waker body => .waker (flipSteps ρ body)
  | .context settings => .context (flipSettings ρ settings)
  | .deferred context => .deferred context
  | .pair promise => .pair promise
  | .settled o => .settled o.flip

/-- The setting with the two sides exchanged in what a panic handler does. -/
def Setting.flip (ρ : Relabelling) : Setting → Setting
  | .name s => .name s
  | .policy p => .policy p
  | .handler name body => .handler name (flipSteps ρ body)

/-- The settings with the two sides exchanged. -/
def flipSettings (ρ : Relabelling) : List Setting → List Setting
  | [] => []
  | setting :: rest => setting.flip ρ :: flipSettings ρ rest

/-- The callback with the two sides exchanged in what it does. -/
def Callback.flip (ρ : Relabelling) : Callback → Callback
  | .mk name body => .mk name (flipSteps ρ body)

/-- The operation with the two sides exchanged in what a predicate does. -/
def QueueOp.flip (ρ : Relabelling) : QueueOp → QueueOp
  | .append v => .append v
  | .appendRange start stop => .appendRange start stop
  | .pop => .pop
  | .popAll => .popAll
  | .popMatching body t => .popMatching (flipSteps ρ body) t
  | .isEmpty => .isEmpty
  | .length => .length
  | .describe block => .describe block
  | .faulty f => .faulty f

/-- The operation with the two sides exchanged. -/
def CompletionOp.flip (ρ : Relabelling) : CompletionOp → CompletionOp
  | .tryCommit o => .tryCommit o.flip
  | .complete o => .complete o.flip
  | .read r => .read r.flip
  | .register k cb => .register k.flip (cb.flip ρ)
  | .registerCountdown k name n => .registerCountdown k.flip name n
  | .registerWaker waker => .registerWaker waker
  | .drain s => .drain s.other
  | .describe block => .describe block
  | .faulty f => .faulty f

/-- The operation with the two sides exchanged. -/
def PromiseOp.flip (ρ : Relabelling) : PromiseOp → PromiseOp
  | .register k cb => .register k.flip (cb.flip ρ)
  | .chained first onFirst onOther always =>
    .chained first.other (onFirst.flip ρ) (onOther.flip ρ) (always.flip ρ)
  | .flags => .flags
  | .clone handle => .clone handle
  | .poll waker => .poll waker
  | .blockOn => .blockOn
  | .profile => .profile
  | .describe block => .describe block
  | .faulty f => .faulty f

end

/-! ### Exchanging twice -/

section Twice

@[simp] theorem Cell.State.flip_flip (st : Cell.State) : st.flip.flip = st := by
  cases st <;> simp [Cell.State.flip]

@[simp] theorem Panic.flip_flip (p : Panic) : p.flip.flip = p := by
  cases p <;> simp [Panic.flip]

@[simp] theorem Panic.wakes?_flip (p : Panic) : p.flip.wakes? = p.wakes? := by
  cases p <;> rfl

theorem Panic.weight_flip (p : Panic) : p.flip.weight = p.weight := by
  cases p <;> rfl

@[simp] theorem Reading.flip_flip (r : Reading) : r.flip.flip = r := by
  cases r <;> simp [Reading.flip]

@[simp] theorem CellOp.flip_flip (op : CellOp) : op.flip.flip = op := by
  cases op <;> simp [CellOp.flip]

@[simp] theorem DeferredOp.flip_flip (op : DeferredOp) : op.flip.flip = op := by
  cases op <;> simp [DeferredOp.flip]

/-- The one relabelling undoes the other. -/
def Relabelling.Undoes (σ ρ : Relabelling) : Prop := ∀ l, σ.label (ρ.label l) = l

variable {ρ σ : Relabelling}

mutual

theorem Step.flip_flip (undoes : σ.Undoes ρ) : (step : Step) → (step.flip ρ).flip σ = step
  | .mk label act => by rw [Step.flip, Step.flip, undoes label, act.flip_flip undoes]

/-- Exchanged twice, a script is what it was. -/
theorem flipSteps_flipSteps (undoes : σ.Undoes ρ) : (steps : List Step) →
    flipSteps σ (flipSteps ρ steps) = steps
  | [] => rfl
  | step :: rest => by
    rw [flipSteps, flipSteps, step.flip_flip undoes, flipSteps_flipSteps undoes rest]

theorem Act.flip_flip (undoes : σ.Undoes ρ) : (act : Act) → (act.flip ρ).flip σ = act
  | .raise p => by rw [Act.flip, Act.flip, p.flip_flip]
  | .attempt body => by rw [Act.flip, Act.flip, flipSteps_flipSteps undoes body]
  | .iterate _ body => by rw [Act.flip, Act.flip, flipSteps_flipSteps undoes body]
  | .create _ m => by rw [Act.flip, Act.flip, m.flip_flip undoes]
  | .onCell _ op => by rw [Act.flip, Act.flip, op.flip_flip]
  | .onQueue _ op => by rw [Act.flip, Act.flip, op.flip_flip undoes]
  | .onCompletion _ op => by rw [Act.flip, Act.flip, op.flip_flip undoes]
  | .onDeferred _ op => by rw [Act.flip, Act.flip, op.flip_flip]
  | .onPromise _ op => by rw [Act.flip, Act.flip, op.flip_flip undoes]
  | .faulty _ | .discard _ | .compare _ _ _ | .onContext _ _ | .onUnknown _ => rfl

theorem Maker.flip_flip (undoes : σ.Undoes ρ) : (m : Maker) → (m.flip ρ).flip σ = m
  | .waker body => by rw [Maker.flip, Maker.flip, flipSteps_flipSteps undoes body]
  | .context settings => by rw [Maker.flip, Maker.flip, flipSettings_flipSettings undoes settings]
  | .settled o => by rw [Maker.flip, Maker.flip, o.flip_flip]
  | .cell | .queue | .completion | .deferred _ | .pair _ => rfl

theorem Setting.flip_flip (undoes : σ.Undoes ρ) : (setting : Setting) →
    (setting.flip ρ).flip σ = setting
  | .handler _ body => by rw [Setting.flip, Setting.flip, flipSteps_flipSteps undoes body]
  | .name _ | .policy _ => rfl

theorem flipSettings_flipSettings (undoes : σ.Undoes ρ) : (settings : List Setting) →
    flipSettings σ (flipSettings ρ settings) = settings
  | [] => rfl
  | setting :: rest => by
    rw [flipSettings, flipSettings, setting.flip_flip undoes,
      flipSettings_flipSettings undoes rest]

theorem Callback.flip_flip (undoes : σ.Undoes ρ) : (cb : Callback) → (cb.flip ρ).flip σ = cb
  | .mk _ body => by rw [Callback.flip, Callback.flip, flipSteps_flipSteps undoes body]

theorem QueueOp.flip_flip (undoes : σ.Undoes ρ) : (op : QueueOp) → (op.flip ρ).flip σ = op
  | .popMatching body _ => by rw [QueueOp.flip, QueueOp.flip, flipSteps_flipSteps undoes body]
  | .append _ | .appendRange _ _ | .pop | .popAll | .isEmpty | .length | .describe _
  | .faulty _ => rfl

theorem CompletionOp.flip_flip (undoes : σ.Undoes ρ) : (op : CompletionOp) →
    (op.flip ρ).flip σ = op
  | .tryCommit o => by rw [CompletionOp.flip, CompletionOp.flip, o.flip_flip]
  | .complete o => by rw [CompletionOp.flip, CompletionOp.flip, o.flip_flip]
  | .read r => by rw [CompletionOp.flip, CompletionOp.flip, r.flip_flip]
  | .register k cb => by rw [CompletionOp.flip, CompletionOp.flip, k.flip_flip, cb.flip_flip undoes]
  | .registerCountdown k _ _ => by rw [CompletionOp.flip, CompletionOp.flip, k.flip_flip]
  | .drain s => by rw [CompletionOp.flip, CompletionOp.flip, s.other_other]
  | .registerWaker _ | .describe _ | .faulty _ => rfl

theorem PromiseOp.flip_flip (undoes : σ.Undoes ρ) : (op : PromiseOp) → (op.flip ρ).flip σ = op
  | .register k cb => by rw [PromiseOp.flip, PromiseOp.flip, k.flip_flip, cb.flip_flip undoes]
  | .chained first onFirst onOther always => by
    rw [PromiseOp.flip, PromiseOp.flip, first.other_other, onFirst.flip_flip undoes,
      onOther.flip_flip undoes, always.flip_flip undoes]
  | .flags | .clone _ | .poll _ | .blockOn | .profile | .describe _ | .faulty _ => rfl

end

end Twice

/-! ### What the exchange leaves alone -/

section Weights

variable (ρ : Relabelling)

mutual

theorem Step.weight_flip : (step : Step) → (step.flip ρ).weight = step.weight
  | .mk label act => by rw [Step.flip, Step.weight, Step.weight, act.weight_flip]

/-- A script weighs the same after the exchange. -/
theorem weightOf_flipSteps : (steps : List Step) → weightOf (flipSteps ρ steps) = weightOf steps
  | [] => rfl
  | step :: rest => by
    rw [flipSteps, weightOf, weightOf, step.weight_flip, weightOf_flipSteps rest]

theorem Act.weight_flip : (act : Act) → (act.flip ρ).weight = act.weight
  | .attempt body => by rw [Act.flip, Act.weight, Act.weight, weightOf_flipSteps body]
  | .iterate _ body => by rw [Act.flip, Act.weight, Act.weight, weightOf_flipSteps body]
  | .create _ m => by rw [Act.flip, Act.weight, Act.weight, m.weight_flip]
  | .onQueue _ op => by rw [Act.flip, Act.weight, Act.weight, op.weight_flip]
  | .onCompletion _ op => by rw [Act.flip, Act.weight, Act.weight, op.weight_flip]
  | .onPromise _ op => by rw [Act.flip, Act.weight, Act.weight, op.weight_flip]
  | .raise p => by rw [Act.flip, Act.weight, Act.weight, p.weight_flip]
  | .faulty _ | .discard _ | .compare _ _ _ | .onCell _ _ | .onContext _ _
  | .onDeferred _ _ | .onUnknown _ => rfl

theorem Maker.weight_flip : (m : Maker) → (m.flip ρ).weight = m.weight
  | .waker body => by rw [Maker.flip, Maker.weight, Maker.weight, weightOf_flipSteps body]
  | .cell | .queue | .completion | .context _ | .deferred _ | .pair _ | .settled _ => rfl

theorem Callback.weight_flip : (cb : Callback) → (cb.flip ρ).weight = cb.weight
  | .mk _ body => by
    rw [Callback.flip, Callback.weight, Callback.weight, weightOf_flipSteps body]

theorem QueueOp.weight_flip : (op : QueueOp) → (op.flip ρ).weight = op.weight
  | .popMatching body _ => by
    rw [QueueOp.flip, QueueOp.weight, QueueOp.weight, weightOf_flipSteps body]
  | .append _ | .appendRange _ _ | .pop | .popAll | .isEmpty | .length | .describe _
  | .faulty _ => rfl

theorem CompletionOp.weight_flip : (op : CompletionOp) → (op.flip ρ).weight = op.weight
  | .register _ cb => by
    rw [CompletionOp.flip, CompletionOp.weight, CompletionOp.weight, cb.weight_flip]
  | .tryCommit _ | .complete _ | .read _ | .registerCountdown _ _ _ | .registerWaker _
  | .drain _ | .describe _ | .faulty _ => rfl

theorem PromiseOp.weight_flip : (op : PromiseOp) → (op.flip ρ).weight = op.weight
  | .register _ cb => by
    rw [PromiseOp.flip, PromiseOp.weight, PromiseOp.weight, cb.weight_flip]
  | .chained _ onFirst onOther always => by
    rw [PromiseOp.flip, PromiseOp.weight, PromiseOp.weight, onFirst.weight_flip,
      onOther.weight_flip, always.weight_flip]
  | .flags | .clone _ | .poll _ | .blockOn | .profile | .describe _ | .faulty _ => rfl

end

end Weights

section Parts

variable (ρ : Relabelling)

@[simp] theorem Step.label_flip (step : Step) : (step.flip ρ).label = ρ.label step.label := by
  cases step
  rfl

@[simp] theorem Step.act_flip (step : Step) : (step.flip ρ).act = step.act.flip ρ := by
  cases step
  rfl

@[simp] theorem Callback.body_flip (cb : Callback) :
    (cb.flip ρ).body = flipSteps ρ cb.body := by
  cases cb
  rfl

end Parts

/-! ## Contexts, items and references -/

/-- The panic handler with the two sides exchanged in what it does. -/
def PanicHandler.flip (ρ : Relabelling) (h : PanicHandler) : PanicHandler :=
  { h with body := flipSteps ρ h.body }

/-- The context with the two sides exchanged. -/
def Context.flip (ρ : Relabelling) (ctx : Context) : Context :=
  { ctx with handler := ctx.handler.map (PanicHandler.flip ρ) }

/-- The item with the two sides exchanged. -/
def Item.flip (ρ : Relabelling) : Item → Item
  | .callback cb guard => .callback (cb.flip ρ) (guard.map (Context.flip ρ))
  | .countdown k name n => .countdown k.flip name n
  | .waker w => .waker w
  | .relay w => .relay w

/-- The waker with the two sides exchanged in what it does. -/
def Waker.flip (ρ : Relabelling) (x : Waker) : Waker :=
  { x with body := flipSteps ρ x.body }

/-- The reference with the two sides exchanged in its context. -/
def Ref.flip (ρ : Relabelling) : Ref → Ref
  | .cell i => .cell i
  | .queue i => .queue i
  | .completion c => .completion c
  | .context ctx => .context (ctx.flip ρ)
  | .deferred c ctx => .deferred c (ctx.flip ρ)
  | .promise c ctx w => .promise c (ctx.flip ρ) w
  | .waker w => .waker w

section Parts

variable (ρ : Relabelling)

theorem Context.set_flip (ctx : Context) (setting : Setting) :
    (ctx.flip ρ).set (setting.flip ρ) = (ctx.set setting).flip ρ := by
  cases setting <;> rfl

theorem Context.ofSettings_flip (settings : List Setting) :
    Context.ofSettings (flipSettings ρ settings) = (Context.ofSettings settings).flip ρ := by
  have fold : ∀ ctx : Context, (flipSettings ρ settings).foldl Context.set (ctx.flip ρ)
      = (settings.foldl Context.set ctx).flip ρ := by
    induction settings with
    | nil => exact fun _ => rfl
    | cons setting settings ih =>
      intro ctx
      rw [flipSettings, List.foldl_cons, List.foldl_cons, Context.set_flip, ih]
  exact fold {}

@[simp] theorem Ref.entity?_flip (r : Ref) : (r.flip ρ).entity? = r.entity? := by
  cases r <;> rfl

end Parts

/-! ## Calls -/

/-- The log record with the two sides exchanged. -/
def LogRecord.flip : LogRecord → LogRecord
  | .committed s => .committed s.other
  | .lateRegistration s => .lateRegistration s.other
  | .drained count s => .drained count s.other
  | .lost s => .lost s.other
  | .contained label p => .contained label p.flip

section Calls

variable {α ι τ π β : Type} (f : ι → ι)

/-- The notice with the two sides exchanged, and the items changed. -/
def Notice.flip : Notice α ι → Notice α ι
  | .registered k x => .registered k.flip (f x)
  | .settled o => .settled o.flip
  | .logged r => .logged r.flip

/-- The action with the two sides exchanged, and items, points and answers changed. -/
def Action.flip (point : π → π) (answer : β → β) : Action α ι π β → Action α ι π β
  | .goto p => .goto (point p)
  | .notice n p => .notice (n.flip f) (point p)
  | .call k x arg p => .call k.flip (f x) arg (point p)
  | .done a => .done (answer a)
  | .refused s st => .refused s.other st.flip

namespace Completion

/-- The answer with the two sides exchanged. -/
def Answer.flip : Answer α → Answer α
  | .unit => .unit
  | .won => .won
  | .lost o => .lost o.flip

/-- The call with the two sides exchanged. -/
def Call.flip : Call α ι → Call α ι
  | .tryCommit o => .tryCommit o.flip
  | .complete o => .complete o.flip
  | .register k x => .register k.flip (f x)
  | .drain s => .drain s.other

/-- The point with the two sides exchanged. -/
def Point.flip : Point α ι → Point α ι
  | .commit o drains here => .commit o.flip drains here
  | .announce s => .announce s.other
  | .append k x => .append k.flip (f x)
  | .consult k => .consult k.flip
  | .check s answer => .check s.other answer.flip
  | .fetch s answer => .fetch s.other answer.flip
  | .sweep s answer v stage called => .sweep s.other answer.flip v stage called
  | .report s answer called => .report s.other answer.flip called
  | .finish answer => .finish answer.flip

@[simp] theorem Call.start_flip (call : Call α ι) : (call.flip f).start = call.start.flip f := by
  cases call <;> rfl

end Completion

namespace Site

/-- The poll with its relay changed. -/
def Poll.flip (p : Poll ι τ) : Poll ι τ := { p with relay := f p.relay }

/-- The answer with the two sides exchanged. -/
def Answer.flip : Answer α → Answer α
  | .direct a => .direct a.flip
  | .ready o => .ready o.flip
  | .pending => .pending

/-- The call with the two sides exchanged. -/
def Call.flip : Call α ι τ → Call α ι τ
  | .direct c => .direct (c.flip f)
  | .poll p => .poll (p.flip f)

/-- The point with the two sides exchanged. -/
def Point.flip : Point α ι τ → Point α ι τ
  | .direct p => .direct (p.flip f)
  | .look p => .look (p.flip f)
  | .store p => .store (p.flip f)
  | .subscribe p => .subscribe (p.flip f)
  | .registering p here => .registering (p.flip f) (here.flip f)
  | .lookAgain p => .lookAgain (p.flip f)

@[simp] theorem Call.start_flip (call : Call α ι τ) :
    (call.flip f).start = call.start.flip f := by
  cases call with
  | direct c => exact congrArg Point.direct (c.start_flip f)
  | poll p => rfl

end Site

end Calls

/-! ## Frames, answers and events -/

/-- The frame with the two sides exchanged. -/
def Frame.flip (ρ : Relabelling) : Frame → Frame
  | .session watched rest => .session watched (flipSteps ρ rest)
  | .body label rest => .body (ρ.label label) (flipSteps ρ rest)
  | .catching => .catching
  | .repeating count script => .repeating count (flipSteps ρ script)
  | .holding r => .holding (r.flip ρ)
  | .driving c here => .driving c (here.flip (Item.flip ρ))
  | .settling c s => .settling c s.other
  | .guarding c ctx => .guarding c (ctx.flip ρ)
  | .dropping payload => .dropping payload.flip
  | .ending label => .ending label
  | .probing q t call offered => .probing q t call offered
  | .chaining c ctx rest =>
    .chaining c (ctx.flip ρ) (rest.map fun entry => (entry.1.flip, entry.2.flip ρ))

/-- The reply with the two sides exchanged. -/
def Reply.flip : Reply → Reply
  | .flags succeeded failed settled => .flags failed succeeded settled
  | .state st => .state st.flip
  | .outcome o => .outcome (o.map Outcome.flip)
  | .caught p => .caught (p.map Panic.flip)
  | .ready o => .ready o.flip
  | .unit => .unit
  | .flag b => .flag b
  | .count n => .count n
  | .datum d => .datum d
  | .popped d => .popped d
  | .items ds => .items ds
  | .accepted => .accepted
  | .rejected e => .rejected e
  | .profile name policy => .profile name policy
  | .pending => .pending
  | .wouldBlock => .wouldBlock
  | .text s => .text s
  | .comparison display debug equal copyEqual => .comparison display debug equal copyEqual

/-- The verdict with the two sides exchanged. -/
def Verdict.flip : Verdict → Verdict
  | .returned r => .returned r.flip
  | .faulty f => .faulty f
  | .panicked p => .panicked p.flip

/-- The event with the two sides exchanged. -/
def Event.flip (ρ : Relabelling) : Event → Event
  | .registered c k x => .registered c k.flip (x.flip ρ)
  | .started c k x arg => .started c k.flip (x.flip ρ) arg
  | .offered e o => .offered e o.flip
  | .settled e o => .settled e o.flip
  | .lost e o => .lost e o.flip
  | .appended q v => .appended q v
  | .tested v b => .tested v b
  | .discarded q v => .discarded q v
  | .consumed q v => .consumed q v
  | .buried e values items => .buried e values (items.map (Item.flip ρ))
  | .forgone c callbacks => .forgone c (callbacks.map (Callback.flip ρ))
  | .copied c o => .copied c o.flip
  | .woken w name => .woken w name
  | .ended label => .ended label
  | .reported handler p => .reported handler p.flip
  | .logged c r => .logged c r.flip
  | .replied label r => .replied (ρ.label label) r.flip
  | .faulted label f => .faulted (ρ.label label) f
  | .concluded v shown => .concluded v.flip shown

end Eventual
