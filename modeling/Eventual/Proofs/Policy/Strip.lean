import Eventual.Machine.Run

/-!
# Leaving out the panic policy

What remains of scripts, and of all that a run is made of, when every panic policy is left out:
settings of a policy are dropped, so a context has the policy that it has by default. Names and
panic handlers stay. Two scripts that differ in nothing but panic policies are the same when
they are stripped.

What a step answers, and what is noted of it, can also show a policy, in the profile of a context
and in descriptions. Such answers are veiled: the policy and the text are left out.
-/

namespace Eventual

/-! ## Operations and scripts -/

mutual

/-- The step without policies. -/
def Step.strip : Step → Step
  | .mk label act => .mk label act.strip

def stripSteps : List Step → List Step
  | [] => []
  | step :: rest => step.strip :: stripSteps rest

def Act.strip : Act → Act
  | .faulty f => .faulty f
  | .raise p => .raise p
  | .attempt body => .attempt (stripSteps body)
  | .iterate count body => .iterate count (stripSteps body)
  | .discard handle => .discard handle
  | .compare e other block => .compare e other block
  | .create handle m => .create handle m.strip
  | .onCell handle op => .onCell handle op
  | .onQueue handle op => .onQueue handle op.strip
  | .onCompletion handle op => .onCompletion handle op.strip
  | .onContext handle op => .onContext handle op
  | .onDeferred handle op => .onDeferred handle op
  | .onPromise handle op => .onPromise handle op.strip
  | .onUnknown handle => .onUnknown handle

def Maker.strip : Maker → Maker
  | .cell => .cell
  | .queue => .queue
  | .completion => .completion
  | .waker body => .waker (stripSteps body)
  | .context settings => .context (stripSettings settings)
  | .deferred context => .deferred context
  | .pair promise => .pair promise
  | .settled o => .settled o

/-- The settings without those of a policy. -/
def stripSettings : List Setting → List Setting
  | [] => []
  | .name s :: rest => .name s :: stripSettings rest
  | .policy _ :: rest => stripSettings rest
  | .handler name body :: rest => .handler name (stripSteps body) :: stripSettings rest

def Callback.strip : Callback → Callback
  | .mk name body => .mk name (stripSteps body)

/-- The operation without policies in what a predicate does. -/
def QueueOp.strip : QueueOp → QueueOp
  | .append v => .append v
  | .appendRange start stop => .appendRange start stop
  | .pop => .pop
  | .popAll => .popAll
  | .popMatching body t => .popMatching (stripSteps body) t
  | .isEmpty => .isEmpty
  | .length => .length
  | .describe block => .describe block
  | .faulty f => .faulty f

def CompletionOp.strip : CompletionOp → CompletionOp
  | .tryCommit o => .tryCommit o
  | .complete o => .complete o
  | .read r => .read r
  | .register k cb => .register k cb.strip
  | .registerCountdown k name n => .registerCountdown k name n
  | .registerWaker waker => .registerWaker waker
  | .drain s => .drain s
  | .describe block => .describe block
  | .faulty f => .faulty f

def PromiseOp.strip : PromiseOp → PromiseOp
  | .register k cb => .register k cb.strip
  | .chained first onFirst onOther always =>
    .chained first onFirst.strip onOther.strip always.strip
  | .flags => .flags
  | .clone handle => .clone handle
  | .poll waker => .poll waker
  | .blockOn => .blockOn
  | .profile => .profile
  | .describe block => .describe block
  | .faulty f => .faulty f

end

section Parts

@[simp] theorem Step.label_strip (step : Step) : step.strip.label = step.label := by
  cases step
  rfl

@[simp] theorem Step.act_strip (step : Step) : step.strip.act = step.act.strip := by
  cases step
  rfl

@[simp] theorem Callback.body_strip (cb : Callback) : cb.strip.body = stripSteps cb.body := by
  cases cb
  rfl

end Parts

/-! ## Contexts, items and references -/

/-- The panic handler without policies in what it does. -/
def PanicHandler.strip (h : PanicHandler) : PanicHandler := { h with body := stripSteps h.body }

/-- The context with the policy that it has by default. -/
def Context.strip (ctx : Context) : Context :=
  { name := ctx.name, handler := ctx.handler.map PanicHandler.strip }

def Item.strip : Item → Item
  | .callback cb guard => .callback cb.strip (guard.map Context.strip)
  | .countdown k name n => .countdown k name n
  | .waker w => .waker w
  | .relay w => .relay w

/-- The waker without policies in what it does. -/
def Waker.strip (x : Waker) : Waker := { x with body := stripSteps x.body }

def Ref.strip : Ref → Ref
  | .cell i => .cell i
  | .queue i => .queue i
  | .completion c => .completion c
  | .context ctx => .context ctx.strip
  | .deferred c ctx => .deferred c ctx.strip
  | .promise c ctx w => .promise c ctx.strip w
  | .waker w => .waker w

section Parts

/-- Contexts without policies have the settings without those of a policy. -/
theorem Context.ofSettings_strip (settings : List Setting) :
    Context.ofSettings (stripSettings settings) = (Context.ofSettings settings).strip := by
  have fold : ∀ ctx : Context, (stripSettings settings).foldl Context.set ctx.strip
      = (settings.foldl Context.set ctx).strip := by
    induction settings with
    | nil => exact fun _ => rfl
    | cons setting settings ih =>
      intro ctx
      cases setting with
      | name s => exact ih { ctx with name := some s }
      | policy p => exact ih { ctx with policy := p }
      | handler name body => exact ih { ctx with handler := some { name, body } }
  exact fold {}

@[simp] theorem Ref.entity?_strip (r : Ref) : r.strip.entity? = r.entity? := by
  cases r <;> rfl

end Parts

/-! ## Calls -/

section Calls

variable {α ι τ π β : Type} (f : ι → ι)

/-- The notice of the changed item. -/
def Notice.onItems : Notice α ι → Notice α ι
  | .registered k x => .registered k (f x)
  | .settled o => .settled o
  | .logged r => .logged r

/-- The action with items and points changed. -/
def Action.onItems (point : π → π) : Action α ι π β → Action α ι π β
  | .goto p => .goto (point p)
  | .notice n p => .notice (n.onItems f) (point p)
  | .call k x arg p => .call k (f x) arg (point p)
  | .done a => .done a
  | .refused s st => .refused s st

namespace Completion

/-- The call with its item changed. -/
def Call.onItems : Call α ι → Call α ι
  | .tryCommit o => .tryCommit o
  | .complete o => .complete o
  | .register k x => .register k (f x)
  | .drain s => .drain s

/-- The point with its item changed. -/
def Point.onItems : Point α ι → Point α ι
  | .commit o drains here => .commit o drains here
  | .announce s => .announce s
  | .append k x => .append k (f x)
  | .consult k => .consult k
  | .check s answer => .check s answer
  | .fetch s answer => .fetch s answer
  | .sweep s answer v stage called => .sweep s answer v stage called
  | .report s answer called => .report s answer called
  | .finish answer => .finish answer

@[simp] theorem Call.start_onItems (call : Call α ι) :
    (call.onItems f).start = call.start.onItems f := by
  cases call <;> rfl

end Completion

namespace Site

/-- The poll with its relay changed. -/
def Poll.onItems (p : Poll ι τ) : Poll ι τ := { p with relay := f p.relay }

/-- The call with its item changed. -/
def Call.onItems : Call α ι τ → Call α ι τ
  | .direct c => .direct (c.onItems f)
  | .poll p => .poll (p.onItems f)

/-- The point with its items changed. -/
def Point.onItems : Point α ι τ → Point α ι τ
  | .direct p => .direct (p.onItems f)
  | .look p => .look (p.onItems f)
  | .store p => .store (p.onItems f)
  | .subscribe p => .subscribe (p.onItems f)
  | .registering p here => .registering (p.onItems f) (here.onItems f)
  | .lookAgain p => .lookAgain (p.onItems f)

@[simp] theorem Call.start_onItems (call : Call α ι τ) :
    (call.onItems f).start = call.start.onItems f := by
  cases call with
  | direct c => exact congrArg Point.direct (c.start_onItems f)
  | poll p => rfl

end Site

end Calls

/-! ## Frames and events -/

def Frame.strip : Frame → Frame
  | .session watched rest => .session watched (stripSteps rest)
  | .body label rest => .body label (stripSteps rest)
  | .catching => .catching
  | .repeating count script => .repeating count (stripSteps script)
  | .holding r => .holding r.strip
  | .driving c here => .driving c (here.onItems Item.strip)
  | .settling c s => .settling c s
  | .guarding c ctx => .guarding c ctx.strip
  | .dropping payload => .dropping payload
  | .ending label => .ending label
  | .probing q t call offered => .probing q t call offered
  | .chaining c ctx rest => .chaining c ctx.strip (rest.map fun entry => (entry.1, entry.2.strip))

/-- The event without policies in its items and callbacks. -/
def Event.strip : Event → Event
  | .registered c k x => .registered c k x.strip
  | .started c k x arg => .started c k x.strip arg
  | .buried e values items => .buried e values (items.map Item.strip)
  | .forgone c callbacks => .forgone c (callbacks.map Callback.strip)
  | ev => ev

/-! ## What is told -/

/-- The reply, if it shows a policy, without it. -/
def Reply.veil : Reply → Reply
  | .profile name _ => .profile name .propagate
  | .text _ => .text ""
  | r => r

/-- The verdict, if it shows a policy, without it. -/
def Verdict.veil : Verdict → Verdict
  | .returned r => .returned r.veil
  | v => v

/-- The event, if it shows a policy, without it. Of what the watched handles show it is left
which of them show anything. -/
def Event.veil : Event → Event
  | .replied label r => .replied label r.veil
  | .concluded v shown => .concluded v.veil (shown.map (Option.map fun _ => ""))
  | ev => ev

/-- What the topmost frame is told, without a policy that it shows. -/
def Control.veil : Control → Control
  | .answer r => .answer r.veil
  | control => control

end Eventual
