import Eventual.Machine.Frame
import Eventual.World.Describe

/-!
# How a step begins

Beginning a step either completes it at once or puts frames on the stack: those
of a call that may run user code. Each of these calls holds its object until it
returns or unwinds.
-/

namespace Eventual

/-- What the beginning of a step leads to: a changed world, the frames of what
it started, topmost first, and what the topmost frame is told. -/
structure Start where
  world : World
  frames : List Frame := []
  control : Control

namespace Start

/-- The step has answered. -/
def reply (w : World) (r : Reply) : Start := { world := w, control := .answer r }

/-- The step was not understood. -/
def fault (w : World) (f : Fault) : Start := { world := w, control := .faulty f }

/-- The step panicked. -/
def panic (w : World) (p : Panic) : Start := { world := w, control := .unwind p }

/-- The step started something that goes on by itself. -/
def run (w : World) (frames : List Frame) : Start := { world := w, frames, control := .resume }

/-- A call on a completion: its routine, then whoever awaits its answer, then
the reference that the call holds. -/
def engage (w : World) (r : Ref) (c : CompletionId) (call : Site.Call Value Item WakerId)
    (awaiting : List Frame := []) : Start :=
  run w (.driving c call.start :: awaiting ++ [.holding r])

/-- What reading a cell answers. -/
def read (w : World) (cell : Cell Value) : Reading → Start
  | .state => reply w (.state cell.state)
  | .flags => reply w (.flags (cell.isOn .success) (cell.isOn .failure) cell.isTerminal)
  | .result => reply w (.outcome (cell.result.map (Outcome.map Value.data)))
  | .demand s =>
    match cell.demand s with
    | .ok v => reply w (.datum v.data)
    | .error st => panic w (.refused s st)

end Start

open Start

/-- An operation on a cell. -/
def beginCell (w : World) (i : Nat) : CellOp → Start
  | .tryCommit o =>
    let (cell, won) := (w.cell i).tryCommit o
    let e := Entity.cell i
    let w := ((w.record (.offered e o)).setCell i cell).record
      (if won then .settled e o else .lost e o)
    reply w (.flag won)
  | .read r => read w (w.cell i) r
  | .describe block => reply w (.text (w.describe (.cell i) block))
  | .faulty f => fault w f

/-- Append a payload to a queue. -/
def World.append (w : World) (q : Nat) (v : Value) : World :=
  (w.setQueue q ((w.queue q).append v)).record (.appended q v)

/-- Take the first payload from a queue. -/
def World.take? (w : World) (q : Nat) : World × Option Value :=
  let (queue, v) := (w.queue q).take?
  (w.setQueue q queue, v)

/-- Take all payloads from a queue, at most `fuel` of them. -/
def World.takeAll (w : World) (q : Nat) : (fuel : Nat) → World × List Data
  | 0 => (w, [])
  | fuel + 1 =>
    match w.take? q with
    | (w, none) => (w, [])
    | (w, some v) =>
      let (w, ds) := (w.record (.consumed q v)).takeAll q fuel
      (w, v.data :: ds)

/-- The integers from `start` up to, but without, `stop`. -/
def intRange (start stop : Int) : List Int :=
  (List.range (stop - start).toNat).map fun (k : Nat) => start + k

/-- An operation on a queue. -/
def beginQueue (w : World) (q : Nat) : QueueOp → Start
  | .append v => reply (w.append q v) .unit
  | .appendRange start stop =>
    reply ((intRange start stop).foldl (fun w n => w.append q { data := .int n }) w) .unit
  | .pop =>
    match w.take? q with
    | (w, none) => reply w (.popped none)
    | (w, some v) => reply (w.record (.consumed q v)) (.popped (some v.data))
  | .popAll =>
    let (w, ds) := w.takeAll q (w.queue q).length
    reply w (.items ds)
  | .popMatching body t =>
    match w.take? q with
    | (w, none) => reply w (.popped none)
    | (w, some v) => run w [.body "" body, .probing q t 1 v, .holding (.queue q)]
  | .isEmpty => reply w (.flag (w.queue q).isEmpty)
  | .length => reply w (.count (w.queue q).length)
  | .describe block => reply w (.text (w.describe (.queue q) block))
  | .faulty f => fault w f

/-- An operation on a completion. -/
def beginCompletion (w : World) (c : CompletionId) : CompletionOp → Start
  | .tryCommit o =>
    engage (w.record (.offered (.completion c) o)) (.completion c) c (.direct (.tryCommit o))
  | .complete o =>
    engage (w.record (.offered (.completion c) o)) (.completion c) c (.direct (.complete o))
  | .read r => read w (w.completion c).cell r
  | .register k cb =>
    engage w (.completion c) c (.direct (.register k (.callback cb none)))
  | .registerCountdown k name n =>
    engage w (.completion c) c (.direct (.register k (.countdown k name n)))
  | .registerWaker handle =>
    match w.lookup handle with
    | some (.waker i) => engage w (.completion c) c (.direct (.register .waker (.waker i)))
    | _ => fault w .handle
  | .drain s => engage w (.completion c) c (.direct (.drain s))
  | .describe block => reply w (.text (w.describe (.completion c) block))
  | .faulty f => fault w f

/-- An operation on a context. -/
def beginContext (w : World) (held : List Ref) (ctx : Context) : ContextOp → Start
  | .profile => reply w (.profile ctx.name ctx.policy)
  | .clone handle => reply (w.bind held handle (.context ctx)) .unit
  | .describe block => reply w (.text (w.describe (.context ctx) block))
  | .faulty f => fault w f

/-- Bring a promise of a completion under a handle, with a watch of its own. -/
def World.bindPromise (w : World) (held : List Ref) (handle : String) (c : CompletionId)
    (ctx : Context) : World :=
  let (w, watch) := w.addWatch
  w.bind held handle (.promise c ctx watch)

/-- An operation on a deferred. -/
def beginDeferred (w : World) (held : List Ref) (c : CompletionId) (ctx : Context) :
    DeferredOp → Start
  | .settle o =>
    engage (w.record (.offered (.completion c) o)) (.deferred c ctx) c (.direct (.complete o))
      [.settling c o.side]
  | .promise handle => reply (w.bindPromise held handle c ctx) .unit
  | .clone handle => reply (w.bind held handle (.deferred c ctx)) .unit
  | .profile => reply w (.profile ctx.name ctx.policy)
  | .describe block => reply w (.text (w.describe (.deferred c ctx) block))
  | .faulty f => fault w f

/-- Whether a running call holds the promise with the given watch. -/
def isBusy (held : List Ref) (watch : WatchId) : Bool :=
  held.any fun
    | .promise _ _ w => w = watch
    | _ => false

/-- An operation on a promise. -/
def beginPromise (w : World) (held : List Ref) (c : CompletionId) (ctx : Context)
    (watch : WatchId) : PromiseOp → Start
  | .register k cb =>
    engage w (.promise c ctx watch) c (.direct (.register k (.callback cb (some ctx))))
  | .chained first onFirst onOther always =>
    run w
      [.chaining c ctx [(.on first, onFirst), (.on first.other, onOther), (.always, always)],
        .holding (.promise c ctx watch)]
  | .flags => read w (w.completion c).cell .flags
  | .clone handle => reply (w.bindPromise held handle c ctx) .unit
  | .poll handle =>
    match w.lookup handle with
    | some (.waker i) =>
      if isBusy held watch then fault w .busy
      else engage w (.promise c ctx watch) c (.poll { watch, waker := i, relay := .relay watch })
    | _ => fault w .handle
  | .blockOn =>
    match (w.completion c).cell.result with
    | some o => reply (w.record (.copied c o)) (.ready (o.map Value.data))
    | none => reply w .wouldBlock
  | .profile => reply w (.profile ctx.name ctx.policy)
  | .describe block => reply w (.text (w.describe (.promise c ctx watch) block))
  | .faulty f => fault w f

/-- Bring something into being under a handle. -/
def beginMaker (w : World) (held : List Ref) (handle : String) : Maker → Start
  | .cell =>
    let (w, i) := w.addCell {}
    reply (w.bind held handle (.cell i)) .unit
  | .queue =>
    let (w, q) := w.addQueue {}
    reply (w.bind held handle (.queue q)) .unit
  | .completion =>
    let (w, c) := w.addCompletion {}
    reply (w.bind held handle (.completion c)) .unit
  | .waker body =>
    let (w, i) := w.addWaker { name := handle, body }
    reply (w.bind held handle (.waker i)) .unit
  | .context settings =>
    reply (w.bind held handle (.context (.ofSettings settings))) .unit
  | .deferred none =>
    let (w, c) := w.addCompletion {}
    reply (w.bind held handle (.deferred c {})) .unit
  | .deferred (some name) =>
    match w.lookup name with
    | some (.context ctx) =>
      let (w, c) := w.addCompletion {}
      reply (w.bind held handle (.deferred c ctx)) .unit
    | _ => fault w .handle
  | .pair promise =>
    let (w, c) := w.addCompletion {}
    reply ((w.bind held handle (.deferred c {})).bindPromise held promise c {}) .unit
  | .settled o =>
    let (w, c) := w.addCompletion {}
    let completion := { w.completion c with cell := ((w.completion c).cell.tryCommit o).1 }
    let w := ((w.record (.offered (.completion c) o)).setCompletion c completion).record
      (.settled (.completion c) o)
    reply (w.bindPromise held handle c {}) .unit

/-- Compare two errors and show the first. -/
def compareErrors (e other : PromiseError) (block : Bool) : Reply :=
  .comparison e.message (e.layout.render block) (e = other) (e = e)

/-- Begin a step, while the running calls hold the given references. -/
def begin (w : World) (held : List Ref) : Act → Start
  | .faulty f => fault w f
  | .raise p => panic w p
  | .attempt body => run w [.body "" body, .catching]
  | .iterate count body => run w [.repeating count body]
  | .discard handle =>
    match w.unbind? held handle with
    | some w => reply w .unit
    | none => fault w .handle
  | .compare e other block => reply w (compareErrors e other block)
  | .create handle m => beginMaker w held handle m
  | .onCell handle op =>
    match w.lookup handle with
    | some (.cell i) => beginCell w i op
    | _ => fault w .handle
  | .onQueue handle op =>
    match w.lookup handle with
    | some (.queue q) => beginQueue w q op
    | _ => fault w .handle
  | .onCompletion handle op =>
    match w.lookup handle with
    | some (.completion c) => beginCompletion w c op
    | _ => fault w .handle
  | .onContext handle op =>
    match w.lookup handle with
    | some (.context ctx) => beginContext w held ctx op
    | _ => fault w .handle
  | .onDeferred handle op =>
    match w.lookup handle with
    | some (.deferred c ctx) => beginDeferred w held c ctx op
    | _ => fault w .handle
  | .onPromise handle op =>
    match w.lookup handle with
    | some (.promise c ctx watch) => beginPromise w held c ctx watch op
    | _ => fault w .handle
  | .onUnknown _ => fault w .handle

end Eventual
