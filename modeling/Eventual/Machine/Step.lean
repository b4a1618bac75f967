import Eventual.Machine.Begin

/-!
# One step of a run

The topmost frame acts on what it is told. It may begin a step of a script, take
a step of a routine, call an item, or hand an answer or a panic to the frame
below. Taking an item from its queue and beginning its call are one step here:
nothing comes in between when there is one thread.

A panic passes every frame that does not stop it. On its way a running call lets
go of what it holds, a take drops the payload it was offering, and a chaining drops
the callbacks it has not registered, the last of them first.

A guard that stops a panic reports it and then drops what it carries. The guard is
gone by then, so a panic of the panic handler or of the drop unwinds into the drain.
-/

namespace Eventual

namespace Machine

/-- Hand an answer to the frames below. -/
def hand (w : World) (below : List Frame) (r : Reply) : Machine :=
  { world := w, stack := below, control := .answer r }

/-- Hand a panic to the frames below. -/
def raise (w : World) (below : List Frame) (p : Panic) : Machine :=
  { world := w, stack := below, control := .unwind p }

/-- Go on with the topmost frame. -/
def goOn (w : World) (stack : List Frame) : Machine :=
  { world := w, stack, control := .resume }

/-- Begin a step above the given frames. -/
def enter (w : World) (stack : List Frame) (act : Act) : Machine :=
  let start := begin w (heldBy stack) act
  { world := start.world, stack := start.frames ++ stack, control := start.control }

/-- Note how a step at the top ended, and what the watched handles show. -/
def conclude (w : World) (watched : List String) (v : Verdict) : World :=
  w.record (.concluded v (watched.map w.describeHandle))

/-- Run the body of a waker that is woken. -/
def wake (w : World) (below : List Frame) (i : WakerId) : Machine :=
  let (w, body) := w.wake i
  goOn w (.body "" body :: below)

/-- Call an item that was taken from a queue of a completion. -/
def call (w : World) (below : List Frame) (c : CompletionId) : Item → Machine
  | .callback cb none => goOn w (.body "" cb.body :: below)
  | .callback cb (some ctx) => goOn w (.body "" cb.body :: .guarding c ctx :: below)
  | .countdown _ name 0 => hand w (.ending (countdownLabel name 0) :: below) .unit
  | .countdown k name (n + 1) =>
    goOn w
      (.driving c (Site.Call.direct (.register k (.countdown k name n))).start
        :: .ending (countdownLabel name (n + 1)) :: below)
  | .waker i => wake w below i
  | .relay watch =>
    match (w.site c).takeWaker watch with
    | (s, none) => hand (w.setSite c s) below .unit
    | (s, some i) => wake (w.setSite c s) below i

/-- Note what a routine gives notice of. -/
def notice (w : World) (c : CompletionId) : Notice Value Item → World
  | .registered k x => w.record (.registered c k x)
  | .settled o => w.record (.settled (.completion c) o)
  | .logged r => w.record (.logged c r)

/-- Hand the answer of a routine to the frames below. -/
def deliver (w : World) (below : List Frame) (c : CompletionId) : Site.Answer Value → Machine
  | .direct .unit => hand w below .unit
  | .direct .won => hand w below (.flag true)
  | .direct (.lost o) => hand (w.record (.lost (.completion c) o)) below (.flag false)
  | .ready o => hand (w.record (.copied c o)) below (.ready (o.map Value.data))
  | .pending => hand w below .pending

/-- One step of a routine on a completion. -/
def drive (w : World) (below : List Frame) (c : CompletionId)
    (here : Site.Point Value Item WakerId) : Machine :=
  let (s, action) := (w.site c).step here
  let w := w.setSite c s
  match action with
  | .goto p => goOn w (.driving c p :: below)
  | .notice n p => goOn (notice w c n) (.driving c p :: below)
  | .call k x arg p => call (w.record (.started c k x arg)) (.driving c p :: below) c x
  | .done a => deliver w below c a
  | .refused s st => raise w below (.refused s st)

/-- Let the predicate of a take answer for the payload it was offered, and go on
to the next payload if this one is not wanted. -/
def probe (w : World) (below : List Frame) (q : Nat) (t : Test) (n : Nat) (v : Value) : Machine :=
  match t.answer n v.data with
  | .error p => raise (w.record (.discarded q v)) below p
  | .ok true =>
    hand ((w.record (.tested v true)).record (.consumed q v)) below (.popped (some v.data))
  | .ok false =>
    match ((w.record (.tested v false)).record (.discarded q v)).take? q with
    | (w, none) => hand w below (.popped none)
    | (w, some v') => hand w (.probing q t (n + 1) v' :: below) .unit

/-- Register the next callback of a promise that are chained to it, or answer
whether the promise is done. -/
def chain (w : World) (below : List Frame) (c : CompletionId) (ctx : Context) :
    List (Kind × Callback) → Machine
  | [] => hand w below (.flag (w.completion c).cell.isTerminal)
  | (k, cb) :: rest =>
    goOn w
      (.driving c (Site.Call.direct (.register k (.callback cb (some ctx)))).start
        :: .chaining c ctx rest :: below)

/-- Drop what a caught panic carries. -/
def dispose (w : World) (below : List Frame) (p : Panic) : Machine :=
  match p.wakes?.bind w.lookup with
  | some (.waker i) => wake w below i
  | _ => hand w below .unit

/-- Report a caught panic: log it, call the handler if there is one, and drop what
the panic carries. -/
def contain (w : World) (below : List Frame) (c : CompletionId) (ctx : Context) (p : Panic) :
    Machine :=
  let w := w.record (.logged c (.contained ctx.label p))
  match ctx.handler with
  | none => dispose w below p
  | some h =>
    goOn (w.record (.reported h.name p)) (.body "" h.body :: .dropping p :: below)

/-- What a frame does when it is told to go on. -/
def resume (w : World) (below : List Frame) : Frame → Machine
  | .session _ [] => hand w below .unit
  | .session watched (step :: rest) => enter w (.session watched rest :: below) step.act
  | .body _ [] => hand w below .unit
  | .body _ (step :: rest) => enter w (.body step.label rest :: below) step.act
  | .repeating 0 _ => hand w below .unit
  | .repeating (n + 1) script => goOn w (.body "" script :: .repeating n script :: below)
  | .driving c here => drive w below c here
  | .chaining c ctx rest => chain w below c ctx rest
  | .probing q t n v => probe w below q t n v
  | .catching | .holding _ | .settling _ _ | .guarding _ _ | .dropping _ | .ending _ =>
    hand w below .unit

/-- What a frame does with an answer from above. -/
def receive (w : World) (below : List Frame) (r : Reply) : Frame → Machine
  | .session watched rest =>
    goOn (conclude w watched (.returned r)) (.session watched rest :: below)
  | .body label rest => goOn (w.record (.replied label r)) (.body label rest :: below)
  | .catching => hand w below (.caught none)
  | .holding ref => hand (w.release (heldBy below) ref) below r
  | .settling c s =>
    match r with
    | .flag false =>
      hand (w.record (.logged c (.lost s))) below (.rejected .alreadyCompleted)
    | _ => hand w below .accepted
  | .guarding _ _ => hand w below .unit
  | .dropping payload => dispose w below payload
  | .ending label => hand (w.record (.ended label)) below .unit
  | .probing q t n v => probe w below q t n v
  | frame => goOn w (frame :: below)

/-- What a frame does when the step it began was not understood. -/
def reject (w : World) (below : List Frame) (f : Fault) : Frame → Machine
  | .session watched rest =>
    goOn (conclude w watched (.faulty f)) (.session watched rest :: below)
  | .body label rest => goOn (w.record (.faulted label f)) (.body label rest :: below)
  | frame => goOn w (frame :: below)

/-- What a frame does with a panic from above. If the panic comes from a panic handler,
what the handler was called for is dropped first, and then the panic goes on; a panic of
that drop takes its place. -/
def unwind (w : World) (below : List Frame) (p : Panic) : Frame → Machine
  | .session watched rest =>
    goOn (conclude w watched (.panicked p)) (.session watched rest :: below)
  | .catching => hand w below (.caught (some p))
  | .holding ref => raise (w.release (heldBy below) ref) below p
  | .guarding c ctx =>
    match ctx.policy with
    | .propagate => raise w below p
    | .isolate => contain w below c ctx p
  | .dropping payload =>
    match payload.wakes? with
    | none => raise w below p
    | some _ => dispose w (.repeating 1 [.mk "" (.raise p)] :: below) payload
  | .probing q _ _ v => raise (w.record (.discarded q v)) below p
  | .chaining c _ rest => raise (w.record (.forgone c (rest.map Prod.snd).reverse)) below p
  | .body _ _ | .repeating _ _ | .driving _ _ | .settling _ _ | .ending _ => raise w below p

/-- One step of a run. A run whose stack is empty is over. -/
def step (m : Machine) : Machine :=
  match m.stack with
  | [] => m
  | frame :: below =>
    match m.control with
    | .resume => resume m.world below frame
    | .answer r => receive m.world below r frame
    | .faulty f => reject m.world below f frame
    | .unwind p => unwind m.world below p frame

/-- A run of a script in which nothing has happened yet. -/
def initial (watched : List String) (script : Script) : Machine :=
  { world := {}, stack := [.session watched script], control := .resume }

/-- Whether a run is over. -/
def isOver (m : Machine) : Bool := m.stack.isEmpty

/-- At most `fuel` steps of a run. -/
def runFor : (fuel : Nat) → Machine → Machine
  | 0, m => m
  | fuel + 1, m => if m.isOver then m else runFor fuel m.step

end Machine

end Eventual
