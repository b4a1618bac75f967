import Eventual.Completion.Protocol

/-!
# Polling a promise

Each handle of a promise has a watch: the waker of whoever polled the handle
last, and whether the watch is registered with the completion. Registering
queues a relay among the completion's wakers; when the relay is called, it takes
the waker out of the watch and wakes it. So however often a handle is polled, it
queues one relay, and the relay wakes the last poller only.

A poll looks at the outcome, stores its waker, registers if this handle never
did, and looks at the outcome again, because the commit may have come in
between.
-/

namespace Eventual

/-- Watches are named by the order in which their handles came into being. -/
abbrev WatchId := Nat

/-- What one handle of a promise knows about its poller. -/
structure Watch (τ : Type) where
  stored : Option τ := none
  subscribed : Bool := false
  deriving Inhabited

/-- A completion, seen together with the watches of promises. -/
structure Site (α ι τ : Type) where
  completion : Completion α ι := {}
  watches : Array (Watch τ) := #[]
  deriving Inhabited

namespace Site

variable {α ι τ : Type}

/-- The watch of a handle. -/
def watch (s : Site α ι τ) (w : WatchId) : Watch τ := s.watches[w]?.getD {}

/-- Change the watch of a handle. -/
def updateWatch (s : Site α ι τ) (w : WatchId) (f : Watch τ → Watch τ) : Site α ι τ :=
  { s with watches := s.watches.modify w f }

/-- A poll: the watch, the waker of the poller, and the relay to register. -/
structure Poll (ι τ : Type) where
  watch : WatchId
  waker : τ
  relay : ι
  deriving Inhabited

/-- What can be asked of a completion and its promises. -/
inductive Call (α ι τ : Type) where
  | direct (c : Completion.Call α ι)
  | poll (p : Poll ι τ)
  deriving Inhabited

/-- What a call answers. A poll is ready with the outcome or pending. -/
inductive Answer (α : Type) where
  | direct (a : Completion.Answer α)
  | ready (o : Outcome α)
  | pending
  deriving Inhabited

/-- Where a call stands. -/
inductive Point (α ι τ : Type) where
  | direct (p : Completion.Point α ι)
  | look (p : Poll ι τ)
  | store (p : Poll ι τ)
  | subscribe (p : Poll ι τ)
  | registering (p : Poll ι τ) (here : Completion.Point α ι)
  | lookAgain (p : Poll ι τ)
  deriving Inhabited

/-- The first point of a call. -/
def Call.start : Call α ι τ → Point α ι τ
  | .direct c => .direct c.start
  | .poll p => .look p

/-- One step of a call. -/
def step (s : Site α ι τ) :
    Point α ι τ → Site α ι τ × Action α ι (Point α ι τ) (Answer α)
  | .direct here =>
    let (completion, action) := s.completion.step here
    ({ s with completion }, action.map .direct .direct)
  | .look p =>
    match s.completion.cell.result with
    | some o => (s, .done (.ready o))
    | none => (s, .goto (.store p))
  | .store p =>
    (s.updateWatch p.watch fun w => { w with stored := some p.waker }, .goto (.subscribe p))
  | .subscribe p =>
    if (s.watch p.watch).subscribed then (s, .goto (.lookAgain p))
    else
      (s.updateWatch p.watch fun w => { w with subscribed := true },
        .goto (.registering p (Completion.Call.register .waker p.relay).start))
  | .registering p here =>
    match s.completion.step here with
    | (completion, .done _) => ({ s with completion }, .goto (.lookAgain p))
    | (completion, action) => ({ s with completion }, action.map (.registering p) .direct)
  | .lookAgain _ =>
    match s.completion.cell.result with
    | some o => (s, .done (.ready o))
    | none => (s, .done .pending)

/-- Take the waker out of a watch. -/
def takeWaker (s : Site α ι τ) (w : WatchId) : Site α ι τ × Option τ :=
  (s.updateWatch w fun watch => { watch with stored := none }, (s.watch w).stored)

end Site

end Eventual
