import Eventual.Queue.Basic

/-!
# Accesses to a queue

The operations on a queue, one load, store or exchange a step.

An append finds or installs the sentinel, walks to the last node, locks it, and
looks again whether it is still the last; if so it links the new node and
unlocks, and otherwise it unlocks and walks again.

A take looks for the first node, locks the sentinel, looks again whether that
node is still the first, and locks it too; then it unlinks the node, clears its
link and unlocks the sentinel. Only then, when the node is its own, does it take
the payload out and ask whether the payload is wanted. A payload that is not
wanted is discarded and the take begins again.
-/

namespace Eventual.Queue

variable {α : Type}

/-- What a thread can ask of a queue. A take asks of each payload in turn whether
it is wanted, and the answer may depend on what was discarded before. -/
inductive Call (α : Type) where
  | append (x : α)
  | take (wanted : List α → α → Bool)
  | isEmpty

/-- A take under way: what it wants and what it has discarded so far. -/
structure Search (α : Type) where
  wanted : List α → α → Bool
  discarded : List α := []

/-- Where a call on a queue stands. -/
inductive Point (α : Type) where
  | enter (x : α)
  | install (x : α)
  | seek (x : α) (sentinel node : Nat)
  | lockLast (x : α) (sentinel last : Nat)
  | checkLast (x : α) (sentinel last : Nat)
  | link (x : α) (sentinel last : Nat)
  | unlockLast (last : Nat)
  | retreat (x : α) (sentinel last : Nat)
  | search (s : Search α)
  | first (s : Search α) (sentinel : Nat)
  | lockSentinel (s : Search α) (sentinel node : Nat)
  | checkFirst (s : Search α) (sentinel node : Nat)
  | lockFirst (s : Search α) (sentinel node : Nat)
  | giveUp (s : Search α) (sentinel : Nat)
  | successor (s : Search α) (sentinel node : Nat)
  | unlink (s : Search α) (sentinel node : Nat) (rest : Option Nat)
  | cut (s : Search α) (sentinel node : Nat)
  | release (s : Search α) (sentinel node : Nat)
  | probe
  | probeFirst (sentinel : Nat)

/-- What a call on a queue answers. A take also reports what it discarded. -/
inductive Answer (α : Type) where
  | appended
  | taken (x : Option α) (discarded : List α)
  | empty (b : Bool)
  deriving Inhabited

/-- The first point of a call. -/
def Call.start : Call α → Point α
  | .append x => .enter x
  | .take wanted => .search { wanted }
  | .isEmpty => .probe

/-- One access of a call on a queue. -/
def step : Access (Queue α) (Point α) (Answer α)
  | q, .enter x =>
    match q.head with
    | some sentinel => (q, .goto (.seek x sentinel sentinel))
    | none => (q, .goto (.install x))
  | q, .install x =>
    match q.head with
    | some sentinel => (q, .goto (.seek x sentinel sentinel))
    | none =>
      let sentinel := q.nodes.size
      ({ q.allocate {} with head := some sentinel }, .goto (.seek x sentinel sentinel))
  | q, .seek x sentinel node =>
    match q.next? node with
    | some n => (q, .goto (.seek x sentinel n))
    | none => (q, .goto (.lockLast x sentinel node))
  | q, .lockLast x sentinel last =>
    match q.tryLock last .appending with
    | (q', true) => (q', .goto (.checkLast x sentinel last))
    | (q', false) => (q', .goto (.seek x sentinel sentinel))
  | q, .checkLast x sentinel last =>
    match q.next? last with
    | none => (q, .goto (.link x sentinel last))
    | some _ => (q, .goto (.retreat x sentinel last))
  | q, .link x _ last =>
    ((q.allocate { payload := some x }).setNext last (some q.nodes.size),
      .goto (.unlockLast last))
  | q, .unlockLast last => (q.setTag last .chained, .done .appended)
  | q, .retreat x sentinel last =>
    (q.setTag last .chained, .goto (.seek x sentinel sentinel))
  | q, .search s =>
    match q.head with
    | some sentinel => (q, .goto (.first s sentinel))
    | none => (q, .done (.taken none s.discarded))
  | q, .first s sentinel =>
    match q.next? sentinel with
    | some node => (q, .goto (.lockSentinel s sentinel node))
    | none => (q, .done (.taken none s.discarded))
  | q, .lockSentinel s sentinel node =>
    match q.tryLock sentinel .popping with
    | (q', true) => (q', .goto (.checkFirst s sentinel node))
    | (q', false) => (q', .goto (.first s sentinel))
  | q, .checkFirst s sentinel node =>
    (q, .goto (if q.next? sentinel = some node then .lockFirst s sentinel node
      else .giveUp s sentinel))
  | q, .lockFirst s sentinel node =>
    match q.tryLock node .popping with
    | (q', true) => (q', .goto (.successor s sentinel node))
    | (q', false) => (q', .goto (.giveUp s sentinel))
  | q, .giveUp s sentinel => (q.setTag sentinel .chained, .goto (.first s sentinel))
  | q, .successor s sentinel node => (q, .goto (.unlink s sentinel node (q.next? node)))
  | q, .unlink s sentinel node rest =>
    (q.setNext sentinel rest, .goto (.cut s sentinel node))
  | q, .cut s sentinel node => (q.setNext node none, .goto (.release s sentinel node))
  | q, .release s sentinel node =>
    let q' := (q.setTag sentinel .chained).clearPayload node
    match q.payload? node with
    | none => (q', .goto (.first s sentinel))
    | some x =>
      if s.wanted s.discarded x then (q', .done (.taken (some x) s.discarded))
      else (q', .goto (.first { s with discarded := s.discarded ++ [x] } sentinel))
  | q, .probe =>
    match q.head with
    | some sentinel => (q, .goto (.probeFirst sentinel))
    | none => (q, .done (.empty true))
  | q, .probeFirst sentinel => (q, .done (.empty (q.next? sentinel).isNone))

/-- Append without interference. The walk to the last node passes each node at
most once, and eight accesses surround it. -/
def append (q : Queue α) (x : α) : Queue α :=
  match runAlone step (q.nodes.size + 8) q (.enter x) with
  | some (q', _) => q'
  | none => q

/-- Take the first payload without interference. -/
def take? (q : Queue α) : Queue α × Option α :=
  match runAlone step 9 q (.search { wanted := fun _ _ => true }) with
  | some (q', .taken x _) => (q', x)
  | _ => (q, none)

end Eventual.Queue
