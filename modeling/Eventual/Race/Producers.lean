import Eventual.Interleaving.Objects

/-!
# Producers against consumers

Producers append their numbers in order while consumers take until every number
has been seen. Without consumers everything is taken at the end.
-/

namespace Eventual.Race.Producers

/-- A payload: its producer, and its place among what that producer appends. -/
abbrev Ticket := Nat × Nat

/-- A take that wants anything, so many times. -/
def takes (n : Nat) : List (Queue.Call Ticket) :=
  List.replicate n (.take fun _ _ => true)

/-- What a thread took, in its order. -/
def taken (answers : List (Queue.Call Ticket × Queue.Answer Ticket)) :
    List Ticket :=
  answers.filterMap fun
    | (_, .taken x _) => x
    | _ => none

/-- Whether the payloads of each producer come in its order. -/
def isOrdered : List Ticket → Bool
  | [] => true
  | t :: rest => rest.all (fun u => u.1 ≠ t.1 || t.2 < u.2) && isOrdered rest

/-- What became of the queue. -/
structure Result where
  left : Nat
  seen : Nat
  once : Bool
  ordered : Bool
  isEmpty : Bool

/-- Let producers and consumers loose; then the consumers take what is left while
nobody appends; then one thread takes the rest. -/
def run (producers consumers per : Nat) : Result :=
  let tickets := (List.range producers).flatMap fun p => (List.range per).map fun i => (p, i)
  let appends := (List.range producers).map fun p =>
    (List.range per).map fun i => Queue.Call.append (p, i)
  let consuming := List.replicate consumers (takes tickets.length)
  let crew (q : Queue Ticket) (calls : List (List (Queue.Call Ticket))) :
      QueueCrew Ticket :=
    (Crew.initial q calls).takeTurns (Queue.rules Ticket)
  let both := crew {} (appends ++ consuming)
  let after := crew both.shared consuming
  let final := crew after.shared [takes tickets.length]
  let bags := (both.threads.drop producers).zipWith
    (fun early late => taken early.answers ++ taken late.answers) after.threads
  let bags := bags ++ [taken final.answers]
  let all := bags.flatten
  { left := after.shared.length
    seen := all.length
    once := tickets.all fun t => all.count t = 1
    ordered := bags.all isOrdered
    isEmpty := final.shared.isEmpty }

end Eventual.Race.Producers
