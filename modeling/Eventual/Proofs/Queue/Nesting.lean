import Mathlib.Logic.Relation
import Mathlib.Logic.Function.Iterate
import Eventual.Proofs.Queue.Locks

/-!
# Calls inside each other

One thread, one queue, and code that is not the queue's: the predicate of a take, and the drop of
the payload that it rejects. Either may use the queue again before it comes back, and either may
panic instead. A `Nest` is where such a thread stands: the queue, the takes that wait for the code
they called, and the call in control, if any. A `Turn` is what can happen next.

`Solo` says what the queue looks like while a call is in control: a queue at rest, but for the locks
and links that this call has in its hands. Each access keeps it (`Solo.step`), and it leaves no
access that finds a node locked. Where a take hands its payload over, nothing is locked any more;
so whatever the code does with the queue begins and ends at rest (`Nest.tidy_of_reached`), and the
take goes on as if nothing had happened.
-/

namespace Eventual.Queue

variable {α : Type}

/-! ## What a thread does with a queue -/

/-- A take that has handed a payload to its predicate and waits to be told whether it is wanted. -/
structure Asking (α : Type) where
  search : Search α
  sentinel : Nat
  payload : α

/-- What a take does once it is told: it answers, or it discards the payload and begins again. -/
def Asking.next (a : Asking α) : (wanted : Bool) → Next (Point α) (Answer α)
  | true => .done (.taken (some a.payload) a.search.discarded)
  | false =>
    .goto (.first { a.search with discarded := a.search.discarded ++ [a.payload] } a.sentinel)

/-- The take that the access hands a payload over for. -/
def Point.asks (q : Queue α) : Point α → Option (Asking α)
  | .release s sentinel node => (q.payload? node).map (Asking.mk s sentinel)
  | _ => none

/-- Where an access that hands nothing over leads. -/
def Point.after : Next (Point α) (Answer α) → Option (Point α)
  | .goto p => some p
  | .done _ => none

/-- Where a thread stands that makes calls on a queue inside each other. The takes that wait come
innermost first. If no call is in control, then other code is: that which the innermost of them
called, or that which calls them all. -/
structure Nest (α : Type) where
  queue : Queue α
  waiting : List (Asking α) := []
  point : Option (Point α) := none

namespace Nest

/-- The call in control makes an access. -/
def access (n : Nest α) (p : Point α) : Nest α :=
  match p.asks n.queue with
  | some a => { queue := (step n.queue p).1, waiting := a :: n.waiting }
  | none => { n with queue := (step n.queue p).1, point := Point.after (step n.queue p).2 }

/-- The call in control, if any, makes an access. -/
def advance (n : Nest α) : Nest α := (n.point.map n.access).getD n

/-- What the thread can do next: the call in control makes an access, or else the other code makes a
call, comes back to the take that called it, or panics and unwinds that take. -/
inductive Turn : Nest α → Nest α → Prop
  | access (q : Queue α) (waiting : List (Asking α)) (p : Point α) :
      Turn { queue := q, waiting, point := some p }
        (access { queue := q, waiting, point := some p } p)
  | call (q : Queue α) (waiting : List (Asking α)) (c : Call α) :
      Turn { queue := q, waiting } { queue := q, waiting, point := some c.start }
  | back (q : Queue α) (a : Asking α) (waiting : List (Asking α)) (wanted : Bool) :
      Turn { queue := q, waiting := a :: waiting }
        { queue := q, waiting, point := Point.after (a.next wanted) }
  | unwind (q : Queue α) (a : Asking α) (waiting : List (Asking α)) :
      Turn { queue := q, waiting := a :: waiting } { queue := q, waiting }

end Nest

/-- A thread that begins with the queue can come to stand so. -/
def Reached (q : Queue α) (n : Nest α) : Prop := Relation.ReflTransGen Nest.Turn { queue := q } n

/-- A predicate that uses nothing is asked within the access. -/
theorem step_of_asks {q : Queue α} {p : Point α} {a : Asking α} (asks : p.asks q = some a) :
    (step q p).2 = a.next (a.search.wanted a.search.discarded a.payload) := by
  cases p <;> try contradiction
  next s sentinel node =>
    obtain ⟨x, hx, rfl⟩ := Option.map_eq_some_iff.1 asks
    cases wanted : s.wanted s.discarded x <;> simp [step, hx, wanted, Asking.next]

/-! ## What is promised -/

/-- No node is locked: the sentinel and the linked nodes are not, and a node that is locked for
good is unlinked and leads nowhere. -/
structure Unlocked (q : Queue α) : Prop where
  sentinel : ∀ i ∈ q.head, q.tag? i = some .chained
  linked : ∀ i ∈ q.linked, q.tag? i = some .chained
  popping : ∀ i, q.tag? i = some .popping → q.head ≠ some i ∧ i ∉ q.linked ∧ q.next? i = none
  appending : ∀ i, q.tag? i ≠ some .appending

/-- The node that the access tries to lock, and the tag that it tries to give it. -/
def Point.attempt? : Point α → Option (Nat × Tag)
  | .lockLast _ _ last => some (last, .appending)
  | .lockSentinel _ sentinel _ => some (sentinel, .popping)
  | .lockFirst _ _ node => some (node, .popping)
  | _ => none

/-- The call has to let go of a lock and to begin again. -/
def Point.Retries : Point α → Prop
  | .retreat .. | .giveUp .. => True
  | _ => False

/-- A thread is not in its own way: nothing is locked while other code is in control, and a call in
control locks what it tries to lock, never begins again, and soon gives control back. -/
structure Nest.Free (n : Nest α) : Prop where
  unlocked : n.point = none → n.queue.Unlocked
  locks : ∀ p ∈ n.point, ∀ i t, p.attempt? = some (i, t) →
    n.queue.tryLock i t = (n.queue.setTag i t, true)
  straight : ∀ p ∈ n.point, ¬ p.Retries
  returns : ∃ k ≤ n.queue.nodes.size + 9, (Nest.advance^[k] n).point = none

/-! ## The queue while a call is in control -/

/-- The node is the last of a queue at rest whose sentinel is installed. -/
structure Ends (q : Queue α) (last : Nat) : Prop where
  rest : q.AtRest
  installed : q.head = some 0
  eq : last = q.lastNode

/-- The node is the first of a queue at rest, behind the sentinel. -/
structure Starts (q : Queue α) (sentinel node : Nat) : Prop where
  rest : q.AtRest
  sentinel_eq : sentinel = 0
  linked : ∃ l, q.linked = node :: l

/-- The queue whose sentinel and first node are locked by a take. -/
def bothLocked (q : Queue α) (node : Nat) : Queue α := (q.setTag 0 .popping).setTag node .popping

/-- What the queue looks like to a call in control that nobody disturbs. -/
def Solo (q : Queue α) : Point α → Prop
  | .enter _ | .install _ | .search _ | .probe => q.AtRest
  | .seek _ s node => q.AtRest ∧ q.head = some 0 ∧ s = 0 ∧ node ∈ 0 :: q.linked
  | .lockLast _ _ last => q.Ends last
  | .checkLast _ _ last | .link _ _ last =>
    ∃ r : Queue α, r.Ends last ∧ q = r.setTag last .appending
  | .unlockLast last =>
    ∃ (r : Queue α) (x : α), r.Ends last ∧ q = (r.setTag last .appending).extend x last
  | .first _ s | .probeFirst s => q.AtRest ∧ q.head = some 0 ∧ s = 0
  | .lockSentinel _ s node => q.Starts s node
  | .checkFirst _ s node | .lockFirst _ s node =>
    ∃ r : Queue α, r.Starts s node ∧ q = r.setTag 0 .popping
  | .successor _ s node => ∃ r : Queue α, r.Starts s node ∧ q = r.bothLocked node
  | .unlink _ s node rest =>
    ∃ r : Queue α, r.Starts s node ∧ rest = r.next? node ∧ q = r.bothLocked node
  | .cut _ s node =>
    ∃ r : Queue α, r.Starts s node ∧ q = (r.bothLocked node).setNext 0 (r.next? node)
  | .release _ s node =>
    ∃ r : Queue α, r.Starts s node ∧
      q = ((r.bothLocked node).setNext 0 (r.next? node)).setNext node none
  | .retreat .. | .giveUp .. => False

/-! ## The nodes that a call has in its hands -/

/-- From a node of a path the link leads to a node of the path, or the node is the last one. -/
theorem Path.next?_of_mem {q : Queue α} {i j : Nat} {l : List Nat} (h : q.Path (q.next? i) l)
    (hj : j ∈ i :: l) :
    (∀ n, q.next? j = some n → n ∈ l) ∧ (q.next? j = none → j = (i :: l).getLast (by simp)) := by
  induction l generalizing i with
  | nil =>
    obtain rfl := List.mem_singleton.1 hj
    have none : q.next? j = none := h
    exact ⟨fun n hn => (Option.some_ne_none n (hn.symm.trans none)).elim, fun _ => rfl⟩
  | cons k l ih =>
    obtain ⟨hk, path⟩ := h
    obtain rfl | hj := List.mem_cons.1 hj
    · refine ⟨fun n hn => ?_, fun none => (Option.some_ne_none k (hk.symm.trans none)).elim⟩
      obtain rfl := Option.some.inj (hk.symm.trans hn)
      exact List.mem_cons_self ..
    · obtain ⟨next, last⟩ := ih path hj
      exact ⟨fun n hn => List.mem_cons_of_mem _ (next n hn), fun none => by simpa using last none⟩

namespace Ends

variable {q : Queue α} {last : Nat}

theorem lt_size (h : q.Ends last) : last < q.nodes.size :=
  h.eq ▸ h.rest.lastNode_lt h.installed

theorem tag? (h : q.Ends last) : q.tag? last = some .chained :=
  h.rest.tag?_eq (h.eq ▸ List.getLast_mem (by simp)) h.lt_size

theorem next? (h : q.Ends last) : q.next? last = none :=
  h.eq ▸ h.rest.next?_lastNode h.installed

/-- Linking behind the last node while it is locked, and unlocking it, extends the queue. -/
theorem unlock (h : q.Ends last) (x : α) :
    ((q.setTag last .appending).extend x last).setTag last .chained = q.extend x last := by
  have hlt := h.lt_size
  have htag : (q.nodes[last]?.map Node.tag) = some .chained := h.tag?
  refine Queue.ext rfl (Array.ext_getElem? fun j => ?_)
  simp only [extend, setNext, setTag, nodes_update, nodes_allocate, Array.getElem?_modify,
    Array.getElem?_push, Array.size_modify]
  grind

end Ends

namespace Starts

variable {q : Queue α} {sentinel node : Nat}

theorem mem (h : q.Starts sentinel node) : node ∈ q.linked := by
  obtain ⟨l, hl⟩ := h.linked
  exact hl ▸ List.mem_cons_self ..

theorem installed (h : q.Starts sentinel node) : q.head = some 0 := h.rest.head_of_linked h.mem

theorem bounds (h : q.Starts sentinel node) : 0 < node ∧ node < q.nodes.size :=
  h.rest.linked_lt h.mem

theorem first (h : q.Starts sentinel node) : q.next? 0 = some node := by
  obtain ⟨l, hl⟩ := h.linked
  have path := h.rest.path h.installed
  rw [hl] at path
  exact path.1

theorem tag?_zero (h : q.Starts sentinel node) : q.tag? 0 = some .chained :=
  h.rest.tag?_eq (List.mem_cons_self ..) (h.rest.head_eq_zero h.installed).2

/-- The first node is not locked by locking the sentinel. -/
theorem tag?_node (h : q.Starts sentinel node) :
    (q.setTag 0 .popping).tag? node = some .chained := by
  rw [tag?_setTag_of_ne q (Nat.ne_of_lt h.bounds.1)]
  exact h.rest.tag?_eq (List.mem_cons_of_mem _ h.mem) h.bounds.2

theorem payload? (h : q.Starts sentinel node) : ∃ x, q.payload? node = some x := by
  have found := Array.getElem?_eq_getElem h.bounds.2
  obtain ⟨x, hx⟩ := Option.isSome_iff_exists.1 (h.rest.linked_node node h.mem _ found).2
  exact ⟨x, by rw [Queue.payload?, found]; exact hx⟩

/-- Unlinking the first node between its locks, and unlocking the sentinel, detaches it. -/
theorem unlock (h : q.Starts sentinel node) :
    ((((q.bothLocked node).setNext 0 (q.next? node)).setNext node none).setTag 0
      .chained).clearPayload node = q.detach node := by
  have bounds := h.bounds
  have htag : (q.nodes[0]?.map Node.tag) = some .chained := h.tag?_zero
  refine Queue.ext (by simp [bothLocked, detach, setNext, setTag, clearPayload])
    (Array.ext_getElem? fun j => ?_)
  simp only [bothLocked, detach, setNext, setTag, clearPayload, nodes_update,
    Array.getElem?_modify]
  by_cases at_zero : 0 = j
  · subst at_zero
    have apart : node ≠ 0 := by omega
    cases found : q.nodes[0]? <;> simp_all
  · by_cases at_node : node = j <;> simp [at_zero, at_node, Function.comp_def]

end Starts

/-- A queue at rest with an installed sentinel either holds nothing or starts with a node. -/
theorem AtRest.starts {q : Queue α} (h : q.AtRest) (installed : q.head = some 0) {node : Nat}
    (first : q.next? 0 = some node) : q.Starts 0 node := by
  have path := h.path installed
  cases hl : q.linked with
  | nil =>
    rw [hl] at path
    exact (Option.some_ne_none node (first.symm.trans path)).elim
  | cons i l =>
    rw [hl] at path
    obtain rfl := Option.some.inj (first.symm.trans path.1)
    exact ⟨h, rfl, l, hl⟩

/-! ## One access -/

/-- The most accesses that a call in control makes before control is elsewhere. -/
def Point.left (q : Queue α) : Point α → Nat
  | .enter _ => q.nodes.size + 7
  | .install _ => q.nodes.size + 6
  | .seek _ _ node => q.nodes.size - node + 4
  | .lockLast .. | .successor .. => 4
  | .checkLast .. | .unlink .. => 3
  | .link .. | .cut .. | .probe => 2
  | .unlockLast _ | .release .. | .probeFirst _ => 1
  | .search _ => 9
  | .first .. => 8
  | .lockSentinel .. => 7
  | .checkFirst .. => 6
  | .lockFirst .. => 5
  | .retreat .. | .giveUp .. => 0

/-- What the queue looks like to the thread: at rest, unless a call is in control. -/
def Calm (q : Queue α) : Option (Point α) → Prop
  | none => q.AtRest
  | some p => Solo q p

/-- An access has led one step further, to another point or to the answer. -/
structure Onward (q : Queue α) (p : Point α) (q' : Queue α) (next : Next (Point α) (Answer α)) :
    Prop where
  calm : q'.Calm (Point.after next)
  less : ∀ p' ∈ Point.after next, p'.left q' < p.left q

/-- An installed sentinel stays where it is. -/
theorem Does.head_eq {q q' : Queue α} {p : Point α} {next : Next (Point α) (Answer α)}
    (does : Does q p q' next) {s : Nat} (installed : q.head = some s) : q'.head = some s := by
  cases does <;>
    first
    | exact installed
    | exact (Option.some_ne_none s (installed.symm.trans ‹_›)).elim

/-- A call that nobody disturbs finds everything as it left it: no lock is lost, no second look
tells anything new, and one access leads on to the next. -/
theorem Solo.step {q q' : Queue α} {p : Point α} {next : Next (Point α) (Answer α)}
    (solo : Solo q p) (quiet : p.asks q = none) (does : Does q p q' next) : q.Onward p q' next := by
  cases does with
  | enter h =>
    obtain ⟨rfl, nonempty⟩ := AtRest.head_eq_zero solo h
    exact ⟨⟨solo, h, rfl, List.mem_cons_self ..⟩, by simp [Point.after, Point.left]⟩
  | enterBare h => exact ⟨solo, by simp [Point.after, Point.left]⟩
  | installLost h =>
    obtain ⟨rfl, nonempty⟩ := AtRest.head_eq_zero solo h
    exact ⟨⟨solo, h, rfl, List.mem_cons_self ..⟩, by simp [Point.after, Point.left]⟩
  | install h =>
    have bare := AtRest.nodes_eq_empty solo h
    obtain ⟨rest, installed, -⟩ := AtRest.withSentinel solo
    simp only [withSentinel, h] at rest installed
    refine ⟨⟨rest, installed, by simp [bare], ?_⟩, by simp [Point.after, Point.left, bare]⟩
    exact List.mem_cons.2 (.inl (by simp [bare]))
  | @seek x s node n h =>
    obtain ⟨rest, installed, hs, mem⟩ := solo
    obtain ⟨further, -⟩ := (rest.path installed).next?_of_mem mem
    refine ⟨⟨rest, installed, hs, List.mem_cons_of_mem _ (further n h)⟩, ?_⟩
    have ascends := rest.ascending node n h
    simp only [Point.after, Option.mem_some_iff, forall_eq', Point.left]
    omega
  | @seekEnd x s node h =>
    obtain ⟨rest, installed, hs, mem⟩ := solo
    obtain ⟨-, last⟩ := (rest.path installed).next?_of_mem mem
    have ends : q.Ends node := ⟨rest, installed, last h⟩
    refine ⟨ends, ?_⟩
    have inside := ends.lt_size
    simp only [Point.after, Option.mem_some_iff, forall_eq', Point.left]
    omega
  | lockLast h => exact ⟨⟨q, solo, rfl⟩, by simp [Point.after, Point.left]⟩
  | lockLastLost h => exact absurd (Ends.tag? solo) h
  | checkLast h => exact ⟨solo, by simp [Point.after, Point.left]⟩
  | checkLastLost h =>
    obtain ⟨r, ends, rfl⟩ := solo
    rw [next?_setTag, ends.next?] at h
    exact (Option.some_ne_none _ h.symm).elim
  | @link x s last =>
    obtain ⟨r, ends, rfl⟩ := solo
    exact ⟨⟨r, x, ends, rfl⟩, by simp [Point.after, Point.left]⟩
  | unlockLast =>
    obtain ⟨r, x, ends, rfl⟩ := solo
    refine ⟨?_, by simp [Point.after]⟩
    rw [ends.unlock]
    exact ends.eq ▸ (ends.rest.extend ends.installed x).1
  | retreat => exact False.elim solo
  | search h =>
    obtain ⟨rfl, nonempty⟩ := AtRest.head_eq_zero solo h
    exact ⟨⟨solo, h, rfl⟩, by simp [Point.after, Point.left]⟩
  | searchBare h => exact ⟨solo, by simp [Point.after]⟩
  | first h =>
    obtain ⟨rest, installed, rfl⟩ := solo
    exact ⟨rest.starts installed h, by simp [Point.after, Point.left]⟩
  | firstNone h => exact ⟨solo.1, by simp [Point.after]⟩
  | lockSentinel h =>
    obtain rfl := Starts.sentinel_eq solo
    exact ⟨⟨q, solo, rfl⟩, by simp [Point.after, Point.left]⟩
  | lockSentinelLost h =>
    obtain rfl := Starts.sentinel_eq solo
    exact absurd (Starts.tag?_zero solo) h
  | checkFirst h => exact ⟨solo, by simp [Point.after, Point.left]⟩
  | checkFirstLost h =>
    obtain ⟨r, starts, rfl⟩ := solo
    obtain rfl := starts.sentinel_eq
    exact absurd ((next?_setTag ..).trans starts.first) h
  | lockFirst h =>
    obtain ⟨r, starts, rfl⟩ := solo
    exact ⟨⟨r, starts, rfl⟩, by simp [Point.after, Point.left]⟩
  | lockFirstLost h =>
    obtain ⟨r, starts, rfl⟩ := solo
    exact absurd starts.tag?_node h
  | giveUp => exact False.elim solo
  | successor =>
    obtain ⟨r, starts, rfl⟩ := solo
    refine ⟨⟨r, starts, ?_, rfl⟩, by simp [Point.after, Point.left]⟩
    rw [bothLocked, next?_setTag, next?_setTag]
  | unlink =>
    obtain ⟨r, starts, rfl, rfl⟩ := solo
    obtain rfl := starts.sentinel_eq
    exact ⟨⟨r, starts, rfl⟩, by simp [Point.after, Point.left]⟩
  | cut =>
    obtain ⟨r, starts, rfl⟩ := solo
    exact ⟨⟨r, starts, rfl⟩, by simp [Point.after, Point.left]⟩
  | releaseEmpty h =>
    obtain ⟨r, starts, rfl⟩ := solo
    obtain ⟨x, hx⟩ := starts.payload?
    simp only [bothLocked, payload?_setNext, payload?_setTag, hx] at h
    exact (Option.some_ne_none x h).elim
  | deliver h _ => simp [Point.asks, h] at quiet
  | discard h _ => simp [Point.asks, h] at quiet
  | probe h =>
    obtain ⟨rfl, nonempty⟩ := AtRest.head_eq_zero solo h
    exact ⟨⟨solo, h, rfl⟩, by simp [Point.after, Point.left]⟩
  | probeBare h => exact ⟨solo, by simp [Point.after]⟩
  | probeFirst => exact ⟨solo.1, by simp [Point.after]⟩

/-- A take that hands a payload over has unlocked the sentinel before: the queue is at rest. -/
theorem Solo.hands_over {q : Queue α} {p : Point α} {a : Asking α} (solo : Solo q p)
    (asks : p.asks q = some a) :
    (Queue.step q p).1.AtRest ∧ (Queue.step q p).1.head = some 0 ∧ a.sentinel = 0 := by
  cases p <;> try contradiction
  next s sentinel node =>
    obtain ⟨x, hx, rfl⟩ := Option.map_eq_some_iff.1 asks
    obtain ⟨r, starts, rfl⟩ := solo
    obtain rfl := starts.sentinel_eq
    obtain ⟨l, hl⟩ := starts.linked
    have after : (Queue.step (((r.bothLocked node).setNext 0 (r.next? node)).setNext node none)
        (.release s 0 node)).1 = r.detach node := by
      rw [← starts.unlock]
      simp only [Queue.step, hx]
      split <;> rfl
    rw [after]
    exact ⟨(starts.rest.detach hl).1, starts.installed, rfl⟩

/-- A call that nobody disturbs gets each lock that it tries for. -/
theorem Solo.tryLock_eq {q : Queue α} {p : Point α} {i : Nat} {t : Tag} (solo : Solo q p)
    (attempt : p.attempt? = some (i, t)) : q.tryLock i t = (q.setTag i t, true) := by
  apply tryLock_of_chained
  cases p <;> try contradiction
  next x s last =>
    obtain ⟨rfl, rfl⟩ := Prod.mk.inj (Option.some.inj attempt)
    exact Ends.tag? solo
  next s sentinel node =>
    obtain ⟨rfl, rfl⟩ := Prod.mk.inj (Option.some.inj attempt)
    obtain rfl := Starts.sentinel_eq solo
    exact Starts.tag?_zero solo
  next s sentinel node =>
    obtain ⟨rfl, rfl⟩ := Prod.mk.inj (Option.some.inj attempt)
    obtain ⟨r, starts, rfl⟩ := solo
    exact starts.tag?_node

/-- A call that nobody disturbs never begins again. -/
theorem Solo.not_retries {q : Queue α} {p : Point α} (solo : Solo q p) : ¬ p.Retries := by
  intro retries
  cases p <;> first | exact retries | exact solo

/-- A queue at rest can be used by any call. -/
theorem AtRest.solo_start {q : Queue α} (h : q.AtRest) (c : Call α) : Solo q c.start := by
  cases c <;> exact h

/-- Nothing is locked in a queue at rest. -/
theorem AtRest.unlocked {q : Queue α} (h : q.AtRest) : q.Unlocked := by
  have linked : ∀ i ∈ q.linked, q.tag? i = some .chained := fun i hi =>
    h.tag?_eq (List.mem_cons_of_mem _ hi) (h.linked_lt hi).2
  have sentinel : ∀ i ∈ q.head, q.tag? i = some .chained := by
    intro i hi
    obtain ⟨rfl, nonempty⟩ := h.head_eq_zero hi
    exact h.tag?_eq (List.mem_cons_self ..) nonempty
  -- What is neither the sentinel nor linked is locked for good.
  have others : ∀ i t, q.tag? i = some t → t ≠ .chained →
      q.head ≠ some i ∧ i ∉ q.linked ∧ t = .popping ∧ q.next? i = none := by
    intro i t tag unchained
    have notHead : q.head ≠ some i := fun hi => unchained
      (Option.some.inj (tag.symm.trans (sentinel i hi)))
    have notLinked : i ∉ q.linked := fun hi => unchained
      (Option.some.inj (tag.symm.trans (linked i hi)))
    obtain ⟨node, found, rfl⟩ := Option.map_eq_some_iff.1 tag
    have notZero : i ≠ 0 := by
      rintro rfl
      have inside := (Array.getElem?_eq_some_iff.1 found).1
      exact notHead (by rw [h.head_eq, if_neg (Nat.ne_of_gt inside)])
    obtain ⟨popping, cut, -⟩ := h.unlinked_node i notZero notLinked node found
    exact ⟨notHead, notLinked, popping, by simp [next?, found, cut]⟩
  constructor
  · exact sentinel
  · exact linked
  · intro i tag
    obtain ⟨notHead, notLinked, -, cut⟩ := others i _ tag Tag.noConfusion
    exact ⟨notHead, notLinked, cut⟩
  · intro i tag
    obtain ⟨-, -, popping, -⟩ := others i _ tag Tag.noConfusion
    exact Tag.noConfusion popping

/-! ## A whole run -/

/-- The thread stands as it should: the queue is at rest but for the call in control, and each take
that waits knows the sentinel. -/
structure Nest.Tidy (n : Nest α) : Prop where
  calm : n.queue.Calm n.point
  waiting : ∀ a ∈ n.waiting, a.sentinel = 0 ∧ n.queue.head = some 0

namespace Nest

variable {n n' : Nest α}

theorem Tidy.solo {p : Point α} (tidy : n.Tidy) (hp : n.point = some p) : Solo n.queue p := by
  have calm := tidy.calm
  rwa [hp] at calm

/-- An access keeps the thread as it should be, and one access less is left. -/
theorem Tidy.access {p : Point α} (tidy : n.Tidy) (hp : n.point = some p) :
    (n.access p).Tidy ∧ ∀ p' ∈ (n.access p).point, p'.left (n.access p).queue < p.left n.queue := by
  have solo := tidy.solo hp
  have does := step_does n.queue p
  have kept : ∀ a ∈ n.waiting, a.sentinel = 0 ∧ (step n.queue p).1.head = some 0 := fun a ha =>
    ⟨(tidy.waiting a ha).1, does.head_eq (tidy.waiting a ha).2⟩
  unfold Nest.access
  split
  next a asks =>
    obtain ⟨rest, installed, sentinel⟩ := solo.hands_over asks
    exact ⟨⟨rest, List.forall_mem_cons.2 ⟨⟨sentinel, installed⟩, kept⟩⟩, by simp⟩
  next quiet =>
    have onward := solo.step quiet does
    exact ⟨⟨onward.calm, kept⟩, onward.less⟩

theorem Tidy.turn (tidy : n.Tidy) (turn : Turn n n') : n'.Tidy := by
  cases turn with
  | access q waiting p => exact (tidy.access rfl).1
  | call q waiting c => exact ⟨AtRest.solo_start tidy.calm c, tidy.waiting⟩
  | back q a waiting wanted =>
    obtain ⟨⟨sentinel, installed⟩, others⟩ := List.forall_mem_cons.1 tidy.waiting
    refine ⟨?_, others⟩
    cases wanted with
    | true => exact tidy.calm
    | false => exact ⟨tidy.calm, installed, sentinel⟩
  | unwind q a waiting => exact ⟨tidy.calm, (List.forall_mem_cons.1 tidy.waiting).2⟩

/-- However calls nest and wherever they panic, the thread stands as it should. -/
theorem tidy_of_reached {q : Queue α} (rest : q.AtRest) (reached : q.Reached n) :
    n.Tidy := by
  induction reached with
  | refl => exact ⟨rest, List.forall_mem_nil _⟩
  | tail _ turn ih => exact ih.turn turn

/-- The call in control gives control back. -/
theorem Tidy.returns {p : Point α} (tidy : n.Tidy) (hp : n.point = some p) :
    ∃ k ≤ p.left n.queue, (Nest.advance^[k] n).point = none := by
  generalize bound : p.left n.queue = b
  induction b using Nat.strongRecOn generalizing n p with
  | ind b ih =>
    subst bound
    obtain ⟨tidy', less⟩ := tidy.access hp
    have goes : n.advance = n.access p := by simp [advance, hp]
    cases hp' : (n.access p).point with
    | none =>
      refine ⟨1, ?_, by rwa [Function.iterate_one, goes]⟩
      have unspent : ¬ p.Retries := (tidy.solo hp).not_retries
      cases p <;> first | exact absurd trivial unspent | (simp only [Point.left]; omega)
    | some p' =>
      obtain ⟨k, le, back⟩ := ih _ (less p' hp') tidy' hp' rfl
      refine ⟨k + 1, Nat.succ_le_of_lt (Nat.lt_of_le_of_lt le (less p' hp')), ?_⟩
      rwa [Function.iterate_succ_apply, goes]

theorem Tidy.free (tidy : n.Tidy) : n.Free := by
  obtain ⟨q, waiting, point⟩ := n
  cases point with
  | none => exact ⟨fun _ => AtRest.unlocked tidy.calm, nofun, nofun, 0, Nat.zero_le _, rfl⟩
  | some p =>
    have solo := tidy.solo rfl
    refine ⟨nofun, ?_, ?_, ?_⟩
    · rintro _ ⟨⟩ i t attempt
      exact solo.tryLock_eq attempt
    · rintro _ ⟨⟩
      exact solo.not_retries
    · obtain ⟨k, le, back⟩ := tidy.returns rfl
      refine ⟨k, Nat.le_trans le ?_, back⟩
      cases p <;> simp only [Point.left] <;> omega

/-- A call that runs by itself is such a run, in which each predicate comes back at once. -/
theorem runs_alone {fuel : Nat} {q q' : Queue α} {p : Point α} {answer : Answer α}
    (run : runAlone step fuel q p = some (q', answer)) (waiting : List (Asking α)) :
    Relation.ReflTransGen Turn { queue := q, waiting, point := some p }
      { queue := q', waiting } := by
  induction fuel generalizing q p with
  | zero => cases run
  | succ fuel ih =>
    -- With or without a predicate in between, the access leads to what follows it.
    have reaches : Relation.ReflTransGen Turn { queue := q, waiting, point := some p }
        { queue := (step q p).1, waiting, point := Point.after (step q p).2 } := by
      have access := Turn.access q waiting p
      unfold Nest.access at access
      cases asks : p.asks q with
      | none =>
        simp only [asks] at access
        exact .single access
      | some a =>
        simp only [asks] at access
        rw [step_of_asks asks]
        exact .tail (.single access) (.back ..)
    rw [runAlone] at run
    split at run
    next q₁ p₁ h =>
      rw [h] at reaches
      exact reaches.trans (ih run)
    next q₁ a₁ h =>
      rw [h] at reaches
      obtain ⟨rfl, -⟩ := Prod.mk.inj (Option.some.inj run)
      exact reaches

end Nest

/-- An append is a run of a thread that begins with the queue. -/
theorem reached_append (q : Queue α) (x : α) : q.Reached { queue := q.append x } := by
  rw [append]
  split
  next h => exact .head (.call q [] (.append x)) (Nest.runs_alone h [])
  next => exact .refl

/-- A take is a run of a thread that begins with the queue. -/
theorem reached_take? (q : Queue α) : q.Reached { queue := q.take?.1 } := by
  rw [take?]
  split
  next h => exact .head (.call q [] (.take fun _ _ => true)) (Nest.runs_alone h [])
  next => exact .refl

/-- Whatever a thread does with the queue, its calls inside each other and panics where it likes, it
is not in its own way; and the appends and takes that come one after another are such runs. -/
structure NeverBlocks (q : Queue α) : Prop where
  unlocked : q.Unlocked
  free : ∀ n, q.Reached n → n.Free
  append : ∀ x, q.Reached { queue := q.append x }
  take : q.Reached { queue := q.take?.1 }

theorem AtRest.neverBlocks {q : Queue α} (h : q.AtRest) : q.NeverBlocks :=
  ⟨h.unlocked, fun _ reached => (Nest.tidy_of_reached h reached).free, reached_append q,
    reached_take? q⟩

end Eventual.Queue
