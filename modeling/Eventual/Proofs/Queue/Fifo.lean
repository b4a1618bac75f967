import Eventual.Interleaving.Objects
import Eventual.Proofs.Interleaving.Outline
import Eventual.Proofs.Queue.Locks

/-!
# Threads see one first-in first-out queue

Any number of threads append to, take from and look at one linked queue, one load,
store or exchange a step, in any order. However their accesses interleave, the
queue is at every moment the list of the payloads on the path from its sentinel,
and that list changes in two kinds of step only. The store that links a node adds
its payload at the back. The store that unlinks the first node removes the payload
at the front and hands it to the thread that made the store and to nobody else.

`outline` annotates every program point with what `Stands` says, and keeps two
threads from holding one lock. `receivedBy` and `linkedBy` collect what a thread
was handed and what it linked, over all of its calls; the access that changes the
queue is the one that changes them.
-/

namespace Eventual.Queue

variable {α : Type}

/-! ## What belongs to which call -/

/-- The points of a call. -/
def Point.Serves : Point α → Call α → Prop
  | .enter x, .append y | .install x, .append y | .seek x _ _, .append y
  | .lockLast x _ _, .append y | .checkLast x _ _, .append y | .link x _ _, .append y
  | .retreat x _ _, .append y => x = y
  | .unlockLast _, .append _ => True
  | .search _, .take _ | .first _ _, .take _ | .lockSentinel _ _ _, .take _
  | .checkFirst _ _ _, .take _ | .lockFirst _ _ _, .take _ | .giveUp _ _, .take _
  | .successor _ _ _, .take _ | .unlink _ _ _ _, .take _ | .cut _ _ _, .take _
  | .release _ _ _, .take _ => True
  | .probe, .isEmpty | .probeFirst _, .isEmpty => True
  | _, _ => False

theorem Does.serves {q q' : Queue α} {p p' : Point α} {call : Call α}
    (does : Does q p q' (.goto p')) (h : p.Serves call) : p'.Serves call := by
  cases does <;> cases call <;> first | exact h | trivial

/-- What a call has linked once it is over. -/
def Call.linked : Call α → List α
  | .append x => [x]
  | .take _ | .isEmpty => []

/-- What a call has linked when it is at the point. -/
def Point.linked (call : Call α) : Point α → List α
  | .unlockLast _ => call.linked
  | _ => []

/-- What a call was handed, by its answer. -/
def Answer.received : Answer α → List α
  | .taken x discarded => discarded ++ x.toList
  | .appended | .empty _ => []

/-- What a call has been handed when it is at the point: what it discarded, and the
payload of the node that it has unlinked and not yet emptied. -/
def Point.received (q : Queue α) : Point α → List α
  | .search s | .first s _ | .lockSentinel s _ _ | .checkFirst s _ _ | .lockFirst s _ _
  | .giveUp s _ | .successor s _ _ | .unlink s _ _ _ => s.discarded
  | .cut s _ node | .release s _ node => s.discarded ++ (q.payload? node).toList
  | .enter _ | .install _ | .seek _ _ _ | .lockLast _ _ _ | .checkLast _ _ _ | .link _ _ _
  | .unlockLast _ | .retreat _ _ _ | .probe | .probeFirst _ => []

section Accesses

variable {q q' : Queue α} {p p' : Point α} {call : Call α} {a : Answer α}

theorem Does.linked_goes (does : Does q p q' (.goto p')) (h : p.Serves call) :
    p'.linked call = p.linked call ++ p.pushes := by
  cases does with
  | link =>
    cases call with
    | append y =>
      obtain rfl : _ = y := h
      rfl
    | take | isEmpty => exact h.elim
  | _ => rfl

theorem Does.linked_answers (does : Does q p q' (.done a)) (h : p.Serves call) :
    call.linked = p.linked call ++ p.pushes := by
  cases does with
  | unlockLast => simp [Point.linked, Point.pushes]
  | searchBare | firstNone | deliver | probeBare | probeFirst =>
    cases call <;> first | exact h.elim | rfl

theorem Does.received_goes (does : Does q p q' (.goto p')) :
    p'.received q' = p.received q ++ p.pops q := by
  cases does with
  | unlink => simp [Point.received, Point.pops]
  | cut => simp [Point.received, Point.pops]
  | releaseEmpty hx => simp [Point.received, Point.pops, hx]
  | discard hx => simp [Point.received, Point.pops, hx]
  | _ => simp [Point.received, Point.pops]

theorem Does.received_answers (does : Does q p q' (.done a)) :
    a.received = p.received q ++ p.pops q := by
  cases does with
  | deliver hx => simp [Answer.received, Point.received, Point.pops, hx]
  | _ => simp [Answer.received, Point.received, Point.pops]

/-- What a thread was handed is its own: nobody else can take it back. -/
theorem Change.received_eq {locks : List Nat} {pushed popped : List α}
    (change : Change q locks q' pushed popped) (h : Stands q p)
    (disjoint : ∀ i ∈ p.locks, i ∉ locks) : p.received q' = p.received q := by
  cases p with
  | cut s n node | release s n node =>
    obtain ⟨rfl, -, -, -, hx⟩ := h
    obtain ⟨x, hx⟩ := Option.isSome_iff_exists.1 hx
    simp only [Point.received]
    rw [change.payload?_eq (disjoint 0 (by simp [Point.locks])) (lt_size_of_payload? hx)]
  | _ => rfl

end Accesses

/-! ## The annotations -/

/-- At each point a thread stands as it should, in a call to which the point belongs,
and no two threads hold one lock. -/
def outline (α : Type) : Outline (rules α) where
  admits _ := True
  shared := InOrder
  stands q call p := Stands q p ∧ p.Serves call
  apart p p' := ∀ i ∈ p.locks, i ∉ p'.locks
  answered _ _ _ := True
  apart_symm h i hi hi' := h i hi' hi
  begins {q call} _ _ := by
    cases call with
    | append x => exact ⟨trivial, rfl⟩
    | take wanted => exact ⟨trivial, trivial⟩
    | isEmpty => exact ⟨trivial, trivial⟩
  begins_apart {call} _ _ := by
    cases call <;> exact nofun
  keeps {q call p} order h := ((step_does q p).change order h.1).inOrder order
  goes {q call p p'} order h hgo := by
    have does : Does q p (step q p).1 (.goto p') := hgo ▸ step_does q p
    exact ⟨does.stands order h.1, does.serves h.2⟩
  answers _ _ _ := trivial
  spares {q call p call' p'} order h h' apart :=
    ⟨h'.1.spared order ((step_does q p).change order h.1) fun i hi hi' => apart i hi' hi, h'.2⟩
  stays_apart {q call p call' p' p''} order h h'' apart hgo i hi hi'' := by
    have does : Does q p (step q p).1 (.goto p') := hgo ▸ step_does q p
    rcases does.locks i hi with hold | ⟨htag, -⟩
    · exact apart i hold hi''
    · obtain ⟨-, hmark⟩ := h''.1.locked order i hi''
      exact p''.mark_ne_chained (Option.some.inj (hmark.symm.trans htag))
  spares_answers _ _ _ := trivial

theorem outline_holds {calls : List (List (Call α))} {c : QueueCrew α}
    (h : Crew.Reachable (rules α) (.initial {} calls) c) : (outline α).Holds c :=
  Outline.holds h InOrder.empty fun _ _ _ _ => trivial

/-! ## One queue for all threads -/

/-- The queue holds the given payloads on the path from its sentinel, which ends. -/
def Shows (q : Queue α) (xs : List α) : Prop :=
  match q.head with
  | none => xs = []
  | some sentinel =>
    ∃ nodes, q.Path (q.next? sentinel) nodes ∧ nodes.map q.payload? = xs.map some

theorem InOrder.shows {q : Queue α} (h : q.InOrder) : q.Shows q.toList := by
  unfold Shows
  split
  next hs =>
    simp [toList, linked, hs]
  next s hs =>
    obtain ⟨rfl, hpos⟩ := h.head_eq_some hs
    refine ⟨_, h.path hpos, ?_⟩
    rw [h.toList_eq]
    have hfront := h.front_pos hpos
    have all : ∀ i ∈ List.range' q.front (q.nodes.size - q.front), ∃ x, q.payload? i = some x := by
      intro i hi
      obtain ⟨hle, hlt⟩ := List.mem_range'_1.1 hi
      exact Option.isSome_iff_exists.1 (h.payload_linked i (by omega) hle (by omega))
    generalize List.range' q.front (q.nodes.size - q.front) = nodes at all
    induction nodes with
    | nil => rfl
    | cons i nodes ih =>
      obtain ⟨x, hx⟩ := all i (List.mem_cons_self ..)
      simp [hx, ih fun j hj => all j (List.mem_cons_of_mem _ hj)]

/-- What a thread has linked, over all of its calls. -/
def linkedBy (t : Thread (Call α) (Point α) (Answer α)) : List α :=
  t.answers.flatMap (fun entry => entry.1.linked) ++
    (t.current.map fun here => here.2.linked here.1).getD []

/-- What a thread was handed, over all of its calls. -/
def receivedBy (q : Queue α) (t : Thread (Call α) (Point α) (Answer α)) : List α :=
  t.answers.flatMap (fun entry => entry.2.received) ++
    (t.current.map fun here => here.2.received q).getD []

/-- What the next step of a thread links. -/
def pushesOf (t : Thread (Call α) (Point α) (Answer α)) : List α :=
  (t.current.map fun here => here.2.pushes).getD []

/-- What the next step of a thread unlinks. -/
def popsOf (q : Queue α) (t : Thread (Call α) (Point α) (Answer α)) : List α :=
  (t.current.map fun here => here.2.pops q).getD []

section Moves

variable {q q' : Queue α} {t t' u : Thread (Call α) (Point α) (Answer α)}

theorem does_of_step {p : Point α} {n : Next (Point α) (Answer α)}
    (h : (rules α).step q p = (q', n)) : Does q p q' n := by
  have does := step_does q p
  rwa [show step q p = (q', n) from h] at does

/-- What a step of a thread does to the queue and to what the thread has linked and received. -/
theorem move_effect (order : q.InOrder) (h : (outline α).Annotated q t)
    (move : Crew.Move (rules α) q t q' t') :
    popsOf q t ++ q'.toList = q.toList ++ pushesOf t ∧
      linkedBy t' = linkedBy t ++ pushesOf t ∧
      receivedBy q' t' = receivedBy q t ++ popsOf q t := by
  cases move with
  | @begins call rest hcur htodo =>
    cases call <;> simp [popsOf, pushesOf, linkedBy, receivedBy, hcur, rules, Call.start,
      Point.linked, Point.received]
  | @goes call p p' _ hcur hs =>
    obtain ⟨stands, serves⟩ := h.stands hcur
    have does := does_of_step hs
    refine ⟨?_, ?_, ?_⟩
    · simpa [popsOf, pushesOf, hcur] using (does.change order stands).toList_eq order
    · simp [linkedBy, pushesOf, hcur, does.linked_goes serves]
    · simp [receivedBy, popsOf, hcur, does.received_goes]
  | @answers call p a _ hcur hs =>
    obtain ⟨stands, serves⟩ := h.stands hcur
    have does := does_of_step hs
    refine ⟨?_, ?_, ?_⟩
    · simpa [popsOf, pushesOf, hcur] using (does.change order stands).toList_eq order
    · simp [linkedBy, pushesOf, hcur, does.linked_answers serves]
    · simp [receivedBy, popsOf, hcur, does.received_answers]

/-- A step of one thread leaves with every other what that was handed. -/
theorem receivedBy_of_move (order : q.InOrder) (h : (outline α).Annotated q t)
    (hu : (outline α).Annotated q u) (apart : (outline α).Apart t u)
    (move : Crew.Move (rules α) q t q' t') : receivedBy q' u = receivedBy q u := by
  have same : ∀ {call p}, u.current = some (call, p) → p.received q' = p.received q := by
    intro call' p' hcur'
    cases move with
    | begins => rfl
    | @goes call p _ _ hcur hs | @answers call p _ _ hcur hs =>
      have change := (does_of_step hs).change order (h.stands hcur).1
      exact change.received_eq (hu.stands hcur').1 fun i hi hi' => apart hcur hcur' i hi' hi
  unfold receivedBy
  cases hcur : u.current with
  | none => rfl
  | some here => simp [same hcur]

end Moves

/-! ## Every schedule -/

/-- What a thread of a crew was handed. -/
def received (c : QueueCrew α) (i : Nat) : List α :=
  (c.threads[i]?.map (receivedBy c.shared)).getD []

/-- A step of thread `i` that respects the order of the queue. -/
structure FifoStep (c c' : QueueCrew α) (i : Nat) : Prop where
  /-- The store that links a node adds its payload at the back. -/
  link : ∀ {x s last}, c.point? i = some (.link x s last) →
    c'.shared.toList = c.shared.toList ++ [x] ∧ received c' i = received c i
  /-- The store that unlinks a node removes the payload at the front and hands it to
  the thread that makes the store. -/
  unlink : ∀ {s n node rest}, c.point? i = some (.unlink s n node rest) →
    ∃ x, c.shared.toList = x :: c'.shared.toList ∧ received c' i = received c i ++ [x]
  /-- No other step changes the queue or hands out anything. -/
  other : (∀ x s last, c.point? i ≠ some (.link x s last)) →
    (∀ s n node rest, c.point? i ≠ some (.unlink s n node rest)) →
    c'.shared.toList = c.shared.toList ∧ received c' i = received c i
  /-- What other threads were handed stays theirs. -/
  alone : ∀ j, j ≠ i → received c' j = received c j
  /-- A take comes back with nothing only when there is nothing. -/
  findsNothing : ∀ {call discarded},
    c'.answersOf i = c.answersOf i ++ [(call, .taken none discarded)] → c.shared.toList = []
  /-- The queue is called empty exactly when it is. -/
  reports : ∀ {call b}, c'.answersOf i = c.answersOf i ++ [(call, .empty b)] →
    (b = true ↔ c.shared.toList = [])

theorem Does.taken_none {q q' : Queue α} {p : Point α} {discarded : List α}
    (does : Does q p q' (.done (.taken none discarded))) (order : q.InOrder) (h : Stands q p) :
    q.toList = [] := by
  cases does with
  | searchBare hs => simp [toList, linked, hs]
  | firstNone hn =>
    obtain ⟨rfl, -⟩ := h
    exact order.toList_eq_nil_iff.2 hn

theorem Does.empty_iff {q q' : Queue α} {p : Point α} {b : Bool}
    (does : Does q p q' (.done (.empty b))) (order : q.InOrder) (h : Stands q p) :
    b = true ↔ q.toList = [] := by
  cases does with
  | probeBare hs => simp [toList, linked, hs]
  | probeFirst =>
    obtain ⟨rfl, -⟩ := h
    rw [order.toList_eq_nil_iff, Option.isNone_iff_eq_none]

theorem fifoStep {c c' : QueueCrew α} {i : Nat} (h : (outline α).Holds c)
    (hstep : c.step? (rules α) i = some c') : FifoStep c c' i := by
  obtain ⟨t, t', ht, ht', move, others⟩ := Crew.exists_move hstep
  have here := h.annotated t (List.mem_of_getElem? ht)
  obtain ⟨ends, -, hands⟩ := move_effect h.shared here move
  have received_eq : received c' i = received c i ++ popsOf c.shared t := by
    simp [received, ht, ht', hands]
  have point_eq := Crew.point?_of_getElem? ht
  have last_access : ∀ {call a}, c'.answersOf i = c.answersOf i ++ [(call, a)] →
      ∃ p, Stands c.shared p ∧ Does c.shared p c'.shared (.done a) := by
    intro call a hanswers
    rw [Crew.answersOf_of_getElem? ht, Crew.answersOf_of_getElem? ht'] at hanswers
    obtain ⟨p, hcur, hs⟩ := move.of_answers hanswers
    exact ⟨p, (here.stands hcur).1, does_of_step hs⟩
  constructor
  · intro x s last hp
    obtain ⟨⟨call, _⟩, hcur, rfl⟩ := Option.map_eq_some_iff.1 (point_eq.symm.trans hp)
    simp only [popsOf, pushesOf, hcur, Option.map_some, Option.getD_some, Point.pops, Point.pushes,
      List.nil_append, List.append_nil] at ends received_eq
    exact ⟨ends, received_eq⟩
  · intro s n node rest hp
    obtain ⟨⟨call, _⟩, hcur, rfl⟩ := Option.map_eq_some_iff.1 (point_eq.symm.trans hp)
    obtain ⟨-, -, hnode, htag, -⟩ := (here.stands hcur).1
    obtain ⟨-, x, hx, -⟩ := InOrder.unlink h.shared hnode htag
    simp only [popsOf, pushesOf, hcur, Option.map_some, Option.getD_some, Point.pops, Point.pushes,
      hx, Option.toList_some, List.singleton_append, List.append_nil] at ends received_eq
    exact ⟨x, ends.symm, received_eq⟩
  · intro hlink hunlink
    have none : popsOf c.shared t = [] ∧ pushesOf t = [] := by
      cases hcur : t.current with
      | none => simp [popsOf, pushesOf, hcur]
      | some here =>
        rw [hcur] at point_eq
        obtain ⟨call, p⟩ := here
        cases p with
        | link x s last => exact absurd point_eq (hlink x s last)
        | unlink s n node rest => exact absurd point_eq (hunlink s n node rest)
        | _ => simp [popsOf, pushesOf, hcur, Point.pops, Point.pushes]
    simp only [none, List.nil_append, List.append_nil] at ends received_eq
    exact ⟨ends, received_eq⟩
  · intro j hj
    unfold received
    rw [others j hj]
    cases hu : c.threads[j]? with
    | none => rfl
    | some u =>
      exact receivedBy_of_move h.shared here (h.annotated u (List.mem_of_getElem? hu))
        (h.apart ht hu fun e => hj e.symm) move
  · intro call discarded hanswers
    obtain ⟨p, stands, does⟩ := last_access hanswers
    exact does.taken_none h.shared stands
  · intro call b hanswers
    obtain ⟨p, stands, does⟩ := last_access hanswers
    exact does.empty_iff h.shared stands

/-- Whatever was linked was handed to one thread or is still in the queue. -/
theorem accounts_step {c c' : QueueCrew α} {i : Nat} (h : (outline α).Holds c)
    (hstep : c.step? (rules α) i = some c')
    (accounts : (c.threads.flatMap linkedBy).Perm
      (c.threads.flatMap (receivedBy c.shared) ++ c.shared.toList)) :
    (c'.threads.flatMap linkedBy).Perm
      (c'.threads.flatMap (receivedBy c'.shared) ++ c'.shared.toList) := by
  obtain ⟨t, t', ht, move, hthreads⟩ := Crew.step?_eq_some_iff.1 hstep
  have here := h.annotated t (List.mem_of_getElem? ht)
  obtain ⟨ends, links, hands⟩ := move_effect h.shared here move
  have others : (c.threads.eraseIdx i).flatMap (receivedBy c'.shared)
      = (c.threads.eraseIdx i).flatMap (receivedBy c.shared) := by
    rw [List.flatMap_def, List.flatMap_def]
    refine congrArg List.flatten (List.map_congr_left fun u hu => ?_)
    obtain ⟨j, hj, hget⟩ := List.mem_eraseIdx_iff_getElem?.1 hu
    exact receivedBy_of_move h.shared here (h.annotated u (List.mem_of_getElem? hget))
      (h.apart ht hget fun e => hj e.symm) move
  obtain ⟨linkedOld, linkedNew⟩ := perm_flatMap_set ht t' linkedBy
  obtain ⟨receivedOld, -⟩ := perm_flatMap_set ht t' (receivedBy c.shared)
  obtain ⟨-, receivedNew⟩ := perm_flatMap_set ht t' (receivedBy c'.shared)
  classical
  rw [hthreads, List.perm_iff_count]
  intro x
  -- Count one payload in each of the lists; the rest is arithmetic.
  have ends := congrArg (List.count x) ends
  have accounts := accounts.count_eq x
  have linkedOld := linkedOld.count_eq x
  have linkedNew := linkedNew.count_eq x
  have receivedOld := receivedOld.count_eq x
  have receivedNew := receivedNew.count_eq x
  rw [others, hands] at receivedNew
  rw [links] at linkedNew
  simp only [List.count_append] at *
  omega

/-- However the accesses of any number of threads interleave, what all of them see is
one queue: the payloads on the path from the sentinel, which grows at the back where
a node is linked, shrinks at the front where one is unlinked, and changes in no other
step. No payload is lost, and none is handed out twice. -/
theorem interleaved_fifo (calls : List (List (Call α))) {c : QueueCrew α}
    (h : Crew.Reachable (rules α) (.initial {} calls) c) :
    c.shared.Shows c.shared.toList ∧
      (∀ i c', c.step? (rules α) i = some c' → FifoStep c c' i) ∧
      (c.threads.flatMap linkedBy).Perm
        (c.threads.flatMap (receivedBy c.shared) ++ c.shared.toList) := by
  refine ⟨InOrder.shows (outline_holds h).shared, fun i c' => fifoStep (outline_holds h), ?_⟩
  induction h with
  | refl =>
    rw [Crew.flatMap_initial _ _ fun _ => rfl, Crew.flatMap_initial _ _ fun _ => rfl]
    exact List.Perm.refl _
  | step i hreach hstep ih => exact accounts_step (outline_holds hreach) hstep ih

/-- Two threads that append and one that takes until it is handed a three. -/
def tradeCalls : List (List (Call Nat)) :=
  [[.append 1, .append 2], [.append 3], [.take fun _ x => x = 3, .isEmpty]]

/-- The appends get in each other's way, and the take in that of the last append. -/
def tradeSchedule : List Nat :=
  [0, 0, 1, 1, 0, 1, 0, 1, 0, 1, 0, 0, 1, 0, 0, 1, 1, 1, 1, 1, 1, 2, 2, 2, 2, 2, 0, 2, 2, 0, 2, 0]

/-- The configuration in which the one has been discarded and the three is in the queue. -/
def trade : QueueCrew Nat := Crew.after (rules Nat) tradeSchedule (.initial {} tradeCalls)

set_option maxRecDepth 10000 in
theorem interleaved_fifo_trade :
    Crew.Reachable (rules Nat) (.initial {} tradeCalls) trade ∧
      trade.shared.toList = [3] ∧ received trade 2 = [1] ∧
      trade.shared.Shows trade.shared.toList ∧
      (∀ i c', trade.step? (rules Nat) i = some c' → FifoStep trade c' i) ∧
      (trade.threads.flatMap linkedBy).Perm
        (trade.threads.flatMap (receivedBy trade.shared) ++ trade.shared.toList) := by
  have reachable : Crew.Reachable (rules Nat) (.initial {} tradeCalls) trade :=
    Crew.Reachable.refl.after tradeSchedule
  refine ⟨reachable, ?_, ?_, interleaved_fifo tradeCalls reachable⟩
  · decide +kernel
  · decide +kernel

end Eventual.Queue
