import Eventual.Proofs.Interleaving.Polls

/-!
# Which callbacks overtake which

Items leave their queue in the order in which they were registered. But to take an item
and to begin its call are two steps, and while a thread is between the two another
thread may take the next item and begin it at once. So two callbacks, even two that one
thread has registered one after the other, may begin in the opposite order.

This is the only way in which the order is lost. A `Ledger` numbers the items of a kind
as they are taken and notes, whenever a call begins, what the other threads have in
hand. An item that begins ahead of an earlier one begins while another thread has the
earlier one in hand. What one and the same thread begins, it begins in order, and all
of it is in order exactly if no call begins while another thread has an earlier item in
hand.
-/

namespace Eventual

/-- A list of distinct numbers in which each comes after all that are smaller. -/
theorem eq_range_of_closed {ns : List Nat} (nodup : ns.Nodup)
    (closed : ∀ before n after, ns = before ++ n :: after → ∀ m < n, m ∈ before) :
    ns = List.range ns.length := by
  induction hlen : ns.length generalizing ns with
  | zero => exact List.length_eq_zero_iff.1 hlen
  | succ len ih =>
    rcases List.eq_nil_or_concat ns with rfl | ⟨before, n, rfl⟩
    · cases hlen
    · rw [List.concat_eq_append] at nodup closed hlen ⊢
      obtain ⟨nodup_before, -, fresh⟩ := List.nodup_append.1 nodup
      have hbefore : before.length = len := by simpa using hlen
      have range : before = List.range len := by
        refine ih nodup_before ?_ hbefore
        rintro l m r rfl
        exact closed l m (r ++ [n]) (by simp)
      -- All numbers below `len` have come, so `n` is the next one.
      have notBelow : ¬ n < len := by
        intro hn
        exact fresh n (range ▸ List.mem_range.2 hn) n (List.mem_singleton_self n) rfl
      have notAbove : ¬ len < n := by
        intro hn
        have mem := closed before n [] rfl len hn
        rw [range] at mem
        exact Nat.lt_irrefl _ (List.mem_range.1 mem)
      obtain rfl : n = len := by omega
      rw [List.range_succ, ← range]

namespace Stage

variable {α : Type}

/-! ## What a step does to the items of a kind -/

/-- What a step of a thread does to the items of a kind, with what the thread has in hand
before and after: it leaves them alone but for new ones, it takes the one in front, or
it begins the one that it has in hand. -/
inductive Handles (k : Kind) (s s' : Stage α) : List Player → List Player → Prop
  | rests {new : List Player} : s'.started k = s.started k →
      s'.registered k = s.registered k ++ new → s'.waiting k = s.waiting k ++ new →
      Handles k s s' [] []
  | takes {x : Player} : s'.started k = s.started k → s'.registered k = s.registered k →
      s.waiting k = x :: s'.waiting k → Handles k s s' [] [x]
  | begins {x : Player} : s'.started k = s.started k ++ [x] →
      s'.registered k = s.registered k → s'.waiting k = s.waiting k → Handles k s s' [x] []

theorem Does.handles {s s' : Stage α} {p : Point α} {n : Next (Point α) (Answer α)}
    (does : Does s p s' n) (h : s.site.completion.AtRest) (k : Kind) :
    Handles k s s' (p.held k) (heldAfter k n) := by
  -- Whoever neither takes nor begins an item of this kind rests.
  have rests : p.held k = [] → heldAfter k n = [] → s'.started k = s.started k →
      Handles k s s' (p.held k) (heldAfter k n) := by
    intro held after started
    obtain ⟨new, registered, balance⟩ := does.balance h k
    rw [held, after, started, List.append_nil, List.append_assoc] at balance
    rw [held, after]
    exact .rests started registered (List.append_cancel_left balance)
  have unstarted : p.held k = [] → s'.started k = s.started k := by
    intro held
    obtain ⟨new, hnew, empty | ⟨x, arg, back, rfl⟩⟩ := does.started_eq k
    · rw [hnew, empty, List.append_nil]
    · cases held.symm.trans (if_pos rfl)
  cases does with
  | goes | notices | answers | refuses | returns | contains | panics =>
    exact rests rfl rfl (unstarted rfl)
  | @takes here site k' x arg back inner =>
    by_cases hk : k' = k
    · subst hk
      have queue := inner.waiting_eq h k'
      simp only [Action.called, Action.registered, List.append_nil, ↓reduceIte] at queue
      have after : heldAfter k' (.goto (.holding k' x arg back) : Next (Point α) (Answer α))
          = [x] := if_pos rfl
      rw [after]
      exact .takes (unstarted rfl) ((registered_record ..).trans (List.append_nil _)) queue.symm
    · exact rests rfl (if_neg hk) (unstarted rfl)
  | @starts k' x arg back =>
    by_cases hk : k' = k
    · subst hk
      have held : (Point.holding k' x arg back : Point α).held k' = [x] := if_pos rfl
      rw [held]
      refine .begins ?_ ((registered_record ..).trans (List.append_nil _)) rfl
      rw [started_record]
      exact congrArg _ (if_pos rfl)
    · exact rests (if_neg hk) rfl (unstarted (if_neg hk))

/-- What thread `i` has taken of a kind and is about to call. -/
def handOf (k : Kind) (c : Troupe α) (i : Nat) : List Player :=
  (c.threads[i]?.map (inHand k)).getD []

theorem handOf_of_getElem? {k : Kind} {c : Troupe α} {i : Nat}
    {t : Thread (Call α) (Point α) (Answer α)} (ht : c.threads[i]? = some t) :
    handOf k c i = inHand k t := by
  rw [handOf, ht, Option.map_some, Option.getD_some]

theorem handOf_initial (s : Stage α) (calls : List (List (Call α))) (k : Kind) (i : Nat) :
    handOf k (.initial s calls) i = [] := by
  cases ht : (Crew.initial s calls : Troupe α).threads[i]? with
  | none => rw [handOf, ht, Option.map_none, Option.getD_none]
  | some t =>
    obtain ⟨todo, -, rfl⟩ := Crew.of_mem_initial (List.mem_of_getElem? ht)
    exact handOf_of_getElem? ht

/-- A step of a thread handles what that thread has in hand, and no other thread's. -/
theorem handles_step {c c' : Troupe α} {i : Nat} (h : c.shared.site.completion.AtRest)
    (hstep : c.step? rules i = some c') (k : Kind) :
    Handles k c.shared c'.shared (handOf k c i) (handOf k c' i) ∧
      ∀ j, j ≠ i → handOf k c' j = handOf k c j := by
  obtain ⟨t, t', ht, ht', move, others⟩ := Crew.exists_move hstep
  refine ⟨?_, fun j hj => by rw [handOf, handOf, others j hj]⟩
  rw [handOf_of_getElem? ht, handOf_of_getElem? ht']
  generalize c'.shared = s' at move
  cases move with
  | @begins call rest hcur htodo =>
    have before : inHand k t = [] := by rw [inHand, hcur, Option.map_none, Option.getD_none]
    rw [before]
    exact .rests rfl (List.append_nil _).symm (List.append_nil _).symm
  | @goes call p p' _ hcur hs =>
    have before : inHand k t = p.held k := by rw [inHand, hcur, Option.map_some, Option.getD_some]
    rw [before]
    exact (does_of_step hs).handles h k
  | @answers call p a _ hcur hs =>
    have before : inHand k t = p.held k := by rw [inHand, hcur, Option.map_some, Option.getD_some]
    rw [before]
    exact (does_of_step hs).handles h k

/-! ## Ledgers -/

/-- The begin of a call: the thread that calls, the number of the item, and the numbers
of the items that the other threads have in hand meanwhile. -/
structure Turn where
  thread : Nat
  number : Nat
  others : Nat → Option Nat

/-- The items of one kind, numbered in the order in which they are taken: how many have
been taken, which of them each thread has in hand, and which have begun to be called,
in the order of their begins. -/
structure Ledger where
  taken : Nat := 0
  hand : Nat → Option Nat := fun _ => none
  begun : List Turn := []

namespace Ledger

/-- What the threads other than `i` have in hand. -/
def others (l : Ledger) (i : Nat) : Nat → Option Nat := fun j => if j = i then none else l.hand j

/-- The numbers of the items whose calls have begun, in the order of their begins. -/
def order (l : Ledger) : List Nat := l.begun.map Turn.number

/-- Thread `i` takes the next item. -/
def take (l : Ledger) (i : Nat) : Ledger :=
  { l with
    taken := l.taken + 1
    hand := fun j => if j = i then some l.taken else l.hand j }

/-- Thread `i` begins to call the item that it has in hand. -/
def start (l : Ledger) (i : Nat) : Ledger :=
  match l.hand i with
  | none => l
  | some n => { l with hand := l.others i, begun := l.begun ++ [⟨i, n, l.others i⟩] }

/-- Note a step of thread `i`, with what the thread has in hand before and after. -/
def note (l : Ledger) (i : Nat) : List Player → List Player → Ledger
  | [], _ :: _ => l.take i
  | _ :: _, [] => l.start i
  | [], [] | _ :: _, _ :: _ => l

/-- Every number that was given out is in the hands of one thread or has begun, once. -/
structure Sound (l : Ledger) : Prop where
  below : ∀ {n}, n ∈ l.order → n < l.taken
  hand_below : ∀ {i n}, l.hand i = some n → n < l.taken
  somewhere : ∀ {n}, n < l.taken → n ∈ l.order ∨ ∃ i, l.hand i = some n
  alone : ∀ {i j n}, l.hand i = some n → l.hand j = some n → i = j
  unbegun : ∀ {i n}, l.hand i = some n → n ∉ l.order
  nodup : l.order.Nodup
  /-- What a thread has in hand comes after all that it has begun. -/
  latest : ∀ {i n}, l.hand i = some n → ∀ e ∈ l.begun, e.thread = i → e.number < n
  own_order : l.begun.Pairwise fun e e' => e.thread = e'.thread → e.number < e'.number
  /-- Whatever a begin overtakes is in the hands of another thread. -/
  overtakes : ∀ {before e after}, l.begun = before ++ e :: after →
    ∀ m < e.number, m ∈ before.map Turn.number ∨ ∃ j, j ≠ e.thread ∧ e.others j = some m
  /-- What other threads have in hand begins later. -/
  others_later : ∀ {before e after}, l.begun = before ++ e :: after →
    ∀ {j m}, e.others j = some m → m ∉ before.map Turn.number ∧ m ≠ e.number

variable {l : Ledger} {i j n : Nat}

theorem others_eq_some (h : l.others i j = some n) : j ≠ i ∧ l.hand j = some n := by
  unfold others at h
  split at h
  · cases h
  · exact ⟨‹_›, h⟩

@[simp] theorem others_self (l : Ledger) (i : Nat) : l.others i i = none := if_pos rfl

theorem others_of_ne (h : j ≠ i) : l.others i j = l.hand j := if_neg h

theorem of_hand_take (h : (l.take i).hand j = some n) :
    (j = i ∧ n = l.taken) ∨ (j ≠ i ∧ l.hand j = some n) := by
  unfold take at h
  dsimp only at h
  split at h
  · exact .inl ⟨‹_›, (Option.some.inj h).symm⟩
  · exact .inr ⟨‹_›, h⟩

@[simp] theorem hand_take_self (l : Ledger) (i : Nat) : (l.take i).hand i = some l.taken :=
  if_pos rfl

theorem hand_take_of_ne (h : j ≠ i) : (l.take i).hand j = l.hand j := if_neg h

theorem start_of_hand (h : l.hand i = some n) :
    l.start i = { l with hand := l.others i, begun := l.begun ++ [⟨i, n, l.others i⟩] } := by
  rw [start, h]

theorem hand_start (h : l.hand i = some n) : (l.start i).hand = l.others i := by
  rw [start_of_hand h]

@[simp] theorem taken_start (l : Ledger) (i : Nat) : (l.start i).taken = l.taken := by
  unfold start
  split <;> rfl

theorem order_start (h : l.hand i = some n) : (l.start i).order = l.order ++ [n] := by
  rw [start_of_hand h, order, List.map_append]
  rfl

theorem empty_sound : Sound {} where
  below := nofun
  hand_below := nofun
  somewhere := nofun
  alone := nofun
  unbegun := nofun
  nodup := .nil
  latest := nofun
  own_order := .nil
  overtakes h := absurd h (by simp)
  others_later h := absurd h (by simp)

/-- A thread that has nothing in hand takes the next item. -/
theorem Sound.take (h : l.Sound) (free : l.hand i = none) : (l.take i).Sound := by
  constructor
  case below =>
    intro n hn
    exact Nat.lt_succ_of_lt (h.below hn)
  case hand_below =>
    intro j n hn
    rcases of_hand_take hn with ⟨-, rfl⟩ | ⟨-, old⟩
    · exact Nat.lt_succ_self _
    · exact Nat.lt_succ_of_lt (h.hand_below old)
  case somewhere =>
    intro n hn
    rcases Nat.lt_succ_iff_lt_or_eq.1 hn with old | rfl
    · rcases h.somewhere old with begun | ⟨j, hj⟩
      · exact .inl begun
      · have other : j ≠ i := by
          rintro rfl
          cases free.symm.trans hj
        exact .inr ⟨j, (hand_take_of_ne other).trans hj⟩
    · exact .inr ⟨i, hand_take_self l i⟩
  case alone =>
    intro j j' n hj hj'
    rcases of_hand_take hj with ⟨rfl, rfl⟩ | ⟨-, old⟩
    · rcases of_hand_take hj' with ⟨rfl, -⟩ | ⟨-, old'⟩
      · rfl
      · exact absurd (h.hand_below old') (Nat.lt_irrefl _)
    · rcases of_hand_take hj' with ⟨-, rfl⟩ | ⟨-, old'⟩
      · exact absurd (h.hand_below old) (Nat.lt_irrefl _)
      · exact h.alone old old'
  case unbegun =>
    intro j n hn begun
    rcases of_hand_take hn with ⟨-, rfl⟩ | ⟨-, old⟩
    · exact absurd (h.below begun) (Nat.lt_irrefl _)
    · exact h.unbegun old begun
  case nodup => exact h.nodup
  case latest =>
    intro j n hn e he hthread
    rcases of_hand_take hn with ⟨-, rfl⟩ | ⟨-, old⟩
    · exact h.below (List.mem_map_of_mem he)
    · exact h.latest old e he hthread
  case own_order => exact h.own_order
  case overtakes => exact h.overtakes
  case others_later => exact h.others_later

/-- What precedes an item in hand and has not begun is in the hands of another thread. -/
theorem Sound.preceding (h : l.Sound) (has : l.hand i = some n) {m : Nat} (hm : m < n) :
    m ∈ l.order ∨ ∃ j, j ≠ i ∧ l.others i j = some m := by
  rcases h.somewhere (Nat.lt_trans hm (h.hand_below has)) with begun | ⟨j, hj⟩
  · exact .inl begun
  · have other : j ≠ i := by
      rintro rfl
      cases has.symm.trans hj
      exact Nat.lt_irrefl _ hm
    exact .inr ⟨j, other, (others_of_ne other).trans hj⟩

/-- What other threads have in hand has not begun, and is none of the thread's own. -/
theorem Sound.of_others (h : l.Sound) (has : l.hand i = some n) {m : Nat}
    (hm : l.others i j = some m) : m ∉ l.order ∧ m ≠ n := by
  obtain ⟨hji, hj⟩ := others_eq_some hm
  refine ⟨h.unbegun hj, ?_⟩
  rintro rfl
  exact hji (h.alone hj has)

/-- A thread begins to call the item that it has in hand. -/
theorem Sound.start (h : l.Sound) (has : l.hand i = some n) : (l.start i).Sound := by
  have order := order_start has
  rw [start_of_hand has] at order ⊢
  constructor
  case below =>
    intro m hm
    rw [order] at hm
    rcases List.mem_append.1 hm with old | new
    · exact h.below old
    · obtain rfl := List.mem_singleton.1 new
      exact h.hand_below has
  case hand_below =>
    intro j m hm
    exact h.hand_below (others_eq_some hm).2
  case somewhere =>
    intro m hm
    rw [order]
    rcases h.somewhere hm with begun | ⟨j, hj⟩
    · exact .inl (List.mem_append_left _ begun)
    · by_cases hji : j = i
      · subst hji
        cases has.symm.trans hj
        exact .inl (List.mem_append_right _ (List.mem_singleton_self _))
      · exact .inr ⟨j, (others_of_ne hji).trans hj⟩
  case alone =>
    intro j j' m hj hj'
    exact h.alone (others_eq_some hj).2 (others_eq_some hj').2
  case unbegun =>
    intro j m hm begun
    obtain ⟨unbegun, other⟩ := h.of_others has hm
    rw [order] at begun
    rcases List.mem_append.1 begun with old | new
    · exact unbegun old
    · exact other (List.mem_singleton.1 new)
  case nodup =>
    rw [order]
    refine List.nodup_append.2 ⟨h.nodup, List.pairwise_singleton _ n, ?_⟩
    rintro m hm m' hm' rfl
    obtain rfl := List.mem_singleton.1 hm'
    exact h.unbegun has hm
  case latest =>
    intro j m hm e he hthread
    obtain ⟨hji, hj⟩ := others_eq_some hm
    rcases List.mem_append.1 he with old | new
    · exact h.latest hj e old hthread
    · cases List.mem_singleton.1 new
      exact absurd hthread.symm hji
  case own_order =>
    refine List.pairwise_append.2 ⟨h.own_order, List.pairwise_singleton _ _, ?_⟩
    intro e he e' he' hthread
    cases List.mem_singleton.1 he'
    exact h.latest has e he hthread
  case overtakes =>
    intro before e after hbegun m hm
    rcases entry_of_append hbegun with ⟨rest, old⟩ | ⟨rfl, rfl⟩
    · exact h.overtakes old m hm
    · exact h.preceding has hm
  case others_later =>
    intro before e after hbegun j m hm
    rcases entry_of_append hbegun with ⟨rest, old⟩ | ⟨rfl, rfl⟩
    · exact h.others_later old hm
    · exact h.of_others has hm

/-- No item begins while another thread has an earlier one in hand. -/
def Undisturbed (l : Ledger) : Prop := ∀ e ∈ l.begun, ∀ j n, e.others j = some n → e.number < n

/-- The calls begin in the order of the numbers exactly if none begins while another
thread has an earlier item in hand. -/
theorem Sound.undisturbed_iff (h : l.Sound) :
    l.Undisturbed ↔ l.order = List.range l.order.length := by
  constructor
  · intro undisturbed
    apply eq_range_of_closed h.nodup
    intro ns n ns' hns m hm
    obtain ⟨before, rest, hbegun, rfl, hrest⟩ := List.map_eq_append_iff.1 hns
    obtain ⟨e, after, rfl, rfl, -⟩ := List.map_eq_cons_iff.1 hrest
    rcases h.overtakes hbegun m hm with begun | ⟨j, -, hj⟩
    · exact begun
    · have later := undisturbed e (hbegun ▸ List.mem_append_right _ (List.mem_cons_self ..)) j m hj
      omega
  · intro range e he j m hm
    obtain ⟨before, after, hbegun⟩ := List.append_of_mem he
    obtain ⟨unbegun, other⟩ := h.others_later hbegun hm
    -- What has begun before `e` are the numbers below its own.
    rw [order, hbegun, List.map_append, List.map_cons] at range
    rw [List.range_eq_range'] at range
    obtain ⟨len, -, hbefore, hrest⟩ := List.range'_eq_append_iff.1 range.symm
    obtain ⟨hnumber, -, -⟩ := List.range'_eq_cons_iff.1 hrest.symm
    rw [hbefore, List.mem_range'_1] at unbegun
    omega

end Ledger

/-! ## Runs with a ledger -/

/-- A run from the start to a configuration, with the ledger of one kind of items that
is kept on the way. -/
inductive Recorded (k : Kind) (start : Troupe α) : Ledger → Troupe α → Prop
  | refl : Recorded k start {} start
  | step {l : Ledger} {c c' : Troupe α} (i : Nat) : Recorded k start l c →
      c.step? rules i = some c' →
      Recorded k start (l.note i (handOf k c i) (handOf k c' i)) c'

/-- The ledger numbers the items as they were registered, and what it says of the items
in hand and of those begun is so. -/
structure Ledger.Matches (l : Ledger) (k : Kind) (c : Troupe α) : Prop where
  bound : l.taken ≤ (c.shared.registered k).length
  waiting : c.shared.waiting k = (c.shared.registered k).drop l.taken
  hand : ∀ i, (handOf k c i).map some =
    (l.hand i).toList.map fun n => (c.shared.registered k)[n]?
  started : (c.shared.started k).map some = l.order.map fun n => (c.shared.registered k)[n]?

section Runs

variable {k : Kind} {origin c c' : Troupe α} {l : Ledger} {i : Nat}

theorem Recorded.reachable (h : Recorded k origin l c) : Crew.Reachable rules origin c := by
  induction h with
  | refl => exact .refl
  | step i _ hstep ih => exact ih.step i hstep

/-- Every run can be recorded. -/
theorem exists_recorded (k : Kind) (h : Crew.Reachable rules origin c) :
    ∃ l, Recorded k origin l c := by
  induction h with
  | refl => exact ⟨_, .refl⟩
  | step i _ hstep ih =>
    obtain ⟨l, recorded⟩ := ih
    exact ⟨_, recorded.step i hstep⟩

theorem Ledger.Matches.hand_eq_none (h : l.Matches k c) (empty : handOf k c i = []) :
    l.hand i = none := by
  have hand := h.hand i
  cases hi : l.hand i with
  | none => rfl
  | some n =>
    rw [empty, hi] at hand
    cases hand

theorem Ledger.Matches.hand_eq_some {x : Player} (h : l.Matches k c) (holds : handOf k c i = [x]) :
    ∃ n, l.hand i = some n ∧ (c.shared.registered k)[n]? = some x := by
  have hand := h.hand i
  cases hi : l.hand i with
  | none =>
    rw [holds, hi] at hand
    cases hand
  | some n =>
    rw [holds, hi] at hand
    exact ⟨n, rfl, (List.cons.inj hand).1.symm⟩

/-- Further registrations change none of the items that have been taken. -/
theorem Ledger.Matches.rests {new : List Player} (h : l.Matches k c) (sound : l.Sound)
    (hands : ∀ j, handOf k c' j = handOf k c j)
    (started : c'.shared.started k = c.shared.started k)
    (registered : c'.shared.registered k = c.shared.registered k ++ new)
    (waiting : c'.shared.waiting k = c.shared.waiting k ++ new) : l.Matches k c' := by
  have same : ∀ n < l.taken, (c'.shared.registered k)[n]? = (c.shared.registered k)[n]? := by
    intro n hn
    rw [registered, List.getElem?_append_left (Nat.lt_of_lt_of_le hn h.bound)]
  constructor
  case bound =>
    rw [registered, List.length_append]
    exact Nat.le_add_right_of_le h.bound
  case waiting =>
    rw [waiting, registered, List.drop_append_of_le_length h.bound, h.waiting]
  case hand =>
    intro j
    rw [hands, h.hand]
    apply List.map_congr_left
    intro n hn
    exact (same n (sound.hand_below (Option.mem_toList.1 hn))).symm
  case started =>
    rw [started, h.started]
    apply List.map_congr_left
    intro n hn
    exact (same n (sound.below hn)).symm

theorem Ledger.Matches.take {x : Player} (h : l.Matches k c)
    (holds : handOf k c' i = [x]) (hands : ∀ j, j ≠ i → handOf k c' j = handOf k c j)
    (started : c'.shared.started k = c.shared.started k)
    (registered : c'.shared.registered k = c.shared.registered k)
    (waiting : c.shared.waiting k = x :: c'.shared.waiting k) : (l.take i).Matches k c' := by
  have front : (c.shared.registered k).drop l.taken = x :: c'.shared.waiting k :=
    h.waiting.symm.trans waiting
  have here : (c.shared.registered k)[l.taken]? = some x := by
    rw [← List.head?_drop, front, List.head?_cons]
  constructor
  case bound =>
    rw [registered]
    exact (List.getElem?_eq_some_iff.1 here).1
  case waiting =>
    rw [registered, Ledger.take, ← List.drop_drop, front, List.drop_one, List.tail_cons]
  case hand =>
    intro j
    by_cases hj : j = i
    · subst hj
      rw [holds, registered, Ledger.hand_take_self]
      exact congrArg (fun y => [y]) here.symm
    · rw [hands j hj, registered, Ledger.hand_take_of_ne hj]
      exact h.hand j
  case started =>
    rw [started, registered]
    exact h.started

theorem Ledger.Matches.start {x : Player} {n : Nat} (h : l.Matches k c)
    (has : l.hand i = some n) (here : (c.shared.registered k)[n]? = some x)
    (empty : handOf k c' i = []) (hands : ∀ j, j ≠ i → handOf k c' j = handOf k c j)
    (started : c'.shared.started k = c.shared.started k ++ [x])
    (registered : c'.shared.registered k = c.shared.registered k)
    (waiting : c'.shared.waiting k = c.shared.waiting k) : (l.start i).Matches k c' := by
  constructor
  case bound =>
    rw [Ledger.taken_start, registered]
    exact h.bound
  case waiting =>
    rw [Ledger.taken_start, registered, waiting]
    exact h.waiting
  case hand =>
    intro j
    rw [Ledger.hand_start has]
    by_cases hj : j = i
    · rw [hj, empty, Ledger.others_self]
      rfl
    · rw [hands j hj, registered, Ledger.others_of_ne hj]
      exact h.hand j
  case started =>
    rw [started, registered, Ledger.order_start has, List.map_append, List.map_append, h.started]
    exact congrArg (fun y => _ ++ [y]) here.symm

/-- The ledger of a run is sound and matches the run. -/
theorem Recorded.matches {watches : Array (Watch Nat)} {calls : List (List (Call α))}
    (h : Recorded k (.initial { site := { watches } } calls) l c) :
    l.Sound ∧ l.Matches k c := by
  induction h with
  | refl =>
    refine ⟨Ledger.empty_sound, Nat.zero_le _, ?_, ?_, ?_⟩
    · rcases k with (_ | _) | _ | _ <;> rfl
    · intro i
      rw [handOf_initial]
      rfl
    · rfl
  | @step l c c' i recorded hstep ih =>
    obtain ⟨sound, matching⟩ := ih
    have rest := (outline_holds recorded.reachable).shared.atRest
    obtain ⟨handles, hands⟩ := handles_step rest hstep k
    generalize hbefore : handOf k c i = before at handles
    generalize hafter : handOf k c' i = after at handles
    cases handles with
    | rests started registered waiting =>
      refine ⟨sound, matching.rests sound ?_ started registered waiting⟩
      intro j
      by_cases hj : j = i
      · rw [hj, hbefore, hafter]
      · exact hands j hj
    | takes started registered waiting =>
      exact ⟨sound.take (matching.hand_eq_none hbefore),
        matching.take hafter hands started registered waiting⟩
    | begins started registered waiting =>
      obtain ⟨n, has, here⟩ := matching.hand_eq_some hbefore
      exact ⟨sound.start has,
        matching.start has here hafter hands started registered waiting⟩

/-- When the calls have begun in the order of the numbers, they have begun in the order
of registration, without a gap. -/
theorem Ledger.Matches.started_in_order (h : l.Matches k c)
    (inOrder : l.order = List.range l.order.length) :
    c.shared.started k <+: c.shared.registered k := by
  have started := h.started
  rw [inOrder] at started
  rw [List.prefix_iff_getElem?]
  intro n hn
  have here := congrArg (fun xs => xs[n]?) started
  have length := congrArg List.length h.started
  rw [List.length_map, List.length_map] at length
  have bound : n < l.order.length := length ▸ hn
  simp only [List.getElem?_map, List.getElem?_eq_getElem hn, List.getElem?_range bound,
    Option.map_some, Option.some.injEq] at here
  exact here.symm

end Runs

section Schedules

variable {watches : Array (Watch Nat)} {calls : List (List (Call α))} {c : Troupe α}

/-- Threads register with, complete, drain and poll one completion, in any order, and
the items of one kind are numbered as they are taken. They are taken in the order in
which they were registered, and each is begun at most once. If an item begins before an
earlier one, another thread has the earlier one in hand at that moment; what one thread
begins, it begins in the order of registration. All of them begin in that order exactly
if none begins while another thread has an earlier one in hand, and then what has begun
is what was registered first. -/
theorem overtaken_in_hand
    (h : Crew.Reachable rules (.initial { site := { watches } } calls) c) (k : Kind) :
    (∃ l, Recorded k (.initial { site := { watches } } calls) l c) ∧
    ∀ l, Recorded k (.initial { site := { watches } } calls) l c →
      l.Matches k c ∧ l.order.Nodup ∧
      (∀ before e after, l.begun = before ++ e :: after →
        ∀ m < e.number, m ∉ before.map Turn.number →
          ∃ j, j ≠ e.thread ∧ e.others j = some m) ∧
      (l.begun.Pairwise fun e e' => e.thread = e'.thread → e.number < e'.number) ∧
      (l.Undisturbed ↔ l.order = List.range l.order.length) ∧
      (l.Undisturbed → c.shared.started k <+: c.shared.registered k) := by
  refine ⟨exists_recorded k h, ?_⟩
  intro l recorded
  obtain ⟨sound, matching⟩ := recorded.matches
  have undisturbed := sound.undisturbed_iff
  refine ⟨matching, sound.nodup, ?_, sound.own_order, undisturbed, ?_⟩
  · intro before e after hbegun m hm ahead
    exact (sound.overtakes hbegun m hm).resolve_left ahead
  · intro hundisturbed
    exact matching.started_in_order (undisturbed.1 hundisturbed)

end Schedules

/-- One thread registers two callbacks and another one completes. -/
def overtakingCalls : List (List (Call Nat)) :=
  [[.direct (.register (.on .success) (.callback 0 .returns)),
      .direct (.register (.on .success) (.callback 1 .returns))],
    [.direct (.complete ⟨.success, 7⟩)]]

/-- The registrar has appended its second callback and has yet to look at the cell. The
other thread completes, takes the first callback and pauses before it calls it. The
registrar finds the cell settled, takes the second callback and calls it. -/
def overtakingSchedule : List Nat :=
  List.replicate 5 0 ++ List.replicate 10 1 ++ List.replicate 6 0 ++ [1]

def overtaking : Troupe Nat :=
  Crew.after rules overtakingSchedule (.initial { site := { watches := #[] } } overtakingCalls)

theorem overtaking_reachable :
    Crew.Reachable rules (.initial { site := { watches := #[] } } overtakingCalls) overtaking :=
  Crew.Reachable.refl.after overtakingSchedule

theorem overtaking_registered :
    overtaking.shared.registered (.on .success) = [.callback 0 .returns, .callback 1 .returns] := by
  decide +kernel

theorem overtaking_started :
    overtaking.shared.started (.on .success) = [.callback 1 .returns, .callback 0 .returns] := by
  decide +kernel

theorem overtaken_in_hand_pause :
    Crew.Reachable rules (.initial { site := { watches := #[] } } overtakingCalls) overtaking ∧
    (∃ l, Recorded (.on .success) (.initial { site := { watches := #[] } } overtakingCalls) l
      overtaking) ∧
    ∀ l, Recorded (.on .success) (.initial { site := { watches := #[] } } overtakingCalls) l
        overtaking →
      l.Matches (.on .success) overtaking ∧ l.order.Nodup ∧
      (∀ before e after, l.begun = before ++ e :: after →
        ∀ m < e.number, m ∉ before.map Turn.number →
          ∃ j, j ≠ e.thread ∧ e.others j = some m) ∧
      (l.begun.Pairwise fun e e' => e.thread = e'.thread → e.number < e'.number) ∧
      (l.Undisturbed ↔ l.order = List.range l.order.length) ∧ ¬ l.Undisturbed := by
  obtain ⟨recorded, all⟩ := overtaken_in_hand overtaking_reachable (.on .success)
  refine ⟨overtaking_reachable, recorded, ?_⟩
  intro l hl
  obtain ⟨matching, nodup, overtakes, own_order, iff, inOrder⟩ := all l hl
  refine ⟨matching, nodup, overtakes, own_order, iff, ?_⟩
  intro undisturbed
  have first := inOrder undisturbed
  rw [overtaking_started, overtaking_registered] at first
  revert first
  decide

/-- Of two callbacks that one thread has registered one after the other, the second may
begin first. -/
theorem registration_order_can_fail :
    ¬ ∀ (calls : List (List (Call Nat))) (c : Troupe Nat),
      Crew.Reachable rules (.initial { site := { watches := #[] } } calls) c →
      ∀ k, (c.shared.registered k).Nodup →
      ∀ a b, [a, b].Sublist (c.shared.registered k) →
      ∀ before after, c.shared.started k = before ++ b :: after → a ∈ before := by
  intro inOrder
  have first := inOrder overtakingCalls overtaking overtaking_reachable (.on .success)
    (by rw [overtaking_registered]; decide) (.callback 0 .returns) (.callback 1 .returns)
    (overtaking_registered.symm ▸ .refl _) [] [.callback 0 .returns] overtaking_started
  cases first

end Stage

end Eventual
