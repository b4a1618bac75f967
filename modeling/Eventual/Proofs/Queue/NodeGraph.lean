import Mathlib.Logic.ExistsUnique
import Eventual.Proofs.Queue.Fifo

/-!
# The nodes as a graph

Whoever walks along the links takes no lock, while appends and takes change the links under the
walk, and the node where it stands may have been unlinked long ago. What it relies on is the shape
of the graph at every moment of every schedule. From each node that ever was linked the links lead
to an end and never in a circle. No two nodes lead to the same node, but for the sentinel and a node
that it has just been led past. And an unlinked node is locked for good and cut off for good, so
that nothing is ever linked behind it.

`Guarded` relates tags and links to the points at which the threads stand: what is locked is held by
a thread, and an unlinked node leads nowhere unless a thread is about to clear its link. A step
keeps it because an access changes only what its thread has locked (`Does.leaves`, `Does.of_tag?`,
`links_kept`). With the order of the nodes it gives the shape of the graph.

`LockStep` follows each lock from the exchange that takes it to the store that gives it up. A take
has given up all its locks when it asks its predicate, so a predicate that panics leaves no lock
behind: for the queue it is one that accepts the payload.
-/

namespace Eventual.Queue

variable {α : Type}

/-! ## Nodes and threads -/

/-- The node is the sentinel or is linked. -/
def Attached (q : Queue α) (i : Nat) : Prop := q.head = some i ∨ i ∈ q.linked

/-- The thread has locked the node and has not let go of it. -/
def LockedBy (c : QueueCrew α) (k i : Nat) : Prop := ∃ p, c.point? k = some p ∧ i ∈ p.locks

/-- The sentinel has been led past the node, and a thread is about to clear the link of the node. -/
def Unlinking (c : QueueCrew α) (sentinel node : Nat) : Prop :=
  c.shared.head = some sentinel ∧ ∃ k s, c.point? k = some (.cut s sentinel node)

/-- The node was linked at some moment of a schedule that leads from `start` to `c`. -/
def EverLinked (start c : QueueCrew α) (i : Nat) : Prop :=
  ∃ d, Crew.Reachable (rules α) start d ∧ Crew.Reachable (rules α) d c ∧ i ∈ d.shared.linked

/-- The node was linked and is so no more. -/
def Unlinked (start c : QueueCrew α) (i : Nat) : Prop :=
  EverLinked start c i ∧ i ∉ c.shared.linked

/-- What a step of thread `m` does to the locks. -/
structure LockStep (c c' : QueueCrew α) (m : Nat) : Prop where
  /-- Who comes to hold a node has made the step, an exchange of the tag that succeeded. -/
  takes : ∀ k i, ¬ LockedBy c k i → LockedBy c' k i →
    k = m ∧ ∃ p, c.point? m = some p ∧ c.shared.tryLock i p.mark = (c'.shared, true)
  /-- Who ceases to hold a node has made the step, and has unlocked the node or unlinked it. -/
  leaves : ∀ k i, LockedBy c k i → ¬ LockedBy c' k i →
    k = m ∧ (c'.shared.tag? i = some .chained ∨
      (∃ s sentinel rest, c.point? m = some (.unlink s sentinel i rest)) ∧ i ∉ c'.shared.linked)
  /-- A node that stays held keeps its tag. -/
  keeps : ∀ k i, LockedBy c k i → LockedBy c' k i → c'.shared.tag? i = c.shared.tag? i
  /-- Who has asked a predicate holds nothing. -/
  asks : ∀ s sentinel node, c.point? m = some (.release s sentinel node) → ∀ i, ¬ LockedBy c' m i

/-- The graph of the nodes after a schedule that leads from `start` to `c`. -/
structure NodeGraph (start c : QueueCrew α) : Prop where
  /-- From the sentinel and from every node that ever was linked, the links lead to an end by way of
  nodes that exist, and to none of them twice. -/
  ends : ∀ i, c.shared.head = some i ∨ EverLinked start c i →
    ∃ nodes, c.shared.Path (some i) nodes ∧ nodes.Nodup ∧ ∀ j ∈ nodes, j < c.shared.nodes.size
  /-- Two nodes lead to the same node only while one of them is being unlinked from behind the
  other, which is the sentinel. -/
  joins : ∀ i j n, i ≠ j → c.shared.next? i = some n → c.shared.next? j = some n →
    Unlinking c i j ∨ Unlinking c j i
  /-- What is locked, among the sentinel and the linked nodes, is held by exactly one thread. -/
  locked : ∀ i, c.shared.Attached i → c.shared.tag? i ≠ some .chained → ∃! k, LockedBy c k i
  /-- What a thread holds is locked, and is the sentinel or a linked node. -/
  held : ∀ k i, LockedBy c k i → c.shared.Attached i ∧ c.shared.tag? i ≠ some .chained
  /-- Locks are taken by exchanges and given up by stores of the thread that holds them. -/
  steps : ∀ m c', c.step? (rules α) m = some c' → LockStep c c' m
  /-- When all threads are done, no lock is left. -/
  rests : c.isDone = true → ∀ i, c.shared.Attached i → c.shared.tag? i = some .chained
  /-- An append links its payload behind the sentinel or a linked node. -/
  appends : ∀ k x s last, c.point? k = some (.link x s last) → c.shared.Attached last
  /-- An unlinked node leads nowhere, unless a thread is about to clear its link. -/
  severed : ∀ i, Unlinked start c i →
    c.shared.next? i = none ∨ ∃ sentinel, Unlinking c sentinel i
  /-- An unlinked node never comes back and stays locked by its take, and nothing is ever linked
  behind it. -/
  gone : ∀ i, Unlinked start c i → ∀ c', Crew.Reachable (rules α) c c' →
    Unlinked start c' i ∧ c'.shared.tag? i = some .popping ∧
      (c'.shared.next? i = c.shared.next? i ∨ c'.shared.next? i = none)

/-! ## The order of the nodes -/

namespace InOrder

variable {q : Queue α} {i : Nat}

theorem mem_linked_iff (h : q.InOrder) : i ∈ q.linked ↔ q.front ≤ i ∧ i < q.nodes.size := by
  have hle := h.front_le
  rw [h.linked_eq, List.mem_range'_1]
  omega

theorem attached_iff (h : q.InOrder) :
    q.Attached i ↔ i < q.nodes.size ∧ (0 < i → q.front ≤ i) := by
  unfold Attached
  rw [h.mem_linked_iff]
  constructor
  · rintro (hs | ⟨hle, hlt⟩)
    · obtain ⟨rfl, hpos⟩ := h.head_eq_some hs
      exact ⟨hpos, fun h0 => absurd h0 (Nat.lt_irrefl 0)⟩
    · exact ⟨hlt, fun _ => hle⟩
  · rintro ⟨hlt, hle⟩
    rcases Nat.eq_zero_or_pos i with rfl | hpos
    · exact .inl (h.head_of_pos hlt)
    · exact .inr ⟨hle hpos, hlt⟩

end InOrder

/-- If links lead to larger indices that exist, they lead from each node to an end, and to no node
twice. -/
theorem exists_path {q : Queue α} (asc : ∀ i j, q.next? i = some j → i < j ∧ j < q.nodes.size)
    {i : Nat} (hi : i < q.nodes.size) :
    ∃ nodes, q.Path (some i) nodes ∧ nodes.Nodup ∧ ∀ j ∈ nodes, j < q.nodes.size := by
  have path : q.Path (q.next? i) (q.follow q.nodes.size (q.next? i)) :=
    path_follow asc (fun _ _ => by omega) fun j hj => (asc i j hj).2
  have whole : q.Path (some i) (i :: q.follow q.nodes.size (q.next? i)) := ⟨rfl, path⟩
  refine ⟨_, whole, (path.pairwise asc).imp Nat.ne_of_lt, whole.lt_size asc ?_⟩
  rintro _ ⟨⟩
  exact hi

/-! ## What an access does to locks and links -/

theorem of_tag?_unlock {q : Queue α} {i j : Nat} {t : Tag}
    (h : (q.setTag j .chained).tag? i = some t) (ht : t ≠ .chained) : q.tag? i = some t := by
  rw [tag?_setTag] at h
  split at h
  next =>
    obtain ⟨_, -, rfl⟩ := Option.map_eq_some_iff.1 h
    exact absurd rfl ht
  next => exact h

namespace Does

variable {q q' : Queue α} {p p' : Point α} {next : Next (Point α) (Answer α)} {i : Nat}

theorem mark_eq (does : Does q p q' (.goto p')) : p'.mark = p.mark := by
  cases does <;> rfl

/-- A thread goes on holding a node, or it has unlocked the node, or it has unlinked it. -/
theorem leaves (does : Does q p q' next) (order : q.InOrder) (h : Stands q p)
    (hi : i ∈ p.locks) :
    (∃ p', next = .goto p' ∧ i ∈ p'.locks) ∨ q'.tag? i = some .chained ∨
      (∃ s rest, p = .unlink s 0 i rest) ∧ 0 < i ∧ i < q'.front := by
  have unlocked : ∀ {t}, q.tag? i = some t → (q.setTag i .chained).tag? i = some .chained := by
    intro t ht
    rw [tag?_setTag, if_pos rfl, ht, Option.map_some]
  cases does with
  | enter | enterBare | installLost | install | seek | seekEnd | lockLast | lockLastLost | search
  | searchBare | first | firstNone | lockSentinel | lockSentinelLost | probe | probeBare
  | probeFirst => cases hi
  | checkLast | checkLastLost | link | checkFirst | checkFirstLost | lockFirstLost | successor
  | cut => exact .inl ⟨_, rfl, hi⟩
  | lockFirst => exact .inl ⟨_, rfl, List.mem_cons.2 (.inl (List.mem_singleton.1 hi))⟩
  | unlockLast =>
    obtain rfl := List.mem_singleton.1 hi
    exact .inr (.inl (unlocked h))
  | retreat =>
    obtain rfl := List.mem_singleton.1 hi
    exact .inr (.inl (unlocked h.2))
  | giveUp =>
    obtain ⟨rfl, htag⟩ := h
    obtain rfl := List.mem_singleton.1 hi
    exact .inr (.inl (unlocked htag))
  | releaseEmpty | deliver | discard =>
    obtain ⟨rfl, htag, -⟩ := h
    obtain rfl := List.mem_singleton.1 hi
    exact .inr (.inl ((tag?_clearPayload ..).trans (unlocked htag)))
  | unlink =>
    obtain ⟨rfl, -, hnext, -, rfl⟩ := h
    rcases List.mem_cons.1 hi with rfl | hi
    · exact .inl ⟨_, rfl, List.mem_singleton_self _⟩
    · obtain rfl := List.mem_singleton.1 hi
      have hpos := order.front_pos (Nat.zero_lt_of_lt (order.next?_lt 0 i hnext))
      rw [InOrder.front_eq_of_next? hnext] at hpos
      refine .inr (.inr ⟨⟨_, _, rfl⟩, hpos, ?_⟩)
      rw [order.front_unlink hnext]
      exact Nat.lt_succ_self i

theorem next?_cut {s : Search α} {sentinel : Nat}
    (does : Does q (.cut s sentinel i) q' next) (hi : i < q.nodes.size) : q'.next? i = none := by
  cases does
  exact (next?_setNext ..).trans (if_pos ⟨rfl, hi⟩)

/-- When a predicate has been asked, nothing is held. -/
theorem asks {s : Search α} {sentinel node : Nat}
    (does : Does q (.release s sentinel node) q' (.goto p')) : p'.locks = [] := by
  cases does <;> rfl

/-- What is locked after an access was locked before, or the thread holds it now. -/
theorem of_tag? {t : Tag} (does : Does q p q' next) (htag : q'.tag? i = some t)
    (ht : t ≠ .chained) : q.tag? i = some t ∨ ∃ p', next = .goto p' ∧ i ∈ p'.locks := by
  -- A lock that is taken is on the node that the thread holds from now on.
  have lock : ∀ {j u}, (q.setTag j u).tag? i = some t → q.tag? i = some t ∨ i = j := by
    intro j u h
    rw [tag?_setTag] at h
    split at h
    next e => exact .inr e.symm
    next => exact .inl h
  have fresh : ∀ {u v : Option Tag}, (if i = q.nodes.size then u else v) = some t →
      u = some .chained → v = some t := by
    intro u v h hu
    split at h
    next => exact absurd (Option.some.inj (h.symm.trans hu)) ht
    next => exact h
  cases does with
  | enter | enterBare | installLost | seek | seekEnd | lockLastLost | checkLast | checkLastLost
  | search | searchBare | first | firstNone | lockSentinelLost | checkFirst | checkFirstLost
  | lockFirstLost | successor | probe | probeBare | probeFirst => exact .inl htag
  | install => exact .inl (fresh ((tag?_allocate q i {}).symm.trans htag) rfl)
  | link => exact .inl (fresh ((tag?_extend ..).symm.trans htag) rfl)
  | lockLast | lockSentinel =>
    rcases lock htag with old | rfl
    · exact .inl old
    · exact .inr ⟨_, rfl, List.mem_singleton_self _⟩
  | lockFirst =>
    rcases lock htag with old | rfl
    · exact .inl old
    · exact .inr ⟨_, rfl, List.mem_cons_of_mem _ (List.mem_singleton_self _)⟩
  | unlockLast | retreat | giveUp => exact .inl (of_tag?_unlock htag ht)
  | releaseEmpty | deliver | discard =>
    exact .inl (of_tag?_unlock ((tag?_clearPayload ..).symm.trans htag) ht)
  | unlink | cut => exact .inl ((tag?_setNext ..).symm.trans htag)

/-- A linked node ceases to be linked where the sentinel is led past it. -/
theorem unlinks (does : Does q p q' next) (order : q.InOrder) (h : Stands q p) (hpos : 0 < i)
    (hle : q.front ≤ i) (hlt : i < q'.front) :
    ∃ s, p = .unlink s 0 i (q.next? i) ∧ next = .goto (.cut s 0 i) ∧
      q' = q.setNext 0 (q.next? i) := by
  by_cases hpop : p.pops q = []
  · rcases (does.change order h).front_eq order hpop with same | ⟨rfl, one⟩
    · omega
    · omega
  · cases does with
    | @unlink s sentinel node rest =>
      obtain ⟨rfl, -, hnext, -, rfl⟩ := h
      rw [order.front_unlink hnext] at hlt
      rw [InOrder.front_eq_of_next? hnext] at hle
      obtain rfl : i = node := by omega
      exact ⟨s, rfl, rfl, rfl⟩
    | _ => exact absurd rfl hpop

end Does

/-! ## Threads that respect each other's locks -/

section Threads

variable {c c' : QueueCrew α} {m k k' i : Nat} {p : Point α}

theorem stands_at (h : (outline α).Holds c) (hp : c.point? k = some p) : Stands c.shared p := by
  obtain ⟨_, _, -, -, stands, -⟩ := h.stands hp
  exact stands

/-- A step begins a call, or it is an access of the call that the thread is in. -/
theorem exists_access (h : (outline α).Holds c) (hstep : c.step? (rules α) m = some c') :
    (c.point? m = none ∧ c'.shared = c.shared) ∨
      ∃ p next, c.point? m = some p ∧ Stands c.shared p ∧ Does c.shared p c'.shared next ∧
        c'.point? m = next.point? := by
  obtain ⟨-, idle | ⟨p, next, hp, hs, hp'⟩⟩ := Crew.point?_of_step hstep
  · exact .inl idle
  · exact .inr ⟨p, next, hp, stands_at h hp, does_of_step hs, hp'⟩

namespace LockedBy

theorem eq (h : (outline α).Holds c) (held : LockedBy c k i) (held' : LockedBy c k' i) :
    k = k' := by
  obtain ⟨p, hp, hi⟩ := held
  obtain ⟨p', hp', hi'⟩ := held'
  obtain ⟨t, call, ht, hcur⟩ := Crew.point?_eq_some_iff.1 hp
  obtain ⟨t', call', ht', hcur'⟩ := Crew.point?_eq_some_iff.1 hp'
  refine Decidable.byContradiction fun hne => ?_
  exact h.apart ht ht' hne hcur hcur' i hi hi'

/-- What a thread holds is locked, and is the sentinel or a linked node. -/
theorem locked (h : (outline α).Holds c) (held : LockedBy c k i) :
    c.shared.Attached i ∧ c.shared.tag? i ≠ some .chained := by
  obtain ⟨p, hp, hi⟩ := held
  obtain ⟨hfront, hmark⟩ := (stands_at h hp).locked h.shared i hi
  refine ⟨h.shared.attached_iff.2 ⟨lt_size_of_tag? hmark, hfront⟩, fun free => ?_⟩
  exact p.mark_ne_chained (Option.some.inj (hmark.symm.trans free))

end LockedBy

/-- Other threads hold what they held. -/
theorem lockedBy_of_ne (hstep : c.step? (rules α) m = some c') (hk : k ≠ m) :
    LockedBy c' k i ↔ LockedBy c k i := by
  unfold LockedBy
  rw [(Crew.point?_of_step hstep).1 k hk]

/-- Who holds a node after a step of its own has made an access: nothing is held where a call
begins. -/
theorem LockedBy.exists_does (hstep : c.step? (rules α) m = some c') (after : LockedBy c' m i) :
    ∃ p p', c.point? m = some p ∧ c'.point? m = some p' ∧
      Does c.shared p c'.shared (.goto p') ∧ i ∈ p'.locks := by
  obtain ⟨p', hp', hi⟩ := after
  rcases Crew.of_point?_step hstep hp' with ⟨hm, -⟩ | ⟨call, rfl, -⟩ | ⟨p, -, hp, hs⟩
  · exact absurd rfl hm
  · cases call <;> cases hi
  · exact ⟨p, p', hp, hp', does_of_step hs, hi⟩

/-- Who ceases to hold a node has unlocked it or unlinked it. -/
theorem LockedBy.of_leaves (h : (outline α).Holds c) (hstep : c.step? (rules α) m = some c')
    (before : LockedBy c m i) (after : ¬ LockedBy c' m i) :
    c'.shared.tag? i = some .chained ∨
      (∃ s sentinel rest, c.point? m = some (.unlink s sentinel i rest)) ∧
        i ∉ c'.shared.linked := by
  obtain ⟨p, hp, hi⟩ := before
  rcases exists_access h hstep with ⟨none, -⟩ | ⟨p₁, next, hp₁, stands, does, hp'⟩
  · cases none.symm.trans hp
  · obtain rfl := Option.some.inj (hp₁.symm.trans hp)
    rcases does.leaves h.shared stands hi with ⟨p', rfl, hi'⟩ | htag | ⟨⟨s, rest, rfl⟩, -, hlt⟩
    · exact absurd ⟨p', hp', hi'⟩ after
    · exact .inl htag
    · refine .inr ⟨⟨s, 0, rest, hp⟩, fun mem => ?_⟩
      exact absurd ((h.step hstep).shared.mem_linked_iff.1 mem).1 (Nat.not_le_of_lt hlt)

theorem LockedBy.tag?_eq (h : (outline α).Holds c) (hstep : c.step? (rules α) m = some c')
    (before : LockedBy c k i) (after : LockedBy c' k i) :
    c'.shared.tag? i = c.shared.tag? i := by
  have h' := h.step hstep
  -- Either time the node has the tag of the call, which an access does not change.
  have marked : ∀ {p p'}, c.point? k = some p → c'.point? k = some p' → i ∈ p.locks →
      i ∈ p'.locks → p'.mark = p.mark → c'.shared.tag? i = c.shared.tag? i := by
    intro p p' hp hp' hi hi' mark
    rw [((stands_at h hp).locked h.shared i hi).2, ((stands_at h' hp').locked h'.shared i hi').2,
      mark]
  obtain ⟨p, hp, hi⟩ := before
  by_cases hk : k = m
  · subst hk
    obtain ⟨p₁, p', hp₁, hp', does, hi'⟩ := after.exists_does hstep
    obtain rfl := Option.some.inj (hp₁.symm.trans hp)
    exact marked hp hp' hi hi' does.mark_eq
  · exact marked hp (((Crew.point?_of_step hstep).1 k hk).trans hp) hi hi rfl

theorem lockStep (h : (outline α).Holds c) (hstep : c.step? (rules α) m = some c') :
    LockStep c c' m := by
  constructor
  · intro k i before after
    have hk : k = m := Decidable.byContradiction fun hk =>
      before ((lockedBy_of_ne hstep hk).1 after)
    subst hk
    obtain ⟨p, p', hp, -, does, hi⟩ := after.exists_does hstep
    rcases does.locks i hi with old | ⟨free, taken⟩
    · exact absurd ⟨p, hp, old⟩ before
    · exact ⟨rfl, p, hp, taken ▸ tryLock_of_chained p.mark free⟩
  · intro k i before after
    have hk : k = m := Decidable.byContradiction fun hk =>
      after ((lockedBy_of_ne hstep hk).2 before)
    subst hk
    exact ⟨rfl, before.of_leaves h hstep after⟩
  · exact fun k i => LockedBy.tag?_eq h hstep
  · intro s sentinel node hp i after
    obtain ⟨p, p', hp₁, -, does, hi⟩ := after.exists_does hstep
    obtain rfl := Option.some.inj (hp₁.symm.trans hp)
    rw [does.asks] at hi
    cases hi

/-- Where a thread stands that is about to clear the link of a node, it has locked the sentinel. -/
theorem lockedBy_of_cut (h : (outline α).Holds c) {s : Search α} {sentinel node : Nat}
    (hp : c.point? k = some (.cut s sentinel node)) : LockedBy c k 0 := by
  obtain ⟨rfl, -⟩ := stands_at h hp
  exact ⟨_, hp, List.mem_singleton_self _⟩

/-- What is unlinked stays so, and nothing is linked behind it. -/
theorem unlinked_step (h : (outline α).Holds c) (hstep : c.step? (rules α) m = some c')
    (hpos : 0 < i) (hlt : i < c.shared.front) :
    i < c'.shared.front ∧
      (c'.shared.next? i = c.shared.next? i ∨ c'.shared.next? i = none) := by
  rcases exists_access h hstep with ⟨-, same⟩ | ⟨p, next, -, stands, does, -⟩
  · rw [same]
    exact ⟨hlt, .inl rfl⟩
  · have change := does.change h.shared stands
    exact ⟨Nat.lt_of_lt_of_le hlt (change.front_le h.shared),
      (change.next?_unlinked h.shared hpos hlt).imp_right And.left⟩

/-- While a thread is about to clear the link of a node, the others leave that link alone and the
link of the sentinel, which that thread has locked. -/
theorem links_kept (h : (outline α).Holds c) (hstep : c.step? (rules α) m = some c')
    {s : Search α} (hk : c.point? k = some (.cut s 0 i)) (hm : k ≠ m) :
    c'.shared.next? i = c.shared.next? i ∧ c'.shared.next? 0 = c.shared.next? 0 := by
  obtain ⟨-, htag, hpos, hlt, -⟩ := stands_at h hk
  rcases exists_access h hstep with ⟨-, same⟩ | ⟨p, next, hp, stands, does, -⟩
  · rw [same]
    exact ⟨rfl, rfl⟩
  · have change := does.change h.shared stands
    have apart : 0 ∉ p.locks := fun h0 => hm ((lockedBy_of_cut h hk).eq h ⟨p, hp, h0⟩)
    refine ⟨?_, (change.kept htag nofun (fun h0 => absurd h0 (Nat.lt_irrefl 0)) apart).2⟩
    rcases change.next?_unlinked h.shared hpos hlt with same | ⟨-, h0⟩
    · exact same
    · exact absurd h0 apart

end Threads

/-! ## Locks are held and links are cleared -/

/-- The tags and the links are as the points of the threads say. -/
structure Guarded (c : QueueCrew α) : Prop where
  /-- What is locked, among the sentinel and the linked nodes, is held by a thread. -/
  locked : ∀ i t, (0 < i → c.shared.front ≤ i) → c.shared.tag? i = some t → t ≠ .chained →
    ∃ k, LockedBy c k i
  /-- An unlinked node leads nowhere, unless a thread is about to clear its link. Then it leads
  where the sentinel leads. -/
  severed : ∀ i, 0 < i → i < c.shared.front → c.shared.next? i = none ∨
    (∃ k s, c.point? k = some (.cut s 0 i)) ∧ c.shared.next? i = c.shared.next? 0

namespace Guarded

variable {c c' : QueueCrew α} {m : Nat}

theorem initial (calls : List (List (Call α))) : Guarded (.initial {} calls) where
  locked := by
    intro i t _ htag
    simp [Crew.initial, tag?] at htag
  severed := by
    intro i _ hlt
    simp [Crew.initial, front, next?] at hlt

theorem locked_step (g : Guarded c) (h : (outline α).Holds c)
    (hstep : c.step? (rules α) m = some c') (i : Nat) (t : Tag)
    (hfront : 0 < i → c'.shared.front ≤ i) (htag : c'.shared.tag? i = some t)
    (ht : t ≠ .chained) : ∃ k, LockedBy c' k i := by
  rcases exists_access h hstep with ⟨idle, same⟩ | ⟨p, next, hp, stands, does, hp'⟩
  · rw [same] at hfront htag
    obtain ⟨k, held⟩ := g.locked i t hfront htag ht
    refine ⟨k, (lockedBy_of_ne hstep ?_).2 held⟩
    rintro rfl
    obtain ⟨p, hp, -⟩ := held
    cases idle.symm.trans hp
  · rcases does.of_tag? htag ht with old | ⟨p', rfl, hi⟩
    · have earlier := (does.change h.shared stands).front_le h.shared
      obtain ⟨k, held⟩ := g.locked i t (fun hpos => Nat.le_trans earlier (hfront hpos)) old ht
      by_cases hk : k = m
      · subst hk
        obtain ⟨p₁, hp₁, hi⟩ := held
        obtain rfl := Option.some.inj (hp.symm.trans hp₁)
        rcases does.leaves h.shared stands hi with ⟨p', rfl, hi'⟩ | free | ⟨-, hpos, hlt⟩
        · exact ⟨k, p', hp', hi'⟩
        · exact absurd (Option.some.inj (htag.symm.trans free)) ht
        · exact absurd (hfront hpos) (Nat.not_le_of_lt hlt)
      · exact ⟨k, (lockedBy_of_ne hstep hk).2 held⟩
    · exact ⟨m, p', hp', hi⟩

theorem severed_step (g : Guarded c) (h : (outline α).Holds c)
    (hstep : c.step? (rules α) m = some c') (i : Nat) (hpos : 0 < i)
    (hlt : i < c'.shared.front) : c'.shared.next? i = none ∨
      (∃ k s, c'.point? k = some (.cut s 0 i)) ∧ c'.shared.next? i = c'.shared.next? 0 := by
  by_cases before : i < c.shared.front
  · rcases g.severed i hpos before with none | ⟨⟨k, s, hk⟩, joined⟩
    · rcases (unlinked_step h hstep hpos before).2 with same | cleared
      · exact .inl (same.trans none)
      · exact .inl cleared
    · by_cases hm : k = m
      · -- The thread that was about to clear the link has cleared it.
        subst hm
        rcases exists_access h hstep with ⟨idle, -⟩ | ⟨p, next, hp, -, does, -⟩
        · cases idle.symm.trans hk
        · obtain rfl := Option.some.inj (hp.symm.trans hk)
          exact .inl (does.next?_cut (Nat.lt_of_lt_of_le before h.shared.front_le))
      · obtain ⟨same, sentinel⟩ := links_kept h hstep hk hm
        have there := ((Crew.point?_of_step hstep).1 k hm).trans hk
        exact .inr ⟨⟨k, s, there⟩, same.trans (joined.trans sentinel.symm)⟩
  · rcases exists_access h hstep with ⟨-, same⟩ | ⟨p, next, -, stands, does, hp'⟩
    · exact absurd (same ▸ hlt) before
    · obtain ⟨s, rfl, rfl, hq⟩ := does.unlinks h.shared stands hpos (Nat.le_of_not_lt before) hlt
      refine .inr ⟨⟨m, s, hp'⟩, ?_⟩
      obtain ⟨-, htag, -⟩ := stands
      rw [hq, next?_setNext, next?_setNext, if_neg (fun e => by omega),
        if_pos ⟨rfl, lt_size_of_tag? htag⟩]

theorem exists_lockedBy (g : Guarded c) (order : c.shared.InOrder) {i : Nat}
    (attached : c.shared.Attached i) (taken : c.shared.tag? i ≠ some .chained) :
    ∃ k, LockedBy c k i := by
  obtain ⟨hlt, hfront⟩ := order.attached_iff.1 attached
  have htag : c.shared.tag? i = some c.shared.nodes[i].tag := by simp [tag?, hlt]
  exact g.locked i _ hfront htag fun e => taken (e ▸ htag)

section Links

variable {i j n : Nat}

/-- Where links come from: the sentinel leads to the first of the linked nodes, a linked node to the
one after it, and a node that is being unlinked to where the sentinel leads. -/
theorem next?_cases (g : Guarded c) (order : c.shared.InOrder) (hn : c.shared.next? i = some n) :
    (i = 0 ∧ n = c.shared.front) ∨ (0 < i ∧ c.shared.front ≤ i ∧ n = i + 1) ∨
      (i < c.shared.front ∧ n = c.shared.front ∧ ∃ k s, c.point? k = some (.cut s 0 i)) := by
  rcases Nat.eq_zero_or_pos i with rfl | hpos
  · exact .inl ⟨rfl, (InOrder.front_eq_of_next? hn).symm⟩
  · rcases Nat.lt_or_ge i c.shared.front with hlt | hle
    · rcases g.severed i hpos hlt with none | ⟨cut, joined⟩
      · cases none.symm.trans hn
      · exact .inr (.inr ⟨hlt, (InOrder.front_eq_of_next? (joined.symm.trans hn)).symm, cut⟩)
    · have next := order.next?_linked i hpos hle (lt_size_of_next? hn)
      rw [hn] at next
      split at next
      next => exact .inr (.inl ⟨hpos, hle, Option.some.inj next⟩)
      next => cases next

theorem ascending (g : Guarded c) (order : c.shared.InOrder) (i j : Nat)
    (hn : c.shared.next? i = some j) : i < j ∧ j < c.shared.nodes.size := by
  refine ⟨?_, order.next?_lt i j hn⟩
  have hfront := order.front_pos (Nat.zero_lt_of_lt (lt_size_of_next? hn))
  rcases g.next?_cases order hn with ⟨rfl, rfl⟩ | ⟨-, -, rfl⟩ | ⟨hlt, rfl, -⟩
  · exact hfront
  · exact Nat.lt_succ_self i
  · exact hlt

theorem joins (g : Guarded c) (h : (outline α).Holds c) (hne : i ≠ j)
    (hi : c.shared.next? i = some n) (hj : c.shared.next? j = some n) :
    Unlinking c i j ∨ Unlinking c j i := by
  have head := h.shared.head_of_pos (Nat.zero_lt_of_lt (lt_size_of_next? hi))
  rcases g.next?_cases h.shared hi with ⟨rfl, hn⟩ | ⟨-, hle, hn⟩ | ⟨-, hn, k, s, hk⟩
  · rcases g.next?_cases h.shared hj with ⟨rfl, -⟩ | ⟨-, hle, hn'⟩ | ⟨-, -, cut⟩
    · exact absurd rfl hne
    · omega
    · exact .inl ⟨head, cut⟩
  · rcases g.next?_cases h.shared hj with ⟨rfl, hn'⟩ | ⟨-, -, hn'⟩ | ⟨-, hn', -⟩
    · omega
    · omega
    · omega
  · rcases g.next?_cases h.shared hj with ⟨rfl, -⟩ | ⟨-, hle, hn'⟩ | ⟨-, -, k', s', hk'⟩
    · exact .inr ⟨head, k, s, hk⟩
    · omega
    · -- Two threads would have locked the sentinel.
      obtain rfl := (lockedBy_of_cut h hk).eq h (lockedBy_of_cut h hk')
      cases hk.symm.trans hk'
      exact absurd rfl hne

end Links

end Guarded

/-! ## Every schedule -/

section Schedules

variable {calls : List (List (Call α))} {c c' : QueueCrew α} {m i : Nat}

theorem guarded (h : Crew.Reachable (rules α) (.initial {} calls) c) : Guarded c := by
  induction h with
  | refl => exact .initial calls
  | step m hreach hstep ih =>
    have holds := outline_holds hreach
    exact ⟨ih.locked_step holds hstep, ih.severed_step holds hstep⟩

theorem unlinked_later (h : (outline α).Holds c) (reach : Crew.Reachable (rules α) c c')
    (hpos : 0 < i) (hlt : i < c.shared.front) :
    i < c'.shared.front ∧
      (c'.shared.next? i = c.shared.next? i ∨ c'.shared.next? i = none) := by
  induction reach with
  | refl => exact ⟨hlt, .inl rfl⟩
  | step m reach hstep ih =>
    obtain ⟨before, link⟩ := ih
    obtain ⟨after, link'⟩ := unlinked_step (h.later reach) hstep hpos before
    refine ⟨after, ?_⟩
    rcases link' with same | cleared
    · rwa [same]
    · exact .inr cleared

theorem size_le_later (h : (outline α).Holds c) (reach : Crew.Reachable (rules α) c c') :
    c.shared.nodes.size ≤ c'.shared.nodes.size := by
  induction reach with
  | refl => exact Nat.le_refl _
  | step m reach hstep ih =>
    have holds := h.later reach
    refine Nat.le_trans ih ?_
    rcases exists_access holds hstep with ⟨-, same⟩ | ⟨p, next, -, stands, does, -⟩
    · exact Nat.le_of_eq (congrArg (fun q => q.nodes.size) same.symm)
    · exact (does.change holds.shared stands).size_le

theorem EverLinked.bounds (h : EverLinked (.initial {} calls) c i) :
    0 < i ∧ i < c.shared.nodes.size := by
  obtain ⟨d, hd, reach, mem⟩ := h
  have holds := outline_holds hd
  obtain ⟨hle, hlt⟩ := holds.shared.mem_linked_iff.1 mem
  have hfront := holds.shared.front_pos (Nat.zero_lt_of_lt hlt)
  exact ⟨Nat.lt_of_lt_of_le hfront hle, Nat.lt_of_lt_of_le hlt (size_le_later holds reach)⟩

theorem Unlinked.bounds (h : Unlinked (.initial {} calls) c i) (order : c.shared.InOrder) :
    0 < i ∧ i < c.shared.front := by
  obtain ⟨hpos, hlt⟩ := h.1.bounds
  exact ⟨hpos, Nat.lt_of_not_le fun hle => h.2 (order.mem_linked_iff.2 ⟨hle, hlt⟩)⟩

end Schedules

/-- However appends and takes of any number of threads interleave, the links never lead in a circle
and meet only where a node is being unlinked, every lock is held by the one thread that took it and
has yet to let go of it, and a node that was unlinked stays locked and cut off. -/
theorem node_graph_sound (calls : List (List (Call α))) {c : QueueCrew α}
    (h : Crew.Reachable (rules α) (.initial {} calls) c) : NodeGraph (.initial {} calls) c := by
  have holds := outline_holds h
  have order := holds.shared
  have g := guarded h
  constructor
  · rintro i (hs | ever)
    · obtain ⟨rfl, hpos⟩ := order.head_eq_some hs
      exact exists_path (g.ascending order) hpos
    · exact exists_path (g.ascending order) ever.bounds.2
  · intro i j n hne hi hj
    exact g.joins holds hne hi hj
  · intro i attached taken
    obtain ⟨k, hk⟩ := g.exists_lockedBy order attached taken
    exact ⟨k, hk, fun k' hk' => hk'.eq holds hk⟩
  · exact fun k i => LockedBy.locked holds
  · intro m c' hstep
    exact lockStep holds hstep
  · intro done i attached
    refine Decidable.byContradiction fun taken => ?_
    obtain ⟨k, p, hp, -⟩ := g.exists_lockedBy order attached taken
    cases (Crew.point?_of_isDone done k).symm.trans hp
  · intro k x s last hp
    exact (LockedBy.locked holds ⟨_, hp, List.mem_singleton_self _⟩).1
  · intro i unlinked
    obtain ⟨hpos, hlt⟩ := unlinked.bounds order
    have head := order.head_of_pos (Nat.zero_lt_of_lt unlinked.1.bounds.2)
    exact (g.severed i hpos hlt).imp_right fun severed => ⟨0, head, severed.1⟩
  · intro i unlinked c' reach
    obtain ⟨hpos, hlt⟩ := unlinked.bounds order
    obtain ⟨d, hd, toC, mem⟩ := unlinked.1
    obtain ⟨hlt', link⟩ := unlinked_later holds reach hpos hlt
    have order' := (holds.later reach).shared
    refine ⟨⟨⟨d, hd, toC.trans reach, mem⟩, fun mem' => ?_⟩,
      order'.tag_unlinked i hpos hlt', link⟩
    exact absurd (order'.mem_linked_iff.1 mem').1 (Nat.not_le_of_lt hlt')

/-- Two threads that append and one that takes. -/
def crossingCalls : List (List (Call Nat)) :=
  [[.append 1, .append 2, .append 3], [.append 4], [.take fun _ _ => true]]

/-- The first thread has linked one node. -/
def oneLinked : QueueCrew Nat :=
  Crew.after (rules Nat) (List.replicate 9 0) (.initial {} crossingCalls)

/-- The second thread walks as far as that node, the first thread links two nodes behind it and has
yet to unlock the one, and the third leads the sentinel past the first node. -/
def crossingSchedule : List Nat :=
  List.replicate 3 1 ++ List.replicate 15 0 ++ List.replicate 8 2

/-- The configuration in which the sentinel and the first node both lead to the second. -/
def crossing : QueueCrew Nat := Crew.after (rules Nat) crossingSchedule oneLinked

theorem node_graph_sound_crossing :
    Crew.Reachable (rules Nat) (.initial {} crossingCalls) crossing ∧
      crossing.shared.next? 0 = some 2 ∧ crossing.shared.next? 1 = some 2 ∧
      (crossing.point? 0).map Point.locks = some [2] ∧
      (crossing.point? 2).map Point.locks = some [0] ∧
      Unlinked (.initial {} crossingCalls) crossing 1 ∧
      NodeGraph (.initial {} crossingCalls) crossing := by
  have one : Crew.Reachable (rules Nat) (.initial {} crossingCalls) oneLinked :=
    Crew.Reachable.refl.after _
  have onward : Crew.Reachable (rules Nat) oneLinked crossing := Crew.Reachable.refl.after _
  have unlinked : Unlinked (.initial {} crossingCalls) crossing 1 :=
    ⟨⟨oneLinked, one, onward, by decide +kernel⟩, by decide +kernel⟩
  refine ⟨one.trans onward, ?_, ?_, ?_, ?_, unlinked,
    node_graph_sound crossingCalls (one.trans onward)⟩
  · decide +kernel
  · decide +kernel
  · decide +kernel
  · decide +kernel

end Eventual.Queue
