import Eventual.Proofs.Queue.Order
import Eventual.Queue.Routine

/-!
# Who may change a node

`Does` lists what the accesses do, one line for each way an access can go, and
`step_does` is the only place that unfolds them. `Point.locks` says which nodes a
thread has locked where it stands, `Point.mark` with which tag, and `Stands` what it
knows because of them.

Seen from the queue, there are few things that a thread can do that stands as it
should: `Change` lists them. Each keeps the nodes in order and moves payloads in at
the back and out at the front as the access says (`Change.inOrder`,
`Change.toList_eq`). And each leaves alone what others have locked (`Change.kept`),
so what they know stays true (`Stands.spared`).
-/

namespace Eventual.Queue

variable {α : Type}

/-- The nodes that a thread at the point has locked. A node that it has unlinked is
locked for good, so nobody needs to hold it. -/
def Point.locks : Point α → List Nat
  | .checkLast _ _ last | .link _ _ last | .unlockLast last | .retreat _ _ last => [last]
  | .checkFirst _ s _ | .lockFirst _ s _ | .giveUp _ s | .cut _ s _ | .release _ s _ => [s]
  | .successor _ s node | .unlink _ s node _ => [s, node]
  | .enter _ | .install _ | .seek _ _ _ | .lockLast _ _ _ | .search _ | .first _ _
  | .lockSentinel _ _ _ | .probe | .probeFirst _ => []

/-- The tag with which a call at the point locks nodes: an append has one tag and a take the other,
and a call that only looks locks nothing. -/
def Point.mark : Point α → Tag
  | .enter _ | .install _ | .seek _ _ _ | .lockLast _ _ _ | .checkLast _ _ _ | .link _ _ _
  | .unlockLast _ | .retreat _ _ _ => .appending
  | .search _ | .first _ _ | .lockSentinel _ _ _ | .checkFirst _ _ _ | .lockFirst _ _ _
  | .giveUp _ _ | .successor _ _ _ | .unlink _ _ _ _ | .cut _ _ _ | .release _ _ _ | .probe
  | .probeFirst _ => .popping

theorem Point.mark_ne_chained (p : Point α) : p.mark ≠ .chained := by
  cases p <;> simp [mark]

/-- What a thread at the point knows of the queue, whatever others do. -/
def Stands (q : Queue α) : Point α → Prop
  | .enter _ | .install _ | .search _ | .probe => True
  | .seek _ s node | .lockLast _ s node => s = 0 ∧ node < q.nodes.size
  | .checkLast _ s last | .retreat _ s last => s = 0 ∧ q.tag? last = some .appending
  | .link _ s last => s = 0 ∧ q.tag? last = some .appending ∧ q.next? last = none
  | .unlockLast last => q.tag? last = some .appending
  | .first _ s | .lockSentinel _ s _ | .probeFirst s => s = 0 ∧ 0 < q.nodes.size
  | .checkFirst _ s _ | .giveUp _ s => s = 0 ∧ q.tag? 0 = some .popping
  | .lockFirst _ s node => s = 0 ∧ q.tag? 0 = some .popping ∧ q.next? 0 = some node
  | .successor _ s node =>
    s = 0 ∧ q.tag? 0 = some .popping ∧ q.next? 0 = some node ∧ q.tag? node = some .popping
  | .unlink _ s node rest =>
    s = 0 ∧ q.tag? 0 = some .popping ∧ q.next? 0 = some node ∧ q.tag? node = some .popping ∧
      q.next? node = rest
  | .cut _ s node | .release _ s node =>
    s = 0 ∧ q.tag? 0 = some .popping ∧ 0 < node ∧ node < q.front ∧ (q.payload? node).isSome

/-- Everything that one access can do: the point it is made at, the queue after it,
and what follows. -/
inductive Does (q : Queue α) : Point α → Queue α → Next (Point α) (Answer α) → Prop
  | enter {x : α} {s : Nat} : q.head = some s → Does q (.enter x) q (.goto (.seek x s s))
  | enterBare {x : α} : q.head = none → Does q (.enter x) q (.goto (.install x))
  | installLost {x : α} {s : Nat} : q.head = some s →
      Does q (.install x) q (.goto (.seek x s s))
  | install {x : α} : q.head = none →
      Does q (.install x) { q.allocate {} with head := some q.nodes.size }
        (.goto (.seek x q.nodes.size q.nodes.size))
  | seek {x : α} {s node n : Nat} : q.next? node = some n →
      Does q (.seek x s node) q (.goto (.seek x s n))
  | seekEnd {x : α} {s node : Nat} : q.next? node = none →
      Does q (.seek x s node) q (.goto (.lockLast x s node))
  | lockLast {x : α} {s last : Nat} : q.tag? last = some .chained →
      Does q (.lockLast x s last) (q.setTag last .appending) (.goto (.checkLast x s last))
  | lockLastLost {x : α} {s last : Nat} : q.tag? last ≠ some .chained →
      Does q (.lockLast x s last) q (.goto (.seek x s s))
  | checkLast {x : α} {s last : Nat} : q.next? last = none →
      Does q (.checkLast x s last) q (.goto (.link x s last))
  | checkLastLost {x : α} {s last n : Nat} : q.next? last = some n →
      Does q (.checkLast x s last) q (.goto (.retreat x s last))
  | link {x : α} {s last : Nat} :
      Does q (.link x s last) (q.extend x last) (.goto (.unlockLast last))
  | unlockLast {last : Nat} :
      Does q (.unlockLast last) (q.setTag last .chained) (.done .appended)
  | retreat {x : α} {s last : Nat} :
      Does q (.retreat x s last) (q.setTag last .chained) (.goto (.seek x s s))
  | search {s : Search α} {n : Nat} : q.head = some n →
      Does q (.search s) q (.goto (.first s n))
  | searchBare {s : Search α} : q.head = none →
      Does q (.search s) q (.done (.taken none s.discarded))
  | first {s : Search α} {n node : Nat} : q.next? n = some node →
      Does q (.first s n) q (.goto (.lockSentinel s n node))
  | firstNone {s : Search α} {n : Nat} : q.next? n = none →
      Does q (.first s n) q (.done (.taken none s.discarded))
  | lockSentinel {s : Search α} {n node : Nat} : q.tag? n = some .chained →
      Does q (.lockSentinel s n node) (q.setTag n .popping) (.goto (.checkFirst s n node))
  | lockSentinelLost {s : Search α} {n node : Nat} : q.tag? n ≠ some .chained →
      Does q (.lockSentinel s n node) q (.goto (.first s n))
  | checkFirst {s : Search α} {n node : Nat} : q.next? n = some node →
      Does q (.checkFirst s n node) q (.goto (.lockFirst s n node))
  | checkFirstLost {s : Search α} {n node : Nat} : q.next? n ≠ some node →
      Does q (.checkFirst s n node) q (.goto (.giveUp s n))
  | lockFirst {s : Search α} {n node : Nat} : q.tag? node = some .chained →
      Does q (.lockFirst s n node) (q.setTag node .popping) (.goto (.successor s n node))
  | lockFirstLost {s : Search α} {n node : Nat} : q.tag? node ≠ some .chained →
      Does q (.lockFirst s n node) q (.goto (.giveUp s n))
  | giveUp {s : Search α} {n : Nat} :
      Does q (.giveUp s n) (q.setTag n .chained) (.goto (.first s n))
  | successor {s : Search α} {n node : Nat} :
      Does q (.successor s n node) q (.goto (.unlink s n node (q.next? node)))
  | unlink {s : Search α} {n node : Nat} {rest : Option Nat} :
      Does q (.unlink s n node rest) (q.setNext n rest) (.goto (.cut s n node))
  | cut {s : Search α} {n node : Nat} :
      Does q (.cut s n node) (q.setNext node none) (.goto (.release s n node))
  | releaseEmpty {s : Search α} {n node : Nat} : q.payload? node = none →
      Does q (.release s n node) ((q.setTag n .chained).clearPayload node) (.goto (.first s n))
  | deliver {s : Search α} {n node : Nat} {x : α} : q.payload? node = some x →
      s.wanted s.discarded x = true →
      Does q (.release s n node) ((q.setTag n .chained).clearPayload node)
        (.done (.taken (some x) s.discarded))
  | discard {s : Search α} {n node : Nat} {x : α} : q.payload? node = some x →
      s.wanted s.discarded x = false →
      Does q (.release s n node) ((q.setTag n .chained).clearPayload node)
        (.goto (.first { s with discarded := s.discarded ++ [x] } n))
  | probe {n : Nat} : q.head = some n → Does q .probe q (.goto (.probeFirst n))
  | probeBare : q.head = none → Does q .probe q (.done (.empty true))
  | probeFirst {n : Nat} : Does q (.probeFirst n) q (.done (.empty (q.next? n).isNone))

theorem tryLock_of_not_chained {q : Queue α} {i : Nat} (t : Tag)
    (h : q.tag? i ≠ some .chained) : q.tryLock i t = (q, false) := by
  simp [tryLock, h]

theorem step_does (q : Queue α) (p : Point α) : Does q p (step q p).1 (step q p).2 := by
  cases p with
  | enter x =>
    cases h : q.head with
    | none => simpa only [step, h] using .enterBare h
    | some s => simpa only [step, h] using .enter h
  | install x =>
    cases h : q.head with
    | none => simpa only [step, h] using .install h
    | some s => simpa only [step, h] using .installLost h
  | seek x s node =>
    cases h : q.next? node with
    | none => simpa only [step, h] using .seekEnd h
    | some n => simpa only [step, h] using .seek h
  | lockLast x s last =>
    by_cases h : q.tag? last = some .chained
    · simpa only [step, tryLock_of_chained _ h] using .lockLast h
    · simpa only [step, tryLock_of_not_chained _ h] using .lockLastLost h
  | checkLast x s last =>
    cases h : q.next? last with
    | none => simpa only [step, h] using .checkLast h
    | some n => simpa only [step, h] using .checkLastLost h
  | link x s last => exact .link
  | unlockLast last => exact .unlockLast
  | retreat x s last => exact .retreat
  | search s =>
    cases h : q.head with
    | none => simpa only [step, h] using .searchBare h
    | some n => simpa only [step, h] using .search h
  | first s n =>
    cases h : q.next? n with
    | none => simpa only [step, h] using .firstNone h
    | some node => simpa only [step, h] using .first h
  | lockSentinel s n node =>
    by_cases h : q.tag? n = some .chained
    · simpa only [step, tryLock_of_chained _ h] using .lockSentinel h
    · simpa only [step, tryLock_of_not_chained _ h] using .lockSentinelLost h
  | checkFirst s n node =>
    by_cases h : q.next? n = some node
    · simpa only [step, if_pos h] using .checkFirst h
    · simpa only [step, if_neg h] using .checkFirstLost h
  | lockFirst s n node =>
    by_cases h : q.tag? node = some .chained
    · simpa only [step, tryLock_of_chained _ h] using .lockFirst h
    · simpa only [step, tryLock_of_not_chained _ h] using .lockFirstLost h
  | giveUp s n => exact .giveUp
  | successor s n node => exact .successor
  | unlink s n node rest => exact .unlink
  | cut s n node => exact .cut
  | release s n node =>
    cases h : q.payload? node with
    | none => simpa only [step, h] using .releaseEmpty h
    | some x =>
      cases hw : s.wanted s.discarded x with
      | true => simpa only [step, h, hw] using .deliver h hw
      | false => simpa only [step, h, hw] using .discard h hw
  | probe =>
    cases h : q.head with
    | none => simpa only [step, h] using .probeBare h
    | some n => simpa only [step, h] using .probe h
  | probeFirst n => exact .probeFirst

def Point.pushes : Point α → List α
  | .link x _ _ => [x]
  | _ => []

def Point.pops (q : Queue α) : Point α → List α
  | .unlink _ _ node _ => (q.payload? node).toList
  | _ => []

/-- What one access of a thread that holds `locks` can do to a queue: the queue
after it, what it links at the back, and what it unlinks at the front. -/
inductive Change (q : Queue α) (locks : List Nat) : Queue α → List α → List α → Prop
  | none : Change q locks q [] []
  | lock {i : Nat} (t : Tag) : q.tag? i = some .chained → Change q locks (q.setTag i t) [] []
  | unlock {i : Nat} : i ∈ locks → (0 < i → q.front ≤ i) →
      Change q locks (q.setTag i .chained) [] []
  | install : q.head = none →
      Change q locks { q.allocate {} with head := some q.nodes.size } [] []
  | link {last : Nat} (x : α) : last ∈ locks → q.tag? last = some .appending →
      q.next? last = none → Change q locks (q.extend x last) [x] []
  | unlink {node : Nat} {x : α} : 0 ∈ locks → node ∈ locks → q.next? 0 = some node →
      q.tag? node = some .popping → q.payload? node = some x →
      Change q locks (q.setNext 0 (q.next? node)) [] [x]
  | cut {node : Nat} : 0 ∈ locks → 0 < node → node < q.front →
      Change q locks (q.setNext node none) [] []
  | release {node : Nat} : 0 ∈ locks → 0 < node → node < q.front →
      Change q locks ((q.setTag 0 .chained).clearPayload node) [] []

/-- Every access of a thread that stands as it should is one of the changes. -/
theorem Does.change {q q' : Queue α} {p : Point α} {next : Next (Point α) (Answer α)}
    (does : Does q p q' next) (order : q.InOrder) (h : Stands q p) :
    Change q p.locks q' p.pushes (p.pops q) := by
  cases does with
  | enter | enterBare | installLost | seek | seekEnd | lockLastLost | checkLast | checkLastLost
  | search | searchBare | first | firstNone | lockSentinelLost | checkFirst | checkFirstLost
  | lockFirstLost | successor | probe | probeBare | probeFirst => exact .none
  | install hs => exact .install hs
  | lockLast ht | lockSentinel ht | lockFirst ht => exact .lock _ ht
  | link => exact .link _ (List.mem_singleton_self _) h.2.1 h.2.2
  | unlockLast => exact .unlock (List.mem_singleton_self _) (order.front_le_of_tag? h nofun)
  | retreat => exact .unlock (List.mem_singleton_self _) (order.front_le_of_tag? h.2 nofun)
  | giveUp =>
    obtain ⟨rfl, -⟩ := h
    exact .unlock (List.mem_singleton_self _) nofun
  | unlink =>
    obtain ⟨rfl, -, hnode, htag, rfl⟩ := h
    obtain ⟨-, x, hx, -⟩ := order.unlink hnode htag
    simp only [Point.pops, hx, Option.toList_some]
    exact .unlink (by simp [Point.locks]) (by simp [Point.locks]) hnode htag hx
  | cut =>
    obtain ⟨rfl, -, hpos, hlt, -⟩ := h
    exact .cut (by simp [Point.locks]) hpos hlt
  | releaseEmpty | deliver | discard =>
    obtain ⟨rfl, -, hpos, hlt, -⟩ := h
    exact .release (by simp [Point.locks]) hpos hlt

namespace Change

variable {q q' : Queue α} {locks : List Nat} {pushed popped : List α}

theorem inOrder (h : Change q locks q' pushed popped) (order : q.InOrder) : q'.InOrder := by
  cases h with
  | none => exact order
  | lock t ht => exact (order.setTag (order.front_le_of_tag? ht nofun) t).1
  | unlock _ hfront => exact (order.setTag hfront _).1
  | install hs => exact (order.install hs).1
  | link x _ htag hnext =>
    exact (order.extend x (lt_size_of_tag? htag) (order.front_le_of_tag? htag nofun) hnext).1
  | unlink _ _ hnode htag _ => exact (order.unlink hnode htag).1
  | cut _ hpos hlt => exact (order.cut hpos hlt).1
  | release _ hpos hlt =>
    have unlocked := order.setTag (i := 0) nofun .chained
    exact (unlocked.1.clearPayload (by rwa [unlocked.2.1])).1

theorem toList_eq (h : Change q locks q' pushed popped) (order : q.InOrder) :
    popped ++ q'.toList = q.toList ++ pushed := by
  cases h with
  | none => simp
  | lock t ht => simpa using (order.setTag (order.front_le_of_tag? ht nofun) t).2.2
  | unlock _ hfront => simpa using (order.setTag hfront _).2.2
  | install hs => simpa using (order.install hs).2
  | link x _ htag hnext =>
    exact (order.extend x (lt_size_of_tag? htag) (order.front_le_of_tag? htag nofun) hnext).2
  | unlink _ _ hnode htag hx =>
    obtain ⟨-, y, hy, hl⟩ := order.unlink hnode htag
    obtain rfl : _ = y := Option.some.inj (hx.symm.trans hy)
    simp [hl]
  | cut _ hpos hlt => simpa using (order.cut hpos hlt).2.2
  | release _ hpos hlt =>
    have unlocked := order.setTag (i := 0) nofun .chained
    have cleared := unlocked.1.clearPayload (by rwa [unlocked.2.1])
    simpa using cleared.2.2.trans unlocked.2.2

theorem size_le (h : Change q locks q' pushed popped) : q.nodes.size ≤ q'.nodes.size := by
  cases h with
  | install hs => exact Nat.le_of_lt (by simp [allocate])
  | link x _ _ _ => simp [size_extend]
  | none | lock | unlock | unlink | cut | release => simp

/-- The linked nodes begin where they began, unless the first of them is unlinked or the sentinel
is installed. -/
theorem front_eq (h : Change q locks q' pushed popped) (order : q.InOrder) (hpop : popped = []) :
    q'.front = q.front ∨ q = {} ∧ q'.front = 1 := by
  cases h with
  | none => exact .inl rfl
  | lock t ht => exact .inl (order.setTag (order.front_le_of_tag? ht nofun) t).2.1
  | unlock _ hfront => exact .inl (order.setTag hfront _).2.1
  | install hs =>
    obtain rfl : q = {} := Queue.ext hs (order.nodes_of_head hs)
    exact .inr ⟨rfl, rfl⟩
  | link x _ htag hnext =>
    exact .inl
      (order.front_extend x (lt_size_of_tag? htag) (order.front_le_of_tag? htag nofun) hnext)
  | unlink => cases hpop
  | cut _ hpos hlt => exact .inl (order.cut hpos hlt).2.1
  | release _ hpos hlt =>
    have unlocked := order.setTag (i := 0) nofun .chained
    have cleared := unlocked.1.clearPayload (by rwa [unlocked.2.1])
    exact .inl (cleared.2.1.trans unlocked.2.1)

theorem front_le (h : Change q locks q' pushed popped) (order : q.InOrder) :
    q.front ≤ q'.front := by
  by_cases hpop : popped = []
  · rcases h.front_eq order hpop with same | ⟨rfl, -⟩
    · exact Nat.le_of_eq same.symm
    · exact Nat.zero_le _
  · cases h with
    | unlink _ _ hnode _ _ =>
      rw [order.front_unlink hnode, InOrder.front_eq_of_next? hnode]
      exact Nat.le_succ _
    | _ => exact absurd rfl hpop

/-- Behind an unlinked node nothing is linked, and its link is cleared by nobody but the thread that
has locked the sentinel. -/
theorem next?_unlinked (h : Change q locks q' pushed popped) (order : q.InOrder) {i : Nat}
    (hpos : 0 < i) (hlt : i < q.front) :
    q'.next? i = q.next? i ∨ q'.next? i = .none ∧ 0 ∈ locks := by
  cases h with
  | none => exact .inl rfl
  | lock => exact .inl (next?_setTag ..)
  | unlock => exact .inl (next?_setTag ..)
  | install hs =>
    have hsize := order.front_le
    refine .inl ((next?_allocate q i {}).trans (if_neg ?_))
    omega
  | @link last x _ htag _ =>
    have hlast := order.front_le_of_tag? htag nofun
    refine .inl ((next?_extend q i (lt_size_of_tag? htag) x).trans (if_neg ?_))
    rintro rfl
    have := hlast hpos
    omega
  | unlink =>
    refine .inl ((next?_setNext ..).trans (if_neg ?_))
    rintro ⟨rfl, -⟩
    exact Nat.lt_irrefl 0 hpos
  | @cut node h0 _ hnode =>
    have hsize := order.front_le
    by_cases hi : node = i
    · exact .inr ⟨(next?_setNext q node i .none).trans (if_pos ⟨hi, by omega⟩), h0⟩
    · exact .inl ((next?_setNext ..).trans (if_neg fun e => hi e.1))
  | release => exact .inl (by simp)

/-- A change leaves alone what is locked by others, among the sentinel and the linked nodes. -/
theorem kept (h : Change q locks q' pushed popped) {i : Nat} {t : Tag}
    (htag : q.tag? i = some t) (ht : t ≠ .chained) (hfront : 0 < i → q.front ≤ i)
    (hi : i ∉ locks) : q'.tag? i = some t ∧ q'.next? i = q.next? i := by
  have hlt := lt_size_of_tag? htag
  have unchained : q.tag? i ≠ some .chained := by
    rw [htag]
    exact fun e => ht (Option.some.inj e)
  cases h with
  | none => exact ⟨htag, rfl⟩
  | @lock j u hj =>
    have hne : j ≠ i := fun e => unchained (e ▸ hj)
    simp [tag?_setTag, hne, htag]
  | @unlock j hj _ =>
    have hne : j ≠ i := fun e => hi (e ▸ hj)
    simp [tag?_setTag, hne, htag]
  | install hs =>
    have hold : ∀ j, j ≠ q.nodes.size → (q.allocate {}).tag? j = q.tag? j ∧
        (q.allocate {}).next? j = q.next? j := by
      intro j hj
      rw [tag?_allocate, next?_allocate, if_neg hj, if_neg hj]
      exact ⟨rfl, rfl⟩
    have := hold i (by omega)
    exact ⟨this.1.trans htag, this.2⟩
  | @link last x hlast hl _ =>
    have hne : i ≠ last := fun e => hi (e ▸ hlast)
    rw [tag?_extend, next?_extend _ _ (lt_size_of_tag? hl), if_neg (by omega), if_neg hne]
    exact ⟨htag, rfl⟩
  | @unlink node x h0 hnode _ _ _ =>
    have hne : 0 ≠ i := fun e => hi (e ▸ h0)
    rw [tag?_setNext, next?_setNext, if_neg fun e => hne e.1]
    exact ⟨htag, rfl⟩
  | @cut node _ hpos hnode =>
    have hne : node ≠ i := fun e => absurd (hfront (e ▸ hpos)) (by omega)
    rw [tag?_setNext, next?_setNext, if_neg fun e => hne e.1]
    exact ⟨htag, rfl⟩
  | @release node h0 _ _ =>
    have hne : 0 ≠ i := fun e => hi (e ▸ h0)
    simp [tag?_setTag, hne, htag]

/-- Payloads are taken out by nobody but the thread that has locked the sentinel. -/
theorem payload?_eq (h : Change q locks q' pushed popped) (h0 : 0 ∉ locks) {i : Nat}
    (hi : i < q.nodes.size) : q'.payload? i = q.payload? i := by
  cases h with
  | none => rfl
  | lock => simp
  | unlock => simp
  | install hs =>
    have := payload?_allocate q i {}
    rw [if_neg (by omega)] at this
    exact this
  | link x _ _ _ => rw [payload?_extend, if_neg (by omega)]
  | unlink hmem => exact absurd hmem h0
  | cut hmem => exact absurd hmem h0
  | release hmem => exact absurd hmem h0

end Change

/-! ## What others do -/

/-- What a thread has locked has the tag of its call, and belongs to the sentinel or the linked
nodes. -/
theorem Stands.locked {q : Queue α} {p : Point α} (h : Stands q p) (order : q.InOrder) :
    ∀ i ∈ p.locks, (0 < i → q.front ≤ i) ∧ q.tag? i = some p.mark := by
  intro i hi
  cases p with
  | enter | install | seek | lockLast | search | first | lockSentinel | probe | probeFirst =>
    cases hi
  | checkLast x s last =>
    obtain rfl := List.mem_singleton.1 hi
    exact ⟨order.front_le_of_tag? h.2 nofun, h.2⟩
  | link x s last =>
    obtain rfl := List.mem_singleton.1 hi
    exact ⟨order.front_le_of_tag? h.2.1 nofun, h.2.1⟩
  | unlockLast last =>
    obtain rfl := List.mem_singleton.1 hi
    exact ⟨order.front_le_of_tag? h nofun, h⟩
  | retreat x s last =>
    obtain rfl := List.mem_singleton.1 hi
    exact ⟨order.front_le_of_tag? h.2 nofun, h.2⟩
  | checkFirst s sentinel node =>
    obtain ⟨rfl, htag⟩ := h
    obtain rfl := List.mem_singleton.1 hi
    exact ⟨nofun, htag⟩
  | giveUp s sentinel =>
    obtain ⟨rfl, htag⟩ := h
    obtain rfl := List.mem_singleton.1 hi
    exact ⟨nofun, htag⟩
  | lockFirst s sentinel node =>
    obtain ⟨rfl, htag, -⟩ := h
    obtain rfl := List.mem_singleton.1 hi
    exact ⟨nofun, htag⟩
  | successor s sentinel node =>
    obtain ⟨rfl, htag, hnext, hnode⟩ := h
    simp only [Point.locks, List.mem_cons, List.not_mem_nil, or_false] at hi
    rcases hi with rfl | rfl
    · exact ⟨nofun, htag⟩
    · exact ⟨fun _ => Nat.le_of_eq (InOrder.front_eq_of_next? hnext), hnode⟩
  | unlink s sentinel node rest =>
    obtain ⟨rfl, htag, hnext, hnode, -⟩ := h
    simp only [Point.locks, List.mem_cons, List.not_mem_nil, or_false] at hi
    rcases hi with rfl | rfl
    · exact ⟨nofun, htag⟩
    · exact ⟨fun _ => Nat.le_of_eq (InOrder.front_eq_of_next? hnext), hnode⟩
  | cut s sentinel node =>
    obtain ⟨rfl, htag, -⟩ := h
    obtain rfl := List.mem_singleton.1 hi
    exact ⟨nofun, htag⟩
  | release s sentinel node =>
    obtain ⟨rfl, htag, -⟩ := h
    obtain rfl := List.mem_singleton.1 hi
    exact ⟨nofun, htag⟩

/-- What a thread knows stays true while others make accesses under other locks. -/
theorem Stands.spared {q q' : Queue α} {p : Point α} {locks : List Nat} {pushed popped : List α}
    (h : Stands q p) (order : q.InOrder) (change : Change q locks q' pushed popped)
    (disjoint : ∀ i ∈ p.locks, i ∉ locks) : Stands q' p := by
  have size := change.size_le
  have keep : ∀ i ∈ p.locks, ∀ t, q.tag? i = some t →
      q'.tag? i = some t ∧ q'.next? i = q.next? i := by
    intro i hi t ht
    obtain ⟨hfront, hmark⟩ := h.locked order i hi
    obtain rfl : t = p.mark := Option.some.inj (ht.symm.trans hmark)
    exact change.kept ht p.mark_ne_chained hfront (disjoint i hi)
  have held : ∀ node, 0 ∈ p.locks → node < q.front → (q.payload? node).isSome →
      node < q'.front ∧ (q'.payload? node).isSome := by
    intro node h0 hlt hx
    obtain ⟨x, hx'⟩ := Option.isSome_iff_exists.1 hx
    refine ⟨Nat.lt_of_lt_of_le hlt (change.front_le order), ?_⟩
    rwa [change.payload?_eq (disjoint 0 h0) (lt_size_of_payload? hx')]
  cases p with
  | enter | install | search | probe => trivial
  | seek x s node => exact ⟨h.1, Nat.lt_of_lt_of_le h.2 size⟩
  | lockLast x s last => exact ⟨h.1, Nat.lt_of_lt_of_le h.2 size⟩
  | first s sentinel => exact ⟨h.1, Nat.lt_of_lt_of_le h.2 size⟩
  | lockSentinel s sentinel node => exact ⟨h.1, Nat.lt_of_lt_of_le h.2 size⟩
  | probeFirst sentinel => exact ⟨h.1, Nat.lt_of_lt_of_le h.2 size⟩
  | checkLast x s last => exact ⟨h.1, (keep last (by simp [Point.locks]) _ h.2).1⟩
  | retreat x s last => exact ⟨h.1, (keep last (by simp [Point.locks]) _ h.2).1⟩
  | unlockLast last => exact (keep last (by simp [Point.locks]) _ h).1
  | link x s last =>
    have := keep last (by simp [Point.locks]) _ h.2.1
    exact ⟨h.1, this.1, this.2.trans h.2.2⟩
  | checkFirst s sentinel node =>
    obtain ⟨rfl, htag⟩ := h
    exact ⟨rfl, (keep 0 (by simp [Point.locks]) _ htag).1⟩
  | giveUp s sentinel =>
    obtain ⟨rfl, htag⟩ := h
    exact ⟨rfl, (keep 0 (by simp [Point.locks]) _ htag).1⟩
  | lockFirst s sentinel node =>
    obtain ⟨rfl, htag, hnext⟩ := h
    have := keep 0 (by simp [Point.locks]) _ htag
    exact ⟨rfl, this.1, this.2.trans hnext⟩
  | successor s sentinel node =>
    obtain ⟨rfl, htag, hnext, hnode⟩ := h
    have sentinel := keep 0 (by simp [Point.locks]) _ htag
    have first := keep node (by simp [Point.locks]) _ hnode
    exact ⟨rfl, sentinel.1, sentinel.2.trans hnext, first.1⟩
  | unlink s sentinel node rest =>
    obtain ⟨rfl, htag, hnext, hnode, hrest⟩ := h
    have sentinel := keep 0 (by simp [Point.locks]) _ htag
    have first := keep node (by simp [Point.locks]) _ hnode
    exact ⟨rfl, sentinel.1, sentinel.2.trans hnext, first.1, first.2.trans hrest⟩
  | cut s sentinel node =>
    obtain ⟨rfl, htag, hpos, hlt, hx⟩ := h
    obtain ⟨hlt', hx'⟩ := held node (by simp [Point.locks]) hlt hx
    exact ⟨rfl, (keep 0 (by simp [Point.locks]) _ htag).1, hpos, hlt', hx'⟩
  | release s sentinel node =>
    obtain ⟨rfl, htag, hpos, hlt, hx⟩ := h
    obtain ⟨hlt', hx'⟩ := held node (by simp [Point.locks]) hlt hx
    exact ⟨rfl, (keep 0 (by simp [Point.locks]) _ htag).1, hpos, hlt', hx'⟩

/-! ## What a thread does itself -/

theorem Does.stands {q q' : Queue α} {p p' : Point α} (does : Does q p q' (.goto p'))
    (order : q.InOrder) (h : Stands q p) : Stands q' p' := by
  cases does with
  | enter hs | installLost hs =>
    obtain ⟨rfl, hpos⟩ := order.head_eq_some hs
    exact ⟨rfl, hpos⟩
  | search hs | probe hs => exact order.head_eq_some hs
  | enterBare => trivial
  | install hs =>
    have hsize : q.nodes.size = 0 := by simp [order.nodes_of_head hs]
    exact ⟨hsize, by simp [allocate]⟩
  | seek hn => exact ⟨h.1, order.next?_lt _ _ hn⟩
  | seekEnd | first => exact h
  | lockLast ht => exact ⟨h.1, by simp [tag?_setTag, ht]⟩
  | lockLastLost =>
    obtain ⟨rfl, hlt⟩ := h
    exact ⟨rfl, Nat.lt_of_le_of_lt (Nat.zero_le _) hlt⟩
  | checkLast hn => exact ⟨h.1, h.2, hn⟩
  | checkLastLost => exact h
  | @link x s last =>
    have := lt_size_of_tag? h.2.1
    show (q.extend x last).tag? last = some .appending
    rw [tag?_extend, if_neg (by omega)]
    exact h.2.1
  | retreat =>
    obtain ⟨rfl, htag⟩ := h
    have := lt_size_of_tag? htag
    exact ⟨rfl, by simp only [size_setTag]; omega⟩
  | lockSentinel ht =>
    obtain ⟨rfl, -⟩ := h
    exact ⟨rfl, by simp [tag?_setTag, ht]⟩
  | lockSentinelLost => exact h
  | checkFirst hn =>
    obtain ⟨rfl, htag⟩ := h
    exact ⟨rfl, htag, hn⟩
  | checkFirstLost => exact h
  | @lockFirst s n node ht =>
    obtain ⟨rfl, htag, hnext⟩ := h
    have hne : node ≠ 0 := fun e => by
      rw [e, htag] at ht
      cases ht
    exact ⟨rfl, by simpa [tag?_setTag, hne] using htag, by simpa using hnext,
      by simp [tag?_setTag, ht]⟩
  | lockFirstLost => exact ⟨h.1, h.2.1⟩
  | giveUp =>
    obtain ⟨rfl, htag⟩ := h
    exact ⟨rfl, by simpa using lt_size_of_tag? htag⟩
  | successor =>
    obtain ⟨rfl, htag, hnext, hnode⟩ := h
    exact ⟨rfl, htag, hnext, hnode, rfl⟩
  | @unlink s n node rest =>
    obtain ⟨rfl, htag, hnext, hnode, rfl⟩ := h
    obtain ⟨-, x, hx, -⟩ := order.unlink hnext hnode
    have hpos : 0 < node := by
      have := order.front_pos (Nat.lt_of_le_of_lt (Nat.zero_le _) (order.next?_lt 0 node hnext))
      rwa [InOrder.front_eq_of_next? hnext] at this
    refine ⟨rfl, by simpa using htag, hpos, ?_, by simp [hx]⟩
    rw [order.front_unlink hnext]
    exact Nat.lt_succ_self node
  | cut =>
    obtain ⟨rfl, htag, hpos, hlt, hx⟩ := h
    refine ⟨rfl, by simpa using htag, hpos, ?_, by simpa using hx⟩
    rw [(order.cut hpos hlt).2.1]
    exact hlt
  | releaseEmpty | discard =>
    obtain ⟨rfl, htag, -⟩ := h
    exact ⟨rfl, by simpa using lt_size_of_tag? htag⟩

/-- A thread comes to hold a node by giving an unlocked node the tag of its call. -/
theorem Does.locks {q q' : Queue α} {p p' : Point α} (does : Does q p q' (.goto p')) :
    ∀ i ∈ p'.locks,
      i ∈ p.locks ∨ (q.tag? i = some .chained ∧ q' = q.setTag i p.mark) := by
  intro i hi
  cases does with
  | enter | enterBare | installLost | install | seek | seekEnd | lockLastLost | retreat | search
  | first | lockSentinelLost | giveUp | releaseEmpty | discard | probe => cases hi
  | checkLast | checkLastLost | link | checkFirst | checkFirstLost | lockFirstLost | successor
  | cut => exact .inl hi
  | lockLast ht | lockSentinel ht =>
    obtain rfl := List.mem_singleton.1 hi
    exact .inr ⟨ht, rfl⟩
  | lockFirst ht =>
    rcases List.mem_cons.1 hi with rfl | hi
    · exact .inl (List.mem_singleton_self _)
    · obtain rfl := List.mem_singleton.1 hi
      exact .inr ⟨ht, rfl⟩
  | unlink =>
    obtain rfl := List.mem_singleton.1 hi
    exact .inl (List.mem_cons_self ..)

end Eventual.Queue
