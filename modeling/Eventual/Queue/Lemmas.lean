import Eventual.Queue.Routine

/-!
# Queue operations through the view

What `append` and `take?` do to `toList` on a queue at rest, and that they leave
the queue at rest. With `toList_append`, `toList_take?` and `take?_snd` nobody
has to look at nodes and tags again.

`Path q o l` says that following the links from `o` visits exactly the nodes `l`
and then ends. On a queue at rest the linked nodes are such a path.
-/

namespace Eventual.Queue

variable {α : Type}

/-! ## Single accesses -/

theorem ext {q q' : Queue α} (head : q.head = q'.head) (nodes : q.nodes = q'.nodes) : q = q' := by
  cases q
  cases q'
  simp_all

@[simp] theorem nodes_update (q : Queue α) (i : Nat) (f : Node α → Node α) :
    (q.update i f).nodes = q.nodes.modify i f := rfl

@[simp] theorem head_update (q : Queue α) (i : Nat) (f : Node α → Node α) :
    (q.update i f).head = q.head := rfl

@[simp] theorem nodes_allocate (q : Queue α) (n : Node α) :
    (q.allocate n).nodes = q.nodes.push n := rfl

@[simp] theorem head_allocate (q : Queue α) (n : Node α) : (q.allocate n).head = q.head := rfl

theorem tryLock_of_chained {q : Queue α} {i : Nat} (t : Tag) (h : q.tag? i = some .chained) :
    q.tryLock i t = (q.setTag i t, true) := by
  simp [tryLock, h]

/-! ## Paths -/

/-- Following the links from `o` visits the nodes of the list and then ends. -/
def Path (q : Queue α) : Option Nat → List Nat → Prop
  | o, [] => o = none
  | o, i :: l => o = some i ∧ Path q (q.next? i) l

theorem Path.follow {q : Queue α} {o : Option Nat} {l : List Nat} (h : q.Path o l)
    {fuel : Nat} (le : l.length ≤ fuel) : q.follow fuel o = l := by
  induction l generalizing o fuel with
  | nil => cases h; cases fuel <;> rfl
  | cons i l ih =>
    obtain ⟨rfl, hl⟩ := h
    obtain ⟨fuel, rfl⟩ : ∃ k, fuel = k + 1 := ⟨fuel - 1, by simp at le; omega⟩
    simp only [Queue.follow]
    rw [ih hl (by simpa using le)]

/-- Paths depend only on the links of the nodes they visit. -/
theorem Path.congr {q q' : Queue α} {o : Option Nat} {l : List Nat} (h : q.Path o l)
    (same : ∀ i ∈ l, q'.next? i = q.next? i) : q'.Path o l := by
  induction l generalizing o with
  | nil => exact h
  | cons i l ih =>
    refine ⟨h.1, ?_⟩
    rw [same i (by simp)]
    exact ih h.2 fun j hj => same j (by simp [hj])

/-- If links lead to larger indices that exist, following them from a node that
exists ends before the nodes run out. -/
theorem path_follow {q : Queue α} (asc : ∀ i j, q.next? i = some j → i < j ∧ j < q.nodes.size)
    {o : Option Nat} {fuel : Nat} (hfuel : ∀ i, o = some i → q.nodes.size ≤ i + fuel)
    (hsize : ∀ i, o = some i → i < q.nodes.size) : q.Path o (q.follow fuel o) := by
  induction fuel generalizing o with
  | zero =>
    cases o with
    | none => rfl
    | some i => have := hfuel i rfl; have := hsize i rfl; omega
  | succ fuel ih =>
    cases o with
    | none => rfl
    | some i =>
      refine ⟨rfl, ih (fun j hj => ?_) fun j hj => (asc i j hj).2⟩
      have := (asc i j hj).1
      have := hfuel i rfl
      omega

theorem length_follow_le (q : Queue α) (fuel : Nat) (o : Option Nat) :
    (q.follow fuel o).length ≤ fuel := by
  induction fuel generalizing o with
  | zero => simp [follow]
  | succ fuel ih => cases o <;> simp [follow, ih]

theorem length_linked_le (q : Queue α) : q.linked.length ≤ q.nodes.size := by
  unfold linked
  split
  · simp
  · exact length_follow_le ..

theorem Path.lt_size {q : Queue α} {o : Option Nat} {l : List Nat} (h : q.Path o l)
    (asc : ∀ i j, q.next? i = some j → i < j ∧ j < q.nodes.size)
    (hsize : ∀ i, o = some i → i < q.nodes.size) : ∀ i ∈ l, i < q.nodes.size := by
  induction l generalizing o with
  | nil => simp
  | cons i l ih =>
    obtain ⟨rfl, hl⟩ := h
    intro j hj
    rcases List.mem_cons.1 hj with rfl | hj
    · exact hsize _ rfl
    · exact ih hl (fun k hk => (asc i k hk).2) j hj

/-- Nodes on a path lie behind the node the path leaves from. -/
theorem Path.pairwise {q : Queue α} {i : Nat} {l : List Nat} (h : q.Path (q.next? i) l)
    (asc : ∀ i j, q.next? i = some j → i < j ∧ j < q.nodes.size) :
    (i :: l).Pairwise (· < ·) := by
  induction l generalizing i with
  | nil => simp
  | cons j l ih =>
    obtain ⟨hj, hl⟩ := h
    have rest := ih hl
    have lt := (asc i j hj).1
    refine List.pairwise_cons.2 ⟨fun k hk => ?_, rest⟩
    rcases List.mem_cons.1 hk with rfl | hk
    · exact lt
    · exact Nat.lt_trans lt ((List.pairwise_cons.1 rest).1 k hk)

/-- A path can be followed to the end, and the last node has no next one. -/
theorem Path.next?_getLast {q : Queue α} {i : Nat} {l : List Nat} (h : q.Path (q.next? i) l) :
    q.next? ((i :: l).getLast (by simp)) = none := by
  induction l generalizing i with
  | nil => exact h
  | cons j l ih => simpa using ih h.2

/-- The payloads of some nodes depend on those nodes only. -/
theorem filterMap_payload?_congr {q q' : Queue α} {l : List Nat}
    (same : ∀ i ∈ l, q'.payload? i = q.payload? i) :
    l.filterMap q'.payload? = l.filterMap q.payload? := by
  induction l with
  | nil => rfl
  | cons i l ih =>
    rw [List.filterMap_cons, List.filterMap_cons, same i (by simp),
      ih fun j hj => same j (by simp [hj])]

/-! ## Queues at rest -/

namespace AtRest

variable {q : Queue α}

theorem empty : ({} : Queue α).AtRest where
  head_eq := rfl
  sentinel := by simp
  ascending := by simp [next?]
  linked_node := by simp [linked]
  unlinked_node := by simp

theorem head_eq_zero (h : q.AtRest) {s : Nat} (hhead : q.head = some s) :
    s = 0 ∧ 0 < q.nodes.size := by
  have := h.head_eq
  rw [hhead] at this
  split at this
  · cases this
  · exact ⟨Option.some.inj this, by omega⟩

theorem nodes_eq_empty (h : q.AtRest) (hhead : q.head = none) : q.nodes = #[] := by
  have := h.head_eq
  rw [hhead] at this
  split at this
  next h0 => exact Array.eq_empty_of_size_eq_zero h0
  next => cases this

theorem path (h : q.AtRest) (hhead : q.head = some 0) : q.Path (q.next? 0) q.linked := by
  have hl : q.linked = q.follow q.nodes.size (q.next? 0) := by simp [linked, hhead]
  rw [hl]
  exact path_follow h.ascending (fun i _ => by omega) fun i hi => (h.ascending 0 i hi).2

theorem linked_lt (h : q.AtRest) {i : Nat} (hi : i ∈ q.linked) : 0 < i ∧ i < q.nodes.size := by
  cases hhead : q.head with
  | none => simp [linked, hhead] at hi
  | some s =>
    obtain rfl := (h.head_eq_zero hhead).1
    have path := h.path hhead
    exact ⟨(List.pairwise_cons.1 (path.pairwise h.ascending)).1 i hi,
      path.lt_size h.ascending (fun j hj => (h.ascending 0 j hj).2) i hi⟩

end AtRest

/-- The queue with its sentinel installed. -/
def withSentinel (q : Queue α) : Queue α :=
  match q.head with
  | none => { q.allocate {} with head := some q.nodes.size }
  | some _ => q

/-- The queue with one more node behind the given last one. -/
def extend (q : Queue α) (x : α) (last : Nat) : Queue α :=
  (q.allocate { payload := some x }).setNext last (some q.nodes.size)

/-- The queue without its first node: the node is cut off, emptied and locked for good. -/
def detach (q : Queue α) (i : Nat) : Queue α :=
  (q.setNext 0 (q.next? i)).update i fun _ => { tag := .popping }

theorem AtRest.withSentinel {q : Queue α} (h : q.AtRest) :
    q.withSentinel.AtRest ∧ q.withSentinel.head = some 0 ∧ q.withSentinel.linked = q.linked := by
  unfold Queue.withSentinel
  split
  next hhead =>
    have hnodes := h.nodes_eq_empty hhead
    have hsize : q.nodes.size = 0 := by simp [hnodes]
    refine ⟨⟨by simp [hsize], by simp [hnodes], ?_, by simp [linked, hnodes, next?, follow], ?_⟩,
      by simp [hsize], by simp [linked, hhead, hnodes, next?, follow]⟩
    · intro i j hij
      rcases i with _ | i <;> simp [next?, hnodes] at hij
    · intro i hi _ node hnode
      rcases i with _ | i
      · exact absurd rfl hi
      · simp [hnodes] at hnode
  next s hhead =>
    obtain rfl := (h.head_eq_zero hhead).1
    exact ⟨h, hhead, rfl⟩

theorem AtRest.toList_withSentinel {q : Queue α} (h : q.AtRest) :
    q.withSentinel.toList = q.toList := by
  cases hhead : q.head with
  | some s =>
    have hw : q.withSentinel = q := by simp [Queue.withSentinel, hhead]
    rw [hw]
  | none =>
    have hl : q.linked = [] := by simp [linked, hhead]
    simp [toList, h.withSentinel.2.2, hl]

/-- The last of the sentinel and the linked nodes. -/
def lastNode (q : Queue α) : Nat := (0 :: q.linked).getLast (by simp)

/-- A path grows by the node that its last node is made to lead to. -/
theorem Path.snoc {q q' : Queue α} {i n : Nat} {l : List Nat} (h : q.Path (q.next? i) l)
    (asc : (i :: l).Pairwise (· < ·))
    (same : ∀ k, k ≠ (i :: l).getLast (by simp) → q'.next? k = q.next? k)
    (hlast : q'.next? ((i :: l).getLast (by simp)) = some n) (hn : q'.next? n = none) :
    q'.Path (q'.next? i) (l ++ [n]) := by
  induction l generalizing i with
  | nil => exact ⟨hlast, hn⟩
  | cons j l ih =>
    obtain ⟨hj, hl⟩ := h
    have asc' := List.pairwise_cons.1 asc
    have ne : i ≠ (j :: l).getLast (by simp) :=
      Nat.ne_of_lt (asc'.1 _ (List.getLast_mem (by simp)))
    have last_eq : (i :: j :: l).getLast (by simp) = (j :: l).getLast (by simp) := by simp
    refine ⟨?_, ih hl asc'.2 (by rwa [last_eq] at same) (by rwa [last_eq] at hlast)⟩
    rw [same i (by rwa [last_eq]), hj]

section Extend

variable {q : Queue α}

theorem getElem?_extend {q : Queue α} {last : Nat} (hlast : last < q.nodes.size) (x : α) (j : Nat) :
    (q.extend x last).nodes[j]?
      = if j = q.nodes.size then some { payload := some x }
        else if j = last then q.nodes[j]?.map fun node => { node with next := some q.nodes.size }
        else q.nodes[j]? := by
  simp only [extend, setNext, nodes_update, nodes_allocate, Array.getElem?_modify, Array.getElem?_push]
  grind

theorem AtRest.lastNode_lt (h : q.AtRest) (hhead : q.head = some 0) : q.lastNode < q.nodes.size := by
  have hmem : q.lastNode ∈ 0 :: q.linked := List.getLast_mem (by simp)
  rcases List.mem_cons.1 hmem with h0 | hl
  · rw [h0]
    exact (h.head_eq_zero hhead).2
  · exact (h.linked_lt hl).2

theorem AtRest.next?_lastNode (h : q.AtRest) (hhead : q.head = some 0) :
    q.next? q.lastNode = none :=
  (h.path hhead).next?_getLast

theorem AtRest.linked_extend (h : q.AtRest) (hhead : q.head = some 0) (x : α) :
    (q.extend x q.lastNode).linked = q.linked ++ [q.nodes.size] := by
  have hlt := h.lastNode_lt hhead
  have path := h.path hhead
  have next_eq (k : Nat) : (q.extend x q.lastNode).next? k
      = if k = q.lastNode then some q.nodes.size else q.next? k := by
    simp only [next?, getElem?_extend hlt]
    grind
  have hpath : (q.extend x q.lastNode).Path ((q.extend x q.lastNode).next? 0)
      (q.linked ++ [q.nodes.size]) := by
    refine path.snoc (path.pairwise h.ascending) (fun k hk => ?_) ?_ ?_
    · rw [next_eq]
      exact if_neg hk
    · exact (next_eq _).trans (if_pos rfl)
    · rw [next_eq, if_neg (by omega)]
      simp [next?]
  have hsize : (q.extend x q.lastNode).nodes.size = q.nodes.size + 1 := by simp [extend, setNext]
  have hlen : q.linked.length ≤ q.nodes.size := length_linked_le q
  have hl : (q.extend x q.lastNode).linked
      = (q.extend x q.lastNode).follow (q.nodes.size + 1) ((q.extend x q.lastNode).next? 0) := by
    simp [linked, ← hsize, show (q.extend x q.lastNode).head = some 0 from hhead]
  rw [hl]
  exact hpath.follow (by simpa using hlen)

/-- Extending a queue at rest behind its last node adds the payload at the back. -/
theorem AtRest.extend (h : q.AtRest) (hhead : q.head = some 0) (x : α) :
    (q.extend x q.lastNode).AtRest ∧ (q.extend x q.lastNode).toList = q.toList ++ [x] := by
  have hlt := h.lastNode_lt hhead
  have hl := h.linked_extend hhead x
  have hnode := fun j => getElem?_extend hlt x j
  have hsize : (q.extend x q.lastNode).nodes.size = q.nodes.size + 1 := by
    simp [Queue.extend, setNext]
  have hmem : ∀ i ∈ q.linked, i < q.nodes.size := fun i hi => (h.linked_lt hi).2
  have hpay : ∀ j, j < q.nodes.size → (q.extend x q.lastNode).payload? j = q.payload? j := by
    intro j hj
    simp only [payload?, hnode]
    grind
  refine ⟨⟨?_, ?_, ?_, ?_, ?_⟩, ?_⟩
  · rw [hsize, if_neg (by omega)]
    exact hhead
  · intro node hnode0
    have hs := h.sentinel
    have := (h.head_eq_zero hhead).2
    rw [hnode] at hnode0
    grind
  · intro i j hij
    have asc := h.ascending i j
    simp only [next?, hnode] at hij asc
    rw [hsize]
    grind
  · intro i hi node hni
    have hold := h.linked_node i
    rw [hl] at hi
    rw [hnode] at hni
    grind
  · intro i hi0 hi node hni
    have hold := h.unlinked_node i hi0
    rw [hl] at hi
    rw [hnode] at hni
    have hlast : q.lastNode ∈ 0 :: q.linked := List.getLast_mem (by simp)
    grind
  · have hx : (q.extend x q.lastNode).payload? q.nodes.size = some x := by
      simp [payload?, hnode]
    simp only [toList, hl, List.filterMap_append, List.filterMap_cons, hx, List.filterMap_nil]
    congr 1
    exact filterMap_payload?_congr fun i hi => hpay i (hmem i hi)

end Extend

/-! ## Appending -/

/-- Walking along a path takes one access a node and one more at the last. -/
theorem runAlone_seek {q : Queue α} (x : α) (s : Nat) {i : Nat} {l : List Nat}
    (h : q.Path (q.next? i) l) (k : Nat) :
    runAlone step (l.length + 1 + k) q (.seek x s i)
      = runAlone step k q (.lockLast x s ((i :: l).getLast (by simp))) := by
  induction l generalizing i with
  | nil =>
    have hi : q.next? i = none := h
    rw [show ([] : List Nat).length + 1 + k = k + 1 by simp; omega]
    simp [runAlone, step, hi]
  | cons j l ih =>
    obtain ⟨hj, hl⟩ := h
    rw [show (j :: l).length + 1 + k = (l.length + 1 + k) + 1 by simp; omega]
    simpa [runAlone, step, hj] using ih hl

/-- Locking a last node, linking behind it and unlocking it extends the queue. -/
theorem runAlone_lockLast {q : Queue α} (x : α) (s : Nat) {last : Nat}
    (htag : q.tag? last = some .chained) (hnext : q.next? last = none) (k : Nat) :
    runAlone step (k + 4) q (.lockLast x s last) = some (q.extend x last, .appended) := by
  have hlt : last < q.nodes.size := by
    rcases Nat.lt_or_ge last q.nodes.size with h | h
    · exact h
    · simp [tag?, Array.getElem?_eq_none h] at htag
  have hnext' : (q.setTag last .appending).next? last = none := by
    simp only [next?, setTag, nodes_update, Array.getElem?_modify] at hnext ⊢
    grind
  have hnodes : (q.nodes[last]?.map Node.tag) = some .chained := htag
  simp only [runAlone, step, tryLock_of_chained _ htag, hnext', Option.some.injEq, Prod.mk.injEq,
    and_true]
  refine Queue.ext rfl (Array.ext_getElem? fun j => ?_)
  simp only [extend, setNext, setTag, nodes_update, nodes_allocate, Array.getElem?_modify,
    Array.getElem?_push, Array.size_modify]
  grind

theorem append_of_head {q : Queue α} (h : q.AtRest) (hhead : q.head = some 0) (x : α) :
    q.append x = q.extend x q.lastNode := by
  have path := h.path hhead
  have htag : q.tag? q.lastNode = some .chained := by
    have hlt := h.lastNode_lt hhead
    have hmem : q.lastNode ∈ 0 :: q.linked := List.getLast_mem (by simp)
    have hs := h.sentinel
    have hn := h.linked_node q.lastNode
    simp only [tag?]
    grind
  have hlen := length_linked_le q
  have run : runAlone step (q.linked.length + 1 + (4 + (q.nodes.size - q.linked.length + 2)) + 1) q
      (.enter x) = some (q.extend x q.lastNode, .appended) := by
    rw [runAlone]
    simp only [step, hhead]
    rw [runAlone_seek x 0 path, Nat.add_comm 4]
    exact runAlone_lockLast x 0 htag (h.next?_lastNode hhead) _
  rw [show q.linked.length + 1 + (4 + (q.nodes.size - q.linked.length + 2)) + 1 = q.nodes.size + 8 by
    omega] at run
  simp [append, run]

theorem append_eq_extend {q : Queue α} (h : q.AtRest) (x : α) :
    q.append x = q.withSentinel.extend x q.withSentinel.lastNode := by
  cases hhead : q.head with
  | some s =>
    obtain rfl := (h.head_eq_zero hhead).1
    have hw : q.withSentinel = q := by simp [withSentinel, hhead]
    rw [hw, append_of_head h hhead x]
  | none =>
    obtain rfl : q = {} := ext hhead (h.nodes_eq_empty hhead)
    rfl

/-- Appending to a queue at rest leaves it at rest. -/
theorem AtRest.append {q : Queue α} (h : q.AtRest) (x : α) : (q.append x).AtRest := by
  rw [append_eq_extend h]
  exact (h.withSentinel.1.extend h.withSentinel.2.1 x).1

/-- Appending adds one payload at the back. -/
theorem toList_append {q : Queue α} (h : q.AtRest) (x : α) :
    (q.append x).toList = q.toList ++ [x] := by
  rw [append_eq_extend h, (h.withSentinel.1.extend h.withSentinel.2.1 x).2, h.toList_withSentinel]

/-! ## Taking -/

theorem take?_of_linked_nil {q : Queue α} (h : q.AtRest) (hl : q.linked = []) :
    q.take? = (q, none) := by
  cases hhead : q.head with
  | none => simp [take?, runAlone, step, hhead]
  | some s =>
    obtain rfl := (h.head_eq_zero hhead).1
    have path := h.path hhead
    rw [hl] at path
    have hn : q.next? 0 = none := path
    simp [take?, runAlone, step, hhead, hn]

@[simp] theorem next?_setTag (q : Queue α) (i : Nat) (t : Tag) (j : Nat) :
    (q.setTag i t).next? j = q.next? j := by
  simp only [next?, setTag, nodes_update, Array.getElem?_modify]
  grind

@[simp] theorem payload?_setTag (q : Queue α) (i : Nat) (t : Tag) (j : Nat) :
    (q.setTag i t).payload? j = q.payload? j := by
  simp only [payload?, setTag, nodes_update, Array.getElem?_modify]
  grind

@[simp] theorem payload?_setNext (q : Queue α) (i : Nat) (n : Option Nat) (j : Nat) :
    (q.setNext i n).payload? j = q.payload? j := by
  simp only [payload?, setNext, nodes_update, Array.getElem?_modify]
  grind

theorem tag?_setTag_of_ne (q : Queue α) {i j : Nat} (h : i ≠ j) (t : Tag) :
    (q.setTag i t).tag? j = q.tag? j := by
  simp only [tag?, setTag, nodes_update, Array.getElem?_modify]
  grind

theorem AtRest.head_of_linked {q : Queue α} (h : q.AtRest) {i : Nat} (hi : i ∈ q.linked) :
    q.head = some 0 := by
  cases hhead : q.head with
  | none => simp [linked, hhead] at hi
  | some s => rw [(h.head_eq_zero hhead).1]

theorem AtRest.tag?_eq {q : Queue α} (h : q.AtRest) {i : Nat} (hi : i ∈ 0 :: q.linked)
    (hlt : i < q.nodes.size) : q.tag? i = some .chained := by
  have hs := h.sentinel
  have hn := h.linked_node i
  simp only [tag?]
  grind

theorem take?_of_linked_cons {q : Queue α} (h : q.AtRest) {i : Nat} {l : List Nat}
    (hl : q.linked = i :: l) : q.take? = (q.detach i, q.payload? i) := by
  have hi : i ∈ q.linked := by simp [hl]
  have hhead := h.head_of_linked hi
  have hlt := h.linked_lt hi
  have path := h.path hhead
  rw [hl] at path
  have hfirst : q.next? 0 = some i := path.1
  have htag0 : q.tag? 0 = some .chained := h.tag?_eq (by simp) (h.head_eq_zero hhead).2
  have htagi : (q.setTag 0 .popping).tag? i = some .chained := by
    rw [tag?_setTag_of_ne q (by omega)]
    exact h.tag?_eq (by simp [hi]) hlt.2
  have hpay : ∃ x, q.payload? i = some x := by
    have hn := h.linked_node i hi
    have : q.nodes[i]? = some q.nodes[i] := Array.getElem?_eq_getElem hlt.2
    have := hn _ this
    exact ⟨_, by rw [payload?, ‹q.nodes[i]? = _›]; exact (Option.some_get this.2).symm⟩
  obtain ⟨x, hx⟩ := hpay
  have hrun : runAlone step 9 q (.search { wanted := fun _ _ => true })
      = some (q.detach i, .taken (some x) []) := by
    have hnode0 : (q.nodes[0]?.map Node.tag) = some .chained := htag0
    simp [runAlone, step, hhead, hfirst, tryLock_of_chained _ htag0, tryLock_of_chained _ htagi, hx]
    refine Queue.ext (by simp [detach, setNext, setTag, clearPayload])
      (Array.ext_getElem? fun j => ?_)
    simp only [detach, setNext, setTag, clearPayload, nodes_update, Array.getElem?_modify]
    grind
  simp [take?, hrun, hx]

theorem next?_detach {q : Queue α} {i : Nat} (hi : 0 < i) (hsize : i < q.nodes.size) (j : Nat) :
    (q.detach i).next? j
      = if j = 0 then q.next? i else if j = i then none else q.next? j := by
  simp only [next?, detach, setNext, nodes_update, Array.getElem?_modify]
  grind

theorem AtRest.linked_detach {q : Queue α} (h : q.AtRest) {i : Nat} {l : List Nat}
    (hl : q.linked = i :: l) : (q.detach i).linked = l := by
  have hi : i ∈ q.linked := by simp [hl]
  have hhead := h.head_of_linked hi
  have hlt := h.linked_lt hi
  have path := h.path hhead
  have asc := path.pairwise h.ascending
  rw [hl] at path asc
  have hnext := next?_detach hlt.1 hlt.2
  have hpath : (q.detach i).Path ((q.detach i).next? 0) l := by
    rw [hnext, if_pos rfl]
    refine path.2.congr fun j hj => ?_
    have h0 := (List.pairwise_cons.1 asc).1 j (by simp [hj])
    have h1 := (List.pairwise_cons.1 (List.pairwise_cons.1 asc).2).1 j hj
    rw [hnext, if_neg (by omega), if_neg (by omega)]
  have hlen := length_linked_le q
  rw [hl] at hlen
  have hsize : (q.detach i).nodes.size = q.nodes.size := by simp [detach, setNext]
  have hfollow : (q.detach i).linked = (q.detach i).follow q.nodes.size ((q.detach i).next? 0) := by
    simp [linked, ← hsize, show (q.detach i).head = some 0 from hhead]
  rw [hfollow]
  exact hpath.follow (by simp at hlen; omega)

/-- Detaching the first node of a queue at rest leaves it at rest without its first payload. -/
theorem AtRest.detach {q : Queue α} (h : q.AtRest) {i : Nat} {l : List Nat}
    (hl : q.linked = i :: l) :
    (q.detach i).AtRest ∧ (q.detach i).toList = l.filterMap q.payload? := by
  have hi : i ∈ q.linked := by simp [hl]
  have hhead := h.head_of_linked hi
  have hlt := h.linked_lt hi
  have path := h.path hhead
  have asc := path.pairwise h.ascending
  have hl' := h.linked_detach hl
  rw [hl] at path asc
  have hnotin : i ∉ l := fun hmem =>
    Nat.lt_irrefl i ((List.pairwise_cons.1 (List.pairwise_cons.1 asc).2).1 i hmem)
  have hpos : ∀ j ∈ l, 0 < j := fun j hj => (List.pairwise_cons.1 asc).1 j (by simp [hj])
  have hsize : (q.detach i).nodes.size = q.nodes.size := by simp [Queue.detach, setNext]
  have hnode : ∀ j, (q.detach i).nodes[j]?
      = if j = i then q.nodes[j]?.map fun _ => { tag := .popping }
        else if j = 0 then q.nodes[j]?.map fun node => { node with next := q.next? i }
        else q.nodes[j]? := by
    intro j
    simp only [Queue.detach, setNext, nodes_update, Array.getElem?_modify]
    grind
  have hnext := next?_detach hlt.1 hlt.2
  refine ⟨⟨?_, ?_, ?_, ?_, ?_⟩, ?_⟩
  · rw [hsize]
    exact h.head_eq
  · intro node hn
    have hs := h.sentinel
    rw [hnode] at hn
    grind
  · intro a b hab
    have h1 := h.ascending a b
    have h2 := h.ascending i b
    rw [hnext] at hab
    rw [hsize]
    grind
  · intro j hj node hn
    have hold := h.linked_node j
    rw [hl'] at hj
    rw [hnode] at hn
    grind
  · intro j hj0 hj node hn
    have hold := h.unlinked_node j hj0
    rw [hl'] at hj
    rw [hnode] at hn
    grind
  · simp only [toList, hl']
    refine filterMap_payload?_congr fun j hj => ?_
    simp only [payload?, hnode]
    grind

/-- Taking from a queue at rest leaves it at rest. -/
theorem AtRest.take? {q : Queue α} (h : q.AtRest) : q.take?.1.AtRest := by
  cases hl : q.linked with
  | nil => rw [take?_of_linked_nil h hl]; exact h
  | cons i l => rw [take?_of_linked_cons h hl]; exact (h.detach hl).1

/-- A take gives the first payload. -/
theorem take?_snd {q : Queue α} (h : q.AtRest) : q.take?.2 = q.toList.head? := by
  cases hl : q.linked with
  | nil => simp [take?_of_linked_nil h hl, toList, hl]
  | cons i l =>
    have hi : i ∈ q.linked := by simp [hl]
    have hn := h.linked_node i hi
    have hlt := (h.linked_lt hi).2
    rw [take?_of_linked_cons h hl, toList, hl]
    cases hp : q.payload? i with
    | some x => simp [hp]
    | none =>
      have := hn _ (Array.getElem?_eq_getElem hlt)
      simp [payload?, Array.getElem?_eq_getElem hlt] at hp
      simp [hp] at this

/-- A take removes the first payload and no other. -/
theorem toList_take? {q : Queue α} (h : q.AtRest) : q.take?.1.toList = q.toList.tail := by
  have hsnd := take?_snd h
  cases hl : q.linked with
  | nil => simp [take?_of_linked_nil h hl, toList, hl]
  | cons i l =>
    rw [take?_of_linked_cons h hl] at hsnd ⊢
    rw [(h.detach hl).2]
    simp only [toList, hl, List.filterMap_cons] at hsnd ⊢
    cases hp : q.payload? i with
    | some x => simp
    | none =>
      have hi : i ∈ q.linked := by simp [hl]
      have := h.linked_node i hi _ (Array.getElem?_eq_getElem (h.linked_lt hi).2)
      simp [payload?, Array.getElem?_eq_getElem (h.linked_lt hi).2] at hp
      simp [hp] at this

/-! ## Counting -/

/-- A queue at rest has as many linked nodes as it holds payloads. -/
theorem length_eq {q : Queue α} (h : q.AtRest) : q.length = q.toList.length := by
  have filled : ∀ i ∈ q.linked, (q.payload? i).isSome := by
    intro i hi
    have found := Array.getElem?_eq_getElem (h.linked_lt hi).2
    rw [payload?, found]
    exact (h.linked_node i hi _ found).2
  unfold length toList
  generalize q.linked = l at filled
  induction l with
  | nil => rfl
  | cons i l ih =>
    obtain ⟨x, hx⟩ := Option.isSome_iff_exists.1 (filled i (List.mem_cons_self ..))
    rw [List.filterMap_cons_some hx, List.length_cons, List.length_cons,
      ih fun j hj => filled j (List.mem_cons_of_mem _ hj)]

/-- Nothing is linked in a queue at rest that holds nothing. -/
theorem isEmpty_eq {q : Queue α} (h : q.AtRest) : q.isEmpty = q.toList.isEmpty := by
  have none : q.isEmpty = q.linked.isEmpty := by
    cases hhead : q.head with
    | none => simp [isEmpty, linked, hhead]
    | some s =>
      obtain rfl := (h.head_eq_zero hhead).1
      have path := h.path hhead
      cases hl : q.linked with
      | nil =>
        rw [hl] at path
        simp [isEmpty, hhead, show q.next? 0 = none from path]
      | cons i l =>
        rw [hl] at path
        simp [isEmpty, hhead, path.1]
  have length := length_eq h
  rw [none]
  unfold Queue.length at length
  cases hl : q.linked <;> cases hc : q.toList <;> simp_all

end Eventual.Queue
