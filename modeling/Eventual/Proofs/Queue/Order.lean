import Eventual.Queue.Lemmas

/-!
# Nodes in the order of their indices

A node is named when it is linked, so the order of the indices is the order of the
appends, and takes unlink in the same order. Hence the nodes of a queue fall into
three parts: the sentinel, the nodes that were unlinked, and the nodes that are
linked, each leading to the next. `front` is where the third part begins.

`InOrder` says this of a queue on which any operations are under way. It speaks of
locks in one clause only: an unlinked node keeps the tag of its take. That is what
keeps an append from linking behind it.

`toList_eq` reads the contents off the third part, and the lemmas after it say what
each kind of access does to the order, to `front` and to the contents.
-/

namespace Eventual.Queue

variable {α : Type}

/-! ## Single accesses, field by field -/

section Fields

variable (q : Queue α) (i j : Nat)

@[simp] theorem size_setTag (t : Tag) : (q.setTag i t).nodes.size = q.nodes.size := by
  simp [setTag]

@[simp] theorem size_setNext (n : Option Nat) : (q.setNext i n).nodes.size = q.nodes.size := by
  simp [setNext]

@[simp] theorem size_clearPayload : (q.clearPayload i).nodes.size = q.nodes.size := by
  simp [clearPayload]

@[simp] theorem size_allocate (node : Node α) :
    (q.allocate node).nodes.size = q.nodes.size + 1 := by
  simp [allocate]

@[simp] theorem head_setTag (t : Tag) : (q.setTag i t).head = q.head := rfl

@[simp] theorem head_setNext (n : Option Nat) : (q.setNext i n).head = q.head := rfl

@[simp] theorem head_clearPayload : (q.clearPayload i).head = q.head := rfl

theorem next?_setNext (n : Option Nat) :
    (q.setNext i n).next? j = if i = j ∧ j < q.nodes.size then n else q.next? j := by
  simp only [next?, setNext, nodes_update, Array.getElem?_modify]
  by_cases hij : i = j
  · by_cases hj : j < q.nodes.size
    · simp [hij, hj]
    · simp [hij, hj]
  · simp [hij]

theorem tag?_setTag (t : Tag) :
    (q.setTag i t).tag? j = if i = j then (q.tag? j).map fun _ => t else q.tag? j := by
  simp only [tag?, setTag, nodes_update, Array.getElem?_modify]
  by_cases hij : i = j
  · simp [hij, Function.comp_def]
  · simp [hij]

@[simp] theorem tag?_setNext (n : Option Nat) : (q.setNext i n).tag? j = q.tag? j := by
  simp only [tag?, setNext, nodes_update, Array.getElem?_modify]
  by_cases hij : i = j
  · simp [hij, Function.comp_def]
  · simp [hij]

@[simp] theorem tag?_clearPayload : (q.clearPayload i).tag? j = q.tag? j := by
  simp only [tag?, clearPayload, nodes_update, Array.getElem?_modify]
  by_cases hij : i = j
  · simp [hij, Function.comp_def]
  · simp [hij]

@[simp] theorem next?_clearPayload : (q.clearPayload i).next? j = q.next? j := by
  simp only [next?, clearPayload, nodes_update, Array.getElem?_modify]
  split
  next => cases q.nodes[j]? <;> rfl
  next => rfl

theorem payload?_clearPayload :
    (q.clearPayload i).payload? j = if i = j then none else q.payload? j := by
  simp only [payload?, clearPayload, nodes_update, Array.getElem?_modify]
  by_cases hij : i = j
  · simp [hij, Option.bind_map]
  · simp [hij]

theorem next?_allocate (node : Node α) :
    (q.allocate node).next? j = if j = q.nodes.size then node.next else q.next? j := by
  simp only [next?, nodes_allocate, Array.getElem?_push]
  by_cases hj : j = q.nodes.size
  · simp [hj]
  · simp [hj]

theorem tag?_allocate (node : Node α) :
    (q.allocate node).tag? j = if j = q.nodes.size then some node.tag else q.tag? j := by
  simp only [tag?, nodes_allocate, Array.getElem?_push]
  by_cases hj : j = q.nodes.size
  · simp [hj]
  · simp [hj]

theorem payload?_allocate (node : Node α) :
    (q.allocate node).payload? j = if j = q.nodes.size then node.payload else q.payload? j := by
  simp only [payload?, nodes_allocate, Array.getElem?_push]
  by_cases hj : j = q.nodes.size
  · simp [hj]
  · simp [hj]

theorem size_extend (last : Nat) (x : α) : (q.extend x last).nodes.size = q.nodes.size + 1 := by
  simp [extend]

theorem payload?_extend (last : Nat) (x : α) :
    (q.extend x last).payload? i = if i = q.nodes.size then some x else q.payload? i := by
  rw [extend, payload?_setNext, payload?_allocate]

theorem tag?_extend (last : Nat) (x : α) :
    (q.extend x last).tag? i = if i = q.nodes.size then some .chained else q.tag? i := by
  rw [extend, tag?_setNext, tag?_allocate]

theorem next?_size : q.next? q.nodes.size = none := by
  simp [next?]

theorem next?_extend {last : Nat} (hlt : last < q.nodes.size) (x : α) :
    (q.extend x last).next? i = if i = last then some q.nodes.size else q.next? i := by
  rw [extend, next?_setNext, next?_allocate]
  by_cases hi : i = last
  · subst hi
    rw [if_pos ⟨rfl, by simp; omega⟩, if_pos rfl]
  · rw [if_neg fun e => hi e.1.symm, if_neg hi]
    split
    next hsize => rw [hsize, next?_size]
    next => rfl

variable {q i j}

theorem lt_size_of_tag? {t : Tag} (h : q.tag? i = some t) : i < q.nodes.size := by
  unfold tag? at h
  obtain ⟨node, hnode, -⟩ := Option.map_eq_some_iff.1 h
  exact (Array.getElem?_eq_some_iff.1 hnode).1

theorem lt_size_of_next? {n : Nat} (h : q.next? i = some n) : i < q.nodes.size := by
  unfold next? at h
  obtain ⟨node, hnode, -⟩ := Option.bind_eq_some_iff.1 h
  exact (Array.getElem?_eq_some_iff.1 hnode).1

theorem lt_size_of_payload? {x : α} (h : q.payload? i = some x) : i < q.nodes.size := by
  unfold payload? at h
  obtain ⟨node, hnode, -⟩ := Option.bind_eq_some_iff.1 h
  exact (Array.getElem?_eq_some_iff.1 hnode).1

end Fields

/-! ## The three parts of a queue -/

/-- Where the linked nodes begin: at the first of them or, if there is none, at the
index of the next node to come. -/
def front (q : Queue α) : Nat := (q.next? 0).getD q.nodes.size

/-- The nodes stand in the order of their indices: sentinel, unlinked, linked. -/
structure InOrder (q : Queue α) : Prop where
  head_eq : q.head = if q.nodes.size = 0 then none else some 0
  payload_sentinel : q.payload? 0 = none
  front_pos : 0 < q.nodes.size → 0 < q.front
  next?_lt : ∀ i j, q.next? i = some j → j < q.nodes.size
  next?_linked : ∀ i, 0 < i → q.front ≤ i → i < q.nodes.size →
    q.next? i = if i + 1 < q.nodes.size then some (i + 1) else none
  payload_linked : ∀ i, 0 < i → q.front ≤ i → i < q.nodes.size → (q.payload? i).isSome
  tag_unlinked : ∀ i, 0 < i → i < q.front → q.tag? i = some .popping

namespace InOrder

variable {q : Queue α}

theorem empty : ({} : Queue α).InOrder where
  head_eq := rfl
  payload_sentinel := rfl
  front_pos := nofun
  next?_lt := by simp [next?]
  next?_linked := nofun
  payload_linked := nofun
  tag_unlinked := by
    intro i _ hi
    simp [front, next?] at hi

theorem front_le (h : q.InOrder) : q.front ≤ q.nodes.size := by
  unfold front
  cases hn : q.next? 0 with
  | none => exact Nat.le_refl _
  | some j => exact Nat.le_of_lt (h.next?_lt 0 j hn)

theorem next?_sentinel (h : q.InOrder) :
    q.next? 0 = if q.front < q.nodes.size then some q.front else none := by
  unfold front
  cases hn : q.next? 0 with
  | none => simp
  | some j =>
    have hj := h.next?_lt 0 j hn
    simp [hj]

theorem front_eq_of_next? {j : Nat} (hn : q.next? 0 = some j) : q.front = j := by
  simp [front, hn]

theorem head_eq_some (h : q.InOrder) {s : Nat} (hs : q.head = some s) :
    s = 0 ∧ 0 < q.nodes.size := by
  have := h.head_eq
  rw [hs] at this
  split at this
  next => cases this
  next hne => exact ⟨Option.some.inj this, Nat.pos_of_ne_zero hne⟩

theorem head_of_pos (h : q.InOrder) (hpos : 0 < q.nodes.size) : q.head = some 0 := by
  rw [h.head_eq, if_neg (Nat.pos_iff_ne_zero.1 hpos)]

theorem nodes_of_head (h : q.InOrder) (hs : q.head = none) : q.nodes = #[] := by
  have := h.head_eq
  rw [hs] at this
  split at this
  next hzero => exact Array.eq_empty_of_size_eq_zero hzero
  next => cases this

/-- A node that is locked by an append is not unlinked. -/
theorem front_le_of_tag? (h : q.InOrder) {i : Nat} {t : Tag} (ht : q.tag? i = some t)
    (hne : t ≠ .popping) (hi : 0 < i) : q.front ≤ i := by
  refine Nat.le_of_not_lt fun hlt => hne ?_
  have := h.tag_unlinked i hi hlt
  rw [ht] at this
  exact Option.some.inj this

/-- From a linked node the links visit all nodes behind it, in order. -/
theorem path_from (h : q.InOrder) (n : Nat) :
    ∀ i, 0 < i → q.front ≤ i → i + n = q.nodes.size →
      q.Path (if i < q.nodes.size then some i else none) (List.range' i n) := by
  induction n with
  | zero =>
    intro i _ _ hi
    rw [if_neg (by omega)]
    rfl
  | succ n ih =>
    intro i hpos hfront hi
    have hlt : i < q.nodes.size := by omega
    rw [if_pos hlt, List.range'_succ]
    refine ⟨rfl, ?_⟩
    rw [h.next?_linked i hpos hfront hlt]
    exact ih (i + 1) (by omega) (by omega) (by omega)

theorem path (h : q.InOrder) (hpos : 0 < q.nodes.size) :
    q.Path (q.next? 0) (List.range' q.front (q.nodes.size - q.front)) := by
  have hfront := h.front_pos hpos
  have hle := h.front_le
  rw [h.next?_sentinel]
  exact h.path_from _ q.front hfront (Nat.le_refl _) (by omega)

theorem linked_eq (h : q.InOrder) :
    q.linked = List.range' q.front (q.nodes.size - q.front) := by
  by_cases hpos : 0 < q.nodes.size
  · have hl : q.linked = q.follow q.nodes.size (q.next? 0) := by
      simp [linked, h.head_of_pos hpos]
    rw [hl]
    exact (h.path hpos).follow (by simp)
  · have hsize : q.nodes.size = 0 := by omega
    have hhead : q.head = none := by rw [h.head_eq, if_pos hsize]
    have hfront := h.front_le
    simp [linked, hhead, hsize]

/-- A queue in order holds the payloads of its linked nodes. -/
theorem toList_eq (h : q.InOrder) :
    q.toList = (List.range' q.front (q.nodes.size - q.front)).filterMap q.payload? := by
  rw [toList, h.linked_eq]

/-- A queue in order is empty when nothing follows the sentinel. -/
theorem toList_eq_nil_iff (h : q.InOrder) : q.toList = [] ↔ q.next? 0 = none := by
  have hle := h.front_le
  rw [h.next?_sentinel, h.toList_eq]
  by_cases hlt : q.front < q.nodes.size
  · have hpos := h.front_pos (by omega)
    obtain ⟨x, hx⟩ := Option.isSome_iff_exists.1 (h.payload_linked q.front hpos (Nat.le_refl _) hlt)
    obtain ⟨n, hn⟩ : ∃ n, q.nodes.size - q.front = n + 1 := ⟨q.nodes.size - q.front - 1, by omega⟩
    simp [hn, List.range'_succ, hx, hlt]
  · have hzero : q.nodes.size - q.front = 0 := by omega
    simp [hzero, hlt]

/-- The contents depend on the linked part alone. -/
theorem toList_congr {q' : Queue α} (h : q.InOrder) (h' : q'.InOrder)
    (size : q'.nodes.size = q.nodes.size) (front : q'.front = q.front)
    (payload : ∀ i, q.front ≤ i → q'.payload? i = q.payload? i) : q'.toList = q.toList := by
  rw [h.toList_eq, h'.toList_eq, size, front]
  refine filterMap_payload?_congr fun i hi => payload i ?_
  exact (List.mem_range'_1.1 hi).1

/-! ## What each kind of access does -/

/-- The sentinel and the linked nodes may be locked and unlocked. -/
theorem setTag (h : q.InOrder) {i : Nat} (hi : 0 < i → q.front ≤ i) (t : Tag) :
    (q.setTag i t).InOrder ∧ (q.setTag i t).front = q.front ∧
      (q.setTag i t).toList = q.toList := by
  have hfront : (q.setTag i t).front = q.front := by simp [front]
  have order : (q.setTag i t).InOrder := by
    refine ⟨by simpa using h.head_eq, by simpa using h.payload_sentinel, ?_, ?_, ?_, ?_, ?_⟩
    · simpa [hfront] using h.front_pos
    · simpa using h.next?_lt
    · simpa [hfront] using h.next?_linked
    · simpa [hfront] using h.payload_linked
    · intro j hj hlt
      rw [hfront] at hlt
      have hne : i ≠ j := fun e => absurd (hi (e ▸ hj)) (by omega)
      rw [tag?_setTag, if_neg hne]
      exact h.tag_unlinked j hj hlt
  exact ⟨order, hfront, h.toList_congr order (by simp) hfront (by simp)⟩

/-- The first node of all is the sentinel. -/
theorem install (h : q.InOrder) (hs : q.head = none) :
    ({ q.allocate {} with head := some q.nodes.size } : Queue α).InOrder ∧
      ({ q.allocate {} with head := some q.nodes.size } : Queue α).toList = q.toList := by
  obtain rfl : q = {} := Queue.ext hs (h.nodes_of_head hs)
  have hsize : (({} : Queue α).allocate {}).nodes.size = 1 := rfl
  refine ⟨⟨rfl, rfl, ?_, ?_, ?_, ?_, ?_⟩, rfl⟩
  · intro _
    exact Nat.one_pos
  · intro i j hij
    rcases i with _ | i
    · cases hij
    · simp [next?, allocate] at hij
  · intro i hpos _ hlt
    exact absurd hlt (by simp only [hsize]; omega)
  · intro i hpos _ hlt
    exact absurd hlt (by simp only [hsize]; omega)
  · intro i hpos hlt
    exact absurd (show i < 1 from hlt) (by omega)

section Extend

variable {last : Nat} (x : α)

/-- A linked node without a next one is the newest node of all. -/
theorem last_iff (h : q.InOrder) (hlt : last < q.nodes.size) (hlast : 0 < last → q.front ≤ last)
    (hnext : q.next? last = none) {i : Nat} (hpos : 0 < i) (hfront : q.front ≤ i) :
    i = last ↔ i + 1 = q.nodes.size := by
  have newest : 0 < last → last + 1 = q.nodes.size := by
    intro hl
    have := h.next?_linked last hl (hlast hl) hlt
    rw [hnext] at this
    split at this
    next => cases this
    next => omega
  refine ⟨fun e => e ▸ newest (e ▸ hpos), fun e => ?_⟩
  by_cases hl : 0 < last
  · have := newest hl
    omega
  · obtain rfl : last = 0 := by omega
    have := h.next?_sentinel
    rw [hnext, if_pos (by omega)] at this
    cases this

theorem front_extend (h : q.InOrder) (hlt : last < q.nodes.size)
    (hlast : 0 < last → q.front ≤ last) (hnext : q.next? last = none) :
    (q.extend x last).front = q.front := by
  unfold front
  rw [next?_extend _ _ hlt]
  by_cases h0 : 0 = last
  · subst h0
    simp [hnext]
  · have := hlast (by omega)
    rw [if_neg h0, h.next?_sentinel, if_pos (by omega)]
    rfl

/-- Linking behind the last node adds one payload at the back. -/
theorem extend (h : q.InOrder) (hlt : last < q.nodes.size) (hlast : 0 < last → q.front ≤ last)
    (hnext : q.next? last = none) :
    (q.extend x last).InOrder ∧ (q.extend x last).toList = q.toList ++ [x] := by
  have hfront := h.front_pos (by omega)
  have hle := h.front_le
  have front_eq := h.front_extend x hlt hlast hnext
  have order : (q.extend x last).InOrder := by
    constructor
    · rw [size_extend, if_neg (by omega)]
      exact h.head_of_pos (by omega)
    · rw [payload?_extend, if_neg (by omega)]
      exact h.payload_sentinel
    · intro _
      rwa [front_eq]
    · intro i j hij
      rw [next?_extend _ _ hlt] at hij
      rw [size_extend]
      split at hij
      next => cases hij; omega
      next => exact Nat.lt_succ_of_lt (h.next?_lt i j hij)
    · intro i hpos hfi hi
      rw [front_eq] at hfi
      rw [size_extend] at hi
      rw [next?_extend _ _ hlt, size_extend]
      by_cases hnew : i = q.nodes.size
      · rw [hnew, if_neg (by omega), next?_size, if_neg (by omega)]
      · have hiff := h.last_iff hlt hlast hnext hpos hfi
        by_cases hil : i = last
        · rw [if_pos hil, if_pos (by omega), hiff.1 hil]
        · have := mt hiff.2 hil
          rw [if_neg hil, h.next?_linked i hpos hfi (by omega), if_pos (by omega),
            if_pos (by omega)]
    · intro i hpos hfi hi
      rw [front_eq] at hfi
      rw [size_extend] at hi
      rw [payload?_extend]
      split
      next => rfl
      next hne => exact h.payload_linked i hpos hfi (by omega)
    · intro i hpos hi
      rw [front_eq] at hi
      rw [tag?_extend, if_neg (by omega)]
      exact h.tag_unlinked i hpos hi
  refine ⟨order, ?_⟩
  rw [order.toList_eq, h.toList_eq, front_eq, size_extend, Nat.sub_add_comm hle,
    List.range'_concat, List.filterMap_append]
  congr 1
  · refine filterMap_payload?_congr fun i hi => ?_
    have := (List.mem_range'_1.1 hi).2
    rw [payload?_extend, if_neg (by omega)]
  · have : q.front + (q.nodes.size - q.front) = q.nodes.size := by omega
    simp [this, payload?_extend]

end Extend

section Unlink

variable {node : Nat}

theorem front_unlink (h : q.InOrder) (hnode : q.next? 0 = some node) :
    (q.setNext 0 (q.next? node)).front = node + 1 := by
  have hpos := h.front_pos (Nat.lt_of_le_of_lt (Nat.zero_le _) (h.next?_lt 0 node hnode))
  have hlt := h.next?_lt 0 node hnode
  obtain rfl := front_eq_of_next? hnode
  unfold front
  rw [next?_setNext, if_pos ⟨rfl, by omega⟩, size_setNext]
  rw [show (q.next? 0).getD q.nodes.size = q.front from rfl,
    h.next?_linked q.front hpos (Nat.le_refl _) hlt]
  split
  next => rfl
  next => simp; omega

/-- Making the sentinel lead past the first node removes the front payload. -/
theorem unlink (h : q.InOrder) (hnode : q.next? 0 = some node)
    (htag : q.tag? node = some .popping) :
    (q.setNext 0 (q.next? node)).InOrder ∧
      ∃ x, q.payload? node = some x ∧ q.toList = x :: (q.setNext 0 (q.next? node)).toList := by
  have hlt := h.next?_lt 0 node hnode
  have hpos : 0 < node := by
    have := h.front_pos (by omega)
    rwa [front_eq_of_next? hnode] at this
  have front_eq := h.front_unlink hnode
  have hfront := front_eq_of_next? hnode
  have order : (q.setNext 0 (q.next? node)).InOrder := by
    refine ⟨by simpa using h.head_eq, by simpa using h.payload_sentinel, ?_, ?_, ?_, ?_, ?_⟩
    · intro _
      omega
    · intro i j hij
      rw [next?_setNext] at hij
      rw [size_setNext]
      split at hij
      next => exact h.next?_lt node j hij
      next => exact h.next?_lt i j hij
    · intro i hi hfi hsize
      rw [front_eq] at hfi
      rw [size_setNext] at hsize ⊢
      rw [next?_setNext, if_neg (by omega)]
      exact h.next?_linked i hi (by omega) hsize
    · intro i hi hfi hsize
      rw [front_eq] at hfi
      rw [size_setNext] at hsize
      rw [payload?_setNext]
      exact h.payload_linked i hi (by omega) hsize
    · intro i hi hlt'
      rw [front_eq] at hlt'
      rw [tag?_setNext]
      by_cases he : i = node
      · rw [he, htag]
      · exact h.tag_unlinked i hi (by omega)
  obtain ⟨x, hx⟩ := Option.isSome_iff_exists.1 (h.payload_linked node hpos (by omega) hlt)
  refine ⟨order, x, hx, ?_⟩
  rw [order.toList_eq, h.toList_eq, front_eq, hfront, size_setNext]
  obtain ⟨n, hn⟩ : ∃ n, q.nodes.size - node = n + 1 := ⟨q.nodes.size - node - 1, by omega⟩
  rw [hn, List.range'_succ, List.filterMap_cons, hx, show q.nodes.size - (node + 1) = n by omega]
  exact congrArg (x :: ·) (filterMap_payload?_congr fun i _ => (payload?_setNext q 0 _ i).symm)

end Unlink

/-- What happens to an unlinked node does not show in the contents. -/
theorem cut (h : q.InOrder) {node : Nat} (hpos : 0 < node) (hlt : node < q.front) :
    (q.setNext node none).InOrder ∧ (q.setNext node none).front = q.front ∧
      (q.setNext node none).toList = q.toList := by
  have next_eq : ∀ i, i ≠ node → (q.setNext node none).next? i = q.next? i := by
    intro i hi
    rw [next?_setNext, if_neg fun e => hi e.1.symm]
  have front_eq : (q.setNext node none).front = q.front := by
    unfold front
    rw [next_eq 0 (by omega), size_setNext]
  have order : (q.setNext node none).InOrder := by
    refine ⟨by simpa using h.head_eq, by simpa using h.payload_sentinel, ?_, ?_, ?_, ?_, ?_⟩
    · simpa [front_eq] using h.front_pos
    · intro i j hij
      rw [next?_setNext] at hij
      rw [size_setNext]
      split at hij
      next => cases hij
      next => exact h.next?_lt i j hij
    · intro i hi hfi hsize
      rw [front_eq] at hfi
      rw [size_setNext] at hsize ⊢
      rw [next_eq i (by omega)]
      exact h.next?_linked i hi hfi hsize
    · simpa [front_eq] using h.payload_linked
    · simpa [front_eq] using h.tag_unlinked
  exact ⟨order, front_eq, h.toList_congr order (by simp) front_eq (by simp)⟩

/-- Taking the payload out of an unlinked node does not show in the contents. -/
theorem clearPayload (h : q.InOrder) {node : Nat} (hlt : node < q.front) :
    (q.clearPayload node).InOrder ∧ (q.clearPayload node).front = q.front ∧
      (q.clearPayload node).toList = q.toList := by
  have front_eq : (q.clearPayload node).front = q.front := by simp [front]
  have payload_eq : ∀ i, q.front ≤ i → (q.clearPayload node).payload? i = q.payload? i := by
    intro i hi
    rw [payload?_clearPayload, if_neg (by omega)]
  have order : (q.clearPayload node).InOrder := by
    refine ⟨by simpa using h.head_eq, ?_, ?_, by simpa using h.next?_lt, ?_, ?_, ?_⟩
    · rw [payload?_clearPayload, h.payload_sentinel, ite_self]
    · simpa [front_eq] using h.front_pos
    · simpa [front_eq] using h.next?_linked
    · intro i hi hfi hsize
      rw [front_eq] at hfi
      rw [payload_eq i hfi]
      exact h.payload_linked i hi hfi (by simpa using hsize)
    · simpa [front_eq] using h.tag_unlinked
  exact ⟨order, front_eq, h.toList_congr order (by simp) front_eq payload_eq⟩

end InOrder

end Eventual.Queue
