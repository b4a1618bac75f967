import Eventual.Queue.Lemmas

/-!
# Programs that use one queue

What a program with one thread can do with a queue, move by move. A *search* takes one payload
after another and offers each to a predicate. While a payload is on offer it is no longer in the
queue, and the predicate may do anything before it answers: append, take, or search in the same
queue, so that payloads are on offer one inside the other. Then it accepts the payload, rejects it
or panics. A rejected payload is dropped before the next one is taken. After a panic the code
around the search goes on, or panics as well.

A `Storage` says how a queue is kept: as the `linked` queue, or as a `plain` list. A `Client` is a
program: it decides on its next move by what it has been told so far. Whatever the program, the
linked queue and the plain list tell it the same, `play_linked`, and every payload that was
appended is in one place, `play_balanced`.
-/

namespace Eventual.Queue

variable {σ α : Type}

/-- What a program can do with a queue. The answers of a predicate are for the payload that was
put on offer last. -/
inductive Move (α : Type) where
  | append (x : α)
  | pop
  | search
  | accept
  | reject
  | panic
  | isEmpty
  | length
  | drop

/-- What a program is told. -/
inductive Told (α : Type) where
  | unit
  | popped (x : Option α)
  | offered (x : α)
  | unwound
  | flag (b : Bool)
  | count (n : Nat)

/-- How a payload came to its end: it was handed to the program, rejected, dropped by a panic of
the predicate it was offered to, or dropped with the queue. -/
inductive Fate where
  | returned
  | rejected
  | unwound
  | left
  deriving DecidableEq

/-- A way to keep a queue. -/
structure Storage (σ α : Type) where
  empty : σ
  append : σ → α → σ
  take? : σ → σ × Option α
  length : σ → Nat
  isEmpty : σ → Bool
  toList : σ → List α

/-- The linked queue. A new one has no sentinel. -/
def Storage.linked : Storage (Queue α) α where
  empty := {}
  append := Queue.append
  take? := Queue.take?
  length := Queue.length
  isEmpty := Queue.isEmpty
  toList := Queue.toList

/-- A plain list, front to back. -/
def Storage.plain : Storage (List α) α where
  empty := []
  append xs x := xs ++ [x]
  take? xs := (xs.tail, xs.head?)
  length := List.length
  isEmpty := List.isEmpty
  toList := id

/-- A queue in use: what it is kept in, the payloads on offer, the last one first, all payloads
that were ever appended, those that came to their end, and whether the queue was dropped. -/
structure Usage (σ α : Type) where
  store : σ
  offered : List α := []
  appended : List α := []
  parted : List (Fate × α) := []
  gone : Bool := false

namespace Usage

variable (S : Storage σ α)

/-- Take the first payload, if there is one, and put it on offer. -/
def seek (u : Usage σ α) : Usage σ α × Told α :=
  match S.take? u.store with
  | (store, none) => ({ u with store }, .popped none)
  | (store, some x) => ({ u with store, offered := x :: u.offered }, .offered x)

/-- Take the first payload and hand it out. -/
def take (u : Usage σ α) : Usage σ α × Told α :=
  match S.take? u.store with
  | (store, none) => ({ u with store }, .popped none)
  | (store, some x) =>
    ({ u with store, parted := u.parted ++ [(.returned, x)] }, .popped (some x))

/-- The payload on offer comes to its end. -/
def part (u : Usage σ α) (fate : Fate) (x : α) (rest : List α) : Usage σ α :=
  { u with offered := rest, parted := u.parted ++ [(fate, x)] }

/-- The queue is dropped, and with it all that it holds, front to back. -/
def bury (u : Usage σ α) : Usage σ α :=
  { u with
    store := S.empty
    parted := u.parted ++ (S.toList u.store).map fun x => (.left, x)
    gone := true }

/-- What is done with the payload that was put on offer last, if there is one. -/
def onOffer {β : Type} (u : Usage σ α) (f : α → List α → β) : Option β :=
  match u.offered with
  | [] => none
  | x :: rest => some (f x rest)

/-- One move, and what the program is told; `none` for a move that cannot be made: there is no
payload on offer, or there is one when the queue is to be dropped, or it was dropped already. -/
def step (u : Usage σ α) (move : Move α) : Option (Usage σ α × Told α) :=
  if u.gone then none
  else
    match move with
    | .append x =>
      some ({ u with store := S.append u.store x, appended := u.appended ++ [x] }, .unit)
    | .pop => some (u.take S)
    | .search => some (u.seek S)
    | .accept => u.onOffer fun x rest => (u.part .returned x rest, .popped (some x))
    | .reject => u.onOffer fun x rest => (u.part .rejected x rest).seek S
    | .panic => u.onOffer fun x rest => (u.part .unwound x rest, .unwound)
    | .isEmpty => some (u, .flag (S.isEmpty u.store))
    | .length => some (u, .count (S.length u.store))
    | .drop => if u.offered.isEmpty then some (u.bury S, .unit) else none

/-- Several moves, and what the program is told after each. -/
def plays (u : Usage σ α) : List (Move α) → Option (Usage σ α × List (Told α))
  | [] => some (u, [])
  | move :: moves =>
    match u.step S move with
    | none => none
    | some (u', told) => (plays u' moves).map fun (u'', more) => (u'', told :: more)

theorem plays_cons {u u' u'' : Usage σ α} {move : Move α} {moves : List (Move α)} {told : Told α}
    {more : List (Told α)} (first : u.step S move = some (u', told))
    (others : u'.plays S moves = some (u'', more)) :
    u.plays S (move :: moves) = some (u'', told :: more) := by
  simp only [plays, first, others, Option.map_some]

theorem plays_singleton {u u' : Usage σ α} {move : Move α} {told : Told α}
    (first : u.step S move = some (u', told)) : u.plays S [move] = some (u', [told]) :=
  plays_cons S first rfl

end Usage

/-! ## The linked queue against a plain list -/

namespace Usage

/-- The same usage of the plain list that the linked queue holds. -/
def toPlain (u : Usage (Queue α) α) : Usage (List α) α :=
  { u with store := u.store.toList }

/-- What the second of two moves leads to is what the first leads to, on the plain list. -/
def Agrees (next : Usage (Queue α) α × Told α) (next' : Usage (List α) α × Told α) : Prop :=
  next' = (next.1.toPlain, next.2) ∧ next.1.store.AtRest

theorem seek_agrees {u : Usage (Queue α) α} (rest : u.store.AtRest) :
    Agrees (u.seek .linked) (u.toPlain.seek .plain) := by
  have others := toList_take? rest
  have first := take?_snd rest
  have still := rest.take?
  simp only [seek, Storage.linked, Storage.plain, toPlain, ← others, ← first]
  generalize u.store.take? = taken at still
  rcases taken with ⟨q, _ | x⟩ <;> exact ⟨rfl, still⟩

theorem take_agrees {u : Usage (Queue α) α} (rest : u.store.AtRest) :
    Agrees (u.take .linked) (u.toPlain.take .plain) := by
  have others := toList_take? rest
  have first := take?_snd rest
  have still := rest.take?
  simp only [take, Storage.linked, Storage.plain, toPlain, ← others, ← first]
  generalize u.store.take? = taken at still
  rcases taken with ⟨q, _ | x⟩ <;> exact ⟨rfl, still⟩

theorem onOffer_agrees {u : Usage (Queue α) α} {f : α → List α → Usage (Queue α) α × Told α}
    {f' : α → List α → Usage (List α) α × Told α} (same : ∀ x rest, Agrees (f x rest) (f' x rest)) :
    Option.Rel Agrees (u.onOffer f) (u.toPlain.onOffer f') := by
  unfold onOffer
  rw [show u.toPlain.offered = u.offered from rfl]
  cases u.offered with
  | nil => exact .none
  | cons x rest => exact .some (same x rest)

/-- A move on the linked queue is the move on the plain list that it holds. -/
theorem step_agrees {u : Usage (Queue α) α} (rest : u.store.AtRest) (move : Move α) :
    Option.Rel Agrees (u.step .linked move) (u.toPlain.step .plain move) := by
  unfold step
  rw [show u.toPlain.gone = u.gone from rfl]
  split
  next => exact .none
  next =>
    cases move with
    | append x =>
      refine .some ⟨?_, rest.append x⟩
      simp only [toPlain, Storage.linked, Storage.plain, toList_append rest]
    | pop => exact .some (take_agrees rest)
    | search => exact .some (seek_agrees rest)
    | accept => exact onOffer_agrees fun _ _ => ⟨rfl, rest⟩
    | reject =>
      refine onOffer_agrees fun x others => ?_
      have parted : (u.part .rejected x others).store.AtRest := rest
      exact seek_agrees parted
    | panic => exact onOffer_agrees fun _ _ => ⟨rfl, rest⟩
    | isEmpty =>
      refine .some ⟨?_, rest⟩
      simp only [toPlain, Storage.linked, Storage.plain, isEmpty_eq rest]
    | length =>
      refine .some ⟨?_, rest⟩
      simp only [toPlain, Storage.linked, Storage.plain, length_eq rest]
    | drop =>
      dsimp only
      rw [show u.toPlain.offered = u.offered from rfl]
      split
      next => exact .some ⟨rfl, .empty⟩
      next => exact .none

/-! ## Every payload is in one place -/

/-- Every payload that was appended came to its end, is on offer, or is in the queue; a queue that
was dropped holds nothing, and nothing of it is on offer. -/
structure Balanced (u : Usage (List α) α) : Prop where
  perm : (u.parted.map Prod.snd ++ u.offered ++ u.store).Perm u.appended
  gone : u.gone = true → u.offered = [] ∧ u.store = []

theorem Balanced.of_perm {u u' : Usage (List α) α} (h : u.Balanced) (gone : u'.gone = false)
    (appended : u'.appended = u.appended)
    (same : (u'.parted.map Prod.snd ++ u'.offered ++ u'.store).Perm
      (u.parted.map Prod.snd ++ u.offered ++ u.store)) : u'.Balanced :=
  ⟨appended ▸ same.trans h.perm, fun h' => by simp [gone] at h'⟩

theorem Balanced.seek {u : Usage (List α) α} (h : u.Balanced) (lives : u.gone = false) :
    (u.seek .plain).1.Balanced := by
  cases hstore : u.store with
  | nil =>
    refine h.of_perm ?_ ?_ (List.Perm.of_eq ?_) <;> simp [Usage.seek, Storage.plain, hstore, lives]
  | cons x xs =>
    refine h.of_perm (by simp [Usage.seek, Storage.plain, hstore, lives])
      (by simp [Usage.seek, Storage.plain, hstore]) ?_
    simp only [Usage.seek, Storage.plain, hstore, List.head?_cons, List.tail_cons, List.append_assoc]
    exact List.Perm.append_left _ List.perm_middle.symm

theorem Balanced.take {u : Usage (List α) α} (h : u.Balanced) (lives : u.gone = false) :
    (u.take .plain).1.Balanced := by
  cases hstore : u.store with
  | nil =>
    refine h.of_perm ?_ ?_ (List.Perm.of_eq ?_) <;> simp [Usage.take, Storage.plain, hstore, lives]
  | cons x xs =>
    refine h.of_perm (by simp [Usage.take, Storage.plain, hstore, lives])
      (by simp [Usage.take, Storage.plain, hstore]) ?_
    simp only [Usage.take, Storage.plain, hstore, List.head?_cons, List.tail_cons, List.map_append,
      List.map_cons, List.map_nil, List.append_assoc, List.singleton_append]
    exact List.Perm.append_left _ List.perm_middle.symm

theorem Balanced.part {u : Usage (List α) α} (h : u.Balanced) (lives : u.gone = false)
    {x : α} {rest : List α} (offered : u.offered = x :: rest) (fate : Fate) :
    (u.part fate x rest).Balanced := by
  refine h.of_perm lives rfl (List.Perm.of_eq ?_)
  simp [Usage.part, offered]

theorem Balanced.bury {u : Usage (List α) α} (h : u.Balanced) (offered : u.offered = []) :
    (u.bury .plain).Balanced := by
  refine ⟨?_, fun _ => ⟨offered, rfl⟩⟩
  have perm := h.perm
  simpa [Usage.bury, Storage.plain, offered, Function.comp_def] using perm

theorem mem_onOffer {β : Type} {u : Usage σ α} {f : α → List α → β} {next : β}
    (h : u.onOffer f = some next) : ∃ x rest, u.offered = x :: rest ∧ f x rest = next := by
  unfold onOffer at h
  split at h
  · cases h
  next x rest offered => exact ⟨x, rest, offered, Option.some.inj h⟩

theorem Balanced.step {u : Usage (List α) α} {move : Move α} {next : Usage (List α) α × Told α}
    (h : u.Balanced) (made : u.step .plain move = some next) : next.1.Balanced := by
  unfold Usage.step at made
  split at made
  · cases made
  next lives =>
    rw [Bool.not_eq_true] at lives
    cases move with
    | append x =>
      obtain rfl := Option.some.inj made
      refine ⟨?_, fun gone => by simp [lives] at gone⟩
      have perm := h.perm.append_right [x]
      simpa only [Storage.plain, List.append_assoc] using perm
    | pop =>
      obtain rfl := Option.some.inj made
      exact h.take lives
    | search =>
      obtain rfl := Option.some.inj made
      exact h.seek lives
    | accept =>
      obtain ⟨x, rest, offered, rfl⟩ := mem_onOffer made
      exact h.part lives offered .returned
    | reject =>
      obtain ⟨x, rest, offered, rfl⟩ := mem_onOffer made
      exact (h.part lives offered .rejected).seek lives
    | panic =>
      obtain ⟨x, rest, offered, rfl⟩ := mem_onOffer made
      exact h.part lives offered .unwound
    | isEmpty | length =>
      obtain rfl := Option.some.inj made
      exact h
    | drop =>
      dsimp only at made
      split at made
      next offered =>
        obtain rfl := Option.some.inj made
        exact h.bury (List.isEmpty_iff.1 offered)
      next => cases made

theorem Balanced.plays {u u' : Usage (List α) α} {moves : List (Move α)} {told : List (Told α)}
    (h : u.Balanced) (made : u.plays .plain moves = some (u', told)) : u'.Balanced := by
  induction moves generalizing u told with
  | nil =>
    obtain ⟨rfl, -⟩ := Prod.mk.inj (Option.some.inj made)
    exact h
  | cons move moves ih =>
    unfold Usage.plays at made
    split at made
    · cases made
    next u₁ told₁ first =>
      obtain ⟨⟨u₂, more⟩, others, same⟩ := Option.map_eq_some_iff.1 made
      obtain ⟨rfl, -⟩ := Prod.mk.inj same
      exact ih (h.step first) others

end Usage

/-! ## Programs -/

/-- A program that uses a queue: its next move, if it makes one, by what it has been told. -/
abbrev Client (α : Type) : Type := List (Told α) → Option (Move α)

/-- At most so many moves of a program on a new queue, and what it has been told. The program
stops at a move that cannot be made. -/
def Client.play (S : Storage σ α) (client : Client α) : Nat → Usage σ α × List (Told α)
  | 0 => ({ store := S.empty }, [])
  | n + 1 =>
    match client (client.play S n).2 with
    | none => client.play S n
    | some move =>
      match (client.play S n).1.step S move with
      | none => client.play S n
      | some (u, told) => (u, (client.play S n).2 ++ [told])

/-- A program makes the same moves on the linked queue and on a plain list and is told the same. -/
theorem play_linked (client : Client α) (n : Nat) :
    client.play .plain n = ((client.play .linked n).1.toPlain, (client.play .linked n).2) ∧
      (client.play .linked n).1.store.AtRest := by
  induction n with
  | zero => exact ⟨rfl, .empty⟩
  | succ n ih =>
    obtain ⟨same, rest⟩ := ih
    unfold Client.play
    rw [same]
    dsimp only
    cases client (client.play .linked n).2 with
    | none => exact ⟨rfl, rest⟩
    | some move =>
      have agrees := Usage.step_agrees rest move
      dsimp only
      generalize (client.play .linked n).1.step .linked move = made at agrees
      generalize (client.play .linked n).1.toPlain.step .plain move = made' at agrees
      cases agrees with
      | none => exact ⟨rfl, rest⟩
      | some next =>
        obtain ⟨rfl, still⟩ := next
        exact ⟨rfl, still⟩

/-- A predicate appends and takes while a payload is on offer, and then rejects it. -/
example : (Usage.plays .linked { store := {} }
      [.append 1, .append 2, .search, .append 3, .pop, .reject, .accept]).map Prod.snd
    = some [.unit, .unit, .offered 1, .unit, .popped (some 2), .offered 3, .popped (some 3)] := by
  rfl

/-- Whatever a program does, every payload that it appended came to its end, is on offer, or is
still queued. -/
theorem play_balanced (client : Client α) (n : Nat) : (client.play .plain n).1.Balanced := by
  induction n with
  | zero => exact ⟨.refl _, nofun⟩
  | succ n ih =>
    unfold Client.play
    split
    · exact ih
    · split
      · exact ih
      next next => exact ih.step next

end Eventual.Queue
