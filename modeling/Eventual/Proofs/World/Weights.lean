import Mathlib.Algebra.Ring.Nat
import Eventual.Script.Weight
import Eventual.Proofs.Promise.Steps
import Eventual.Proofs.World.References

/-!
# What is waiting weighs

What a world has still in store, weighed: the items that are chained on all completions, the bodies
of the wakers that have not been woken yet, and the payloads that are queued. Nothing but appending
and making a waker adds to it, and taking, waking and dropping lower it.

A call on a completion weighs what it has left to do, `Point.weightBy`. A step of it pays with its
own weight, or with what it takes from a queue (`Site.Does.pays`): registering an item moves the
weight of the item from the call to the queue, and taking it moves that weight on to the call of the
item.
-/

namespace Eventual

/-! ## Sums over arrays -/

/-- A sum over the elements of an array. -/
def sumOf {τ : Type} (a : Array τ) (f : τ → Nat) : Nat := (a.toList.map f).sum

section Sums

variable {τ : Type}

theorem sumOf_push (a : Array τ) (x : τ) (f : τ → Nat) :
    sumOf (a.push x) f = sumOf a f + f x := by
  simp [sumOf]

/-- Replacing one element changes one summand. -/
theorem sumOf_set {a : Array τ} {i : Nat} {y : τ} (h : a[i]? = some y) (x : τ) (f : τ → Nat) :
    sumOf (a.setIfInBounds i x) f + f y = sumOf a f + f x := by
  have found : a.toList[i]? = some y := by simpa using h
  rw [sumOf, sumOf, Array.toList_setIfInBounds]
  clear h
  generalize a.toList = l at found
  induction l generalizing i with
  | nil => cases found
  | cons z l ih =>
    cases i with
    | zero =>
      obtain rfl : z = y := Option.some.inj found
      simp only [List.set_cons_zero, List.map_cons, List.sum_cons]
      omega
    | succ i =>
      have rest := ih (i := i) found
      simp only [List.set_cons_succ, List.map_cons, List.sum_cons]
      omega

/-- Replacing what a place holds, if there is such a place. -/
theorem sumOf_setIfInBounds_le (a : Array (Option τ)) (i : Nat) (x : Option τ)
    (f : Option τ → Nat) (nothing : f none = 0) :
    sumOf (a.setIfInBounds i x) f + f a[i]?.join ≤ sumOf a f + f x := by
  cases h : a[i]? with
  | some y => exact Nat.le_of_eq (sumOf_set h x f)
  | none =>
    have outside : a.size ≤ i := Array.getElem?_eq_none_iff.1 h
    rw [Array.setIfInBounds_eq_of_size_le outside]
    simp only [Option.join_none, nothing]
    omega

/-- A sum is no larger if no summand is. -/
theorem sumOf_le {a b : Array τ} {f : τ → Nat} (size : b.size = a.size)
    (le : ∀ (i : Nat) (x y : τ), a[i]? = some x → b[i]? = some y → f y ≤ f x) :
    sumOf b f ≤ sumOf a f := by
  have size' : b.toList.length = a.toList.length := size
  have le' : ∀ (i : Nat) (x y : τ), a.toList[i]? = some x → b.toList[i]? = some y → f y ≤ f x := by
    simpa using le
  unfold sumOf
  generalize a.toList = l, b.toList = l' at size' le'
  induction l generalizing l' with
  | nil =>
    obtain rfl := List.length_eq_zero_iff.1 size'
    exact Nat.le_refl _
  | cons x l ih =>
    obtain ⟨y, l', rfl⟩ := List.exists_cons_of_length_eq_add_one size'
    have first := le' 0 x y rfl rfl
    have others := ih l' (Nat.succ.inj size') fun i => le' (i + 1)
    simp only [List.map_cons, List.sum_cons]
    omega

end Sums

/-! ## Completions -/

section Actions

variable {α ι π π' ρ ρ' : Type}

/-- What an action takes from a queue. -/
def Action.takes (f : ι → Nat) : Action α ι π ρ → Nat
  | .call _ x _ _ => f x
  | .goto _ | .notice _ _ | .done _ | .refused _ _ => 0

/-- What an action adds to a queue. -/
def Action.adds (f : ι → Nat) : Action α ι π ρ → Nat
  | .notice (.registered _ x) _ => f x
  | .notice (.settled _) _ | .notice (.logged _) _ | .goto _ | .call _ _ _ _ | .done _
  | .refused _ _ => 0

@[simp] theorem Action.takes_map (f : ι → Nat) (g : π → π') (h : ρ → ρ') (a : Action α ι π ρ) :
    (a.map g h).takes f = a.takes f := by cases a <;> rfl

@[simp] theorem Action.adds_map (f : ι → Nat) (g : π → π') (h : ρ → ρ') (a : Action α ι π ρ) :
    (a.map g h).adds f = a.adds f := by
  cases a with
  | notice n p => cases n <;> rfl
  | _ => rfl

/-- What an action leaves to do: the weight of the point that it leads to and one more, that of the
item that it calls, or an answer or a panic to hand on. -/
def Action.leaves (f : ι → Nat) (w : π → Nat) : Action α ι π ρ → Nat
  | .goto p | .notice _ p => w p + 1
  | .call _ x _ p => w p + f x
  | .done _ | .refused _ _ => 2

end Actions

namespace Completion

variable {α ι : Type} {f : ι → Nat}

/-- What the items that wait weigh together. -/
def burden (f : ι → Nat) (c : Completion α ι) : Nat := (c.leftover.map f).sum

@[simp] theorem burden_empty (f : ι → Nat) : ({} : Completion α ι).burden f = 0 := rfl

theorem burden_setQueue (c : Completion α ι) (k : Kind) (q : Queue ι) :
    (c.setQueue k q).burden f + ((c.waiting k).map f).sum = c.burden f + (q.toList.map f).sum := by
  rcases k with (_ | _) | _ | _ <;>
    simp only [burden, leftover, waiting, queue, setQueue, List.map_append, List.sum_append] <;>
    omega

/-- The accesses that a call has left, apart from what it takes from queues. An item to be
registered weighs what it will weigh in its queue. -/
def Point.weightBy (f : ι → Nat) : Point α ι → Nat
  | .commit _ _ .look => 13
  | .commit _ _ .claim => 12
  | .commit _ _ .store => 11
  | .commit _ _ .publish => 10
  | .append _ x => 10 + f x
  | .announce _ | .consult _ => 9
  | .check _ _ => 8
  | .fetch _ _ => 7
  | .sweep _ _ _ .wakers _ => 6
  | .sweep _ _ _ .matching _ => 5
  | .sweep _ _ _ .always _ => 4
  | .report _ _ _ => 3
  | .finish _ => 2

section Effects

variable {c c' : Completion α ι} {p : Point α ι} {a : Action α ι (Point α ι) (Answer α)}

/-- What is taken no longer waits, and what is added does. -/
theorem Does.burden_eq (does : Does c p c' a) (rest : c.AtRest) :
    a.takes f + c'.burden f = c.burden f + a.adds f := by
  cases does with
  | @append k x =>
    have set := burden_setQueue (f := f) c k ((c.queue k).append x)
    rw [Queue.toList_append (rest k), List.map_append, List.sum_append] at set
    simp only [Action.takes, Action.adds, waiting] at set ⊢
    simp only [List.map_cons, List.map_nil, List.sum_cons, List.sum_nil] at set
    omega
  | @take s _ _ stage _ q x ht =>
    have set := burden_setQueue (f := f) c (stage.kind s) q
    rw [(rest.take?_some ht).2, List.map_cons, List.sum_cons] at set
    simp only [Action.takes, Action.adds]
    omega
  | @leave s _ _ stage _ q _ ht | @close s _ _ stage _ q ht =>
    have set := burden_setQueue (f := f) c (stage.kind s) q
    obtain ⟨-, before, after⟩ := rest.take?_none ht
    rw [before, after] at set
    simp only [Action.takes, Action.adds]
    omega
  | _ => simp only [Action.takes, Action.adds, burden, leftover, waiting, queue]; omega

/-- A step of a call pays for what it leaves to do. -/
theorem Does.pays (does : Does c p c' a) (rest : c.AtRest) :
    a.leaves f (Point.weightBy f) + c'.burden f ≤ p.weightBy f + c.burden f := by
  have burden := does.burden_eq (f := f) rest
  cases does with
  | @publish o drains =>
    simp only [Action.takes, Action.adds] at burden
    cases drains <;> simp only [Action.leaves, Point.weightBy, ite_true] <;> grind
  | @take _ _ _ stage | @close _ _ _ stage =>
    simp only [Action.takes, Action.adds] at burden
    cases stage <;> simp only [Action.leaves, Point.weightBy] <;> omega
  | @leave _ _ _ stage _ _ stage' _ next =>
    simp only [Action.takes, Action.adds] at burden
    cases stage <;> cases next <;> simp only [Action.leaves, Point.weightBy] <;> omega
  | _ =>
    simp only [Action.takes, Action.adds] at burden
    simp only [Action.leaves, Point.weightBy]
    omega

end Effects

end Completion

namespace Site

variable {α ι τ : Type} {f : ι → Nat}

/-- The accesses that a call has left, apart from what it takes from queues. -/
def Point.weightBy (f : ι → Nat) : Point α ι τ → Nat
  | .direct here => here.weightBy f
  | .look p => 14 + f p.relay
  | .store p => 13 + f p.relay
  | .subscribe p => 12 + f p.relay
  | .registering _ here => here.weightBy f + 1
  | .lookAgain _ => 2

theorem Point.weightBy_pos (p : Point α ι τ) (f : ι → Nat) : 0 < p.weightBy f := by
  cases p with
  | direct here =>
    unfold weightBy Completion.Point.weightBy
    dsimp only
    split <;> omega
  | _ =>
    simp only [weightBy]
    omega

variable {s s' : Site α ι τ} {p : Point α ι τ} {a : Action α ι (Point α ι τ) (Answer α)}

theorem Does.burden_eq (does : Does s p s' a) (rest : s.completion.AtRest) :
    a.takes f + s'.completion.burden f = s.completion.burden f + a.adds f := by
  cases does with
  | direct inner | registering inner =>
    rw [Action.takes_map, Action.adds_map]
    exact inner.burden_eq rest
  | registered inner => exact inner.burden_eq rest
  | _ => exact Nat.add_comm 0 _

/-- A step of a call pays for what it leaves to do. -/
theorem Does.pays (does : Does s p s' a) (rest : s.completion.AtRest) :
    a.leaves f (Point.weightBy f) + s'.completion.burden f
      ≤ p.weightBy f + s.completion.burden f := by
  cases does with
  | @direct here c a inner =>
    have pays := inner.pays (f := f) rest
    have same : (a.map Point.direct Answer.direct : Action α ι (Point α ι τ) _).leaves f
        (Point.weightBy f) = a.leaves f (Completion.Point.weightBy f) := by cases a <;> rfl
    rw [same]
    exact pays
  | @registering poll here c a inner _ =>
    have pays := inner.pays (f := f) rest
    have more : (a.map (Point.registering (τ := τ) poll) Answer.direct).leaves f (Point.weightBy f)
        ≤ a.leaves f (Completion.Point.weightBy f) + 1 := by
      cases a <;> simp only [Action.map, Action.leaves, Point.weightBy] <;> omega
    simp only [Point.weightBy]
    omega
  | @registered poll here c answer inner =>
    have pays := inner.pays (f := f) rest
    simp only [Action.leaves, Point.weightBy] at pays ⊢
    omega
  | ready | unready | store | subscribed | subscribe | readyAgain | pending =>
    simp only [Action.leaves, Point.weightBy, Completion.Point.weightBy, updateWatch]
    omega

end Site

/-! ## Worlds -/

/-- What an item pays for while it waits. -/
def Item.weight : Item → Nat
  | .callback cb _ => cb.weight
  | .countdown _ _ n => countdownWeight n
  | .waker _ | .relay _ => wakerWeight

/-- What a waker that has not been woken pays for. -/
def Waker.weight (x : Waker) : Nat := if x.spent then 0 else weightOf x.body

namespace World

variable {f : Item → Nat} {w w' : World}

/-- What is chained on all completions weighs together. -/
def chained (f : Item → Nat) (w : World) : Nat :=
  sumOf w.completions fun x => (x.getD {}).burden f

/-- How many payloads all queues hold together. -/
def queued (w : World) : Nat := sumOf w.queues fun x => (x.getD {}).toList.length

/-- What a world has still in store. -/
def weight (w : World) : Nat :=
  w.chained Item.weight + sumOf w.wakers Waker.weight + payloadWeight * w.queued

@[simp] theorem weight_record (w : World) (ev : Event) : (w.record ev).weight = w.weight := rfl

theorem weight_of_eq (completions : w'.completions = w.completions) (queues : w'.queues = w.queues)
    (wakers : w'.wakers = w.wakers) : w'.weight = w.weight := by
  rw [weight, weight, chained, chained, queued, queued, completions, queues, wakers]

/-- A completion becomes another one, and the world weighs more or less by the difference. -/
theorem chained_set_le (f : Item → Nat) (w : World) (c : CompletionId)
    (x : Option (Completion Value Item)) :
    chained f { w with completions := w.completions.setIfInBounds c x } + (w.completion c).burden f
      ≤ w.chained f + (x.getD {}).burden f :=
  sumOf_setIfInBounds_le w.completions c x (fun x => (x.getD {}).burden f) rfl

theorem queued_set_le (w : World) (q : Nat) (x : Option (Queue Value)) :
    queued { w with queues := w.queues.setIfInBounds q x } + (w.queue q).toList.length
      ≤ w.queued + (x.getD {}).toList.length :=
  sumOf_setIfInBounds_le w.queues q x (fun x => (x.getD {}).toList.length) rfl

theorem weight_setSite_le (w : World) (c : CompletionId) (s : Site Value Item WakerId) :
    (w.setSite c s).weight + (w.completion c).burden Item.weight
      ≤ w.weight + s.completion.burden Item.weight := by
  have set := chained_set_le Item.weight w c (some s.completion)
  simp only [weight, setSite, setCompletion, chained, queued, Option.getD_some] at set ⊢
  omega

theorem weight_setQueue_le (w : World) (q : Nat) (x : Queue Value) :
    (w.setQueue q x).weight + payloadWeight * (w.queue q).toList.length
      ≤ w.weight + payloadWeight * x.toList.length := by
  have set := queued_set_le w q (some x)
  simp only [weight, setQueue, chained, queued, Option.getD_some, payloadWeight] at set ⊢
  omega

theorem weight_vacate_le (w : World) (e : Entity) : (w.vacate e).weight ≤ w.weight := by
  cases e with
  | cell i => exact Nat.le_refl _
  | queue q =>
    have set := queued_set_le w q none
    simp only [weight, vacate, chained, queued, Option.getD_none, payloadWeight] at set ⊢
    have bare : ({} : Queue Value).toList.length = 0 := rfl
    omega
  | completion c =>
    have set := chained_set_le Item.weight w c none
    simp only [weight, vacate, chained, queued, Option.getD_none, Completion.burden_empty] at set ⊢
    omega

theorem weight_release_le (w : World) (held : List Ref) (r : Ref) :
    (w.release held r).weight ≤ w.weight := by
  unfold release
  split
  · exact Nat.le_refl _
  · split
    · exact Nat.le_refl _
    · exact weight_vacate_le w _

theorem weight_bind_le (w : World) (held : List Ref) (handle : String) (r : Ref) :
    (w.bind held handle r).weight ≤ w.weight := by
  unfold bind
  dsimp only
  split
  · exact Nat.le_refl _
  · exact weight_release_le { w with handles := (handle, r) :: unbound w.handles handle } held _

theorem weight_unbind_le {held : List Ref} {handle : String}
    (h : w.unbind? held handle = some w') : w'.weight ≤ w.weight := by
  obtain ⟨old, -, rfl⟩ := Option.map_eq_some_iff.1 h
  exact weight_release_le { w with handles := unbound w.handles handle } held old

theorem weight_addQueue (w : World) : (w.addQueue {}).1.weight = w.weight := by
  simp only [weight, addQueue, chained, queued, sumOf_push]
  rfl

theorem weight_addCompletion (w : World) {x : Completion Value Item}
    (empty : x.burden Item.weight = 0) : (w.addCompletion x).1.weight = w.weight := by
  simp only [weight, addCompletion, chained, queued, sumOf_push, Option.getD_some, empty]
  rfl

theorem weight_addWaker (w : World) (x : Waker) :
    (w.addWaker x).1.weight = w.weight + x.weight := by
  simp only [weight, addWaker, chained, queued, sumOf_push]
  omega

/-- Waking a waker moves the weight of its body from the world to the code that runs. -/
theorem weight_wake_le (w : World) (i : WakerId) :
    (w.wake i).1.weight + weightOf (w.wake i).2 ≤ w.weight := by
  unfold wake
  cases found : w.wakers[i]? with
  | none => exact Nat.le_refl _
  | some x =>
    have set := sumOf_set found { x with spent := true } Waker.weight
    simp only [weight, record, chained, queued] at set ⊢
    cases hspent : x.spent with
    | true =>
      simp only [Waker.weight, hspent, ite_true, weightOf] at set ⊢
      omega
    | false =>
      simp only [Waker.weight, hspent, ite_true, ite_false, Bool.false_eq_true] at set ⊢
      omega

end World

end Eventual
