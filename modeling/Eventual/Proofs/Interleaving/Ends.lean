import Mathlib.Algebra.Ring.Nat
import Eventual.Proofs.Interleaving.NoneLost

/-!
# Every schedule comes to an end

A call on a completion makes a bounded number of accesses of its own, and three more
for every item that it takes: it takes the item, begins its call and comes back from
it. An item is taken once, so what a crew has left to do is bounded by the weights of
its points and calls and by three for each item that waits. Every step lowers that
bound, whichever thread makes it, which is `Stage.descends`. A crew that is not done
can always make a step, so no call is left hanging.
-/

namespace Eventual

theorem sum_map_set {τ : Type} {ts : List τ} {i : Nat} {t : τ} (h : ts[i]? = some t) (t' : τ)
    (f : τ → Nat) : ((ts.set i t').map f).sum + f t = (ts.map f).sum + f t' := by
  induction ts generalizing i with
  | nil => simp at h
  | cons u us ih =>
    cases i with
    | zero =>
      obtain rfl : u = t := by simpa using h
      simp only [List.set_cons_zero, List.map_cons, List.sum_cons]
      omega
    | succ i =>
      have rest := ih (i := i) (by simpa using h)
      simp only [List.set_cons_succ, List.map_cons, List.sum_cons]
      omega

namespace Crew

variable {σ κ π ρ : Type} {rules : Rules σ κ π ρ} {start c : Crew σ κ π ρ}

/-- One configuration comes right after another. -/
def Follows (rules : Rules σ κ π ρ) (c' c : Crew σ κ π ρ) : Prop :=
  ∃ i, c.step? rules i = some c'

theorem Reachable.answers_eq {s : σ} {calls : List (List κ)}
    (h : Reachable rules (initial s calls) c) (done : c.isDone = true) :
    c.threads.map (fun t => t.answers.map Prod.fst) = calls := by
  rw [← h.calls_eq]
  apply List.map_congr_left
  intro t ht
  obtain ⟨hcur, htodo⟩ := current_of_isDone done ht
  simp [Thread.calls, hcur, htodo]

/-- If every step lowers a weight, every schedule comes to an end. -/
theorem Reachable.acc {weight : Crew σ κ π ρ → Nat}
    (descends : ∀ c c', Reachable rules start c → Follows rules c' c → weight c' < weight c)
    (h : Reachable rules start c) : Acc (Follows rules) c := by
  induction hw : weight c using Nat.strongRecOn generalizing c with
  | _ n ih =>
    subst hw
    apply Acc.intro
    intro c' hfollows
    obtain ⟨i, hstep⟩ := hfollows
    exact ih _ (descends c c' h ⟨i, hstep⟩) (h.step i hstep) rfl

end Crew

/-! ## What a call has left to do -/

/-- What an action leaves to do. The item that it calls is begun and ended. -/
def Action.weigh {α ι π ρ : Type} (w : π → Nat) : Action α ι π ρ → Nat
  | .goto p | .notice _ p => w p
  | .call _ _ _ p => w p + 2
  | .done _ | .refused _ _ => 0

theorem Action.weigh_map {α ι π π' ρ ρ' : Type} (w : π' → Nat) (f : π → π') (g : ρ → ρ')
    (a : Action α ι π ρ) : (a.map f g).weigh w = a.weigh (w ∘ f) := by cases a <;> rfl

def Kind.total (f : Kind → Nat) : Nat :=
  f (.on .success) + f (.on .failure) + f .always + f .waker

theorem Kind.total_single {ι : Type} (k : Kind) (x : ι) :
    Kind.total (fun k' => (if k = k' then [x] else []).length) = 1 := by
  rcases k with (_ | _) | _ | _ <;> rfl

namespace Completion

variable {α ι : Type}

def load (c : Completion α ι) : Nat := Kind.total fun k => (c.waiting k).length

/-- How many accesses a drain has left from a stage on, apart from the items it takes. -/
def Stage.weight : Stage → Nat
  | .wakers => 5
  | .matching => 4
  | .always => 3

/-- How many accesses a call has left, apart from the items that it takes. An append
also answers for the item that it puts into a queue. -/
def Point.weight : Point α ι → Nat
  | .commit _ _ .look | .append _ _ => 12
  | .commit _ _ .claim => 11
  | .commit _ _ .store => 10
  | .commit _ _ .publish => 9
  | .announce _ | .consult _ => 8
  | .check _ _ => 7
  | .fetch _ _ => 6
  | .sweep _ _ _ stage _ => stage.weight
  | .report _ _ _ => 2
  | .finish _ => 1

section Effects

variable {c c' : Completion α ι} {p : Point α ι} {a : Action α ι (Point α ι) (Answer α)}

/-- What a step takes no longer waits, and what it registers does. -/
theorem Does.load_eq (does : Does c p c' a) (h : c.AtRest) :
    Kind.total (fun k => (a.called k).length) + c'.load
      = c.load + Kind.total fun k => (a.registered k).length := by
  have queue := fun k => congrArg List.length (does.waiting_eq h k)
  simp only [List.length_append] at queue
  have success := queue (.on .success)
  have failure := queue (.on .failure)
  have always := queue .always
  have waker := queue .waker
  simp only [load, Kind.total]
  omega

/-- A step lowers what its call and the items that wait leave to do. -/
theorem Does.descends (does : Does c p c' a) (h : c.AtRest) :
    a.weigh Point.weight + 3 * c'.load < p.weight + 3 * c.load := by
  have load := does.load_eq h
  have none : Kind.total (fun _ => ([] : List ι).length) = 0 := rfl
  cases does with
  | append =>
    simp only [Action.called, Action.registered, none, Kind.total_single] at load
    simp only [Action.weigh, Point.weight]
    omega
  | take =>
    simp only [Action.called, Action.registered, none, Kind.total_single] at load
    simp only [Action.weigh, Point.weight]
    omega
  | @publish o drains =>
    simp only [Action.called, Action.registered, none] at load
    cases drains with
    | true =>
      simp only [↓reduceIte, Action.weigh, Point.weight]
      omega
    | false =>
      simp only [Bool.false_eq_true, ↓reduceIte, Action.weigh, Point.weight]
      omega
  | @leave _ _ _ stage _ _ stage' _ hnext =>
    simp only [Action.called, Action.registered, none] at load
    simp only [Action.weigh, Point.weight]
    cases stage <;> cases hnext <;> simp only [Stage.weight] <;> omega
  | @close _ _ _ stage =>
    simp only [Action.called, Action.registered, none] at load
    simp only [Action.weigh, Point.weight]
    cases stage <;> simp only [Stage.weight] <;> omega
  | _ =>
    simp only [Action.called, Action.registered, none] at load
    simp only [Action.weigh, Point.weight, Stage.weight]
    omega

end Effects

end Completion

namespace Site

variable {α ι τ : Type}

/-- How many accesses a call has left, apart from the items that it takes. -/
def Point.weight : Point α ι τ → Nat
  | .direct here => here.weight
  | .look _ => 16
  | .store _ => 15
  | .subscribe _ => 14
  | .registering _ here => here.weight + 1
  | .lookAgain _ => 1

theorem Does.descends {s s' : Site α ι τ} {p : Point α ι τ}
    {a : Action α ι (Point α ι τ) (Answer α)} (does : Does s p s' a) (h : s.completion.AtRest) :
    a.weigh Point.weight + 3 * s'.completion.load < p.weight + 3 * s.completion.load := by
  cases does with
  | direct inner =>
    rw [Action.weigh_map]
    exact inner.descends h
  | @registering p here c a inner _ =>
    have descends := inner.descends h
    have more : a.weigh (Point.weight ∘ Point.registering (τ := τ) p)
        ≤ a.weigh Completion.Point.weight + 1 := by
      cases a <;> simp only [Action.weigh, Function.comp_apply, Point.weight] <;> omega
    rw [Action.weigh_map]
    simp only [Point.weight]
    omega
  | registered inner =>
    have descends := inner.descends h
    simp only [Action.weigh, Point.weight] at descends ⊢
    omega
  | ready | unready | store | subscribed | subscribe | readyAgain | pending =>
    simp [Action.weigh, Point.weight, Completion.Point.weight, updateWatch]

end Site

namespace Stage

variable {α : Type}

/-- How many steps a call has left, apart from the items that it has yet to take. -/
def Point.weight : Point α → Nat
  | .routine here => here.weight
  | .holding _ _ _ back => back.weight + 2
  | .inside _ _ back => back.weight + 1

/-- How many steps a thread has left, apart from the items that it has yet to take. -/
def threadWeight (t : Thread (Call α) (Point α) (Answer α)) : Nat :=
  (t.todo.map fun call => call.start.weight + 1).sum +
    (t.current.map fun here => here.2.weight).getD 0

/-- A bound on what a crew has left to do. -/
def weight (c : Troupe α) : Nat :=
  3 * c.shared.site.completion.load + (c.threads.map threadWeight).sum

theorem Does.descends {s s' : Stage α} {p : Point α} {n : Next (Point α) (Answer α)}
    (does : Does s p s' n) (h : s.site.completion.AtRest) :
    (n.point?.map Point.weight).getD 0 + 3 * s'.site.completion.load
      < p.weight + 3 * s.site.completion.load := by
  cases does with
  | goes inner | notices inner | takes inner | answers inner | refuses inner =>
    exact inner.descends h
  | starts => simp [Next.point?, Point.weight]
  | @returns k x back | @contains k x back | @panics k x back =>
    rw [site_record, (s.attend_same x).1]
    simp [Next.point?, Point.weight]

/-- Every step lowers what is left to do. -/
theorem descends {c c' : Troupe α} (h : c.shared.site.completion.AtRest)
    (hfollows : Crew.Follows rules c' c) : weight c' < weight c := by
  obtain ⟨i, hstep⟩ := hfollows
  obtain ⟨t, t', ht, move, hthreads⟩ := Crew.step?_eq_some_iff.1 hstep
  have sum := sum_map_set ht t' threadWeight
  have own : 3 * c'.shared.site.completion.load + threadWeight t'
      < 3 * c.shared.site.completion.load + threadWeight t := by
    generalize c'.shared = s' at move
    cases move with
    | @begins call rest hcur htodo =>
      have none : (rules.start call : Point α).weight = call.start.weight := rfl
      simp only [threadWeight, hcur, htodo, none, List.map_cons, List.sum_cons, Option.map_some,
        Option.map_none, Option.getD_some, Option.getD_none]
      omega
    | @goes call p p' _ hcur hs =>
      have descends := (does_of_step hs).descends h
      simp only [Next.point?, Option.map_some, Option.getD_some] at descends
      simp only [threadWeight, hcur, Option.map_some, Option.getD_some]
      omega
    | @answers call p a _ hcur hs =>
      have descends := (does_of_step hs).descends h
      simp only [Next.point?, Option.map_none, Option.getD_none] at descends
      simp only [threadWeight, hcur, Option.map_some, Option.map_none, Option.getD_some,
        Option.getD_none]
      omega
  rw [weight, weight, hthreads]
  omega

/-- Whatever threads do on a completion, every schedule comes to an end. -/
theorem ends {watches : Array (Watch Nat)} {calls : List (List (Call α))} {c : Troupe α}
    (h : Crew.Reachable rules (.initial { site := { watches } } calls) c) :
    Acc (Crew.Follows rules) c :=
  h.acc fun _ _ hc hfollows => descends (outline_holds hc).shared.atRest hfollows

end Stage

end Eventual
