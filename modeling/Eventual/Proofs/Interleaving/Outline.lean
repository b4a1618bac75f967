import Eventual.Interleaving.System

/-!
# Proof outlines for interleaved threads

A step of a crew is a step of one of its threads: it begins a call, makes one
access of the call it is in, or makes the last access and answers. `Move` says
which, and `step?_eq_some_iff` reduces every step to it.

An `Outline` annotates the program points of a kind of call. It says what holds of
the shared state, what a thread may rely on at a point of a call, which points two
threads cannot occupy at once, and what is known of an answer. Its proofs are about
one access at a time: what the access establishes for its own thread, and that it
disturbs nobody else. `Outline.holds` makes of them an invariant of every schedule.

Sums over all threads change in one summand, which is `perm_flatMap_set`.
-/

namespace Eventual

/-- Replacing one thread changes one summand of a sum over all threads. -/
theorem perm_flatMap_set {τ β : Type} {ts : List τ} {i : Nat} {t : τ} (h : ts[i]? = some t)
    (t' : τ) (f : τ → List β) :
    (ts.flatMap f).Perm (f t ++ (ts.eraseIdx i).flatMap f) ∧
      ((ts.set i t').flatMap f).Perm (f t' ++ (ts.eraseIdx i).flatMap f) := by
  induction ts generalizing i with
  | nil => simp at h
  | cons u us ih =>
    cases i with
    | zero =>
      obtain rfl : u = t := by simpa using h
      exact ⟨by simp, by simp⟩
    | succ i =>
      obtain ⟨old, new⟩ := ih (i := i) (by simpa using h)
      simp only [List.flatMap_cons, List.eraseIdx_cons_succ, List.set_cons_succ]
      have swap : ∀ l r : List β, (f u ++ (l ++ r)).Perm (l ++ (f u ++ r)) := by
        intro l r
        rw [← List.append_assoc, ← List.append_assoc]
        exact List.Perm.append_right r List.perm_append_comm
      exact ⟨(old.append_left _).trans (swap _ _), (new.append_left _).trans (swap _ _)⟩

/-- The calls of a thread: those that are over, the one under way, those to come. -/
def Thread.calls {κ π ρ : Type} (t : Thread κ π ρ) : List κ :=
  t.answers.map Prod.fst ++ (t.current.map Prod.fst).toList ++ t.todo

/-- The point at which a call goes on, unless it has answered. -/
def Next.point? {π ρ : Type} : Next π ρ → Option π
  | .goto p => some p
  | .done _ => none

namespace Crew

variable {σ κ π ρ : Type} {rules : Rules σ κ π ρ}

/-- What a thread does in one step, and what becomes of it and of the shared state. -/
inductive Move (rules : Rules σ κ π ρ) (s : σ) (t : Thread κ π ρ) :
    σ → Thread κ π ρ → Prop
  | begins {call : κ} {rest : List κ} :
      t.current = none → t.todo = call :: rest →
      Move rules s t s { t with todo := rest, current := some (call, rules.start call) }
  | goes {call : κ} {p p' : π} {s' : σ} :
      t.current = some (call, p) → rules.step s p = (s', .goto p') →
      Move rules s t s' { t with current := some (call, p') }
  | answers {call : κ} {p : π} {a : ρ} {s' : σ} :
      t.current = some (call, p) → rules.step s p = (s', .done a) →
      Move rules s t s' { t with current := none, answers := t.answers ++ [(call, a)] }

/-- A step of a crew is a move of one thread. -/
theorem step?_eq_some_iff {c c' : Crew σ κ π ρ} {i : Nat} :
    c.step? rules i = some c' ↔
      ∃ t t', c.threads[i]? = some t ∧ Move rules c.shared t c'.shared t' ∧
        c'.threads = c.threads.set i t' := by
  constructor
  · intro h
    unfold step? at h
    split at h
    next => cases h
    next t ht =>
      split at h
      next => cases h
      next call rest hcur htodo =>
        cases h
        exact ⟨t, _, ht, .begins hcur htodo, rfl⟩
      next call p hcur =>
        split at h
        next s p' hs =>
          cases h
          exact ⟨t, _, ht, .goes hcur hs, rfl⟩
        next s a hs =>
          cases h
          exact ⟨t, _, ht, .answers hcur hs, rfl⟩
  · rintro ⟨t, t', ht, move, hthreads⟩
    obtain ⟨shared, threads⟩ := c'
    dsimp only at hthreads move
    subst hthreads
    unfold step?
    rw [ht]
    cases move with
    | begins hcur htodo => simp [hcur, htodo]
    | goes hcur hs => simp [hcur, hs]
    | answers hcur hs => simp [hcur, hs]

/-- The threads before and after a step: one has moved, the others are as they were. -/
theorem exists_move {c c' : Crew σ κ π ρ} {i : Nat} (h : c.step? rules i = some c') :
    ∃ t t', c.threads[i]? = some t ∧ c'.threads[i]? = some t' ∧
      Move rules c.shared t c'.shared t' ∧ ∀ j, j ≠ i → c'.threads[j]? = c.threads[j]? := by
  obtain ⟨t, t', ht, move, hthreads⟩ := step?_eq_some_iff.1 h
  refine ⟨t, t', ht, ?_, move, ?_⟩
  · rw [hthreads, List.getElem?_set_self (List.getElem?_eq_some_iff.1 ht).1]
  · intro j hj
    rw [hthreads, List.getElem?_set_ne fun e => hj e.symm]

/-- The threads after a move of thread `i`: the others are as they were. -/
theorem getElem?_of_set {ts : List (Thread κ π ρ)} {i j : Nat} {t u : Thread κ π ρ}
    (h : (ts.set i t)[j]? = some u) : (j = i ∧ u = t) ∨ (j ≠ i ∧ ts[j]? = some u) := by
  rw [List.getElem?_set] at h
  by_cases hij : i = j
  · subst hij
    simp only [↓reduceIte] at h
    split at h
    · exact .inl ⟨rfl, (Option.some.inj h).symm⟩
    · cases h
  · rw [if_neg hij] at h
    exact .inr ⟨fun e => hij e.symm, h⟩

theorem Move.calls_eq {s s' : σ} {t t' : Thread κ π ρ} (h : Move rules s t s' t') :
    t'.calls = t.calls := by
  cases h with
  | begins hcur htodo => simp [Thread.calls, hcur, htodo]
  | goes hcur hs => simp [Thread.calls, hcur]
  | answers hcur hs => simp [Thread.calls, hcur]

/-- Only the last access of a call answers it. -/
theorem Move.of_answers {s s' : σ} {t t' : Thread κ π ρ} {call : κ} {a : ρ}
    (h : Move rules s t s' t') (ha : t'.answers = t.answers ++ [(call, a)]) :
    ∃ p, t.current = some (call, p) ∧ rules.step s p = (s', .done a) := by
  cases h with
  | begins | goes => simp at ha
  | @answers call' p a' _ hcur hs =>
    obtain ⟨rfl, rfl⟩ : call' = call ∧ a' = a := by simpa using List.append_cancel_left ha
    exact ⟨p, hcur, hs⟩

/-- No schedule loses a call or makes one up. -/
theorem Reachable.calls_eq {start : σ} {calls : List (List κ)} {c : Crew σ κ π ρ}
    (h : Reachable rules (initial start calls) c) : c.threads.map Thread.calls = calls := by
  apply h.invariant (I := fun c => c.threads.map Thread.calls = calls)
  · have hid : (Thread.calls ∘ fun todo : List κ => ({ todo } : Thread κ π ρ)) = id := by
      funext todo
      simp [Thread.calls]
    simp [initial, hid]
  · intro c c' i hc hstep
    obtain ⟨t, t', ht, move, hthreads⟩ := step?_eq_some_iff.1 hstep
    rw [hthreads, List.map_set, move.calls_eq, ← hc]
    apply List.ext_getElem?
    intro j
    rw [List.getElem?_set]
    split
    next hij =>
      subst hij
      simp only [List.length_map, List.getElem?_map, ht, Option.map_some]
      rw [if_pos (List.getElem?_eq_some_iff.1 ht).1]
    next => rfl

end Crew

namespace Crew

variable {σ κ π ρ : Type}

/-- Where a thread stands, if it is in a call. -/
def point? (c : Crew σ κ π ρ) (i : Nat) : Option π :=
  (c.threads[i]?.bind Thread.current).map Prod.snd

/-- The calls of one thread that are over, with their answers. -/
def answersOf (c : Crew σ κ π ρ) (i : Nat) : List (κ × ρ) :=
  (c.threads[i]?.map Thread.answers).getD []

theorem point?_eq_some_iff {c : Crew σ κ π ρ} {i : Nat} {p : π} :
    c.point? i = some p ↔ ∃ t call, c.threads[i]? = some t ∧ t.current = some (call, p) := by
  unfold point?
  constructor
  · intro h
    obtain ⟨⟨call, p'⟩, hcur, rfl⟩ := Option.map_eq_some_iff.1 h
    obtain ⟨t, ht, hcur⟩ := Option.bind_eq_some_iff.1 hcur
    exact ⟨t, call, ht, hcur⟩
  · rintro ⟨t, call, ht, hcur⟩
    simp [ht, hcur]

theorem point?_of_getElem? {c : Crew σ κ π ρ} {i : Nat} {t : Thread κ π ρ}
    (ht : c.threads[i]? = some t) : c.point? i = t.current.map Prod.snd := by
  rw [point?, ht, Option.bind_some]

theorem answersOf_of_getElem? {c : Crew σ κ π ρ} {i : Nat} {t : Thread κ π ρ}
    (ht : c.threads[i]? = some t) : c.answersOf i = t.answers := by
  rw [answersOf, ht, Option.map_some, Option.getD_some]

/-- At the start every thread has its calls to make and has done nothing. -/
theorem of_mem_initial {s : σ} {calls : List (List κ)} {t : Thread κ π ρ}
    (ht : t ∈ (initial s calls).threads) : ∃ todo ∈ calls, t = { todo } := by
  obtain ⟨todo, htodo, rfl⟩ := List.mem_map.1 ht
  exact ⟨todo, htodo, rfl⟩

/-- A sum to which only threads that have begun contribute is empty at the start. -/
theorem flatMap_initial {β : Type} (s : σ) (calls : List (List κ)) {f : Thread κ π ρ → List β}
    (hf : ∀ todo, f { todo } = []) : (initial s calls).threads.flatMap f = [] := by
  rw [List.flatMap_eq_nil_iff]
  intro t ht
  obtain ⟨todo, -, rfl⟩ := of_mem_initial ht
  exact hf todo

theorem point?_initial (s : σ) (calls : List (List κ)) (i : Nat) :
    (initial s calls : Crew σ κ π ρ).point? i = none := by
  cases hp : (initial s calls : Crew σ κ π ρ).point? i with
  | none => rfl
  | some p =>
    obtain ⟨t, call, ht, hcur⟩ := point?_eq_some_iff.1 hp
    obtain ⟨todo, -, rfl⟩ := of_mem_initial (List.mem_of_getElem? ht)
    cases hcur

/-- When all threads are done, none of them is in a call. -/
theorem current_of_isDone {c : Crew σ κ π ρ} (h : c.isDone = true) {t : Thread κ π ρ}
    (ht : t ∈ c.threads) : t.current = none ∧ t.todo = [] := by
  have done := List.all_eq_true.1 h t ht
  simpa [Thread.isDone] using done

theorem point?_of_isDone {c : Crew σ κ π ρ} (h : c.isDone = true) (i : Nat) :
    c.point? i = none := by
  cases hp : c.point? i with
  | none => rfl
  | some p =>
    obtain ⟨t, call, ht, hcur⟩ := point?_eq_some_iff.1 hp
    cases (current_of_isDone h (List.mem_of_getElem? ht)).1.symm.trans hcur

/-- A step changes the point of one thread. That thread was in no call and begins one, or
makes the next access of the call it is in. -/
theorem point?_of_step {rules : Rules σ κ π ρ} {c c' : Crew σ κ π ρ} {i : Nat}
    (h : c.step? rules i = some c') :
    (∀ j, j ≠ i → c'.point? j = c.point? j) ∧
      ((c.point? i = none ∧ c'.shared = c.shared) ∨
        ∃ p n, c.point? i = some p ∧ rules.step c.shared p = (c'.shared, n) ∧
          c'.point? i = n.point?) := by
  obtain ⟨t, t', ht, ht', move, others⟩ := exists_move h
  constructor
  · intro j hj
    rw [point?, point?, others j hj]
  · obtain ⟨shared', threads'⟩ := c'
    cases move with
    | begins hcur htodo => exact .inl ⟨by simp [point?, ht, hcur], rfl⟩
    | @goes call p p' s' hcur hs =>
      exact .inr ⟨p, _, by simp [point?, ht, hcur], hs, by simp [point?, ht', Next.point?]⟩
    | @answers call p a s' hcur hs =>
      exact .inr ⟨p, _, by simp [point?, ht, hcur], hs, by simp [point?, ht', Next.point?]⟩

/-- Whoever stands at a point makes the step or goes on standing there. -/
theorem moves_or_stands {rules : Rules σ κ π ρ} {c c' : Crew σ κ π ρ} {i j : Nat} {q : π}
    (h : c.step? rules i = some c') (hq : c.point? j = some q) :
    c.point? i = some q ∨ c'.point? j = some q := by
  by_cases hj : j = i
  · exact .inl (hj ▸ hq)
  · exact .inr (((point?_of_step h).1 j hj).trans hq)

/-- Where a thread stands after a step: where it stood, at the beginning of a call, or, if it
has made the step, at the next point of the call it is in. -/
theorem of_point?_step {rules : Rules σ κ π ρ} {c c' : Crew σ κ π ρ} {i j : Nat} {q : π}
    (h : c.step? rules i = some c') (hq : c'.point? j = some q) :
    (j ≠ i ∧ c.point? j = some q) ∨ (∃ call, q = rules.start call ∧ c'.shared = c.shared) ∨
      ∃ p, j = i ∧ c.point? i = some p ∧ rules.step c.shared p = (c'.shared, .goto q) := by
  obtain ⟨others, -⟩ := point?_of_step h
  obtain ⟨t, t', ht, ht', move, -⟩ := exists_move h
  by_cases hj : j = i
  · subst hj
    rw [point?_of_getElem? ht'] at hq
    rw [point?_of_getElem? ht]
    generalize hshared : c'.shared = s' at move ⊢
    cases move with
    | begins hcur htodo =>
      obtain rfl := Option.some.inj hq
      exact .inr (.inl ⟨_, rfl, rfl⟩)
    | goes hcur hs =>
      obtain rfl := Option.some.inj hq
      exact .inr (.inr ⟨_, rfl, by rw [hcur, Option.map_some], hs⟩)
    | answers hcur hs => cases hq
  · exact .inl ⟨hj, (others j hj).symm.trans hq⟩

/-- The steps of a schedule, one after the other. A thread that is picked and has
nothing left to do lets its turn pass. -/
def after (rules : Rules σ κ π ρ) (schedule : List Nat) (c : Crew σ κ π ρ) : Crew σ κ π ρ :=
  schedule.foldl (fun c i => (c.step? rules i).getD c) c

theorem Reachable.trans {rules : Rules σ κ π ρ} {start c c' : Crew σ κ π ρ}
    (h : Reachable rules start c) (h' : Reachable rules c c') : Reachable rules start c' := by
  induction h' with
  | refl => exact h
  | step i _ hstep ih => exact ih.step i hstep

theorem Reachable.after {rules : Rules σ κ π ρ} {start c : Crew σ κ π ρ}
    (h : Reachable rules start c) (schedule : List Nat) :
    Reachable rules start (c.after rules schedule) := by
  induction schedule generalizing c with
  | nil => exact h
  | cons i schedule ih =>
    rw [Crew.after, List.foldl_cons]
    apply ih
    cases hs : c.step? rules i with
    | none => exact h
    | some c' => exact .step i h hs

end Crew

/-- Annotations of the points of calls, with the proofs that every access respects
them. `stands s call p` is what a thread relies on that is at `p` in `call`; `apart`
relates the points that two threads may occupy at once. -/
structure Outline {σ κ π ρ : Type} (rules : Rules σ κ π ρ) where
  admits : κ → Prop
  shared : σ → Prop
  stands : σ → κ → π → Prop
  apart : π → π → Prop
  answered : σ → κ → ρ → Prop
  apart_symm : ∀ {p q}, apart p q → apart q p
  begins : ∀ {s call}, shared s → admits call → stands s call (rules.start call)
  begins_apart : ∀ {call} q, admits call → apart (rules.start call) q
  /-- An access keeps the shared state in order. -/
  keeps : ∀ {s call p}, shared s → stands s call p → shared (rules.step s p).1
  goes : ∀ {s call p p'}, shared s → stands s call p → (rules.step s p).2 = .goto p' →
    stands (rules.step s p).1 call p'
  answers : ∀ {s call p a}, shared s → stands s call p → (rules.step s p).2 = .done a →
    answered (rules.step s p).1 call a
  /-- An access disturbs no other thread. -/
  spares : ∀ {s call p call' q}, shared s → stands s call p → stands s call' q → apart p q →
    stands (rules.step s p).1 call' q
  stays_apart : ∀ {s call p call' p' q}, shared s → stands s call p → stands s call' q →
    apart p q → (rules.step s p).2 = .goto p' → apart p' q
  spares_answers : ∀ {s call p call' a}, shared s → stands s call p → answered s call' a →
    answered (rules.step s p).1 call' a

namespace Outline

variable {σ κ π ρ : Type} {rules : Rules σ κ π ρ}

/-- Everything that the annotations say of one thread is true. -/
structure Annotated (O : Outline rules) (s : σ) (t : Thread κ π ρ) : Prop where
  admits : ∀ call ∈ t.todo, O.admits call
  stands : ∀ {call p}, t.current = some (call, p) → O.stands s call p
  answered : ∀ entry ∈ t.answers, O.answered s entry.1 entry.2

/-- Two threads are at points that both may occupy at once. -/
def Apart (O : Outline rules) (t u : Thread κ π ρ) : Prop :=
  ∀ {call p call' q}, t.current = some (call, p) → u.current = some (call', q) → O.apart p q

/-- A configuration in which every annotation is true. -/
structure Holds (O : Outline rules) (c : Crew σ κ π ρ) : Prop where
  shared : O.shared c.shared
  annotated : ∀ t ∈ c.threads, O.Annotated c.shared t
  apart : ∀ {i j : Nat} {t u}, c.threads[i]? = some t → c.threads[j]? = some u → i ≠ j →
    O.Apart t u

variable {O : Outline rules} {s s' : σ} {t t' u : Thread κ π ρ} {c c' : Crew σ κ π ρ} {i : Nat}

theorem Apart.symm (h : O.Apart t u) : O.Apart u t :=
  fun hu ht => O.apart_symm (h ht hu)

/-- What a move establishes for the thread that makes it. -/
theorem Annotated.move (h : O.Annotated s t) (shared : O.shared s)
    (move : Crew.Move rules s t s' t') : O.shared s' ∧ O.Annotated s' t' := by
  cases move with
  | @begins call rest hcur htodo =>
    have admitted : O.admits call := h.admits call (by simp [htodo])
    refine ⟨shared, ?_, ?_, h.answered⟩
    · intro call' hcall'
      exact h.admits call' (htodo ▸ List.mem_cons_of_mem _ hcall')
    · intro call' p hp
      cases hp
      exact O.begins shared admitted
  | @goes call p p' _ hcur hs =>
    have here := h.stands hcur
    have keeps := O.keeps shared here
    have goes : O.stands (rules.step s p).1 call p' := O.goes shared here (by rw [hs])
    have answered := fun entry hentry => O.spares_answers shared here (h.answered entry hentry)
    rw [hs] at keeps goes
    simp only [hs] at answered
    refine ⟨keeps, h.admits, ?_, answered⟩
    intro call' q hq
    cases hq
    exact goes
  | @answers call p a _ hcur hs =>
    have here := h.stands hcur
    have keeps := O.keeps shared here
    have answers := O.answers (a := a) shared here (by rw [hs])
    have answered := fun entry hentry => O.spares_answers shared here (h.answered entry hentry)
    rw [hs] at keeps answers
    simp only [hs] at answered
    refine ⟨keeps, h.admits, nofun, ?_⟩
    intro entry hentry
    rcases List.mem_append.1 hentry with hold | hnew
    · exact answered entry hold
    · obtain rfl := List.mem_singleton.1 hnew
      exact answers

/-- A move disturbs nothing that is known of another thread. -/
theorem Annotated.spared (hu : O.Annotated s u) (h : O.Annotated s t) (shared : O.shared s)
    (apart : O.Apart t u) (move : Crew.Move rules s t s' t') :
    O.Annotated s' u ∧ O.Apart t' u := by
  cases move with
  | @begins call rest hcur htodo =>
    refine ⟨hu, ?_⟩
    intro call₁ p call₂ q hp hq
    cases hp
    exact O.begins_apart q (h.admits call (by simp [htodo]))
  | @goes call p p' _ hcur hs =>
    have here := h.stands hcur
    have answered := fun entry hentry => O.spares_answers shared here (hu.answered entry hentry)
    simp only [hs] at answered
    refine ⟨⟨hu.admits, ?_, answered⟩, ?_⟩
    · intro call' q hq
      have spares := O.spares shared here (hu.stands hq) (apart hcur hq)
      rwa [hs] at spares
    · intro call₁ p₁ call' q hp hq
      cases hp
      exact O.stays_apart shared here (hu.stands hq) (apart hcur hq) (by rw [hs])
  | @answers call p a _ hcur hs =>
    have here := h.stands hcur
    have answered := fun entry hentry => O.spares_answers shared here (hu.answered entry hentry)
    simp only [hs] at answered
    refine ⟨⟨hu.admits, ?_, answered⟩, nofun⟩
    intro call' q hq
    have spares := O.spares shared here (hu.stands hq) (apart hcur hq)
    rwa [hs] at spares

/-- What the annotations say of the point at which a thread stands. -/
theorem Holds.stands (h : O.Holds c) {p : π} (hp : c.point? i = some p) :
    ∃ t call, t ∈ c.threads ∧ t.current = some (call, p) ∧ O.stands c.shared call p := by
  obtain ⟨t, call, ht, hcur⟩ := Crew.point?_eq_some_iff.1 hp
  have mem := List.mem_of_getElem? ht
  exact ⟨t, call, mem, hcur, (h.annotated t mem).stands hcur⟩

/-- A step keeps every annotation true. -/
theorem Holds.step (h : O.Holds c) (hstep : c.step? rules i = some c') : O.Holds c' := by
  obtain ⟨t, t', ht, move, hthreads⟩ := Crew.step?_eq_some_iff.1 hstep
  have here := h.annotated t (List.mem_of_getElem? ht)
  have moved := here.move h.shared move
  have spared : ∀ {j u}, j ≠ i → c.threads[j]? = some u →
      O.Annotated c'.shared u ∧ O.Apart t' u := fun hj hu =>
    (h.annotated _ (List.mem_of_getElem? hu)).spared here h.shared
      (h.apart ht hu fun e => hj e.symm) move
  refine ⟨moved.1, ?_, ?_⟩
  · intro u hu
    obtain ⟨j, hj⟩ := List.mem_iff_getElem?.1 hu
    rw [hthreads] at hj
    rcases Crew.getElem?_of_set hj with ⟨-, rfl⟩ | ⟨hne, hold⟩
    · exact moved.2
    · exact (spared hne hold).1
  · intro j k u v hu hv hjk
    rw [hthreads] at hu hv
    rcases Crew.getElem?_of_set hu with ⟨rfl, rfl⟩ | ⟨hj, hju⟩
    · rcases Crew.getElem?_of_set hv with ⟨rfl, rfl⟩ | ⟨hk, hkv⟩
      · exact absurd rfl hjk
      · exact (spared hk hkv).2
    · rcases Crew.getElem?_of_set hv with ⟨rfl, rfl⟩ | ⟨hk, hkv⟩
      · exact Apart.symm (spared hj hju).2
      · exact h.apart hju hkv hjk

theorem Holds.later (h : O.Holds c) (reach : Crew.Reachable rules c c') : O.Holds c' :=
  reach.invariant h fun _ _ _ hc hstep => hc.step hstep

theorem initial_holds {calls : List (List κ)} (shared : O.shared s)
    (admits : ∀ todo ∈ calls, ∀ call ∈ todo, O.admits call) :
    O.Holds (Crew.initial s calls) := by
  refine ⟨shared, ?_, ?_⟩
  · intro t ht
    obtain ⟨todo, htodo, rfl⟩ := Crew.of_mem_initial ht
    exact ⟨admits todo htodo, nofun, nofun⟩
  · intro i j t u ht hu hij call p call' q hp
    obtain ⟨todo, -, rfl⟩ := Crew.of_mem_initial (List.mem_of_getElem? ht)
    cases hp

/-- The annotations are true wherever a schedule leads. -/
theorem holds {calls : List (List κ)}
    (h : Crew.Reachable rules (.initial s calls) c) (shared : O.shared s)
    (admits : ∀ todo ∈ calls, ∀ call ∈ todo, O.admits call) : O.Holds c :=
  (initial_holds shared admits).later h

end Outline

end Eventual
