import Eventual.Proofs.Interleaving.Stage

/-!
# No item is lost and none is called twice

Any number of threads register, complete, drain and poll on one completion, and their
accesses interleave in any order. Whatever panics, what was registered is at every
moment what has begun to be called, what some thread has taken and is about to call,
and what still waits.

Nothing is stranded either. A registrar appends first and looks at the cell afterwards;
whoever settles the cell does so first and looks into the queues afterwards. So once
the cell is settled and something waits that the outcome concerns, a thread is on its
way to it: the one that settled the cell, one that has appended and not yet looked, or
one whose drain has not come past that queue. `Attended` says so of a configuration,
and `Attended.step` that it stays so while no call of an item panics, for a panic ends
the drain it happens in. When all threads are done nobody is on the way to anything,
so nothing waits.
-/

namespace Eventual.Stage

variable {α : Type}

section Effects

variable {s s' : Stage α} {p : Point α} {n : Next (Point α) (Answer α)}
  {only : Kind → Player → Prop} {side : Side} {k : Kind}

/-- A drain goes on until it has passed the queues that it minds, unless an item panics. -/
theorem Does.minds (does : Does s p s' n) (h : Orderly only s) (stands : Stands s p)
    (settled : s.cell.state = .settled side) (hk : k ≠ .on side.other)
    (waits : s'.waiting k ≠ []) (minds : p.back.Minds side k) :
    (∃ p', n.point? = some p' ∧ p'.back.Minds side k) ∨
      ∃ k x back, p = .inside k x back ∧ n = .done (.panicked x) := by
  rcases does.site with ⟨here, action, rfl, inner, next⟩ | ⟨-, -, next | panicked⟩
  · obtain ⟨b, hb, minds'⟩ :=
      inner.minds h.atRest h.cell stands.fits settled hk waits minds
    obtain ⟨p', hp', rfl⟩ := Option.map_eq_some_iff.1 (next.trans hb)
    exact .inl ⟨p', hp', minds'⟩
  · obtain ⟨p', hp', hback⟩ := Option.map_eq_some_iff.1 next
    exact .inl ⟨p', hp', hback ▸ minds⟩
  · exact .inr panicked

/-- Whoever settles the cell, or appends to a queue, minds what waits there. -/
theorem Does.attends (does : Does s p s' n) (h : Orderly only s)
    (drains : ∀ o d here, p.back.inner? = some (.commit o d here) → d = true)
    (settled : s'.cell.state = .settled side) (hk : k ≠ .on side.other)
    (waits : s'.waiting k ≠ []) :
    (∃ p', n.point? = some p' ∧ p'.back.Minds side k) ∨
      (s.cell.state = .settled side ∧ s.waiting k ≠ []) := by
  rcases does.site with ⟨here, action, rfl, inner, next⟩ | ⟨same, -⟩
  · rcases inner.attends h.atRest drains settled hk waits with ⟨b, hb, minds⟩ | before
    · obtain ⟨p', hp', rfl⟩ := Option.map_eq_some_iff.1 (next.trans hb)
      exact .inl ⟨p', hp', minds⟩
    · exact .inr before
  · rw [cell, same] at settled
    rw [waiting, same] at waits
    exact .inr ⟨settled, waits⟩

/-- While the cell is being committed somebody is about to publish. -/
theorem Does.committing (does : Does s p s' n) (stands : Stands s p)
    (h : s'.cell.state = .committing) :
    (∃ p', n.point? = some p' ∧ p'.back.Claims) ∨
      (s.cell.state = .committing ∧ ¬ p.back.Claims) := by
  rcases does.site with ⟨here, action, rfl, inner, next⟩ | ⟨same, hp, -⟩
  · rcases inner.committing h with ⟨b, hb, claims⟩ | before
    · obtain ⟨p', hp', rfl⟩ := Option.map_eq_some_iff.1 (next.trans hb)
      exact .inl ⟨p', hp', claims⟩
    · exact .inr before
  · rw [cell, same] at h
    refine .inr ⟨h, ?_⟩
    cases p with
    | routine here => exact absurd rfl (hp here)
    | holding k x arg back => exact stands.2.1.not_claims
    | inside k x back => exact stands.2.1.not_claims

/-- What has happened stays on record. -/
theorem Does.moments_eq (does : Does s p s' n) : ∃ ms, s'.moments = s.moments ++ ms := by
  cases does with
  | goes | answers | refuses => exact ⟨[], (List.append_nil _).symm⟩
  | notices | takes | starts => exact ⟨_, moments_record ..⟩
  | @returns k x back | @contains k x back | @panics k x back =>
    obtain ⟨-, -, ms, hms, -⟩ := s.attend_same x
    exact ⟨ms ++ [_], by rw [moments_record, hms, List.append_assoc]⟩

theorem Does.conduct_of_panicked {x : Player} {back : Site.Point α Player Nat}
    (does : Does s (.inside k x back) s' (.done (.panicked x))) : x.conduct = .panics := by
  cases does with
  | panics conduct => exact conduct

/-- The panic of an item goes on record. -/
theorem Does.mem_moments_of_panics {x : Player} {back : Site.Point α Player Nat}
    (does : Does s (.inside k x back) s' n) (panics : x.conduct = .panics) :
    .panicked k x ∈ s'.moments := by
  cases does with
  | returns conduct | contains conduct => cases panics.symm.trans conduct
  | panics => simp

/-- Where only calls that complete commit, a commit goes on to drain. -/
theorem drains_of_serves {here : Site.Point α Player Nat} {call : Call α}
    (h : here.Serves call) (completes : ∀ o, call ≠ .direct (.tryCommit o)) :
    ∀ o d there, here.inner? = some (.commit o d there) → d = true := by
  intro o d there hinner
  cases here with
  | direct here =>
    cases hinner
    cases call with
    | direct call =>
      cases call with
      | tryCommit o => exact absurd rfl (completes o)
      | complete o => exact h.2
      | register k x | drain s => exact h.elim
    | poll p => exact h.elim
  | registering p here =>
    cases hinner
    cases call with
    | direct call => exact h.elim
    | poll p => exact h.2.elim
  | look | store | subscribe | lookAgain => cases hinner

end Effects

/-! ## Accounts -/

/-- What a thread has taken of a kind and is about to call. -/
def inHand (k : Kind) (t : Thread (Call α) (Point α) (Answer α)) : List Player :=
  (t.current.map fun here => here.2.held k).getD []

/-- What a step of a thread does to the accounts. -/
theorem move_balance {only : Kind → Player → Prop} {s s' : Stage α}
    {t t' : Thread (Call α) (Point α) (Answer α)} (h : Orderly only s)
    (move : Crew.Move rules s t s' t') (k : Kind) :
    ∃ new, s'.registered k = s.registered k ++ new ∧
      s'.started k ++ inHand k t' ++ s'.waiting k
        = s.started k ++ inHand k t ++ s.waiting k ++ new := by
  cases move with
  | @begins call rest hcur htodo =>
    have none : (rules.start call : Point α).held k = [] := rfl
    exact ⟨[], by simp, by simp [inHand, hcur, none]⟩
  | @goes call p p' _ hcur hs =>
    simpa [inHand, hcur, heldAfter] using (does_of_step hs).balance h.atRest k
  | @answers call p a _ hcur hs =>
    simpa [inHand, hcur, heldAfter] using (does_of_step hs).balance h.atRest k

/-- Whatever was registered has begun to be called, is in one thread's hands, or waits. -/
theorem accounts_step {only : Kind → Player → Prop} {c c' : Troupe α} {i : Nat}
    (h : Orderly only c.shared) (hstep : c.step? rules i = some c') {k : Kind}
    (accounts : (c.shared.registered k).Perm
      (c.shared.started k ++ c.threads.flatMap (inHand k) ++ c.shared.waiting k)) :
    (c'.shared.registered k).Perm
      (c'.shared.started k ++ c'.threads.flatMap (inHand k) ++ c'.shared.waiting k) := by
  obtain ⟨t, t', ht, move, hthreads⟩ := Crew.step?_eq_some_iff.1 hstep
  obtain ⟨new, registered, balance⟩ := move_balance h move k
  obtain ⟨old, now⟩ := perm_flatMap_set ht t' (inHand k)
  rw [hthreads, registered, List.perm_iff_count]
  intro x
  -- Count one item in each of the lists; the rest is arithmetic.
  have accounts := accounts.count_eq x
  have balance := congrArg (List.count x) balance
  have old := old.count_eq x
  have now := now.count_eq x
  simp only [List.count_append] at *
  omega

/-! ## What is still to be registered -/

/-- What a thread has yet to register of a kind. -/
def owed (k : Kind) (t : Thread (Call α) (Point α) (Answer α)) : List Player :=
  (t.current.map fun here => here.2.back.brings k).getD [] ++
    t.todo.flatMap (Site.Call.registers k)

section Effects

variable {s s' : Stage α} {p : Point α} {n : Next (Point α) (Answer α)}

/-- A call registers with its next step what it is about to register. -/
theorem Does.registers {here : Site.Point α Player Nat} (does : Does s (.routine here) s' n)
    (k : Kind) : s'.registered k = s.registered k ++ here.brings k := by
  cases does with
  | goes inner | answers inner | refuses inner =>
    rw [← inner.brings k]
    exact (List.append_nil _).symm
  | @notices here site n p inner =>
    rw [← inner.brings k, registered_record]
    cases n <;> rfl
  | takes inner =>
    rw [← inner.brings k]
    exact registered_record ..

/-- A call registers what it has to, and no more. Only a poll goes on to register something
later, which is a waker. -/
theorem Does.owes (does : Does s p s' n) (stands : Stands s p) {call : Call α}
    (serves : p.back.Serves call) {k : Kind} (direct : k = .waker → ∃ call', call = .direct call') :
    ∃ new, s'.registered k = s.registered k ++ new ∧
      p.back.brings k = new ++ (n.point?.map fun q => q.back.brings k).getD [] := by
  cases p with
  | routine here =>
    refine ⟨here.brings k, does.registers k, ?_⟩
    obtain ⟨_, action, hp, inner, next⟩ | ⟨-, other, -⟩ := does.site
    · cases hp
      cases hq : n.point? with
      | none => exact (List.append_nil _).symm
      | some q =>
        rw [hq] at next
        obtain none | ⟨poll, rfl, -, relays⟩ := inner.brings_next next.symm
        · exact ((congrArg (here.brings k ++ ·) (none k)).trans (List.append_nil _)).symm
        · have none : q.back.brings k = [] := by
            rw [relays]
            apply if_neg
            intro waker
            obtain ⟨call', rfl⟩ := direct waker.symm
            exact serves
          exact ((congrArg (Site.Point.brings k (.subscribe poll) ++ ·) none).trans
            (List.append_nil _)).symm
    · exact absurd rfl (other here)
  | holding k' x arg back =>
    cases does with
    | starts => exact ⟨[], registered_record .., rfl⟩
  | inside k' x back =>
    have same : ∀ m : Moment α, m.registers k = [] →
        ((s.attend x).record m).registered k = s.registered k ++ [] := by
      intro m hm
      rw [registered_record, ((s.attend_same x).2.1 k).1, hm]
    cases does with
    | returns | contains => exact ⟨[], same _ rfl, rfl⟩
    | panics => exact ⟨[], same _ rfl, stands.2.1.brings k⟩

/-- A thread owes what its calls register, until it has registered that. -/
theorem move_owed {only : Kind → Player → Prop} {t t' : Thread (Call α) (Point α) (Answer α)}
    (annotated : (outline only).Annotated s t) {k : Kind}
    (direct : k = .waker → ∀ call ∈ t.calls, ∃ call', call = .direct call')
    (move : Crew.Move rules s t s' t') :
    ∃ new, s'.registered k = s.registered k ++ new ∧ owed k t = new ++ owed k t' := by
  cases move with
  | @begins call rest hcur htodo =>
    refine ⟨[], (List.append_nil _).symm, ?_⟩
    simp only [owed, hcur, htodo, Option.map_none, Option.map_some, Option.getD_none,
      Option.getD_some, List.nil_append, List.flatMap_cons]
    exact congrArg (· ++ _) (call.brings_start k).symm
  | @goes call p p' _ hcur hs =>
    obtain ⟨stands, serves, -⟩ := annotated.stands hcur
    obtain ⟨new, registered, brings⟩ := (does_of_step hs).owes stands serves
      fun waker => direct waker call (by simp [Thread.calls, hcur])
    refine ⟨new, registered, ?_⟩
    simp only [owed, hcur, Option.map_some, Option.getD_some]
    rw [brings, List.append_assoc]
    rfl
  | @answers call p a _ hcur hs =>
    obtain ⟨stands, serves, -⟩ := annotated.stands hcur
    obtain ⟨new, registered, brings⟩ := (does_of_step hs).owes stands serves
      fun waker => direct waker call (by simp [Thread.calls, hcur])
    refine ⟨new, registered, ?_⟩
    simp only [owed, hcur, Option.map_some, Option.getD_some]
    rw [brings, List.append_assoc]
    rfl

end Effects

/-! ## Nobody is stranded -/

/-- While the cell is being committed somebody is about to publish, and once it is
settled somebody is on the way to every item that waits and that the outcome concerns. -/
structure Attended (c : Troupe α) : Prop where
  claimed : c.shared.cell.state = .committing → ∃ i p, c.point? i = some p ∧ p.back.Claims
  minded : ∀ {side k}, c.shared.cell.state = .settled side → k ≠ .on side.other →
    c.shared.waiting k ≠ [] → ∃ i p, c.point? i = some p ∧ p.back.Minds side k

/-- While the cell is being committed somebody is about to publish. -/
def Claimed (c : Troupe α) : Prop :=
  c.shared.cell.state = .committing → ∃ i p, c.point? i = some p ∧ p.back.Claims

/-- Once the cell is settled, somebody is on the way to what waits of the kind, if the
outcome concerns it. -/
def Minded (k : Kind) (c : Troupe α) : Prop :=
  ∀ {side}, c.shared.cell.state = .settled side → k ≠ .on side.other →
    c.shared.waiting k ≠ [] → ∃ i p, c.point? i = some p ∧ p.back.Minds side k

section Steps

variable {only : Kind → Player → Prop} {c c' : Troupe α} {i : Nat}

/-- Who begins a call takes nobody from the point at which he stands. -/
theorem stays_of_idle (idle : c.point? i = none) (hstep : c.step? rules i = some c') {j : Nat}
    {q : Point α} (hq : c.point? j = some q) : c'.point? j = some q := by
  obtain moves | stands := Crew.moves_or_stands hstep hq
  · cases idle.symm.trans moves
  · exact stands

theorem claimed_step (h : Claimed c) (holds : (outline only).Holds c)
    (hstep : c.step? rules i = some c') : Claimed c' := by
  intro hstate
  obtain ⟨-, ⟨idle, same⟩ | ⟨p, n, hp, hs, hp'⟩⟩ := Crew.point?_of_step hstep
  · rw [same] at hstate
    obtain ⟨j, q, hq, claims⟩ := h hstate
    exact ⟨j, q, stays_of_idle idle hstep hq, claims⟩
  · obtain ⟨t, call, ht, hcur, stands, serves, -⟩ := holds.stands hp
    obtain ⟨p', hn, claims⟩ | ⟨before, claims⟩ := (does_of_step hs).committing stands hstate
    · exact ⟨i, p', hp'.trans hn, claims⟩
    · obtain ⟨j, q, hq, claims'⟩ := h before
      obtain moves | stays := Crew.moves_or_stands hstep hq
      · cases hp.symm.trans moves
        exact absurd claims' claims
      · exact ⟨j, q, stays, claims'⟩

/-- What waits of a kind stays minded, unless the thread that is on the way to it panics. -/
theorem minded_step {k : Kind} (h : Minded k c) (holds : (outline only).Holds c)
    (hstep : c.step? rules i = some c')
    (completes : ∀ t ∈ c.threads, ∀ call ∈ t.calls, ∀ o, call ≠ .direct (.tryCommit o))
    (quits : ∀ {k' x back side}, c.point? i = some (.inside k' x back) → x.conduct = .panics →
      ¬ back.Minds side k) : Minded k c' := by
  intro side hstate hk waits
  obtain ⟨-, ⟨idle, same⟩ | ⟨p, n, hp, hs, hp'⟩⟩ := Crew.point?_of_step hstep
  · rw [same] at hstate waits
    obtain ⟨j, q, hq, minds⟩ := h hstate hk waits
    exact ⟨j, q, stays_of_idle idle hstep hq, minds⟩
  · obtain ⟨t, call, ht, hcur, stands, serves, -⟩ := holds.stands hp
    have does := does_of_step hs
    have drains := drains_of_serves serves (completes t ht call (by simp [Thread.calls, hcur]))
    obtain ⟨p', hn, minds⟩ | ⟨before, waited⟩ := does.attends holds.shared drains hstate hk waits
    · exact ⟨i, p', hp'.trans hn, minds⟩
    · obtain ⟨j, q, hq, minds⟩ := h before hk waited
      obtain moves | stays := Crew.moves_or_stands hstep hq
      · cases hp.symm.trans moves
        obtain ⟨p', hn, minds'⟩ | ⟨k', x, back, rfl, rfl⟩ :=
          does.minds holds.shared stands before hk waits minds
        · exact ⟨i, p', hp'.trans hn, minds'⟩
        · exact absurd minds (quits hp does.conduct_of_panicked)
      · exact ⟨j, q, stays, minds⟩

theorem Attended.step (h : Attended c) (holds : (outline only).Holds c)
    (hstep : c.step? rules i = some c')
    (completes : ∀ t ∈ c.threads, ∀ call ∈ t.calls, ∀ o, call ≠ .direct (.tryCommit o))
    (calm : ∀ k x, .panicked k x ∉ c'.shared.moments) : Attended c' := by
  refine ⟨claimed_step h.claimed holds hstep, ?_⟩
  intro side k
  refine minded_step (k := k) h.minded holds hstep completes ?_
  intro k' x back side hp panics
  obtain ⟨-, ⟨idle, -⟩ | ⟨p, n, hp', hs, -⟩⟩ := Crew.point?_of_step hstep
  · cases idle.symm.trans hp
  · cases hp'.symm.trans hp
    exact absurd ((does_of_step hs).mem_moments_of_panics panics) (calm k' x)

end Steps

/-! ## Every schedule -/

section Schedules

variable {watches : Array (Watch Nat)} {calls : List (List (Call α))} {c : Troupe α}

/-- Only what some call registers is registered. -/
theorem outline_holds
    (h : Crew.Reachable rules (.initial { site := { watches } } calls) c) :
    (outline fun k x => ∃ todo ∈ calls, ∃ call ∈ todo, Registers k x call).Holds c := by
  refine Outline.holds h ⟨.empty, nofun, fun k hk => absurd rfl hk, nofun⟩ ?_
  intro todo htodo call hcall k x hx
  exact ⟨todo, htodo, call, hcall, hx⟩

theorem calls_mem (h : Crew.Reachable rules (.initial { site := { watches } } calls) c)
    {t : Thread (Call α) (Point α) (Answer α)} (ht : t ∈ c.threads) : t.calls ∈ calls := by
  rw [← h.calls_eq]
  exact List.mem_map_of_mem ht

theorem accounts (h : Crew.Reachable rules (.initial { site := { watches } } calls) c) (k : Kind) :
    (c.shared.registered k).Perm
      (c.shared.started k ++ c.threads.flatMap (inHand k) ++ c.shared.waiting k) := by
  induction h with
  | refl =>
    rw [Crew.flatMap_initial _ _ fun _ => rfl]
    rcases k with (_ | _) | _ | _ <;> exact List.Perm.nil
  | step i hreach hstep ih => exact accounts_step (outline_holds hreach).shared hstep ih

theorem attended (h : Crew.Reachable rules (.initial { site := { watches } } calls) c)
    (completes : ∀ todo ∈ calls, ∀ call ∈ todo, ∀ o, call ≠ .direct (.tryCommit o))
    (calm : ∀ k x, .panicked k x ∉ c.shared.moments) : Attended c := by
  induction h with
  | refl => exact ⟨nofun, nofun⟩
  | @step c c' i hreach hstep ih =>
    have before : ∀ k x, .panicked k x ∉ c.shared.moments := by
      intro k x hx
      obtain ⟨-, ⟨-, same⟩ | ⟨p, n, -, hs, -⟩⟩ := Crew.point?_of_step hstep
      · exact calm k x (same ▸ hx)
      · obtain ⟨ms, hms⟩ := (does_of_step hs).moments_eq
        exact calm k x (hms ▸ List.mem_append_left _ hx)
    exact (ih before).step (outline_holds hreach) hstep
      (fun t ht => completes _ (calls_mem hreach ht)) calm

/-- What the threads were to register they have registered, or have yet to. The relay that a
poll registers is not among that. -/
theorem owed_accounts (h : Crew.Reachable rules (.initial { site := { watches } } calls) c) {k : Kind}
    (direct : k = .waker → ∀ todo ∈ calls, ∀ call ∈ todo, ∃ call', call = .direct call') :
    (calls.flatMap fun todo => todo.flatMap (Site.Call.registers k)).Perm
      (c.shared.registered k ++ c.threads.flatMap (owed k)) := by
  induction h with
  | refl =>
    apply List.Perm.of_eq
    simp [Crew.initial, registered, moments, owed, List.flatMap_map]
  | @step c c' i hreach hstep ih =>
    obtain ⟨t, t', ht, move, hthreads⟩ := Crew.step?_eq_some_iff.1 hstep
    have mem := List.mem_of_getElem? ht
    obtain ⟨new, registered, owes⟩ := move_owed ((outline_holds hreach).annotated t mem)
      (fun waker => direct waker _ (calls_mem hreach mem)) move
    obtain ⟨old, now⟩ := perm_flatMap_set ht t' (owed k)
    rw [hthreads, registered, List.perm_iff_count]
    intro x
    -- Count one item in each of the lists; the rest is arithmetic.
    have ih := ih.count_eq x
    have owes := congrArg (List.count x) owes
    have old := old.count_eq x
    have now := now.count_eq x
    simp only [List.count_append] at *
    omega

/-- When all threads are done, all their calls have registered what they were to. -/
theorem registered_of_done (h : Crew.Reachable rules (.initial { site := { watches } } calls) c)
    (done : c.isDone = true) (k : Kind)
    (direct : k = .waker → ∀ todo ∈ calls, ∀ call ∈ todo, ∃ call', call = .direct call') :
    (calls.flatMap fun todo => todo.flatMap (Site.Call.registers k)).Perm
      (c.shared.registered k) := by
  have none : c.threads.flatMap (owed k) = [] := by
    rw [List.flatMap_eq_nil_iff]
    intro t ht
    obtain ⟨hcur, htodo⟩ := Crew.current_of_isDone done ht
    simp [owed, hcur, htodo]
  have accounts := owed_accounts h direct
  rwa [none, List.append_nil] at accounts

/-- When all threads are done nobody is on the way to anything, so nothing is left. -/
theorem Attended.nothing_waits (h : Attended c) (done : c.isDone = true) {side : Side} {k : Kind}
    (settled : c.shared.cell.state = .settled side) (hk : k ≠ .on side.other) :
    c.shared.waiting k = [] := by
  apply Classical.byContradiction
  intro waits
  obtain ⟨i, p, hp, -⟩ := h.minded settled hk waits
  cases (Crew.point?_of_isDone done i).symm.trans hp

theorem inHand_of_done (done : c.isDone = true) {k : Kind} :
    c.threads.flatMap (inHand k) = [] := by
  rw [List.flatMap_eq_nil_iff]
  intro t ht
  rw [inHand, (Crew.current_of_isDone done ht).1, Option.map_none, Option.getD_none]

/-- When all threads are done and one of them was to complete, the cell is settled. -/
theorem settled_of_claimed (h : Crew.Reachable rules (.initial { site := { watches } } calls) c)
    (claimed : Claimed c) (done : c.isDone = true) {todo : List (Call α)} (htodo : todo ∈ calls)
    {o : Outcome α} (ho : .direct (.complete o) ∈ todo) :
    ∃ side, c.shared.cell.state = .settled side := by
  cases hstate : c.shared.cell.state with
  | settled side => exact ⟨side, rfl⟩
  | committing =>
    obtain ⟨i, p, hp, -⟩ := claimed hstate
    cases (Crew.point?_of_isDone done i).symm.trans hp
  | pending =>
    rw [← h.calls_eq] at htodo
    obtain ⟨t, ht, rfl⟩ := List.mem_map.1 htodo
    obtain ⟨hcur, htodo⟩ := Crew.current_of_isDone done ht
    simp only [Thread.calls, hcur, htodo, Option.map_none, Option.toList_none,
      List.append_nil] at ho
    obtain ⟨⟨call, a⟩, hentry, rfl⟩ := List.mem_map.1 ho
    exact absurd hstate ((((outline_holds h).annotated t ht).answered _ hentry).committed o rfl)

theorem settled_of_done (h : Crew.Reachable rules (.initial { site := { watches } } calls) c)
    (attended : Attended c) (done : c.isDone = true) {todo : List (Call α)} (htodo : todo ∈ calls)
    {o : Outcome α} (ho : .direct (.complete o) ∈ todo) :
    ∃ side, c.shared.cell.state = .settled side :=
  settled_of_claimed h attended.claimed done htodo ho

/-- Threads register with, complete, drain and poll one completion, in any order. At
every moment whatever was registered has begun to be called, is in the hands of one
thread that is about to call it, or waits, each item once; and nothing was called
before the cell was settled, nor for the side on which it did not settle. Once all
threads are done, what was registered is what their calls were to register, and of the
wakers, the relays of polls besides. If no call of an item panics, and commits are made by
calls that complete, then once all threads are done and one of them was to complete, the
cell is settled, everything that was registered for either side or for the side it settled
on was called, and nothing else was. -/
theorem none_lost (h : Crew.Reachable rules (.initial { site := { watches } } calls) c) :
    (∀ k, (c.shared.registered k).Perm
      (c.shared.started k ++ c.threads.flatMap (inHand k) ++ c.shared.waiting k)) ∧
    (∀ k, c.shared.started k ≠ [] →
      ∃ side, c.shared.cell.state = .settled side ∧ k ≠ .on side.other) ∧
    (c.isDone = true → ∀ k,
      (k = .waker → ∀ todo ∈ calls, ∀ call ∈ todo, ∃ call', call = .direct call') →
      (c.shared.registered k).Perm
        (calls.flatMap fun todo => todo.flatMap (Site.Call.registers k))) ∧
    ((∀ k x, .panicked k x ∉ c.shared.moments) →
      (∀ todo ∈ calls, ∀ call ∈ todo, ∀ o, call ≠ .direct (.tryCommit o)) →
      c.isDone = true → (∃ todo ∈ calls, ∃ o, .direct (.complete o) ∈ todo) →
      ∃ side, c.shared.cell.state = .settled side ∧
        (∀ k, k ≠ .on side.other → c.shared.waiting k = [] ∧
          (c.shared.started k).Perm (c.shared.registered k)) ∧
        c.shared.started (.on side.other) = []) := by
  have holds := outline_holds h
  refine ⟨accounts h, holds.shared.settled,
    fun done k direct => (registered_of_done h done k direct).symm, ?_⟩
  intro calm completes done ⟨todo, htodo, o, ho⟩
  have attended := attended h completes calm
  obtain ⟨side, hside⟩ := settled_of_done h attended done htodo ho
  refine ⟨side, hside, ?_, ?_⟩
  · intro k hk
    have waiting := attended.nothing_waits done hside hk
    have accounts := accounts h k
    rw [inHand_of_done done, waiting, List.append_nil, List.append_nil] at accounts
    exact ⟨waiting, accounts.symm⟩
  · apply Classical.byContradiction
    intro started
    obtain ⟨side', hside', hk⟩ := holds.shared.settled _ started
    obtain rfl : side = side' := Cell.State.settled.inj (hside.symm.trans hside')
    exact hk rfl

end Schedules

/-- One thread registers twice, and two others complete; one of these registers later. -/
def handoverCalls : List (List (Call Nat)) :=
  [[.direct (.register (.on .success) (.callback 0 .returns)),
      .direct (.register .waker (.waker 1 .returns))],
    [.direct (.complete ⟨.success, 7⟩)],
    [.direct (.complete ⟨.failure, 8⟩), .direct (.register .always (.callback 2 .returns))]]

/-- The first callback is appended after the cell has settled and before the winner looks
into the queues. Afterwards the threads take turns. -/
def handoverSchedule : List Nat :=
  [1, 1, 1, 1, 1, 0, 0, 1, 1, 1, 0, 0, 0, 1, 0, 1, 0] ++ (List.replicate 30 [0, 1, 2]).flatten

def handover : Troupe Nat :=
  Crew.after rules handoverSchedule (.initial { site := { watches := #[] } } handoverCalls)

theorem none_lost_handover :
    Crew.Reachable rules (.initial { site := { watches := #[] } } handoverCalls) handover ∧
    (∀ k x, .panicked k x ∉ handover.shared.moments) ∧
    (∀ todo ∈ handoverCalls, ∀ call ∈ todo, ∀ o, call ≠ .direct (.tryCommit o)) ∧
    handover.isDone = true ∧ (∃ todo ∈ handoverCalls, ∃ o, .direct (.complete o) ∈ todo) ∧
    (∀ k, (handover.shared.registered k).Perm
      (handover.shared.started k ++ handover.threads.flatMap (inHand k)
        ++ handover.shared.waiting k)) ∧
    (∀ k, handover.shared.started k ≠ [] →
      ∃ side, handover.shared.cell.state = .settled side ∧ k ≠ .on side.other) ∧
    (handover.shared.registered .waker).Perm [.waker 1 .returns] ∧
    ∃ side, handover.shared.cell.state = .settled side ∧
      (∀ k, k ≠ .on side.other → handover.shared.waiting k = [] ∧
        (handover.shared.started k).Perm (handover.shared.registered k)) ∧
      handover.shared.started (.on side.other) = [] := by
  have reachable : Crew.Reachable rules
      (.initial { site := { watches := #[] } } handoverCalls) handover :=
    Crew.Reachable.refl.after handoverSchedule
  have none : (handover.shared.moments.countP fun m => m matches .panicked _ _) = 0 := by
    decide +kernel
  have calm : ∀ k x, .panicked k x ∉ handover.shared.moments :=
    fun k x hx => List.countP_eq_zero.1 none _ hx rfl
  have completes : ∀ todo ∈ handoverCalls, ∀ call ∈ todo, ∀ o, call ≠ .direct (.tryCommit o) := by
    simp [handoverCalls]
  have done : handover.isDone = true := by decide +kernel
  have called : ∃ todo ∈ handoverCalls, ∃ o, .direct (.complete o) ∈ todo :=
    ⟨_, List.mem_cons_of_mem _ (List.mem_cons_self ..), _, List.mem_cons_self ..⟩
  have direct : ∀ todo ∈ handoverCalls, ∀ call ∈ todo, ∃ call', call = .direct call' := by
    simp [handoverCalls]
  obtain ⟨accounts, settled, registered, done_settled⟩ := none_lost reachable
  exact ⟨reachable, calm, completes, done, called, accounts, settled,
    registered done .waker fun _ => direct, done_settled calm completes done called⟩

end Eventual.Stage
