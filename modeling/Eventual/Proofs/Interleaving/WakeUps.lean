import Eventual.Proofs.Interleaving.Wakers

/-!
# No wake-up is lost

Threads poll the handles of a promise while others register callbacks and settle it. A
poll that answers that it is pending has stored its waker and has seen to it that the
relay of its handle is registered, and after that it has looked at the cell once more and
not found it settled. So at that moment the relay waits in the queue of the wakers and the
watch holds the waker of this poll: the wake-up is `Due`. Nobody stores another waker there
unless the handle is polled again, the relay is called once the cell is settled, and it
takes out of the watch what it finds there.

The first poll of a handle registers the relay, and later ones rely on it. That is sound
because a handle is polled by one thread at a time: a poll that finds its watch subscribed
knows that the poll which subscribed it is over, and so has appended the relay. `Enrolled`
says what the points of a poll stand for, and `Exclusive` is used twice in its step: for
that, and because no other poll overwrites the waker.

Callbacks may panic. A poll that unwinds has appended its relay before it drained, and the
wakers themselves are minded whatever callbacks do.
-/

namespace Eventual

namespace Crew

variable {σ κ π ρ : Type}

/-- Some schedule leads to a configuration by way of configurations that are allowed. -/
inductive LeadsTo (rules : Rules σ κ π ρ) (allowed : Crew σ κ π ρ → Prop) (start : Crew σ κ π ρ) :
    Crew σ κ π ρ → Prop
  | refl : allowed start → LeadsTo rules allowed start start
  | step {c c' : Crew σ κ π ρ} (i : Nat) : LeadsTo rules allowed start c →
      c.step? rules i = some c' → allowed c' → LeadsTo rules allowed start c'

section Runs

variable {rules : Rules σ κ π ρ} {allowed : Crew σ κ π ρ → Prop} {start c c' : Crew σ κ π ρ}

theorem LeadsTo.reachable (h : LeadsTo rules allowed start c) : Reachable rules start c := by
  induction h with
  | refl => exact .refl
  | step i _ hstep _ ih => exact ih.step i hstep

theorem LeadsTo.arrives (h : LeadsTo rules allowed start c) : allowed c := by
  cases h with
  | refl here => exact here
  | step _ _ _ here => exact here

/-- A schedule all of whose configurations are allowed. -/
theorem leadsTo_after (schedule : List Nat)
    (all : ∀ k ≤ schedule.length, allowed (start.after rules (schedule.take k))) :
    LeadsTo rules allowed start (start.after rules schedule) := by
  have upTo : ∀ k ≤ schedule.length,
      LeadsTo rules allowed start (start.after rules (schedule.take k)) := by
    intro k
    induction k with
    | zero => exact fun hk => .refl (all 0 hk)
    | succ k ih =>
      intro hk
      have before := ih (Nat.le_of_succ_le hk)
      have here := all (k + 1) hk
      rw [List.take_succ_eq_append_getElem hk, Crew.after, List.foldl_append] at here ⊢
      change LeadsTo rules allowed start (((start.after rules (schedule.take k)).step? rules
        schedule[k]).getD (start.after rules (schedule.take k)))
      change allowed (((start.after rules (schedule.take k)).step? rules
        schedule[k]).getD (start.after rules (schedule.take k))) at here
      cases hstep : (start.after rules (schedule.take k)).step? rules schedule[k] with
      | none => exact before
      | some c' =>
        rw [hstep] at here
        exact before.step _ hstep here
  have whole := upTo schedule.length (Nat.le_refl _)
  rwa [List.take_length] at whole

/-- The call that a thread is in. -/
def call? (c : Crew σ κ π ρ) (i : Nat) : Option κ :=
  (c.threads[i]?.bind Thread.current).map Prod.fst

theorem call?_eq_some_iff {i : Nat} {call : κ} :
    c.call? i = some call ↔ ∃ t p, c.threads[i]? = some t ∧ t.current = some (call, p) := by
  unfold call?
  constructor
  · intro h
    obtain ⟨⟨call', p⟩, hcur, rfl⟩ := Option.map_eq_some_iff.1 h
    obtain ⟨t, ht, hcur⟩ := Option.bind_eq_some_iff.1 hcur
    exact ⟨t, p, ht, hcur⟩
  · rintro ⟨t, p, ht, hcur⟩
    rw [ht, Option.bind_some, hcur, Option.map_some]

/-- Who adds an answer to those of a thread has made the last access of its call. -/
theorem of_answersOf_step {i : Nat} {call : κ} {a : ρ} (h : c.step? rules i = some c')
    (ha : c'.answersOf i = c.answersOf i ++ [(call, a)]) :
    ∃ p, c.call? i = some call ∧ c.point? i = some p ∧
      rules.step c.shared p = (c'.shared, .done a) := by
  obtain ⟨t, t', ht, ht', move, -⟩ := exists_move h
  rw [answersOf_of_getElem? ht, answersOf_of_getElem? ht'] at ha
  obtain ⟨p, hcur, hs⟩ := move.of_answers ha
  exact ⟨p, call?_eq_some_iff.2 ⟨t, p, ht, hcur⟩, point?_eq_some_iff.2 ⟨t, call, ht, hcur⟩, hs⟩

/-- The step that answers a call adds the answer to those of the thread. -/
theorem answersOf_of_done {i : Nat} {call : κ} {p : π} {a : ρ} {s : σ}
    (h : c.step? rules i = some c') (hcall : c.call? i = some call) (hp : c.point? i = some p)
    (hs : rules.step c.shared p = (s, .done a)) :
    c'.answersOf i = c.answersOf i ++ [(call, a)] := by
  obtain ⟨t, t', ht, ht', move, -⟩ := exists_move h
  obtain ⟨u, q, hu, hcur⟩ := call?_eq_some_iff.1 hcall
  obtain rfl := Option.some.inj (ht.symm.trans hu)
  rw [point?_of_getElem? ht, hcur, Option.map_some] at hp
  obtain rfl : q = p := Option.some.inj hp
  rw [answersOf_of_getElem? ht, answersOf_of_getElem? ht']
  generalize c'.shared = s' at move
  cases move with
  | begins hidle _ => cases hcur.symm.trans hidle
  | goes hcur' hs' =>
    cases hcur.symm.trans hcur'
    cases hs.symm.trans hs'
  | answers hcur' hs' =>
    cases hcur.symm.trans hcur'
    cases hs.symm.trans hs'
    rfl

/-- Answers stay on record. -/
theorem answersOf_grow {i j : Nat} (h : c.step? rules i = some c') :
    ∃ more, c'.answersOf j = c.answersOf j ++ more := by
  obtain ⟨t, t', ht, ht', move, others⟩ := exists_move h
  by_cases hj : j = i
  · subst hj
    rw [answersOf_of_getElem? ht, answersOf_of_getElem? ht']
    generalize c'.shared = s' at move
    cases move with
    | begins | goes => exact ⟨[], (List.append_nil _).symm⟩
    | answers => exact ⟨_, rfl⟩
  · rw [answersOf, answersOf, others j hj]
    exact ⟨[], (List.append_nil _).symm⟩

end Runs

end Crew

namespace Site

variable {α ι τ : Type}

/-! ## Watches -/

/-- A poll that has stored its waker and has not answered yet. -/
def Point.Stored (p : Poll ι τ) : Point α ι τ → Prop
  | .subscribe p' | .registering p' _ | .lookAgain p' => p' = p
  | .direct _ | .look _ | .store _ => False

/-- A poll that knows that the relay of its handle has been registered. -/
def Point.Enlisted (p : Poll ι τ) : Point α ι τ → Prop
  | .registering p' here => p' = p ∧ ∀ k x, here ≠ .append k x
  | .lookAgain p' => p' = p
  | .direct _ | .look _ | .store _ | .subscribe _ => False

theorem Point.Stored.poll? {p : Poll ι τ} {here : Point α ι τ} (h : here.Stored p) :
    here.poll? = some p := by
  cases here with
  | subscribe | registering | lookAgain => exact congrArg some h
  | direct | look | store => exact h.elim

/-- A point of a poll belongs to the call that polls so. -/
theorem Point.Serves.eq_poll {p : Poll ι τ} {here : Point α ι τ} {call : Call α ι τ}
    (h : here.Serves call) (hp : here.poll? = some p) : call = .poll p := by
  cases call with
  | direct call =>
    cases here with
    | direct => cases hp
    | _ => exact h.elim
  | poll p' =>
    cases here with
    | direct => cases hp
    | registering =>
      cases hp
      rw [h.1]
    | look | store | subscribe | lookAgain =>
      cases hp
      exact congrArg Call.poll (Eq.symm h)

section Effects

variable {s s' : Site α ι τ} {p p' : Point α ι τ} {a : Action α ι (Point α ι τ) (Answer α)}
  {poll : Poll ι τ}

/-- A poll has stored its waker before it does anything else. -/
theorem Does.next_stored (does : Does s p s' a) (next : a.next? = some p') (h : p'.Stored poll) :
    p.Stored poll ∨ p = .store poll := by
  cases does with
  | direct =>
    rw [Action.next?_map] at next
    obtain ⟨here', -, rfl⟩ := Option.map_eq_some_iff.1 next
    exact h.elim
  | registering =>
    rw [Action.next?_map] at next
    obtain ⟨here', -, rfl⟩ := Option.map_eq_some_iff.1 next
    exact .inl h
  | unready =>
    cases next
    exact h.elim
  | @store p =>
    cases next
    obtain rfl : p = poll := h
    exact .inr rfl
  | subscribed | subscribe | registered =>
    cases next
    exact .inl h
  | ready | readyAgain | pending => cases next

/-- A poll knows that its relay is registered when it has appended it, or when it has found
the watch subscribed. -/
theorem Does.next_enlisted (does : Does s p s' a) (next : a.next? = some p')
    (h : p'.Enlisted poll) :
    p.Enlisted poll ∨ (∃ k x, p = .registering poll (.append k x)) ∨
      (p = .subscribe poll ∧ (s.watch poll.watch).subscribed = true) := by
  cases does with
  | direct =>
    rw [Action.next?_map] at next
    obtain ⟨here', -, rfl⟩ := Option.map_eq_some_iff.1 next
    exact h.elim
  | @registering p here =>
    rw [Action.next?_map] at next
    obtain ⟨here', -, rfl⟩ := Option.map_eq_some_iff.1 next
    obtain ⟨rfl, -⟩ := h
    by_cases appends : ∃ k x, here = .append k x
    · obtain ⟨k, x, rfl⟩ := appends
      exact .inr (.inl ⟨k, x, rfl⟩)
    · exact .inl ⟨rfl, fun k x hx => appends ⟨k, x, hx⟩⟩
  | @registered p here c answer inner =>
    cases next
    obtain rfl : p = poll := h
    refine .inl ⟨rfl, ?_⟩
    rintro k x rfl
    cases inner
  | unready | store =>
    cases next
    exact h.elim
  | @subscribed p subscribed =>
    cases next
    obtain rfl : p = poll := h
    exact .inr (.inr ⟨rfl, subscribed⟩)
  | subscribe =>
    cases next
    exact absurd rfl (h.2 _ _)
  | ready | readyAgain | pending => cases next

/-- A poll answers that it is pending when it has looked again and found nothing. -/
theorem Does.of_pending (does : Does s p s' (.done .pending)) :
    ∃ poll, p = .lookAgain poll ∧ s' = s ∧ s.completion.cell.result = none := by
  generalize ha : (Action.done .pending : Action α ι (Point α ι τ) (Answer α)) = a at does
  cases does with
  | @direct here c a' inner => cases a' <;> cases ha
  | @registering p here c a' inner ne => cases a' <;> cases ha
  | pending h => exact ⟨_, rfl, rfl, h⟩
  | _ => cases ha

end Effects

end Site

namespace Stage

variable {α : Type}

section Effects

variable {s s' : Stage α} {p p' : Point α} {n : Next (Point α) (Answer α)} {w : WatchId}

theorem relay_of_some {waker : Nat} (h : (s.site.watch w).stored = some waker) :
    (s.relay w).moments = s.moments ++ [.woken w waker] := by
  unfold Stage.relay Site.takeWaker
  rw [h]
  exact moments_record ..

theorem site_relay (s : Stage α) (w : WatchId) : (s.relay w).site = (s.site.takeWaker w).1 := by
  unfold Stage.relay
  split
  next h => rw [h]
  next h => rw [h, site_record]

/-- A relay takes the waker out of its watch, and other items leave it there. -/
theorem watch_attend (s : Stage α) (x : Player) (w : WatchId) :
    (s.attend x).site.watch w
      = if x = .relay w then { s.site.watch w with stored := none } else s.site.watch w := by
  cases x with
  | relay w' =>
    rw [attend, site_relay, Site.takeWaker, Site.watch_updateWatch]
    by_cases hw : w' = w
    · subst hw
      by_cases hsize : w' < s.site.watches.size
      · rw [if_pos ⟨rfl, hsize⟩, if_pos rfl]
      · -- There is no such watch, so there is nothing to take.
        rw [if_neg fun h => hsize h.2, if_pos rfl, Site.watch,
          Array.getElem?_eq_none (Nat.le_of_not_lt hsize), Option.getD_none]
    · rw [if_neg fun h => hw h.1, if_neg fun h => hw (Player.relay.inj h)]
  | callback _ _ | waker _ _ => rfl

theorem size_attend (s : Stage α) (x : Player) :
    (s.attend x).site.watches.size = s.site.watches.size := by
  cases x with
  | relay w =>
    rw [attend, site_relay]
    exact Array.size_modify ..
  | callback _ _ | waker _ _ => rfl

theorem Does.size_eq (does : Does s p s' n) : s'.site.watches.size = s.site.watches.size := by
  cases does with
  | goes inner | notices inner | takes inner | answers inner | refuses inner => exact inner.size_eq
  | starts => rfl
  | returns | contains | panics => exact s.size_attend _

/-- What a watch holds is changed by a poll that stores its waker, and by the relay. -/
theorem Does.stored_eq (does : Does s p s' n) (w : WatchId) :
    (s'.site.watch w).stored = (s.site.watch w).stored ∨
      (∃ poll, p = .routine (.store poll) ∧ poll.watch = w) ∨
      ∃ k back, p = .inside k (.relay w) back := by
  cases does with
  | goes inner | notices inner | takes inner | answers inner | refuses inner =>
    obtain same | ⟨poll, rfl, hw⟩ := inner.stored_eq w
    · exact .inl same
    · exact .inr (.inl ⟨poll, rfl, hw⟩)
  | starts => exact .inl rfl
  | @returns k x back | @contains k x back | @panics k x back =>
    have watch := s.watch_attend x w
    split at watch
    next h => exact .inr (.inr ⟨k, back, by rw [h]⟩)
    next h => exact .inl (congrArg Watch.stored watch)

/-- A watch is subscribed by a poll that goes on to register its relay. -/
theorem Does.subscribes (does : Does s p s' n) (subscribed : (s'.site.watch w).subscribed = true) :
    (s.site.watch w).subscribed = true ∨ ∃ poll, p = .routine (.subscribe poll) ∧ poll.watch = w ∧
      n = .goto (.routine (.registering poll (.append .waker poll.relay))) := by
  cases does with
  | goes inner | notices inner | takes inner | answers inner | refuses inner =>
    obtain before | ⟨poll, rfl, hw, ha⟩ := inner.subscribes subscribed
    · exact .inl before
    · cases ha <;> exact .inr ⟨poll, rfl, hw, rfl⟩
  | starts => exact .inl subscribed
  | @returns k x back | @contains k x back | @panics k x back =>
    rw [site_record, watch_attend] at subscribed
    split at subscribed <;> exact .inl subscribed

/-- A poll answers that it is pending when it has looked again and found nothing. -/
theorem Does.of_pending (does : Does s p s' (.done (.returned .pending))) :
    ∃ poll, p = .routine (.lookAgain poll) ∧ s' = s ∧ s.cell.result = none := by
  cases does with
  | answers inner =>
    obtain ⟨poll, rfl, rfl, none⟩ := inner.of_pending
    exact ⟨poll, rfl, rfl, none⟩

end Effects

/-! ## Who polls -/

/-- The handle that a thread polls. -/
def handle? (t : Thread (Call α) (Point α) (Answer α)) : Option WatchId :=
  match t.current with
  | some (.poll p, _) => some p.watch
  | some (.direct _, _) | none => none

/-- Each handle is polled by one thread at a time. -/
def Exclusive (c : Troupe α) : Prop := (c.threads.filterMap handle?).Nodup

instance (c : Troupe α) : Decidable (Exclusive c) :=
  inferInstanceAs (Decidable (c.threads.filterMap handle?).Nodup)

/-- Nobody polls the handle. -/
def Unpolled (w : WatchId) (c : Troupe α) : Prop := w ∉ c.threads.filterMap handle?

instance (w : WatchId) (c : Troupe α) : Decidable (Unpolled w c) :=
  inferInstanceAs (Decidable (w ∉ c.threads.filterMap handle?))

/-- Every poll brings the relay of a watch that there is. -/
def Proper (c : Troupe α) : Prop :=
  ∀ {i p}, c.call? i = some (.poll p) →
    p.relay = .relay p.watch ∧ p.watch < c.shared.site.watches.size

section Runs

variable {only : Kind → Player → Prop} {c c' : Troupe α} {i j : Nat} {p : Point α}
  {q q' : Site.Poll Player Nat} {w : WatchId}

theorem exists_handle (h : c.call? i = some (.poll q)) :
    ∃ t, c.threads[i]? = some t ∧ handle? t = some q.watch := by
  obtain ⟨t, p, ht, hcur⟩ := Crew.call?_eq_some_iff.1 h
  exact ⟨t, ht, by rw [handle?, hcur]⟩

theorem Exclusive.eq (h : Exclusive c) (hi : c.call? i = some (.poll q))
    (hj : c.call? j = some (.poll q')) (same : q.watch = q'.watch) : i = j := by
  obtain ⟨t, ht, handle⟩ := exists_handle hi
  obtain ⟨u, hu, handle'⟩ := exists_handle hj
  obtain ⟨hi, rfl⟩ := List.getElem?_eq_some_iff.1 ht
  obtain ⟨hj, rfl⟩ := List.getElem?_eq_some_iff.1 hu
  have apart := List.pairwise_iff_getElem.1 (List.pairwise_filterMap.1 h)
  obtain before | rfl | after := Nat.lt_trichotomy i j
  · exact absurd same (apart i j hi hj before _ handle _ handle')
  · rfl
  · exact absurd same.symm (apart j i hj hi after _ handle' _ handle)

theorem Unpolled.ne (h : Unpolled w c) (hi : c.call? i = some (.poll q)) : q.watch ≠ w := by
  rintro rfl
  obtain ⟨t, ht, handle⟩ := exists_handle hi
  exact h (List.mem_filterMap.2 ⟨t, List.mem_of_getElem? ht, handle⟩)

/-- What is known of a thread from the point at which it stands. -/
theorem standing (holds : (outline only).Holds c) (hp : c.point? i = some p) :
    ∃ call, c.call? i = some call ∧ Stands c.shared p ∧ p.back.Serves call := by
  obtain ⟨t, call, ht, hcur⟩ := Crew.point?_eq_some_iff.1 hp
  obtain ⟨stands, serves, -⟩ := (holds.annotated t (List.mem_of_getElem? ht)).stands hcur
  exact ⟨call, Crew.call?_eq_some_iff.2 ⟨t, p, ht, hcur⟩, stands, serves⟩

theorem call?_of_poll? (holds : (outline only).Holds c) (hp : c.point? i = some p)
    (hq : p.back.poll? = some q) : c.call? i = some (.poll q) := by
  obtain ⟨call, hcall, -, serves⟩ := standing holds hp
  rwa [serves.eq_poll hq] at hcall

/-- What was registered stays registered. -/
theorem registered_of_step (hstep : c.step? rules i = some c') {k : Kind} {x : Player}
    (hx : x ∈ c.shared.registered k) : x ∈ c'.shared.registered k := by
  obtain ⟨-, ⟨-, same⟩ | ⟨p, n, hp, hs, -⟩⟩ := Crew.point?_of_step hstep
  · rwa [same]
  · obtain ⟨new, registered, -⟩ := (does_of_step hs).registered_eq k
    rw [registered]
    exact List.mem_append_left _ hx

/-! ## What the points of a poll stand for -/

/-- What is known of the watches: the relay of a watch that is subscribed has been
registered, or is about to be by the poll that subscribed it. -/
structure Enrolled (c : Troupe α) : Prop where
  subscribed : ∀ {w}, (c.shared.site.watch w).subscribed = true →
    .relay w ∈ c.shared.registered .waker ∨ ∃ i q, q.watch = w ∧
      c.point? i = some (.routine (.registering q (.append .waker q.relay)))
  enlisted : ∀ {i p q}, c.point? i = some p → p.back.Enlisted q →
    .relay q.watch ∈ c.shared.registered .waker
  /-- Until the cell is settled a watch holds the waker of the poll that stored it last. -/
  stored : ∀ {i p q}, c.point? i = some p → p.back.Stored q →
    (∀ side, c.shared.cell.state ≠ .settled side) →
    (c.shared.site.watch q.watch).stored = some q.waker

/-- Who appends the relay of a poll has registered it. -/
theorem registered_of_append (holds : (outline only).Holds c) (proper : Proper c)
    (hstep : c.step? rules i = some c') {k : Kind} {x : Player}
    (hp : c.point? i = some (.routine (.registering q (.append k x)))) :
    .relay q.watch ∈ c'.shared.registered .waker := by
  obtain ⟨-, ⟨idle, -⟩ | ⟨p, n, hp', hs, -⟩⟩ := Crew.point?_of_step hstep
  · cases idle.symm.trans hp
  · cases hp'.symm.trans hp
    obtain ⟨call, hcall, -, serves⟩ := standing holds hp
    obtain rfl := serves.eq_poll rfl
    obtain ⟨-, rfl, rfl⟩ := serves
    rw [(does_of_step hs).registers, ← (proper hcall).1]
    exact List.mem_append_right _ (List.mem_singleton_self _)

theorem Enrolled.subscribed_step (h : Enrolled c) (holds : (outline only).Holds c)
    (proper : Proper c) (hstep : c.step? rules i = some c')
    (subscribed : (c'.shared.site.watch w).subscribed = true) :
    .relay w ∈ c'.shared.registered .waker ∨ ∃ i q, q.watch = w ∧
      c'.point? i = some (.routine (.registering q (.append .waker q.relay))) := by
  have before : (c.shared.site.watch w).subscribed = true →
      .relay w ∈ c'.shared.registered .waker ∨ ∃ i q, q.watch = w ∧
        c'.point? i = some (.routine (.registering q (.append .waker q.relay))) := by
    intro subscribed
    obtain registered | ⟨j, q, hq, hj⟩ := h.subscribed subscribed
    · exact .inl (registered_of_step hstep registered)
    · obtain moves | stands := Crew.moves_or_stands hstep hj
      · exact .inl (hq ▸ registered_of_append holds proper hstep moves)
      · exact .inr ⟨j, q, hq, stands⟩
  obtain ⟨-, ⟨-, same⟩ | ⟨p, n, hp, hs, hp'⟩⟩ := Crew.point?_of_step hstep
  · rw [same] at subscribed
    exact before subscribed
  · obtain earlier | ⟨q, rfl, hq, rfl⟩ := (does_of_step hs).subscribes subscribed
    · exact before earlier
    · exact .inr ⟨i, q, hq, hp'⟩

theorem Enrolled.enlisted_step (h : Enrolled c) (holds : (outline only).Holds c)
    (proper : Proper c) (exclusive : Exclusive c) (hstep : c.step? rules i = some c')
    (hp : c'.point? j = some p) (enlisted : p.back.Enlisted q) :
    .relay q.watch ∈ c'.shared.registered .waker := by
  obtain ⟨-, before⟩ | ⟨call, rfl, -⟩ | ⟨p₀, rfl, before, hs⟩ := Crew.of_point?_step hstep hp
  · exact registered_of_step hstep (h.enlisted before enlisted)
  · cases call <;> exact enlisted.elim
  · obtain ⟨here, action, rfl, inner, next⟩ | ⟨-, same⟩ := (does_of_step hs).back_eq
    · obtain earlier | ⟨k, x, rfl⟩ | ⟨rfl, subscribed⟩ := inner.next_enlisted next enlisted
      · exact registered_of_step hstep (h.enlisted before earlier)
      · exact registered_of_append holds proper hstep before
      · obtain registered | ⟨i', q', hq, other⟩ := h.subscribed subscribed
        · exact registered_of_step hstep registered
        · -- Another thread would be polling this handle too.
          obtain rfl := exclusive.eq (call?_of_poll? holds other rfl)
            (call?_of_poll? holds before rfl) hq
          cases before.symm.trans other
    · exact registered_of_step hstep (h.enlisted before (same ▸ enlisted))

/-- While the cell is not settled, only a poll of the handle changes what its watch holds. -/
theorem stored_of_step (holds : (outline only).Holds c) (hstep : c.step? rules i = some c')
    (unsettled : ∀ side, c.shared.cell.state ≠ .settled side)
    (others : ∀ q, c.point? i = some (.routine (.store q)) → q.watch ≠ w) :
    (c'.shared.site.watch w).stored = (c.shared.site.watch w).stored := by
  obtain ⟨-, ⟨-, same⟩ | ⟨p, n, hp, hs, -⟩⟩ := Crew.point?_of_step hstep
  · rw [same]
  · obtain same | ⟨q, rfl, hq⟩ | ⟨k, back, rfl⟩ := (does_of_step hs).stored_eq w
    · exact same
    · exact absurd hq (others q hp)
    · obtain ⟨-, -, ⟨-, -, ⟨side, hs, -⟩, -⟩, -⟩ := standing holds hp
      exact absurd hs (unsettled side)

theorem unsettled_of_step (holds : (outline only).Holds c) (hstep : c.step? rules i = some c')
    (unsettled : ∀ side, c'.shared.cell.state ≠ .settled side) (side : Side) :
    c.shared.cell.state ≠ .settled side := by
  intro settled
  obtain ⟨-, ⟨-, same⟩ | ⟨p, n, hp, hs, -⟩⟩ := Crew.point?_of_step hstep
  · rw [← same] at settled
    exact unsettled side settled
  · obtain ⟨-, -, stands, -⟩ := standing holds hp
    rw [← (does_of_step hs).cell_eq stands settled] at settled
    exact unsettled side settled

theorem Enrolled.stored_step (h : Enrolled c) (holds : (outline only).Holds c)
    (proper : Proper c) (exclusive : Exclusive c) (hstep : c.step? rules i = some c')
    (hp : c'.point? j = some p) (stored : p.back.Stored q)
    (unsettled : ∀ side, c'.shared.cell.state ≠ .settled side) :
    (c'.shared.site.watch q.watch).stored = some q.waker := by
  have unsettled := unsettled_of_step holds hstep unsettled
  obtain ⟨hj, before⟩ | ⟨call, rfl, -⟩ | ⟨p₀, rfl, before, hs⟩ := Crew.of_point?_step hstep hp
  · rw [stored_of_step holds hstep unsettled ?_]
    · exact h.stored before stored unsettled
    · intro q' hq' same
      exact hj (exclusive.eq (call?_of_poll? holds before stored.poll?)
        (call?_of_poll? holds hq' rfl) same.symm)
  · cases call <;> exact stored.elim
  · obtain ⟨here, action, rfl, inner, next⟩ | ⟨-, same⟩ := (does_of_step hs).back_eq
    · obtain earlier | rfl := inner.next_stored next stored
      · rw [stored_of_step holds hstep unsettled ?_]
        · exact h.stored before earlier unsettled
        · intro q' hq' same
          cases before.symm.trans hq'
          exact earlier.elim
      · exact inner.stores (proper (call?_of_poll? holds before rfl)).2
    · rw [stored_of_step holds hstep unsettled ?_]
      · exact h.stored before (same ▸ stored) unsettled
      · intro q' hq' hw
        cases before.symm.trans hq'
        rw [same] at stored
        exact stored.elim

theorem Enrolled.step (h : Enrolled c) (holds : (outline only).Holds c) (proper : Proper c)
    (exclusive : Exclusive c) (hstep : c.step? rules i = some c') : Enrolled c' where
  subscribed := h.subscribed_step holds proper hstep
  enlisted := h.enlisted_step holds proper exclusive hstep
  stored := h.stored_step holds proper exclusive hstep

/-! ## Wake-ups that are due -/

/-- The thread is about to call the item or calls it. -/
def Point.Calls (x : Player) : Point α → Prop
  | .holding _ y _ _ | .inside _ y _ => y = x
  | .routine _ => False

/-- The waker will be woken through the handle: the watch holds it, and the relay waits or
is being called. -/
structure Due (w : WatchId) (waker : Nat) (c : Troupe α) : Prop where
  stored : (c.shared.site.watch w).stored = some waker
  coming : .relay w ∈ c.shared.waiting .waker ∨ ∃ i p, c.point? i = some p ∧ p.Calls (.relay w)

/-- A relay that waits or is being called goes on so until the thread that calls it is in
the call. -/
theorem Due.coming_step {waker : Nat} (h : Due w waker c) (holds : (outline only).Holds c)
    (hstep : c.step? rules i = some c')
    (outside : ∀ k back, c.point? i ≠ some (.inside k (.relay w) back)) :
    .relay w ∈ c'.shared.waiting .waker ∨ ∃ i p, c'.point? i = some p ∧ p.Calls (.relay w) := by
  obtain ⟨-, ⟨idle, same⟩ | ⟨p, n, hp, hs, hp'⟩⟩ := Crew.point?_of_step hstep
  · obtain waits | ⟨j, q, hq, calls⟩ := h.coming
    · exact .inl (same ▸ waits)
    · exact .inr ⟨j, q, stays_of_idle idle hstep hq, calls⟩
  · obtain waits | ⟨j, q, hq, calls⟩ := h.coming
    · obtain waits' | ⟨arg, back, rfl⟩ := (does_of_step hs).waits_or_takes holds.shared.atRest waits
      · exact .inl waits'
      · exact .inr ⟨i, _, hp', rfl⟩
    · obtain moves | stands := Crew.moves_or_stands hstep hq
      · obtain rfl : p = q := Option.some.inj (hp.symm.trans moves)
        cases p with
        | routine here => exact calls.elim
        | holding k x arg back =>
          generalize c'.shared = s' at hs
          cases does_of_step hs with
          | starts => exact .inr ⟨i, _, hp', calls⟩
        | inside k x back =>
          obtain rfl : x = .relay w := calls
          exact absurd hp (outside k back)
      · exact .inr ⟨j, q, stands, calls⟩

/-- A wake-up that is due stays so until it is made, if nobody polls the handle again. -/
theorem Due.step {waker : Nat} (h : Due w waker c) (holds : (outline only).Holds c)
    (unpolled : Unpolled w c) (hstep : c.step? rules i = some c') :
    Due w waker c' ∨
      ∃ ms, c'.shared.moments = c.shared.moments ++ ms ∧ .woken w waker ∈ ms := by
  by_cases calls : ∃ k back, c.point? i = some (.inside k (.relay w) back)
  · obtain ⟨k, back, hp⟩ := calls
    obtain ⟨-, ⟨idle, -⟩ | ⟨p, n, hp', hs, -⟩⟩ := Crew.point?_of_step hstep
    · cases idle.symm.trans hp
    · cases hp'.symm.trans hp
      refine .inr ⟨[.woken w waker, .returned k (.relay w)], ?_, List.mem_cons_self ..⟩
      generalize c'.shared = s' at hs
      cases does_of_step hs with
      | returns =>
        rw [moments_record, attend, relay_of_some h.stored, List.append_assoc]
        rfl
      | contains conduct | panics conduct => cases conduct
  · refine .inl ⟨?_, h.coming_step holds hstep fun k back hp => calls ⟨k, back, hp⟩⟩
    obtain ⟨-, ⟨-, same⟩ | ⟨p, n, hp, hs, -⟩⟩ := Crew.point?_of_step hstep
    · rw [same]
      exact h.stored
    · obtain same | ⟨q, rfl, hq⟩ | ⟨k, back, rfl⟩ := (does_of_step hs).stored_eq w
      · exact same.trans h.stored
      · exact absurd hq (unpolled.ne (call?_of_poll? holds hp rfl))
      · exact absurd ⟨k, back, hp⟩ calls

end Runs

section Schedules

variable {watches : Array (Watch Nat)} {calls : List (List (Call α))} {c c' : Troupe α} {i : Nat}

/-- A wake-up that is due is made or stays due. -/
theorem Due.run {w : WatchId} {waker : Nat} {c₁ : Troupe α} (due : Due w waker c₁)
    (before : Crew.Reachable rules (.initial { site := { watches } } calls) c₁)
    (h : Crew.LeadsTo rules (Unpolled w) c₁ c) :
    Due w waker c ∨ ∃ ms, c.shared.moments = c₁.shared.moments ++ ms ∧ .woken w waker ∈ ms := by
  induction h with
  | refl => exact .inl due
  | step i hleads hstep _ ih =>
    obtain due | ⟨ms, hms, woken⟩ := ih
    · have holds := outline_holds (before.trans hleads.reachable)
      obtain due' | ⟨new, hnew, woken⟩ := due.step holds hleads.arrives hstep
      · exact .inl due'
      · obtain ⟨ms, hms⟩ := moments_after hleads.reachable
        exact .inr ⟨ms ++ new, by rw [hnew, hms, List.append_assoc],
          List.mem_append_right _ woken⟩
    · obtain ⟨new, hnew⟩ := moments_grow hstep
      exact .inr ⟨ms ++ new, by rw [hnew, hms, List.append_assoc], List.mem_append_left _ woken⟩

/-- Until the cell is settled, all that was registered waits. -/
theorem waits_of_unsettled
    (h : Crew.Reachable rules (.initial { site := { watches } } calls) c)
    (unsettled : ∀ side, c.shared.cell.state ≠ .settled side) {k : Kind} {x : Player}
    (hx : x ∈ c.shared.registered k) : x ∈ c.shared.waiting k := by
  have holds := outline_holds h
  rw [(accounts h k).mem_iff, List.mem_append, List.mem_append] at hx
  obtain (started | held) | waits := hx
  · obtain ⟨side, hs, -⟩ := holds.shared.settled k (List.ne_nil_of_mem started)
    exact absurd hs (unsettled side)
  · obtain ⟨t, ht, held⟩ := List.mem_flatMap.1 held
    cases hcur : t.current with
    | none => simp [inHand, hcur] at held
    | some here =>
      obtain ⟨call, p⟩ := here
      obtain ⟨stands, -⟩ := (holds.annotated t ht).stands hcur
      cases p with
      | routine | inside => simp [inHand, hcur, Point.held] at held
      | holding k' y arg back =>
        obtain ⟨-, -, side, hs, -⟩ := stands
        exact absurd hs (unsettled side)
  · exact waits

/-- When a poll answers that it is pending, its wake-up is due. -/
theorem due_of_pending (h : Crew.Reachable rules (.initial { site := { watches } } calls) c)
    (enrolled : Enrolled c) (hstep : c.step? rules i = some c') {p : Site.Poll Player Nat}
    (pending : c'.answersOf i = c.answersOf i ++ [(.poll p, .returned .pending)]) :
    Due p.watch p.waker c' := by
  have holds := outline_holds h
  obtain ⟨here, hcall, hp, hs⟩ := Crew.of_answersOf_step hstep pending
  obtain ⟨q, rfl, same, none⟩ := (does_of_step hs).of_pending
  obtain rfl : q = p := by
    cases (call?_of_poll? holds hp rfl).symm.trans hcall
    rfl
  have unsettled : ∀ side, c.shared.cell.state ≠ .settled side := by
    intro side settled
    obtain ⟨v, hv⟩ := holds.shared.cell side settled
    cases none.symm.trans ((Cell.result_of_settled settled).trans hv)
  refine ⟨?_, .inl ?_⟩
  · rw [same]
    exact enrolled.stored hp rfl unsettled
  · rw [same]
    exact waits_of_unsettled h unsettled (enrolled.enlisted hp rfl)

/-- A poll that looks for the first time when the cell is settled is ready with the outcome
on which it is settled. -/
theorem ready_of_look (h : Crew.Reachable rules (.initial { site := { watches } } calls) c)
    {p : Site.Poll Player Nat} {side : Side} {o : Outcome α}
    (looks : c.point? i = some (.routine (.look p))) (settled : c.shared.cell.state = .settled side)
    (stored : c.shared.cell.stored = some o) (later : Crew.Reachable rules c c') :
    (c'.point? i = some (.routine (.look p)) ∧ c'.answersOf i = c.answersOf i ∧
      c'.shared.cell = c.shared.cell) ∨
    ∃ after, c'.answersOf i = c.answersOf i ++ (.poll p, .returned (.ready o)) :: after := by
  induction later with
  | refl => exact .inl ⟨looks, rfl, rfl⟩
  | @step c₁ c₂ j hlater hstep ih =>
    obtain ⟨hp, hanswers, hcell⟩ | ⟨after, hanswers⟩ := ih
    · have holds := outline_holds (h.trans hlater)
      have hcall := call?_of_poll? holds hp rfl
      by_cases hj : j = i
      · subst hj
        have found : c₁.shared.site.completion.cell.result = some o := by
          rw [← stored, ← hcell]
          exact Cell.result_of_settled ((congrArg Cell.state hcell).trans settled)
        have answers : rules.step c₁.shared (.routine (.look p))
            = (c₁.shared, .done (.returned (.ready o))) := by
          simp [rules, step, Site.step, found]
        exact .inr ⟨[], (Crew.answersOf_of_done hstep hcall hp answers).trans (hanswers ▸ rfl)⟩
      · obtain ⟨t, t', ht, ht', move, others⟩ := Crew.exists_move hstep
        have same := others i fun e => hj e.symm
        refine .inl ⟨?_, ?_, ?_⟩
        · rwa [Crew.point?, same]
        · rwa [Crew.answersOf, same]
        · obtain ⟨-, ⟨-, idle⟩ | ⟨q, n, hq, hs, -⟩⟩ := Crew.point?_of_step hstep
          · rw [idle, hcell]
          · obtain ⟨-, -, stands, -⟩ := standing holds hq
            rw [(does_of_step hs).cell_eq stands ((congrArg Cell.state hcell).trans settled), hcell]
    · obtain ⟨more, hmore⟩ := Crew.answersOf_grow hstep
      exact .inr ⟨after ++ more, by rw [hmore, hanswers, List.append_assoc, List.cons_append]⟩

end Schedules

/-! ## Handles of a promise -/

/-- What a thread does with the handles of a promise: it uses one, or it drops one. A drop
touches neither the completion nor the watch of the handle, which the relay keeps. -/
inductive Deed (α : Type) where
  | use (u : Use α)
  | drop (handle : WatchId)

/-- The use that a thread makes of a handle. -/
def Deed.use? : Deed α → Option (Use α)
  | .use u => some u
  | .drop _ => none

/-- The start of a crew that uses and drops the handles of a promise, of which there are `n`. -/
def holders (n : Nat) (policy : PanicPolicy) (handler : Bool) (deeds : List (List (Deed α))) :
    Troupe α :=
  users (Array.replicate n {}) policy handler (deeds.map fun todo => todo.filterMap Deed.use?)

section Promises

variable {n : Nat} {policy : PanicPolicy} {handler : Bool} {deeds : List (List (Deed α))}
  {c : Troupe α}

theorem deed_of_mem {todo : List (Call α)} {call : Call α}
    (htodo : todo ∈ (deeds.map fun todo => todo.filterMap Deed.use?).map
      fun todo => todo.map (Use.call policy handler)) (hcall : call ∈ todo) :
    ∃ use, call = Use.call policy handler use ∧ ∃ todo ∈ deeds, .use use ∈ todo := by
  obtain ⟨uses, huses, rfl⟩ := List.mem_map.1 htodo
  obtain ⟨deeds', hdeeds, rfl⟩ := List.mem_map.1 huses
  obtain ⟨use, huse, rfl⟩ := List.mem_map.1 hcall
  obtain ⟨deed, hdeed, heq⟩ := List.mem_filterMap.1 huse
  cases deed with
  | use u =>
    obtain rfl : u = use := Option.some.inj heq
    exact ⟨u, rfl, deeds', hdeeds, hdeed⟩
  | drop handle => cases heq

theorem size_of_reachable (h : Crew.Reachable rules (holders n policy handler deeds) c) :
    c.shared.site.watches.size = n := by
  induction h with
  | refl => exact Array.size_replicate
  | step i _ hstep ih =>
    obtain ⟨-, ⟨-, same⟩ | ⟨p, n, hp, hs, -⟩⟩ := Crew.point?_of_step hstep
    · rw [same]
      exact ih
    · exact (does_of_step hs).size_eq.trans ih

theorem proper (owned : ∀ todo ∈ deeds, ∀ handle waker, .use (.poll handle waker) ∈ todo →
      handle < n) (h : Crew.Reachable rules (holders n policy handler deeds) c) : Proper c := by
  intro i p hcall
  obtain ⟨t, here, ht, hcur⟩ := Crew.call?_eq_some_iff.1 hcall
  have mem : .poll p ∈ t.calls := by simp [Thread.calls, hcur]
  obtain ⟨use, huse, todo, htodo, hdeed⟩ :=
    deed_of_mem (calls_mem h (List.mem_of_getElem? ht)) mem
  cases use with
  | poll handle waker =>
    cases huse
    rw [size_of_reachable h]
    exact ⟨rfl, owned todo htodo handle waker hdeed⟩
  | register | settle => cases huse

theorem enrolled (owned : ∀ todo ∈ deeds, ∀ handle waker, .use (.poll handle waker) ∈ todo →
      handle < n) (h : Crew.LeadsTo rules Exclusive (holders n policy handler deeds) c) :
    Enrolled c := by
  induction h with
  | refl =>
    refine ⟨?_, ?_, ?_⟩
    · intro w subscribed
      have fresh : ((Array.replicate n {} : Array (Watch Nat))[w]?.getD {}).subscribed = false := by
        rw [Array.getElem?_replicate]
        split <;> rfl
      cases fresh.symm.trans subscribed
    · intro i p q hp
      cases (Crew.point?_initial _ _ i).symm.trans hp
    · intro i p q hp
      cases (Crew.point?_initial _ _ i).symm.trans hp
  | step i hleads hstep _ ih =>
    exact ih.step (outline_holds hleads.reachable) (proper owned hleads.reachable) hleads.arrives
      hstep

/-- A crew that uses a promise commits by calls that complete, and none of its wakers panics. -/
theorem wakers_minded (h : Crew.Reachable rules (holders n policy handler deeds) c) :
    Minded .waker c := by
  apply minded_wakers h
  · rintro todo htodo call hcall o rfl
    obtain ⟨use, huse, -⟩ := deed_of_mem htodo hcall
    cases use <;> cases huse
  · intro todo htodo call hcall x registers
    obtain ⟨use, rfl, -⟩ := deed_of_mem htodo hcall
    cases use with
    | register on name panics =>
      obtain ⟨hk, -⟩ := registers
      cases on <;> cases hk
    | settle o => exact registers.elim
    | poll handle waker =>
      obtain ⟨-, rfl⟩ := registers
      exact nofun

/-- Threads register callbacks on a promise, settle it, and poll and drop its handles, in
any order, each handle being polled by one thread at a time. When a poll has answered that
it is pending and nobody polls its handle again, then once all threads are done and the
cell is settled, the waker of that poll has been woken through that handle. And a poll that
looks for the first time when the cell is settled does not answer that it is pending, but
with the outcome on which the cell is settled. -/
theorem no_wake_up_lost
    (owned : ∀ todo ∈ deeds, ∀ handle waker, .use (.poll handle waker) ∈ todo → handle < n)
    (h : Crew.LeadsTo rules Exclusive (holders n policy handler deeds) c) :
    (∀ {i p c₁ c₂ side}, c.step? rules i = some c₁ →
      c₁.answersOf i = c.answersOf i ++ [(.poll p, .returned .pending)] →
      Crew.LeadsTo rules (Unpolled p.watch) c₁ c₂ → c₂.isDone = true →
      c₂.shared.cell.state = .settled side →
      ∃ later, c₂.shared.moments = c₁.shared.moments ++ later ∧
        .woken p.watch p.waker ∈ later) ∧
    (∀ {i p side c₂ entry after}, c.point? i = some (.routine (.look p)) →
      c.shared.cell.state = .settled side → Crew.Reachable rules c c₂ →
      c₂.answersOf i = c.answersOf i ++ entry :: after →
      ∃ o, entry = (.poll p, .returned (.ready o)) ∧ c.shared.cell.stored = some o) := by
  have reach := h.reachable
  constructor
  · intro i p c₁ c₂ side hstep pending unpolled done settled
    have reach₁ := reach.step i hstep
    have due := due_of_pending reach (enrolled owned h) hstep pending
    obtain due | woken := due.run reach₁ unpolled
    · -- Nobody is left who would call the relay.
      have reach₂ := reach₁.trans unpolled.reachable
      obtain waits | ⟨j, q, hq, -⟩ := due.coming
      · obtain ⟨j, q, hq, -⟩ :=
          wakers_minded reach₂ settled nofun (List.ne_nil_of_mem waits)
        cases (Crew.point?_of_isDone done j).symm.trans hq
      · cases (Crew.point?_of_isDone done j).symm.trans hq
    · exact woken
  · intro i p side c₂ entry after looks settled later answers
    obtain ⟨v, stored⟩ := (outline_holds reach).shared.cell side settled
    refine ⟨⟨side, v⟩, ?_, stored⟩
    obtain ⟨-, same, -⟩ | ⟨after', ready⟩ := ready_of_look reach looks settled stored later
    · rw [same] at answers
      cases List.self_eq_append_right.1 answers
    · exact (List.cons.inj (List.append_cancel_left (answers.symm.trans ready))).1

end Promises

/-- One thread polls a handle twice and drops it, another registers a callback that panics
and settles the promise, and a third polls a second handle. -/
def repollDeeds : List (List (Deed Nat)) :=
  [[.use (.poll 0 10), .use (.poll 0 11), .drop 0],
    [.use (.register (some .success) 0 true), .use (.settle ⟨.success, 1⟩)],
    [.use (.poll 1 12)]]

/-- The outcome is being committed when the first thread polls for the second time; the
poll is about to look again. -/
def repollSchedule : List Nat := List.replicate 7 0 ++ List.replicate 6 1 ++ List.replicate 4 0

def repoll : Troupe Nat := (holders 2 .propagate false repollDeeds).after rules repollSchedule

/-- The poll has answered that it is pending. -/
def repollPending : Troupe Nat := repoll.after rules [0]

/-- The second thread settles the promise and dies in the callback; the third polls. -/
def repollDone : Troupe Nat := repollPending.after rules (List.replicate 12 1 ++ [2, 2])

/-- The promise is settled, and the third thread is about to look. -/
def lateLookSchedule : List Nat := repollSchedule ++ List.replicate 12 1 ++ [2]

def lateLook : Troupe Nat :=
  (holders 2 .propagate false repollDeeds).after rules lateLookSchedule

theorem no_wake_up_lost_repoll :
    (∀ todo ∈ repollDeeds, ∀ handle waker, .use (.poll handle waker) ∈ todo → handle < 2) ∧
    Crew.LeadsTo rules Exclusive (holders 2 .propagate false repollDeeds) repoll ∧
    Crew.LeadsTo rules (Unpolled 0) repollPending repollDone ∧ repollDone.isDone = true ∧
    (∃ later, repollDone.shared.moments = repollPending.shared.moments ++ later ∧
      .woken 0 11 ∈ later) ∧
    Crew.LeadsTo rules Exclusive (holders 2 .propagate false repollDeeds) lateLook ∧
    lateLook.shared.cell.state = .settled .success ∧
    ∃ entry o, (lateLook.after rules [2]).answersOf 2 = lateLook.answersOf 2 ++ [entry] ∧
      entry = (.poll { watch := 1, waker := 12, relay := .relay 1 }, .returned (.ready o)) := by
  have owned : ∀ todo ∈ repollDeeds, ∀ handle waker,
      .use (.poll handle waker) ∈ todo → handle < 2 := by
    intro todo htodo handle waker mem
    have all : ∀ todo ∈ repollDeeds, ∀ deed ∈ todo,
        match deed with
        | .use (.poll handle _) => handle < 2
        | _ => True := by simp [repollDeeds]
    exact all todo htodo _ mem
  have early : Crew.LeadsTo rules Exclusive (holders 2 .propagate false repollDeeds) repoll :=
    Crew.leadsTo_after repollSchedule (by decide +kernel)
  have unpolled : Crew.LeadsTo rules (Unpolled 0) repollPending repollDone :=
    Crew.leadsTo_after _ (by decide +kernel)
  have done : repollDone.isDone = true := by decide +kernel
  have settled : repollDone.shared.cell.state = .settled .success := by decide +kernel
  have late : Crew.LeadsTo rules Exclusive (holders 2 .propagate false repollDeeds) lateLook :=
    Crew.leadsTo_after lateLookSchedule (by decide +kernel)
  have settledLate : lateLook.shared.cell.state = .settled .success := by decide +kernel
  have pending : repollPending.answersOf 0 = repoll.answersOf 0 ++
      [(.poll { watch := 0, waker := 11, relay := .relay 0 }, .returned .pending)] := rfl
  have looks : lateLook.point? 2
      = some (.routine (.look { watch := 1, waker := 12, relay := .relay 1 })) := rfl
  obtain ⟨entry, answered⟩ : ∃ entry, (lateLook.after rules [2]).answersOf 2
      = lateLook.answersOf 2 ++ [entry] := ⟨_, rfl⟩
  obtain ⟨woken, -⟩ := no_wake_up_lost owned early
  obtain ⟨-, ready⟩ := no_wake_up_lost owned late
  obtain ⟨o, ho, -⟩ := ready looks settledLate (Crew.Reachable.refl.after [2]) answered
  exact ⟨owned, early, unpolled, done, woken rfl pending unpolled done settled, late, settledLate,
    entry, o, answered, ho⟩

end Stage

end Eventual
