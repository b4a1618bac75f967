import Eventual.Proofs.Machine.EarlyPolls
import Eventual.Proofs.Machine.Returns

/-!
# Polls and wake-ups over a whole run

The polls of the promises of one deferred, their clones and the wakers they leave behind, from the
first poll to the last one after the settlement. `Remembers` says what the early polls have left at
every moment; here that is read off before the settlement, where the registered watches wait among
the wakers, at each relay of the settlement's drain, and once the drain has come past the wakers.
-/

namespace Eventual

open World

namespace Machine

variable {m : Machine} {c : CompletionId} {ctx : Context} {base below : List Frame} {x : WatchId}

theorem eq_map_relay {items : List Item} (relays : ∀ item ∈ items, ∃ x, item = .relay x) :
    items = (items.filterMap Item.watch?).map .relay := by
  induction items with
  | nil => rfl
  | cons item items ih =>
    obtain ⟨⟨x, rfl⟩, rest⟩ := List.forall_mem_cons.1 relays
    exact congrArg (Item.relay x :: ·) (ih rest)

/-! ## What is called was registered -/

/-- What is called of a kind was registered, in the same order. -/
theorem Sound.called_le_step (sound : m.Sound) {k : Kind}
    (h : m.world.called c k <+: m.world.registered c k) :
    m.step.world.called c k <+: m.step.world.registered c k := by
  cases hstack : m.stack with
  | nil => rwa [step_of_isOver (List.isEmpty_iff.2 hstack)]
  | cons frame below =>
    obtain ⟨idles, -⟩ | ⟨d, here, s, action, -, rfl, drives⟩ := sound.step_cases hstack
    · rwa [idles.silent.called, idles.silent.registered]
    · rw [drives.called, drives.registered]
      split
      next same =>
        subst same
        have alive := (sound.of_driving (hstack ▸ List.mem_cons_self ..)).1
        have exact := sound.world.exact alive.getElem?
        have waiting : action.called k ++ s.completion.waiting k
            = (m.world.completion d).waiting k ++ action.registered k :=
          drives.does.waiting_eq exact.atRest k
        rw [← exact.order k, List.append_assoc, ← waiting, ← List.append_assoc]
        exact List.prefix_append ..
      next => simpa using h

/-- What is called is called by a call on the completion that is told to go on. -/
theorem Sound.step_of_called (sound : m.Sound) {k : Kind} {item : Item}
    (calls : m.step.world.called c k = m.world.called c k ++ [item]) :
    ∃ here below s arg p, m.stack = .driving c here :: below ∧
      m.step = drive m.world below c here ∧
      (m.world.site c).step here = (s, .call k item arg p) := by
  cases hstack : m.stack with
  | nil =>
    rw [step_of_isOver (List.isEmpty_iff.2 hstack)] at calls
    exact absurd calls (by simp)
  | cons frame below =>
    obtain moves | ⟨d, here, -, -, hresume, rfl, -⟩ := sound.moves_or_works hstack
    · rw [moves.called] at calls
      exact absurd calls (by simp)
    · have step : m.step = drive m.world below d here := step_of_resume hstack hresume
      rcases hstep : (m.world.site d).step here with ⟨s, action⟩
      have alive := (sound.of_driving (hstack ▸ List.mem_cons_self ..)).1
      have works := drive_works_of_step alive below hstep
      rw [← step] at works
      have called := List.append_cancel_left ((works.called c k).symm.trans calls)
      split at called
      next same =>
        subst same
        obtain ⟨item', arg, p, rfl⟩ :=
          Action.of_called_ne_nil (called ▸ List.cons_ne_nil item [])
        obtain rfl : item' = item := by simpa [Action.called] using called
        exact ⟨here, below, s, arg, p, rfl, step, hstep⟩
      next => cases called

theorem history_wake {w : World} {i : WakerId} {waker : Waker}
    (found : w.wakers[i]? = some waker) (below : List Frame) :
    (wake w below i).world.history = w.history ++ [.woken i waker.name] := by
  unfold wake World.wake
  rw [found]
  exact history_record _ _

theorem history_drive_relay {w : World} {here p : Site.Point Value Item WakerId}
    {s : Site Value Item WakerId} {k : Kind} {arg : Option Value} {i : WakerId} {waker : Waker}
    (below : List Frame) (hstep : (w.site c).step here = (s, .call k (.relay x) arg p))
    (holds : (s.watch x).stored = some i) (found : w.wakers[i]? = some waker) :
    (drive w below c here).world.history
      = w.history ++ [.started c k (.relay x) arg, .woken i waker.name] := by
  unfold drive
  simp only [hstep]
  unfold call
  dsimp only
  split
  next s' taken =>
    have nothing : (s.watch x).stored = none := congrArg Prod.snd taken
    cases holds.symm.trans nothing
  next s' i' taken =>
    have same : (s.watch x).stored = some i' := congrArg Prod.snd taken
    obtain rfl := Option.some.inj (holds.symm.trans same)
    refine (history_wake (w := ((w.setSite c s).record _).setSite c s') found _).trans ?_
    exact (congrArg (· ++ [.woken i waker.name]) (history_record _ _)).trans
      (List.append_assoc ..)

section Runs

variable {watched : List String} {script : Script} {n i j : Nat}

theorem called_le_registered (watched : List String) (script : Script) (n : Nat) (c : CompletionId)
    (k : Kind) : (moment watched script n).world.called c k
      <+: (moment watched script n).world.registered c k := by
  induction n with
  | zero => exact List.prefix_rfl
  | succ n ih =>
    rw [moment_succ]
    exact (moment_sound watched script n).called_le_step ih

theorem relayed_le_enlisted (watched : List String) (script : Script) (n : Nat)
    (c : CompletionId) :
    (moment watched script n).world.relayed c <+: (moment watched script n).world.enlisted c :=
  (called_le_registered watched script n c .waker).filterMap _

theorem relayed_grows (hij : i ≤ j) (c : CompletionId) :
    (moment watched script i).world.relayed c <+: (moment watched script j).world.relayed c := by
  induction hij with
  | refl => exact List.prefix_rfl
  | @step j _ ih =>
    obtain ⟨later, history⟩ :=
      (moment_orderly watched script j).history_step (moment_sound watched script j)
    refine ih.trans ?_
    rw [Nat.succ_eq_add_one, moment_succ]
    unfold World.relayed World.called
    rw [← history, List.flatMap_append, List.filterMap_append]
    exact List.prefix_append ..

/-- A deferred has its completion to itself as long as that exists. -/
theorem owned_of_lookup {handle : String} {n₀ : Nat}
    (refers : (moment watched script n₀).world.lookup handle = some (.deferred c ctx)) (n : Nat)
    (born : c < (moment watched script n).world.completions.size) :
    (moment watched script n).Owned c ctx := by
  obtain ⟨b, -, unborn, newborn⟩ := exists_birth refers
  obtain before | later := Nat.lt_or_ge b n
  · exact newborn.owned_later before
  · exact absurd born (Nat.not_lt_of_le (unborn n later))

/-! ## Before the settlement -/

section Owned

variable (owned : ∀ n, c < (moment watched script n).world.completions.size →
  (moment watched script n).Owned c ctx)

include owned

/-- Before the settlement each watch that was polled waits among the wakers once, in the order of
the first polls. -/
theorem waiting_of_unsettled (unsettled : (moment watched script n).world.settlement c = none)
    (apart : ∀ here below, (moment watched script n).stack ≠ .driving c here :: below)
    {y : Completion Value Item}
    (hy : (moment watched script n).world.place (.completion c) = some (some y)) :
    (y.waiting .waker).filterMap Item.watch?
        = polledWatches (earlyPolls watched script c n) ∧
      ((∀ cb guard, .callback cb guard ∉ y.waiting .waker) →
        y.waiting .waker = (polledWatches (earlyPolls watched script c n)).map .relay) := by
  have sound := moment_sound watched script n
  have remembers := moment_remembers owned (.inr apart)
  have alive : (moment watched script n).world.Alive c := ⟨y, hy⟩
  have nothing := (moment_orderly watched script n).called_eq_nil unsettled .waker
  have waiting : y.waiting .waker = (moment watched script n).world.registered c .waker := by
    rw [← (sound.world.exact hy).order .waker, nothing, List.nil_append]
  have enlisted : (y.waiting .waker).filterMap Item.watch?
      = polledWatches (earlyPolls watched script c n) := by
    rw [waiting]
    exact remembers.enlisted
  refine ⟨enlisted, fun plain => ?_⟩
  rw [← enlisted]
  refine eq_map_relay fun item hitem => ?_
  have kin := (owned n alive.lt_size).items .waker item (waiting ▸ hitem)
  cases kin with
  | callback => exact absurd hitem (plain _ _)
  | relay => exact ⟨_, rfl⟩

/-! ## During the settlement -/

/-- A relay that is called wakes the waker of the last early poll that came through its watch. -/
theorem relay_wakes {k : Kind}
    (calls : (moment watched script (n + 1)).world.called c k
      = (moment watched script n).world.called c k ++ [.relay x]) :
    k = .waker ∧ (moment watched script n).world.settlement c ≠ none ∧
      ∃ i waker, lastWaker (earlyPolls watched script c n) x = some i ∧
        (moment watched script n).world.wakers[i]? = some waker ∧
        (moment watched script (n + 1)).world.history
          = (moment watched script n).world.history
            ++ [.started c .waker (.relay x) none, .woken i waker.name] := by
  have sound := moment_sound watched script n
  have orderly := moment_orderly watched script n
  have calls' := calls
  rw [moment_succ] at calls'
  obtain ⟨here, below, s, arg, p, hstack, step, hstep⟩ := sound.step_of_called calls'
  obtain ⟨alive, fits⟩ := sound.of_driving (hstack ▸ List.mem_cons_self ..)
  have does := Site.step_does ((moment watched script n).world.site c) here
  rw [hstep] at does
  obtain ⟨o, result, -, given⟩ := does.of_argument fits
  have settled : (moment watched script n).world.settlement c = some o :=
    (orderly.result_eq alive).symm.trans result
  have ne : (moment watched script n).world.settlement c ≠ none :=
    settled ▸ Option.some_ne_none o
  have remembers := moment_remembers owned (.inl ne)
  have remembers' := moment_remembers owned (.inl (settled_lasts ne (Nat.le_succ n)))
  have registered := sound.registered_of_call hstack does
  obtain rfl := remembers.kinds registered
  have mentions : (moment watched script n).Mentions c x := .registered registered
  have polled : x ∈ polledWatches (earlyPolls watched script c n) :=
    remembers.enlisted ▸ mem_filterMap_watch?.2 registered
  -- The relay was enlisted once, so it has not been called before.
  have fresh : x ∉ (moment watched script n).world.relayed c := by
    have once := (relayed_le_enlisted watched script (n + 1) c).sublist.nodup
      (remembers'.enlisted ▸ nodup_polledWatches _)
    rw [World.relayed, calls, List.filterMap_append] at once
    exact fun before => (List.nodup_append.1 once).2.2 x before x (List.mem_singleton_self x) rfl
  obtain ⟨i, last, early⟩ := exists_lastWaker polled
  have holds : (s.watch x).stored = some i := by
    rw [remembers.site_watch sound orderly (moment_allotted watched script n) hstack does mentions,
      remembers.stored mentions, if_neg fresh, last]
  have found := Array.getElem?_eq_getElem (remembers.wakers early)
  refine ⟨rfl, ne, i, _, last, found, ?_⟩
  rw [moment_succ, step, history_drive_relay below hstep holds found, given]
  rfl

theorem relayed_of_empty (settled : (moment watched script n).world.settlement c ≠ none)
    (alive : (moment watched script n).world.Alive c)
    (empty : ((moment watched script n).world.completion c).waiting .waker = []) :
    (moment watched script n).world.relayed c
      = polledWatches (earlyPolls watched script c n) := by
  have order := ((moment_sound watched script n).world.exact alive.getElem?).order .waker
  rw [empty, List.append_nil] at order
  rw [← (moment_remembers owned (.inl settled)).enlisted, World.relayed, order]
  rfl

/-- What a drain has relayed before it comes past the wakers. -/
theorem relayed_of_passed {here : Site.Point Value Item WakerId} {s : Side}
    (hstack : (moment watched script n).stack = .driving c here :: below)
    (passed : here.Passed s .waker) :
    (moment watched script n).world.relayed c
      = polledWatches (earlyPolls watched script c n) := by
  have sound := moment_sound watched script n
  obtain ⟨alive, fits⟩ := sound.of_driving (hstack ▸ List.mem_cons_self ..)
  have cell := (sound.world.exact alive.getElem?).cell
  refine relayed_of_empty owned ?_ alive ((moment_tidy watched script n).own hstack passed)
  rw [← (moment_orderly watched script n).result_eq alive,
    Cell.result_of_settled (passed.settled fits)]
  obtain ⟨v, stored, -⟩ := cell.demand_eq (passed.settled fits)
  rw [stored]
  exact Option.some_ne_none _

theorem relayed_of_callback {k : Kind} (callback : k ≠ .waker)
    (starts : (moment watched script (n + 1)).world.called c k
      ≠ (moment watched script n).world.called c k) :
    (moment watched script n).world.relayed c
      = polledWatches (earlyPolls watched script c n) := by
  have sound := moment_sound watched script n
  rw [moment_succ] at starts
  obtain ⟨here, below, s, item, arg, p, hstack, works⟩ := sound.works_of_called starts
  obtain ⟨side, -, -, passed⟩ :=
    works.does.called_passed (sound.of_driving (hstack ▸ List.mem_cons_self ..)).2
  refine relayed_of_passed owned hstack (passed .waker ?_).1
  cases k with
  | waker => exact absurd rfl callback
  | on _ | always => exact List.mem_cons_self ..

end Owned

/-! ## The drain of a settlement -/

/-- A drain that has yet to come past the wakers goes on, and calls nothing else. -/
theorem course_next {site s : Site Value Item WakerId} {here : Completion.Point Value Item}
    {action : Action Value Item (Site.Point Value Item WakerId) (Site.Answer Value)} {side : Side}
    (does : Site.Does site (.direct here) s action)
    (fits : Site.Point.Fits site.completion.cell (.direct here : Site.Point Value Item WakerId))
    (cell : site.completion.cell.Sound) (settled : site.completion.cell.state = .settled side)
    (course : here.Course side) (early : ¬ here.Passed side .waker) :
    (∃ p, action.next? = some (.direct p) ∧ p.Course side) ∧
      ∀ k item arg p, action = .call k item arg p → k = .waker := by
  constructor
  · cases does with
    | direct inner =>
      obtain ⟨p, next, course'⟩ | ⟨answer, n, n', rfl, -, -⟩ := inner.course cell settled course
      · exact ⟨p, by rw [Action.next?_map, next]; rfl, course'⟩
      · exact absurd ⟨rfl, nofun⟩ early
  · rintro k item arg p rfl
    obtain ⟨side', settled', -, passed⟩ := does.called_passed fits
    obtain rfl := Cell.State.settled.inj (settled.symm.trans settled')
    cases k with
    | waker => rfl
    | on _ | always =>
      obtain ⟨here', same, passed⟩ := (passed .waker (List.mem_cons_self ..)).1
      cases same
      exact absurd passed early

/-- The wakers that a deferred wakes between the moments return normally. -/
def WakersReturn (watched : List String) (script : Script) (c : CompletionId) (n last : Nat) :
    Prop :=
  ∀ i item here below p, n < i → i < last →
    (moment watched script i).stack = .driving c here :: below →
    (moment watched script (i + 1)).world.called c .waker
      = (moment watched script i).world.called c .waker ++ [item] →
    Returns watched script last i (.driving c p :: below)

theorem passes_wakers {last : Nat} {top : List Frame} {o : Outcome Value}
    (returns : WakersReturn watched script c n last)
    (low : (moment watched script last).stack.length ≤ top.length) :
    ∀ i here, n < i → i ≤ last →
      (moment watched script i).stack = .driving c (.direct here) :: top →
      ((moment watched script i).control = .resume ∨
        ∃ r, (moment watched script i).control = .answer r) →
      (moment watched script i).world.settlement c = some o → here.Course o.side →
      ∃ j here', i ≤ j ∧ j ≤ last ∧
        (moment watched script j).stack = .driving c (.direct here') :: top ∧
        here'.Passed o.side .waker := by
  intro i here hni hi
  generalize hl : last - i = l
  induction l using Nat.strongRecOn generalizing i here with
  | ind l ih =>
    intro hstack told settled course
    by_cases passed : here.Passed o.side .waker
    · exact ⟨i, here, Nat.le_refl i, hi, hstack, passed⟩
    have sooner : i < last := by
      refine Nat.lt_of_le_of_ne hi ?_
      rintro rfl
      rw [hstack] at low
      exact absurd low (Nat.not_lt_of_le (Nat.le_refl _))
    -- Whatever comes next is the same drain, later.
    have later : ∀ {j here'}, i < j → j ≤ last →
        (moment watched script j).stack = .driving c (.direct here') :: top →
        ((moment watched script j).control = .resume ∨
          ∃ r, (moment watched script j).control = .answer r) → here'.Course o.side →
        ∃ j' here', i ≤ j' ∧ j' ≤ last ∧
          (moment watched script j').stack = .driving c (.direct here') :: top ∧
          here'.Passed o.side .waker := by
      intro j here' hij hj hstack' told' course'
      obtain ⟨j', here'', hj', hlast, rest⟩ := ih (last - j) (by omega) j here' (by omega) hj rfl
        hstack' told' (settlement_lasts settled (Nat.le_of_lt hij)) course'
      exact ⟨j', here'', Nat.le_trans (Nat.le_of_lt hij) hj', hlast, rest⟩
    obtain hresume | ⟨r, answer⟩ := told
    · have sound := moment_sound watched script i
      obtain ⟨alive, fits⟩ := sound.of_driving (hstack ▸ List.mem_cons_self ..)
      have cell := (sound.world.exact alive.getElem?).cell
      have state := (cell.of_result
        (((moment_orderly watched script i).result_eq alive).trans settled)).1
      obtain ⟨s, action, works⟩ := sound.works hstack hresume
      rw [← moment_succ] at works
      obtain ⟨⟨p, next, course'⟩, calls⟩ := course_next works.does fits cell state course passed
      have leads := works.leads
      generalize hstack' : (moment watched script (i + 1)).stack = stack' at leads
      generalize hcontrol : (moment watched script (i + 1)).control = control' at leads
      cases leads with
      | goto | notice =>
        cases next
        exact later (Nat.lt_succ_self i) sooner hstack' (.inl hcontrol) course'
      | done | refused => cases next
      | @call k item arg _ frames _ _ handed =>
        cases next
        obtain rfl := calls _ _ _ _ rfl
        have returned := returns i item _ top (.direct p) hni sooner hstack (by
          rw [works.called, if_pos rfl]
          simp [Action.called])
        obtain above | back := above_or_back hstack' (hcontrol ▸ handed)
        · obtain ⟨i', hi', hlast, running, back⟩ :=
            exists_first_back above sooner (Nat.le_succ_of_le low)
          have hii' := Nat.lt_of_succ_lt hi'
          exact later hii' hlast back.stack
            (.inr (returned i' hii' hlast (fun l hl => (running l hl · |>.higher)) back.stack))
            course'
        · exact later (Nat.lt_succ_self i) sooner back.stack
            (.inr (returned (i + 1) (Nat.lt_succ_self i) sooner (fun l _ _ => by omega) back.stack))
            course'
    · have next := step_of_answer hstack answer
      rw [← moment_succ] at next
      exact later (Nat.lt_succ_self i) sooner (by rw [next]; rfl) (.inl (by rw [next]; rfl)) course

/-- A settlement whose wakers return has relayed every watch that was polled when it has come
back. -/
theorem relayed_of_settlement
    (owned : ∀ n, c < (moment watched script n).world.completions.size →
      (moment watched script n).Owned c ctx)
    {handle : String} {ctx' : Context} {o : Outcome Value} {last : Nat}
    (begins : Begins (.onDeferred handle (.settle o)) (moment watched script n) base)
    (refers : (moment watched script n).world.lookup handle = some (.deferred c ctx'))
    (unsettled : (moment watched script n).world.settlement c = none) (hn : n < last)
    (low : (moment watched script last).stack.length ≤ base.length)
    (returns : WakersReturn watched script c n last) :
    (moment watched script last).world.relayed c
      = polledWatches (earlyPolls watched script c last) := by
  obtain ⟨commits, w, published, settled⟩ := settlement_commits begins refers unsettled
  have settled' : (moment watched script (n + 5)).world.settlement c = some o := by
    rw [published]
    exact settled
  have check := moment_of_goOn published
  generalize htop : settlementFrames c ctx' o.side base = top at commits check
  have high : base.length < top.length := by
    simp only [← htop, settlementFrames, List.length_cons]
    omega
  have later : n + 6 ≤ last := by
    apply Nat.le_of_not_lt
    intro sooner
    obtain ⟨here, hstack⟩ := commits last hn (Nat.le_of_lt_succ sooner)
    rw [hstack, List.length_cons] at low
    omega
  obtain ⟨j, here, hnj, hj, hstack, passed⟩ := passes_wakers returns
    (Nat.le_of_lt (Nat.lt_of_le_of_lt low high)) (n + 6) (.check o.side .won) (by omega) later
    (by rw [check]; rfl) (.inl (by rw [check]; rfl)) (settlement_lasts settled' (Nat.le_succ _)) rfl
  have relayed := relayed_of_passed owned hstack ⟨here, rfl, passed⟩
  have ne : (moment watched script j).world.settlement c ≠ none :=
    (settlement_lasts settled' (Nat.le_of_succ_le hnj)).symm ▸ Option.some_ne_none o
  -- Nothing is enlisted after that, so no more can be relayed.
  have enlisted := (moment_remembers owned (.inl (settled_lasts ne hj))).enlisted
  rw [earlyPolls_of_settled ne hj, ← relayed] at enlisted ⊢
  refine ((relayed_grows hj c).eq_of_length_le ?_).symm
  exact enlisted ▸ (relayed_le_enlisted watched script last c).length_le

end Runs

/-- The polls and the wake-ups of a deferred over a whole run. Each promise has a watch that no
other handle has at any moment.

A poll that begins before the settlement comes back pending before any other code runs, and has
left its waker in the watch, and the watch among the wakers if it was not there; and the wakers hold
one relay for each watch that was polled, in the order of the first polls.

A relay is called after the settlement only, among the wakers, and wakes the waker of the last poll
through its watch, once; the relays are called in the order in which they wait, none of them twice.
When a callback starts, or a settlement has come back whose wakers have returned, each watch that
was polled has been relayed, whether or not a handle still refers to the promise.

A poll that begins after the settlement is ready with a copy of the outcome, and changes nothing
but that this goes on record. -/
structure PollHistory (watched : List String) (script : Script) (c : CompletionId) : Prop where
  watches : ∀ n j h h' d ctx ctx' x,
    (moment watched script n).world.lookup h = some (.promise c ctx x) →
    (moment watched script j).world.lookup h' = some (.promise d ctx' x) → h = h' ∧ c = d
  pends : ∀ n x i base, Polls c x i base (moment watched script n) →
    (moment watched script n).world.settlement c = none →
    ∃ j, n < j ∧
      (∀ k, n < k → k < j → base.length < (moment watched script k).stack.length) ∧
      moment watched script j
        = hand ((moment watched script n).world.polled c x i) base .pending
  waits : ∀ n y, (moment watched script n).world.settlement c = none →
    (∀ here below, (moment watched script n).stack ≠ .driving c here :: below) →
    (moment watched script n).world.place (.completion c) = some (some y) →
    (y.waiting .waker).filterMap Item.watch?
        = polledWatches (earlyPolls watched script c n) ∧
      ((∀ cb guard, .callback cb guard ∉ y.waiting .waker) →
        y.waiting .waker = (polledWatches (earlyPolls watched script c n)).map .relay)
  wakes : ∀ n k x, (moment watched script (n + 1)).world.called c k
      = (moment watched script n).world.called c k ++ [.relay x] →
    k = .waker ∧ (moment watched script n).world.settlement c ≠ none ∧
      ∃ i waker, lastWaker (earlyPolls watched script c n) x = some i ∧
        (moment watched script n).world.wakers[i]? = some waker ∧
        (moment watched script (n + 1)).world.history
          = (moment watched script n).world.history
            ++ [.started c .waker (.relay x) none, .woken i waker.name]
  relayed : ∀ n, (polledWatches (earlyPolls watched script c n)).Nodup ∧
    (moment watched script n).world.relayed c
      <+: polledWatches (earlyPolls watched script c n) ∧
    ((moment watched script n).world.settlement c = none →
      (moment watched script n).world.relayed c = []) ∧
    ((moment watched script n).world.settlement c ≠ none →
      ∀ j, n ≤ j → earlyPolls watched script c j = earlyPolls watched script c n)
  beforeCallbacks : ∀ n k, k ≠ .waker → (moment watched script (n + 1)).world.called c k
      ≠ (moment watched script n).world.called c k →
    (moment watched script n).world.relayed c = polledWatches (earlyPolls watched script c n)
  afterSettlement : ∀ n h ctx o base last,
    Begins (.onDeferred h (.settle o)) (moment watched script n) base →
    (moment watched script n).world.lookup h = some (.deferred c ctx) →
    (moment watched script n).world.settlement c = none → n < last →
    (moment watched script last).stack.length ≤ base.length →
    WakersReturn watched script c n last →
    (moment watched script last).world.relayed c
      = polledWatches (earlyPolls watched script c last)
  ready : ∀ n x i base o, Polls c x i base (moment watched script n) →
    (moment watched script n).world.settlement c = some o →
    moment watched script (n + 3)
      = hand ((moment watched script n).world.record (.copied c o)) base
          (.ready (o.map Value.data))

/-- Every deferred that has been built has such a history. -/
theorem polls_and_wake_ups (watched : List String) (script : Script) (n₀ : Nat) (handle : String)
    (c : CompletionId) (ctx : Context)
    (refers : (moment watched script n₀).world.lookup handle = some (.deferred c ctx)) :
    PollHistory watched script c where
  watches _ _ _ _ _ _ _ _ := one_handle
  pends _ _ _ _ := poll_pends
  waits _ _ unsettled apart := waiting_of_unsettled (owned_of_lookup refers) unsettled apart
  wakes _ _ _ := relay_wakes (owned_of_lookup refers)
  relayed n := by
    have quiet := (moment_orderly watched script n).relayed_eq_nil (c := c)
    refine ⟨nodup_polledWatches _, ?_, quiet, fun settled j => earlyPolls_of_settled settled⟩
    cases settled : (moment watched script n).world.settlement c with
    | none => exact (quiet settled).symm ▸ List.nil_prefix
    | some o =>
      rw [← (moment_remembers (owned_of_lookup refers)
        (.inl (settled ▸ Option.some_ne_none o))).enlisted]
      exact relayed_le_enlisted watched script n c
  beforeCallbacks _ _ := relayed_of_callback (owned_of_lookup refers)
  afterSettlement _ _ _ _ _ _ := relayed_of_settlement (owned_of_lookup refers)
  ready _ _ _ _ _ polls := poll_ready polls

/-- One promise of a deferred is polled by one waker and then by another, after its clone has been
polled; the clone is dropped before the deferred is settled, and the promise is polled again after
that. -/
def supersedeScript : Script :=
  [.mk "" (.create "d" (.pair "p")),
    .mk "" (.create "v" (.waker [])),
    .mk "" (.create "w" (.waker [])),
    .mk "" (.onPromise "p" (.clone "q")),
    .mk "" (.onPromise "q" (.poll "v")),
    .mk "" (.onPromise "p" (.poll "v")),
    .mk "" (.onPromise "p" (.poll "w")),
    .mk "" (.discard "q"),
    .mk "" (.onDeferred "d" (.settle ⟨.success, { data := .int 1 }⟩)),
    .mk "" (.onPromise "p" (.poll "v"))]

/-- The promise has watch 0 and its clone watch 1. The poll that supersedes `v` begins at moment 26,
and the settlement, when the clone is gone, at moment 35. It relays the clone's watch first, at
moment 43, and then the promise's, at moment 46. -/
theorem polls_and_wake_ups_superseded :
    (moment [] supersedeScript 32).control = .answer .pending ∧
    (moment [] supersedeScript 35).world.lookup "q" = none ∧
    (((moment [] supersedeScript 35).world.completion 0).waiting .waker).filterMap Item.watch?
      = [1, 0] ∧
    (moment [] supersedeScript 44).world.history
      = (moment [] supersedeScript 43).world.history
        ++ [.started 0 .waker (.relay 1) none, .woken 0 "v"] ∧
    (moment [] supersedeScript 47).world.history
      = (moment [] supersedeScript 46).world.history
        ++ [.started 0 .waker (.relay 0) none, .woken 1 "w"] ∧
    (moment [] supersedeScript 56).world.relayed 0 = [1, 0] ∧
    moment [] supersedeScript 60
      = hand ((moment [] supersedeScript 57).world.record
          (.copied 0 ⟨.success, { data := .int 1 }⟩)) (moment [] supersedeScript 60).stack
          (.ready ⟨.success, .int 1⟩) := by
  have history := polls_and_wake_ups [] supersedeScript 8 "d" 0 {} rfl
  have early : ∀ n < 60, 35 ≤ n → earlyPolls [] supersedeScript 0 n = [(1, 0), (0, 0), (0, 1)] := by
    decide +kernel
  have watches : polledWatches [(1, 0), (0, 0), (0, 1)] = [1, 0] := by decide +kernel
  have dropped : (moment [] supersedeScript 35).world.lookup "q" = none :=
    Option.isNone_iff_eq_none.1 (by decide +kernel)
  refine ⟨?_, dropped, ?_, ?_, ?_, ?_, ?_⟩
  · have high : ∀ k, k < 32 → 26 < k → 1 < (moment [] supersedeScript k).stack.length := by
      decide +kernel
    obtain ⟨j, hj, running, answer⟩ := history.pends 26 0 1 _ (.mk (.session rfl rfl) rfl rfl rfl) rfl
    have low : (moment [] supersedeScript j).stack.length = 1 := by
      rw [answer]
      rfl
    obtain sooner | rfl | later := Nat.lt_trichotomy j 32
    · exact absurd (high j sooner hj) (low ▸ Nat.lt_irrefl _)
    · rw [answer]
      rfl
    · exact absurd (running 32 (by decide) later) (Nat.lt_irrefl 1)
  · have session : (moment [] supersedeScript 35).stack
        = [.session [] (supersedeScript.drop 8)] := rfl
    have apart : ∀ here below,
        (moment [] supersedeScript 35).stack ≠ .driving 0 here :: below := by
      intro here below hstack
      cases session.symm.trans hstack
    have waiting := (history.waits 35 ((moment [] supersedeScript 35).world.completion 0) rfl apart rfl).1
    rw [waiting, early 35 (by decide) (by decide), watches]
  · obtain ⟨-, -, i, waker, last, found, noted⟩ := history.wakes 43 .waker 1 rfl
    rw [early 43 (by decide) (by decide)] at last
    obtain rfl : 0 = i := Option.some.inj last
    cases found
    exact noted
  · obtain ⟨-, -, i, waker, last, found, noted⟩ := history.wakes 46 .waker 0 rfl
    rw [early 46 (by decide) (by decide)] at last
    obtain rfl : 1 = i := Option.some.inj last
    cases found
    exact noted
  · have calls : ∀ i < 56, 35 < i →
        ((moment [] supersedeScript (i + 1)).world.called 0 .waker).length
          = ((moment [] supersedeScript i).world.called 0 .waker).length + 1 →
        i = 43 ∨ i = 46 := by
      decide +kernel
    have returns : WakersReturn [] supersedeScript 0 35 56 := by
      intro i item here below p hi hlast hstack called
      have grown := congrArg List.length called
      rw [List.length_append] at grown
      have height : (Frame.driving 0 p :: below).length
          = (moment [] supersedeScript i).stack.length :=
        (congrArg List.length hstack).symm
      -- The waker's body is empty, so it comes back two steps later.
      have back : ∀ i, i = 43 ∨ i = 46 →
          (moment [] supersedeScript i).stack.length
            < (moment [] supersedeScript (i + 1)).stack.length ∧
          (moment [] supersedeScript (i + 2)).stack.length
            ≤ (moment [] supersedeScript i).stack.length := by
        rintro i (rfl | rfl) <;> decide +kernel
      have answers : ∀ i, i = 43 ∨ i = 46 →
          (moment [] supersedeScript (i + 2)).control = .answer .unit := by
        rintro i (rfl | rfl) <;> rfl
      have called := calls i hlast hi grown
      obtain ⟨high, low⟩ := back i called
      refine @Returns.of_first [] supersedeScript 56 i (i + 2) _ ?_ (by omega) (height ▸ low)
        ⟨_, answers i called⟩
      intro k hik hk
      obtain rfl : k = i + 1 := by omega
      exact height ▸ high
    rw [history.afterSettlement 35 "d" {} _ _ 56 (.session rfl rfl) rfl rfl (by decide) (Nat.le_refl 1) returns,
      early 56 (by decide) (by decide), watches]
  · exact history.ready 57 0 0 _ _ (.mk (.session rfl rfl) rfl rfl rfl) rfl

end Machine

end Eventual
