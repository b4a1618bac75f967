import Eventual.Proofs.Machine.FirstSettles
import Eventual.Proofs.Machine.Watches

/-!
# One poll

A poll of a deferred goes on by itself from its beginning to its answer: no other code runs in
between, so what it leaves behind can be told from the world in which it begins.

Before the settlement it stores its waker, enlists the watch of its handle unless this has been
done, and is told that the outcome is pending, `poll_pends`. After the settlement it is given a copy
of the outcome, and leaves nothing behind but the record of that, `poll_ready`.
-/

namespace Eventual

/-- The poll of a completion that a step of a script asks for, while the running calls hold the
references: the watch of the promise and the waker. A promise that a call holds cannot be polled. -/
def Act.polls (w : World) (held : List Ref) (c : CompletionId) : Act → Option (WatchId × WakerId)
  | .onPromise handle (.poll wakes) =>
    match w.lookup handle, w.lookup wakes with
    | some (.promise d _ x), some (.waker i) =>
      if d = c ∧ isBusy held x = false then some (x, i) else none
    | _, _ => none
  | _ => none

namespace World

/-- The waker is stored in the watch. -/
def store (w : World) (x : WatchId) (i : WakerId) : World :=
  { w with watches := w.watches.modify x fun watch => { watch with stored := some i } }

/-- The watch counts as subscribed. -/
def subscribe (w : World) (x : WatchId) : World :=
  { w with watches := w.watches.modify x fun watch => { watch with subscribed := true } }

/-- An item is appended to the wakers of a completion. -/
def enqueue (w : World) (c : CompletionId) (item : Item) : World :=
  (w.setCompletion c ((w.completion c).setQueue .waker
    (((w.completion c).queue .waker).append item))).record (.registered c .waker item)

/-- What a poll of an unsettled completion leaves behind. -/
def polled (w : World) (c : CompletionId) (x : WatchId) (i : WakerId) : World :=
  if (w.watch x).subscribed then w.store x i
  else ((w.store x i).subscribe x).enqueue c (.relay x)

end World

namespace Machine

open World

variable {m : Machine} {w : World} {c : CompletionId} {ctx : Context} {x : WatchId} {i : WakerId}
  {base below : List Frame}

/-- The poll of a completion that the next step begins. -/
def pollOf (c : CompletionId) (m : Machine) : Option (WatchId × WakerId) :=
  match m.stack, m.control with
  | .session _ (step :: _) :: below, .resume => step.act.polls m.world (heldBy below) c
  | .body _ (step :: _) :: below, .resume => step.act.polls m.world (heldBy below) c
  | _, _ => none

/-- A poll begins above the frames, through the handle of the watch, with the waker. -/
inductive Polls (c : CompletionId) (x : WatchId) (i : WakerId) (base : List Frame) (m : Machine) :
    Prop
  | mk {handle wakes : String} {ctx : Context} :
      Begins (.onPromise handle (.poll wakes)) m base →
      m.world.lookup handle = some (.promise c ctx x) → m.world.lookup wakes = some (.waker i) →
      isBusy (heldBy base) x = false → Polls c x i base m

theorem Act.polls_eq_some {held : List Ref} {act : Act} (h : act.polls w held c = some (x, i)) :
    ∃ handle wakes ctx, act = .onPromise handle (.poll wakes) ∧
      w.lookup handle = some (.promise c ctx x) ∧ w.lookup wakes = some (.waker i) ∧
      isBusy held x = false := by
  unfold Act.polls at h
  split at h
  next handle wakes =>
    split at h
    next d ctx x' i' refers wakers =>
      split at h
      next asked =>
        obtain ⟨rfl, free⟩ := asked
        cases h
        exact ⟨handle, wakes, ctx, rfl, refers, wakers, free⟩
      next => cases h
    next => cases h
  next => cases h

theorem pollOf_eq_some_iff : m.pollOf c = some (x, i) ↔ ∃ base, Polls c x i base m := by
  obtain ⟨w, stack, control⟩ := m
  constructor
  · intro h
    unfold pollOf at h
    dsimp only at h
    split at h
    next watched step rest below =>
      obtain ⟨label, act⟩ := step
      obtain ⟨handle, wakes, ctx, rfl, refers, wakers, free⟩ := Act.polls_eq_some h
      exact ⟨_, .mk (.session rfl rfl) refers wakers free⟩
    next label step rest below =>
      obtain ⟨label, act⟩ := step
      obtain ⟨handle, wakes, ctx, rfl, refers, wakers, free⟩ := Act.polls_eq_some h
      exact ⟨_, .mk (.body rfl rfl) refers wakers free⟩
    next => cases h
  · rintro ⟨base, ⟨begins, refers, wakers, free⟩⟩
    cases begins with
    | session hstack hresume | body hstack hresume =>
      obtain rfl := hstack
      obtain rfl := hresume
      simp only [pollOf, Step.act, Act.polls, refers, wakers]
      exact if_pos ⟨trivial, free⟩

/-! ## The steps of a poll -/

section Steps

variable {p : Site.Poll Item WakerId}

theorem setCompletion_completion (alive : w.Alive c) : w.setCompletion c (w.completion c) = w :=
  setSite_site alive

theorem setSite_updateWatch (alive : w.Alive c) (x : WatchId)
    (f : Watch WakerId → Watch WakerId) :
    w.setSite c ((w.site c).updateWatch x f) = { w with watches := w.watches.modify x f } := by
  show { w.setCompletion c (w.completion c) with watches := w.watches.modify x f } = _
  rw [setCompletion_completion alive]

theorem drive_look (alive : w.Alive c) (unsettled : (w.completion c).cell.result = none)
    (below : List Frame) :
    drive w below c (.look p) = goOn w (.driving c (.store p) :: below) := by
  have step : (w.site c).step (.look p) = (w.site c, .goto (.store p)) := by
    simp only [Site.step, World.site, unsettled]
  simp only [drive, step, setSite_site alive]

theorem drive_look_settled (alive : w.Alive c) {o : Outcome Value}
    (settled : (w.completion c).cell.result = some o) (below : List Frame) :
    drive w below c (.look p)
      = hand (w.record (.copied c o)) below (.ready (o.map Value.data)) := by
  have step : (w.site c).step (.look p) = (w.site c, .done (.ready o)) := by
    simp only [Site.step, World.site, settled]
  simp only [drive, step, setSite_site alive]
  rfl

theorem drive_store (alive : w.Alive c) (below : List Frame) :
    drive w below c (.store p)
      = goOn (w.store p.watch p.waker) (.driving c (.subscribe p) :: below) := by
  show goOn (w.setSite c ((w.site c).updateWatch p.watch _)) _ = _
  rw [setSite_updateWatch alive]
  rfl

theorem drive_subscribed (alive : w.Alive c) (subscribed : (w.watch p.watch).subscribed = true)
    (below : List Frame) :
    drive w below c (.subscribe p) = goOn w (.driving c (.lookAgain p) :: below) := by
  have step : (w.site c).step (.subscribe p) = (w.site c, .goto (.lookAgain p)) :=
    if_pos subscribed
  simp only [drive, step, setSite_site alive]

theorem drive_subscribe (alive : w.Alive c) (unsubscribed : (w.watch p.watch).subscribed = false)
    (below : List Frame) :
    drive w below c (.subscribe p)
      = goOn (w.subscribe p.watch)
          (.driving c (.registering p (.append .waker p.relay)) :: below) := by
  have step : (w.site c).step (.subscribe p)
      = ((w.site c).updateWatch p.watch fun watch => { watch with subscribed := true },
          .goto (.registering p (.append .waker p.relay))) :=
    if_neg (by rw [show ((w.site c).watch p.watch).subscribed = false from unsubscribed]; nofun)
  simp only [drive, step, setSite_updateWatch alive]
  rfl

theorem drive_append (below : List Frame) (item : Item) :
    drive w below c (.registering p (.append .waker item))
      = goOn (w.enqueue c item) (.driving c (.registering p (.consult .waker)) :: below) :=
  rfl

theorem drive_consult (alive : w.Alive c) (pending : (w.completion c).cell = {})
    (below : List Frame) :
    drive w below c (.registering p (.consult .waker))
      = goOn w (.driving c (.lookAgain p) :: below) := by
  have consult : (w.completion c).step (.consult .waker) = (w.completion c, .done .unit) := by
    simp only [Completion.step, pending]
  have step : (w.site c).step (.registering p (.consult .waker))
      = (w.site c, .goto (.lookAgain p)) := by
    simp only [Site.step, World.site, consult]
  simp only [drive, step, setSite_site alive]

theorem drive_lookAgain (alive : w.Alive c) (unsettled : (w.completion c).cell.result = none)
    (below : List Frame) : drive w below c (.lookAgain p) = hand w below .pending := by
  have step : (w.site c).step (.lookAgain p) = (w.site c, .done .pending) := by
    simp only [Site.step, World.site, unsettled]
  simp only [drive, step, setSite_site alive]
  rfl

end Steps

/-! ## What a poll leaves behind -/

section Worlds

variable {y : WatchId}

theorem watch_store (w : World) (x : WatchId) (i : WakerId) (y : WatchId) :
    (w.store x i).watch y
      = if x = y ∧ x < w.watches.size then { w.watch y with stored := some i } else w.watch y :=
  (w.site 0).watch_updateWatch x y _

theorem watch_subscribe (w : World) (x y : WatchId) :
    (w.subscribe x).watch y
      = if x = y ∧ x < w.watches.size then { w.watch y with subscribed := true }
        else w.watch y :=
  (w.site 0).watch_updateWatch x y _

theorem subscribed_store (w : World) (x : WatchId) (i : WakerId) :
    ((w.store x i).watch x).subscribed = (w.watch x).subscribed := by
  rw [watch_store]
  split <;> rfl

theorem alive_enqueue (alive : w.Alive c) (item : Item) : (w.enqueue c item).Alive c :=
  alive.setCompletion _

theorem cell_enqueue (alive : w.Alive c) (item : Item) :
    ((w.enqueue c item).completion c).cell = (w.completion c).cell := by
  have same : (w.enqueue c item).completion c = (w.completion c).setQueue .waker _ :=
    completion_eq (Array.getElem?_setIfInBounds_self_of_lt alive.lt_size)
  rw [same, Completion.cell_setQueue]

theorem handles_polled (w : World) (c : CompletionId) (x : WatchId) (i : WakerId) :
    (w.polled c x i).handles = w.handles := by
  unfold World.polled
  split <;> rfl

theorem wakers_polled (w : World) (c : CompletionId) (x : WatchId) (i : WakerId) :
    (w.polled c x i).wakers = w.wakers := by
  unfold World.polled
  split <;> rfl

theorem watch_polled (inside : x < w.watches.size) (c : CompletionId) (i : WakerId)
    (y : WatchId) :
    (w.polled c x i).watch y
      = if x = y then { stored := some i, subscribed := true } else w.watch y := by
  have stores : ∀ y, (w.store x i).watch y
      = if x = y then { w.watch y with stored := some i } else w.watch y := fun y => by
    rw [watch_store]
    simp only [inside, and_true]
  unfold World.polled
  split
  next subscribed =>
    rw [stores]
    split
    next same =>
      obtain rfl := same
      simp only [subscribed]
    next => rfl
  next =>
    refine (watch_subscribe (w.store x i) x y).trans ?_
    have inside' : x < (w.store x i).watches.size := Array.size_modify.symm ▸ inside
    simp only [inside', and_true, stores]
    split <;> rfl

theorem called_polled (w : World) (c : CompletionId) (x : WatchId) (i : WakerId)
    (d : CompletionId) (k : Kind) : (w.polled c x i).called d k = w.called d k := by
  unfold World.polled
  split
  next => rfl
  next => exact (called_record _ _ d k).trans (List.append_nil _)

theorem registered_polled (w : World) (c : CompletionId) (x : WatchId) (i : WakerId)
    (d : CompletionId) (k : Kind) :
    (w.polled c x i).registered d k = w.registered d k
      ++ if (w.watch x).subscribed = false ∧ c = d ∧ k = .waker then [.relay x] else [] := by
  unfold World.polled
  split
  next subscribed =>
    rw [if_neg fun new => Bool.noConfusion (subscribed.symm.trans new.1), List.append_nil]
    rfl
  next unsubscribed =>
    refine (registered_record _ _ d k).trans (congrArg (w.registered d k ++ ·) ?_)
    by_cases same : c = d
    · simp [Event.registersWith, unsubscribed, same, eq_comm]
    · simp [Event.registersWith, same]

end Worlds

section Runs

variable {watched : List String} {script : Script} {n : Nat}

/-- Between two moments a call on the unsettled completion goes on above the frames, and no other
code. -/
def Engrossed (watched : List String) (script : Script) (c : CompletionId) (top : List Frame)
    (n j : Nat) : Prop :=
  ∀ k, n < k → k < j → (∃ here, (moment watched script k).stack = .driving c here :: top) ∧
    (moment watched script k).world.settlement c = none

theorem Engrossed.next {top : List Frame} {j : Nat} {here : Site.Point Value Item WakerId}
    (h : Engrossed watched script c top n j)
    (now : moment watched script j = goOn w (.driving c here :: top))
    (unsettled : w.settlement c = none) : Engrossed watched script c top n (j + 1) := by
  intro k hnk hk
  obtain sooner | rfl := Nat.lt_or_eq_of_le (Nat.le_of_lt_succ hk)
  · exact h k hnk sooner
  · rw [now]
    exact ⟨⟨here, rfl⟩, unsettled⟩

/-- A poll of an unsettled deferred is told that the outcome is pending before other code runs. -/
theorem Polls.course (polls : Polls c x i base (moment watched script n))
    (unsettled : (moment watched script n).world.settlement c = none) :
    ∃ handle ctx j, (moment watched script n).world.lookup handle = some (.promise c ctx x) ∧
      n < j ∧ Engrossed watched script c (.holding (.promise c ctx x) :: base) n j ∧
      moment watched script j = hand ((moment watched script n).world.polled c x i)
        (.holding (.promise c ctx x) :: base) .pending := by
  obtain @⟨handle, wakes, ctx, begins, refers, wakers, free⟩ := polls
  have orderly := moment_orderly watched script n
  have alive : (moment watched script n).world.Alive c :=
    orderly.rooted.lookup refers (.completion c) rfl trivial
  have pending : ((moment watched script n).world.completion c).cell = {} := by
    rw [orderly.cell_eq (begins.active _) alive, unsettled]
    rfl
  generalize hpoll : (⟨x, i, .relay x⟩ : Site.Poll Item WakerId) = poll
  generalize htop : Frame.holding (.promise c ctx x) :: base = top
  have look : moment watched script (n + 1)
      = goOn (moment watched script n).world (.driving c (.look poll) :: top) := by
    rw [moment_succ, begins.step, ← hpoll, ← htop]
    simp only [enter, begin, refers, beginPromise, wakers, free]
    rfl
  refine ⟨handle, ctx, ?_⟩
  rw [htop]
  generalize (moment watched script n).world = w at *
  have reads : ∀ {w' : World}, (w'.completion c).cell = {} →
      (w'.completion c).cell.result = none := by
    intro w' cell
    rw [cell]
    rfl
  have store : moment watched script (n + 2) = goOn w (.driving c (.store poll) :: top) :=
    (moment_of_goOn look).trans (drive_look alive (reads pending) top)
  have subscribe : moment watched script (n + 3)
      = goOn (w.store x i) (.driving c (.subscribe poll) :: top) := by
    rw [moment_of_goOn store, drive_store alive, ← hpoll]
  have start : Engrossed watched script c top n (n + 1) := fun k hnk hk => by omega
  have course : Engrossed watched script c top n (n + 4) :=
    ((start.next look unsettled).next store unsettled).next subscribe unsettled
  cases subscribed : (w.watch x).subscribed with
  | true =>
    have again : moment watched script (n + 4)
        = goOn (w.store x i) (.driving c (.lookAgain poll) :: top) := by
      rw [moment_of_goOn subscribe, drive_subscribed (w := w.store x i) alive]
      rw [← hpoll, subscribed_store, subscribed]
    have answer : moment watched script (n + 5) = hand (w.store x i) top .pending :=
      (moment_of_goOn again).trans (drive_lookAgain (w := w.store x i) alive (reads pending) top)
    refine ⟨n + 5, refers, by omega, course.next again unsettled, ?_⟩
    rw [answer, World.polled, if_pos subscribed]
  | false =>
    generalize hw₁ : (w.store x i).subscribe x = w₁
    have alive₁ : w₁.Alive c := hw₁ ▸ alive
    have pending₁ : (w₁.completion c).cell = {} := hw₁ ▸ pending
    have unsettled₁ : w₁.settlement c = none := hw₁ ▸ unsettled
    have append : moment watched script (n + 4)
        = goOn w₁ (.driving c (.registering poll (.append .waker (.relay x))) :: top) := by
      rw [moment_of_goOn subscribe, drive_subscribe (w := w.store x i) alive, ← hpoll, hw₁]
      rw [← hpoll, subscribed_store, subscribed]
    generalize hw₂ : w₁.enqueue c (.relay x) = w₂
    have alive₂ : w₂.Alive c := hw₂ ▸ alive_enqueue alive₁ _
    have pending₂ : (w₂.completion c).cell = {} := by
      rw [← hw₂, cell_enqueue alive₁, pending₁]
    have unsettled₂ : w₂.settlement c = none := by
      rw [← hw₂]
      exact (settlement_record _ rfl c).trans unsettled₁
    have consult : moment watched script (n + 5)
        = goOn w₂ (.driving c (.registering poll (.consult .waker)) :: top) := by
      rw [moment_of_goOn append, drive_append, hw₂]
    have again : moment watched script (n + 6) = goOn w₂ (.driving c (.lookAgain poll) :: top) :=
      (moment_of_goOn consult).trans (drive_consult alive₂ pending₂ top)
    have answer : moment watched script (n + 7) = hand w₂ top .pending :=
      (moment_of_goOn again).trans (drive_lookAgain alive₂ (reads pending₂) top)
    refine ⟨n + 7, refers, by omega, ?_, ?_⟩
    · exact ((course.next append unsettled₁).next consult unsettled₂).next again unsettled₂
    · rw [answer, World.polled, subscribed, if_neg Bool.false_ne_true, hw₁, hw₂]

/-- A call that has answered lets go of what a handle refers to as well. -/
theorem moment_of_holding (handle : String) {r : Ref} {answer : Reply} {j : Nat}
    (held : moment watched script j = hand w (.holding r :: base) answer)
    (refers : w.lookup handle = some r) : moment watched script (j + 1) = hand w base answer := by
  rw [moment_succ, held]
  exact congrArg (hand · base answer) (release_of_lookup refers (heldBy base))

/-- A poll of an unsettled deferred comes back pending, and has left behind what a poll does. -/
theorem poll_pends (polls : Polls c x i base (moment watched script n))
    (unsettled : (moment watched script n).world.settlement c = none) :
    ∃ j, n < j ∧
      (∀ k, n < k → k < j → base.length < (moment watched script k).stack.length) ∧
      moment watched script j
        = hand ((moment watched script n).world.polled c x i) base .pending := by
  obtain ⟨handle, ctx, j, refers, hnj, course, answer⟩ := polls.course unsettled
  have refers' : ((moment watched script n).world.polled c x i).lookup handle
      = some (.promise c ctx x) := by
    rw [World.lookup, handles_polled]
    exact refers
  refine ⟨j + 1, Nat.lt_succ_of_lt hnj, ?_, moment_of_holding _ answer refers'⟩
  intro k hnk hk
  obtain sooner | rfl := Nat.lt_or_eq_of_le (Nat.le_of_lt_succ hk)
  · obtain ⟨⟨here, hstack⟩, -⟩ := course k hnk sooner
    simp only [hstack, List.length_cons]
    omega
  · rw [answer]
    exact Nat.lt_succ_self _

/-- A poll of a settled deferred is given a copy of the outcome, and leaves no other trace. -/
theorem poll_ready (polls : Polls c x i base (moment watched script n)) {o : Outcome Value}
    (settled : (moment watched script n).world.settlement c = some o) :
    moment watched script (n + 3)
      = hand ((moment watched script n).world.record (.copied c o)) base
          (.ready (o.map Value.data)) := by
  obtain @⟨handle, wakes, ctx, begins, refers, wakers, free⟩ := polls
  have orderly := moment_orderly watched script n
  have alive : (moment watched script n).world.Alive c :=
    orderly.rooted.lookup refers (.completion c) rfl trivial
  have reads := orderly.result_eq alive
  have look : moment watched script (n + 1)
      = goOn (moment watched script n).world
          (.driving c (.look ⟨x, i, .relay x⟩) :: .holding (.promise c ctx x) :: base) := by
    rw [moment_succ, begins.step]
    simp only [enter, begin, refers, beginPromise, wakers, free]
    rfl
  have answer := (moment_of_goOn look).trans
    (drive_look_settled alive (reads.trans settled) (.holding (.promise c ctx x) :: base))
  exact moment_of_holding handle answer refers

end Runs

end Machine

end Eventual
