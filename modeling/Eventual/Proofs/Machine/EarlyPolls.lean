import Eventual.Proofs.Machine.OnePoll

/-!
# What the polls before a settlement leave behind

The polls of a deferred that begin before it is settled are its early ones. They alone decide what
its watches hold and what was enlisted among its wakers: `Remembers`. Each watch that a poll came
through has been enlisted, once, in the order of the first polls, and holds the waker of its last
poll until its relay is called.

Every step preserves this, except that an early poll takes several; but no other code runs in
between, so the polls can be followed one after another.
-/

namespace Eventual

/-- The watch that a relay takes its waker from. -/
def Item.watch? : Item → Option WatchId
  | .relay x => some x
  | .callback _ _ | .countdown _ _ _ | .waker _ => none

theorem mem_filterMap_watch? {items : List Item} {x : WatchId} :
    x ∈ items.filterMap Item.watch? ↔ .relay x ∈ items := by
  rw [List.mem_filterMap]
  constructor
  · rintro ⟨item, hitem, same⟩
    cases item with
    | relay y => exact Option.some.inj same ▸ hitem
    | callback | countdown | waker => cases same
  · exact fun h => ⟨_, h, rfl⟩

/-- The watch whose relay an action calls among the wakers. -/
def Action.relayed {π ρ : Type} (a : Action Value Item π ρ) : List WatchId :=
  (a.called .waker).filterMap Item.watch?

theorem Action.mem_relayed {π ρ : Type} {a : Action Value Item π ρ} {x : WatchId} :
    x ∈ a.relayed ↔ ∃ arg p, a = .call .waker (.relay x) arg p := by
  rw [Action.relayed, mem_filterMap_watch?]
  cases a with
  | call k item arg p =>
    by_cases same : k = .waker
    · simp [Action.called, same, eq_comm]
    · simp [Action.called, same]
  | goto | notice | done | refused => simp [Action.called]

/-- The watches that the polls came through, in the order of their first polls. -/
def polledWatches (polls : List (WatchId × WakerId)) : List WatchId :=
  (polls.map Prod.fst).eraseDups

/-- The waker of the last of the polls that came through the watch. -/
def lastWaker (polls : List (WatchId × WakerId)) (x : WatchId) : Option WakerId :=
  polls.reverse.lookup x

section Polls

variable {polls : List (WatchId × WakerId)} {x y : WatchId} {i : WakerId}

theorem mem_polledWatches : x ∈ polledWatches polls ↔ ∃ i, (x, i) ∈ polls := by
  rw [polledWatches, List.mem_eraseDups, List.mem_map]
  exact ⟨fun ⟨⟨_, i⟩, h, same⟩ => ⟨i, same ▸ h⟩, fun ⟨i, h⟩ => ⟨(x, i), h, rfl⟩⟩

theorem polledWatches_append (polls : List (WatchId × WakerId)) (x : WatchId) (i : WakerId) :
    polledWatches (polls ++ [(x, i)])
      = if x ∈ polledWatches polls then polledWatches polls else polledWatches polls ++ [x] := by
  unfold polledWatches
  rw [List.map_append, List.eraseDups_append]
  by_cases h : x ∈ polls.map Prod.fst
  · simp [List.removeAll, h]
  · simp [List.removeAll, h, List.eraseDups_cons]

theorem nodup_eraseDups (l : List WatchId) : l.eraseDups.Nodup := by
  generalize hn : l.length = n
  induction n using Nat.strongRecOn generalizing l with
  | ind n ih =>
    cases l with
    | nil => exact List.nodup_nil
    | cons a l =>
      rw [List.eraseDups_cons, List.nodup_cons]
      refine ⟨by simp, ih _ ?_ _ rfl⟩
      exact hn ▸ Nat.lt_succ_of_le (List.length_filter_le _ l)

theorem nodup_polledWatches (polls : List (WatchId × WakerId)) : (polledWatches polls).Nodup :=
  nodup_eraseDups _

theorem lastWaker_append (polls : List (WatchId × WakerId)) (x : WatchId) (i : WakerId)
    (y : WatchId) :
    lastWaker (polls ++ [(x, i)]) y = if x = y then some i else lastWaker polls y := by
  rw [lastWaker, List.reverse_append, List.reverse_singleton, List.singleton_append,
    List.lookup_cons]
  by_cases same : x = y
  · simp [same]
  · simp [same, beq_eq_false_iff_ne.2 (Ne.symm same), lastWaker]

theorem exists_lastWaker (h : x ∈ polledWatches polls) :
    ∃ i, lastWaker polls x = some i ∧ (x, i) ∈ polls := by
  cases hl : lastWaker polls x with
  | none =>
    obtain ⟨i, hi⟩ := mem_polledWatches.1 h
    have other := List.lookup_eq_none_iff.1 hl (x, i) (List.mem_reverse.2 hi)
    simp at other
  | some i =>
    obtain ⟨before, after, polls', -⟩ := List.lookup_eq_some_iff.1 hl
    refine ⟨i, rfl, List.mem_reverse.1 ?_⟩
    rw [polls']
    exact List.mem_append_right _ (List.mem_cons_self ..)

theorem lastWaker_eq_none (h : x ∉ polledWatches polls) : lastWaker polls x = none := by
  refine List.lookup_eq_none_iff.2 fun poll hpoll => ?_
  rw [bne_iff_ne]
  rintro rfl
  exact h (mem_polledWatches.2 ⟨poll.2, List.mem_reverse.1 hpoll⟩)

end Polls

namespace World

/-- The watches whose relays were called among the wakers of a completion, in order. -/
def relayed (w : World) (c : CompletionId) : List WatchId :=
  (w.called c .waker).filterMap Item.watch?

/-- The watches whose relays were registered among the wakers of a completion, in order. -/
def enlisted (w : World) (c : CompletionId) : List WatchId :=
  (w.registered c .waker).filterMap Item.watch?

end World

namespace Machine

open World

variable {m m' : Machine} {c d : CompletionId} {ctx : Context} {x : WatchId} {i : WakerId}
  {base below : List Frame} {frame : Frame} {polls : List (WatchId × WakerId)}
  {p : Site.Point Value Item WakerId} {poll : Site.Poll Item WakerId}

/-- While no early poll is under way: what the early polls have left in the watches of a completion
and among its wakers. Of a poll that has begun later nothing is seen. -/
structure Remembers (c : CompletionId) (polls : List (WatchId × WakerId)) (m : Machine) : Prop where
  late : ∀ {p poll}, .driving c p ∈ m.stack → p.poll? = some poll →
    p = .look poll ∧ m.world.settlement c ≠ none
  stored : ∀ {x}, m.Mentions c x →
    (m.world.watch x).stored = if x ∈ m.world.relayed c then none else lastWaker polls x
  subscribed : ∀ {x}, m.Mentions c x →
    ((m.world.watch x).subscribed = true ↔ x ∈ polledWatches polls)
  enlisted : m.world.enlisted c = polledWatches polls
  kinds : ∀ {k x}, .relay x ∈ m.world.registered c k → k = .waker
  wakers : ∀ {x i}, (x, i) ∈ polls → i < m.world.wakers.size

/-! ## Polls that begin -/

/-- A poll that a step of a script starts is the one that the step asks for. -/
theorem polls_of_begin {act : Act} (begins : Begins act m base)
    (starts : .driving c p ∈ (begin m.world (heldBy base) act).frames)
    (polls : p.poll? = some poll) :
    p = .look poll ∧ Polls c poll.watch poll.waker base m := by
  have opens := @begin_opens m.world (heldBy base) act
  generalize hstart : begin m.world (heldBy base) act = start at opens starts
  cases opens with
  | aloof _ aloof _ => exact (aloof _ starts).elim
  | births => cases starts
  | chains => simp [Start.run] at starts
  | @engages w' d r call awaiting engages _ =>
    cases engages with
    | direct | register =>
      obtain ⟨rfl, rfl⟩ : c = d ∧ p = _ := by simpa [Start.engage, Start.run] using starts
      cases polls
    | settle =>
      obtain ⟨rfl, rfl⟩ : c = d ∧ p = _ := by simpa [Start.engage, Start.run] using starts
      cases polls
    | @poll handle wakes ctx watch i refers =>
      obtain ⟨rfl, rfl⟩ : c = d ∧ p = _ := by simpa [Start.engage, Start.run] using starts
      cases polls
      simp only [begin, refers, beginPromise] at hstart
      split at hstart
      next i' wakers =>
        split at hstart
        next => cases hstart
        next free =>
          cases hstart
          exact ⟨rfl, .mk begins refers wakers (Bool.eq_false_iff.2 free)⟩
      next => cases hstart

/-- A poll that a move leads to was under way before, or begins. -/
theorem Moves.poll_begins (hstack : m.stack = frame :: below)
    (moves : Moves m.world below frame m.control m') (hp : .driving c p ∈ m'.stack)
    (polls : p.poll? = some poll) :
    .driving c p ∈ m.stack ∨ p = .look poll ∧ ∃ base, Polls c poll.watch poll.waker base m := by
  obtain ⟨w, stack, control⟩ := m
  obtain rfl : stack = frame :: below := hstack
  have lower : .driving c p ∈ below → .driving c p ∈ frame :: below := List.mem_cons_of_mem _
  cases moves with
  | @begins _ act base begins =>
    obtain starts | hbase := List.mem_append.1 hp
    · obtain ⟨looks, polls⟩ := polls_of_begin begins starts polls
      exact .inr ⟨looks, base, polls⟩
    · cases begins with
      | session hs _ | body hs _ =>
        cases hs
        exact .inl (lower (by simpa using hbase))
  | repeats => exact .inl (lower (by simpa [goOn] using hp))
  | chains =>
    obtain now | hp := List.mem_cons.1 hp
    · cases now
      cases polls
    · exact .inl (lower (by simpa using hp))
  | resumes => exact .inl hp
  | offers => exact .inl (lower (by simpa [hand] using hp))
  | answers | loses | breaks | passes => exact .inl (lower hp)
  | yields _ aloof =>
    obtain code | hp := List.mem_append.1 hp
    · exact (aloof _ code).elim
    · exact .inl (lower hp)

/-- A poll that a step of a call leads to was under way before. -/
theorem Works.poll_goes_on {w : World} {here : Site.Point Value Item WakerId}
    {s : Site Value Item WakerId}
    {action : Action Value Item (Site.Point Value Item WakerId) (Site.Answer Value)}
    (works : Works w d here below m' s action) (hp : .driving c p ∈ m'.stack)
    (polls : p.poll? = some poll) :
    .driving c p ∈ below ∨ d = c ∧ action.next? = some p := by
  have leads := works.leads
  have runs := works.runs
  generalize m'.stack = stack at hp leads runs
  generalize m'.control = control at leads runs
  have next : ∀ p', action.next? = some p' → .driving c p ∈ .driving d p' :: below →
      .driving c p ∈ below ∨ d = c ∧ action.next? = some p := by
    intro p' hp' hmem
    obtain same | hbelow := List.mem_cons.1 hmem
    · cases same
      exact .inr ⟨rfl, hp'⟩
    · exact .inl hbelow
  cases leads with
  | goto | notice => exact next _ rfl hp
  | done | refused => exact .inl hp
  | call =>
    obtain ⟨frames, runs, hstack⟩ := runs _ _ _ _ rfl
    rw [hstack] at hp
    obtain hframes | hp := List.mem_append.1 hp
    · have about : (Frame.driving c p).About c poll.watch := ⟨rfl, .poll polls (.inl rfl)⟩
      exact absurd about (Item.Runs.mute runs _ hframes c poll.watch)
    · exact next _ rfl hp

/-! ## Steps between the polls -/

theorem Remembers.mentions (h : Remembers c polls m) (hx : x ∈ polledWatches polls) :
    m.Mentions c x :=
  .registered (mem_filterMap_watch?.1 (h.enlisted.symm ▸ hx))

/-- What is settled stays so. -/
theorem Orderly.settled_step (orderly : m.Orderly) (sound : m.Sound)
    (settled : m.world.settlement c ≠ none) : m.step.world.settlement c ≠ none := by
  obtain ⟨o, ho⟩ := Option.ne_none_iff_exists'.1 settled
  rw [orderly.settlement_step sound ho]
  exact Option.some_ne_none o

/-- A step that does not go on with a call, and begins no early poll. -/
theorem Remembers.idle (h : Remembers c polls m) (sound : m.Sound) (orderly : m.Orderly)
    (allotted : m.Allotted) (hstack : m.stack = frame :: below)
    (idle : ¬ (m.control = .resume ∧ ∃ d here, frame = .driving d here))
    (silent : Silent m.world m.step.world)
    (moves : Moves m.world below frame m.control m.step)
    (calm : ∀ {x i base}, Polls c x i base m → m.world.settlement c ≠ none) :
    Remembers c polls m.step := by
  obtain ⟨issued, issues, gains⟩ := (step_heeds hstack idle).gains hstack silent.registered
  have relayed : m.step.world.relayed c = m.world.relayed c :=
    congrArg (List.filterMap Item.watch?) (silent.called c .waker)
  -- A watch that is newly mentioned is one that has just been issued, and nobody has polled.
  have watch : ∀ {x}, m.step.Mentions c x →
      (m.Mentions c x ∧ m.step.world.watch x = m.world.watch x) ∨
        (x ∉ polledWatches polls ∧ m.step.world.watch x = {}) := by
    intro x mentions
    obtain before | ⟨entry, rfl, refers⟩ := gains.mentions c x mentions
    · exact .inl ⟨before, issues.watch_eq (allotted.inside before)⟩
    · obtain ⟨c', fresh⟩ := issues.fresh entry rfl
      obtain rfl := (Prod.mk.inj (Option.some.inj (refers.symm.trans fresh))).2
      exact .inr ⟨fun polled => Nat.lt_irrefl _ (allotted.inside (h.mentions polled)),
        issues.watch_new⟩
  refine ⟨?_, ?_, ?_, ?_, ?_, fun hpoll => Nat.lt_of_lt_of_le (h.wakers hpoll) gains.wakers⟩
  · intro p poll hp polls
    obtain before | ⟨looks, base, begins⟩ := moves.poll_begins hstack hp polls
    · obtain ⟨looks, settled⟩ := h.late before polls
      exact ⟨looks, orderly.settled_step sound settled⟩
    · exact ⟨looks, orderly.settled_step sound (calm begins)⟩
  · intro x mentions
    rw [relayed]
    obtain ⟨before, same⟩ | ⟨unpolled, new⟩ := watch mentions
    · rw [same]
      exact h.stored before
    · rw [new, lastWaker_eq_none unpolled, ite_self]
  · intro x mentions
    obtain ⟨before, same⟩ | ⟨unpolled, new⟩ := watch mentions
    · rw [same]
      exact h.subscribed before
    · rw [new]
      exact iff_of_false nofun unpolled
  · rw [← h.enlisted]
    exact congrArg (List.filterMap Item.watch?) (silent.registered c .waker)
  · intro k x hx
    rw [silent.registered] at hx
    exact h.kinds hx

section Drive

variable {here : Site.Point Value Item WakerId} {s : Site Value Item WakerId}
  {action : Action Value Item (Site.Point Value Item WakerId) (Site.Answer Value)}

/-- A poll that is under way ends with its next step. -/
theorem Remembers.of_poll (h : Remembers c polls m) (sound : m.Sound) (orderly : m.Orderly)
    (hstack : m.stack = .driving c here :: below) (hpoll : here.poll? = some poll)
    (does : Site.Does (m.world.site c) here s action) :
    s = m.world.site c ∧ ∃ answer, action = .done answer := by
  obtain ⟨rfl, settled⟩ := h.late (hstack ▸ List.mem_cons_self ..) hpoll
  have alive := (sound.of_driving (hstack ▸ List.mem_cons_self ..)).1
  cases does with
  | ready => exact ⟨rfl, _, rfl⟩
  | unready unsettled => exact absurd ((orderly.result_eq alive).symm.trans unsettled) settled

/-- Unless the call is an early poll, it leaves the watches of the completion to the relays. -/
theorem Remembers.site_watch (h : Remembers c polls m) (sound : m.Sound) (orderly : m.Orderly)
    (allotted : m.Allotted) (hstack : m.stack = .driving d here :: below)
    (does : Site.Does (m.world.site d) here s action) (mentions : m.Mentions c x) :
    s.watch x = m.world.watch x := by
  have top : .driving d here ∈ m.stack := hstack ▸ List.mem_cons_self ..
  cases hpoll : here.poll? with
  | none => exact does.watch_eq fun poll hpoll' => nomatch hpoll.symm.trans hpoll'
  | some poll =>
    by_cases same : d = c
    · subst same
      obtain ⟨rfl, -⟩ := h.of_poll sound orderly hstack hpoll does
      rfl
    · refine does.watch_eq fun poll' hpoll' hx => same ?_
      exact allotted.one (.calls top ⟨rfl, .poll hpoll' (.inl hx)⟩) mentions

/-- No relay is registered but by an early poll. -/
theorem Remembers.not_registers (h : Remembers c polls m) (sound : m.Sound) (orderly : m.Orderly)
    (owned : m.Owned c ctx) (hstack : m.stack = .driving c here :: below)
    (does : Site.Does (m.world.site c) here s action) {k : Kind} (x : WatchId) :
    .relay x ∉ action.registered k := by
  intro registers
  have top : .driving c here ∈ m.stack := hstack ▸ List.mem_cons_self ..
  cases hpoll : here.poll? with
  | some poll =>
    obtain ⟨-, answer, rfl⟩ := h.of_poll sound orderly hstack hpoll does
    cases registers
  | none =>
    obtain ⟨call, serves, kin⟩ := owned.frames _ top rfl
    cases here with
    | direct at' =>
      obtain rfl : at' = .append k (.relay x) := Option.some.inj (does.of_registered registers)
      cases kin with
      | complete | poll => exact serves.elim
      | register => cases serves.2
    | look | store | subscribe | registering | lookAgain => cases hpoll

/-- A relay is called for the completion of its watch, and among the wakers. -/
theorem Remembers.of_relay (h : Remembers c polls m) (sound : m.Sound) (allotted : m.Allotted)
    (hstack : m.stack = .driving d here :: below) {k : Kind} {arg : Option Value}
    (does : Site.Does (m.world.site d) here s (.call k (.relay x) arg p))
    (mentions : m.Mentions c x) : d = c ∧ k = .waker := by
  have registered := sound.registered_of_call hstack does
  obtain rfl : d = c := allotted.one (.registered registered) mentions
  exact ⟨rfl, h.kinds registered⟩

/-- A call that is no early poll empties the watch whose relay it calls, and no other one of the
completion. -/
theorem Remembers.watch_drive (h : Remembers c polls m) (sound : m.Sound) (orderly : m.Orderly)
    (allotted : m.Allotted) (hstack : m.stack = .driving d here :: below)
    (hstep : (m.world.site d).step here = (s, action)) (mentions : m.Mentions c x) :
    (drive m.world below d here).world.watch x
      = if d = c ∧ x ∈ action.relayed then { m.world.watch x with stored := none }
        else m.world.watch x := by
  have does := Site.step_does (m.world.site d) here
  rw [hstep] at does
  rw [Machine.watch_drive below hstep, ← h.site_watch sound orderly allotted hstack does mentions]
  cases action with
  | call k item arg p =>
    rw [Site.acted, Site.watch_running]
    cases item with
    | relay y =>
      by_cases same : y = x
      · subst same
        obtain ⟨rfl, rfl⟩ := h.of_relay sound allotted hstack does mentions
        rw [if_pos ⟨rfl, Action.mem_relayed.2 ⟨_, _, rfl⟩⟩]
        exact if_pos rfl
      · refine (if_neg same).trans (if_neg fun both => ?_).symm
        obtain ⟨arg, p, called⟩ := Action.mem_relayed.1 both.2
        cases called
        exact same rfl
    | callback | countdown | waker =>
      refine (if_neg fun both => ?_).symm
      obtain ⟨arg, p, called⟩ := Action.mem_relayed.1 both.2
      cases called
  | goto | notice | done | refused => exact (if_neg fun both => nomatch both.2).symm

theorem mem_relayed_drive (works : Works m.world d here below m' s action) :
    x ∈ m'.world.relayed c ↔
      x ∈ m.world.relayed c ∨ d = c ∧ x ∈ action.relayed := by
  rw [World.relayed, works.called, List.filterMap_append, List.mem_append]
  split
  next same => exact or_congr_right (and_iff_right same).symm
  next other => exact or_congr_right (iff_of_false nofun fun both => other both.1)

/-- A step of a call that is no early poll. -/
theorem Remembers.drive (h : Remembers c polls m) (sound : m.Sound) (orderly : m.Orderly)
    (allotted : m.Allotted) (owned : c < m.world.completions.size → m.Owned c ctx)
    (hstack : m.stack = .driving d here :: below) (hresume : m.control = .resume) :
    Remembers c polls m.step := by
  rcases hstep : (m.world.site d).step here with ⟨s, action⟩
  have alive := (sound.of_driving (hstack ▸ List.mem_cons_self ..)).1
  have works := drive_works_of_step alive below hstep
  have gains := gains_drive alive hstack
  have step : m.step = Machine.drive m.world below d here := step_of_resume hstack hresume
  have mentions : ∀ {x}, m.step.Mentions c x → m.Mentions c x := by
    intro x hx
    rw [step] at hx
    obtain before | ⟨entry, issued, -⟩ := gains.mentions c x hx
    · exact before
    · cases issued
  have watch := fun {x} (mentions : m.Mentions c x) =>
    h.watch_drive sound orderly allotted hstack hstep mentions
  rw [← step] at works gains watch
  have registered : ∀ {k x}, .relay x ∈ m.step.world.registered c k →
      .relay x ∈ m.world.registered c k := by
    intro k x hx
    rw [works.registered] at hx
    obtain before | now := List.mem_append.1 hx
    · exact before
    · split at now
      next same =>
        subst same
        exact absurd now (h.not_registers sound orderly (owned alive.lt_size) hstack works.does x)
      next => cases now
  refine ⟨?_, ?_, ?_, ?_, fun hx => h.kinds (registered hx),
    fun hpoll => Nat.lt_of_lt_of_le (h.wakers hpoll) gains.wakers⟩
  · intro p poll hp polls
    obtain hbelow | ⟨rfl, next⟩ := works.poll_goes_on hp polls
    · obtain ⟨looks, settled⟩ := h.late (hstack ▸ List.mem_cons_of_mem _ hbelow) polls
      exact ⟨looks, orderly.settled_step sound settled⟩
    · have hpoll := (works.does.next_poll? next).symm.trans polls
      obtain ⟨-, answer, rfl⟩ := h.of_poll sound orderly hstack hpoll works.does
      cases next
  · intro x hx
    rw [watch (mentions hx),
      ite_congr (propext (mem_relayed_drive works)) (fun _ => rfl) fun _ => rfl]
    split
    next calls => rw [if_pos (.inr calls)]
    next calls =>
      rw [h.stored (mentions hx)]
      simp [calls]
  · intro x hx
    rw [watch (mentions hx), ← h.subscribed (mentions hx)]
    split <;> rfl
  · rw [← h.enlisted, World.enlisted, works.registered, List.filterMap_append]
    split
    next same =>
      subst same
      have nothing : (action.registered .waker).filterMap Item.watch? = [] := by
        refine List.filterMap_eq_nil_iff.2 fun item hitem => ?_
        cases item with
        | relay x =>
          exact absurd hitem
            (h.not_registers sound orderly (owned alive.lt_size) hstack works.does x)
        | callback | countdown | waker => rfl
      rw [nothing, List.append_nil]
      rfl
    next => exact List.append_nil _

end Drive

/-! ## Early polls -/

/-- What has been called waits for what is settled. -/
theorem Orderly.settled_of_called (orderly : m.Orderly) {k : Kind} {item : Item}
    (called : item ∈ m.world.called c k) : m.world.settlement c ≠ none := by
  obtain ⟨ev, hev, calls⟩ := List.mem_flatMap.1 called
  obtain ⟨before, after, split⟩ := List.append_of_mem hev
  cases ev with
  | started d k' item' arg =>
    obtain rfl : d = c := by
      apply Classical.byContradiction
      intro other
      simp [Event.callsOn, other] at calls
    obtain ⟨o, settled, -⟩ := orderly.warranted split rfl trivial
    have recorded : .settled (.completion d) o ∈ m.world.history :=
      split ▸ List.mem_append_left _ settled
    rw [orderly.settlement_of_settled recorded]
    exact Option.some_ne_none o
  | _ => cases calls

theorem Orderly.called_eq_nil (orderly : m.Orderly) (unsettled : m.world.settlement c = none)
    (k : Kind) : m.world.called c k = [] :=
  List.eq_nil_iff_forall_not_mem.2 fun _ called => orderly.settled_of_called called unsettled

theorem Orderly.relayed_eq_nil (orderly : m.Orderly) (unsettled : m.world.settlement c = none) :
    m.world.relayed c = [] :=
  congrArg (List.filterMap Item.watch?) (orderly.called_eq_nil unsettled .waker)

/-- A step of a script begins above frames that are on the stack, but for one of a script. -/
theorem Begins.driving {act : Act} (begins : Begins act m base)
    (hp : .driving d p ∈ base) : .driving d p ∈ m.stack := by
  cases begins with
  | session hstack _ | body hstack _ =>
    rw [hstack]
    exact List.mem_cons_of_mem _ (by simpa using hp)

/-- An early poll adds to what is remembered. -/
theorem Remembers.polled (h : Remembers c polls m) (orderly : m.Orderly) (allotted : m.Allotted)
    (starts : Polls c x i base m) (unsettled : m.world.settlement c = none)
    (hstack : m'.stack = .holding (.promise c ctx x) :: base)
    (world : m'.world = m.world.polled c x i) : Remembers c (polls ++ [(x, i)]) m' := by
  obtain @⟨handle, wakes, ctx', begins, refers, wakers, -⟩ := starts
  have mentioned : m.Mentions c x := .bound (mem_of_lookup refers) rfl
  have lower : ∀ {d p}, .driving d p ∈ m'.stack → .driving d p ∈ m.stack := fun hp => by
    rw [hstack] at hp
    exact begins.driving (by simpa using hp)
  have registered := fun k => world ▸ registered_polled m.world c x i c k
  have mentions : ∀ {y}, m'.Mentions c y → m.Mentions c y := by
    rintro y (⟨hentry, refers⟩ | @⟨frame, hframe, about⟩ | @⟨k, hy⟩)
    · rw [world, handles_polled] at hentry
      exact .bound hentry refers
    · cases frame with
      | driving => exact .calls (lower hframe) about
      | _ => exact about.elim
    · rw [registered] at hy
      obtain before | now := List.mem_append.1 hy
      · exact .registered before
      · split at now
        next =>
          obtain rfl := Item.relay.inj (List.mem_singleton.1 now)
          exact mentioned
        next => cases now
  have watch : ∀ y, m'.world.watch y = _ := fun y =>
    world ▸ watch_polled (allotted.inside mentioned) c i y
  have relayed : m'.world.relayed c = [] := by
    rw [World.relayed, world, called_polled]
    exact orderly.relayed_eq_nil unsettled
  have polled : ∀ {y}, y ∈ polledWatches (polls ++ [(x, i)]) ↔ x = y ∨ y ∈ polledWatches polls := by
    intro y
    simp only [mem_polledWatches, List.mem_append, List.mem_singleton, Prod.mk.injEq]
    constructor
    · rintro ⟨i', before | ⟨rfl, -⟩⟩
      · exact .inr ⟨i', before⟩
      · exact .inl rfl
    · rintro (rfl | ⟨i', before⟩)
      · exact ⟨i, .inr ⟨rfl, rfl⟩⟩
      · exact ⟨i', .inl before⟩
  refine ⟨?_, ?_, ?_, ?_, ?_, ?_⟩
  · intro p poll hp polls
    exact absurd unsettled (h.late (lower hp) polls).2
  · intro y hy
    rw [watch, relayed, if_neg List.not_mem_nil, lastWaker_append]
    split
    next => rfl
    next =>
      rw [h.stored (mentions hy), orderly.relayed_eq_nil unsettled, if_neg List.not_mem_nil]
  · intro y hy
    rw [watch, polled]
    split
    next same => exact iff_of_true rfl (.inl same)
    next other => rw [h.subscribed (mentions hy), or_iff_right other]
  · rw [World.enlisted, registered, List.filterMap_append, polledWatches_append]
    cases subscribed : (m.world.watch x).subscribed with
    | true =>
      rw [if_pos ((h.subscribed mentioned).1 subscribed), ← h.enlisted]
      simp [World.enlisted]
    | false =>
      have new : x ∉ polledWatches polls := fun old =>
        Bool.noConfusion (subscribed.symm.trans ((h.subscribed mentioned).2 old))
      rw [if_neg new, ← h.enlisted]
      simp [World.enlisted, Item.watch?]
  · intro k y hy
    rw [registered] at hy
    obtain before | now := List.mem_append.1 hy
    · exact h.kinds before
    · split at now
      next asked => exact asked.2.2
      next => cases now
  · intro y i' hpoll
    rw [world, wakers_polled]
    obtain before | now := List.mem_append.1 hpoll
    · exact h.wakers before
    · cases List.mem_singleton.1 now
      exact allotted.wakers _ (mem_of_lookup wakers) _ rfl

/-! ## Runs -/

/-- The polls of a completion that begin before the moment, and before it is settled. -/
def earlyPolls (watched : List String) (script : Script) (c : CompletionId) :
    Nat → List (WatchId × WakerId)
  | 0 => []
  | n + 1 =>
    earlyPolls watched script c n ++
      match (moment watched script n).world.settlement c with
      | none => (pollOf c (moment watched script n)).toList
      | some _ => []

section Runs

variable {watched : List String} {script : Script} {n j : Nat}

theorem earlyPolls_succ_of_calm
    (calm : ∀ {x i base}, Polls c x i base (moment watched script n) →
      (moment watched script n).world.settlement c ≠ none) :
    earlyPolls watched script c (n + 1) = earlyPolls watched script c n := by
  rw [earlyPolls]
  split
  next unsettled =>
    cases asked : pollOf c (moment watched script n) with
    | none => exact List.append_nil _
    | some poll =>
      obtain ⟨base, polls⟩ := pollOf_eq_some_iff.1 asked
      exact absurd unsettled (calm polls)
  next => exact List.append_nil _

theorem earlyPolls_succ_of_polls (polls : Polls c x i base (moment watched script n))
    (unsettled : (moment watched script n).world.settlement c = none) :
    earlyPolls watched script c (n + 1) = earlyPolls watched script c n ++ [(x, i)] := by
  rw [earlyPolls, unsettled, pollOf_eq_some_iff.2 ⟨base, polls⟩]
  rfl

theorem settled_lasts (settled : (moment watched script n).world.settlement c ≠ none)
    (hnj : n ≤ j) : (moment watched script j).world.settlement c ≠ none := by
  obtain ⟨o, ho⟩ := Option.ne_none_iff_exists'.1 settled
  rw [settlement_lasts ho hnj]
  exact Option.some_ne_none o

/-- When the completion is settled no poll is an early one any more. -/
theorem earlyPolls_of_settled (settled : (moment watched script n).world.settlement c ≠ none)
    (hnj : n ≤ j) : earlyPolls watched script c j = earlyPolls watched script c n := by
  induction hnj with
  | refl => rfl
  | step hnj ih => exact (earlyPolls_succ_of_calm fun _ => settled_lasts settled hnj).trans ih

/-- While a call goes on nothing begins. -/
theorem Engrossed.calm {top : List Frame} (engrossed : Engrossed watched script c top n j)
    {k : Nat} (hnk : n < k) (hkj : k < j) : ¬ Polls d x i base (moment watched script k) := by
  rintro ⟨begins, -⟩
  obtain ⟨⟨here, hstack⟩, -⟩ := engrossed k hnk hkj
  cases begins with
  | session hstack' _ | body hstack' _ => cases hstack.symm.trans hstack'

/-- Between two early polls everything is as they have left it. -/
theorem Remembers.next (h : Remembers c polls (moment watched script n))
    (owned : c < (moment watched script n).world.completions.size →
      (moment watched script n).Owned c ctx)
    (calm : ∀ {x i base}, Polls c x i base (moment watched script n) →
      (moment watched script n).world.settlement c ≠ none) :
    Remembers c polls (moment watched script (n + 1)) := by
  have sound := moment_sound watched script n
  have orderly := moment_orderly watched script n
  have allotted := moment_allotted watched script n
  rw [moment_succ]
  cases hstack : (moment watched script n).stack with
  | nil => rwa [step_of_isOver (List.isEmpty_iff.2 hstack)]
  | cons frame below =>
    obtain ⟨idles, idle⟩ | ⟨d, here, -, -, hresume, rfl, -⟩ := sound.step_cases hstack
    · obtain moves | ⟨d, here, -, -, hresume, rfl, -⟩ := sound.moves_or_works hstack
      · exact h.idle sound orderly allotted hstack idle idles.silent moves calm
      · exact absurd ⟨hresume, d, here, rfl⟩ idle
    · exact h.drive sound orderly allotted owned hstack hresume

/-- At every moment the early polls that have begun are remembered, unless the last of them is
still under way; then no other code runs until it has come back. -/
theorem remembers_or_engrossed
    (owned : ∀ n, c < (moment watched script n).world.completions.size →
      (moment watched script n).Owned c ctx) (n : Nat) :
    Remembers c (earlyPolls watched script c n) (moment watched script n) ∨
      ∃ top n₀ j, n₀ < n ∧ n < j ∧ Engrossed watched script c top n₀ j ∧
        Remembers c (earlyPolls watched script c n) (moment watched script j) := by
  induction n with
  | zero =>
    have nothing : ∀ {x}, ¬ (moment watched script 0).Mentions c x := by
      rintro x (⟨hentry, -⟩ | ⟨hframe, about⟩ | hx)
      · cases hentry
      · obtain rfl := List.mem_singleton.1 hframe
        exact about
      · cases hx
    refine .inl ⟨fun hp => ?_, fun hx => absurd hx nothing, fun hx => absurd hx nothing, rfl,
      nofun, nofun⟩
    cases List.mem_singleton.1 hp
  | succ n ih =>
    -- Whoever is under way goes on or has come back.
    have later : ∀ {top n₀ j}, n₀ ≤ n → n + 1 ≤ j → Engrossed watched script c top n₀ j →
        Remembers c (earlyPolls watched script c (n + 1)) (moment watched script j) →
        Remembers c (earlyPolls watched script c (n + 1)) (moment watched script (n + 1)) ∨
          ∃ top n₀ j, n₀ < n + 1 ∧ n + 1 < j ∧ Engrossed watched script c top n₀ j ∧
            Remembers c (earlyPolls watched script c (n + 1)) (moment watched script j) := by
      intro top n₀ j hn₀ hj engrossed remembers
      obtain sooner | rfl := Nat.lt_or_eq_of_le hj
      · exact .inr ⟨top, n₀, j, Nat.lt_succ_of_le hn₀, sooner, engrossed, remembers⟩
      · exact .inl remembers
    obtain remembers | ⟨top, n₀, j, hn₀, hnj, engrossed, remembers⟩ := ih
    · by_cases calm : ∀ {x i base}, Polls c x i base (moment watched script n) →
          (moment watched script n).world.settlement c ≠ none
      · rw [earlyPolls_succ_of_calm calm]
        exact .inl (remembers.next (owned n) calm)
      · simp only [Classical.not_forall, Classical.not_not] at calm
        obtain ⟨x, i, base, polls, unsettled⟩ := calm
        obtain ⟨handle, ctx', j, -, hnj, engrossed, answer⟩ := polls.course unsettled
        refine later (Nat.le_refl n) hnj engrossed ?_
        rw [earlyPolls_succ_of_polls polls unsettled]
        exact remembers.polled (moment_orderly watched script n) (moment_allotted watched script n)
          polls unsettled (by rw [answer]; rfl) (by rw [answer]; rfl)
    · refine later (Nat.le_of_lt hn₀) hnj engrossed ?_
      rwa [earlyPolls_succ_of_calm fun polls => absurd polls (engrossed.calm hn₀ hnj)]

/-- The early polls are remembered at every moment at which none of them is under way. -/
theorem moment_remembers
    (owned : ∀ n, c < (moment watched script n).world.completions.size →
      (moment watched script n).Owned c ctx)
    (idle : (moment watched script n).world.settlement c ≠ none ∨
      ∀ here below, (moment watched script n).stack ≠ .driving c here :: below) :
    Remembers c (earlyPolls watched script c n) (moment watched script n) := by
  obtain remembers | ⟨top, n₀, j, hn₀, hnj, engrossed, -⟩ := remembers_or_engrossed owned n
  · exact remembers
  · obtain ⟨⟨here, hstack⟩, unsettled⟩ := engrossed n hn₀ hnj
    obtain settled | apart := idle
    · exact absurd unsettled settled
    · exact absurd hstack (apart here top)

end Runs

end Machine

end Eventual
