import Eventual.Proofs.Machine.Lives

/-!
# Everyone sees the one outcome

What a completion has settled on is on record, once. Everything that tells it comes to the
same: what a callback is given, whether by the drain of the commit or by that of a late
registration; what reads and flags answer; and what a poll answers, at the first look or at
the second. For an outcome is on record exactly when a reader finds it, since no other code
runs while a commit is between its claim and its publication.

A read answers with the step that begins it. A poll goes on for a while, and `Polling`
follows it to its answer, whatever runs above it in the meantime.
-/

namespace Eventual

/-- What a completion has settled on, as far as it is on record. -/
def World.settlement (w : World) (c : CompletionId) : Option (Outcome Value) :=
  ((w.story (.completion c)).flatMap Event.settles).head?

/-- What a read is told when the completion has settled so. -/
def Reading.tells (o : Option (Outcome Value)) : Reading → Control
  | .state => .answer (.state (o.elim .pending fun o => .settled o.side))
  | .flags =>
    .answer (.flags (o.any fun o => o.side = .success) (o.any fun o => o.side = .failure)
      o.isSome)
  | .result => .answer (.outcome (o.map (Outcome.map Value.data)))
  | .demand s =>
    match o with
    | some o =>
      if o.side = s then .answer (.datum o.value.data) else .unwind (.refused s (.settled o.side))
    | none => .unwind (.refused s .pending)

/-- What a poll answers when the completion has settled so. -/
def Reply.polled : Option (Outcome Value) → Reply
  | some o => .ready (o.map Value.data)
  | none => .pending

/-- What a wait answers when the completion has settled so. -/
def Reply.awaited : Option (Outcome Value) → Reply
  | some o => .ready (o.map Value.data)
  | none => .wouldBlock

theorem Start.read_holding (w : World) (o : Option (Outcome Value)) (r : Reading) :
    (Start.read w (.holding o) r).control = r.tells o := by
  cases o with
  | none => cases r <;> rfl
  | some o =>
    obtain ⟨side, value⟩ := o
    cases r with
    | demand s =>
      have demand : (Cell.holding (some ⟨side, value⟩)).demand s
          = if side = s then .ok value else .error (.settled side) := by
        rw [Cell.demand, Cell.result_holding]
        rfl
      by_cases hs : side = s
      · subst hs
        simp [Start.read, demand, Reading.tells, Start.reply]
      · simp [Start.read, demand, Reading.tells, hs, Start.panic]
    | state | result => rfl
    | flags => cases side <;> rfl

namespace Machine

open World

variable {m : Machine} {c : CompletionId} {base below : List Frame}

/-! ## The settlement -/

theorem Orderly.settles_eq (h : m.Orderly) (c : CompletionId) :
    (m.world.story (.completion c)).flatMap Event.settles = (m.world.settlement c).toList := by
  have life := h.lives (show (Entity.completion c).Settles from trivial)
  have single : ∃ o : Option (Outcome Value),
      (m.world.story (.completion c)).flatMap Event.settles = o.toList := by
    cases hp : m.world.place (.completion c) with
    | none =>
      have silent : m.world.story (.completion c) = [] := life.unborn hp
      exact ⟨none, by rw [silent]; rfl⟩
    | some x =>
      cases x with
      | some x => exact ⟨_, (life.living x hp).settled⟩
      | none =>
        obtain ⟨before, values, items, story, settlement⟩ := life.dead hp
        have story : m.world.story (.completion c)
            = before ++ [.buried (.completion c) values items] := story
        obtain ⟨o, ho⟩ := settlement.winner
        exact ⟨o, by simpa [story, Event.settles] using ho⟩
  obtain ⟨o, ho⟩ := single
  rw [World.settlement, ho]
  cases o <;> rfl

/-- What a reader of a living completion finds is what it has settled on. -/
theorem Orderly.result_eq (h : m.Orderly) (lives : m.world.Lives (.completion c)) :
    (m.world.completion c).cell.result = m.world.settlement c := by
  have ledger := (h.lives (show (Entity.completion c).Settles from trivial)).living _
    lives.place_completion
  have settled : (m.world.story (.completion c)).flatMap Event.settles
      = (m.world.completion c).cell.result.toList := ledger.settled
  rw [World.settlement, settled]
  cases (m.world.completion c).cell.result <;> rfl

theorem Orderly.result_of_place (h : m.Orderly) {x : Completion Value Item}
    (hx : m.world.place (.completion c) = some (some x)) :
    x.cell.result = m.world.settlement c := by
  have living := Lives.place_completion ⟨x, hx⟩
  obtain rfl : m.world.completion c = x := Option.some.inj (Option.some.inj (living.symm.trans hx))
  exact h.result_eq ⟨_, hx⟩

/-- While no call goes on with it, a living completion holds what it has settled on. -/
theorem Orderly.cell_eq (h : m.Orderly) (idle : m.active (.completion c) = none)
    (lives : m.world.Lives (.completion c)) :
    (m.world.completion c).cell = .holding (m.world.settlement c) := by
  have life := h.lives (show (Entity.completion c).Settles from trivial)
  have ledger := life.living _ lives.place_completion
  rw [show (m.life (.completion c)).active = none from idle] at ledger
  rw [← h.result_eq lives]
  exact ledger.cell_eq

/-- What settled the completion is on record. -/
theorem Orderly.settlement_of_settled (h : m.Orderly) {o : Outcome Value}
    (settled : .settled (.completion c) o ∈ m.world.history) : m.world.settlement c = some o := by
  have told : o ∈ (m.world.story (.completion c)).flatMap Event.settles :=
    List.mem_flatMap.2 ⟨_, List.mem_filter.2 ⟨settled, decide_eq_true rfl⟩,
      List.mem_singleton_self o⟩
  rw [h.settles_eq] at told
  exact Option.mem_toList.1 told

/-- Nothing is on record without its warrant. -/
theorem Orderly.warranted (h : m.Orderly) {before after : List Event} {ev : Event} {e : Entity}
    (split : m.world.history = before ++ ev :: after) (about : ev.subject? = some e)
    (settles : e.Settles) : ev.Warranted before := by
  have story : m.world.story e
      = before.filter (fun ev => ev.subject? = some e)
        ++ ev :: after.filter fun ev => ev.subject? = some e := by
    rw [World.story, split, List.filter_append, List.filter_cons, if_pos (decide_eq_true about)]
  have warranted := (h.lives settles).warranted _ _ _ story
  exact warranted.mono fun ev' hev' => (List.mem_filter.1 hev').1

/-- What settled the completion was offered to it. -/
theorem Orderly.offered_of_settlement (h : m.Orderly) {o : Outcome Value}
    (settled : m.world.settlement c = some o) :
    .offered (.completion c) o ∈ m.world.history := by
  have told : o ∈ (m.world.story (.completion c)).flatMap Event.settles := by
    rw [h.settles_eq, settled]
    exact List.mem_singleton_self o
  have about := (h.lives (show (Entity.completion c).Settles from trivial)).about
  have recorded := (List.mem_filter.1 (mem_of_settles about told)).1
  obtain ⟨before, after, split⟩ := List.append_of_mem recorded
  have offered : .offered (.completion c) o ∈ before := h.warranted split rfl trivial
  rw [split]
  exact List.mem_append_left _ offered

theorem settlement_congr {w w' : World}
    (h : (w'.story (.completion c)).flatMap Event.settles
      = (w.story (.completion c)).flatMap Event.settles) : w'.settlement c = w.settlement c := by
  rw [World.settlement, World.settlement, h]

/-- What does not settle anything changes no settlement. -/
theorem settlement_record (w : World) {ev : Event} (h : ev.settles = []) (c : CompletionId) :
    (w.record ev).settlement c = w.settlement c := by
  apply settlement_congr
  rw [story_record, List.flatMap_append]
  split <;> simp [h]

theorem settlement_release (w : World) (held : List Ref) (r : Ref) (c : CompletionId) :
    (w.release held r).settlement c = w.settlement c := by
  unfold World.release
  split
  next => rfl
  next e _ =>
    split
    next => rfl
    next =>
      refine (settlement_record (w.vacate e) rfl c).trans (settlement_congr ?_)
      rw [story_congr (by cases e <;> rfl)]

/-- A settlement is for good. -/
theorem Orderly.settlement_step (h : m.Orderly) (sound : m.Sound) {o : Outcome Value}
    (settled : m.world.settlement c = some o) : m.step.world.settlement c = some o := by
  have settles := h.settles_eq c
  have settles' := (h.step sound).settles_eq c
  rw [settled] at settles
  -- The one settlement that is on record stays at the head of the record.
  have grown : m.world.story (.completion c) <+: m.step.world.story (.completion c) :=
    (h.history_step sound).filter _
  obtain ⟨later, hlater⟩ := grown
  rw [← hlater, List.flatMap_append, settles] at settles'
  cases hs : m.step.world.settlement c with
  | none =>
    rw [hs] at settles'
    cases settles'
  | some o' =>
    rw [hs] at settles'
    exact congrArg some (List.cons.inj settles').1.symm

/-! ## Reads -/

/-- A step of a script begins above the frames. -/
inductive Begins (act : Act) (m : Machine) : List Frame → Prop
  | session {watched : List String} {label : String} {rest : Script} {below : List Frame} :
      m.stack = .session watched (.mk label act :: rest) :: below → m.control = .resume →
      Begins act m (.session watched rest :: below)
  | body {label label' : String} {rest : Script} {below : List Frame} :
      m.stack = .body label' (.mk label act :: rest) :: below → m.control = .resume →
      Begins act m (.body label rest :: below)

theorem Begins.step {act : Act} (h : Begins act m base) : m.step = enter m.world base act := by
  obtain ⟨w, stack, control⟩ := m
  cases h with
  | session hstack hresume | body hstack hresume =>
    dsimp only at hstack hresume
    rw [hstack, hresume]
    rfl

theorem Begins.active {act : Act} (h : Begins act m base) (e : Entity) : m.active e = none := by
  cases h with
  | session hstack _ | body hstack _ => simp [active, hstack]

/-- The steps that ask at once what a completion has settled on, and what they are told: the
reads of the completion, and the flags and the wait of a promise. -/
inductive Asks (w : World) (c : CompletionId) :
    Act → (Option (Outcome Value) → Control) → Prop
  | read {handle : String} {r : Reading} : w.lookup handle = some (.completion c) →
      Asks w c (.onCompletion handle (.read r)) fun o => r.tells o
  | flags {handle : String} {ctx : Context} {watch : WatchId} :
      w.lookup handle = some (.promise c ctx watch) →
      Asks w c (.onPromise handle .flags) Reading.flags.tells
  | await {handle : String} {ctx : Context} {watch : WatchId} :
      w.lookup handle = some (.promise c ctx watch) →
      Asks w c (.onPromise handle .blockOn) fun o => .answer (.awaited o)

/-- Who asks is told what the completion has settled on. -/
theorem Orderly.asks (h : m.Orderly) {act : Act} {tells : Option (Outcome Value) → Control}
    (begins : Begins act m base) (asks : Asks m.world c act tells) :
    m.step.control = tells (m.world.settlement c) := by
  rw [begins.step]
  cases asks with
  | read refers =>
    have lives := h.rooted.lookup refers (.completion c) rfl trivial
    simp only [enter, begin, refers, beginCompletion]
    rw [h.cell_eq (begins.active _) lives, Start.read_holding]
  | flags refers =>
    have lives := h.rooted.lookup refers (.completion c) rfl trivial
    simp only [enter, begin, refers, beginPromise]
    rw [h.cell_eq (begins.active _) lives, Start.read_holding]
  | await refers =>
    have lives := h.rooted.lookup refers (.completion c) rfl trivial
    simp only [enter, begin, refers, beginPromise]
    rw [h.result_eq lives]
    cases m.world.settlement c <;> rfl

/-! ## Polls -/

section Polls

variable {r : Ref} {poll : Site.Poll Item WakerId}

/-- A poll is under way above the frames: it stands on the stack, perhaps below code that it
called; or it has answered or unwound, and holds on to its promise for one step more. -/
inductive Polling (c : CompletionId) (r : Ref) (poll : Site.Poll Item WakerId)
    (base : List Frame) (m : Machine) : Prop
  | stands {above : List Frame} {here : Site.Point Value Item WakerId} :
      m.stack = above ++ .driving c here :: .holding r :: base → here.Serves (.poll poll) →
      Polling c r poll base m
  | answers : m.stack = .holding r :: base →
      m.control = .answer (.polled (m.world.settlement c)) → Polling c r poll base m
  | unwinds {p : Panic} : m.stack = .holding r :: base → m.control = .unwind p →
      Polling c r poll base m

/-- A poll has come back: it has answered what the completion has settled on, or it has
unwound. -/
def Polled (c : CompletionId) (base : List Frame) (m : Machine) : Prop :=
  m.stack = base ∧
    (m.control = .answer (.polled (m.world.settlement c)) ∨ ∃ p, m.control = .unwind p)

theorem Polling.higher (h : Polling c r poll base m) : base.length < m.stack.length := by
  cases h with
  | stands hstack =>
    simp only [hstack, List.length_append, List.length_cons]
    omega
  | answers hstack | unwinds hstack => simp [hstack]

/-- A poll that answers has read what it answers. -/
theorem deliver_polled (w : World) (below : List Frame) (o : Option (Outcome Value)) :
    (deliver w below c (.polled o)).stack = below ∧
      (deliver w below c (.polled o)).control = .answer (.polled o) ∧
      (deliver w below c (.polled o)).world.settlement c = w.settlement c := by
  cases o with
  | none => exact ⟨rfl, rfl, rfl⟩
  | some o => exact ⟨rfl, rfl, settlement_record w rfl c⟩

/-- A poll that is told to go on makes its next step. -/
theorem Polling.drive (orderly : m.Orderly) (sound : m.Sound)
    {here : Site.Point Value Item WakerId}
    (hstack : m.stack = .driving c here :: .holding r :: base) (serves : here.Serves (.poll poll)) :
    Polling c r poll base (drive m.world (.holding r :: base) c here) := by
  obtain ⟨alive, -⟩ := sound.of_driving (hstack ▸ List.mem_cons_self ..)
  have does := Site.step_does (m.world.site c) here
  rcases h : (m.world.site c).step here with ⟨s, action⟩
  rw [h] at does
  unfold Machine.drive
  simp only [h]
  cases action with
  | goto p => exact @Polling.stands _ _ _ _ _ [] p rfl (does.serves serves rfl)
  | notice n p => exact @Polling.stands _ _ _ _ _ [] p rfl (does.serves serves rfl)
  | call k x arg p =>
    have alive' : ((m.world.setSite c s).record (.started c k x arg)).Alive c :=
      alive.setCompletion s.completion
    obtain ⟨-, frames, stack, -, -⟩ := call_begins alive' (.driving c p :: .holding r :: base) x
    exact .stands stack (does.serves serves rfl)
  | done answer =>
    obtain ⟨-, rfl⟩ := does.of_poll serves
    obtain ⟨stack, control, settlement⟩ :=
      @deliver_polled c (m.world.setSite c s) (.holding r :: base)
        (m.world.site c).completion.cell.result
    refine .answers stack ?_
    have found : (m.world.site c).completion.cell.result = m.world.settlement c :=
      orderly.result_eq alive
    rw [control, settlement, found]
    rfl
  | refused side st => exact .unwinds rfl rfl

/-- A poll stays under way until it comes back. -/
theorem Polling.step (h : Polling c r poll base m) (orderly : m.Orderly) (sound : m.Sound) :
    Polling c r poll base m.step ∨ Polled c base m.step := by
  cases h with
  | @stands above here hstack serves =>
    cases above with
    | cons frame above =>
      -- The code above goes on, or comes back.
      have code : Above (.driving c here :: .holding r :: base) m := ⟨frame, above, hstack⟩
      obtain ⟨frame', above', hstack'⟩ | back := sound.above_step code
      · exact .inl (@Polling.stands _ _ _ _ _ (frame' :: above') here hstack' serves)
      · exact .inl (@Polling.stands _ _ _ _ _ [] here back.stack serves)
    | nil =>
      obtain ⟨w, stack, control⟩ := m
      obtain rfl : stack = .driving c here :: .holding r :: base := hstack
      cases control with
      | resume => exact .inl (Polling.drive orderly sound rfl serves)
      | answer r => exact .inl (@Polling.stands _ _ _ _ _ [] here rfl serves)
      | faulty f => exact .inl (@Polling.stands _ _ _ _ _ [] here rfl serves)
      | unwind p => exact .inl (.unwinds rfl rfl)
  | answers hstack hanswer =>
    obtain ⟨w, stack, control⟩ := m
    obtain rfl : stack = .holding r :: base := hstack
    obtain rfl : control = .answer (.polled (w.settlement c)) := hanswer
    refine .inr ⟨rfl, .inl ?_⟩
    rw [show (Machine.step _).world = w.release (heldBy base) r from rfl, settlement_release]
    rfl
  | @unwinds p hstack hunwind =>
    obtain ⟨w, stack, control⟩ := m
    obtain rfl : stack = .holding r :: base := hstack
    obtain rfl : control = .unwind p := hunwind
    exact .inr ⟨rfl, .inr ⟨p, rfl⟩⟩

/-- A poll that begins is under way, unless the script is at fault. -/
theorem Begins.polling {handle wakes : String} {ctx : Context} {watch : WatchId}
    (h : Begins (.onPromise handle (.poll wakes)) m base)
    (refers : m.world.lookup handle = some (.promise c ctx watch)) :
    (∃ r poll, Polling c r poll base m.step) ∨
      (m.step.stack = base ∧ ∃ f, m.step.control = .faulty f) := by
  rw [h.step]
  simp only [enter, begin, refers, beginPromise]
  split
  next i _ =>
    split
    next => exact .inr ⟨rfl, .busy, rfl⟩
    next =>
      exact .inl ⟨_, _, @Polling.stands _ _ _ _ _ [] _ rfl (Site.Call.start_serves (.poll _))⟩
  next => exact .inr ⟨rfl, .handle, rfl⟩

end Polls

/-! ## Runs -/

section Runs

variable {watched : List String} {script : Script} {n j : Nat}

/-- A poll that begins and comes back with an answer has answered what the completion has
settled on by then. -/
theorem polled_of_answer {handle wakes : String} {ctx : Context} {watch : WatchId} {answer : Reply}
    (begins : Begins (.onPromise handle (.poll wakes)) (moment watched script n) base)
    (refers : (moment watched script n).world.lookup handle = some (.promise c ctx watch))
    (hnj : n < j)
    (running : ∀ i, n < i → i < j → base.length < (moment watched script i).stack.length)
    (back : (moment watched script j).stack = base)
    (answered : (moment watched script j).control = .answer answer) :
    answer = .polled ((moment watched script j).world.settlement c) := by
  have start := begins.polling refers
  rw [← moment_succ] at start
  obtain ⟨r, poll, start⟩ | ⟨low, f, fault⟩ := start
  · have later : n + 1 < j := by
      refine Nat.lt_of_le_of_ne hnj ?_
      rintro rfl
      have high := start.higher
      rw [back] at high
      exact absurd high (Nat.lt_irrefl _)
    have polled : Polled c base (moment watched script j) := by
      refine ended_of_back ?_ Polling.higher (fun polled => polled.1) start later running back
      intro i still
      rw [moment_succ]
      exact still.step (moment_orderly watched script i) (moment_sound watched script i)
    obtain ⟨-, told | ⟨p, unwound⟩⟩ := polled
    · exact Control.answer.inj (answered.symm.trans told)
    · cases answered.symm.trans unwound
  · -- A fault is no answer, and the stack is as low as the frames at once.
    obtain rfl | later : j = n + 1 ∨ n + 1 < j := by omega
    · cases answered.symm.trans fault
    · have high := running (n + 1) (Nat.lt_succ_self n) later
      rw [low] at high
      exact absurd high (Nat.lt_irrefl _)

/-- A settlement is for good. -/
theorem settlement_lasts {o : Outcome Value}
    (settled : (moment watched script n).world.settlement c = some o) (hnj : n ≤ j) :
    (moment watched script j).world.settlement c = some o := by
  induction hnj with
  | refl => exact settled
  | @step j _ ih =>
    rw [Nat.succ_eq_add_one, moment_succ]
    exact (moment_orderly watched script j).settlement_step (moment_sound watched script j) ih

end Runs

/-- At every moment of every run, for every completion: at most one outcome has settled it,
and that was offered to it. Whatever is called, waker or callback, is called after the
completion was settled, for the side on which it was settled or for either, and with the
value that settled it if its kind is given a value at all; every outcome that was passed on
to a reader is the one that settled it; and a reader of the completion finds that one, now and
for good. So whoever asks at that moment is told so, wherever the step that asks may stand;
and a poll that begins at that moment, and comes back with an answer at a later one, has
answered what the completion has settled on by then. -/
theorem one_outcome (watched : List String) (script : Script) (n : Nat) (c : CompletionId) :
    ((moment watched script n).world.story (.completion c)).flatMap Event.settles
      = ((moment watched script n).world.settlement c).toList ∧
    (∀ o, (moment watched script n).world.settlement c = some o →
      .offered (.completion c) o ∈ (moment watched script n).world.history) ∧
    (∀ before k x arg after,
      (moment watched script n).world.history = before ++ .started c k x arg :: after →
      ∃ o, (moment watched script n).world.settlement c = some o ∧
        .settled (.completion c) o ∈ before ∧ k ≠ .on o.side.other ∧ arg = k.argument o.value) ∧
    (∀ o, .copied c o ∈ (moment watched script n).world.history →
      (moment watched script n).world.settlement c = some o) ∧
    (∀ x, (moment watched script n).world.place (.completion c) = some (some x) →
      x.cell.result = (moment watched script n).world.settlement c) ∧
    (∀ o j, (moment watched script n).world.settlement c = some o → n ≤ j →
      (moment watched script j).world.settlement c = some o) ∧
    (∀ act tells base, Begins act (moment watched script n) base →
      Asks (moment watched script n).world c act tells →
      (moment watched script (n + 1)).control
        = tells ((moment watched script n).world.settlement c)) ∧
    (∀ handle wakes ctx watch base j answer,
      Begins (.onPromise handle (.poll wakes)) (moment watched script n) base →
      (moment watched script n).world.lookup handle = some (.promise c ctx watch) → n < j →
      (∀ i, n < i → i < j → base.length < (moment watched script i).stack.length) →
      (moment watched script j).stack = base →
      (moment watched script j).control = .answer answer →
      answer = .polled ((moment watched script j).world.settlement c)) := by
  have orderly := moment_orderly watched script n
  refine ⟨orderly.settles_eq c, fun o => orderly.offered_of_settlement, ?_, ?_, ?_, ?_, ?_, ?_⟩
  · intro before k x arg after split
    obtain ⟨o, settled, concerns, given⟩ := orderly.warranted split rfl trivial
    refine ⟨o, orderly.settlement_of_settled ?_, settled, concerns, given⟩
    rw [split]
    exact List.mem_append_left _ settled
  · intro o copied
    obtain ⟨before, after, split⟩ := List.append_of_mem copied
    have settled : .settled (.completion c) o ∈ before := orderly.warranted split rfl trivial
    apply orderly.settlement_of_settled
    rw [split]
    exact List.mem_append_left _ settled
  · intro x hx
    have living := Lives.place_completion ⟨x, hx⟩
    obtain rfl : (moment watched script n).world.completion c = x :=
      Option.some.inj (Option.some.inj (living.symm.trans hx))
    exact orderly.result_eq ⟨_, hx⟩
  · exact fun o j => settlement_lasts
  · intro act tells base begins asks
    rw [moment_succ]
    exact orderly.asks begins asks
  · intro handle wakes ctx watch base j answer begins refers hnj running back answered
    exact polled_of_answer begins refers hnj running back answered

/-- A deferred is settled between two polls of its promise. A callback tries to settle it the
other way, and looks at the flags. -/
def losingSettleScript : Script :=
  [.mk "" (.create "d" (.pair "p")),
    .mk "" (.create "w" (.waker [])),
    .mk "" (.onPromise "p" (.register (.on .success) (.mk "reads"
      [.mk "" (.onDeferred "d" (.settle ⟨.failure, { data := .int 2 }⟩)),
        .mk "" (.onPromise "p" .flags)]))),
    .mk "" (.onPromise "p" (.poll "w")),
    .mk "" (.onDeferred "d" (.settle ⟨.success, { data := .int 1 }⟩)),
    .mk "" (.onPromise "p" (.poll "w"))]

/-- The callback has lost when it asks for the flags, at moment 36, and is told what the poll
that begins at moment 48 is told as well; the poll that began at moment 9 was told of
nothing. -/
theorem one_outcome_losing_settle :
    .lost (.completion 0) ⟨.failure, { data := .int 2 }⟩
      ∈ (moment [] losingSettleScript 36).world.history ∧
    (moment [] losingSettleScript 36).world.settlement 0 = some ⟨.success, { data := .int 1 }⟩ ∧
    (moment [] losingSettleScript 37).control = .answer (.flags true false true) ∧
    (moment [] losingSettleScript 51).control = .answer (.ready ⟨.success, .int 1⟩) ∧
    (moment [] losingSettleScript 17).world.settlement 0 = none ∧
    (moment [] losingSettleScript 17).control = .answer .pending := by
  have lost : .lost (.completion 0) ⟨.failure, { data := .int 2 }⟩
      ∈ (moment [] losingSettleScript 36).world.history :=
    List.mem_reverse.2 (List.mem_of_getElem? (show _[2]? = _ from rfl))
  have settled : (moment [] losingSettleScript 36).world.settlement 0
      = some ⟨.success, { data := .int 1 }⟩ := rfl
  have unsettled : (moment [] losingSettleScript 17).world.settlement 0 = none := rfl
  obtain ⟨-, -, -, -, -, lasts, asks, -⟩ := one_outcome [] losingSettleScript 36 0
  obtain ⟨-, -, -, -, -, -, -, first⟩ := one_outcome [] losingSettleScript 9 0
  obtain ⟨-, -, -, -, -, -, -, second⟩ := one_outcome [] losingSettleScript 48 0
  have flags : (moment [] losingSettleScript 37).control
      = Reading.flags.tells ((moment [] losingSettleScript 36).world.settlement 0) :=
    asks _ _ _ (.body rfl rfl) (@Asks.flags _ _ "p" _ _ rfl)
  refine ⟨lost, settled, ?_, ?_, unsettled, ?_⟩
  · rw [flags, settled]
    rfl
  · have high : ∀ i, i < 51 → 48 < i → 1 < (moment [] losingSettleScript i).stack.length := by
      decide +kernel
    obtain ⟨answer, answered⟩ :
        ∃ answer, (moment [] losingSettleScript 51).control = .answer answer := ⟨_, rfl⟩
    have told := second "p" "w" {} 0 _ 51 _ (.session rfl rfl) rfl (by decide)
      (fun i hi hj => high i hj hi) rfl answered
    rw [answered, told, lasts _ 51 settled (by decide)]
    rfl
  · have high : ∀ i, i < 17 → 9 < i → 1 < (moment [] losingSettleScript i).stack.length := by
      decide +kernel
    obtain ⟨answer, answered⟩ :
        ∃ answer, (moment [] losingSettleScript 17).control = .answer answer := ⟨_, rfl⟩
    have told := first "p" "w" {} 0 _ 17 _ (.session rfl rfl) rfl (by decide)
      (fun i hi hj => high i hj hi) rfl answered
    rw [answered, told, unsettled]
    rfl

end Machine

end Eventual
