import Eventual.Proofs.Machine.WakersFirst

/-!
# A drain that returns leaves nothing behind

A call that drains a settled completion goes its course: it stands on top of the stack and
makes one step after another, or waits in the middle of its drain while an item runs above
it. Whatever that item does, in the end the call goes on where it stood, or it unwinds.
`UnderWay` follows it, and when it reports that everything is done it has passed every
queue that the outcome concerns. `Tidy` says that nothing waits there: it is the topmost
call and is about to call nothing.

Since nothing waits, everything that was registered of those kinds was called; and every
call that began in the meantime began above this one, so it has come back.
-/

namespace Eventual

/-- A take from an empty queue finds nothing and leaves the queue alone. -/
theorem Queue.take?_of_toList_nil {α : Type} {q : Queue α} (h : q.AtRest) (empty : q.toList = []) :
    q.take? = (q, none) := by
  apply Queue.take?_of_linked_nil h
  cases hl : q.linked with
  | nil => rfl
  | cons i l =>
    -- A node that is linked has a payload.
    have hi : i ∈ q.linked := by simp [hl]
    have node := Array.getElem?_eq_getElem (h.linked_lt hi).2
    have first : q.payload? i = none := by
      have first := Queue.take?_snd h
      rwa [Queue.take?_of_linked_cons h hl, empty] at first
    have full := h.linked_node i hi _ node
    simp only [Queue.payload?, node, Option.bind_some] at first
    simp [first] at full

namespace Completion

variable {α ι : Type}

/-- A call that drains once the cell is settled on the side: a registration of a kind that
the outcome concerns, and a drain of that side. -/
def Point.Opens (s : Side) : Point α ι → Prop
  | .append k _ => k ≠ .on s.other
  | .check s' _ => s' = s
  | _ => False

section Empty

variable {c : Completion α ι} {s : Side} {answer : Answer α} {v : α} {stage stage' : Stage}
  {n : Nat}

theorem take?_of_empty (h : c.AtRest) {k : Kind} (empty : c.waiting k = []) :
    (c.queue k).take? = (c.queue k, none) ∧ c.setQueue k (c.queue k) = c :=
  ⟨Queue.take?_of_toList_nil (h k) empty, by rcases k with (_ | _) | _ | _ <;> rfl⟩

/-- A drain that finds a queue empty goes on to the next one. -/
theorem step_leave (h : c.AtRest) (empty : c.waiting (stage.kind s) = [])
    (hnext : stage.next? = some stage') :
    c.step (.sweep s answer v stage n) = (c, .goto (.sweep s answer v stage' n)) := by
  obtain ⟨nothing, same⟩ := take?_of_empty h empty
  simp only [step, nothing, same, hnext]

/-- A drain that finds the last queue empty reports. -/
theorem step_close (h : c.AtRest) (empty : c.waiting (stage.kind s) = [])
    (hnext : stage.next? = none) :
    c.step (.sweep s answer v stage n) = (c, .goto (.report s answer n)) := by
  obtain ⟨nothing, same⟩ := take?_of_empty h empty
  simp only [step, nothing, same, hnext]

end Empty

theorem Point.Opens.course {s : Side} {p : Point α ι} (h : p.Opens s) : p.Course s := by
  cases p with
  | append k x => exact h
  | check s' a => exact h
  | _ => exact h.elim

end Completion

namespace Machine

open World
open Completion (Answer)

/-! ## Following a call that drains -/

section Calls

variable {m : Machine} {c : CompletionId} {s : Side} {below : List Frame}

/-- Nothing waits for the completion that its outcome concerns. -/
def Drained (w : World) (c : CompletionId) (s : Side) : Prop :=
  (w.completion c).cell.state = .settled s ∧ ∀ k, k ≠ .on s.other → (w.completion c).waiting k = []

/-- A call that drains a settled completion is under way above the frames: it is about to
make its next step, waits in the middle of its drain, or is about to answer. -/
inductive UnderWay (c : CompletionId) (s : Side) (below : List Frame) (m : Machine) : Prop
  | acts {here : Completion.Point Value Item} : m.stack = .driving c (.direct here) :: below →
      m.control = .resume → (m.world.completion c).cell.state = .settled s → here.Course s →
      UnderWay c s below m
  | waits {above here} : m.stack = above ++ .driving c (.direct here) :: below →
      here.Course s → here.Sweeps → UnderWay c s below m
  | ends {answer} : m.stack = .driving c (.direct (.finish answer)) :: below →
      m.control = .resume → Drained m.world c s → UnderWay c s below m

/-- A call that drains has come back: it has answered and left nothing behind, or it has
unwound. -/
def Ended (c : CompletionId) (s : Side) (below : List Frame) (m : Machine) : Prop :=
  m.stack = below ∧
    ((∃ r, m.control = .answer r ∧ Drained m.world c s) ∨ ∃ p, m.control = .unwind p)

theorem settled_of_sweeps {here : Completion.Point Value Item} {cell : Cell Value}
    (course : here.Course s) (sweeps : here.Sweeps)
    (fits : (Site.Point.direct here : Site.Point Value Item WakerId).Fits cell) :
    cell.state = .settled s := by
  have fits := fits here rfl
  cases here with
  | sweep s' a v stage n =>
    obtain rfl : s' = s := course
    exact fits.1
  | _ => exact sweeps.elim

/-- A call that is told to go on makes its next step. -/
theorem UnderWay.drive (sound : m.Sound) (tidy : m.Tidy) {here : Completion.Point Value Item}
    (hstack : m.stack = .driving c (.direct here) :: below) (hresume : m.control = .resume)
    (settled : (m.world.completion c).cell.state = .settled s) (course : here.Course s) :
    UnderWay c s below m.step := by
  rcases sound.step_cases hstack with ⟨-, idle⟩ | ⟨_, _, site, action, -, hframe, drives⟩
  · exact absurd ⟨hresume, c, _, rfl⟩ idle
  · cases hframe
    obtain ⟨alive, fits⟩ := sound.of_driving (hstack ▸ List.mem_cons_self ..)
    have settled' : (m.step.world.completion c).cell.state = .settled s := by
      rw [drives.this, drives.does.cell_eq fits settled]
      exact settled
    have does := drives.does
    have leads := drives.leads
    have this := drives.this
    clear drives
    generalize m.step = m' at leads this settled'
    cases does with
    | @direct _ completion a inner =>
      have exact := sound.world.exact alive.getElem?
      rcases inner.course exact.cell settled course with
        ⟨p', hnext, course'⟩ | ⟨answer, n, n', rfl, rfl, rfl⟩
      · obtain ⟨w', stack', control'⟩ := m'
        dsimp only at leads settled'
        cases a with
        | goto p =>
          cases hnext
          cases leads with
          | goto => exact .acts rfl rfl settled' course'
        | notice n p =>
          cases hnext
          cases leads with
          | notice => exact .acts rfl rfl settled' course'
        | call k x arg p =>
          cases hnext
          obtain ⟨-, -, -, sweeps⟩ := inner.of_call (fits _ rfl)
          cases leads with
          | call => exact .waits rfl course' sweeps
        | done _ | refused _ _ => cases hnext
      · obtain ⟨w', stack', control'⟩ := m'
        cases leads with
        | notice =>
          refine .ends rfl rfl ⟨settled', ?_⟩
          intro k hk
          rw [show w'.completion c = m.world.completion c from this]
          exact tidy.own hstack ⟨_, rfl, rfl, hk⟩

/-- A call that drains stays under way until it comes back. -/
theorem UnderWay.step (h : UnderWay c s below m) (sound : m.Sound) (tidy : m.Tidy) :
    UnderWay c s below m.step ∨ Ended c s below m.step := by
  cases h with
  | acts hstack hresume settled course =>
    exact .inl (UnderWay.drive sound tidy hstack hresume settled course)
  | @waits above here hstack course sweeps =>
    cases above with
    | cons frame above =>
      -- The code above goes on, or comes back.
      have code : Above (.driving c (.direct here) :: below) m := ⟨frame, above, hstack⟩
      rcases sound.above_step code with ⟨frame', above', hstack'⟩ | back
      · exact .inl (@UnderWay.waits _ _ _ _ (frame' :: above') here hstack' course sweeps)
      · exact .inl (@UnderWay.waits _ _ _ _ [] here back.stack course sweeps)
    | nil =>
      have mem : .driving c (.direct here) ∈ m.stack := by
        rw [hstack]
        exact List.mem_cons_self ..
      have settled := settled_of_sweeps course sweeps (sound.of_driving mem).2
      obtain ⟨w, stack, control⟩ := m
      obtain rfl : stack = .driving c (.direct here) :: below := hstack
      cases control with
      | resume => exact .inl (UnderWay.drive sound tidy rfl rfl settled course)
      | answer r => exact .inl (.acts rfl rfl settled course)
      | faulty f => exact .inl (.acts rfl rfl settled course)
      | unwind p => exact .inr ⟨rfl, .inr ⟨p, rfl⟩⟩
  | @ends answer hstack hresume drained =>
    rcases sound.step_cases hstack with ⟨-, idle⟩ | ⟨_, _, site, action, -, hframe, drives⟩
    · exact absurd ⟨hresume, c, _, rfl⟩ idle
    · cases hframe
      have does := drives.does
      have leads := drives.leads
      have this := drives.this
      clear drives
      generalize m.step = m' at leads this
      cases does with
      | direct inner =>
        cases inner with
        | finish =>
          obtain ⟨w', stack', control'⟩ := m'
          cases leads with
          | done =>
            refine .inr ⟨rfl, .inl ⟨_, rfl, ?_⟩⟩
            unfold Drained
            rw [show w'.completion c = m.world.completion c from this]
            exact drained

end Calls

/-! ## What was registered stays registered -/

section Moments

variable {watched : List String} {script : Script} {n i j : Nat} {c : CompletionId} {s : Side}
  {below : List Frame}

/-- A step registers at most one item more. -/
theorem Sound.registered_step {m : Machine} (h : m.Sound) (c : CompletionId) (k : Kind) :
    m.world.registered c k <+: m.step.world.registered c k := by
  cases hstack : m.stack with
  | nil =>
    have same : m.step = m := step_of_isOver (List.isEmpty_iff.2 hstack)
    exact same.symm ▸ List.prefix_rfl
  | cons frame below =>
    rcases h.step_cases hstack with ⟨idles, -⟩ | ⟨_, _, _, _, -, -, drives⟩
    · exact (idles.silent.registered c k).symm ▸ List.prefix_rfl
    · rw [drives.registered]
      exact List.prefix_append ..

theorem registered_grows (hij : i ≤ j) (c : CompletionId) (k : Kind) :
    (moment watched script i).world.registered c k
      <+: (moment watched script j).world.registered c k := by
  induction hij with
  | refl => exact List.prefix_rfl
  | step _ ih =>
    rw [Nat.succ_eq_add_one, moment_succ]
    exact ih.trans ((moment_sound watched script _).registered_step c k)

/-- The call of an item that begins while the stack is higher than some frames has come
back before it is as low as they are. -/
theorem exists_back_of_called {k : Kind} (hij : i < j)
    (high : below.length < (moment watched script i).stack.length)
    (low : (moment watched script j).stack = below)
    (starts : (moment watched script (i + 1)).world.called c k
      ≠ (moment watched script i).world.called c k) :
    ∃ p rest i', (∃ frames, (moment watched script (i + 1)).stack
        = frames ++ .driving c p :: rest) ∧
      i < i' ∧ i' < j ∧ Back (.driving c p :: rest) (moment watched script i') := by
  have sound := moment_sound watched script i
  rw [moment_succ] at starts ⊢
  obtain ⟨here, rest, s', x, arg, p, hstack, drives⟩ := sound.of_called starts
  obtain ⟨frames, hstack', handed⟩ : ∃ frames,
      (moment watched script i).step.stack = frames ++ .driving c p :: rest ∧
        (frames = [] → (moment watched script i).step.control.Handed) := by
    have leads := drives.leads
    generalize (moment watched script i).step = m at leads
    obtain ⟨w, stack, control⟩ := m
    cases leads with
    | call fresh handed => exact ⟨_, rfl, handed⟩
  have higher : below.length < (Frame.driving c p :: rest).length := by
    simpa [hstack] using high
  have earlier : ∀ {i'}, i' ≤ j → Back (.driving c p :: rest) (moment watched script i') →
      i' < j := by
    intro i' hi' back
    refine Nat.lt_of_le_of_ne hi' ?_
    rintro rfl
    rw [back.stack] at low
    exact absurd higher (by simp [← low])
  refine ⟨p, rest, ?_⟩
  rcases above_or_back hstack' handed with above | back
  · rw [← moment_succ] at above
    obtain ⟨i', hi', hj, back⟩ := exists_back above hij (by rw [low]; exact Nat.le_of_lt higher)
    exact ⟨i', ⟨frames, hstack'⟩, Nat.lt_of_succ_lt hi', earlier hj back, back⟩
  · rw [← moment_succ] at back
    exact ⟨i + 1, ⟨frames, hstack'⟩, Nat.lt_succ_self i, earlier hij back, back⟩

theorem UnderWay.higher {m : Machine} (h : UnderWay c s below m) :
    below.length < m.stack.length := by
  cases h with
  | acts hstack | ends hstack => simp [hstack]
  | waits hstack =>
    rw [hstack, List.length_append, List.length_cons]
    omega

/-- A call that drains and comes back with an answer has left nothing behind. -/
theorem drained_of_answer (start : UnderWay c s below (moment watched script n)) (hnj : n < j)
    (running : ∀ i, n ≤ i → i < j → below.length < (moment watched script i).stack.length)
    (back : (moment watched script j).stack = below)
    (answered : ∃ r, (moment watched script j).control = .answer r) :
    Drained (moment watched script j).world c s := by
  have ended : Ended c s below (moment watched script j) := by
    refine ended_of_back ?_ UnderWay.higher (fun ended => ended.1) start hnj running back
    intro i still
    rw [moment_succ]
    exact still.step (moment_sound watched script i) (moment_tidy watched script i)
  obtain ⟨-, ⟨r, -, drained⟩ | ⟨p, unwound⟩⟩ := ended
  · exact drained
  · obtain ⟨r, hr⟩ := answered
    cases hr.symm.trans unwound

/-- What a call is about to register is registered with its next step. -/
theorem registered_of_resumes {here : Completion.Point Value Item}
    (hstack : (moment watched script n).stack = .driving c (.direct here) :: below)
    (hresume : (moment watched script n).control = .resume) (k : Kind) :
    (moment watched script (n + 1)).world.registered c k
      = (moment watched script n).world.registered c k ++ here.brings k := by
  rw [moment_succ]
  rcases (moment_sound watched script n).step_cases hstack with
    ⟨-, idle⟩ | ⟨_, _, site, action, -, hframe, drives⟩
  · exact absurd ⟨hresume, c, _, rfl⟩ idle
  · cases hframe
    rw [drives.registered, if_pos rfl]
    cases drives.does with
    | direct inner => rw [Action.registered_map, inner.brings]

end Moments

/-! ## A drain that finds nothing -/

section Idle

variable {w : World} {c : CompletionId} {s : Side}

theorem setSite_site (alive : w.Alive c) : w.setSite c (w.site c) = w := by
  have same : w.completions.setIfInBounds c (some (w.completion c)) = w.completions := by
    apply Array.ext_getElem?
    intro j
    rw [Array.getElem?_setIfInBounds]
    split
    next h =>
      subst h
      rw [if_pos alive.lt_size, alive.getElem?]
    next => rfl
  obtain ⟨handles, cells, queues, completions, watches, wakers, trail⟩ := w
  simpa [World.setSite, World.setCompletion, World.site] using same

/-- A step that leaves the completion alone leaves the world alone. -/
theorem drive_goto (alive : w.Alive c) (below : List Frame)
    {here p : Completion.Point Value Item}
    (h : (w.completion c).step here = (w.completion c, .goto p)) :
    drive w below c (.direct here) = goOn w (.driving c (.direct p) :: below) := by
  have step : (w.site c).step (.direct here) = (w.site c, .goto (.direct p)) := by
    simp only [Site.step, World.site, h]
    rfl
  simp only [drive, step, setSite_site alive]

theorem runFor_driving (n : Nat) (w : World) (below : List Frame) (c : CompletionId)
    (here : Site.Point Value Item WakerId) :
    runFor (n + 1) (goOn w (.driving c here :: below)) = runFor n (drive w below c here) := rfl

/-- A drain that finds nothing to call reports so and changes nothing. -/
theorem drain_of_drained (alive : w.Alive c) (exact : w.Exact c (w.completion c))
    (drained : Drained w c s) (below : List Frame) :
    runFor 7 (goOn w (.driving c (.direct (.check s .unit)) :: below))
      = hand (w.record (.logged c (.drained 0 s))) below .unit := by
  obtain ⟨settled, empty⟩ := drained
  obtain ⟨v, -, demand⟩ := exact.cell.demand_eq settled
  have check : (w.completion c).step (.check s .unit)
      = (w.completion c, .goto (.fetch s .unit)) := by
    simp [Completion.step, Cell.isOn, settled]
  have fetch : (w.completion c).step (.fetch s .unit)
      = (w.completion c, .goto (.sweep s .unit v .wakers 0)) := by
    simp [Completion.step, demand]
  have noWaker : (w.completion c).waiting .waker = [] := empty .waker (by simp)
  have noAlways : (w.completion c).waiting .always = [] := empty .always (by simp)
  have wakers : (w.completion c).step (.sweep s .unit v .wakers 0)
      = (w.completion c, .goto (.sweep s .unit v .matching 0)) :=
    Completion.step_leave exact.atRest noWaker rfl
  have matching : (w.completion c).step (.sweep s .unit v .matching 0)
      = (w.completion c, .goto (.sweep s .unit v .always 0)) :=
    Completion.step_leave exact.atRest (empty (.on s) (by simp [(Side.other_ne s).symm])) rfl
  have always : (w.completion c).step (.sweep s .unit v .always 0)
      = (w.completion c, .goto (.report s .unit 0)) :=
    Completion.step_close exact.atRest noAlways rfl
  have report : drive w below c (.direct (.report s .unit 0))
      = goOn (w.record (.logged c (.drained 0 s)))
          (.driving c (.direct (.finish .unit)) :: below) := by
    show goOn ((w.setSite c (w.site c)).record _) _ = _
    rw [setSite_site alive]
  have finish : drive (w.record (.logged c (.drained 0 s))) below c (.direct (.finish .unit))
      = hand (w.record (.logged c (.drained 0 s))) below .unit := by
    have alive' : (w.record (.logged c (.drained 0 s))).Alive c := alive
    show hand (World.setSite _ c (World.site _ c)) below .unit = _
    rw [setSite_site alive']
  rw [runFor_driving, drive_goto alive below check, runFor_driving,
    drive_goto alive below fetch, runFor_driving, drive_goto alive below wakers,
    runFor_driving, drive_goto alive below matching, runFor_driving,
    drive_goto alive below always, runFor_driving, report, runFor_driving, finish]
  rfl

end Idle

/-- A registration of a kind that the outcome concerns, or a drain of the side of the
outcome, begins on a settled completion, and with its last step answers to the frames below
it. By then nothing waits that the outcome concerns; everything that waited when the call
began, and what it registered, was called; and whatever was called on the completion
meanwhile has returned or unwound. A drain that follows at once finds nothing to call and
leaves everything as it is, but for its line in the log. -/
theorem drain_leaves_nothing {watched : List String} {script : Script} {n j : Nat}
    {c : CompletionId} {s : Side} {here : Completion.Point Value Item} {below : List Frame}
    (hstack : (moment watched script n).stack = .driving c (.direct here) :: below)
    (hresume : (moment watched script n).control = .resume) (opens : here.Opens s)
    (settled : ((moment watched script n).world.completion c).cell.state = .settled s)
    (hnj : n ≤ j)
    (running : ∀ i, n ≤ i → i < j → below.length < (moment watched script i).stack.length)
    (back : (moment watched script j).stack = below)
    (answered : ∃ r, (moment watched script j).control = .answer r) :
    (∀ k, k ≠ .on s.other → ((moment watched script j).world.completion c).waiting k = []) ∧
    (∀ k, k ≠ .on s.other →
      (moment watched script n).world.called c k
          ++ ((moment watched script n).world.completion c).waiting k ++ here.brings k
        <+: (moment watched script j).world.called c k) ∧
    (∀ i k, n ≤ i → i < j →
      (moment watched script (i + 1)).world.called c k
        ≠ (moment watched script i).world.called c k →
      ∃ p rest i', (∃ frames, (moment watched script (i + 1)).stack
          = frames ++ .driving c p :: rest) ∧
        i < i' ∧ i' < j ∧ Back (.driving c p :: rest) (moment watched script i')) ∧
    ∀ rest, runFor 7
        (goOn (moment watched script j).world (.driving c (.direct (.check s .unit)) :: rest))
      = hand ((moment watched script j).world.record (.logged c (.drained 0 s))) rest .unit := by
  have sound := moment_sound watched script n
  have sound' := moment_sound watched script j
  have start : UnderWay c s below (moment watched script n) :=
    .acts hstack hresume settled opens.course
  have later : n < j := by
    refine Nat.lt_of_le_of_ne hnj ?_
    rintro rfl
    have higher := start.higher
    rw [back] at higher
    exact absurd higher (Nat.lt_irrefl _)
  have drained := drained_of_answer start later running back answered
  -- The frames below hold the completion, so it is still alive.
  have alive : (moment watched script n).world.Alive c :=
    (sound.of_driving (hstack ▸ List.mem_cons_self ..)).1
  have alive' : (moment watched script j).world.Alive c := by
    have stands := sound.stack
    rw [hstack] at stands
    exact sound'.world.held (back ▸ stands.1.1)
  have exact := sound.world.exact alive.getElem?
  have exact' := sound'.world.exact alive'.getElem?
  refine ⟨drained.2, ?_, ?_, ?_⟩
  · intro k hk
    have registered := @registered_grows watched script _ _ later c k
    rw [registered_of_resumes hstack hresume k, ← exact.order k, ← exact'.order k,
      drained.2 k hk, List.append_nil] at registered
    exact registered
  · intro i k hni hij starts
    exact exists_back_of_called hij (running i hni hij) back starts
  · intro rest
    exact drain_of_drained alive' exact' drained rest

/-- A callback of `refillScript` registers a waker while the drain that called it goes on
above the rest; by the time the registration answers all else has been called, the callback
that panics included. -/
theorem drain_leaves_nothing_refill :
    (moment [] refillScript 30).stack = .driving 0 (.direct (.append .waker (.waker 0)))
      :: (moment [] refillScript 78).stack ∧
    (∀ k, k ≠ .on .failure →
      ((moment [] refillScript 78).world.completion 0).waiting k = []) ∧
    ((moment [] refillScript 78).world.called 0 .always).length = 2 ∧
    (moment [] refillScript 48).world.called 0 (.on .success)
      ≠ (moment [] refillScript 47).world.called 0 (.on .success) ∧
    ∃ p rest i', 47 < i' ∧ i' < 78 ∧
      Back (.driving 0 p :: rest) (moment [] refillScript i') := by
  have opened : (moment [] refillScript 30).stack
      = .driving 0 (.direct (.append .waker (.waker 0))) :: (moment [] refillScript 78).stack := rfl
  have settled : ((moment [] refillScript 30).world.completion 0).cell.state
      = .settled .success := by decide +kernel
  have running : ∀ i, i < 78 → 30 ≤ i → (moment [] refillScript 78).stack.length
      < (moment [] refillScript i).stack.length := by decide +kernel
  have starts : (moment [] refillScript 48).world.called 0 (.on .success)
      ≠ (moment [] refillScript 47).world.called 0 (.on .success) :=
    fun same => absurd (congrArg List.length same) (by decide +kernel)
  obtain ⟨nothing, -, ended, -⟩ := drain_leaves_nothing (s := .success) opened rfl nofun settled
    (by decide) (fun i hi hj => running i hj hi) rfl ⟨.unit, rfl⟩
  obtain ⟨p, rest, i', -, hi', hj, back⟩ := ended 47 _ (by decide) (by decide) starts
  exact ⟨opened, nothing, by decide +kernel, starts, p, rest, i', hi', hj, back⟩

end Machine

end Eventual
