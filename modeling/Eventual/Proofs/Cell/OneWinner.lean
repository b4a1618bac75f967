import Eventual.Proofs.Cell.Steps
import Eventual.Proofs.Interleaving.Ends

/-!
# One commit wins

Any number of threads commit to one cell and read it, and their accesses interleave in
any order. The exchange of pending for committing lets one commit through, and that one
goes on to store its outcome and to publish the side: `claimants_length` counts the
commits that have claimed the cell or won it, and there is one of them as soon as the
cell is not pending. So at most one commit wins, and one does if any is made.

A settled state is published after the outcome is stored, and nothing changes either
afterwards. So nobody sees an outcome half written, and whoever has seen the cell
settled reads the outcome of the winner from then on, which is `Informed`.
-/

namespace Eventual.Cell

variable {α : Type}

/-! ## What every thread may rely on -/

/-- What is known of an answer: a commit is answered when the cell is taken, and an
answer that shows a settled cell shows the one that is there. -/
structure Answered (c : Cell α) (call : Call α) (a : Answer α) : Prop where
  committed : ∀ o, call = .commit o → c.state ≠ .pending
  shown : ∀ o, call.Shows o a → ∃ o', c.SettledWith o' ∧ call.Shows o' a

section Effects

variable {c c' : Cell α} {p : Point α} {n : Next (Point α) (Answer α)} {call : Call α}

theorem Does.answered {a : Answer α} (does : Does c p c' (.done a)) (fits : p.Fits c)
    (h : c.Sound) : Answered c' p.call a := by
  refine ⟨?_, fun o shows => does.shows fits h shows⟩
  intro o ho
  cases does with
  | lookLate taken | claimLate taken => exact taken
  | publish => exact nofun
  | _ => cases ho

theorem Answered.spared {a : Answer α} (h : Answered c call a) (does : Does c p c' n)
    (fits : p.Fits c) : Answered c' call a := by
  refine ⟨fun o ho => does.not_pending (h.committed o ho), ?_⟩
  intro o shows
  obtain ⟨o', settled, shown⟩ := h.shown o shows
  rw [does.settled_eq fits settled.state]
  exact ⟨o', settled, shown⟩

end Effects

/-- Every thread stands as it should in the call that it makes, and no two threads have
claimed the cell. -/
def outline : Outline (rules α) where
  admits _ := True
  shared := Sound
  stands c call p := p.Fits c ∧ p.call = call
  apart p q := p.bid = [] ∨ q.bid = []
  answered := Answered
  apart_symm := Or.symm
  begins {c call} _ _ := ⟨call.start_fits c, call.call_start⟩
  begins_apart {call} _ _ := .inl call.bid_start
  keeps h stands := (step_does _ _).sound stands.1 h
  goes {c call p p'} h stands hgo := by
    have does : Does c p (step c p).1 (.goto p') := hgo ▸ step_does c p
    exact ⟨does.fits stands.1, does.call_eq.trans stands.2⟩
  answers {c call p a} h stands hdone := by
    have does : Does c p (step c p).1 (.done a) := hdone ▸ step_does c p
    exact stands.2 ▸ does.answered stands.1 h
  spares {c call p call' q} h stands stands' apart :=
    ⟨stands'.1.spared (step_does c p) stands.1 apart, stands'.2⟩
  stays_apart {c call p call' p' q} h stands stands' apart hgo := by
    have does : Does c p (step c p).1 (.goto p') := hgo ▸ step_does c p
    -- Who claims now finds the cell pending, so nobody else has claimed it.
    by_cases bids : p'.bid = []
    · exact .inl bids
    · rcases does.bids bids with before | pending
      · exact .inr (apart.resolve_left before)
      · refine .inr (Classical.byContradiction fun claimed => ?_)
        cases pending.symm.trans (stands'.1.committing claimed)
  spares_answers {c call p call' a} h stands answered :=
    answered.spared (step_does c p) stands.1

/-! ## Counting the claimants -/

/-- The outcome of a commit that has won. -/
def won : Call α × Answer α → List (Outcome α)
  | (.commit o, .won true) => [o]
  | _ => []

/-- The outcomes of the commits that have won. -/
def winners (c : CellCrew α) : List (Outcome α) := c.answers.flatMap won

/-- The outcomes of the commits of a thread that have won or have claimed the cell. -/
def claimants (t : Thread (Call α) (Point α) (Answer α)) : List (Outcome α) :=
  t.answers.flatMap won ++ (t.current.map fun here => here.2.bid).getD []

/-- How many commits have claimed the cell. -/
def State.claims : State → Nat
  | .pending => 0
  | .committing | .settled _ => 1

/-- A thread that claims the cell finds it pending, and goes on to win. -/
theorem move_claimants {c c' : Cell α} {t t' : Thread (Call α) (Point α) (Answer α)}
    (move : Crew.Move (rules α) c t c' t')
    (stands : ∀ {call p}, t.current = some (call, p) → p.Fits c ∧ p.call = call) :
    (claimants t').length + c.state.claims = (claimants t).length + c'.state.claims := by
  cases move with
  | @begins call rest hcur htodo =>
    have none : ((rules α).start call).bid = [] := call.bid_start
    simp [claimants, hcur, none]
  | @goes call p p' _ hcur hs =>
    obtain ⟨fits, -⟩ := stands hcur
    cases does_of_step hs with
    | claim h => simp [claimants, hcur, h, Point.bid, State.claims]
    | store | look | result | demand | demandEarly | readOther =>
      simp [claimants, hcur, Point.bid]
  | @answers call p a _ hcur hs =>
    obtain ⟨fits, rfl⟩ := stands hcur
    cases does_of_step hs with
    | publish => simp [claimants, hcur, fits.1, Point.bid, Point.call, State.claims, won]
    | lookLate | claimLate | state | isOn | isTerminal | resultEarly | readResult | readDemand
    | refuse =>
      simp [claimants, hcur, Point.bid, Point.call, won]

section Schedules

variable {calls : List (List (Call α))} {c c' : CellCrew α} {i : Nat}

theorem outline_holds (h : Crew.Reachable (rules α) (.initial {} calls) c) :
    (outline (α := α)).Holds c :=
  Outline.holds h nofun fun _ _ _ _ => trivial

/-- One commit has claimed the cell, unless it is pending. -/
theorem claimants_length (h : Crew.Reachable (rules α) (.initial {} calls) c) :
    (c.threads.flatMap claimants).length = c.shared.state.claims := by
  induction h with
  | refl =>
    rw [Crew.flatMap_initial _ _ fun _ => rfl]
    rfl
  | @step c c' i hreach hstep ih =>
    obtain ⟨t, t', ht, move, hthreads⟩ := Crew.step?_eq_some_iff.1 hstep
    have annotated := (outline_holds hreach).annotated t (List.mem_of_getElem? ht)
    have moved := move_claimants move annotated.stands
    obtain ⟨old, now⟩ := perm_flatMap_set ht t' claimants
    have old := old.length_eq
    have now := now.length_eq
    simp only [List.length_append] at old now
    rw [hthreads]
    omega

/-- Who has won has claimed the cell. -/
theorem winners_sublist (c : CellCrew α) : (winners c).Sublist (c.threads.flatMap claimants) := by
  obtain ⟨shared, threads⟩ := c
  simp only [winners, Crew.answers, List.flatMap_assoc]
  induction threads with
  | nil => exact .refl _
  | cons t ts ih =>
    simp only [List.flatMap_cons]
    exact (List.sublist_append_left _ _).append ih

theorem winners_length_le (h : Crew.Reachable (rules α) (.initial {} calls) c) :
    (winners c).length ≤ 1 := by
  have counted : (winners c).length ≤ c.shared.state.claims :=
    claimants_length h ▸ (winners_sublist c).length_le
  cases hstate : c.shared.state with
  | pending =>
    rw [hstate] at counted
    exact Nat.le_succ_of_le counted
  | committing | settled s => rwa [hstate] at counted

/-- Where no commit is between its claim and its publication, who has claimed the cell
has won it. -/
theorem winners_eq (idle : ∀ t ∈ c.threads, (t.current.map fun here => here.2.bid).getD [] = []) :
    winners c = c.threads.flatMap claimants := by
  simp only [winners, Crew.answers, List.flatMap_assoc]
  rw [List.flatMap_def, List.flatMap_def]
  apply congrArg List.flatten
  apply List.map_congr_left
  intro t ht
  rw [claimants, idle t ht, List.append_nil]

theorem mem_winners {o : Outcome α} (ho : o ∈ winners c) :
    ∃ t ∈ c.threads, (.commit o, .won true) ∈ t.answers := by
  obtain ⟨⟨call, a⟩, hentry, ho⟩ := List.mem_flatMap.1 ho
  obtain ⟨t, ht, hentry⟩ := List.mem_flatMap.1 hentry
  refine ⟨t, ht, ?_⟩
  unfold won at ho
  split at ho
  next heq =>
    cases heq
    obtain rfl := List.mem_singleton.1 ho
    exact hentry
  next => cases ho

/-- The cell is settled with the outcome of the commit that has won. -/
theorem settledWith_of_mem_winners (h : Crew.Reachable (rules α) (.initial {} calls) c)
    {o : Outcome α} (ho : o ∈ winners c) : c.shared.SettledWith o := by
  obtain ⟨t, ht, hentry⟩ := mem_winners ho
  have answered := ((outline_holds h).annotated t ht).answered _ hentry
  obtain ⟨o', settled, shows⟩ := Answered.shown answered o .won
  cases shows with
  | won => exact settled

/-- A settled cell has been won. -/
theorem winners_of_settledWith (h : Crew.Reachable (rules α) (.initial {} calls) c)
    {o : Outcome α} (settled : c.shared.SettledWith o) : winners c = [o] := by
  have idle : ∀ t ∈ c.threads, (t.current.map fun here => here.2.bid).getD [] = [] := by
    intro t ht
    cases hcur : t.current with
    | none => rfl
    | some here =>
      obtain ⟨fits, -⟩ := ((outline_holds h).annotated t ht).stands hcur
      refine Classical.byContradiction fun bids => ?_
      cases settled.state.symm.trans (Point.Fits.committing fits bids)
  have one : (winners c).length = 1 := by
    rw [winners_eq idle, claimants_length h, settled.state]
    rfl
  obtain ⟨o', ho'⟩ := List.length_eq_one_iff.1 one
  have settled' := settledWith_of_mem_winners h (ho' ▸ List.mem_singleton_self o')
  rw [ho', Option.some.inj (settled'.stored.symm.trans settled.stored)]

/-- When all threads are done and a commit was made, one has won. -/
theorem winners_of_done (h : Crew.Reachable (rules α) (.initial {} calls) c)
    (done : c.isDone = true) {todo : List (Call α)} (htodo : todo ∈ calls) {o : Outcome α}
    (ho : .commit o ∈ todo) : (winners c).length = 1 := by
  have idle : ∀ t ∈ c.threads, (t.current.map fun here => here.2.bid).getD [] = [] := by
    intro t ht
    rw [(Crew.current_of_isDone done ht).1]
    rfl
  have taken : c.shared.state ≠ .pending := by
    rw [← h.answers_eq done] at htodo
    obtain ⟨t, ht, rfl⟩ := List.mem_map.1 htodo
    obtain ⟨⟨call, a⟩, hentry, rfl⟩ := List.mem_map.1 ho
    exact Answered.committed (((outline_holds h).annotated t ht).answered _ hentry) o rfl
  rw [winners_eq idle, claimants_length h]
  cases hstate : c.shared.state with
  | pending => exact absurd hstate taken
  | committing | settled s => rfl

/-! ## Runs of a settled cell -/

/-- What a step of a crew does to the cell, and who makes it. -/
theorem does_of_crew_step (h : (outline (α := α)).Holds c)
    (hstep : c.step? (rules α) i = some c') :
    c'.shared = c.shared ∨
      ∃ p n, p.Fits c.shared ∧ Does c.shared p c'.shared n := by
  obtain ⟨-, ⟨-, same⟩ | ⟨p, n, hp, hs, -⟩⟩ := Crew.point?_of_step hstep
  · exact .inl same
  · obtain ⟨t, call, -, -, fits, -⟩ := h.stands hp
    exact .inr ⟨p, n, fits, does_of_step hs⟩

theorem advances_of_step (h : (outline (α := α)).Holds c)
    (hstep : c.step? (rules α) i = some c') : c.shared.state.Advances c'.shared.state := by
  rcases does_of_crew_step h hstep with same | ⟨p, n, fits, does⟩
  · rw [same]
    exact .stays _
  · exact does.advances fits

theorem settled_of_step (h : (outline (α := α)).Holds c)
    (hstep : c.step? (rules α) i = some c') {s : Side} (hs : c.shared.state = .settled s) :
    c'.shared = c.shared := by
  rcases does_of_crew_step h hstep with same | ⟨p, n, fits, does⟩
  · exact same
  · exact does.settled_eq fits hs

/-- Nothing changes a settled cell. -/
theorem settled_stays (h : (outline (α := α)).Holds c) {s : Side}
    (hs : c.shared.state = .settled s) (later : Crew.Reachable (rules α) c c') :
    c'.shared = c.shared := by
  have both : (outline (α := α)).Holds c' ∧ c'.shared = c.shared := by
    refine later.invariant (I := fun d => (outline (α := α)).Holds d ∧ d.shared = c.shared)
      ⟨h, rfl⟩ ?_
    intro d d' j ⟨holds, same⟩ hstep
    refine ⟨holds.step hstep, ?_⟩
    rw [settled_of_step holds hstep (same ▸ hs), same]
  exact both.2

/-! ## What readers see -/

/-- Once a thread has had an answer that shows the cell settled, its answers are those
of calls that began on the settled cell, and so is the call that it is in. -/
def Informed (c : Cell α) (t : Thread (Call α) (Point α) (Answer α)) : Prop :=
  ∀ before call a later, t.answers = before ++ (call, a) :: later → (∃ o, call.Shows o a) →
    ∃ o, c.SettledWith o ∧ call.Shows o a ∧ (∀ e ∈ later, e.2 = e.1.late o) ∧
      ∀ {call p}, t.current = some (call, p) → p.Late o

theorem Informed.move {c c' : Cell α} {t t' : Thread (Call α) (Point α) (Answer α)}
    (h : Informed c t) (sound : c.Sound)
    (stands : ∀ {call p}, t.current = some (call, p) → p.Fits c ∧ p.call = call)
    (move : Crew.Move (rules α) c t c' t') : Informed c' t' := by
  intro before call a later hentry shows
  cases move with
  | @begins next rest hcur htodo =>
    obtain ⟨o, settled, shown, later_late, -⟩ := h before call a later hentry shows
    refine ⟨o, settled, shown, later_late, ?_⟩
    intro call' p hp
    cases hp
    exact next.start_late o
  | @goes current p p' _ hcur hs =>
    obtain ⟨fits, rfl⟩ := stands hcur
    have does := does_of_step hs
    obtain ⟨o, settled, shown, later_late, late⟩ := h before call a later hentry shows
    obtain rfl := does.settled_eq fits settled.state
    refine ⟨o, settled, shown, later_late, ?_⟩
    intro call' q hq
    cases hq
    rcases does.late settled (late hcur) with ⟨_, hgo, late'⟩ | hdone
    · cases hgo
      exact late'
    · cases hdone
  | @answers current p b _ hcur hs =>
    obtain ⟨fits, rfl⟩ := stands hcur
    have does := does_of_step hs
    have entries : t.answers ++ [(p.call, b)] = before ++ (call, a) :: later := hentry
    rcases List.eq_nil_or_concat later with rfl | ⟨earlier, last, rfl⟩
    · -- The call has just been answered.
      obtain ⟨-, hlast⟩ := List.append_inj' entries rfl
      cases hlast
      obtain ⟨o, shows⟩ := shows
      obtain ⟨o', settled, shown⟩ := does.shows fits sound shows
      exact ⟨o', settled, shown, nofun, nofun⟩
    · rw [List.concat_eq_append] at entries ⊢
      rw [← List.cons_append, ← List.append_assoc] at entries
      obtain ⟨hbefore, hlast⟩ := List.append_inj' entries rfl
      cases hlast
      obtain ⟨o, settled, shown, later_late, late⟩ := h before call a earlier hbefore shows
      obtain rfl := does.settled_eq fits settled.state
      refine ⟨o, settled, shown, ?_, nofun⟩
      intro e he
      rcases List.mem_append.1 he with old | new
      · exact later_late e old
      · obtain rfl := List.mem_singleton.1 new
        rcases does.late settled (late hcur) with ⟨_, hgo, -⟩ | hdone
        · cases hgo
        · exact Next.done.inj hdone

theorem informed (h : Crew.Reachable (rules α) (.initial {} calls) c)
    {t : Thread (Call α) (Point α) (Answer α)} (ht : t ∈ c.threads) : Informed c.shared t := by
  induction h generalizing t with
  | refl =>
    obtain ⟨todo, -, rfl⟩ := Crew.of_mem_initial ht
    intro before call a later hentry
    cases (List.append_eq_nil_iff.1 hentry.symm).2
  | @step c c' i hreach hstep ih =>
    have holds := outline_holds hreach
    obtain ⟨u, u', hu, move, hthreads⟩ := Crew.step?_eq_some_iff.1 hstep
    have mem := List.mem_of_getElem? hu
    obtain ⟨j, hj⟩ := List.mem_iff_getElem?.1 ht
    rw [hthreads] at hj
    rcases Crew.getElem?_of_set hj with ⟨-, rfl⟩ | ⟨-, hold⟩
    · exact (ih mem).move holds.shared (holds.annotated u mem).stands move
    · intro before call a later hentry shows
      obtain ⟨o, settled, rest⟩ := ih (List.mem_of_getElem? hold) before call a later hentry shows
      rw [settled_of_step holds hstep settled.state]
      exact ⟨o, settled, rest⟩

/-- Threads commit to one cell and read it, in any order. At most one commit wins, and
when all threads are done and one was made, one has won. The cell holds the outcome of
the winner, and is settled on its side. Its state moves from pending to committing and
from there to settled, and nothing changes a settled cell, which always holds an outcome
of the side on which it settled. An answer that shows the cell settled shows it settled
with the winner's outcome, and whatever the same thread asks from then on is answered as
on a cell that was settled with that outcome from the start of the call. -/
theorem one_winner (h : Crew.Reachable (rules α) (.initial {} calls) c) :
    (winners c).length ≤ 1 ∧
    (c.isDone = true → (∃ todo ∈ calls, ∃ o, .commit o ∈ todo) → (winners c).length = 1) ∧
    (∀ o ∈ winners c, c.shared = ⟨.settled o.side, some o⟩) ∧
    (∀ s, c.shared.state = .settled s →
      ∃ v, c.shared.stored = some ⟨s, v⟩ ∧ winners c = [⟨s, v⟩]) ∧
    (∀ i c', c.step? (rules α) i = some c' → c.shared.state.Advances c'.shared.state) ∧
    (∀ s c', c.shared.state = .settled s → Crew.Reachable (rules α) c c' →
      c'.shared = c.shared) ∧
    (∀ i before call a later, c.answersOf i = before ++ (call, a) :: later →
      (∃ o, call.Shows o a) →
      ∃ o, winners c = [o] ∧ c.shared = ⟨.settled o.side, some o⟩ ∧ call.Shows o a ∧
        ∀ e ∈ later, e.2 = e.1.late o) := by
  have holds := outline_holds h
  have sound : c.shared.Sound := holds.shared
  refine ⟨winners_length_le h, ?_, ?_, ?_, ?_, ?_, ?_⟩
  · intro done ⟨todo, htodo, o, ho⟩
    exact winners_of_done h done htodo ho
  · intro o ho
    exact (settledWith_of_mem_winners h ho).eq
  · intro s hs
    obtain ⟨v, settled⟩ := sound.settledWith hs
    exact ⟨v, settled.stored, winners_of_settledWith h settled⟩
  · intro i c' hstep
    exact advances_of_step holds hstep
  · intro s c' hs later
    exact settled_stays holds hs later
  · intro i before call a later hentry shows
    obtain ⟨t, ht, hanswers⟩ : ∃ t ∈ c.threads, t.answers = before ++ (call, a) :: later := by
      cases ht : c.threads[i]? with
      | none => simp [Crew.answersOf, ht] at hentry
      | some t => exact ⟨t, List.mem_of_getElem? ht, Crew.answersOf_of_getElem? ht ▸ hentry⟩
    obtain ⟨o, settled, shown, late, -⟩ := informed h ht before call a later hanswers shows
    exact ⟨o, winners_of_settledWith h settled, settled.eq, shown, late⟩

end Schedules

/-- Two commits race, and a reader looks at the cell again and again. -/
def raceCalls : List (List (Call Nat)) :=
  [[.commit ⟨.success, 1⟩], [.commit ⟨.failure, 2⟩],
    [.state, .result, .demand .failure, .demand .success, .isOn .failure]]

/-- Both commits find the cell pending, the second one claims it, the reader comes while
the outcome is being stored, and all go on to the end. -/
def race : CellCrew Nat :=
  (Crew.initial {} raceCalls : CellCrew Nat).after (rules Nat)
    ([0, 0, 1, 1, 1, 0, 2, 2, 1, 1] ++ List.replicate 16 2)

theorem one_winner_race :
    Crew.Reachable (rules Nat) (.initial {} raceCalls) race ∧ race.isDone = true ∧
    (winners race).length = 1 ∧ race.shared = ⟨.settled .failure, some ⟨.failure, 2⟩⟩ ∧
    race.answersOf 2
      = [(.state, .state .committing), (.result, .outcome (some ⟨.failure, 2⟩)),
        (.demand .failure, .value 2), (.demand .success, .refused .success (.settled .failure)),
        (.isOn .failure, .flag true)] ∧
    ∃ o, winners race = [o] ∧
      ∀ e ∈ ([(.demand .failure, .value 2),
          (.demand .success, .refused .success (.settled .failure)), (.isOn .failure, .flag true)] :
          List (Call Nat × Answer Nat)), e.2 = e.1.late o := by
  have reachable : Crew.Reachable (rules Nat) (.initial {} raceCalls) race :=
    Crew.Reachable.refl.after _
  obtain ⟨-, done, -, settled, -, -, informed⟩ := one_winner reachable
  have answers : race.answersOf 2
      = [(.state, .state .committing)] ++ (.result, .outcome (some ⟨.failure, 2⟩)) ::
        [(.demand .failure, .value 2),
          (.demand .success, .refused .success (.settled .failure)),
          (.isOn .failure, .flag true)] := rfl
  obtain ⟨o, winner, -, -, late⟩ := informed _ _ _ _ _ answers ⟨_, .result⟩
  exact ⟨reachable, rfl, done rfl ⟨_, List.mem_cons_self .., _, List.mem_cons_self ..⟩, rfl,
    answers, o, winner, late⟩

end Eventual.Cell
