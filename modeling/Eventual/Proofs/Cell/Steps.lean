import Eventual.Interleaving.Objects
import Eventual.Proofs.Completion.Steps

/-!
# One access to a cell

`Does` lists what one access of a call on a cell can do. What follows is read off that
list: the state of a cell only moves on, from pending to committing to settled; what a
thread has learnt of the cell on the way to a point stays true, as long as no other
thread has claimed the cell too; and nothing changes a settled cell.

A call that begins when the cell is settled answers what `Call.late` says, whoever else
is at work. `Call.Shows` says of an answer that it could only be given on a cell settled
with a certain outcome.
-/

namespace Eventual.Cell

variable {α : Type}

/-- What one access of a call does: the access by which it leaves its point, the cell
afterwards, and how it goes on. -/
inductive Does (c : Cell α) : Point α → Cell α → Next (Point α) (Answer α) → Prop
  | look {o} : c.state = .pending →
      Does c (.commit o .look) c (.goto (.commit o .claim))
  | lookLate {o} : c.state ≠ .pending →
      Does c (.commit o .look) c (.done (.won false))
  | claim {o} : c.state = .pending →
      Does c (.commit o .claim) { c with state := .committing } (.goto (.commit o .store))
  | claimLate {o} : c.state ≠ .pending →
      Does c (.commit o .claim) c (.done (.won false))
  | store {o} :
      Does c (.commit o .store) { c with stored := some o } (.goto (.commit o .publish))
  | publish {o} :
      Does c (.commit o .publish) { c with state := .settled o.side } (.done (.won true))
  | state : Does c .state c (.done (.state c.state))
  | isOn {s} : Does c (.isOn s) c (.done (.flag (c.isOn s)))
  | isTerminal : Does c .isTerminal c (.done (.flag c.isTerminal))
  | result : c.isTerminal = true → Does c .result c (.goto .readResult)
  | resultEarly : c.isTerminal = false → Does c .result c (.done (.outcome none))
  | readResult : Does c .readResult c (.done (.outcome c.stored))
  | demand {s} : c.isTerminal = true → Does c (.demand s) c (.goto (.readDemand s))
  | demandEarly {s} : c.isTerminal = false → Does c (.demand s) c (.goto (.refuse s))
  | readDemand {s v} : c.stored = some ⟨s, v⟩ → Does c (.readDemand s) c (.done (.value v))
  | readOther {s} : (∀ v, c.stored ≠ some ⟨s, v⟩) →
      Does c (.readDemand s) c (.goto (.refuse s))
  | refuse {s} : Does c (.refuse s) c (.done (.refused s c.state))

theorem step_does (c : Cell α) (p : Point α) : Does c p (step c p).1 (step c p).2 := by
  cases p with
  | commit o here =>
    cases here with
    | look =>
      cases hs : c.state with
      | pending => simpa [step, commitStep, hs] using Does.look hs
      | committing | settled _ =>
        simpa [step, commitStep, hs] using Does.lookLate (c := c) (by simp [hs])
    | claim =>
      cases hs : c.state with
      | pending => simpa [step, commitStep, hs] using Does.claim hs
      | committing | settled _ =>
        simpa [step, commitStep, hs] using Does.claimLate (c := c) (by simp [hs])
    | store => exact .store
    | publish => exact .publish
  | state => exact .state
  | isOn s => exact .isOn
  | isTerminal => exact .isTerminal
  | result =>
    cases h : c.isTerminal with
    | true => simpa [step, h] using Does.result h
    | false => simpa [step, h] using Does.resultEarly h
  | readResult => exact .readResult
  | demand s =>
    cases h : c.isTerminal with
    | true => simpa [step, h] using Does.demand h
    | false => simpa [step, h] using Does.demandEarly h
  | readDemand s =>
    cases h : c.stored with
    | none => simpa [step, h] using Does.readOther (c := c) (s := s) (by simp [h])
    | some o =>
      by_cases hs : o.side = s
      · obtain ⟨_, v⟩ := o
        obtain rfl : _ = s := hs
        simpa [step, h] using Does.readDemand h
      · have other : ∀ v, c.stored ≠ some ⟨s, v⟩ := by
          intro v hv
          obtain rfl : o = ⟨s, v⟩ := Option.some.inj (h.symm.trans hv)
          exact hs rfl
        simpa [step, h, hs] using Does.readOther other
  | refuse s => exact .refuse

theorem does_of_step {c c' : Cell α} {p : Point α} {n : Next (Point α) (Answer α)}
    (h : (rules α).step c p = (c', n)) : Does c p c' n := by
  have does := step_does c p
  rwa [show step c p = (c', n) from h] at does

/-! ## States -/

/-- A state, and one that a single access can make of it. -/
inductive State.Advances : State → State → Prop
  | stays (st : State) : Advances st st
  | claims : Advances .pending .committing
  | settles (s : Side) : Advances .committing (.settled s)

theorem isTerminal_eq_true_iff {c : Cell α} :
    c.isTerminal = true ↔ ∃ s, c.state = .settled s := by
  unfold isTerminal State.isTerminal
  rw [Option.isSome_iff_exists]
  simp only [State.side?_eq_some_iff]

/-! ## What a thread has learnt -/

/-- The outcome of a commit that has claimed the cell and not yet published it. -/
def Point.bid : Point α → List (Outcome α)
  | .commit o .store | .commit o .publish => [o]
  | _ => []

/-- What a call has seen or made of the cell on its way to the point. -/
def Point.Fits (c : Cell α) : Point α → Prop
  | .commit _ .store => c.state = .committing
  | .commit o .publish => c.state = .committing ∧ c.stored = some o
  | .readResult | .readDemand _ => ∃ s, c.state = .settled s
  | _ => True

/-- The call to which a point belongs. -/
def Point.call : Point α → Call α
  | .commit o _ => .commit o
  | .state => .state
  | .isOn s => .isOn s
  | .isTerminal => .isTerminal
  | .result | .readResult => .result
  | .demand s | .readDemand s | .refuse s => .demand s

theorem Call.call_start (call : Call α) : call.start.call = call := by cases call <;> rfl

theorem Call.start_fits (call : Call α) (c : Cell α) : call.start.Fits c := by
  cases call <;> trivial

theorem Call.bid_start (call : Call α) : call.start.bid = [] := by cases call <;> rfl

theorem Point.Fits.committing {c : Cell α} {p : Point α} (h : p.Fits c) (bids : p.bid ≠ []) :
    c.state = .committing := by
  cases p with
  | commit o here =>
    cases here with
    | look | claim => exact absurd rfl bids
    | store => exact h
    | publish => exact h.1
  | _ => exact absurd rfl bids

/-- While the cell is not settled, only a commit that has claimed it has learnt anything
that could become untrue. -/
theorem Point.Fits.of_unsettled {c : Cell α} {p : Point α} (h : p.Fits c) (bids : p.bid = [])
    (unsettled : ∀ s, c.state ≠ .settled s) (c' : Cell α) : p.Fits c' := by
  cases p with
  | commit o here =>
    cases here with
    | look | claim => trivial
    | store | publish => cases bids
  | readResult =>
    obtain ⟨s, hs⟩ := h
    exact absurd hs (unsettled s)
  | readDemand s' =>
    obtain ⟨s, hs⟩ := h
    exact absurd hs (unsettled s)
  | state | isOn | isTerminal | result | demand | refuse => trivial

section Effects

variable {c c' : Cell α} {p p' q : Point α} {n : Next (Point α) (Answer α)}

theorem Does.advances (does : Does c p c' n) (fits : p.Fits c) :
    c.state.Advances c'.state := by
  cases does with
  | claim h =>
    rw [h]
    exact .claims
  | publish =>
    rw [fits.1]
    exact .settles _
  | _ => exact .stays _

/-- A settled cell stays as it is. -/
theorem Does.settled_eq (does : Does c p c' n) (fits : p.Fits c) {s : Side}
    (hs : c.state = .settled s) : c' = c := by
  cases does with
  | claim h => cases hs.symm.trans h
  | store => cases hs.symm.trans fits
  | publish => cases hs.symm.trans fits.1
  | _ => rfl

theorem Does.sound (does : Does c p c' n) (fits : p.Fits c) (h : c.Sound) : c'.Sound := by
  cases does with
  | claim => exact nofun
  | store =>
    intro s hs
    cases hs.symm.trans fits
  | @publish o =>
    intro s hs
    obtain rfl : o.side = s := State.settled.inj hs
    exact ⟨o.value, fits.2⟩
  | _ => exact h

/-- The point to which an access leads fits the cell that it leaves behind. -/
theorem Does.fits (does : Does c p c' (.goto p')) (fits : p.Fits c) : p'.Fits c' := by
  cases does with
  | claim => exact rfl
  | store => exact ⟨fits, rfl⟩
  | result h | demand h => exact isTerminal_eq_true_iff.1 h
  | look | demandEarly | readOther => trivial

theorem Does.call_eq (does : Does c p c' (.goto p')) : p'.call = p.call := by
  cases does <;> rfl

/-- An access spoils the point of another thread only if both have claimed the cell. -/
theorem Point.Fits.spared (hq : q.Fits c) (does : Does c p c' n) (fits : p.Fits c)
    (apart : p.bid = [] ∨ q.bid = []) : q.Fits c' := by
  have unclaimed : p.bid ≠ [] → q.bid = [] := apart.resolve_left
  cases does with
  | claim h =>
    refine hq.of_unsettled ?_ (by simp [h]) _
    apply Classical.byContradiction
    intro bids
    cases h.symm.trans (hq.committing bids)
  | store =>
    have state : c.state = .committing := fits
    exact hq.of_unsettled (unclaimed nofun) (by simp [state]) _
  | publish => exact hq.of_unsettled (unclaimed nofun) (by simp [fits.1]) _
  | _ => exact hq

/-- A commit claims a pending cell only. -/
theorem Does.bids (does : Does c p c' (.goto p')) (bids : p'.bid ≠ []) :
    p.bid ≠ [] ∨ c.state = .pending := by
  cases does with
  | claim h => exact .inr h
  | store => exact .inl nofun
  | _ => exact absurd rfl bids

/-- A cell that is no longer pending does not become so again. -/
theorem Does.not_pending (does : Does c p c' n) (h : c.state ≠ .pending) :
    c'.state ≠ .pending := by
  cases does with
  | claim | publish => exact nofun
  | _ => exact h

end Effects

/-! ## What an answer says -/

/-- What a call answers that begins on a cell settled with the outcome. -/
def Call.late (o : Outcome α) : Call α → Answer α
  | .commit _ => .won false
  | .state => .state (.settled o.side)
  | .isOn s => .flag (o.side = s)
  | .isTerminal => .flag true
  | .result => .outcome (some o)
  | .demand s => if o.side = s then .value o.value else .refused s (.settled o.side)

/-- The points that a call passes that begins on a cell settled with the outcome. -/
def Point.Late (o : Outcome α) : Point α → Prop
  | .commit _ here => here = .look
  | .refuse s => o.side ≠ s
  | _ => True

/-- The answer shows that the cell is settled with the outcome, as far as it says. -/
inductive Call.Shows (o : Outcome α) : Call α → Answer α → Prop
  | won : Shows o (.commit o) (.won true)
  | state : Shows o .state (.state (.settled o.side))
  | isOn : Shows o (.isOn o.side) (.flag true)
  | isTerminal : Shows o .isTerminal (.flag true)
  | result : Shows o .result (.outcome (some o))
  | value : Shows o (.demand o.side) (.value o.value)
  | refused {s} : Shows o (.demand s) (.refused s (.settled o.side))

theorem Call.start_late (call : Call α) (o : Outcome α) : call.start.Late o := by
  cases call <;> first | exact rfl | trivial

/-- The cell is settled with the outcome. -/
structure SettledWith (c : Cell α) (o : Outcome α) : Prop where
  state : c.state = .settled o.side
  stored : c.stored = some o

theorem SettledWith.eq {c : Cell α} {o : Outcome α} (h : c.SettledWith o) :
    c = ⟨.settled o.side, some o⟩ := by
  obtain ⟨state, stored⟩ := c
  rw [show state = _ from h.state, show stored = _ from h.stored]

theorem Sound.settledWith {c : Cell α} (h : c.Sound) {s : Side} (hs : c.state = .settled s) :
    ∃ v, c.SettledWith ⟨s, v⟩ := by
  obtain ⟨v, hv⟩ := h s hs
  exact ⟨v, hs, hv⟩

section Answers

variable {c c' : Cell α} {p : Point α} {n : Next (Point α) (Answer α)} {o : Outcome α}

/-- A call that began on a settled cell goes on as one, and answers as one. -/
theorem Does.late (does : Does c p c' n) (h : c.SettledWith o) (late : p.Late o) :
    (∃ p', n = .goto p' ∧ p'.Late o) ∨ n = .done (p.call.late o) := by
  have taken : c.state ≠ .pending := by simp [h.state]
  have terminal : c.isTerminal = true := isTerminal_eq_true_iff.2 ⟨_, h.state⟩
  cases does with
  | look pending => exact absurd pending taken
  | lookLate => exact .inr rfl
  | claim | claimLate | store | publish => cases late
  | state =>
    rw [h.state]
    exact .inr rfl
  | isOn => exact .inr (by simp [Point.call, Call.late, Cell.isOn, h.state])
  | isTerminal =>
    rw [terminal]
    exact .inr rfl
  | result | demand => exact .inl ⟨_, rfl, trivial⟩
  | resultEarly early | demandEarly early => cases terminal.symm.trans early
  | readResult =>
    rw [h.stored]
    exact .inr rfl
  | @readDemand s v stored =>
    obtain rfl : o = ⟨s, v⟩ := Option.some.inj (h.stored.symm.trans stored)
    exact .inr (by simp [Point.call, Call.late])
  | readOther other =>
    refine .inl ⟨_, rfl, ?_⟩
    rintro rfl
    exact other o.value h.stored
  | refuse =>
    rw [h.state, Point.call, Call.late, if_neg late]
    exact .inr rfl

/-- An answer that shows a settled cell shows the one that is there. -/
theorem Does.shows {a : Answer α} (does : Does c p c' (.done a)) (fits : p.Fits c)
    (h : c.Sound) (shows : p.call.Shows o a) : ∃ o', c'.SettledWith o' ∧ p.call.Shows o' a := by
  cases does with
  | lookLate | claimLate | resultEarly => cases shows
  | publish => exact ⟨_, ⟨rfl, fits.2⟩, .won⟩
  | state =>
    generalize hst : c.state = st at shows
    cases shows with
    | state =>
      obtain ⟨v, settled⟩ := h.settledWith hst
      exact ⟨_, settled, .state⟩
  | @isOn s =>
    generalize hflag : c.isOn s = flag at shows
    generalize hcall : (Point.isOn s : Point α).call = call at shows
    cases shows with
    | isOn =>
      cases hcall
      obtain ⟨v, settled⟩ := h.settledWith (of_decide_eq_true hflag)
      exact ⟨⟨o.side, v⟩, settled, .isOn⟩
    | isTerminal => cases hcall
  | isTerminal =>
    generalize hflag : c.isTerminal = flag at shows
    cases shows with
    | isTerminal =>
      obtain ⟨s, hs⟩ := isTerminal_eq_true_iff.1 hflag
      obtain ⟨v, settled⟩ := h.settledWith hs
      exact ⟨_, settled, .isTerminal⟩
  | readResult =>
    obtain ⟨s, hs⟩ := fits
    obtain ⟨v, settled⟩ := h.settledWith hs
    rw [settled.stored]
    exact ⟨_, settled, .result⟩
  | @readDemand s v stored =>
    obtain ⟨s', hs⟩ := fits
    obtain ⟨v', settled⟩ := h.settledWith hs
    cases Option.some.inj (settled.stored.symm.trans stored)
    exact ⟨_, settled, .value⟩
  | @refuse s =>
    generalize hst : c.state = st at shows
    cases shows with
    | refused =>
      obtain ⟨v, settled⟩ := h.settledWith hst
      exact ⟨_, settled, .refused⟩

end Answers

end Eventual.Cell
