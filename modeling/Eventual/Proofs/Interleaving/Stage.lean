import Eventual.Interleaving.Stage
import Eventual.Proofs.Interleaving.Outline
import Eventual.Proofs.Promise.Steps

/-!
# Threads on one completion, step by step

`Does` lists what a thread can do in one step: make a step of a call, begin the call
of an item that it holds, or come back from one. `outline` annotates every point with
what the thread has seen of the cell and with the call it belongs to; no two threads
have claimed the cell at once, and nothing is called before the cell is settled, or
for the side on which it did not settle.

`Does.balance` is the bookkeeping of one step: an item goes from a queue to the thread
that takes it, and from there among the items whose calls have begun.
-/

namespace Eventual

/-- What a moment says was registered. -/
def Moment.registers {α : Type} (k : Kind) : Moment α → List Player
  | .registered k' x => if k' = k then [x] else []
  | _ => []

/-- What a moment says began to be called. -/
def Moment.starts {α : Type} (k : Kind) : Moment α → List Player
  | .started k' x _ => if k' = k then [x] else []
  | _ => []

namespace Stage

variable {α : Type}

/-- The cell that the threads share. -/
def cell (s : Stage α) : Cell α := s.site.completion.cell

/-- The items of a kind that wait, front to back. -/
def waiting (s : Stage α) (k : Kind) : List Player := s.site.completion.waiting k

/-- What was registered of a kind, in order. -/
def registered (s : Stage α) (k : Kind) : List Player := s.moments.flatMap (Moment.registers k)

/-- What was called of a kind, in the order in which the calls began. -/
def started (s : Stage α) (k : Kind) : List Player := s.moments.flatMap (Moment.starts k)

@[simp] theorem registered_record (s : Stage α) (m : Moment α) (k : Kind) :
    (s.record m).registered k = s.registered k ++ m.registers k := by simp [registered]

@[simp] theorem started_record (s : Stage α) (m : Moment α) (k : Kind) :
    (s.record m).started k = s.started k ++ m.starts k := by simp [started]

/-- What the call of an item does to the stage by itself: a relay wakes. -/
def attend (s : Stage α) : Player → Stage α
  | .relay w => s.relay w
  | .callback _ _ | .waker _ _ => s

/-- The call of an item touches neither the cell nor the queues. -/
theorem attend_same (s : Stage α) (x : Player) :
    (s.attend x).site.completion = s.site.completion ∧
      (∀ k, (s.attend x).registered k = s.registered k ∧ (s.attend x).started k = s.started k) ∧
      ∃ ms, (s.attend x).moments = s.moments ++ ms ∧ ∀ m ∈ ms, ∃ w i, m = .woken w i := by
  cases x with
  | relay w =>
    unfold attend Stage.relay
    dsimp only
    split
    next site h =>
      have same : site.completion = s.site.completion := congrArg (·.1.completion) h.symm
      exact ⟨same, fun k => ⟨rfl, rfl⟩, [], (List.append_nil _).symm, List.forall_mem_nil _⟩
    next site i h =>
      have same : site.completion = s.site.completion := congrArg (·.1.completion) h.symm
      refine ⟨same, fun k => ⟨?_, ?_⟩, [.woken w i], ?_, ?_⟩
      · rw [registered_record]
        exact List.append_nil _
      · rw [started_record]
        exact List.append_nil _
      · rw [moments_record]
        rfl
      · intro m hm
        exact ⟨w, i, List.mem_singleton.1 hm⟩
  | callback _ _ | waker _ _ =>
    exact ⟨rfl, fun k => ⟨rfl, rfl⟩, [], (List.append_nil _).symm, List.forall_mem_nil _⟩

/-- What a thread does in one step. -/
inductive Does (s : Stage α) : Point α → Stage α → Next (Point α) (Answer α) → Prop
  | goes {here site p} : Site.Does s.site here site (.goto p) →
      Does s (.routine here) { s with site } (.goto (.routine p))
  | notices {here site n p} : Site.Does s.site here site (.notice n p) →
      Does s (.routine here) (({ s with site } : Stage α).record (notice n)) (.goto (.routine p))
  | takes {here site k x arg p} : Site.Does s.site here site (.call k x arg p) →
      Does s (.routine here) (({ s with site } : Stage α).record (.taken k x))
        (.goto (.holding k x arg p))
  | answers {here site a} : Site.Does s.site here site (.done a) →
      Does s (.routine here) { s with site } (.done (.returned a))
  | refuses {here site side st} : Site.Does s.site here site (.refused side st) →
      Does s (.routine here) { s with site } (.done (.refused side st))
  | starts {k x arg back} :
      Does s (.holding k x arg back) (s.record (.started k x arg)) (.goto (.inside k x back))
  | returns {k x back} : x.conduct = .returns →
      Does s (.inside k x back) ((s.attend x).record (.returned k x)) (.goto (.routine back))
  | contains {k x back} : x.conduct = .contained →
      Does s (.inside k x back) ((s.attend x).record (.reported k x)) (.goto (.routine back))
  | panics {k x back} : x.conduct = .panics →
      Does s (.inside k x back) ((s.attend x).record (.panicked k x)) (.done (.panicked x))

theorem step_does (s : Stage α) (p : Point α) : Does s p (step s p).1 (step s p).2 := by
  cases p with
  | routine here =>
    have does := Site.step_does s.site here
    rcases h : s.site.step here with ⟨site, action⟩
    rw [h] at does
    cases action with
    | goto p => simpa only [step, h] using Does.goes does
    | notice n p => simpa only [step, h] using Does.notices does
    | call k x arg p => simpa only [step, h] using Does.takes does
    | done a => simpa only [step, h] using Does.answers does
    | refused side st => simpa only [step, h] using Does.refuses does
  | holding k x arg back => exact .starts
  | inside k x back =>
    cases h : x.conduct with
    | returns =>
      have does : Does s (.inside k x back) _ _ := .returns h
      cases x <;> simpa only [step, attend, h] using does
    | contained =>
      have does : Does s (.inside k x back) _ _ := .contains h
      cases x <;> simpa only [step, attend, h] using does
    | panics =>
      have does : Does s (.inside k x back) _ _ := .panics h
      cases x <;> simpa only [step, attend, h] using does

theorem does_of_step {s s' : Stage α} {p : Point α} {n : Next (Point α) (Answer α)}
    (h : rules.step s p = (s', n)) : Does s p s' n := by
  have does := step_does s p
  rwa [show step s p = (s', n) from h] at does

/-! ## Bookkeeping -/

/-- What a thread at the point has taken and not begun to call. -/
def Point.held (k : Kind) : Point α → List Player
  | .holding k' x _ _ => if k' = k then [x] else []
  | .routine _ | .inside _ _ _ => []

/-- What a thread holds after a step. -/
def heldAfter (k : Kind) : Next (Point α) (Answer α) → List Player
  | .goto p => p.held k
  | .done _ => []

section Effects

variable {s s' : Stage α} {p q p' : Point α} {n : Next (Point α) (Answer α)}

/-- A step puts what it registers at the back of a queue, takes an item from the front
of one, begins the call of the item that the thread holds, or moves none. -/
theorem Does.balance (does : Does s p s' n) (h : s.site.completion.AtRest) (k : Kind) :
    ∃ new, s'.registered k = s.registered k ++ new ∧
      s'.started k ++ heldAfter k n ++ s'.waiting k
        = s.started k ++ p.held k ++ s.waiting k ++ new := by
  cases does with
  | goes inner | answers inner | refuses inner =>
    have queue := inner.waiting_eq h k
    refine ⟨[], (List.append_nil _).symm, ?_⟩
    simp only [Action.called, Action.registered, List.nil_append, List.append_nil] at queue
    simp [heldAfter, Point.held, waiting, queue, started, moments]
  | @notices here site n p inner =>
    have queue := inner.waiting_eq h k
    refine ⟨(notice n).registers k, registered_record .., ?_⟩
    have new : (Action.notice n p : Action α Player _ (Site.Answer α)).registered k
        = (notice n).registers k := by cases n <;> rfl
    have none : (notice n).starts k = [] := by cases n <;> rfl
    rw [new] at queue
    simp only [Action.called, List.nil_append] at queue
    rw [started_record, none]
    simp [heldAfter, Point.held, waiting, queue, started, moments]
  | @takes here site k' x arg p inner =>
    have queue := inner.waiting_eq h k
    refine ⟨[], (registered_record ..).trans rfl, ?_⟩
    simp only [Action.called, Action.registered, List.append_nil] at queue
    rw [started_record]
    simp [heldAfter, Point.held, Moment.starts, waiting, ← queue, started, moments]
  | @starts k' x arg back =>
    refine ⟨[], (registered_record ..).trans rfl, ?_⟩
    rw [started_record]
    simp [heldAfter, Point.held, Moment.starts, waiting]
  | @returns k' x back | @contains k' x back | @panics k' x back =>
    obtain ⟨same, records, -⟩ := s.attend_same x
    refine ⟨[], ?_, ?_⟩
    · rw [registered_record, (records k).1]
      rfl
    · rw [started_record, (records k).2]
      simp [heldAfter, Point.held, Moment.starts, waiting, same]

end Effects

/-! ## What every thread may rely on -/

/-- Where a thread stands in a call, or goes on when the item that it calls returns. -/
def Point.back : Point α → Site.Point α Player Nat
  | .routine here => here
  | .holding _ _ _ back | .inside _ _ back => back

/-- A call that registers the item. -/
def Registers (k : Kind) (x : Player) : Call α → Prop
  | .direct (.register k' x') => k' = k ∧ x' = x
  | .poll p => k = .waker ∧ x = p.relay
  | .direct (.tryCommit _) | .direct (.complete _) | .direct (.drain _) => False

/-- The accounts of a stage on which only certain items are registered: nothing was
called before the cell settled, nor for the other side. -/
structure Orderly (only : Kind → Player → Prop) (s : Stage α) : Prop where
  atRest : s.site.completion.AtRest
  cell : s.cell.Sound
  settled : ∀ k, s.started k ≠ [] → ∃ side, s.cell.state = .settled side ∧ k ≠ .on side.other
  registered : ∀ k x, x ∈ s.registered k → only k x

/-- What a thread at the point has seen of the cell. -/
def Stands (s : Stage α) : Point α → Prop
  | .routine here => here.Fits s.cell
  | .holding k _ _ back => back.Fits s.cell ∧ back.Sweeps ∧
      ∃ side, s.cell.state = .settled side ∧ k ≠ .on side.other
  | .inside k x back => back.Fits s.cell ∧ back.Sweeps ∧
      (∃ side, s.cell.state = .settled side ∧ k ≠ .on side.other) ∧ x ∈ s.started k

section Effects

variable {s s' : Stage α} {p q p' : Point α} {n : Next (Point α) (Answer α)}
  {only : Kind → Player → Prop}

theorem Stands.fits (h : Stands s p) : p.back.Fits s.cell := by
  cases p with
  | routine here => exact h
  | holding k x arg back | inside k x back => exact h.1

/-- A step of a thread is one of the call it is in, or leaves the completion alone and
goes back to where the call stands, unless the call of an item has panicked. -/
theorem Does.site (does : Does s p s' n) :
    (∃ here action, p = .routine here ∧ Site.Does s.site here s'.site action ∧
      n.point?.map Point.back = action.next?) ∨
    (s'.site.completion = s.site.completion ∧ (∀ here, p ≠ .routine here) ∧
      (n.point?.map Point.back = some p.back ∨
        ∃ k x back, p = .inside k x back ∧ n = .done (.panicked x))) := by
  cases does with
  | goes inner | notices inner | takes inner | answers inner | refuses inner =>
    exact .inl ⟨_, _, rfl, inner, rfl⟩
  | starts =>
    refine .inr ⟨rfl, ?_, .inl rfl⟩
    intro here hp
    cases hp
  | @returns k x back | @contains k x back =>
    refine .inr ⟨(s.attend_same x).1, ?_, .inl rfl⟩
    intro here hp
    cases hp
  | @panics k x back =>
    refine .inr ⟨(s.attend_same x).1, ?_, .inr ⟨k, x, back, rfl, rfl⟩⟩
    intro here hp
    cases hp

/-- A call goes on within itself or where it stood. -/
theorem Does.back_eq (does : Does s p s' (.goto p')) :
    (∃ here action, p = .routine here ∧ Site.Does s.site here s'.site action ∧
      action.next? = some p'.back) ∨
    (s'.site.completion = s.site.completion ∧ p'.back = p.back) := by
  rcases does.site with ⟨here, action, hp, inner, next⟩ | ⟨same, -, next | ⟨_, _, _, _, h⟩⟩
  · exact .inl ⟨here, action, hp, inner, next.symm⟩
  · exact .inr ⟨same, Option.some.inj next⟩
  · cases h

/-- Only the call of an item panics. -/
theorem Does.of_panicked {x : Player} (does : Does s p s' (.done (.panicked x))) :
    ∃ k back, p = .inside k x back := by
  cases does with
  | panics => exact ⟨_, _, rfl⟩

/-- Only a thread that holds an item begins a call. -/
theorem Does.started_eq (does : Does s p s' n) (k : Kind) :
    ∃ new, s'.started k = s.started k ++ new ∧
      (new = [] ∨ ∃ x arg back, p = .holding k x arg back) := by
  cases does with
  | goes | answers | refuses => exact ⟨[], (List.append_nil _).symm, .inl rfl⟩
  | @notices here site n p inner =>
    exact ⟨_, started_record .., .inl (by cases n <;> rfl)⟩
  | takes => exact ⟨_, started_record .., .inl rfl⟩
  | @starts k' x arg back =>
    refine ⟨_, started_record .., ?_⟩
    by_cases hk : k' = k
    · subst hk
      exact .inr ⟨x, arg, back, rfl⟩
    · exact .inl (if_neg hk)
  | @returns k' x back | @contains k' x back | @panics k' x back =>
    refine ⟨[], ?_, .inl rfl⟩
    rw [started_record, ((s.attend_same x).2.1 k).2]
    rfl

/-- Only a thread that appends an item registers it. -/
theorem Does.registered_eq (does : Does s p s' n) (k : Kind) :
    ∃ new, s'.registered k = s.registered k ++ new ∧
      ∀ x ∈ new, ∃ here, p = .routine here ∧ here.inner? = some (.append k x) := by
  cases does with
  | goes | answers | refuses => exact ⟨[], (List.append_nil _).symm, nofun⟩
  | @notices here site n p inner =>
    refine ⟨_, registered_record .., ?_⟩
    intro x hx
    have hx' : x ∈ (Action.notice n p : Action α Player _ (Site.Answer α)).registered k := by
      cases n <;> exact hx
    exact ⟨here, rfl, inner.of_registered hx'⟩
  | takes | starts => exact ⟨_, registered_record .., nofun⟩
  | @returns k' x back | @contains k' x back | @panics k' x back =>
    refine ⟨[], ?_, nofun⟩
    rw [registered_record, ((s.attend_same x).2.1 k).1]
    rfl

/-- A settled cell stays as it is. -/
theorem Does.cell_eq (does : Does s p s' n) (stands : Stands s p) {side : Side}
    (hs : s.cell.state = .settled side) : s'.cell = s.cell := by
  rcases does.site with ⟨here, action, rfl, inner, -⟩ | ⟨same, -⟩
  · exact inner.cell_eq stands.fits hs
  · rw [cell, cell, same]

theorem Does.not_pending (does : Does s p s' n) (h : s.cell.state ≠ .pending) :
    s'.cell.state ≠ .pending := by
  rcases does.site with ⟨here, action, rfl, inner, -⟩ | ⟨same, -⟩
  · exact inner.not_pending h
  · rwa [cell, same]

theorem registers_of_serves {here : Site.Point α Player Nat} {call : Call α} {k : Kind}
    {x : Player} (h : here.Serves call) (hx : here.inner? = some (.append k x)) :
    Registers k x call := by
  cases here with
  | direct here =>
    cases hx
    cases call with
    | direct call =>
      cases call with
      | register k' x' => exact ⟨h.1.symm, h.2.symm⟩
      | tryCommit o | complete o | drain s => exact h.elim
    | poll p => exact h.elim
  | registering p here =>
    cases hx
    cases call with
    | direct call => exact h.elim
    | poll p' =>
      obtain ⟨rfl, rfl, rfl⟩ := h
      exact ⟨rfl, rfl⟩
  | look | store | subscribe | lookAgain => cases hx

theorem Does.orderly (does : Does s p s' n) (h : Orderly only s) (stands : Stands s p)
    {call : Call α} (serves : p.back.Serves call) (admits : ∀ k x, Registers k x call → only k x) :
    Orderly only s' := by
  constructor
  · rcases does.site with ⟨here, action, rfl, inner, -⟩ | ⟨same, -⟩
    · exact inner.atRest h.atRest
    · rw [same]
      exact h.atRest
  · rcases does.site with ⟨here, action, rfl, inner, -⟩ | ⟨same, -⟩
    · exact inner.sound stands.fits h.cell
    · rw [cell, same]
      exact h.cell
  · intro k hk
    have settled : ∃ side, s.cell.state = .settled side ∧ k ≠ .on side.other := by
      obtain ⟨new, hnew, rfl | ⟨x, arg, back, rfl⟩⟩ := does.started_eq k
      · rw [hnew, List.append_nil] at hk
        exact h.settled k hk
      · exact stands.2.2
    obtain ⟨side, hs, hside⟩ := settled
    exact ⟨side, by rw [does.cell_eq stands hs, hs], hside⟩
  · intro k x hx
    obtain ⟨new, hnew, appends⟩ := does.registered_eq k
    rw [hnew] at hx
    rcases List.mem_append.1 hx with old | new
    · exact h.registered k x old
    · obtain ⟨here, rfl, hinner⟩ := appends x new
      exact admits k x (registers_of_serves serves hinner)

theorem Does.mem_started (does : Does s p s' n) {k : Kind} {x : Player} (hx : x ∈ s.started k) :
    x ∈ s'.started k := by
  obtain ⟨new, hnew, -⟩ := does.started_eq k
  rw [hnew]
  exact List.mem_append_left _ hx

theorem Does.stands_next (does : Does s p s' (.goto p')) (h : Orderly only s)
    (stands : Stands s p) : Stands s' p' := by
  cases does with
  | goes inner | notices inner => exact inner.fits stands.fits h.cell rfl
  | takes inner =>
    obtain ⟨side, hs, hside, sweeps⟩ := inner.of_call stands.fits
    have same := inner.cell_eq stands.fits hs
    refine ⟨inner.fits stands.fits h.cell rfl, sweeps, side, ?_, hside⟩
    exact (congrArg Cell.state same).trans hs
  | starts =>
    refine ⟨stands.1, stands.2.1, stands.2.2, ?_⟩
    rw [started_record]
    simp [Moment.starts]
  | @returns k x back | @contains k x back =>
    have same := (s.attend_same x).1
    unfold Stands cell
    rw [site_record, same]
    exact stands.1

/-- A step of one thread spoils nothing for another. -/
theorem Stands.spared (hq : Stands s q) (does : Does s p s' n) (stands : Stands s p)
    (apart : ¬ (p.back.Claims ∧ q.back.Claims)) : Stands s' q := by
  have fits : q.back.Fits s'.cell := by
    rcases does.site with ⟨here, action, rfl, inner, -⟩ | ⟨same, -⟩
    · exact hq.fits.spared inner stands.fits apart
    · rw [cell, same]
      exact hq.fits
  cases q with
  | routine here => exact fits
  | holding k x arg back =>
    obtain ⟨-, sweeps, side, hs, hside⟩ := hq
    exact ⟨fits, sweeps, side, by rw [does.cell_eq stands hs, hs], hside⟩
  | inside k x back =>
    obtain ⟨-, sweeps, ⟨side, hs, hside⟩, started⟩ := hq
    exact ⟨fits, sweeps, ⟨side, by rw [does.cell_eq stands hs, hs], hside⟩,
      does.mem_started started⟩

theorem Does.stays_apart (does : Does s p s' (.goto p')) (hq : Stands s q)
    (apart : ¬ (p.back.Claims ∧ q.back.Claims)) : ¬ (p'.back.Claims ∧ q.back.Claims) := by
  rcases does.back_eq with ⟨here, action, rfl, inner, next⟩ | ⟨-, next⟩
  · exact inner.stays_apart hq.fits apart next
  · rwa [next]

theorem Does.serves (does : Does s p s' (.goto p')) {call : Call α} (h : p.back.Serves call) :
    p'.back.Serves call := by
  rcases does.back_eq with ⟨here, action, rfl, inner, next⟩ | ⟨-, next⟩
  · exact inner.serves h next
  · rwa [next]

/-- A call that completes is in its commit or has left the cell taken. -/
def Committed (s : Stage α) (call : Call α) (p : Point α) : Prop :=
  ∀ o, call = .direct (.complete o) →
    (∃ here, p.back = .direct here ∧ here.Commits) ∨ s.cell.state ≠ .pending

/-- What is known of an answer. -/
structure Answered (s : Stage α) (call : Call α) (a : Answer α) : Prop where
  committed : ∀ o, call = .direct (.complete o) → s.cell.state ≠ .pending
  /-- A poll that is ready has the outcome on which the cell is settled. -/
  ready : ∀ o, a = .returned (.ready o) →
    s.cell.state = .settled o.side ∧ s.cell.stored = some o
  direct : ∀ d, a = .returned (.direct d) → ∃ c, call = .direct c
  panicked : ∀ x, a = .panicked x → x.conduct = .panics ∧ ∃ k, x ∈ s.started k
  refused : ∀ side st, a ≠ .refused side st

theorem Does.committed {call : Call α} (does : Does s p s' (.goto p')) (h : Committed s call p) :
    Committed s' call p' := by
  intro o ho
  rcases h o ho with ⟨here, hback, commits⟩ | taken
  · rcases does.back_eq with ⟨here', action, rfl, inner, next⟩ | ⟨-, next⟩
    · obtain rfl : here' = .direct here := hback
      rcases inner.of_commits commits with ⟨here'', hnext, commits'⟩ | taken
      · exact .inl ⟨here'', Option.some.inj (next.symm.trans hnext), commits'⟩
      · exact .inr taken
    · exact .inl ⟨here, next.trans hback, commits⟩
  · exact .inr (does.not_pending taken)

theorem Does.answered {a : Answer α} {call : Call α} (does : Does s p s' (.done a))
    (h : Orderly only s) (stands : Stands s p) (serves : p.back.Serves call)
    (committed : Committed s call p) : Answered s' call a := by
  have taken : ∀ o, call = .direct (.complete o) → s'.cell.state ≠ .pending := by
    intro o ho
    rcases committed o ho with ⟨here, hback, commits⟩ | taken
    · cases does with
      | answers inner | refuses inner =>
        obtain rfl : _ = Site.Point.direct here := hback
        rcases inner.of_commits commits with ⟨here', hnext, -⟩ | taken
        · cases hnext
        · exact taken
      | @panics k x back =>
        obtain ⟨-, -, ⟨side, hs, -⟩, -⟩ := stands
        rw [cell, site_record, (s.attend_same x).1]
        rw [show s.site.completion.cell.state = _ from hs]
        exact nofun
    · exact does.not_pending taken
  cases does with
  | @answers here site a inner =>
    refine ⟨taken, ?_, ?_, nofun, nofun⟩
    · intro o ho
      obtain rfl : a = .ready o := Answer.returned.inj ho
      obtain ⟨rfl, hresult⟩ := inner.of_ready
      exact h.cell.of_result hresult
    · intro d hd
      obtain rfl : a = .direct d := Answer.returned.inj hd
      obtain ⟨here', rfl⟩ := inner.of_direct
      cases call with
      | direct c => exact ⟨c, rfl⟩
      | poll p => exact serves.elim
  | @refuses here site side st inner =>
    exact absurd rfl (inner.not_refused stands.fits h.cell side st)
  | @panics k x back conduct =>
    refine ⟨taken, nofun, nofun, ?_, nofun⟩
    intro y hy
    obtain rfl : x = y := Answer.panicked.inj hy
    refine ⟨conduct, k, ?_⟩
    rw [started_record, ((s.attend_same x).2.1 k).2]
    exact List.mem_append_left _ stands.2.2.2

theorem Answered.spared {a : Answer α} {call : Call α} (h : Answered s call a)
    (does : Does s p s' n) (stands : Stands s p) : Answered s' call a := by
  refine ⟨fun o ho => does.not_pending (h.committed o ho), ?_, h.direct, ?_, h.refused⟩
  · intro o ho
    obtain ⟨hs, hstored⟩ := h.ready o ho
    rw [does.cell_eq stands hs]
    exact ⟨hs, hstored⟩
  · intro x hx
    obtain ⟨conduct, k, hk⟩ := h.panicked x hx
    exact ⟨conduct, k, does.mem_started hk⟩

end Effects

/-- Every thread stands as it should, in a call to which its point belongs and which
registers only what may be registered, and no two threads have claimed the cell. -/
def outline (only : Kind → Player → Prop) : Outline (rules (α := α)) where
  admits call := ∀ k x, Registers k x call → only k x
  shared := Orderly only
  stands s call p := Stands s p ∧ p.back.Serves call ∧ Committed s call p ∧
    ∀ k x, Registers k x call → only k x
  apart p q := ¬ (p.back.Claims ∧ q.back.Claims)
  answered := Answered
  apart_symm h both := h ⟨both.2, both.1⟩
  begins {s call} _ admits := by
    refine ⟨call.start_fits _, call.start_serves, ?_, admits⟩
    rintro o rfl
    exact .inl ⟨_, rfl, _, _, _, rfl⟩
  begins_apart {call} _ _ both := call.not_claims_start both.1
  keeps h stands := (step_does _ _).orderly h stands.1 stands.2.1 stands.2.2.2
  goes {s call p p'} h stands hgo := by
    have does : Does s p (step s p).1 (.goto p') := hgo ▸ step_does s p
    exact ⟨does.stands_next h stands.1, does.serves stands.2.1, does.committed stands.2.2.1,
      stands.2.2.2⟩
  answers {s call p a} h stands hdone := by
    have does : Does s p (step s p).1 (.done a) := hdone ▸ step_does s p
    exact does.answered h stands.1 stands.2.1 stands.2.2.1
  spares {s call p call' q} _ stands stands' apart := by
    have does := step_does s p
    refine ⟨stands'.1.spared does stands.1 apart, stands'.2.1, ?_, stands'.2.2.2⟩
    intro o ho
    rcases stands'.2.2.1 o ho with commits | taken
    · exact .inl commits
    · exact .inr (does.not_pending taken)
  stays_apart {s call p call' p' q} _ _ stands' apart hgo := by
    have does : Does s p (step s p).1 (.goto p') := hgo ▸ step_does s p
    exact does.stays_apart stands'.1 apart
  spares_answers {s call p call' a} _ stands answered :=
    answered.spared (step_does s p) stands.1

end Stage

end Eventual
