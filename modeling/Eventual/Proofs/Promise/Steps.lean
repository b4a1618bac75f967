import Eventual.Promise.Polling
import Eventual.Proofs.Completion.Steps

/-!
# One step of a call on a promise

A call is either a call on the completion itself or a poll, which makes such a call
when it registers its relay. So a step is a step of a call on the completion or
leaves the completion alone, and what is known of the steps of those calls carries
over: `Does.inner_or_idle` says so, and the rest follows from it.
-/

namespace Eventual.Site

variable {α ι τ : Type}

/-- What a step of a call does: the access by which it leaves its point, the
completion and the watches afterwards, and the action. -/
inductive Does (s : Site α ι τ) :
    Point α ι τ → Site α ι τ → Action α ι (Point α ι τ) (Answer α) → Prop
  | direct {here c a} : Completion.Does s.completion here c a →
      Does s (.direct here) { s with completion := c } (a.map .direct .direct)
  | ready {p o} : s.completion.cell.result = some o → Does s (.look p) s (.done (.ready o))
  | unready {p} : s.completion.cell.result = none → Does s (.look p) s (.goto (.store p))
  | store {p} :
      Does s (.store p) (s.updateWatch p.watch fun w => { w with stored := some p.waker })
        (.goto (.subscribe p))
  | subscribed {p} : (s.watch p.watch).subscribed = true →
      Does s (.subscribe p) s (.goto (.lookAgain p))
  | subscribe {p} : (s.watch p.watch).subscribed = false →
      Does s (.subscribe p) (s.updateWatch p.watch fun w => { w with subscribed := true })
        (.goto (.registering p (.append .waker p.relay)))
  | registering {p here c a} : Completion.Does s.completion here c a →
      (∀ answer, a ≠ .done answer) →
      Does s (.registering p here) { s with completion := c } (a.map (.registering p) .direct)
  | registered {p here c answer} : Completion.Does s.completion here c (.done answer) →
      Does s (.registering p here) { s with completion := c } (.goto (.lookAgain p))
  | readyAgain {p o} : s.completion.cell.result = some o →
      Does s (.lookAgain p) s (.done (.ready o))
  | pending {p} : s.completion.cell.result = none → Does s (.lookAgain p) s (.done .pending)

theorem step_does (s : Site α ι τ) (p : Point α ι τ) : Does s p (s.step p).1 (s.step p).2 := by
  cases p with
  | direct here => exact .direct (Completion.step_does s.completion here)
  | look p =>
    cases h : s.completion.cell.result with
    | some o => simpa only [step, h] using Does.ready h
    | none => simpa only [step, h] using Does.unready h
  | store p => exact .store
  | subscribe p =>
    cases h : (s.watch p.watch).subscribed with
    | true => simpa [step, h] using Does.subscribed h
    | false => simpa [step, h, Completion.Call.start] using Does.subscribe h
  | registering p here =>
    have does := Completion.step_does s.completion here
    rcases h : s.completion.step here with ⟨c, a⟩
    rw [h] at does
    cases a with
    | done answer => simpa only [step, h] using Does.registered does
    | goto _ | notice _ _ | call _ _ _ _ | refused _ _ =>
      simpa only [step, h] using Does.registering does nofun
  | lookAgain p =>
    cases h : s.completion.cell.result with
    | some o => simpa only [step, h] using Does.readyAgain h
    | none => simpa only [step, h] using Does.pending h

/-- Where a call stands in a call on the completion, if it is in one. -/
def Point.inner? : Point α ι τ → Option (Completion.Point α ι)
  | .direct here | .registering _ here => some here
  | .look _ | .store _ | .subscribe _ | .lookAgain _ => none

/-- A commit has claimed the cell and not yet published its outcome. -/
def Point.Claims (p : Point α ι τ) : Prop := ∃ here, p.inner? = some here ∧ here.Claims

/-- A drain calls items. -/
def Point.Sweeps (p : Point α ι τ) : Prop := ∃ here, p.inner? = some here ∧ here.Sweeps

theorem Point.Sweeps.not_claims {p : Point α ι τ} (h : p.Sweeps) : ¬ p.Claims := by
  obtain ⟨here, hhere, sweeps⟩ := h
  rintro ⟨here', hhere', claims⟩
  obtain rfl : here = here' := Option.some.inj (hhere.symm.trans hhere')
  exact sweeps.not_claims claims

/-- What the code has seen or made of the cell on its way to the point. -/
def Point.Fits (cell : Cell α) (p : Point α ι τ) : Prop :=
  ∀ here, p.inner? = some here → here.Fits cell

theorem Point.Fits.of_unsettled {cell : Cell α} {p : Point α ι τ} (h : p.Fits cell)
    (claims : ¬ p.Claims) (unsettled : ∀ s, cell.state ≠ .settled s) (cell' : Cell α) :
    p.Fits cell' :=
  fun here hhere =>
    (h here hhere).of_unsettled (fun claims' => claims ⟨here, hhere, claims'⟩) unsettled cell'

theorem Call.start_fits (call : Call α ι τ) (cell : Cell α) : call.start.Fits cell := by
  cases call with
  | direct call =>
    intro here hhere
    cases hhere
    exact call.start_fits cell
  | poll p => exact nofun

theorem Call.not_claims_start (call : Call α ι τ) : ¬ call.start.Claims := by
  rintro ⟨here, hhere, claims⟩
  cases call with
  | direct call =>
    cases hhere
    exact call.not_claims_start claims
  | poll p => cases hhere

/-- The action of a call has the effect of an action of the call on the completion
that it is in, and leads to where that one leads. -/
structure Echoes (a : Action α ι (Point α ι τ) (Answer α))
    (a' : Action α ι (Completion.Point α ι) (Completion.Answer α)) : Prop where
  called : ∀ k, a.called k = a'.called k
  registered : ∀ k, a.registered k = a'.registered k
  next : ∀ p, a.next? = some p → ∀ here, p.inner? = some here → a'.next? = some here
  onward : ∀ here, a'.next? = some here → ∃ p, a.next? = some p ∧ p.inner? = some here
  call : ∀ {k x arg p}, a = .call k x arg p →
    ∃ here, p.inner? = some here ∧ a' = .call k x arg here
  refused : ∀ {side st}, a = .refused side st → a' = .refused side st

theorem Echoes.of_map {f : Completion.Point α ι → Point α ι τ}
    (hf : ∀ here, (f here).inner? = some here) (g : Completion.Answer α → Answer α)
    (a' : Action α ι (Completion.Point α ι) (Completion.Answer α)) : Echoes (a'.map f g) a' := by
  refine ⟨by simp, by simp, ?_, ?_, ?_, ?_⟩
  · intro p hp here hhere
    rw [Action.next?_map] at hp
    obtain ⟨here', hnext, rfl⟩ := Option.map_eq_some_iff.1 hp
    obtain rfl : here' = here := Option.some.inj ((hf here').symm.trans hhere)
    exact hnext
  · intro here hnext
    exact ⟨f here, by rw [Action.next?_map, hnext]; rfl, hf here⟩
  · intro k x arg p h
    cases a' <;> cases h
    exact ⟨_, hf _, rfl⟩
  · intro side st h
    cases a' <;> cases h
    rfl

section Effects

variable {s s' : Site α ι τ} {p q p' : Point α ι τ} {a : Action α ι (Point α ι τ) (Answer α)}

/-- A step is a step of a call on the completion, or it leaves the completion alone
and leads at most to the beginning of a registration. -/
theorem Does.inner_or_idle (does : Does s p s' a) :
    (∃ here a', p.inner? = some here ∧ Completion.Does s.completion here s'.completion a' ∧
      Echoes a a') ∨
    (s'.completion = s.completion ∧ p.inner? = none ∧ ((∃ answer, a = .done answer) ∨
      ∃ p', a = .goto p' ∧ ∀ here, p'.inner? = some here → ∃ k x, here = .append k x)) := by
  cases does with
  | direct inner => exact .inl ⟨_, _, rfl, inner, .of_map (fun _ => rfl) _ _⟩
  | registering inner => exact .inl ⟨_, _, rfl, inner, .of_map (fun _ => rfl) _ _⟩
  | registered inner =>
    refine .inl ⟨_, _, rfl, inner, fun k => rfl, fun k => rfl, ?_, nofun, nofun, nofun⟩
    intro p hp here hhere
    cases hp
    cases hhere
  | subscribe =>
    refine .inr ⟨rfl, rfl, .inr ⟨_, rfl, ?_⟩⟩
    intro here hhere
    cases hhere
    exact ⟨_, _, rfl⟩
  | ready | readyAgain | pending => exact .inr ⟨rfl, rfl, .inl ⟨_, rfl⟩⟩
  | unready | store | subscribed => exact .inr ⟨rfl, rfl, .inr ⟨_, rfl, nofun⟩⟩

theorem Does.atRest (does : Does s p s' a) (h : s.completion.AtRest) : s'.completion.AtRest := by
  rcases does.inner_or_idle with ⟨here, a', -, inner, -⟩ | ⟨same, -⟩
  · exact inner.atRest h
  · rwa [same]

/-- A step takes what it calls from the front and puts what it registers at the back. -/
theorem Does.waiting_eq (does : Does s p s' a) (h : s.completion.AtRest) (k : Kind) :
    a.called k ++ s'.completion.waiting k = s.completion.waiting k ++ a.registered k := by
  rcases does.inner_or_idle with ⟨here, a', -, inner, echoes⟩ | ⟨same, -, ⟨_, rfl⟩ | ⟨_, rfl, -⟩⟩
  · rw [echoes.called, echoes.registered]
    exact inner.waiting_eq h k
  all_goals simp [Action.called, Action.registered, same]

/-- A settled cell stays as it is. -/
theorem Does.cell_eq (does : Does s p s' a) (fits : p.Fits s.completion.cell) {side : Side}
    (hs : s.completion.cell.state = .settled side) : s'.completion.cell = s.completion.cell := by
  rcases does.inner_or_idle with ⟨here, a', hp, inner, -⟩ | ⟨same, -⟩
  · exact inner.cell_eq (fits here hp) hs
  · rw [same]

/-- A cell that is pending after a step is as it was. -/
theorem Does.cell_eq_of_pending (does : Does s p s' a) (fits : p.Fits s.completion.cell)
    (h : s'.completion.cell.state = .pending) : s'.completion.cell = s.completion.cell := by
  obtain ⟨here, a', hp, inner, -⟩ | ⟨same, -⟩ := does.inner_or_idle
  · exact inner.cell_eq_of_pending (fits here hp) h
  · rw [same]

/-- A reader finds an outcome from the step on that gives notice of it. -/
theorem Does.result_eq (does : Does s p s' a) (fits : p.Fits s.completion.cell) :
    s'.completion.cell.result.toList = s.completion.cell.result.toList ++ a.settled := by
  cases does with
  | direct inner | registering inner =>
    rw [Action.settled_map]
    exact inner.result_eq (fits _ rfl)
  | registered inner => exact inner.result_eq (fits _ rfl)
  | _ => exact (List.append_nil _).symm

theorem Does.sound (does : Does s p s' a) (fits : p.Fits s.completion.cell)
    (h : s.completion.cell.Sound) : s'.completion.cell.Sound := by
  rcases does.inner_or_idle with ⟨here, a', hp, inner, -⟩ | ⟨same, -⟩
  · exact inner.sound (fits here hp) h
  · rwa [same]

/-- A step that does not come from a call on the completion leads at most to the
beginning of one. -/
theorem begins_of_next {a : Action α ι (Point α ι τ) (Answer α)}
    (h : (∃ answer, a = .done answer) ∨
      ∃ p', a = .goto p' ∧ ∀ here, p'.inner? = some here → ∃ k x, here = .append k x)
    (hp' : a.next? = some p') {here : Completion.Point α ι} (hhere : p'.inner? = some here) :
    ∃ k x, here = .append k x := by
  rcases h with ⟨_, rfl⟩ | ⟨_, rfl, begins⟩
  · cases hp'
  · cases hp'
    exact begins here hhere

/-- The point to which a step leads fits the cell that it leaves behind. -/
theorem Does.fits (does : Does s p s' a) (fits : p.Fits s.completion.cell)
    (h : s.completion.cell.Sound) (hp' : a.next? = some p') : p'.Fits s'.completion.cell := by
  intro here' hhere'
  rcases does.inner_or_idle with ⟨here, a', hp, inner, echoes⟩ | ⟨-, -, begins⟩
  · exact inner.fits (fits here hp) h (echoes.next p' hp' here' hhere')
  · obtain ⟨k, x, rfl⟩ := begins_of_next begins hp' hhere'
    trivial

/-- A step spoils the point of another thread only if both have claimed the cell. -/
theorem Point.Fits.spared (hq : q.Fits s.completion.cell) (does : Does s p s' a)
    (fits : p.Fits s.completion.cell) (apart : ¬ (p.Claims ∧ q.Claims)) :
    q.Fits s'.completion.cell := by
  rcases does.inner_or_idle with ⟨here, a', hp, inner, -⟩ | ⟨same, -⟩
  · intro there hthere
    exact (hq there hthere).spared inner (fits here hp) fun claims =>
      apart ⟨⟨here, hp, claims.1⟩, ⟨there, hthere, claims.2⟩⟩
  · rwa [same]

theorem Point.Fits.committing {cell : Cell α} (h : p.Fits cell) (claims : p.Claims) :
    cell.state = .committing := by
  obtain ⟨here, hhere, claims⟩ := claims
  exact (h here hhere).committing claims

/-- A commit claims a pending cell only. -/
theorem Does.claims (does : Does s p s' a) (hp' : a.next? = some p') (claims : p'.Claims) :
    p.Claims ∨ s.completion.cell.state = .pending := by
  obtain ⟨here', hhere', claims⟩ := claims
  rcases does.inner_or_idle with ⟨here, a', hp, inner, echoes⟩ | ⟨-, -, begins⟩
  · rcases inner.claims (echoes.next p' hp' here' hhere') claims with before | pending
    · exact .inl ⟨here, hp, before⟩
    · exact .inr pending
  · obtain ⟨k, x, rfl⟩ := begins_of_next begins hp' hhere'
    exact claims.elim

/-- A step does not claim the cell while another thread has it. -/
theorem Does.stays_apart (does : Does s p s' a) (hq : q.Fits s.completion.cell)
    (apart : ¬ (p.Claims ∧ q.Claims)) (hp' : a.next? = some p') : ¬ (p'.Claims ∧ q.Claims) := by
  rintro ⟨claims', claims⟩
  rcases does.claims hp' claims' with before | pending
  · exact apart ⟨before, claims⟩
  · cases pending.symm.trans (hq.committing claims)

/-- A demand that follows a look which found the side there is not refused. -/
theorem Does.not_refused (does : Does s p s' a) (fits : p.Fits s.completion.cell)
    (h : s.completion.cell.Sound) (side : Side) (st : Cell.State) : a ≠ .refused side st := by
  rcases does.inner_or_idle with ⟨here, a', hp, inner, echoes⟩ | ⟨-, -, ⟨_, rfl⟩ | ⟨_, rfl, -⟩⟩
  · exact fun ha => inner.not_refused (fits here hp) h side st (echoes.refused ha)
  all_goals exact nofun

/-- Whatever is called is called by a drain, which has seen the cell settle on a side
and calls only what waits for that side or for either. -/
theorem Does.of_call {k : Kind} {x : ι} {arg : Option α} (does : Does s p s' (.call k x arg p'))
    (fits : p.Fits s.completion.cell) :
    ∃ side, s.completion.cell.state = .settled side ∧ k ≠ .on side.other ∧ p'.Sweeps := by
  rcases does.inner_or_idle with ⟨here, a', hp, inner, echoes⟩ | ⟨-, -, ⟨_, h⟩ | ⟨_, h, -⟩⟩
  · obtain ⟨here', hhere', rfl⟩ := echoes.call rfl
    obtain ⟨side, hs, hk, sweeps⟩ := inner.of_call (fits here hp)
    exact ⟨side, hs, hk, here', hhere', sweeps⟩
  · cases h
  · cases h

/-- Whatever is called is given what its kind is given of the outcome that readers find. -/
theorem Does.of_argument {k : Kind} {x : ι} {arg : Option α}
    (does : Does s p s' (.call k x arg p')) (fits : p.Fits s.completion.cell) :
    ∃ o, s.completion.cell.result = some o ∧ k ≠ .on o.side.other ∧ arg = k.argument o.value := by
  obtain ⟨here, a', hp, inner, echoes⟩ | ⟨-, -, ⟨_, h⟩ | ⟨_, h, -⟩⟩ := does.inner_or_idle
  · obtain ⟨here', -, rfl⟩ := echoes.call rfl
    exact inner.of_argument (fits here hp)
  · cases h
  · cases h

end Effects

/-! ## Which call a point belongs to -/

/-- The points of a call. The registration of a poll registers its relay. -/
def Point.Serves : Point α ι τ → Call α ι τ → Prop
  | .direct here, .direct call => here.Serves call
  | .look p, .poll p' | .store p, .poll p' | .subscribe p, .poll p' | .lookAgain p, .poll p' =>
    p = p'
  | .registering p here, .poll p' => p = p' ∧ here.Serves (.register .waker p.relay)
  | _, _ => False

theorem Call.start_serves (call : Call α ι τ) : call.start.Serves call := by
  cases call with
  | direct call => exact call.start_serves
  | poll p => exact rfl

section Effects

variable {s s' : Site α ι τ} {p p' : Point α ι τ} {a : Action α ι (Point α ι τ) (Answer α)}

theorem Does.serves (does : Does s p s' a) {call : Call α ι τ} (h : p.Serves call)
    (hp : a.next? = some p') : p'.Serves call := by
  cases does with
  | direct inner =>
    rw [Action.next?_map] at hp
    obtain ⟨here', hnext, rfl⟩ := Option.map_eq_some_iff.1 hp
    cases call with
    | direct call => exact inner.serves h hnext
    | poll p => exact h.elim
  | registering inner =>
    rw [Action.next?_map] at hp
    obtain ⟨here', hnext, rfl⟩ := Option.map_eq_some_iff.1 hp
    cases call with
    | direct call => exact h.elim
    | poll p => exact ⟨h.1, inner.serves h.2 hnext⟩
  | registered =>
    cases hp
    cases call with
    | direct call => exact h.elim
    | poll p => exact h.1
  | subscribe =>
    cases hp
    cases call with
    | direct call => exact h.elim
    | poll p => exact ⟨h, rfl, rfl⟩
  | unready | store | subscribed =>
    cases hp
    cases call with
    | direct call => exact h.elim
    | poll p => exact h
  | ready | readyAgain | pending => cases hp

/-- Only an append registers. -/
theorem Does.of_registered (does : Does s p s' a) {k : Kind} {x : ι} (h : x ∈ a.registered k) :
    p.inner? = some (.append k x) := by
  rcases does.inner_or_idle with ⟨here, a', hp, inner, echoes⟩ | ⟨-, -, ⟨_, rfl⟩ | ⟨_, rfl, -⟩⟩
  · rw [echoes.registered] at h
    rw [hp, inner.of_registered h]
  all_goals simp [Action.registered] at h

/-- A cell that is no longer pending does not become so again. -/
theorem Does.not_pending (does : Does s p s' a) (h : s.completion.cell.state ≠ .pending) :
    s'.completion.cell.state ≠ .pending := by
  rcases does.inner_or_idle with ⟨here, a', hp, inner, -⟩ | ⟨same, -⟩
  · exact inner.not_pending h
  · rwa [same]

/-- A commit ends when the cell is taken, by itself or by another. -/
theorem Does.of_commits {here : Completion.Point α ι} (does : Does s (.direct here) s' a)
    (h : here.Commits) :
    (∃ here', a.next? = some (.direct here') ∧ here'.Commits) ∨
      s'.completion.cell.state ≠ .pending := by
  cases does with
  | direct inner =>
    rcases inner.of_commits h with ⟨here', hnext, commits⟩ | taken
    · exact .inl ⟨here', by rw [Action.next?_map, hnext]; rfl, commits⟩
    · exact .inr taken

/-- A poll is ready with what it has read from the cell. -/
theorem Does.of_ready {o : Outcome α} (does : Does s p s' (.done (.ready o))) :
    s' = s ∧ s.completion.cell.result = some o := by
  generalize ha : (Action.done (.ready o) : Action α ι (Point α ι τ) (Answer α)) = a at does
  cases does with
  | @direct here c a' inner => cases a' <;> cases ha
  | @registering p here c a' inner ne => cases a' <;> cases ha
  | ready h | readyAgain h =>
    cases ha
    exact ⟨rfl, h⟩
  | _ => cases ha

/-- What a poll answers when a reader finds so much. -/
def Answer.polled : Option (Outcome α) → Answer α
  | some o => .ready o
  | none => .pending

/-- A poll answers what a reader finds. -/
theorem Does.of_poll {poll : Poll ι τ} {answer : Answer α} (does : Does s p s' (.done answer))
    (h : p.Serves (.poll poll)) : s' = s ∧ answer = .polled s.completion.cell.result := by
  generalize ha : (Action.done answer : Action α ι (Point α ι τ) (Answer α)) = a at does
  cases does with
  | direct inner => exact h.elim
  | @registering p here c a' inner ne =>
    cases a' with
    | done answer' => exact absurd rfl (ne answer')
    | _ => cases ha
  | ready found | readyAgain found | pending found =>
    cases ha
    exact ⟨rfl, by rw [found]; rfl⟩
  | _ => cases ha

/-- Only calls on the completion itself answer as such. -/
theorem Does.of_direct {d : Completion.Answer α} (does : Does s p s' (.done (.direct d))) :
    ∃ here, p = .direct here := by
  generalize ha : (Action.done (.direct d) : Action α ι (Point α ι τ) (Answer α)) = a at does
  cases does with
  | @direct here c a' inner => exact ⟨here, rfl⟩
  | @registering p here c a' inner ne =>
    cases a' with
    | done answer => exact absurd rfl (ne answer)
    | _ => cases ha
  | _ => cases ha

end Effects

/-! ## What a call registers -/

/-- What a call on the completion itself registers of a kind. What a poll registers depends
on its watch. -/
def Call.registers (k : Kind) : Call α ι τ → List ι
  | .direct call => call.registers k
  | .poll _ => []

/-- What a call at the point is about to register of a kind. -/
def Point.brings (k : Kind) (p : Point α ι τ) : List ι :=
  (p.inner?.map (Completion.Point.brings k)).getD []

theorem Call.brings_start (call : Call α ι τ) (k : Kind) :
    call.start.brings k = call.registers k := by
  cases call with
  | direct call => exact call.brings_start k
  | poll p => rfl

/-- Who calls items has nothing left to register. -/
theorem Point.Sweeps.brings {p : Point α ι τ} (h : p.Sweeps) (k : Kind) : p.brings k = [] := by
  obtain ⟨here, hhere, sweeps⟩ := h
  unfold Point.brings
  rw [hhere, Option.map_some, Option.getD_some]
  cases here with
  | sweep => rfl
  | _ => exact sweeps.elim

section Effects

variable {s s' : Site α ι τ} {p p' : Point α ι τ} {a : Action α ι (Point α ι τ) (Answer α)}

/-- What a call is about to register it gives notice of at once. -/
theorem Does.brings (does : Does s p s' a) (k : Kind) : a.registered k = p.brings k := by
  unfold Point.brings
  obtain ⟨here, a', hp, inner, echoes⟩ | ⟨-, hp, idle⟩ := does.inner_or_idle
  · rw [echoes.registered, inner.brings, hp, Option.map_some, Option.getD_some]
  · rw [hp]
    obtain ⟨answer, rfl⟩ | ⟨next, rfl, -⟩ := idle
    · rfl
    · rfl

/-- A call registers with its first step, and a poll when it subscribes. -/
theorem Does.brings_next (does : Does s p s' a) (next : a.next? = some p') :
    (∀ k, p'.brings k = []) ∨
      ∃ poll, p = .subscribe poll ∧ (s.watch poll.watch).subscribed = false ∧
        p' = .registering poll (.append .waker poll.relay) := by
  cases does with
  | direct inner =>
    rw [Action.next?_map] at next
    obtain ⟨here', hnext, rfl⟩ := Option.map_eq_some_iff.1 next
    exact .inl fun k => inner.brings_next hnext k
  | registering inner =>
    rw [Action.next?_map] at next
    obtain ⟨here', hnext, rfl⟩ := Option.map_eq_some_iff.1 next
    exact .inl fun k => inner.brings_next hnext k
  | @subscribe poll unsubscribed =>
    cases next
    exact .inr ⟨poll, rfl, unsubscribed, rfl⟩
  | unready | store | subscribed | registered =>
    cases next
    exact .inl fun k => rfl
  | ready | readyAgain | pending => cases next

end Effects

/-! ## What a call offers -/

/-- The outcome that a commit at the point has offered and neither won nor lost with yet. -/
def Point.offers : Point α ι τ → List (Outcome α)
  | .direct here => here.offers
  | .look _ | .store _ | .subscribe _ | .registering _ _ | .lookAgain _ => []

/-- What an answer gives back. -/
def Answer.returned : Answer α → List (Outcome α)
  | .direct a => a.returned
  | .ready _ | .pending => []

/-- A point does not carry the answer of a commit that lost, and a poll commits nothing. -/
def Point.Candid : Point α ι τ → Prop
  | .direct here => here.Candid
  | .registering _ here => here.Candid ∧ here.offers = []
  | .look _ | .store _ | .subscribe _ | .lookAgain _ => True

theorem Call.start_candid (call : Call α ι τ) : call.start.Candid := by
  cases call with
  | direct call => exact call.start_candid
  | poll p => trivial

/-- Who calls items has nothing on offer. -/
theorem Point.Sweeps.offers {p : Point α ι τ} (h : p.Sweeps) : p.offers = [] := by
  obtain ⟨here, hhere, sweeps⟩ := h
  cases p with
  | direct there =>
    obtain rfl := Option.some.inj hhere
    cases there with
    | sweep => rfl
    | _ => exact sweeps.elim
  | _ => rfl

section Effects

variable {s s' : Site α ι τ} {p p' : Point α ι τ} {a : Action α ι (Point α ι τ) (Answer α)}

theorem Does.candid (does : Does s p s' a) (candid : p.Candid) (next : a.next? = some p') :
    p'.Candid := by
  cases does with
  | direct inner =>
    rw [Action.next?_map] at next
    obtain ⟨here', hnext, rfl⟩ := Option.map_eq_some_iff.1 next
    exact inner.candid candid hnext
  | @registering poll here c a inner _ =>
    rw [Action.next?_map] at next
    obtain ⟨here', hnext, rfl⟩ := Option.map_eq_some_iff.1 next
    exact ⟨inner.candid candid.1 hnext, inner.offers_next candid.2 hnext⟩
  | subscribe =>
    cases next
    exact ⟨trivial, rfl⟩
  | unready | store | subscribed | registered =>
    cases next
    trivial
  | ready | readyAgain | pending => cases next

/-- A commit goes on offering its outcome until it settles the cell with it or gives it
back. -/
theorem Does.offers_eq (does : Does s p s' a) (candid : p.Candid) :
    p.offers
      = a.settled ++ a.answer?.elim [] Answer.returned ++ a.onward?.elim [] Point.offers := by
  cases does with
  | @direct here c a inner =>
    rw [Action.settled_map, Action.answer?_map, Action.onward?_map, Option.elim_map,
      Option.elim_map]
    exact inner.offers_eq candid
  | @registering poll here c a inner ne =>
    have offers := inner.offers_eq candid.1
    rw [candid.2] at offers
    obtain ⟨settled, -⟩ := List.append_eq_nil_iff.1 (List.append_eq_nil_iff.1 offers.symm).1
    rw [Action.settled_map, settled, Action.answer?_map, Action.onward?_map, Option.elim_map,
      Option.elim_map]
    cases a with
    | done answer => exact absurd rfl (ne answer)
    | _ => rfl
  | _ => rfl

end Effects

/-! ## Who empties which queue -/

/-- A call at the point empties the queue of the kind once the cell is settled on the
side, if nobody else does. -/
def Point.Minds (side : Side) (k : Kind) (p : Point α ι τ) : Prop :=
  ∃ here, p.inner? = some here ∧ here.Minds side k

section Effects

variable {s s' : Site α ι τ} {p : Point α ι τ} {a : Action α ι (Point α ι τ) (Answer α)}
  {side : Side} {k : Kind}

theorem Does.minds (does : Does s p s' a) (rest : s.completion.AtRest)
    (cell : s.completion.cell.Sound) (fits : p.Fits s.completion.cell)
    (settled : s.completion.cell.state = .settled side) (hk : k ≠ .on side.other)
    (waits : s'.completion.waiting k ≠ []) (minds : p.Minds side k) :
    ∃ p', a.next? = some p' ∧ p'.Minds side k := by
  obtain ⟨here, hhere, minds⟩ := minds
  rcases does.inner_or_idle with ⟨here', a', hp, inner, echoes⟩ | ⟨-, hnone, -⟩
  · obtain rfl : here' = here := Option.some.inj (hp.symm.trans hhere)
    obtain ⟨next, hnext, minds'⟩ := inner.minds rest cell (fits _ hp) settled hk waits minds
    obtain ⟨p', hp', hinner⟩ := echoes.onward next hnext
    exact ⟨p', hp', next, hinner, minds'⟩
  · cases hnone.symm.trans hhere

/-- Whoever settles the cell, or appends to a queue, minds what waits there. -/
theorem Does.attends (does : Does s p s' a) (rest : s.completion.AtRest)
    (drains : ∀ o d here, p.inner? = some (.commit o d here) → d = true)
    (settled : s'.completion.cell.state = .settled side) (hk : k ≠ .on side.other)
    (waits : s'.completion.waiting k ≠ []) :
    (∃ p', a.next? = some p' ∧ p'.Minds side k) ∨
      (s.completion.cell.state = .settled side ∧ s.completion.waiting k ≠ []) := by
  rcases does.inner_or_idle with ⟨here, a', hp, inner, echoes⟩ | ⟨same, -⟩
  · have drains' : ∀ o d there, here = .commit o d there → d = true := by
      rintro o d there rfl
      exact drains o d there hp
    rcases inner.attends rest drains' settled hk waits with ⟨here', hnext, minds⟩ | before
    · obtain ⟨p', hp', hhere'⟩ := echoes.onward here' hnext
      exact .inl ⟨p', hp', here', hhere', minds⟩
    · exact .inr before
  · rw [same] at settled waits
    exact .inr ⟨settled, waits⟩

/-- While the cell is being committed somebody is about to publish. -/
theorem Does.committing (does : Does s p s' a) (h : s'.completion.cell.state = .committing) :
    (∃ p', a.next? = some p' ∧ p'.Claims) ∨
      (s.completion.cell.state = .committing ∧ ¬ p.Claims) := by
  rcases does.inner_or_idle with ⟨here, a', hp, inner, echoes⟩ | ⟨same, hnone, -⟩
  · rcases inner.committing h with ⟨here', hnext, claims⟩ | ⟨before, claims⟩
    · obtain ⟨p', hp', hhere'⟩ := echoes.onward here' hnext
      exact .inl ⟨p', hp', here', hhere', claims⟩
    · refine .inr ⟨before, ?_⟩
      rintro ⟨here', hhere', claims'⟩
      obtain rfl : here = here' := Option.some.inj (hp.symm.trans hhere')
      exact claims claims'
  · rw [same] at h
    refine .inr ⟨h, ?_⟩
    rintro ⟨here, hhere, -⟩
    cases hnone.symm.trans hhere

end Effects

/-! ## Watches -/

/-- The poll that a point is in. -/
def Point.poll? : Point α ι τ → Option (Poll ι τ)
  | .look p | .store p | .subscribe p | .registering p _ | .lookAgain p => some p
  | .direct _ => none

theorem watch_updateWatch (s : Site α ι τ) (w w' : WatchId) (f : Watch τ → Watch τ) :
    (s.updateWatch w f).watch w'
      = if w = w' ∧ w < s.watches.size then f (s.watch w') else s.watch w' := by
  unfold watch updateWatch
  rw [Array.getElem?_modify]
  by_cases hw : w = w'
  · subst hw
    by_cases hsize : w < s.watches.size
    · simp [hsize]
    · simp [hsize]
  · simp [hw]

section Effects

variable {s s' : Site α ι τ} {p p' : Point α ι τ} {a : Action α ι (Point α ι τ) (Answer α)}
  {poll : Poll ι τ}

theorem Does.size_eq (does : Does s p s' a) : s'.watches.size = s.watches.size := by
  cases does with
  | store | subscribe => exact Array.size_modify ..
  | _ => rfl

/-- Only a poll that stores changes what a watch holds. -/
theorem Does.stored_eq (does : Does s p s' a) (w : WatchId) :
    (s'.watch w).stored = (s.watch w).stored ∨ ∃ poll, p = .store poll ∧ poll.watch = w := by
  cases does with
  | @store p =>
    by_cases hw : p.watch = w
    · exact .inr ⟨p, rfl, hw⟩
    · rw [watch_updateWatch, if_neg fun h => hw h.1]
      exact .inl rfl
  | @subscribe p =>
    rw [watch_updateWatch]
    split <;> exact .inl rfl
  | _ => exact .inl rfl

theorem Does.stores (does : Does s (.store poll) s' a) (here : poll.watch < s.watches.size) :
    (s'.watch poll.watch).stored = some poll.waker := by
  cases does with
  | store => rw [watch_updateWatch, if_pos ⟨rfl, here⟩]

/-- A watch is subscribed by a poll that goes on to register its relay. -/
theorem Does.subscribes (does : Does s p s' a) {w : WatchId}
    (subscribed : (s'.watch w).subscribed = true) :
    (s.watch w).subscribed = true ∨ ∃ poll, p = .subscribe poll ∧ poll.watch = w ∧
      a = .goto (.registering poll (.append .waker poll.relay)) := by
  cases does with
  | @store p =>
    rw [watch_updateWatch] at subscribed
    split at subscribed <;> exact .inl subscribed
  | @subscribe p =>
    by_cases hw : p.watch = w
    · exact .inr ⟨p, rfl, hw, rfl⟩
    · rw [watch_updateWatch, if_neg fun h => hw h.1] at subscribed
      exact .inl subscribed
  | _ => exact .inl subscribed

/-- A poll leaves the watches of other handles alone. -/
theorem Does.watch_eq (does : Does s p s' a) {w : WatchId}
    (apart : ∀ poll, p.poll? = some poll → poll.watch ≠ w) : s'.watch w = s.watch w := by
  cases does with
  | @store poll | @subscribe poll =>
    rw [watch_updateWatch, if_neg fun h => apart poll rfl h.1]
  | _ => rfl

theorem Does.next_poll? (does : Does s p s' a) (next : a.next? = some p') :
    p'.poll? = p.poll? := by
  cases does with
  | direct | registering =>
    rw [Action.next?_map] at next
    obtain ⟨here', -, rfl⟩ := Option.map_eq_some_iff.1 next
    rfl
  | unready | store | subscribed | subscribe | registered =>
    cases next
    rfl
  | ready | readyAgain | pending => cases next

end Effects

end Eventual.Site
