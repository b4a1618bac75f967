import Eventual.Proofs.Machine.Steps
import Eventual.Proofs.Promise.Drains

/-!
# Wakers first, then the callbacks of the side, then those for either side

A drain that calls a callback has emptied the queues before it, but the callback may
register anything, drain again, panic, and catch the panics of the drains inside it. The
invariant is `Tidy`. Of a kind that some drain under way has passed nothing waits, unless
the topmost frame is about to call it: then it is a single item, which that frame has just
appended, and nothing waits that comes before it. So whatever is appended to a queue that
a drain has passed is taken from there before any other code runs, and whether its call
returns or panics, the queue is empty.
-/

namespace Eventual.Machine

/-- What waits of a kind that a drain under way has passed is a single item that the
topmost call is about to call. -/
structure Tidy (m : Machine) : Prop where
  about : ∀ {c p s k}, .driving c p ∈ m.stack → p.Passed s k →
    (m.world.completion c).waiting k ≠ [] →
    m.control = .resume ∧ ∃ p' below, m.stack = .driving c p' :: below ∧ p'.Minds s k ∧
      (m.world.completion c).Foremost s k

section Steps

variable {m : Machine} {c : CompletionId} {here p : Site.Point Value Item WakerId}
  {below stack : List Frame} {control : Control}
  {action : Action Value Item (Site.Point Value Item WakerId) (Site.Answer Value)}

/-- A call on a completion that is under way after a step was so before, or is the one that
made the step, or begins. -/
theorem Leads.mem {c₀ : CompletionId} (h : Leads c₀ below action stack control)
    (hp : .driving c p ∈ stack) :
    .driving c p ∈ below ∨ (c = c₀ ∧ action.next? = some p) ∨
      ∃ call : Site.Call Value Item WakerId, p = call.start := by
  cases h with
  | goto | notice =>
    rcases List.mem_cons.1 hp with e | later
    · cases e
      exact .inr (.inl ⟨rfl, rfl⟩)
    · exact .inl later
  | call fresh handed =>
    rcases List.mem_append.1 hp with begun | later
    · exact .inr (.inr (fresh _ begun))
    · rcases List.mem_cons.1 later with e | later
      · cases e
        exact .inr (.inl ⟨rfl, rfl⟩)
      · exact .inl later
  | done | refused => exact .inl hp

/-- Unless it calls an item, a call on a completion goes on at once. -/
theorem Leads.of_calm (h : Leads c below action stack control)
    (calm : ∀ k x arg p', action ≠ .call k x arg p') (next : action.next? = some p) :
    control = .resume ∧ stack = .driving c p :: below := by
  cases h with
  | goto | notice =>
    cases next
    exact ⟨rfl, rfl⟩
  | call => exact absurd rfl (calm _ _ _ _)
  | done | refused => cases next

theorem Tidy.own (h : m.Tidy) (hstack : m.stack = .driving c here :: below) {s : Side} {k : Kind}
    (passed : here.Passed s k) : (m.world.completion c).waiting k = [] := by
  apply Classical.byContradiction
  intro waits
  have mem : .driving c here ∈ m.stack := hstack ▸ List.mem_cons_self ..
  obtain ⟨-, p', below', hstack', minds, -⟩ := h.about mem passed waits
  cases hstack.symm.trans hstack'
  exact passed.not_minds minds

theorem Tidy.drive (h : m.Tidy) (sound : m.Sound)
    (hstack : m.stack = .driving c here :: below) {s' : Site Value Item WakerId}
    (drives : Drives m.world c here below m.step s' action) : m.step.Tidy := by
  constructor
  intro c' p s k hp passed waits
  have top : .driving c here ∈ m.stack := hstack ▸ List.mem_cons_self ..
  have lower : ∀ {c p}, .driving c p ∈ below → .driving c p ∈ m.stack := fun hp =>
    hstack ▸ List.mem_cons_of_mem _ hp
  have places : .driving c' p ∈ below ∨ (c' = c ∧ action.next? = some p) := by
    rcases drives.leads.mem hp with hbelow | next | ⟨call, rfl⟩
    · exact .inl hbelow
    · exact .inr next
    · exact absurd passed call.not_passed_start
  by_cases hc : c' = c
  · subst hc
    obtain ⟨alive, fits⟩ := sound.of_driving top
    have exact := sound.world.exact alive.getElem?
    rw [drives.this] at waits ⊢
    rcases places with hbelow | ⟨-, next⟩
    · have settled := passed.settled (sound.of_driving (lower hbelow)).2
      obtain ⟨calm, p', next, minds, foremost⟩ :=
        drives.does.foremost (G := fun k => ∃ q, .driving c' q ∈ below ∧ q.Passed s k)
          exact.atRest exact.cell fits settled (fun ⟨q, _, hq⟩ => hq.ne_other)
          (fun ⟨q, hq, passed⟩ hk => ⟨q, hq, passed.before hk⟩)
          (fun ⟨q, hq, passed⟩ waits => by
            obtain ⟨-, p', below', hstack', minds, foremost⟩ := h.about (lower hq) passed waits
            cases hstack.symm.trans hstack'
            exact ⟨minds, foremost⟩)
          ⟨p, hbelow, passed⟩ waits
      obtain ⟨resume, stack⟩ := drives.leads.of_calm calm next
      exact ⟨resume, p', below, stack, minds, foremost⟩
    · exact absurd (drives.does.passed exact.atRest (h.own hstack) next passed) waits
  · -- Another completion is as it was, and nothing was about to be called on it.
    rw [drives.others c' hc] at waits
    have hbelow := places.resolve_right fun next => hc next.1
    obtain ⟨-, p', below', hstack', -⟩ := h.about (lower hbelow) passed waits
    cases hstack.symm.trans hstack'
    exact absurd rfl hc

theorem Tidy.step (h : m.Tidy) (sound : m.Sound) : m.step.Tidy := by
  cases hstack : m.stack with
  | nil => rwa [step_of_isOver (List.isEmpty_iff.2 hstack)]
  | cons frame below =>
    rcases sound.step_cases hstack with ⟨idles, idle⟩ | ⟨c, here, s', action, -, rfl, drives⟩
    · constructor
      intro c p s k hp passed waits
      obtain ⟨frames, hstack', fresh, -⟩ := idles.stack
      have mem : .driving c p ∈ m.stack := by
        have hp' := hp
        rw [hstack'] at hp'
        rw [hstack]
        rcases List.mem_append.1 hp' with above | hbelow
        · rcases fresh _ above with e | ⟨call, rfl⟩
          · exact e ▸ List.mem_cons_self ..
          · exact absurd passed call.not_passed_start
        · exact List.mem_cons_of_mem _ hbelow
      rw [Sound.waiting_eq_of_silent sound.world sound.step.world idles.silent
        (sound.of_driving mem).1 (sound.step.of_driving hp).1] at waits
      obtain ⟨resume, p', below', hstack', -⟩ := h.about mem passed waits
      cases hstack.symm.trans hstack'
      exact absurd ⟨resume, c, p', rfl⟩ idle
    · exact h.drive sound hstack drives

end Steps

/-! ## Runs -/

section Runs

variable (watched : List String) (script : Script) (n : Nat)

theorem initial_tidy : (initial watched script).Tidy := by
  constructor
  intro c p s k hp
  cases List.mem_singleton.1 hp

theorem moment_tidy : (moment watched script n).Tidy := by
  induction n with
  | zero => exact initial_tidy watched script
  | succ n ih =>
    rw [moment_succ]
    exact ih.step (moment_sound watched script n)

/-- Whoever calls an item calls it in the midst of a drain that has left nothing behind. -/
theorem Tidy.starts {m : Machine} (h : m.Tidy) (sound : m.Sound) {c : CompletionId} {k : Kind}
    (starts : m.step.world.called c k ≠ m.world.called c k) :
    ∃ s x, (m.step.world.completion c).cell.state = .settled s ∧ k ≠ .on s.other ∧
      m.step.world.called c k = m.world.called c k ++ [x] ∧
      ∀ k' ∈ k.before s, (m.step.world.completion c).waiting k' = [] := by
  obtain ⟨here, below, s', x, arg, p, hstack, drives⟩ := sound.of_called starts
  obtain ⟨alive, fits⟩ := sound.of_driving (hstack ▸ List.mem_cons_self ..)
  have exact := sound.world.exact alive.getElem?
  obtain ⟨s, settled, hk, passed⟩ := drives.does.called_passed fits
  refine ⟨s, x, ?_, hk, ?_, ?_⟩
  · rw [drives.this, drives.does.cell_eq fits settled]
    exact settled
  · rw [drives.called]
    simp [Action.called]
  · intro k' hk'
    rw [drives.this]
    exact drives.does.passed exact.atRest (h.own hstack) rfl (passed k' hk').2

/-- At every moment of every run at which a callback starts, no waker is left in its queue,
and if the callback is one for either side, no callback is left for the side on which the
completion is settled. -/
theorem wakers_before_callbacks {c : CompletionId} {k : Kind}
    (starts : (moment watched script (n + 1)).world.called c k
      ≠ (moment watched script n).world.called c k) :
    ∃ s x, ((moment watched script (n + 1)).world.completion c).cell.state = .settled s ∧
      k ≠ .on s.other ∧
      (moment watched script (n + 1)).world.called c k
        = (moment watched script n).world.called c k ++ [x] ∧
      (k ≠ .waker →
        ((moment watched script (n + 1)).world.completion c).waiting .waker = []) ∧
      (k = .always →
        ((moment watched script (n + 1)).world.completion c).waiting (.on s) = []) := by
  rw [moment_succ] at starts ⊢
  obtain ⟨s, x, settled, hk, called, before⟩ :=
    (moment_tidy watched script n).starts (moment_sound watched script n) starts
  refine ⟨s, x, settled, hk, called, ?_, ?_⟩
  · intro callback
    cases k with
    | waker => exact absurd rfl callback
    | on s' | always => exact before _ (List.mem_cons_self ..)
  · rintro rfl
    exact before _ (List.mem_cons_of_mem _ (List.mem_singleton_self _))

end Runs

/-- A callback registers a waker; one for either side registers a callback that panics,
catches the panic, and registers another one. -/
def refillScript : Script :=
  [.mk "" (.create "c" .completion),
    .mk "" (.create "w" (.waker [])),
    .mk "" (.onCompletion "c" (.register (.on .success) (.mk "outer"
      [.mk "" (.onCompletion "c" (.registerWaker "w"))]))),
    .mk "" (.onCompletion "c" (.register .always (.mk "last"
      [.mk "" (.attempt [.mk "" (.onCompletion "c" (.register (.on .success) (.mk "inner"
          [.mk "" (.raise (.number 1))])))]),
        .mk "" (.onCompletion "c" (.register (.on .success) (.mk "late" [])))]))),
    .mk "" (.onCompletion "c" (.register .always (.mk "end" []))),
    .mk "" (.onCompletion "c" (.complete ⟨.success, { data := .null }⟩))]

/-- The drain inside `last` starts `inner`, and after its panic the drain around it starts
`end`. -/
theorem wakers_before_callbacks_refill :
    (moment [] refillScript 48).world.called 0 (.on .success)
      ≠ (moment [] refillScript 47).world.called 0 (.on .success) ∧
    ((moment [] refillScript 48).world.completion 0).waiting .waker = [] ∧
    (moment [] refillScript 66).world.called 0 .always
      ≠ (moment [] refillScript 65).world.called 0 .always ∧
    ((moment [] refillScript 66).world.completion 0).waiting .waker = [] ∧
    ∃ s, ((moment [] refillScript 66).world.completion 0).cell.state = .settled s ∧
      ((moment [] refillScript 66).world.completion 0).waiting (.on s) = [] := by
  have inner : (moment [] refillScript 48).world.called 0 (.on .success)
      ≠ (moment [] refillScript 47).world.called 0 (.on .success) :=
    fun same => absurd (congrArg List.length same) (by decide +kernel)
  have last : (moment [] refillScript 66).world.called 0 .always
      ≠ (moment [] refillScript 65).world.called 0 .always :=
    fun same => absurd (congrArg List.length same) (by decide +kernel)
  obtain ⟨-, -, -, -, -, wakers, -⟩ := wakers_before_callbacks [] refillScript 47 inner
  obtain ⟨s, -, settled, -, -, wakers', matching⟩ :=
    wakers_before_callbacks [] refillScript 65 last
  exact ⟨inner, wakers nofun, last, wakers' nofun, s, settled, matching rfl⟩

end Eventual.Machine
