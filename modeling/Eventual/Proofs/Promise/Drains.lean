import Eventual.Proofs.Promise.Steps

/-!
# What a drain has passed

A drain calls the wakers, then the items of its side, then those for either side. Once
it has come past a queue it does not look into that queue again, so whatever is appended
there while it calls later items must be somebody else's business. It is: who appends to
a queue of a settled completion drains at once, and `Foremost` says of a kind that a
single item of it waits and nothing that would be called before it.

`Does.foremost` is the step of a call that drains in the midst of other drains. Suppose
that of each kind that those have passed nothing waits, or one item that this call is
about to call. Then the same is true after the step, and when the step calls an item or
is the last one, nothing of those kinds waits any more. `Does.passed` says of the kinds
that the call itself has passed that nothing of them waits.
-/

namespace Eventual

/-- The kinds whose items a drain on the side calls before those of the kind. -/
def Kind.before (s : Side) : Kind → List Kind
  | .waker => []
  | .on _ => [.waker]
  | .always => [.waker, .on s]

namespace Completion

variable {α ι : Type}

/-- One item of the kind waits, and nothing that a drain calls before it. -/
structure Foremost (c : Completion α ι) (s : Side) (k : Kind) : Prop where
  alone : (c.waiting k).length = 1
  first : ∀ k' ∈ k.before s, c.waiting k' = []

/-- A drain at the point has come past the queue of the kind. -/
def Point.Passed (s : Side) (k : Kind) : Point α ι → Prop
  | .sweep s' _ _ stage _ => s' = s ∧ k ∈ (stage.kind s).before s
  | .report s' _ _ => s' = s ∧ k ≠ .on s.other
  | _ => False

theorem Stage.ne_other {s : Side} {k : Kind} {stage : Stage} (h : k ∈ (stage.kind s).before s) :
    k ≠ .on s.other := by
  rintro rfl
  cases stage <;> simp [Stage.kind, Kind.before] at h

/-- A stage comes after those before it and what these empty. -/
theorem Stage.mem_before_next {s : Side} {k : Kind} {stage stage' : Stage}
    (hnext : stage.next? = some stage') (h : k ∈ (stage'.kind s).before s) :
    k = stage.kind s ∨ k ∈ (stage.kind s).before s := by
  cases stage with
  | wakers =>
    cases hnext
    exact .inl (List.mem_singleton.1 h)
  | matching =>
    cases hnext
    rcases List.mem_cons.1 h with rfl | h
    · exact .inr (List.mem_singleton_self _)
    · exact .inl (List.mem_singleton.1 h)
  | always => cases hnext

/-- The last stage comes after all others. -/
theorem Stage.mem_before_last {s : Side} {k : Kind} {stage : Stage} (hnext : stage.next? = none)
    (hk : k ≠ .on s.other) : k = stage.kind s ∨ k ∈ (stage.kind s).before s := by
  cases stage with
  | wakers | matching => cases hnext
  | always =>
    rcases Stage.mem_kinds (Stage.mem_kinds_wakers hk) with rfl | ⟨_, hnext, h⟩
    · exact .inr (List.mem_cons_self ..)
    · cases hnext
      rcases Stage.mem_kinds h with rfl | ⟨_, hnext, h⟩
      · exact .inr (List.mem_cons_of_mem _ (List.mem_singleton_self _))
      · cases hnext
        exact .inl (List.mem_singleton.1 h)

/-- What a drain has yet to empty it empties in order. -/
theorem Stage.kind_mem_before {s : Side} {k : Kind} {stage : Stage} (h : k ∈ stage.kinds s)
    (hk : stage.kind s ≠ k) : stage.kind s ∈ k.before s := by
  cases stage <;> cases k <;> simp_all [Stage.kinds, Stage.kind, Kind.before]

theorem Kind.ne_of_mem_before {s : Side} {k k' : Kind} (hk : k ≠ .on s.other)
    (h : k' ∈ k.before s) : k' ≠ k := by
  rintro rfl
  cases k' with
  | waker => cases h
  | on s' => cases List.mem_singleton.1 h
  | always => simp [Kind.before] at h

section Points

variable {s : Side} {k k' : Kind} {p : Point α ι}

theorem Point.Passed.ne_other (h : p.Passed s k) : k ≠ .on s.other := by
  cases p with
  | sweep s' a v stage n => exact Stage.ne_other h.2
  | report s' a n => exact h.2
  | _ => exact h.elim

theorem Point.Passed.settled {cell : Cell α} (h : p.Passed s k) (fits : p.Fits cell) :
    cell.state = .settled s := by
  cases p with
  | sweep s' a v stage n =>
    obtain rfl := h.1
    exact fits.1
  | report s' a n =>
    obtain rfl := h.1
    exact fits
  | _ => exact h.elim

/-- Who has passed a queue has passed those before it. -/
theorem Point.Passed.before (h : p.Passed s k) (hk' : k' ∈ k.before s) : p.Passed s k' := by
  cases p with
  | sweep s' a v stage n =>
    refine ⟨h.1, ?_⟩
    obtain ⟨-, hk⟩ := h
    cases stage with
    | wakers => cases hk
    | matching =>
      obtain rfl := List.mem_singleton.1 hk
      cases hk'
    | always =>
      rcases List.mem_cons.1 hk with rfl | hk
      · cases hk'
      · obtain rfl := List.mem_singleton.1 hk
        obtain rfl := List.mem_singleton.1 hk'
        exact List.mem_cons_self ..
  | report s' a n =>
    refine ⟨h.1, ?_⟩
    rintro rfl
    cases k <;> simp [Kind.before] at hk'
  | _ => exact h.elim

/-- Who has passed a queue has nothing left to register. -/
theorem Point.Passed.brings (h : p.Passed s k) : p.brings k' = [] := by
  cases p with
  | sweep s' a v stage n | report s' a n => rfl
  | _ => exact h.elim

/-- A drain is on one side. -/
theorem Point.Passed.side_eq {s' : Side} (h : p.Passed s k) (minds : p.Minds s' k') : s = s' := by
  cases p with
  | sweep side a v stage n => exact h.1.symm.trans minds.1
  | report side a n => exact minds.elim
  | _ => exact h.elim

/-- What a drain has passed it does not mind. -/
theorem Point.Passed.not_minds (h : p.Passed s k) : ¬ p.Minds s k := by
  cases p with
  | sweep s' a v stage n =>
    rintro ⟨-, minds⟩
    obtain ⟨-, passed⟩ := h
    cases stage <;> cases k <;> simp_all [Stage.kinds, Stage.kind, Kind.before]
  | report s' a n => exact id
  | _ => exact h.elim

end Points

section Effects

variable {c c' : Completion α ι} {p p' : Point α ι} {a : Action α ι (Point α ι) (Answer α)}
  {s : Side} {k : Kind}

/-- A drain comes past a queue when it has found it empty. -/
theorem Does.passes (does : Does c p c' a) (rest : c.AtRest) (next : a.next? = some p')
    (passed : p'.Passed s k) : p.Passed s k ∨ c'.waiting k = [] := by
  cases does with
  | take =>
    cases next
    exact .inl passed
  | leave ht hnext =>
    cases next
    obtain ⟨rfl, hk⟩ := passed
    obtain rfl | hk := Stage.mem_before_next hnext hk
    · rw [waiting_setQueue, if_pos rfl]
      exact .inr (rest.take?_none ht).2.2
    · exact .inl ⟨rfl, hk⟩
  | close ht hnext =>
    cases next
    obtain ⟨rfl, hk⟩ := passed
    obtain rfl | hk := Stage.mem_before_last hnext hk
    · rw [waiting_setQueue, if_pos rfl]
      exact .inr (rest.take?_none ht).2.2
    · exact .inl ⟨rfl, hk⟩
  | fetch =>
    cases next
    cases passed.2
  | @publish o drains =>
    cases next
    cases drains <;> exact passed.elim
  | lookLate | claimLate | consultEarly | checkOff | refuse | finish => cases next
  | _ =>
    cases next
    exact passed.elim

/-- Nothing waits of the kinds that a drain has passed, if none of their items comes from
elsewhere. -/
theorem Does.passed (does : Does c p c' a) (rest : c.AtRest)
    (own : ∀ {k}, p.Passed s k → c.waiting k = []) (next : a.next? = some p')
    (passed : p'.Passed s k) : c'.waiting k = [] := by
  obtain before | empty := does.passes rest next passed
  · have queue := does.waiting_eq rest k
    rw [does.brings, before.brings, own before] at queue
    exact (List.append_eq_nil_iff.1 queue).2
  · exact empty

/-- Who calls an item has passed what comes before it. -/
theorem Does.called_passed {x : ι} {arg : Option α} (does : Does c p c' (.call k x arg p'))
    (fits : p.Fits c.cell) :
    ∃ s, c.cell.state = .settled s ∧ k ≠ .on s.other ∧
      ∀ k' ∈ k.before s, p.Passed s k' ∧ p'.Passed s k' := by
  obtain ⟨s', hs', hk, -⟩ := does.of_call fits
  cases does with
  | @take s =>
    obtain rfl : s = s' := Cell.State.settled.inj (fits.1.symm.trans hs')
    exact ⟨s, fits.1, hk, fun k' hk' => ⟨⟨rfl, hk'⟩, ⟨rfl, hk'⟩⟩⟩

/-- A step that neither takes nor appends leaves what waits to the call as it was. -/
theorem Does.foremost_of_silent (does : Does c p c' a) (rest : c.AtRest) (cell : c.cell.Sound)
    (fits : p.Fits c.cell) (settled : c.cell.state = .settled s)
    (silent : ∀ k, a.called k = [] ∧ a.registered k = []) (hk : k ≠ .on s.other)
    (about : c.waiting k ≠ [] → p.Minds s k ∧ c.Foremost s k) (waits : c'.waiting k ≠ []) :
    (∀ k x arg p', a ≠ .call k x arg p') ∧
      ∃ p', a.next? = some p' ∧ p'.Minds s k ∧ c'.Foremost s k := by
  have same : ∀ k, c'.waiting k = c.waiting k := by
    intro k
    simpa [silent k] using does.waiting_eq rest k
  obtain ⟨minds, foremost⟩ := about (same k ▸ waits)
  obtain ⟨p', hnext, minds'⟩ := does.minds rest cell fits settled hk waits minds
  refine ⟨?_, p', hnext, minds', ?_, ?_⟩
  · rintro k' x arg q rfl
    simpa [Action.called] using (silent k').1
  · rw [same]
    exact foremost.alone
  · intro k' hk'
    rw [same]
    exact foremost.first k' hk'

/-- A call that drains in the midst of others, each of which has passed some kinds: what
waits of those is one item that the call is about to call. -/
theorem Does.foremost (does : Does c p c' a) (rest : c.AtRest) (cell : c.cell.Sound)
    (fits : p.Fits c.cell) (settled : c.cell.state = .settled s) {G : Kind → Prop}
    (sided : ∀ {k}, G k → k ≠ .on s.other) (closed : ∀ {k k'}, G k → k' ∈ k.before s → G k')
    (about : ∀ {k}, G k → c.waiting k ≠ [] → p.Minds s k ∧ c.Foremost s k)
    (hk : G k) (waits : c'.waiting k ≠ []) :
    (∀ k x arg p', a ≠ .call k x arg p') ∧
      ∃ p', a.next? = some p' ∧ p'.Minds s k ∧ c'.Foremost s k := by
  have queue := does.waiting_eq rest
  have calm : (∀ k, a.called k = [] ∧ a.registered k = []) →
      (∀ k x arg p', a ≠ .call k x arg p') ∧
        ∃ p', a.next? = some p' ∧ p'.Minds s k ∧ c'.Foremost s k := fun silent =>
    does.foremost_of_silent rest cell fits settled silent (sided hk) (about hk) waits
  cases does with
  | @append k' x =>
    -- Before the append nothing waits, for who appends has yet to look at the cell.
    have empty : ∀ {k}, G k → c.waiting k = [] := by
      intro k hk
      apply Classical.byContradiction
      intro waits
      exact (about hk waits).1
    have now := queue k
    simp only [Action.called, Action.registered, List.nil_append, empty hk] at now
    obtain rfl : k' = k := by
      apply Classical.byContradiction
      intro other
      rw [if_neg other] at now
      exact waits now
    rw [if_pos rfl] at now
    refine ⟨by simp, _, rfl, sided hk, ?_, ?_⟩
    · rw [now]
      rfl
    · intro k'' hk''
      have other := queue k''
      simp only [Action.called, Action.registered, List.nil_append, empty (closed hk hk''),
        if_neg (Kind.ne_of_mem_before (sided hk) hk'').symm] at other
      exact other
  | @take s' _ _ stage _ q x ht =>
    -- What is taken is the item itself, since nothing waits that comes before it.
    have now := queue k
    simp only [Action.called, Action.registered, List.append_nil] at now
    have waited : c.waiting k ≠ [] := by
      rw [← now]
      exact fun none => waits (List.append_eq_nil_iff.1 none).2
    obtain ⟨⟨rfl, minds⟩, foremost⟩ := about hk waited
    obtain rfl : stage.kind s' = k := by
      apply Classical.byContradiction
      intro other
      have none := foremost.first _ (Stage.kind_mem_before minds other)
      rw [(rest.take?_some ht).2] at none
      cases none
    have taken := congrArg List.length now
    rw [if_pos rfl, List.length_append, foremost.alone] at taken
    exact absurd (List.length_eq_zero_iff.1 (by simpa using taken)) waits
  | _ => exact calm fun _ => ⟨rfl, rfl⟩

end Effects

/-! ## From the registration to the end of the drain -/

/-- The points of a call that began on a cell settled on the side and that drains, up to
the report that everything is done. -/
def Point.Course (s : Side) : Point α ι → Prop
  | .append k _ | .consult k => k ≠ .on s.other
  | .check s' _ | .fetch s' _ | .sweep s' _ _ _ _ | .report s' _ _ => s' = s
  | .commit _ _ _ | .announce _ | .finish _ => False

/-- A call that drains goes on until it has reported. -/
theorem Does.course {c c' : Completion α ι} {p : Point α ι}
    {a : Action α ι (Point α ι) (Answer α)} {s : Side} (does : Does c p c' a)
    (cell : c.cell.Sound) (settled : c.cell.state = .settled s) (course : p.Course s) :
    (∃ p', a.next? = some p' ∧ p'.Course s) ∨
      ∃ answer n n', p = .report s answer n ∧ c' = c ∧ a = .notice n' (.finish answer) := by
  cases does with
  | append | check | fetch | take | leave | close => exact .inl ⟨_, rfl, course⟩
  | consultMatching h | consultOther h _ =>
    exact .inl ⟨_, rfl, Cell.State.settled.inj (h.symm.trans settled)⟩
  | consultEarly h => exact absurd (h s settled) course
  | checkOff h =>
    obtain rfl : _ = s := course
    exact absurd settled h
  | refuse h =>
    obtain rfl : _ = s := course
    obtain ⟨v, -, demand⟩ := cell.demand_eq settled
    cases demand.symm.trans h
  | report =>
    obtain rfl : _ = s := course
    exact .inr ⟨_, _, _, rfl, rfl, rfl⟩
  | look | lookLate | claim | claimLate | store | publish | announce | finish =>
    exact course.elim

end Completion

namespace Site

open Completion (Foremost)

variable {α ι τ : Type}

/-- A drain at the point has come past the queue of the kind. -/
def Point.Passed (side : Side) (k : Kind) (p : Point α ι τ) : Prop :=
  ∃ here, p.inner? = some here ∧ here.Passed side k

section Points

variable {side : Side} {k k' : Kind} {p : Point α ι τ}

theorem Point.Passed.ne_other (h : p.Passed side k) : k ≠ .on side.other := by
  obtain ⟨here, -, passed⟩ := h
  exact passed.ne_other

theorem Point.Passed.settled {cell : Cell α} (h : p.Passed side k) (fits : p.Fits cell) :
    cell.state = .settled side := by
  obtain ⟨here, hhere, passed⟩ := h
  exact passed.settled (fits here hhere)

theorem Point.Passed.before (h : p.Passed side k) (hk' : k' ∈ k.before side) :
    p.Passed side k' := by
  obtain ⟨here, hhere, passed⟩ := h
  exact ⟨here, hhere, passed.before hk'⟩

/-- A drain is on one side. -/
theorem Point.Passed.side_eq {side' : Side} (h : p.Passed side k) (minds : p.Minds side' k') :
    side = side' := by
  obtain ⟨here, hhere, passed⟩ := h
  obtain ⟨here', hhere', minds⟩ := minds
  obtain rfl : here = here' := Option.some.inj (hhere.symm.trans hhere')
  exact passed.side_eq minds

theorem Point.Passed.not_minds (h : p.Passed side k) : ¬ p.Minds side k := by
  obtain ⟨here, hhere, passed⟩ := h
  rintro ⟨here', hhere', minds⟩
  obtain rfl : here = here' := Option.some.inj (hhere.symm.trans hhere')
  exact passed.not_minds minds

/-- A call that begins has passed nothing. -/
theorem Call.not_passed_start (call : Call α ι τ) : ¬ call.start.Passed side k := by
  rintro ⟨here, hhere, passed⟩
  cases call with
  | direct call =>
    cases hhere
    cases call <;> exact passed
  | poll p => cases hhere

end Points

section Effects

variable {s s' : Site α ι τ} {p p' : Point α ι τ} {a : Action α ι (Point α ι τ) (Answer α)}
  {side : Side} {k : Kind}

/-- A drain comes past a queue when it has found it empty. -/
theorem Does.passes (does : Does s p s' a) (rest : s.completion.AtRest)
    (next : a.next? = some p') (passed : p'.Passed side k) :
    p.Passed side k ∨ s'.completion.waiting k = [] := by
  obtain ⟨here', hhere', passed⟩ := passed
  obtain ⟨here, a', hp, inner, echoes⟩ | ⟨-, -, begins⟩ := does.inner_or_idle
  · obtain before | empty := inner.passes rest (echoes.next p' next here' hhere') passed
    · exact .inl ⟨here, hp, before⟩
    · exact .inr empty
  · obtain ⟨k', x, rfl⟩ := begins_of_next begins next hhere'
    exact passed.elim

theorem Does.passed (does : Does s p s' a) (rest : s.completion.AtRest)
    (own : ∀ {k}, p.Passed side k → s.completion.waiting k = []) (next : a.next? = some p')
    (passed : p'.Passed side k) : s'.completion.waiting k = [] := by
  obtain ⟨here', hhere', passed⟩ := passed
  rcases does.inner_or_idle with ⟨here, a', hp, inner, echoes⟩ | ⟨-, -, begins⟩
  · exact inner.passed rest (fun h => own ⟨here, hp, h⟩) (echoes.next p' next here' hhere') passed
  · obtain ⟨k', x, rfl⟩ := begins_of_next begins next hhere'
    exact passed.elim

theorem Does.called_passed {x : ι} {arg : Option α} (does : Does s p s' (.call k x arg p'))
    (fits : p.Fits s.completion.cell) :
    ∃ side, s.completion.cell.state = .settled side ∧ k ≠ .on side.other ∧
      ∀ k' ∈ k.before side, p.Passed side k' ∧ p'.Passed side k' := by
  rcases does.inner_or_idle with ⟨here, a', hp, inner, echoes⟩ | ⟨-, -, ⟨_, h⟩ | ⟨_, h, -⟩⟩
  · obtain ⟨here', hhere', rfl⟩ := echoes.call rfl
    obtain ⟨side, hs, hk, passed⟩ := inner.called_passed (fits here hp)
    exact ⟨side, hs, hk, fun k' hk' =>
      ⟨⟨here, hp, (passed k' hk').1⟩, ⟨here', hhere', (passed k' hk').2⟩⟩⟩
  · cases h
  · cases h

theorem Does.foremost (does : Does s p s' a) (rest : s.completion.AtRest)
    (cell : s.completion.cell.Sound) (fits : p.Fits s.completion.cell)
    (settled : s.completion.cell.state = .settled side) {G : Kind → Prop}
    (sided : ∀ {k}, G k → k ≠ .on side.other)
    (closed : ∀ {k k'}, G k → k' ∈ k.before side → G k')
    (about : ∀ {k}, G k → s.completion.waiting k ≠ [] →
      p.Minds side k ∧ s.completion.Foremost side k)
    (hk : G k) (waits : s'.completion.waiting k ≠ []) :
    (∀ k x arg p', a ≠ .call k x arg p') ∧
      ∃ p', a.next? = some p' ∧ p'.Minds side k ∧ s'.completion.Foremost side k := by
  rcases does.inner_or_idle with ⟨here, a', hp, inner, echoes⟩ | ⟨same, hnone, -⟩
  · have about' : ∀ {k}, G k → s.completion.waiting k ≠ [] →
        here.Minds side k ∧ s.completion.Foremost side k := by
      intro k hk waits
      obtain ⟨⟨here', hhere', minds⟩, foremost⟩ := about hk waits
      obtain rfl : here = here' := Option.some.inj (hp.symm.trans hhere')
      exact ⟨minds, foremost⟩
    obtain ⟨calm, next, hnext, minds, foremost⟩ :=
      inner.foremost rest cell (fits here hp) settled sided closed about' hk waits
    obtain ⟨p', hp', hinner⟩ := echoes.onward next hnext
    refine ⟨?_, p', hp', ⟨next, hinner, minds⟩, foremost⟩
    intro k' x arg q ha
    obtain ⟨here', -, ha'⟩ := echoes.call ha
    exact calm k' x arg here' ha'
  · rw [same] at waits
    obtain ⟨⟨here, hhere, -⟩, -⟩ := about hk waits
    cases hnone.symm.trans hhere

end Effects

end Site

end Eventual
