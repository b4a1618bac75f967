import Mathlib.Combinatorics.Enumerative.DoubleCounting
import Eventual.Proofs.Machine.Origins

/-!
# What the tallies of drains account for

A drain counts the items that it calls, and writes the count to the log once it has found its
queues empty. Items may drain the same completion again: the inner drain takes from the same
queues, and what it calls it counts itself. So neither the length of a queue nor what is called
while a drain is under way says what the drain will report.

What tells the drains apart is their place on the stack. Two moments belong to one call,
`OneCall`, when a call on the completion is topmost at both, above the same frames, and something
has run above these all the time. Followed backwards, `Origin`, a drain stands at the count of the
calls that it has made, `calls_of_count`. Followed forwards, a drain that has found its side owes a
tally, `Owing`, until it has written it, unless a panic comes out of what it calls.
-/

namespace Eventual

/-! ## What a call has counted -/

/-- How many items a call has called when it stands at a point, until it has written its tally. -/
def Completion.Point.count? {α ι : Type} : Completion.Point α ι → Option Nat
  | .sweep _ _ _ _ called | .report _ _ called => some called
  | .commit _ _ _ | .announce _ | .append _ _ | .consult _ | .check _ _ | .fetch _ _ => some 0
  | .finish _ => none

/-- A drain has found its side and has its tally still to write. -/
def Completion.Point.Owes {α ι : Type} : Completion.Point α ι → Prop
  | .fetch _ _ | .sweep _ _ _ _ _ | .report _ _ _ => True
  | .commit _ _ _ | .announce _ | .append _ _ | .consult _ | .check _ _ | .finish _ => False

/-- A step that writes a tally invokes nothing. -/
theorem Action.invokes_of_tallies {π ρ : Type} {entry : Nat × Side} (a : Action Value Item π ρ)
    (tally : a.tallies = [entry]) : a.invokes = [] := by
  cases a with
  | call => cases tally
  | goto | notice | done | refused => rfl

@[simp] theorem Action.invokes_map {π π' ρ ρ' : Type} (f : π → π') (g : ρ → ρ')
    (a : Action Value Item π ρ) : (a.map f g).invokes = a.invokes := by cases a <;> rfl

@[simp] theorem Action.tallies_map {π π' ρ ρ' : Type} (f : π → π') (g : ρ → ρ')
    (a : Action Value Item π ρ) : (a.map f g).tallies = a.tallies := by
  rcases a with _ | (_ | _ | _ | _) | _ | _ | _ <;> rfl

namespace Completion

variable {c c' : Completion Value Item} {here p : Point Value Item}
  {a : Action Value Item (Point Value Item) (Answer Value)}

/-- A call counts what it calls. -/
theorem Does.count (does : Does c here c' a) (next : a.next? = some p) {m : Nat}
    (count : p.count? = some m) : ∃ k, here.count? = some k ∧ m = k + a.invokes.length := by
  cases does with
  | @publish o drains =>
    cases next
    cases drains <;> cases count
    exact ⟨0, rfl, rfl⟩
  | report =>
    cases next
    cases count
  | _ =>
    cases next
    all_goals cases count; exact ⟨_, rfl, rfl⟩

/-- A call that writes a tally writes what it has counted, and is done with counting. -/
theorem Does.tally (does : Does c here c' a) {entry : Nat × Side} (tally : a.tallies = [entry]) :
    ∃ answer, here = .report entry.2 answer entry.1 ∧ a.next? = some (.finish answer) := by
  cases does with
  | report =>
    cases tally
    exact ⟨_, rfl, rfl⟩
  | _ => cases tally

/-- A drain that has found its side goes on until it has written its tally. -/
theorem Does.owes (does : Does c here c' a) (owes : here.Owes) (fits : here.Fits c.cell)
    (sound : c.cell.Sound) :
    (∃ p, a.next? = some p ∧ p.Owes) ∨ ∃ entry, a.tallies = [entry] := by
  cases does with
  | fetch | take | leave | close => exact .inl ⟨_, rfl, trivial⟩
  | refuse ht => exact absurd rfl ((Does.refuse ht).not_refused fits sound _ _)
  | report => exact .inr ⟨_, rfl⟩
  | _ => exact owes.elim

end Completion

namespace Site

/-- How many items a call has called when it stands at a point, until it has written its tally. -/
def Point.count? {α ι τ : Type} : Point α ι τ → Option Nat
  | .direct here | .registering _ here => here.count?
  | .look _ | .store _ | .subscribe _ => some 0
  | .lookAgain _ => none

/-- A drain has found its side and has its tally still to write. -/
def Point.Owes {α ι τ : Type} (p : Point α ι τ) : Prop := ∃ here, p.inner? = some here ∧ here.Owes

theorem Point.count?_of_inner? {α ι τ : Type} {p : Point α ι τ} {here : Completion.Point α ι}
    (h : p.inner? = some here) : p.count? = here.count? := by
  cases p with
  | direct | registering =>
    cases h
    rfl
  | look | store | subscribe | lookAgain => cases h

theorem Point.Sweeps.owes {α ι τ : Type} {p : Point α ι τ} (h : p.Sweeps) : p.Owes := by
  obtain ⟨here, inner, sweeps⟩ := h
  refine ⟨here, inner, ?_⟩
  cases here with
  | sweep => trivial
  | _ => exact sweeps.elim

theorem Call.count?_start {α ι τ : Type} (call : Call α ι τ) : call.start.count? = some 0 := by
  cases call with
  | direct call => cases call <;> rfl
  | poll p => rfl

variable {s s' : Site Value Item WakerId} {here p : Point Value Item WakerId}
  {a : Action Value Item (Point Value Item WakerId) (Answer Value)}

theorem Does.count (does : Does s here s' a) (next : a.next? = some p) {m : Nat}
    (count : p.count? = some m) : ∃ k, here.count? = some k ∧ m = k + a.invokes.length := by
  cases does with
  | @direct _ _ a inner | @registering _ _ _ a inner =>
    rw [Action.next?_map] at next
    obtain ⟨p', next', rfl⟩ := Option.map_eq_some_iff.1 next
    rw [Action.invokes_map]
    exact inner.count next' count
  | subscribe | unready | store =>
    cases next
    cases count
    exact ⟨0, rfl, rfl⟩
  | registered | subscribed =>
    cases next
    cases count
  | ready | readyAgain | pending => cases next

theorem Does.tally (does : Does s here s' a) {entry : Nat × Side} (tally : a.tallies = [entry]) :
    (∃ answer, here.inner? = some (.report entry.2 answer entry.1)) ∧
      ∃ p, a.next? = some p ∧ p.count? = none := by
  cases does with
  | @direct _ _ a inner | @registering _ _ _ a inner =>
    rw [Action.tallies_map] at tally
    obtain ⟨answer, rfl, next⟩ := inner.tally tally
    exact ⟨⟨answer, rfl⟩, _, by rw [Action.next?_map, next]; rfl, rfl⟩
  | _ => cases tally

theorem Does.owes (does : Does s here s' a) (owes : here.Owes)
    (fits : here.Fits s.completion.cell) (sound : s.completion.cell.Sound) :
    (∃ p, a.next? = some p ∧ p.Owes) ∨ ∃ entry, a.tallies = [entry] := by
  obtain ⟨there, inner, owes⟩ := owes
  have fits' := fits there inner
  cases does with
  | @direct _ _ a does | @registering _ _ _ a does =>
    cases inner
    obtain ⟨p, next, owes'⟩ | ⟨entry, tally⟩ := does.owes owes fits' sound
    · exact .inl ⟨_, by rw [Action.next?_map, next]; rfl, p, rfl, owes'⟩
    · exact .inr ⟨entry, (Action.tallies_map ..).trans tally⟩
  | registered does =>
    cases inner
    obtain ⟨p, next, -⟩ | ⟨entry, tally⟩ := does.owes owes fits' sound
    · cases next
    · cases tally
  | _ => cases inner

/-- A drain that finds its side owes a tally. -/
theorem Does.owes_of_check (does : Does s here s' a) {side : Side}
    {answer : Completion.Answer Value} (inner : here.inner? = some (.check side answer))
    (on : s.completion.cell.state = .settled side) : ∃ p, a.next? = some p ∧ p.Owes := by
  have inside : ∀ {x b}, Completion.Does s.completion (.check side answer) x b →
      b = .goto (.fetch side answer) := by
    intro x b does
    cases does with
    | check => rfl
    | checkOff off => exact absurd on off
  cases does with
  | direct does | registering does =>
    cases inner
    cases inside does
    exact ⟨_, rfl, _, rfl, trivial⟩
  | registered does =>
    cases inner
    cases inside does
  | _ => cases inner

end Site

namespace Machine

open World

/-! ## Calls and tallies of a run -/

section Runs

variable {watched : List String} {script : Script} {c : CompletionId}
  {upper below : List Frame} {here : Site.Point Value Item WakerId} {i j n : Nat}

/-- The completion invokes an item in the step at moment `i`. -/
def InvokedAt (watched : List String) (script : Script) (c : CompletionId) (i : Nat) : Prop :=
  ∃ call, (moment watched script (i + 1)).world.invoked c
    = (moment watched script i).world.invoked c ++ [call]

/-- A drain of the completion writes a tally in the step at moment `j`. -/
def TalliedAt (watched : List String) (script : Script) (c : CompletionId) (entry : Nat × Side)
    (j : Nat) : Prop :=
  (moment watched script (j + 1)).world.tallies c
    = (moment watched script j).world.tallies c ++ [entry]

/-- A call on the completion is topmost, above the frames. -/
def OnTop (c : CompletionId) (below : List Frame) (m : Machine) : Prop :=
  ∃ here, m.stack = .driving c here :: below

/-- A drain is about to look at the cell, and the completion has settled on its side. -/
def FindsAt (watched : List String) (script : Script) (c : CompletionId) (i : Nat) : Prop :=
  ∃ here below side answer, (moment watched script i).stack = .driving c here :: below ∧
    (moment watched script i).control = .resume ∧ here.inner? = some (.check side answer) ∧
    ((moment watched script i).world.completion c).cell.state = .settled side

/-- One call on the completion is topmost at both moments: it stands above the same frames, and
something has run above these all the time. -/
def OneCall (watched : List String) (script : Script) (c : CompletionId) (i j : Nat) : Prop :=
  ∃ below, OnTop c below (moment watched script i) ∧ OnTop c below (moment watched script j) ∧
    Stays watched script below i j

/-- The tally that is written at moment `j` counts the invocation at moment `i`: the drain that
made the one has written the other. -/
def Counts (watched : List String) (script : Script) (c : CompletionId) (i j : Nat) : Prop :=
  InvokedAt watched script c i ∧ (∃ entry, TalliedAt watched script c entry j) ∧
    OneCall watched script c i j

theorem OnTop.eq {m : Machine} {below' : List Frame} (h : OnTop c below m)
    (h' : OnTop c below' m) : below = below' := by
  obtain ⟨here, hstack⟩ := h
  obtain ⟨here', hstack'⟩ := h'
  exact (List.cons.inj (hstack.symm.trans hstack')).2

theorem OnTop.high {m : Machine} (h : OnTop c below m) : m.stack.length = below.length + 1 := by
  obtain ⟨here, hstack⟩ := h
  rw [hstack, List.length_cons]

theorem InvokedAt.works (h : InvokedAt watched script c i) :
    ∃ there rest s k x arg p, (moment watched script i).stack = .driving c there :: rest ∧
      Works (moment watched script i).world c there rest (moment watched script (i + 1)) s
        (.call k x arg p) := by
  obtain ⟨call, invoked⟩ := h
  rw [moment_succ] at invoked ⊢
  exact (moment_sound watched script i).works_of_invoked (by simp [invoked])

theorem invokedAt_of_ne (invokes : (moment watched script (i + 1)).world.invoked c
    ≠ (moment watched script i).world.invoked c) : InvokedAt watched script c i := by
  rw [moment_succ] at invokes
  obtain ⟨_, _, s, k, x, arg, p, -, works⟩ :=
    (moment_sound watched script i).works_of_invoked invokes
  refine ⟨(k, x, arg), ?_⟩
  rw [moment_succ, works.invoked, if_pos rfl]
  rfl

theorem not_invokedAt_of_still
    (still : Still c (moment watched script i) (moment watched script (i + 1))) :
    ¬ InvokedAt watched script c i := by
  rintro ⟨call, invoked⟩
  exact absurd (still.invoked.symm.trans invoked) (by simp)

theorem talliedAt_of_ne (tallies : (moment watched script (j + 1)).world.tallies c
    ≠ (moment watched script j).world.tallies c) : ∃ entry, TalliedAt watched script c entry j := by
  rw [moment_succ] at tallies
  obtain ⟨_, _, s, action, entry, -, works, tally⟩ :=
    (moment_sound watched script j).works_of_tallied tallies
  refine ⟨entry, ?_⟩
  unfold TalliedAt
  rw [moment_succ, works.tallies, if_pos rfl, tally]

/-- A tally is written by a call that stands at its report. -/
theorem TalliedAt.works {entry : Nat × Side} (h : TalliedAt watched script c entry j) :
    ∃ there rest s action, (moment watched script j).stack = .driving c there :: rest ∧
      Works (moment watched script j).world c there rest (moment watched script (j + 1)) s action ∧
      action.tallies = [entry] := by
  unfold TalliedAt at h
  rw [moment_succ] at h ⊢
  obtain ⟨there, rest, s, action, entry', hstack, works, tallies⟩ :=
    (moment_sound watched script j).works_of_tallied (c := c) (by simp [h])
  have written := works.tallies c
  rw [if_pos rfl, h] at written
  exact ⟨there, rest, s, action, hstack, works, (List.append_cancel_left written).symm⟩

/-! ### Backwards: what a drain has counted -/

/-- The completion invokes an item at moment `i`, and the call that does so is under way, above the
frames, up to moment `n`. -/
structure InvokedBy (watched : List String) (script : Script) (c : CompletionId)
    (below : List Frame) (n i : Nat) : Prop where
  invoked : InvokedAt watched script c i
  onTop : OnTop c below (moment watched script i)
  stays : Stays watched script below i n

/-- What a call has invoked one moment later. -/
theorem invokedBy_succ (high : below.length < (moment watched script n).stack.length) :
    i < n + 1 ∧ InvokedBy watched script c below (n + 1) i ↔
      i < n ∧ InvokedBy watched script c below n i ∨
        i = n ∧ InvokedAt watched script c n ∧ OnTop c below (moment watched script n) := by
  constructor
  · rintro ⟨early, by_⟩
    obtain earlier | rfl := Nat.lt_or_eq_of_le (Nat.le_of_lt_succ early)
    · exact .inl ⟨earlier, by_.invoked, by_.onTop, Nat.le_of_lt earlier,
        fun k hik hkn => by_.stays.high k hik (Nat.lt_succ_of_lt hkn)⟩
    · exact .inr ⟨rfl, by_.invoked, by_.onTop⟩
  · rintro (⟨earlier, by_⟩ | ⟨rfl, invoked, onTop⟩)
    · exact ⟨Nat.lt_succ_of_lt earlier, by_.invoked, by_.onTop, by_.stays.trans (.step high)⟩
    · exact ⟨Nat.lt_succ_self i, invoked, onTop, .step high⟩

/-- A call on a completion stands at the count of the items that it has invoked. -/
theorem calls_of_count {m : Nat}
    (hstack : (moment watched script n).stack = upper ++ .driving c here :: below)
    (count : here.count? = some m) :
    ∃ calls : List Nat, calls.Nodup ∧ calls.length = m ∧
      ∀ i, i ∈ calls ↔ i < n ∧ InvokedBy watched script c below n i := by
  induction n generalizing upper here m with
  | zero =>
    have member : Frame.driving c here ∈ (moment watched script 0).stack := by simp [hstack]
    exact absurd (List.mem_singleton.1 member) (by simp)
  | succ n ih =>
    -- Nothing is invoked by a call that does not make the step.
    have same : below.length < (moment watched script n).stack.length →
        ¬ (InvokedAt watched script c n ∧ OnTop c below (moment watched script n)) →
        ∀ {calls : List Nat},
          (∀ i, i ∈ calls ↔ i < n ∧ InvokedBy watched script c below n i) →
          ∀ i, i ∈ calls ↔ i < n + 1 ∧ InvokedBy watched script c below (n + 1) i := by
      intro high idle calls hcalls i
      rw [hcalls, invokedBy_succ high]
      exact ⟨.inl, fun h => h.resolve_right fun now => idle now.2⟩
    cases moment_origin hstack with
    | @deeper frame upper' hdeeper =>
      have higher : (moment watched script n).stack.length = upper'.length + below.length + 2 := by
        rw [hdeeper, List.length_cons, List.length_append, List.length_cons]
        omega
      obtain ⟨calls, nodup, length, hcalls⟩ := @ih (frame :: upper') here m hdeeper count
      refine ⟨calls, nodup, length, same (by omega) (fun now => ?_) hcalls⟩
      have := now.2.high
      omega
    | heard htop still =>
      obtain ⟨calls, nodup, length, hcalls⟩ := @ih [] here m htop count
      exact ⟨calls, nodup, length, same (by simp [htop])
        (fun now => not_invokedAt_of_still still now.1) hcalls⟩
    | @made there s action htop works next =>
      obtain ⟨k, count', rfl⟩ := works.does.count next count
      obtain ⟨calls, nodup, length, hcalls⟩ := @ih [] there k htop count'
      have high : below.length < (moment watched script n).stack.length := by simp [htop]
      have invoked := works.invoked c
      rw [if_pos rfl] at invoked
      cases action with
      | call kind x arg p =>
        refine ⟨n :: calls, List.nodup_cons.2 ⟨fun now => ?_, nodup⟩, ?_, fun i => ?_⟩
        · exact Nat.lt_irrefl n ((hcalls n).1 now).1
        · rw [List.length_cons, length]
          rfl
        · rw [List.mem_cons, hcalls, invokedBy_succ high, or_comm]
          have now : InvokedAt watched script c n ∧ OnTop c below (moment watched script n) :=
            ⟨⟨_, invoked⟩, there, htop⟩
          simp only [now, and_true]
      | goto p | notice _ p | done _ | refused _ _ =>
        refine ⟨calls, nodup, length, same high (fun now => ?_) hcalls⟩
        obtain ⟨call, more⟩ := now.1
        exact absurd (more.symm.trans invoked) (by simp [Action.invokes])
    | @fresh call low new =>
      rw [new, call.count?_start] at count
      obtain rfl := Option.some.inj count
      refine ⟨[], List.nodup_nil, rfl, fun i => ?_⟩
      refine ⟨fun mem => absurd mem List.not_mem_nil, fun invoked => ?_⟩
      obtain ⟨early, by_⟩ := invoked
      exact absurd (by_.stays.high n (Nat.le_of_lt_succ early) (Nat.lt_succ_self n))
        (Nat.not_lt_of_le low)

/-- A tally says how many invocations it counts. -/
theorem TalliedAt.counts {entry : Nat × Side} (h : TalliedAt watched script c entry j) :
    ∃ calls : List Nat, calls.Nodup ∧ (∀ i, i ∈ calls ↔ Counts watched script c i j) ∧
      calls.length = entry.1 := by
  obtain ⟨there, rest, s, action, htop, works, tally⟩ := h.works
  obtain ⟨⟨answer, inner⟩, -⟩ := works.does.tally tally
  have onTop : OnTop c rest (moment watched script j) := ⟨there, htop⟩
  obtain ⟨calls, nodup, length, hcalls⟩ := @calls_of_count watched script c [] rest there j _ htop
    (Site.Point.count?_of_inner? inner)
  refine ⟨calls, nodup, fun i => ?_, length⟩
  rw [hcalls]
  constructor
  · rintro ⟨-, by_⟩
    exact ⟨by_.invoked, ⟨entry, h⟩, rest, by_.onTop, onTop, by_.stays⟩
  · rintro ⟨invoked, -, rest', onTop', onTop'', stays⟩
    obtain rfl := onTop.eq onTop''
    obtain earlier | rfl := Nat.lt_or_eq_of_le stays.le
    · exact ⟨earlier, invoked, onTop', stays⟩
    · -- The step that writes a tally invokes nothing.
      obtain ⟨call, more⟩ := invoked
      have silent := works.invoked c
      rw [if_pos rfl, more] at silent
      rw [action.invokes_of_tallies tally] at silent
      simp at silent

/-! ### Forwards: what a drain owes -/

/-- The call that is topmost at moment `i` is under way at moment `n`: it has found its side, and
has its tally still to write. -/
def Owing (watched : List String) (script : Script) (c : CompletionId) (i n : Nat) : Prop :=
  ∃ upper here below, (moment watched script n).stack = upper ++ .driving c here :: below ∧
    here.Owes ∧ OnTop c below (moment watched script i) ∧ Stays watched script below i n

/-- A drain that owes a tally goes on owing it or writes it, unless a panic passes it. -/
theorem Owing.step (h : Owing watched script c i n)
    (calm : unwinds c (moment watched script n) = false) :
    Owing watched script c i (n + 1) ∨
      OneCall watched script c i n ∧ ∃ entry, TalliedAt watched script c entry n := by
  obtain ⟨upper, here, below, hstack, owes, onTop, stays⟩ := h
  have sound := moment_sound watched script n
  have high : below.length < (moment watched script n).stack.length := by
    rw [hstack, List.length_append, List.length_cons]
    omega
  have stays' : Stays watched script below i (n + 1) := stays.trans (.step high)
  cases upper with
  | cons frame upper =>
    obtain ⟨frames, hnew, -⟩ := sound.keeps_below hstack
    refine .inl ⟨frames ++ upper, here, below, ?_, owes, onTop, stays'⟩
    rw [moment_succ, List.append_assoc]
    exact hnew
  | nil =>
    obtain ⟨s, action, works⟩ | ⟨-, same | ⟨-, panics⟩⟩ := sound.topmost hstack
    · obtain ⟨alive, fits⟩ := sound.of_driving (by rw [hstack]; exact List.mem_cons_self ..)
      obtain ⟨p, next, owes'⟩ | ⟨entry, tally⟩ :=
        works.does.owes owes fits (sound.world.exact alive.getElem?).cell
      · obtain ⟨upper, hnew⟩ := works.stands next
        rw [← moment_succ] at hnew
        exact .inl ⟨upper, p, below, hnew, owes', onTop, stays'⟩
      · have written := works.tallies c
        rw [if_pos rfl, tally, ← moment_succ] at written
        exact .inr ⟨⟨below, onTop, ⟨here, hstack⟩, stays⟩, entry, written⟩
    · rw [← moment_succ] at same
      exact .inl ⟨[], here, below, same, owes, onTop, stays'⟩
    · cases calm.symm.trans panics

/-- A drain that owes a tally has written it when no call on its completion is under way. -/
theorem Owing.writes {l : Nat} (h : Owing watched script c i n) (hnl : n ≤ l)
    (calm : ∀ k < l, unwinds c (moment watched script k) = false)
    (idle : ∀ here, .driving c here ∉ (moment watched script l).stack) :
    ∃ j < l, OneCall watched script c i j ∧ ∃ entry, TalliedAt watched script c entry j := by
  have follow : Owing watched script c i l ∨
      ∃ j < l, OneCall watched script c i j ∧ ∃ entry, TalliedAt watched script c entry j := by
    clear idle
    induction hnl with
    | refl => exact .inl h
    | @step l _ ih =>
      obtain still | ⟨j, early, written⟩ := ih fun k hk => calm k (Nat.lt_succ_of_lt hk)
      · obtain still' | written := still.step (calm l (Nat.lt_succ_self l))
        · exact .inl still'
        · exact .inr ⟨l, Nat.lt_succ_self l, written⟩
      · exact .inr ⟨j, Nat.lt_succ_of_lt early, written⟩
  obtain ⟨upper, here, below, hstack, -⟩ | written := follow
  · exact absurd (by simp [hstack]) (idle here)
  · exact written

/-- A drain that invokes an item owes a tally. -/
theorem InvokedAt.owing (h : InvokedAt watched script c i) :
    Owing watched script c i (i + 1) := by
  obtain ⟨there, rest, s, k, x, arg, p, htop, works⟩ := h.works
  obtain ⟨-, fits⟩ := (moment_sound watched script i).of_driving (htop ▸ List.mem_cons_self ..)
  obtain ⟨-, -, -, sweeps⟩ := works.does.of_call fits
  obtain ⟨upper, hnew⟩ := works.stands rfl
  exact ⟨upper, p, rest, hnew, sweeps.owes, ⟨there, htop⟩, .step (by simp [htop])⟩

/-- A drain that finds its side owes a tally. -/
theorem FindsAt.owing (h : FindsAt watched script c i) : Owing watched script c i (i + 1) := by
  obtain ⟨here, below, side, answer, htop, told, inner, on⟩ := h
  obtain ⟨s, action, works⟩ := (moment_sound watched script i).works htop told
  rw [← moment_succ] at works
  obtain ⟨p, next, owes⟩ := works.does.owes_of_check inner on
  obtain ⟨upper, hnew⟩ := works.stands next
  exact ⟨upper, p, below, hnew, owes, ⟨here, htop⟩, .step (by simp [htop])⟩

/-- A call that has written its tally counts no more. -/
theorem TalliedAt.spent {entry : Nat × Side} (h : TalliedAt watched script c entry j)
    (onTop : OnTop c below (moment watched script j)) (later : j < n)
    (stays : Stays watched script below j n)
    (hstack : (moment watched script n).stack = upper ++ .driving c here :: below) :
    here.count? = none := by
  induction n generalizing upper here with
  | zero => exact absurd later (Nat.not_lt_zero j)
  | succ n ih =>
    have before : ∀ {upper here},
        (moment watched script n).stack = upper ++ .driving c here :: below →
        j = n ∨ here.count? = none := by
      intro upper here hstack
      obtain rfl | later := Nat.eq_or_lt_of_le (Nat.le_of_lt_succ later)
      · exact .inl rfl
      · exact .inr (ih later ⟨Nat.le_of_lt later, fun k hjk hkn =>
          stays.high k hjk (Nat.lt_succ_of_lt hkn)⟩ hstack)
    cases moment_origin hstack with
    | @deeper frame upper' hdeeper =>
      obtain rfl | spent := @before (frame :: upper') here hdeeper
      · have high := onTop.high
        rw [hdeeper, List.length_cons, List.length_append, List.length_cons] at high
        omega
      · exact spent
    | heard htop still =>
      obtain rfl | spent := @before [] here htop
      · exact absurd (still.tallies.symm.trans h) (by simp)
      · exact spent
    | @made there s action htop works next =>
      have ended : ∀ m, here.count? = some m → False := by
        intro m count
        obtain ⟨k, count', -⟩ := works.does.count next count
        obtain rfl | spent := @before [] there htop
        · have written := works.tallies c
          rw [if_pos rfl, h] at written
          obtain ⟨-, p, next', spent⟩ := works.does.tally (List.append_cancel_left written).symm
          obtain rfl := Option.some.inj (next.symm.trans next')
          cases spent.symm.trans count
        · cases spent.symm.trans count'
      exact Option.eq_none_iff_forall_ne_some.2 ended
    | fresh low =>
      exact absurd (stays.high n (Nat.le_of_lt_succ later) (Nat.lt_succ_self n))
        (Nat.not_lt_of_le low)

/-- A call writes one tally at most. -/
theorem not_lt_of_tallied {entry entry' : Nat × Side} {j' : Nat}
    (h : TalliedAt watched script c entry j) (h' : TalliedAt watched script c entry' j')
    (one : OneCall watched script c i j) (one' : OneCall watched script c i j') : ¬ j < j' := by
  intro later
  obtain ⟨below, top, onTop, stays⟩ := one
  obtain ⟨below', top', onTop', stays'⟩ := one'
  obtain rfl := top.eq top'
  obtain ⟨there, rest, s, action, htop, works, tally⟩ := h'.works
  obtain rfl := onTop'.eq ⟨there, htop⟩
  have between : Stays watched script below j j' :=
    ⟨Nat.le_of_lt later, fun k hjk hkj => stays'.high k (Nat.le_trans stays.le hjk) hkj⟩
  have spent := @TalliedAt.spent watched script c [] below there j j' entry h onTop later between
    htop
  obtain ⟨⟨answer, inner⟩, -⟩ := works.does.tally tally
  cases spent.symm.trans (Site.Point.count?_of_inner? inner)

theorem tallied_unique {entry entry' : Nat × Side} {j' : Nat}
    (h : TalliedAt watched script c entry j) (h' : TalliedAt watched script c entry' j')
    (one : OneCall watched script c i j) (one' : OneCall watched script c i j') : j = j' :=
  Nat.le_antisymm (Nat.le_of_not_lt (not_lt_of_tallied h' h one' one))
    (Nat.le_of_not_lt (not_lt_of_tallied h h' one one'))

/-! ### All tallies -/

/-- A tally names the side on which the completion has settled. -/
theorem side_of_tally {entry : Nat × Side}
    (written : entry ∈ (moment watched script n).world.tallies c) :
    ∃ o, (moment watched script n).world.settlement c = some o ∧ o.side = entry.2 := by
  induction n with
  | zero => cases written
  | succ n ih =>
    have lasts : ∀ {o}, (moment watched script n).world.settlement c = some o →
        (moment watched script (n + 1)).world.settlement c = some o :=
      fun settled => settlement_lasts settled (Nat.le_succ n)
    have sound := moment_sound watched script n
    by_cases same : (moment watched script n).step.world.tallies c
        = (moment watched script n).world.tallies c
    · rw [moment_succ, same] at written
      obtain ⟨o, settled, side⟩ := ih written
      exact ⟨o, lasts settled, side⟩
    · obtain ⟨there, rest, s, action, entry', htop, works, tally⟩ := sound.works_of_tallied same
      have more := works.tallies c
      rw [if_pos rfl, tally] at more
      rw [moment_succ, more] at written
      obtain earlier | now := List.mem_append.1 written
      · obtain ⟨o, settled, side⟩ := ih earlier
        exact ⟨o, lasts settled, side⟩
      · obtain rfl := List.mem_singleton.1 now
        obtain ⟨⟨answer, inner⟩, -⟩ := works.does.tally tally
        obtain ⟨alive, fits⟩ := sound.of_driving (htop ▸ List.mem_cons_self ..)
        have on := fits _ inner
        obtain ⟨v, stored⟩ := (sound.world.exact alive.getElem?).cell _ on
        have found := (moment_orderly watched script n).result_eq (c := c) alive
        rw [Cell.result_of_settled on, stored] at found
        exact ⟨⟨entry.2, v⟩, lasts found.symm, rfl⟩

open Classical in
/-- A completion has invoked one item in each step in which it invoked any. -/
theorem card_invokedAt (n : Nat) :
    ((Finset.range n).filter (InvokedAt watched script c)).card
      = ((moment watched script n).world.invoked c).length := by
  induction n with
  | zero => rfl
  | succ n ih =>
    rw [Finset.range_add_one, Finset.filter_insert]
    split
    next now =>
      rw [Finset.card_insert_of_notMem (by simp), ih]
      obtain ⟨call, more⟩ := now
      rw [more, List.length_append]
      rfl
    next idle =>
      have same : (moment watched script (n + 1)).world.invoked c
          = (moment watched script n).world.invoked c := by
        by_contra invokes
        exact idle (invokedAt_of_ne invokes)
      rw [same, ih]

open Classical in
/-- The tallies add up to the invocations that they count. -/
theorem sum_tallies {l : Nat} (hnl : n ≤ l) :
    (((moment watched script n).world.tallies c).map Prod.fst).sum
      = ∑ j ∈ Finset.range n,
        ((Finset.range l).filter fun i => Counts watched script c i j).card := by
  induction n with
  | zero => rfl
  | succ n ih =>
    rw [Finset.sum_range_succ, ← ih (Nat.le_of_succ_le hnl)]
    by_cases tallied : ∃ entry, TalliedAt watched script c entry n
    · obtain ⟨entry, tallied⟩ := tallied
      obtain ⟨calls, nodup, hcalls, length⟩ := tallied.counts
      have counted : (Finset.range l).filter (fun i => Counts watched script c i n)
          = calls.toFinset := by
        ext i
        rw [Finset.mem_filter, Finset.mem_range, List.mem_toFinset, hcalls]
        refine ⟨And.right, fun counts => ⟨?_, counts⟩⟩
        obtain ⟨-, -, below, -, -, stays⟩ := counts
        exact Nat.lt_of_le_of_lt stays.le hnl
      have more : (moment watched script (n + 1)).world.tallies c
          = (moment watched script n).world.tallies c ++ [entry] := tallied
      rw [counted, List.toFinset_card_of_nodup nodup, length, more]
      simp
    · have same : (moment watched script (n + 1)).world.tallies c
          = (moment watched script n).world.tallies c := by
        by_contra written
        exact tallied (talliedAt_of_ne written)
      have counted : (Finset.range l).filter (fun i => Counts watched script c i n) = ∅ :=
        Finset.filter_eq_empty_iff.2 fun i _ counts => tallied counts.2.1
      rw [same, counted, Finset.card_empty, Nat.add_zero]

/-- What a completion has invoked are the wakers and the callbacks of each kind. -/
theorem length_invoked (w : World) (c : CompletionId) :
    (w.invoked c).length = (w.called c .waker).length
      + ((w.called c (.on .success)).length + (w.called c (.on .failure)).length
        + (w.called c .always).length) := by
  simp only [called_eq, List.length_map]
  induction w.invoked c with
  | nil => rfl
  | cons call calls ih =>
    obtain ⟨k, x, arg⟩ := call
    rcases k with (_ | _) | _ | _ <;> simp <;> omega

/-- Each invocation is counted by one tally, when no call on the completion is under way. -/
theorem InvokedAt.counted (h : InvokedAt watched script c i) (early : i < n)
    (calm : ∀ k < n, unwinds c (moment watched script k) = false)
    (idle : ∀ here, .driving c here ∉ (moment watched script n).stack) :
    ∃! j, j < n ∧ Counts watched script c i j := by
  obtain ⟨j, hj, one, entry, tallied⟩ := h.owing.writes early calm idle
  refine ⟨j, ⟨hj, h, ⟨entry, tallied⟩, one⟩, ?_⟩
  rintro j' ⟨-, -, ⟨entry', tallied'⟩, one'⟩
  exact tallied_unique tallied' tallied one' one

end Runs

/-- Take any moment of any run at which no call on a completion is under way, such that no panic
has come out of a drain of that completion before. What an item does when it is called is not
restricted otherwise: it may register and drain again, and so may what that calls, and it may panic
under a context that isolates, which ends the panic before it reaches the drain.

Then the tallies that the drains have written add up to the wakers woken and the callbacks invoked.
Each invocation is counted by exactly one tally, that of the drain that made it, and each tally
counts as many invocations as it says. Every drain that found the completion settled on its side has
written exactly one tally; and all tallies name the side of the outcome. -/
theorem tallies_account_for_calls (watched : List String) (script : Script) (c : CompletionId)
    (n : Nat) (calm : ∀ i < n, unwinds c (moment watched script i) = false)
    (idle : ∀ here, .driving c here ∉ (moment watched script n).stack) :
    (((moment watched script n).world.tallies c).map Prod.fst).sum
      = ((moment watched script n).world.called c .waker).length
        + (((moment watched script n).world.called c (.on .success)).length
          + ((moment watched script n).world.called c (.on .failure)).length
          + ((moment watched script n).world.called c .always).length) ∧
    (∀ i < n, InvokedAt watched script c i → ∃! j, j < n ∧ Counts watched script c i j) ∧
    (∀ j < n, ∀ entry, TalliedAt watched script c entry j →
      ∃ calls : List Nat, calls.Nodup ∧ (∀ i, i ∈ calls ↔ Counts watched script c i j) ∧
        calls.length = entry.1) ∧
    (∀ i < n, FindsAt watched script c i →
      ∃! j, j < n ∧ OneCall watched script c i j ∧ ∃ entry, TalliedAt watched script c entry j) ∧
    ∀ entry ∈ (moment watched script n).world.tallies c,
      ∃ o, (moment watched script n).world.settlement c = some o ∧ o.side = entry.2 := by
  classical
  refine ⟨?_, fun i early invoked => invoked.counted early calm idle,
    fun j _ entry tallied => tallied.counts, fun i early finds => ?_, fun entry => side_of_tally⟩
  · have once : ∀ i ∈ Finset.range n,
        ((Finset.range n).filter fun j => Counts watched script c i j).card
          = if InvokedAt watched script c i then 1 else 0 := by
      intro i early
      split
      next invoked =>
        obtain ⟨j, counts, unique⟩ := invoked.counted (Finset.mem_range.1 early) calm idle
        refine Finset.card_eq_one.2 ⟨j, ?_⟩
        ext j'
        rw [Finset.mem_filter, Finset.mem_range, Finset.mem_singleton]
        exact ⟨unique j', fun same => same ▸ counts⟩
      next none =>
        exact Finset.card_eq_zero.2 (Finset.filter_eq_empty_iff.2 fun j _ counts => none counts.1)
    calc (((moment watched script n).world.tallies c).map Prod.fst).sum
        = ∑ j ∈ Finset.range n,
            ((Finset.range n).filter fun i => Counts watched script c i j).card :=
          sum_tallies (Nat.le_refl n)
      _ = ∑ i ∈ Finset.range n,
            ((Finset.range n).filter fun j => Counts watched script c i j).card :=
          (Finset.sum_card_bipartiteAbove_eq_sum_card_bipartiteBelow _).symm
      _ = ∑ i ∈ Finset.range n, if InvokedAt watched script c i then 1 else 0 :=
          Finset.sum_congr rfl once
      _ = ((moment watched script n).world.invoked c).length := by
          rw [← Finset.card_filter, card_invokedAt]
      _ = _ := length_invoked _ c
  · obtain ⟨j, hj, one, entry, tallied⟩ := finds.owing.writes early calm idle
    refine ⟨j, ⟨hj, one, entry, tallied⟩, ?_⟩
    rintro j' ⟨-, one', entry', tallied'⟩
    exact tallied_unique tallied' tallied one' one

/-- A promise that isolates is settled with a waker and three callbacks chained to it. The first of
them registers a fourth, whose drain finds the other two: one panics, the other one is to be called
in either case. -/
def nestedDrains : Script :=
  [.mk "" (.create "x" (.context [.policy .isolate])),
    .mk "" (.create "d" (.deferred (some "x"))),
    .mk "" (.onDeferred "d" (.promise "p")),
    .mk "" (.create "w" (.waker [])),
    .mk "" (.onPromise "p" (.poll "w")),
    .mk "" (.onPromise "p" (.register (.on .success) (.mk "nests"
      [.mk "" (.onPromise "p" (.register .always (.mk "late" [])))]))),
    .mk "" (.onPromise "p" (.register (.on .success) (.mk "panics"
      [.mk "" (.raise (.text "lost"))]))),
    .mk "" (.onPromise "p" (.register .always (.mk "last" []))),
    .mk "" (.onDeferred "d" (.settle ⟨.success, { data := .int 1 }⟩))]

/-- In `nestedDrains` the inner drain counts three calls and writes its tally first; the outer one
counts the waker and the callback that nests. The callback that is invoked at moment 51 panics, and
the panic stands at its guard at moment 54. -/
theorem tallies_account_for_calls_nested :
    (∀ i < 81, unwinds 0 (moment [] nestedDrains i) = false) ∧
    (moment [] nestedDrains 81).stack = [] ∧
    (moment [] nestedDrains 81).world.tallies 0 = [(3, .success), (2, .success)] ∧
    (∃ ctx below p, (moment [] nestedDrains 54).stack = .guarding 0 ctx :: below ∧
      (moment [] nestedDrains 54).control = .unwind p) ∧
    (∃! j, j < 81 ∧ Counts [] nestedDrains 0 51 j) ∧
    ((moment [] nestedDrains 81).world.called 0 .waker).length
        + (((moment [] nestedDrains 81).world.called 0 (.on .success)).length
          + ((moment [] nestedDrains 81).world.called 0 (.on .failure)).length
          + ((moment [] nestedDrains 81).world.called 0 .always).length) = 3 + 2 := by
  have calm : ∀ i < 81, unwinds 0 (moment [] nestedDrains i) = false := by decide +kernel
  have ended : (moment [] nestedDrains 81).stack = [] :=
    List.isEmpty_iff.1 (by decide +kernel : (moment [] nestedDrains 81).isOver = true)
  have tallies : (moment [] nestedDrains 81).world.tallies 0 = [(3, .success), (2, .success)] := by
    decide +kernel
  have invoked : InvokedAt [] nestedDrains 0 51 := by
    refine invokedAt_of_ne fun same => ?_
    have length : ((moment [] nestedDrains 52).world.invoked 0).length
        ≠ ((moment [] nestedDrains 51).world.invoked 0).length := by decide +kernel
    exact length (congrArg List.length same)
  obtain ⟨sum, counted, -⟩ := tallies_account_for_calls [] nestedDrains 0 81 calm (by simp [ended])
  rw [tallies] at sum
  exact ⟨calm, ended, tallies, ⟨_, _, _, rfl, rfl⟩, counted 51 (by decide) invoked, sum.symm⟩

end Machine

end Eventual
