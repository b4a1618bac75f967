import Eventual.Proofs.Machine.Undisturbed

/-!
# Where the calls on the stack come from

A call on a completion that stands on the stack after a step stood there before, below the frame
that made the step; or it heard that what it had called has come back; or it made the step itself;
or it is new, and then it stands higher than anything before. `Sound.origin` says so for any step
of a run, and with it what holds of a call as long as it is under way is shown step by step.
-/

namespace Eventual

namespace Machine

open World

section Origins

variable {m m' : Machine} {w : World} {c d : CompletionId} {frame : Frame}
  {frames rest upper below : List Frame} {here there : Site.Point Value Item WakerId}

/-- A panic comes out of what the topmost frame called, and that is a call on the completion. -/
def unwinds (c : CompletionId) (m : Machine) : Bool :=
  attends c m &&
    match m.control with
    | .unwind _ => true
    | .resume | .answer _ | .faulty _ => false

/-- What a call on a completion that stands on the stack after a step was before the step. -/
inductive Origin (c : CompletionId) (m m' : Machine) (here : Site.Point Value Item WakerId)
    (below : List Frame) : Prop
  /-- It stood below the frame that made the step. -/
  | deeper {frame : Frame} {upper : List Frame} :
      m.stack = frame :: (upper ++ .driving c here :: below) → Origin c m m' here below
  /-- It heard that what it had called has come back. -/
  | heard : m.stack = .driving c here :: below → Still c m m' → Origin c m m' here below
  /-- It made the step. -/
  | made {there : Site.Point Value Item WakerId} {s : Site Value Item WakerId}
      {action : Action Value Item (Site.Point Value Item WakerId) (Site.Answer Value)} :
      m.stack = .driving c there :: below → Works m.world c there below m' s action →
      action.next? = some here → Origin c m m' here below
  /-- It is new, and stands higher than anything that was there. -/
  | fresh {call : Site.Call Value Item WakerId} : m.stack.length ≤ below.length →
      here = call.start → Origin c m m' here below

theorem split_stack (h : frames ++ rest = upper ++ frame :: below) :
    (∃ upper', rest = upper' ++ frame :: below) ∨
      ∃ lower, frames = upper ++ frame :: lower ∧ below = lower ++ rest := by
  obtain ⟨lower, rfl, hrest⟩ | ⟨lower, rfl, hbelow⟩ := List.append_eq_append_iff.1 h
  · exact .inl ⟨lower, hrest⟩
  · cases lower with
    | nil => exact .inl ⟨[], hbelow.symm⟩
    | cons frame' lower =>
      obtain ⟨rfl, rfl⟩ := List.cons.inj hbelow
      exact .inr ⟨lower, rfl, rfl⟩

/-- What a move puts onto the stack: the calls among it are new, and stand above something else. -/
theorem Moves.above {control : Control} (h : Moves w below frame control m')
    (other : ∀ here, frame ≠ .driving c here) :
    ∃ frames, m'.stack = frames ++ below ∧
      ∀ upper here lower, frames = upper ++ .driving c here :: lower →
        lower ≠ [] ∧ ∃ call : Site.Call Value Item WakerId, here = call.start := by
  have single : ∀ {f : Frame}, (∀ here, f ≠ .driving c here) →
      ∀ upper here lower, [f] = upper ++ .driving c here :: lower →
        lower ≠ [] ∧ ∃ call : Site.Call Value Item WakerId, here = call.start := by
    intro f other upper here lower split
    exact absurd (List.mem_singleton.1 (split ▸ List.mem_append_right _ (List.mem_cons_self ..)))
      (other here).symm
  cases h with
  | @begins _ act base begins =>
    obtain ⟨f, rfl, plain⟩ : ∃ f, base = f :: below ∧ ∀ here, f ≠ .driving c here := by
      cases begins with
      | session hstack _ | body hstack _ =>
        dsimp only at hstack
        obtain ⟨-, below_eq⟩ := List.cons.inj hstack
        rw [← below_eq]
        exact ⟨_, rfl, by simp⟩
    have fresh := (begin_begins w (heldBy (f :: below)) act).fresh
    refine ⟨(begin w (heldBy (f :: below)) act).frames ++ [f], ?_, ?_⟩
    · rw [List.append_assoc]
      rfl
    intro upper here lower split
    obtain ⟨upper', last⟩ | ⟨lower', started, rfl⟩ := split_stack split
    · exact single plain _ _ _ last
    · exact ⟨List.append_ne_nil_of_right_ne_nil _ (List.cons_ne_nil f []),
        fresh (.driving c here) (started ▸ List.mem_append_right _ (List.mem_cons_self ..))⟩
  | @repeats n script =>
    refine ⟨[.body "" script, .repeating n script], rfl, fun upper here lower split => ?_⟩
    have member : Frame.driving c here ∈ [.body "" script, .repeating n script] :=
      split ▸ List.mem_append_right _ (List.mem_cons_self ..)
    simp at member
  | @chains c' ctx k cb rest =>
    refine ⟨[.driving c' _, .chaining c' ctx rest], rfl, fun upper here lower split => ?_⟩
    cases upper with
    | nil =>
      obtain ⟨first, rfl⟩ := List.cons.inj split
      cases first
      exact ⟨List.cons_ne_nil _ _, _, rfl⟩
    | cons f upper => exact single (by simp) _ _ _ (List.cons.inj split).2
  | resumes => exact ⟨[frame], rfl, single other⟩
  | offers => exact ⟨[_], rfl, single (by simp)⟩
  | answers | loses | breaks | passes =>
    exact ⟨[], rfl, fun upper _ _ split => absurd split.symm (by simp)⟩
  | yields _ aloof =>
    refine ⟨_, rfl, fun upper here lower split => ?_⟩
    exact (aloof (.driving c here) (split ▸ List.mem_append_right _ (List.mem_cons_self ..))).elim

/-- A topmost call on a completion makes a step, hears that what it called has come back, or is
passed by a panic. -/
theorem Sound.topmost (sound : m.Sound) (hstack : m.stack = .driving d there :: rest) :
    (∃ s action, Works m.world d there rest m.step s action) ∨
      (∀ c, Still c m m.step) ∧
        (m.step.stack = .driving d there :: rest ∨ m.step.stack = rest ∧ unwinds d m = true) := by
  cases told : m.control with
  | resume => exact .inl (sound.works hstack told)
  | answer r =>
    rw [step_of_answer hstack told]
    exact .inr ⟨(receive_moves r (.driving d there)).still, .inl rfl⟩
  | faulty f =>
    rw [step_of_faulty hstack told]
    exact .inr ⟨(reject_moves f (.driving d there)).still, .inl rfl⟩
  | unwind p =>
    rw [step_of_unwind hstack told]
    exact .inr ⟨(unwind_moves p (.driving d there)).still,
      .inr ⟨rfl, by simp [unwinds, attends, hstack, told]⟩⟩

theorem Moves.origin {control : Control} (moves : Moves w rest frame control m')
    (other : ∀ here, frame ≠ .driving c here) (hstack : m.stack = frame :: rest)
    (h : m'.stack = upper ++ .driving c here :: below) : Origin c m m' here below := by
  obtain ⟨frames, hnew, calls⟩ := moves.above other
  obtain ⟨upper', split⟩ | ⟨lower, split, rfl⟩ := split_stack (hnew.symm.trans h)
  · exact .deeper (split ▸ hstack)
  · obtain ⟨above, call, rfl⟩ := calls upper here lower split
    refine .fresh ?_ rfl
    rw [hstack, List.length_append, List.length_cons]
    have := List.length_pos_iff.2 above
    omega

theorem Works.origin {s : Site Value Item WakerId}
    {action : Action Value Item (Site.Point Value Item WakerId) (Site.Answer Value)}
    (works : Works m.world d there rest m' s action) (hstack : m.stack = .driving d there :: rest)
    (h : m'.stack = upper ++ .driving c here :: below) : Origin c m m' here below := by
  -- a frame among those the call leaves behind is the call itself, or stood below it
  have own : ∀ {p upper}, action.next? = some p →
      .driving d p :: rest = upper ++ .driving c here :: below → Origin c m m' here below := by
    intro p upper next split
    cases upper with
    | nil =>
      obtain ⟨first, rfl⟩ := List.cons.inj split
      cases first
      exact .made hstack works next
    | cons f upper =>
      obtain ⟨-, rfl⟩ := List.cons.inj split
      exact .deeper hstack
  have leads := works.leads
  rw [h] at leads
  generalize hnew : upper ++ .driving c here :: below = stack at leads
  generalize m'.control = control at leads
  cases leads with
  | goto | notice => exact own rfl hnew.symm
  | call fresh =>
    obtain ⟨upper', split⟩ | ⟨lower, split, rfl⟩ := split_stack hnew.symm
    · exact own rfl split
    · obtain ⟨call, rfl⟩ := fresh (.driving c here)
        (split ▸ List.mem_append_right _ (List.mem_cons_self ..))
      refine .fresh ?_ rfl
      rw [hstack, List.length_append]
      exact Nat.le_add_left ..
  | done | refused => exact .deeper (hnew ▸ hstack)

/-- Where a call on a completion on the stack comes from. -/
theorem Sound.origin (sound : m.Sound) (h : m.step.stack = upper ++ .driving c here :: below) :
    Origin c m m.step here below := by
  cases hstack : m.stack with
  | nil =>
    rw [step_of_isOver (List.isEmpty_iff.2 hstack), hstack] at h
    simp at h
  | cons frame rest =>
    by_cases driving : ∃ d there, frame = .driving d there
    · obtain ⟨d, there, rfl⟩ := driving
      obtain ⟨s, action, works⟩ | ⟨still, same | ⟨gone, -⟩⟩ := sound.topmost hstack
      · exact works.origin hstack h
      · rw [same] at h
        cases upper with
        | nil =>
          obtain ⟨first, rfl⟩ := List.cons.inj h
          cases first
          exact .heard hstack (still c)
        | cons f upper =>
          obtain ⟨-, rfl⟩ := List.cons.inj h
          exact .deeper hstack
      · exact .deeper ((gone.symm.trans h) ▸ hstack)
    · obtain moves | ⟨d, there, s, action, -, rfl, -⟩ := sound.moves_or_works hstack
      · exact moves.origin (fun here e => driving ⟨c, here, e⟩) hstack h
      · exact absurd ⟨d, there, rfl⟩ driving

theorem Works.stands {s : Site Value Item WakerId}
    {action : Action Value Item (Site.Point Value Item WakerId) (Site.Answer Value)}
    (works : Works w c there rest m' s action) (next : action.next? = some here) :
    ∃ upper, m'.stack = upper ++ .driving c here :: rest := by
  have leads := works.leads
  generalize m'.stack = stack at leads ⊢
  generalize m'.control = control at leads
  cases leads with
  | goto | notice =>
    cases next
    exact ⟨[], rfl⟩
  | call =>
    cases next
    exact ⟨_, rfl⟩
  | done | refused => cases next

/-- A step in which the completion invokes an item or writes a tally is a step of a call on it. -/
theorem Sound.works_of_not_still (sound : m.Sound) (busy : ¬ Still c m m.step) :
    ∃ there rest s action, m.stack = .driving c there :: rest ∧
      Works m.world c there rest m.step s action := by
  obtain ⟨there, rest, hstack⟩ : ∃ there rest, m.stack = .driving c there :: rest :=
    Classical.byContradiction fun apart =>
      busy (sound.still fun there rest hstack => apart ⟨there, rest, hstack⟩)
  obtain ⟨s, action, works⟩ | ⟨still, -⟩ := sound.topmost hstack
  · exact ⟨there, rest, s, action, hstack, works⟩
  · exact absurd (still c) busy

/-- A step that invokes an item is a step of the drain that takes it. -/
theorem Sound.works_of_invoked (sound : m.Sound)
    (invokes : m.step.world.invoked c ≠ m.world.invoked c) :
    ∃ there rest s k x arg p, m.stack = .driving c there :: rest ∧
      Works m.world c there rest m.step s (.call k x arg p) := by
  obtain ⟨there, rest, s, action, hstack, works⟩ :=
    sound.works_of_not_still fun still => invokes still.invoked
  rw [works.invoked, if_pos rfl] at invokes
  cases action with
  | call k x arg p => exact ⟨there, rest, s, k, x, arg, p, hstack, works⟩
  | goto _ | notice _ _ | done _ | refused _ _ => exact absurd (List.append_nil _) invokes

theorem Sound.works_of_tallied (sound : m.Sound)
    (tallies : m.step.world.tallies c ≠ m.world.tallies c) :
    ∃ there rest s action entry, m.stack = .driving c there :: rest ∧
      Works m.world c there rest m.step s action ∧ action.tallies = [entry] := by
  obtain ⟨there, rest, s, action, hstack, works⟩ :=
    sound.works_of_not_still fun still => tallies still.tallies
  rw [works.tallies, if_pos rfl] at tallies
  rcases action with _ | (_ | _ | (_ | _ | ⟨count, side⟩ | _ | _)) | _ | _ | _
  case notice.logged.drained => exact ⟨there, rest, s, _, (count, side), hstack, works, rfl⟩
  all_goals exact absurd (List.append_nil _) tallies

end Origins

theorem moment_origin {watched : List String} {script : Script} {c : CompletionId} {n : Nat}
    {upper below : List Frame} {here : Site.Point Value Item WakerId}
    (h : (moment watched script (n + 1)).stack = upper ++ .driving c here :: below) :
    Origin c (moment watched script n) (moment watched script (n + 1)) here below := by
  rw [moment_succ] at h ⊢
  exact (moment_sound watched script n).origin h

end Machine

end Eventual
