import Eventual.Proofs.Machine.Deferreds

/-!
# Calls on an isolated deferred return

What a deferred calls are callbacks under its context, and the relays of its watches, which wake
wakers. Where the context isolates, the guard of a callback stops a panic of its body and goes
on, once the panic handler has come back and what the panic carries is dropped. So if the wakers
return normally, and so does what takes the place of a guard that has caught a panic, `Tame`,
whatever a drain of the deferred calls comes back with an answer. Then no panic ever reaches a call
on the deferred, however the calls are nested: each of them is followed from where it begins,
`Calling`, and returns.
-/

namespace Eventual

open World

namespace Machine

variable {watched : List String} {script : Script} {n i j : Nat} {c : CompletionId}
  {ctx : Context} {base below top : List Frame}

/-- What is begun at moment `i` above the frames has an answer when it comes back, if it comes
back by moment `n`. -/
def Returns (watched : List String) (script : Script) (n i : Nat) (base : List Frame) : Prop :=
  ∀ j, i < j → j ≤ n →
    (∀ k, i < k → k < j → base.length < (moment watched script k).stack.length) →
    (moment watched script j).stack = base → ∃ r, (moment watched script j).control = .answer r

/-- What comes back with an answer, once, returns. -/
theorem Returns.of_first (running : ∀ k, i < k → k < j →
    base.length < (moment watched script k).stack.length) (hij : i < j)
    (low : (moment watched script j).stack.length ≤ base.length)
    (answers : ∃ r, (moment watched script j).control = .answer r) :
    Returns watched script n i base := by
  intro l hil _ running' back
  obtain sooner | rfl | later := Nat.lt_trichotomy l j
  · have high := running l hil sooner
    rw [back] at high
    exact absurd high (Nat.lt_irrefl _)
  · exact answers
  · exact absurd (running' j hij later) (Nat.not_lt_of_le low)

/-- The same for frames of a known number. -/
theorem Returns.of_length {h : Nat}
    (running : ∀ k, k < j → i < k → h < (moment watched script k).stack.length)
    (high : base.length = h) (hij : i < j) (low : (moment watched script j).stack.length ≤ h)
    (answers : ∃ r, (moment watched script j).control = .answer r) :
    Returns watched script n i base := by
  subst high
  exact .of_first (fun k hik hkj => running k hkj hik) hij low answers

/-- Up to moment `n`, the wakers of a deferred return normally, and so does what takes the place of
a guard of its callbacks that has caught a panic. A relay of the deferred wakes the waker; the panic
handler and the drop of what the panic carries take the place of the guard. -/
structure Tame (watched : List String) (script : Script) (n : Nat) (c : CompletionId)
    (ctx : Context) : Prop where
  wakers : ∀ i < n, ∀ here below k watch p,
    (moment watched script i).stack = .driving c here :: below →
    (moment watched script (i + 1)).world.called c k
      = (moment watched script i).world.called c k ++ [.relay watch] →
    Returns watched script n i (.driving c p :: below)
  handler : ∀ i < n, ∀ p base, (moment watched script i).stack = .guarding c ctx :: base →
    (moment watched script i).control = .unwind p → Returns watched script n i base

/-! ## Items -/

/-- What an isolated deferred calls comes back with an answer. -/
theorem Tame.returns_of_call (tame : Tame watched script n c ctx) (hin : i < n)
    (owned : (moment watched script i).Owned c ctx)
    {here p : Site.Point Value Item WakerId} {s : Site Value Item WakerId} {k : Kind} {x : Item}
    {arg : Option Value} (hstack : (moment watched script i).stack = .driving c here :: below)
    (works : Works (moment watched script i).world c here below (moment watched script (i + 1)) s
      (.call k x arg p)) :
    Returns watched script n i (.driving c p :: below) := by
  obtain kin := owned.kin_of_call (moment_sound watched script i) hstack works.does
  obtain ⟨frames, runs, hstack'⟩ := works.runs _ _ _ _ rfl
  cases kin with
  | @relay watch =>
    refine tame.wakers i hin here below k watch p hstack ?_
    rw [works.called, if_pos rfl]
    exact congrArg _ (if_pos rfl)
  | callback =>
    generalize (moment watched script (i + 1)).control = control at runs
    cases runs
    intro j hij hjn running back
    -- The body comes back to its guard before the guard comes back to the drain.
    obtain ⟨i', hi', hj, guarded⟩ := @exists_back watched script _ (i + 1) j ⟨_, [], hstack'⟩ hij
      (by rw [back]; exact Nat.le_succ _)
    obtain sooner | rfl := Nat.lt_or_eq_of_le hj
    · have handed := guarded.control
      cases told : (moment watched script i').control with
      | answer r =>
        have next := step_of_answer guarded.stack told
        rw [← moment_succ] at next
        obtain still | rfl : i' + 1 < j ∨ i' + 1 = j := by omega
        · have high := running (i' + 1) (by omega) still
          rw [next] at high
          exact absurd high (Nat.lt_irrefl _)
        · exact ⟨.unit, by rw [next]; rfl⟩
      | unwind q =>
        exact tame.handler i' (Nat.lt_of_lt_of_le sooner hjn) q _ guarded.stack told j sooner hjn
          (fun k hk hkj => running k (by omega) hkj) back
      | resume | faulty _ =>
        rw [told] at handed
        exact handed.elim
    · cases guarded.stack.symm.trans back

/-! ## Calls on the completion -/

/-- A call on the completion above the frames, which no panic has reached: it goes on, or waits
for an item that it has called at moment `i₀`. -/
inductive Steady (watched : List String) (script : Script) (n : Nat) (c : CompletionId)
    (top : List Frame) (i : Nat) : Prop
  | acts {here : Site.Point Value Item WakerId} :
      (moment watched script i).stack = .driving c here :: top →
      ((moment watched script i).control = .resume ∨
        ∃ r, (moment watched script i).control = .answer r) →
      Steady watched script n c top i
  | waits {i₀ : Nat} {p : Site.Point Value Item WakerId} : i₀ < i →
      Returns watched script n i₀ (.driving c p :: top) →
      (∀ k, i₀ < k → k ≤ i →
        (Frame.driving c p :: top).length < (moment watched script k).stack.length) →
      Above (.driving c p :: top) (moment watched script i) →
      Steady watched script n c top i

theorem Steady.higher (h : Steady watched script n c top i) :
    top.length < (moment watched script i).stack.length := by
  cases h with
  | acts hstack => exact hstack ▸ Nat.lt_succ_self _
  | waits _ _ _ above => exact Nat.lt_trans (Nat.lt_succ_self _) above.higher

theorem Steady.step (tame : Tame watched script n c ctx) (hin : i < n)
    (owned : (moment watched script i).Owned c ctx) (h : Steady watched script n c top i) :
    Steady watched script n c top (i + 1) ∨
      ((moment watched script (i + 1)).stack = top ∧
        ∃ r, (moment watched script (i + 1)).control = .answer r) := by
  have sound := moment_sound watched script i
  cases h with
  | @acts here hstack told =>
    obtain hresume | ⟨r, answer⟩ := told
    · obtain ⟨s, action, works⟩ := sound.works hstack hresume
      rw [← moment_succ] at works
      have leads := works.leads
      generalize hstack' : (moment watched script (i + 1)).stack = stack' at leads
      generalize hcontrol : (moment watched script (i + 1)).control = control' at leads
      cases leads with
      | goto | notice => exact .inl (.acts hstack' (.inl hcontrol))
      | done => exact .inr ⟨rfl, _, rfl⟩
      | refused =>
        obtain ⟨alive, fits⟩ := sound.of_driving (hstack ▸ List.mem_cons_self ..)
        have cell := (sound.world.exact alive.getElem?).cell
        exact absurd rfl (works.does.not_refused fits cell _ _)
      | @call k x arg p frames =>
        have returns := tame.returns_of_call hin owned hstack works
        cases frames with
        | nil =>
          refine .inl (.acts hstack' (.inr ?_))
          exact returns (i + 1) (Nat.lt_succ_self i) hin (fun k hk hki => by omega) hstack'
        | cons f frames =>
          have above : Above (.driving c p :: top) (moment watched script (i + 1)) :=
            ⟨f, frames, hstack'⟩
          refine .inl (.waits (Nat.lt_succ_self i) returns ?_ above)
          intro k hk hki
          obtain rfl : k = i + 1 := Nat.le_antisymm hki hk
          exact above.higher
    · have next := step_of_answer hstack answer
      rw [← moment_succ] at next
      exact .inl (.acts (by rw [next]; rfl) (.inl (by rw [next]; rfl)))
  | @waits i₀ p hi₀ returns running above =>
    have next := sound.above_step above
    rw [← moment_succ] at next
    obtain still | back := next
    · refine .inl (.waits (Nat.lt_succ_of_lt hi₀) returns ?_ still)
      intro k hk hki
      obtain sooner | rfl := Nat.lt_or_eq_of_le hki
      · exact running k hk (Nat.le_of_lt_succ sooner)
      · exact still.higher
    · refine .inl (.acts back.stack (.inr ?_))
      exact returns (i + 1) (Nat.lt_succ_of_lt hi₀) hin
        (fun k hk hki => running k hk (Nat.le_of_lt_succ hki)) back.stack

/-! ## Calls on the deferred -/

/-- A step of a script asks something of a deferred, through one of its handles or of those of
its promises. -/
inductive Uses (w : World) (c : CompletionId) (ctx : Context) : Act → Prop
  | deferred {handle : String} {op : DeferredOp} :
      w.lookup handle = some (.deferred c ctx) → Uses w c ctx (.onDeferred handle op)
  | promise {handle : String} {op : PromiseOp} {watch : WatchId} :
      w.lookup handle = some (.promise c ctx watch) → Uses w c ctx (.onPromise handle op)

/-- A frame of a call that awaits the answer of a call on the completion. -/
def Patient (c : CompletionId) : Frame → Prop
  | .chaining d _ _ => d = c
  | .settling _ _ | .holding _ => True
  | .session _ _ | .body _ _ | .catching | .repeating _ _ | .driving _ _ | .guarding _ _
  | .dropping _ | .ending _ | .probing _ _ _ _ => False

/-- What is answered at once puts nothing onto the stack and raises nothing. -/
theorem reply_calm (w : World) (r : Reply) :
    (Start.reply w r).frames = [] ∧ ∀ p, (Start.reply w r).control ≠ .unwind p :=
  ⟨rfl, fun _ => Control.noConfusion⟩

theorem fault_calm (w : World) (f : Fault) :
    (Start.fault w f).frames = [] ∧ ∀ p, (Start.fault w f).control ≠ .unwind p :=
  ⟨rfl, fun _ => Control.noConfusion⟩

/-- What is asked of a deferred is answered at once, or begins a call. -/
theorem begin_uses {w : World} {held : List Ref} {act : Act} (uses : Uses w c ctx act) :
    ((begin w held act).frames = [] ∧ ∀ p, (begin w held act).control ≠ .unwind p) ∨
      ((begin w held act).control = .resume ∧
        ∃ f lower, (begin w held act).frames = f :: lower ∧ (∀ f' ∈ lower, Patient c f') ∧
          (Patient c f ∨ ∃ here, f = .driving c here)) := by
  cases uses with
  | @deferred handle op refers =>
    simp only [begin, refers]
    cases op with
    | settle o =>
      refine .inr ⟨rfl, _, _, rfl, ?_, .inr ⟨_, rfl⟩⟩
      exact List.forall_mem_cons.2 ⟨trivial, List.forall_mem_singleton.2 trivial⟩
    | promise _ | clone _ | profile | describe _ => exact .inl (reply_calm _ _)
    | faulty _ => exact .inl (fault_calm _ _)
  | @promise handle op watch refers =>
    simp only [begin, refers]
    cases op with
    | register k cb =>
      exact .inr ⟨rfl, _, _, rfl, List.forall_mem_singleton.2 trivial, .inr ⟨_, rfl⟩⟩
    | chained first onFirst onOther always =>
      exact .inr ⟨rfl, _, _, rfl, List.forall_mem_singleton.2 trivial, .inl rfl⟩
    | poll wakes =>
      simp only [beginPromise]
      split
      next =>
        split
        next => exact .inl (fault_calm _ _)
        next => exact .inr ⟨rfl, _, _, rfl, List.forall_mem_singleton.2 trivial, .inr ⟨_, rfl⟩⟩
      next => exact .inl (fault_calm _ _)
    | blockOn =>
      simp only [beginPromise]
      split
      next => exact .inl (reply_calm _ _)
      next => exact .inl (reply_calm _ _)
    | flags | clone _ | profile | describe _ => exact .inl (reply_calm _ _)
    | faulty _ => exact .inl (fault_calm _ _)

/-- A frame that awaits an answer, and is told it or to go on, answers, or goes on, or has the
next callback of a promise registered. -/
theorem patient_step {m : Machine} {f : Frame} (patient : Patient c f)
    (hstack : m.stack = f :: below)
    (told : m.control = .resume ∨ ∃ r, m.control = .answer r) :
    (m.step.stack = below ∧ ∃ r, m.step.control = .answer r) ∨
      (m.step.control = .resume ∧ ∃ f', Patient c f' ∧
        (m.step.stack = f' :: below ∨ ∃ here, m.step.stack = .driving c here :: f' :: below)) := by
  obtain hresume | ⟨r, answer⟩ := told
  · rw [step_of_resume hstack hresume]
    cases f with
    | chaining d ctx rest =>
      obtain rfl : d = c := patient
      cases rest with
      | nil => exact .inl ⟨rfl, _, rfl⟩
      | cons entry rest =>
        exact .inr ⟨rfl, .chaining d ctx rest, rfl, .inr ⟨_, rfl⟩⟩
    | settling | holding => exact .inl ⟨rfl, _, rfl⟩
    | _ => exact patient.elim
  · rw [step_of_answer hstack answer]
    cases f with
    | chaining d ctx rest => exact .inr ⟨rfl, _, patient, .inl rfl⟩
    | settling d s =>
      simp only [receive]
      split
      next => exact .inl ⟨rfl, _, rfl⟩
      next => exact .inl ⟨rfl, _, rfl⟩
    | holding r => exact .inl ⟨rfl, _, rfl⟩
    | _ => exact patient.elim

/-- A call on the deferred, above the frames, which no panic has reached: it is in the course of
a call on the completion, or is told how that went. -/
inductive Calling (watched : List String) (script : Script) (n : Nat) (c : CompletionId)
    (base : List Frame) (i : Nat) : Prop
  | drives {lower : List Frame} : (∀ f ∈ lower, Patient c f) →
      Steady watched script n c (lower ++ base) i → Calling watched script n c base i
  | hears {f : Frame} {lower : List Frame} : Patient c f → (∀ f' ∈ lower, Patient c f') →
      (moment watched script i).stack = f :: (lower ++ base) →
      ((moment watched script i).control = .resume ∨
        ∃ r, (moment watched script i).control = .answer r) →
      Calling watched script n c base i

theorem Calling.higher (h : Calling watched script n c base i) :
    base.length < (moment watched script i).stack.length := by
  cases h with
  | drives _ steady =>
    have higher := steady.higher
    rw [List.length_append] at higher
    omega
  | hears _ _ hstack =>
    rw [hstack, List.length_cons, List.length_append]
    omega

theorem Calling.step (tame : Tame watched script n c ctx) (hin : i < n)
    (owned : (moment watched script i).Owned c ctx) (h : Calling watched script n c base i) :
    Calling watched script n c base (i + 1) ∨
      ((moment watched script (i + 1)).stack = base ∧
        ∃ r, (moment watched script (i + 1)).control = .answer r) := by
  cases h with
  | @drives lower patient steady =>
    obtain steady' | ⟨hstack, answer⟩ := steady.step tame hin owned
    · exact .inl (.drives patient steady')
    · cases lower with
      | nil => exact .inr ⟨hstack, answer⟩
      | cons f lower =>
        obtain ⟨first, rest⟩ := List.forall_mem_cons.1 patient
        exact .inl (.hears first rest hstack (.inr answer))
  | @hears f lower first rest hstack told =>
    have next := patient_step first hstack told
    rw [← moment_succ] at next
    obtain ⟨hstack', answer⟩ | ⟨hresume, f', patient, hstack' | ⟨here, hstack'⟩⟩ := next
    · cases lower with
      | nil => exact .inr ⟨hstack', answer⟩
      | cons f' lower =>
        obtain ⟨first', rest'⟩ := List.forall_mem_cons.1 rest
        exact .inl (.hears first' rest' hstack' (.inr answer))
    · exact .inl (.hears patient rest hstack' (.inl hresume))
    · exact .inl (@Calling.drives _ _ _ _ _ _ (f' :: lower)
        (List.forall_mem_cons.2 ⟨patient, rest⟩) (.acts hstack' (.inl hresume)))

/-- Whatever is asked of an isolated deferred comes back without a panic before the stack is as
low again as when it was asked. -/
theorem Tame.returns_of_uses (tame : Tame watched script n c ctx)
    (owned : ∀ k, i ≤ k → (moment watched script k).Owned c ctx) {act : Act}
    (begins : Begins act (moment watched script i) base)
    (uses : Uses (moment watched script i).world c ctx act) (hij : i < j) (hjn : j ≤ n)
    (low : (moment watched script j).stack.length ≤ base.length) :
    ∃ k, i < k ∧ k ≤ j ∧
      (∀ l, i < l → l < k → base.length < (moment watched script l).stack.length) ∧
      (moment watched script k).stack = base ∧
      ∀ p, (moment watched script k).control ≠ .unwind p := by
  have entered := begins.step
  rw [← moment_succ] at entered
  obtain ⟨frames, sober⟩ | ⟨hresume, f, lower, frames, patient, first⟩ :=
    @begin_uses c ctx _ (heldBy base) act uses
  · refine ⟨i + 1, Nat.lt_succ_self i, hij, fun l hil hli => by omega, ?_, ?_⟩
    · rw [entered]
      simp only [enter, frames, List.nil_append]
    · rw [entered]
      exact sober
  · have hstack : (moment watched script (i + 1)).stack = f :: (lower ++ base) := by
      rw [entered]
      simp only [enter, frames, List.cons_append]
    have hcontrol : (moment watched script (i + 1)).control = .resume := by
      rw [entered]
      exact hresume
    have start : Calling watched script n c base (i + 1) := by
      obtain patient' | ⟨here, rfl⟩ := first
      · exact .hears patient' patient hstack (.inl hcontrol)
      · exact .drives patient (.acts hstack (.inl hcontrol))
    have step : ∀ l, l < j → i < l ∧ Calling watched script n c base l →
        (i < l + 1 ∧ Calling watched script n c base (l + 1)) ∨
          ((moment watched script (l + 1)).stack = base ∧
            ∃ r, (moment watched script (l + 1)).control = .answer r) := by
      rintro l hlj ⟨hil, calling⟩
      obtain still | ended :=
        calling.step tame (Nat.lt_of_lt_of_le hlj hjn) (owned l (Nat.le_of_lt hil))
      · exact .inl ⟨Nat.lt_succ_of_lt hil, still⟩
      · exact .inr ended
    obtain ⟨k, hik, hkj, running, back, r, answer⟩ := @exists_end watched script
      (fun l => i < l ∧ Calling watched script n c base l)
      (fun l => (moment watched script l).stack = base ∧
        ∃ r, (moment watched script l).control = .answer r)
      base (i + 1) j step (fun calling => calling.2.higher) ⟨Nat.lt_succ_self i, start⟩ hij low
    refine ⟨k, Nat.lt_of_succ_lt hik, hkj, ?_, back, ?_⟩
    · exact fun l hil hlk => (running l hil hlk).2.higher
    · intro p unwound
      cases answer.symm.trans unwound

/-! ## Where frames come from -/

/-- A frame of a sort stands right above the frames. -/
def Stands (sort : Frame → Prop) (below : List Frame) (m : Machine) : Prop :=
  ∃ above f, sort f ∧ m.stack = above ++ f :: below

/-- What holds at a moment, and did not hold at an earlier one, has held ever since some moment in
between. -/
theorem exists_onset {P : Nat → Prop} {b : Nat} (absent : ¬ P b) (hbj : b ≤ j) (present : P j) :
    ∃ i, b ≤ i ∧ i < j ∧ ¬ P i ∧ ∀ k, i < k → k ≤ j → P k := by
  induction hbj with
  | refl => exact absurd present absent
  | @step j hbj ih =>
    by_cases before : P j
    · obtain ⟨i, hbi, hij, absent', since⟩ := ih before
      refine ⟨i, hbi, Nat.lt_succ_of_lt hij, absent', fun k hik hkj => ?_⟩
      obtain sooner | rfl := Nat.lt_or_eq_of_le hkj
      · exact since k hik (Nat.le_of_lt_succ sooner)
      · exact present
    · refine ⟨j, hbj, Nat.lt_succ_self j, before, fun k hjk hkj => ?_⟩
      obtain rfl : k = j + 1 := Nat.le_antisymm hkj hjk
      exact present

/-- A frame that newly stands above some frames is one of those that a step puts onto the
stack. -/
theorem Stands.of_new {sort : Frame → Prop} {m m' : Machine} {frame : Frame}
    {new rest : List Frame} (absent : ¬ Stands sort below m) (hstack : m.stack = frame :: rest)
    (hstack' : m'.stack = new ++ rest) (stands : Stands sort below m') :
    ∃ above f lower, sort f ∧ new = above ++ f :: lower ∧ below = lower ++ rest := by
  obtain ⟨above, f, hf, hstands⟩ := stands
  have old : ∀ bs, rest = bs ++ f :: below → False := fun bs hrest =>
    absent ⟨frame :: bs, f, hf, by rw [hstack, hrest, List.cons_append]⟩
  obtain ⟨as, rfl, hlower⟩ | ⟨bs, -, hrest⟩ :=
    List.append_eq_append_iff.1 (hstands.symm.trans hstack')
  · cases as with
    | nil => exact (old [] hlower.symm).elim
    | cons f' lower =>
      obtain ⟨rfl, rfl⟩ := List.cons.inj hlower
      exact ⟨above, f, lower, hf, rfl, rfl⟩
  · exact (old bs hrest).elim

/-- A frame that is neither a call on a completion nor the guard of a callback. -/
def Calm : Frame → Prop
  | .driving _ _ | .guarding _ _ => False
  | .session _ _ | .body _ _ | .catching | .repeating _ _ | .holding _ | .settling _ _
  | .dropping _ | .ending _ | .probing _ _ _ _ | .chaining _ _ _ => True

/-- What has nothing to do with a completion is calm. -/
theorem calm_of_aloof {f : Frame} (h : f.Aloof) : Calm f := by
  cases f with
  | body | catching | repeating | dropping | probing | holding => trivial
  | _ => exact h.elim

/-- A move leaves its frame there, or puts calm frames in its place, or begins a call on a
completion above such. -/
theorem Moves.pushes {w : World} {frame : Frame} {control : Control} {m' : Machine}
    (h : Moves w below frame control m') :
    ∃ new, m'.stack = new ++ below ∧ (new = [frame] ∨ (∀ f ∈ new, Calm f) ∨
      ∃ d here lower, new = .driving d here :: lower ∧ (∀ f ∈ lower, Calm f) ∧
        m'.control = .resume) := by
  have calm : ∀ {f : Frame}, Calm f → ∀ f' ∈ [f], Calm f' := List.forall_mem_singleton.2
  cases h with
  | @begins frame act base begins =>
    obtain ⟨f, hf, rfl⟩ : ∃ f, Calm f ∧ base = f :: below := by
      cases begins with
      | session hs _ =>
        cases hs
        exact ⟨.session _ _, trivial, rfl⟩
      | body hs _ =>
        cases hs
        exact ⟨.body _ _, trivial, rfl⟩
    have opens := @begin_opens w (heldBy (f :: below)) act
    unfold enter
    generalize begin w (heldBy (f :: below)) act = start at opens
    refine ⟨start.frames ++ [f], List.append_cons .. , ?_⟩
    cases opens with
    | aloof _ aloof _ =>
      exact .inr (.inl (List.forall_mem_append.2 ⟨fun f' hf' => calm_of_aloof (aloof f' hf'), calm hf⟩))
    | births => exact .inr (.inl (calm hf))
    | @engages w' d r call awaiting engages _ =>
      refine .inr (.inr ⟨d, _, awaiting ++ [.holding r] ++ [f], rfl, ?_, rfl⟩)
      refine List.forall_mem_append.2 ⟨List.forall_mem_append.2 ⟨?_, calm trivial⟩, calm hf⟩
      cases engages with
      | settle => exact calm trivial
      | direct | register | poll => exact List.forall_mem_nil _
    | @chains handle d ctx watch _ _ _ _ rest =>
      have chaining : Calm (.chaining d ctx rest) := trivial
      have holding : Calm (.holding (.promise d ctx watch)) := trivial
      exact .inr (.inl (List.forall_mem_cons.2 ⟨chaining, List.forall_mem_cons.2
        ⟨holding, calm hf⟩⟩))
  | repeats =>
    exact ⟨[.body "" _, .repeating _ _], rfl,
      .inr (.inl (List.forall_mem_cons.2 ⟨trivial, calm trivial⟩))⟩
  | chains => exact ⟨[_, _], rfl, .inr (.inr ⟨_, _, [_], rfl, calm trivial, rfl⟩)⟩
  | resumes => exact ⟨[_], rfl, .inl rfl⟩
  | offers => exact ⟨[_], rfl, .inr (.inl (calm trivial))⟩
  | answers | loses | breaks | passes => exact ⟨[], rfl, .inr (.inl (List.forall_mem_nil _))⟩
  | yields _ aloof => exact ⟨_, rfl, .inr (.inl fun f hf => calm_of_aloof (aloof f hf))⟩

/-- A step of a call on a completion comes to its end, or leaves the call there, and above it
what the item runs that it has called. -/
theorem Works.pushes {w : World} {d : CompletionId} {here : Site.Point Value Item WakerId}
    {m' : Machine} {s : Site Value Item WakerId}
    {action : Action Value Item (Site.Point Value Item WakerId) (Site.Answer Value)}
    (works : Works w d here below m' s action) :
    m'.stack = [] ++ below ∨ ∃ frames p, m'.stack = (frames ++ [.driving d p]) ++ below ∧
      (frames = [] ∨ ∃ k x arg, action = .call k x arg p ∧ x.Runs d frames m'.control) := by
  have leads := works.leads
  have runs := works.runs
  generalize m'.stack = stack at leads runs
  generalize m'.control = control at leads runs
  cases leads with
  | goto | notice => exact .inr ⟨[], _, rfl, .inl rfl⟩
  | done | refused => exact .inl rfl
  | call =>
    obtain ⟨frames, runs, hstack⟩ := runs _ _ _ _ rfl
    exact .inr ⟨frames, _, hstack.trans (List.append_cons ..), .inr ⟨_, _, _, rfl, runs⟩⟩

/-- A call on the completion. -/
def OnCompletion (c : CompletionId) (f : Frame) : Prop := ∃ here, f = .driving c here

theorem eq_of_last {f g : Frame} {frames above lower : List Frame}
    (h : frames ++ [g] = above ++ f :: lower) (apart : f ∉ frames) : f = g ∧ lower = [] := by
  obtain ⟨as, rfl, hlast⟩ | ⟨bs, rfl, hlast⟩ := List.append_eq_append_iff.1 h
  · cases as with
    | nil =>
      cases hlast
      exact ⟨rfl, rfl⟩
    | cons _ as => exact absurd (List.cons.inj hlast).2.symm (by simp)
  · cases bs with
    | nil =>
      cases hlast
      exact ⟨rfl, rfl⟩
    | cons b bs =>
      obtain ⟨rfl, -⟩ := List.cons.inj hlast
      exact absurd (List.mem_append_right _ (List.mem_cons_self ..)) apart

/-- A call on an owned completion that newly stands above some frames has just begun. -/
theorem Owned.begun {m : Machine} (owned : m.Owned c ctx) (sound : m.Sound)
    (absent : ¬ Stands (OnCompletion c) below m) (stands : Stands (OnCompletion c) below m.step) :
    ∃ here, m.step.stack = .driving c here :: below ∧ m.step.control = .resume := by
  cases hstack : m.stack with
  | nil =>
    rw [step_of_isOver (List.isEmpty_iff.2 hstack)] at stands
    exact absurd stands absent
  | cons frame rest =>
    have old : ∀ {d here}, frame = .driving d here → d = c → rest ≠ below := by
      rintro d here rfl rfl rfl
      exact absent ⟨[], _, ⟨here, rfl⟩, hstack⟩
    obtain moves | ⟨d, here, s, action, hresume, rfl, works⟩ := sound.moves_or_works hstack
    · obtain ⟨new, hstack', shape⟩ := moves.pushes
      obtain ⟨above, f, lower, ⟨here, rfl⟩, hnew, hbelow⟩ := stands.of_new absent hstack hstack'
      have member : .driving c here ∈ new := by simp [hnew]
      obtain rfl | calm | ⟨d, here', lower', rfl, calm, hresume⟩ := shape
      · obtain ⟨same, rfl⟩ := @eq_of_last _ _ [] _ _ hnew List.not_mem_nil
        exact absurd hbelow.symm (old same.symm rfl)
      · exact (calm _ member).elim
      · cases above with
        | nil =>
          cases hnew
          exact ⟨_, by rw [hstack', hbelow]; rfl, hresume⟩
        | cons f above =>
          rw [(List.cons.inj hnew).2] at calm
          exact (calm (.driving c here) (by simp)).elim
    · obtain hstack' | ⟨frames, p, hstack', runs⟩ := works.pushes
      · obtain ⟨above, f, lower, -, hnew, -⟩ := stands.of_new absent hstack hstack'
        exact absurd hnew.symm (by simp)
      · obtain ⟨above, f, lower, ⟨here', rfl⟩, hnew, hbelow⟩ :=
          stands.of_new absent hstack hstack'
        -- What is called of the deferred begins no call on its completion.
        have apart : .driving c here' ∉ frames := by
          intro hmem
          obtain rfl | ⟨k, x, arg, rfl, runs⟩ := runs
          · cases hmem
          · obtain rfl := runs.on hmem rfl
            have kin := owned.kin_of_call sound hstack works.does
            generalize m.step.control = control at runs
            cases kin <;> cases runs <;> simp at hmem
        obtain ⟨same, rfl⟩ := eq_of_last hnew apart
        cases same
        exact absurd hbelow.symm (old rfl rfl)

theorem Stands.higher {sort : Frame → Prop} {m : Machine} (h : Stands sort below m) :
    below.length < m.stack.length := by
  obtain ⟨above, f, -, hstack⟩ := h
  rw [hstack, List.length_append, List.length_cons]
  omega

/-- Every call on the completion of an isolated deferred has been steady since it began. -/
theorem Tame.steady_of_driving (tame : Tame watched script n c ctx) {b : Nat}
    (newborn : Newborn c ctx (moment watched script (b + 1))) (hbj : b < j) (hjn : j ≤ n)
    (stands : Stands (OnCompletion c) below (moment watched script j)) :
    Steady watched script n c below j := by
  have absent : ¬ Stands (OnCompletion c) below (moment watched script (b + 1)) := by
    rintro ⟨above, f, ⟨here, rfl⟩, hstack⟩
    have unvisited := newborn.unvisited (.driving c here)
    rw [hstack] at unvisited
    exact unvisited (List.mem_append_right _ (List.mem_cons_self ..)) rfl
  obtain ⟨i, hbi, hij, absent', since⟩ :=
    @exists_onset j (fun k => Stands (OnCompletion c) below (moment watched script k)) (b + 1)
      absent hbj stands
  have start : Steady watched script n c below (i + 1) := by
    have now := since (i + 1) (Nat.lt_succ_self i) hij
    rw [moment_succ] at now
    obtain ⟨here, hstack, hresume⟩ :=
      (newborn.owned_later hbi).begun (moment_sound watched script i) absent' now
    rw [← moment_succ] at hstack hresume
    exact .acts hstack (.inl hresume)
  have follow : ∀ k, i < k → k ≤ j → Steady watched script n c below k := by
    intro k hik
    induction hik with
    | refl => exact fun _ => start
    | @step k hik ih =>
      intro hkj
      obtain still | ⟨hstack, -⟩ := (ih (Nat.le_of_lt hkj)).step tame
        (Nat.lt_of_lt_of_le hkj hjn) (newborn.owned_later (Nat.lt_trans hbi hik))
      · exact still
      · have high := (since (k + 1) (Nat.lt_succ_of_lt hik) hkj).higher
        rw [hstack] at high
        exact absurd high (Nat.lt_irrefl _)
  exact follow j hij (Nat.le_refl j)

/-- No panic reaches a call on the completion of an isolated deferred. -/
theorem Tame.not_unwind (tame : Tame watched script n c ctx) {b : Nat}
    (newborn : Newborn c ctx (moment watched script (b + 1))) (hbj : b < j) (hjn : j ≤ n)
    {here : Site.Point Value Item WakerId}
    (hstack : (moment watched script j).stack = .driving c here :: below) (p : Panic) :
    (moment watched script j).control ≠ .unwind p := by
  intro unwound
  cases tame.steady_of_driving newborn hbj hjn ⟨[], _, ⟨here, rfl⟩, hstack⟩ with
  | acts _ told =>
    obtain hresume | ⟨r, answer⟩ := told
    · cases hresume.symm.trans unwound
    · cases answer.symm.trans unwound
  | waits _ _ _ above =>
    have high := above.higher
    rw [hstack] at high
    exact absurd high (Nat.lt_irrefl _)

end Machine

end Eventual
