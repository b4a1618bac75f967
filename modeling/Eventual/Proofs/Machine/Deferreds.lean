import Eventual.Proofs.Machine.Moves

/-!
# Whoever works on a deferred

The completion of a deferred is known to the deferred, its clones and its promises only, and
all of them have the context that the deferred was built with. So nothing but settlements,
registrations through a promise and polls is ever asked of it, and what waits for it are
callbacks under that context and the relays of watches. That is `Owned`, and every step keeps
it.

A deferred that a handle refers to at some moment came into being at an earlier one, and its
completion is owned from the next moment on, `exists_birth`.
-/

namespace Eventual

/-- The references to a deferred: itself and its promises. -/
inductive Ref.Kin (c : CompletionId) (ctx : Context) : Ref → Prop
  | deferred : Kin c ctx (.deferred c ctx)
  | promise {watch : WatchId} : Kin c ctx (.promise c ctx watch)

/-- What waits for a deferred. -/
inductive Item.Kin (ctx : Context) : Item → Prop
  | callback {cb : Callback} : Kin ctx (.callback cb (some ctx))
  | relay {watch : WatchId} : Kin ctx (.relay watch)

/-- What is asked of the completion of a deferred. -/
inductive Site.Call.Kin (ctx : Context) : Site.Call Value Item WakerId → Prop
  | complete {o : Outcome Value} : Kin ctx (.direct (.complete o))
  | register {k : Kind} {cb : Callback} :
      Kin ctx (.direct (.register k (.callback cb (some ctx))))
  | poll {watch : WatchId} {i : WakerId} :
      Kin ctx (.poll { watch, waker := i, relay := .relay watch })

/-- What a frame does that works on the completion of a deferred. -/
def Frame.Kin (c : CompletionId) (ctx : Context) : Frame → Prop
  | .driving d p => d = c → ∃ call : Site.Call Value Item WakerId, p.Serves call ∧ call.Kin ctx
  | .chaining d ctx' _ | .guarding d ctx' => d = c → ctx' = ctx
  | .holding r => r.entity? = some (.completion c) → r.Kin c ctx
  | .session _ _ | .body _ _ | .catching | .repeating _ _ | .settling _ _ | .dropping _
  | .ending _ | .probing _ _ _ _ => True

/-- The completion belongs to a deferred with the context. -/
structure Machine.Owned (c : CompletionId) (ctx : Context) (m : Machine) : Prop where
  born : c < m.world.completions.size
  bound : ∀ entry ∈ m.world.handles, entry.2.entity? = some (.completion c) → entry.2.Kin c ctx
  frames : ∀ f ∈ m.stack, f.Kin c ctx
  items : ∀ k, ∀ x ∈ m.world.registered c k, x.Kin ctx

/-- A frame works on a completion, or awaits or holds it for code that does. -/
def Frame.On (c : CompletionId) : Frame → Prop
  | .driving d _ | .settling d _ | .guarding d _ | .chaining d _ _ => d = c
  | .holding r => r.entity? = some (.completion c)
  | .session _ _ | .body _ _ | .catching | .repeating _ _ | .dropping _ | .ending _
  | .probing _ _ _ _ => False

variable {c : CompletionId} {ctx : Context}

theorem Ref.Kin.of_yields {r r' : Ref} (h : r.Kin c ctx) (yields : r.Yields r') :
    r'.Kin c ctx := by
  cases h with
  | deferred =>
    cases yields with
    | refl => exact .deferred
    | promise => exact .promise
  | promise =>
    cases yields with
    | refl | clone => exact .promise

theorem Frame.Aloof.kin {f : Frame} (h : f.Aloof) : f.Kin c ctx := by
  cases f with
  | holding r => exact fun hr => absurd hr (h c)
  | body | catching | repeating | dropping | probing => trivial
  | _ => exact h.elim

theorem Frame.Aloof.not_on {f : Frame} (h : f.Aloof) : ¬ f.On c := by
  cases f with
  | holding r => exact h c
  | body | catching | repeating | dropping | probing => exact not_false
  | _ => exact h.elim

/-- A frame that does not work on the completion does nothing that its owner minds. -/
theorem Frame.Kin.of_not_on {f : Frame} (h : ¬ f.On c) : f.Kin c ctx := by
  cases f with
  | driving | chaining | guarding | holding => exact fun on => absurd on h
  | _ => trivial

/-- What an item puts onto the stack works on the completion that it waited for. -/
theorem Item.Runs.on {d : CompletionId} {x : Item} {frames : List Frame} {control : Control}
    (h : x.Runs d frames control) {f : Frame} (hf : f ∈ frames) (on : f.On c) : d = c := by
  cases h with
  | bare | waker | relay | last =>
    obtain rfl := List.mem_singleton.1 hf
    exact on.elim
  | guarded =>
    obtain rfl | hf := List.mem_cons.1 hf
    · exact on.elim
    · obtain rfl := List.mem_singleton.1 hf
      exact on
  | again =>
    obtain rfl | hf := List.mem_cons.1 hf
    · exact on
    · obtain rfl := List.mem_singleton.1 hf
      exact on.elim
  | idle => cases hf

/-- What a call that is asked of a deferred is about to register may wait for it. -/
theorem Site.Call.Kin.append {call : Site.Call Value Item WakerId} (h : call.Kin ctx)
    {p : Site.Point Value Item WakerId} (serves : p.Serves call) {k : Kind} {x : Item}
    (appends : p.inner? = some (.append k x)) : x.Kin ctx := by
  cases p with
  | direct here =>
    obtain rfl : here = .append k x := Option.some.inj appends
    cases h with
    | complete | poll => exact serves.elim
    | register =>
      obtain ⟨-, rfl⟩ := serves
      exact .callback
  | registering poll here =>
    obtain rfl : here = .append k x := Option.some.inj appends
    cases h with
    | complete | register => exact serves.elim
    | poll =>
      obtain ⟨rfl, -, rfl⟩ := serves
      exact .relay
  | look | store | subscribe | lookAgain => cases appends

theorem Site.Call.Kin.drains {call : Site.Call Value Item WakerId} (h : call.Kin ctx)
    {p : Site.Point Value Item WakerId} (serves : p.Serves call) {o : Outcome Value} {d : Bool}
    {here : Cell.CommitPoint} (commits : p.inner? = some (.commit o d here)) : d = true := by
  cases p with
  | direct at' =>
    obtain rfl : at' = .commit o d here := Option.some.inj commits
    cases h with
    | complete => exact serves.2
    | register | poll => exact serves.elim
  | registering poll at' =>
    obtain rfl : at' = .commit o d here := Option.some.inj commits
    cases h with
    | complete | register => exact serves.elim
    | poll => exact serves.2.elim
  | look | store | subscribe | lookAgain => cases commits

theorem Item.Runs.kin {d : CompletionId} {x : Item} {frames : List Frame} {control : Control}
    (h : x.Runs d frames control) (kin : d = c → x.Kin ctx) : ∀ f ∈ frames, f.Kin c ctx := by
  cases h with
  | bare | waker | relay => exact List.forall_mem_singleton.2 trivial
  | last => exact List.forall_mem_singleton.2 trivial
  | guarded =>
    refine List.forall_mem_cons.2 ⟨trivial, List.forall_mem_singleton.2 fun same => ?_⟩
    cases kin same
    rfl
  | again =>
    refine List.forall_mem_cons.2 ⟨fun same => ?_, List.forall_mem_singleton.2 trivial⟩
    cases kin same
  | idle => exact List.forall_mem_nil _

namespace Machine

open World

section Steps

variable {m m' : Machine} {w₁ w' : World} {frame : Frame} {below : List Frame} {control : Control}

/-- A reference under a handle that leads to an owned completion is one of its deferred. -/
theorem Owned.lookup (h : m.Owned c ctx) {handle : String} {r : Ref}
    (hr : m.world.lookup handle = some r) (hc : r.entity? = some (.completion c)) :
    r.Kin c ctx :=
  h.bound _ (mem_of_lookup hr) hc

/-- What is granted for another completion leads to nobody who is not of the deferred. -/
theorem Owned.bound_of (h : m.Owned c ctx) {granted : List Ref}
    (handles : w₁.handles = m.world.handles) (proceeds : Proceeds granted w₁ w')
    (apart : ∀ r ∈ granted, r.entity? ≠ some (.completion c)) :
    ∀ entry ∈ w'.handles, entry.2.entity? = some (.completion c) → entry.2.Kin c ctx := by
  intro entry hentry hc
  obtain ⟨old, hold, yields⟩ | ⟨r, hr, yields⟩ | none := proceeds.handles entry hentry
  · rw [handles] at hold
    exact (h.bound old hold (yields.entity? ▸ hc)).of_yields yields
  · exact absurd (yields.entity? ▸ hc) (apart r hr)
  · exact absurd hc (none c)

/-- What a script starts on an owned completion is what may be asked of a deferred. -/
theorem Owned.engages (h : m.Owned c ctx) {d : CompletionId} {act : Act} {r : Ref}
    {call : Site.Call Value Item WakerId} {awaiting : List Frame}
    (engages : Engages m.world d act r call awaiting) :
    ∀ f ∈ .driving d call.start :: awaiting ++ [.holding r], f.Kin c ctx := by
  have holds : (Frame.holding r).Kin c ctx := by
    cases engages with
    | direct refers | settle refers | register refers | poll refers => exact h.lookup refers
  have awaits : ∀ f ∈ awaiting, f.Kin c ctx := by
    cases engages with
    | settle => exact List.forall_mem_singleton.2 trivial
    | direct | register | poll => exact List.forall_mem_nil _
  refine List.forall_mem_append.2 ⟨List.forall_mem_cons.2 ⟨?_, awaits⟩,
    List.forall_mem_singleton.2 holds⟩
  rintro rfl
  have kin : r.Kin d ctx := by
    apply holds
    cases engages <;> rfl
  refine ⟨call, call.start_serves, ?_⟩
  cases engages with
  | direct => cases kin
  | settle => exact .complete
  | register =>
    cases kin
    exact .register
  | poll => exact .poll

theorem Owned.opens (h : m.Owned c ctx) {act : Act} {start : Start}
    (opens : start.Opens m.world act) : ∀ f ∈ start.frames, f.Kin c ctx := by
  cases opens with
  | aloof _ aloof _ => exact fun f hf => (aloof f hf).kin
  | births => exact List.forall_mem_nil _
  | engages engages _ => exact h.engages engages
  | @chains handle d ctx' watch _ _ _ _ rest _ refers =>
    have kin : d = c → (Ref.promise d ctx' watch).Kin c ctx := by
      rintro rfl
      exact h.lookup refers rfl
    refine List.forall_mem_cons.2 ⟨?_, List.forall_mem_singleton.2 fun hd => ?_⟩
    · intro same
      subst same
      cases kin rfl
      rfl
    · have same : d = c := by simpa [Ref.entity?] using hd
      exact kin same

/-- The frames that a move leads to are what they may be. -/
theorem Owned.frames_of_moves (h : m.Owned c ctx) (hstack : m.stack = frame :: below)
    (moves : Moves m.world below frame control m') : ∀ f ∈ m'.stack, f.Kin c ctx := by
  have all := h.frames
  rw [hstack] at all
  obtain ⟨top, lower⟩ := List.forall_mem_cons.1 all
  have onto : ∀ {f}, f.Kin c ctx → ∀ f' ∈ f :: below, f'.Kin c ctx :=
    fun new => List.forall_mem_cons.2 ⟨new, lower⟩
  cases moves with
  | begins begins =>
    refine List.forall_mem_append.2 ⟨h.opens (begin_opens _), ?_⟩
    cases begins with
    | session hs _ | body hs _ =>
      cases hs
      exact onto trivial
  | repeats => exact List.forall_mem_cons.2 ⟨trivial, onto trivial⟩
  | chains =>
    refine List.forall_mem_cons.2 ⟨?_, onto top⟩
    intro same
    obtain rfl := top same
    exact ⟨_, Site.Call.start_serves _, .register⟩
  | resumes => exact onto top
  | offers => exact onto trivial
  | answers | breaks | passes | loses => exact lower
  | yields _ aloof => exact List.forall_mem_append.2 ⟨fun f hf => (aloof f hf).kin, lower⟩

theorem Owned.moves (h : m.Owned c ctx) (hstack : m.stack = frame :: below)
    (moves : Moves m.world below frame control m') : m'.Owned c ctx := by
  have frames := h.frames_of_moves hstack moves
  have items : ∀ k, ∀ x ∈ m'.world.registered c k, x.Kin ctx := by
    intro k x hx
    rw [moves.registered] at hx
    exact h.items k x hx
  obtain proceeds | ⟨r, w₁, act, base, births, proceeds, -⟩ := moves.proceeds
  · refine ⟨?_, h.bound_of (handles_recordAll _ _) proceeds (List.forall_mem_nil _), frames, items⟩
    rw [proceeds.size, completions_recordAll]
    exact h.born
  · have apart : r.entity? ≠ some (.completion c) := by
      intro hc
      have same : m.world.completions.size = c := by simpa using births.entity?.symm.trans hc
      exact absurd h.born (same ▸ Nat.lt_irrefl _)
    refine ⟨?_, h.bound_of births.handles proceeds (List.forall_mem_singleton.2 apart), frames,
      items⟩
    rw [proceeds.size, births.size]
    exact Nat.lt_succ_of_lt h.born

/-- What is called has waited, and what has waited was registered. -/
theorem Sound.registered_of_call (sound : m.Sound) {d : CompletionId}
    {here p : Site.Point Value Item WakerId} {s : Site Value Item WakerId} {k : Kind} {x : Item}
    {arg : Option Value} (hstack : m.stack = .driving d here :: below)
    (does : Site.Does (m.world.site d) here s (.call k x arg p)) : x ∈ m.world.registered d k := by
  have exact := sound.world.exact (sound.of_driving (hstack ▸ List.mem_cons_self ..)).1.getElem?
  have waiting := does.waiting_eq exact.atRest k
  have waited : (m.world.site d).completion.waiting k = x :: s.completion.waiting k := by
    simpa [Action.called, Action.registered] using waiting.symm
  rw [← exact.order k]
  apply List.mem_append_right
  rw [show (m.world.completion d).waiting k = _ from waited]
  exact List.mem_cons_self ..

theorem Owned.kin_of_call (h : m.Owned c ctx) (sound : m.Sound)
    {here p : Site.Point Value Item WakerId} {s : Site Value Item WakerId} {k : Kind} {x : Item}
    {arg : Option Value} (hstack : m.stack = .driving c here :: below)
    (does : Site.Does (m.world.site c) here s (.call k x arg p)) : x.Kin ctx :=
  h.items k x (sound.registered_of_call hstack does)

theorem Owned.works (h : m.Owned c ctx) (sound : m.Sound) {d : CompletionId}
    {here : Site.Point Value Item WakerId} {s : Site Value Item WakerId}
    {action : Action Value Item (Site.Point Value Item WakerId) (Site.Answer Value)}
    (hstack : m.stack = .driving d here :: below)
    (works : Works m.world d here below m' s action) : m'.Owned c ctx := by
  have all := h.frames
  rw [hstack] at all
  obtain ⟨top, lower⟩ := List.forall_mem_cons.1 all
  have next : ∀ p, action.next? = some p → (Frame.driving d p).Kin c ctx := by
    rintro p hp same
    obtain ⟨call, serves, kin⟩ := top same
    exact ⟨call, works.does.serves serves hp, kin⟩
  have items : ∀ k, ∀ x ∈ m'.world.registered c k, x.Kin ctx := by
    intro k x hx
    rw [works.registered] at hx
    obtain old | new := List.mem_append.1 hx
    · exact h.items k x old
    · split at new
      next same =>
        obtain ⟨call, serves, kin⟩ := top same
        exact kin.append serves (works.does.of_registered new)
      next => cases new
  have frames : ∀ f ∈ m'.stack, f.Kin c ctx := by
    have leads := works.leads
    have runs := works.runs
    have does := works.does
    obtain ⟨w', stack', control'⟩ := m'
    cases leads with
    | goto | notice => exact List.forall_mem_cons.2 ⟨next _ rfl, lower⟩
    | done | refused => exact lower
    | @call k x _ p _ _ _ _ =>
      obtain ⟨frames, runs, hstack'⟩ := runs _ _ _ _ rfl
      rw [hstack']
      refine List.forall_mem_append.2 ⟨runs.kin ?_, List.forall_mem_cons.2 ⟨next _ rfl, lower⟩⟩
      rintro rfl
      exact h.kin_of_call sound hstack does
  have handles : ((m.world.setSite d s).recordAll (action.events d ++ action.logs d)).handles
      = m.world.handles := handles_recordAll _ _
  refine ⟨?_, h.bound_of handles works.proceeds (List.forall_mem_nil _), frames, items⟩
  rw [works.proceeds.size, completions_recordAll]
  exact Nat.lt_of_lt_of_eq h.born Array.size_setIfInBounds.symm

theorem Owned.step (h : m.Owned c ctx) (sound : m.Sound) : m.step.Owned c ctx := by
  cases hstack : m.stack with
  | nil => rwa [step_of_isOver (List.isEmpty_iff.2 hstack)]
  | cons frame below =>
    obtain moves | ⟨d, here, s, action, -, rfl, works⟩ := sound.moves_or_works hstack
    · exact h.moves hstack moves
    · exact h.works sound hstack works


end Steps

/-! ## Birth -/

section Birth

variable {m m' : Machine} {frame : Frame} {below : List Frame} {control : Control}

/-- No frame works on a completion before it exists. -/
def Unvisited (c : CompletionId) (stack : List Frame) : Prop := ∀ f ∈ stack, ¬ f.On c

theorem unvisited_of_opens {w : World} {held : List Ref} (rooted : w.Rooted held) {act : Act}
    {start : Start} (opens : start.Opens w act) (unborn : w.completions.size ≤ c) :
    Unvisited c start.frames := by
  have apart : ∀ {handle r d}, w.lookup handle = some r → r.entity? = some (.completion d) →
      d ≠ c := by
    rintro handle r d refers hr rfl
    have lives := rooted.lookup refers (.completion d) hr trivial
    exact absurd (Alive.lt_size lives) (Nat.not_lt_of_le unborn)
  cases opens with
  | aloof _ aloof _ => exact fun f hf => (aloof f hf).not_on
  | births => exact List.forall_mem_nil _
  | @engages w' d r call awaiting engages _ =>
    have hd : d ≠ c := by
      cases engages with
      | direct refers | settle refers | register refers | poll refers => exact apart refers rfl
    have holds : ¬ (Frame.holding r).On c := by
      intro hr
      cases engages with
      | direct refers | settle refers | register refers | poll refers =>
        exact apart refers hr rfl
    have awaits : Unvisited c awaiting := by
      cases engages with
      | settle => exact List.forall_mem_singleton.2 hd
      | direct | register | poll => exact List.forall_mem_nil _
    exact List.forall_mem_append.2 ⟨List.forall_mem_cons.2 ⟨hd, awaits⟩,
      List.forall_mem_singleton.2 holds⟩
  | @chains handle d ctx watch _ _ _ _ rest _ refers =>
    have hd : d ≠ c := apart refers rfl
    refine List.forall_mem_cons.2 ⟨hd, List.forall_mem_singleton.2 fun hr => ?_⟩
    exact apart refers hr rfl

/-- A step leads to frames that work on completions that exist. -/
theorem unvisited_step (orderly : m.Orderly) (sound : m.Sound)
    (h : m.world.completions.size ≤ c → Unvisited c m.stack)
    (unborn : m.step.world.completions.size ≤ c) : Unvisited c m.step.stack := by
  cases hstack : m.stack with
  | nil =>
    rw [step_of_isOver (List.isEmpty_iff.2 hstack)] at unborn ⊢
    exact h unborn
  | cons frame below =>
    rw [hstack] at h
    obtain moves | ⟨d, here, s, action, -, rfl, works⟩ := sound.moves_or_works hstack
    · have before : m.world.completions.size ≤ c := by
        obtain proceeds | ⟨r, w₁, act, base, births, proceeds, -⟩ := moves.proceeds
        · rwa [proceeds.size, completions_recordAll] at unborn
        · rw [proceeds.size, births.size] at unborn
          exact Nat.le_of_succ_le unborn
      obtain ⟨top, lower⟩ := List.forall_mem_cons.1 (h before)
      have onto : ∀ {f : Frame}, ¬ f.On c → Unvisited c (f :: below) :=
        fun new => List.forall_mem_cons.2 ⟨new, lower⟩
      generalize m.step = m' at moves
      generalize m.control = control at moves
      cases moves with
      | begins begins =>
        refine List.forall_mem_append.2
          ⟨unvisited_of_opens orderly.rooted (begin_opens _) before, ?_⟩
        cases begins with
        | session hs _ | body hs _ =>
          cases hs
          exact onto not_false
      | repeats => exact List.forall_mem_cons.2 ⟨not_false, onto not_false⟩
      | chains => exact List.forall_mem_cons.2 ⟨top, onto top⟩
      | resumes => exact onto top
      | offers => exact onto not_false
      | answers | breaks | passes | loses => exact lower
      | yields _ aloof => exact List.forall_mem_append.2 ⟨fun f hf => (aloof f hf).not_on, lower⟩
    · have before : m.world.completions.size ≤ c := by
        rw [works.proceeds.size, completions_recordAll] at unborn
        exact Nat.le_trans (Nat.le_of_eq Array.size_setIfInBounds.symm) unborn
      obtain ⟨top, lower⟩ := List.forall_mem_cons.1 (h before)
      have leads := works.leads
      have runs := works.runs
      generalize m.step = m' at leads runs
      obtain ⟨w', stack', control'⟩ := m'
      cases leads with
      | goto | notice => exact List.forall_mem_cons.2 ⟨top, lower⟩
      | done | refused => exact lower
      | call =>
        obtain ⟨frames, runs, hstack'⟩ := runs _ _ _ _ rfl
        rw [hstack']
        exact List.forall_mem_append.2
          ⟨fun f hf on => top (runs.on hf on), List.forall_mem_cons.2 ⟨top, lower⟩⟩

theorem moment_unvisited (watched : List String) (script : Script) (n : Nat)
    (unborn : (moment watched script n).world.completions.size ≤ c) :
    Unvisited c (moment watched script n).stack := by
  induction n with
  | zero => exact List.forall_mem_singleton.2 not_false
  | succ n ih =>
    rw [moment_succ] at unborn ⊢
    exact unvisited_step (moment_orderly watched script n) (moment_sound watched script n) ih unborn

/-- A deferred has just come into being: nobody works on its completion, which is pending, and
nothing waits for it. -/
structure Newborn (c : CompletionId) (ctx : Context) (m : Machine) : Prop where
  owned : m.Owned c ctx
  unvisited : Unvisited c m.stack
  unsettled : m.world.settlement c = none
  called : ∀ k, m.world.called c k = []
  registered : ∀ k, m.world.registered c k = []

theorem size_le_step (sound : m.Sound) :
    m.world.completions.size ≤ m.step.world.completions.size := by
  cases hstack : m.stack with
  | nil => exact Nat.le_of_eq (by rw [step_of_isOver (List.isEmpty_iff.2 hstack)])
  | cons frame below =>
    obtain moves | ⟨d, here, s, action, -, rfl, works⟩ := sound.moves_or_works hstack
    · obtain proceeds | ⟨r, w₁, act, base, births, proceeds, -⟩ := moves.proceeds
      · exact Nat.le_of_eq (by rw [proceeds.size, completions_recordAll])
      · rw [proceeds.size, births.size]
        exact Nat.le_succ _
    · rw [works.proceeds.size, completions_recordAll]
      exact Nat.le_of_eq Array.size_setIfInBounds.symm

/-- Where a deferred is granted it comes into being. -/
theorem newborn_of_births (orderly : m.Orderly) (sound : m.Sound)
    (unvisited : m.world.completions.size ≤ c → Unvisited c m.step.stack) {w₁ : World}
    (births : Births m.world w₁ (.deferred c ctx))
    (proceeds : Proceeds [.deferred c ctx] w₁ m.step.world) :
    m.world.completions.size = c ∧ Newborn c ctx m.step := by
  have same : m.world.completions.size = c := by
    simpa [Ref.entity?] using births.entity?.symm
  have unborn : m.world.completions.size ≤ c := Nat.le_of_eq same
  have nothing := fun k => sound.world.unborn unborn k
  have called : ∀ k, m.step.world.called c k = [] := fun k => by
    rw [proceeds.called, births.called, (nothing k).1]
  have registered : ∀ k, m.step.world.registered c k = [] := fun k => by
    rw [proceeds.registered, births.registered, (nothing k).2]
  refine ⟨same, ⟨?_, ?_, ?_, ?_⟩, unvisited unborn, ?_, called, registered⟩
  · rw [proceeds.size, births.size, same]
    exact Nat.lt_succ_self c
  · intro entry hentry hc
    obtain ⟨old, hold, yields⟩ | ⟨r, hr, yields⟩ | apart := proceeds.handles entry hentry
    · -- What was known before lived before.
      rw [births.handles] at hold
      have lives := orderly.rooted.bound old hold (.completion c) (yields.entity? ▸ hc) trivial
      exact absurd (Alive.lt_size lives) (Nat.not_lt_of_le unborn)
    · obtain rfl := List.mem_singleton.1 hr
      exact Ref.Kin.deferred.of_yields yields
    · exact absurd hc (apart c)
  · exact fun f hf => .of_not_on (unvisited unborn f hf)
  · intro k x hx
    rw [registered] at hx
    cases hx
  · have silent : m.world.story (.completion c) = [] := by
      apply (orderly.lives (show (Entity.completion c).Settles from trivial)).unborn
      exact Array.getElem?_eq_none unborn
    rw [proceeds.settlement]
    cases births with
    | pending _ =>
      rw [World.settlement, show (m.world.addCompletion {}).1.story (.completion c) = _ from silent]
      rfl

/-- A handle refers to a deferred that a handle referred to before, or that has just come into
being. -/
theorem known_or_newborn (orderly : m.Orderly) (sound : m.Sound)
    (unvisited : m.world.completions.size ≤ c → Unvisited c m.stack)
    (known : ∃ entry ∈ m.step.world.handles, entry.2 = .deferred c ctx) :
    (∃ entry ∈ m.world.handles, entry.2 = .deferred c ctx) ∨
      m.world.completions.size = c ∧ Newborn c ctx m.step := by
  obtain ⟨entry, hentry, refers⟩ := known
  cases hstack : m.stack with
  | nil =>
    rw [step_of_isOver (List.isEmpty_iff.2 hstack)] at hentry
    exact .inl ⟨entry, hentry, refers⟩
  | cons frame below =>
    have old : ∀ {granted w₁}, w₁.handles = m.world.handles →
        Proceeds granted w₁ m.step.world → (∃ entry ∈ m.world.handles, entry.2 = .deferred c ctx) ∨
          .deferred c ctx ∈ granted := by
      intro granted w₁ handles proceeds
      have learns := proceeds.handles entry hentry
      rw [refers] at learns
      obtain ⟨old, hold, yields⟩ | ⟨r, hr, yields⟩ | apart := learns
      · exact .inl ⟨old, handles ▸ hold, yields.of_deferred⟩
      · exact .inr (yields.of_deferred ▸ hr)
      · exact absurd rfl (apart c)
    obtain moves | ⟨d, here, s, action, -, rfl, works⟩ := sound.moves_or_works hstack
    · obtain proceeds | ⟨r, w₁, act, base, births, proceeds, begins, stack, -⟩ := moves.proceeds
      · exact .inl ((old (handles_recordAll _ _) proceeds).resolve_right (List.not_mem_nil))
      · obtain known | granted := old births.handles proceeds
        · exact .inl known
        · obtain rfl := List.mem_singleton.1 granted
          refine .inr (newborn_of_births orderly sound (fun unborn => ?_) births proceeds)
          have before := unvisited unborn
          rw [hstack] at before
          rw [stack]
          obtain ⟨-, lower⟩ := List.forall_mem_cons.1 before
          cases begins with
          | session hs _ | body hs _ =>
            cases hs
            exact List.forall_mem_cons.2 ⟨not_false, lower⟩
    · have handles : ((m.world.setSite d s).recordAll (action.events d ++ action.logs d)).handles
          = m.world.handles := handles_recordAll _ _
      exact .inl ((old handles works.proceeds).resolve_right List.not_mem_nil)

variable {watched : List String} {script : Script} {n i j : Nat}

theorem size_le (hij : i ≤ j) : (moment watched script i).world.completions.size
    ≤ (moment watched script j).world.completions.size := by
  induction hij with
  | refl => exact Nat.le_refl _
  | step _ ih =>
    rw [Nat.succ_eq_add_one, moment_succ]
    exact Nat.le_trans ih (size_le_step (moment_sound watched script _))

/-- A deferred that a handle refers to has come into being at some moment before. -/
theorem exists_birth {handle : String}
    (refers : (moment watched script n).world.lookup handle = some (.deferred c ctx)) :
    ∃ b < n, (∀ i ≤ b, (moment watched script i).world.completions.size ≤ c) ∧
      Newborn c ctx (moment watched script (b + 1)) := by
  have known : ∃ entry ∈ (moment watched script n).world.handles, entry.2 = .deferred c ctx :=
    ⟨_, mem_of_lookup refers, rfl⟩
  clear refers
  induction n with
  | zero =>
    obtain ⟨entry, hentry, -⟩ := known
    cases hentry
  | succ n ih =>
    rw [moment_succ] at known
    obtain before | ⟨same, newborn⟩ := known_or_newborn (moment_orderly watched script n)
      (moment_sound watched script n) (moment_unvisited watched script n) known
    · obtain ⟨b, hb, birth⟩ := ih before
      exact ⟨b, Nat.lt_succ_of_lt hb, birth⟩
    · refine ⟨n, Nat.lt_succ_self n, fun i hi => ?_, ?_⟩
      · exact same ▸ size_le hi
      · rwa [moment_succ]

/-- From its birth on a deferred has its completion to itself. -/
theorem Newborn.owned_later {b : Nat} (newborn : Newborn c ctx (moment watched script (b + 1)))
    (hi : b < i) : (moment watched script i).Owned c ctx := by
  induction hi with
  | refl => exact newborn.owned
  | step _ ih =>
    rw [Nat.succ_eq_add_one, moment_succ]
    exact ih.step (moment_sound watched script _)

end Birth

end Machine

end Eventual
