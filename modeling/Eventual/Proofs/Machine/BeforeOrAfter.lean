import Eventual.Proofs.Machine.FirstSettles
import Eventual.Proofs.Machine.Undisturbed

/-!
# Registering before or after completing makes no difference

A list of registrations with one completion, at any place of which the completion is completed.
What is registered before waits, and the drain of the commit calls it; what is registered
afterwards is called by the drain of its own registration. If the items let the completion be,
each of these calls keeps the accounts in a way that can be told in advance, `Fulfils`. So the
accounts after the whole list are known, and of each kind they do not depend on the place.
-/

namespace Eventual

open World

/-- When a drain comes to a kind: wakers first, then what waits for one outcome, then what waits
for either. -/
def Kind.turn : Kind → Nat
  | .waker => 0
  | .on _ => 1
  | .always => 2

/-- The items of a kind among registrations, in their order. -/
def itemsOf (entries : List (Kind × Item)) (k : Kind) : List Item :=
  (entries.filter fun entry => entry.1 = k).map Prod.snd

theorem itemsOf_append (entries entries' : List (Kind × Item)) (k : Kind) :
    itemsOf (entries ++ entries') k = itemsOf entries k ++ itemsOf entries' k := by
  unfold itemsOf
  rw [List.filter_append, List.map_append]

namespace Machine

section Calls

variable {watched : List String} {script : Script} {named : List String}
  {refers : String → Option Ref} {c : CompletionId} {below : List Frame}
  {cell : Cell Value} {waiting : Kind → List Item} {invoked : List (Kind × Item × Option Value)}
  {i j n : Nat} {o : Outcome Value} {k : Kind} {x : Item}

/-! ## Single calls -/

/-- Undisturbed, a call on the completion that finds its accounts as the first ones comes back
with an answer and leaves them as the second ones. -/
def Fulfils (watched : List String) (script : Script) (named : List String)
    (refers : String → Option Ref) (c : CompletionId) (call : Completion.Call Value Item)
    (cell : Cell Value) (waiting : Kind → List Item)
    (invoked : List (Kind × Item × Option Value)) (cell' : Cell Value)
    (waiting' : Kind → List Item) (invoked' : List (Kind × Item × Option Value)) : Prop :=
  ∀ below i, Undisturbed watched script named c below i →
    At watched script named refers c below call.start cell waiting invoked i →
    ∃ j, Stays watched script below i j ∧
      Answered watched script named refers c below cell' waiting' invoked' j

/-- What waits once the registrations have been made. -/
def joined (waiting : Kind → List Item) (entries : List (Kind × Item)) : Kind → List Item :=
  fun k => waiting k ++ itemsOf entries k

theorem joined_nil (waiting : Kind → List Item) : joined waiting [] = waiting :=
  funext fun _ => List.append_nil _

theorem joined_joined (waiting : Kind → List Item) (entries entries' : List (Kind × Item)) :
    joined (joined waiting entries) entries' = joined waiting (entries ++ entries') := by
  funext k
  unfold joined
  rw [List.append_assoc, ← itemsOf_append]

theorem At.appends (h : At watched script named refers c below (.append k x) cell waiting
      invoked i) :
    At watched script named refers c below (.consult k) cell (joined waiting [(k, x)]) invoked
      (i + 1) := by
  refine h.onward fun y a does => ?_
  cases does with
  | append =>
    refine ⟨rfl, (Completion.cell_setQueue ..).trans h.books.cell, fun k' => ?_⟩
    have appended : (((moment watched script i).world.completion c).queue k |>.append x).toList
        = waiting k ++ [x] := by
      rw [Queue.toList_append (h.rest k)]
      exact congrArg (· ++ [x]) (h.books.waiting k)
    rw [Completion.waiting_setQueue, appended, h.books.waiting k']
    unfold joined itemsOf
    by_cases hk : k = k'
    · subst hk
      simp
    · simp [hk]

theorem fulfils_early : Fulfils watched script named refers c (.register k x) (.holding none)
    waiting invoked (.holding none) (joined waiting [(k, x)]) invoked := by
  intro below i _ h
  have consult := h.appends
  have ended := consult.ends fun y a does => by
    have pending := consult.books.cell
    cases does with
    | consultMatching settled | consultOther settled =>
      rw [pending] at settled
      cases settled
    | consultEarly => exact ⟨⟨_, rfl⟩, rfl⟩
  exact ⟨_, h.stays.trans consult.stays, ended⟩

/-- What is registered for the side on which the completion has not settled waits for good. -/
theorem At.strands (h : At watched script named refers c below (.append (.on o.side.other) x)
      (.holding (some o)) waiting invoked i) :
    ∃ j, Stays watched script below i j ∧
      Answered watched script named refers c below (.holding (some o))
        (joined waiting [(.on o.side.other, x)]) invoked j := by
  have consult := h.appends
  have ended := consult.ends fun y a does => by
    have cell := consult.books.cell
    generalize hk : Kind.on o.side.other = k at does
    cases does with
    | consultMatching settled =>
      rw [cell] at settled
      have side := (Kind.on.inj hk).trans (Cell.State.settled.inj settled).symm
      exact absurd side (Side.other_ne o.side)
    | consultOther _ other => obtain rfl | rfl := other <;> cases hk
    | consultEarly => exact ⟨⟨_, rfl⟩, rfl⟩
  exact ⟨_, h.stays.trans consult.stays, ended⟩

theorem fulfils_other : Fulfils watched script named refers c (.register (.on o.side.other) x)
    (.holding (some o)) waiting invoked (.holding (some o))
    (joined waiting [(.on o.side.other, x)]) invoked :=
  fun _ _ _ h => h.strands

/-- What else is registered after the completion has settled is called by the registrar. -/
theorem fulfils_late (hk : k ≠ .on o.side.other) :
    Fulfils watched script named refers c (.register k x) (.holding (some o)) waiting invoked
      (.holding (some o)) (leftWaiting o.side (joined waiting [(k, x)]))
      (invoked ++ drainCalls o (joined waiting [(k, x)])) := by
  intro below i undisturbed h
  have consult := h.appends
  have check : At watched script named refers c below (.check o.side .unit) (.holding (some o))
      (joined waiting [(k, x)]) invoked (i + 1 + 1) := by
    refine consult.onward fun y a does => ?_
    have same : ∀ {s}, ((moment watched script (i + 1)).world.completion c).cell.state
        = .settled s → s = o.side := by
      intro s settled
      rw [consult.books.cell] at settled
      exact (Cell.State.settled.inj settled).symm
    have kept := And.intro consult.books.cell consult.books.waiting
    cases does with
    | consultMatching settled =>
      obtain rfl := same settled
      exact ⟨rfl, kept⟩
    | consultOther settled =>
      obtain rfl := same settled
      exact ⟨rfl, kept⟩
    | consultEarly early =>
      refine absurd (early o.side ?_) hk
      rw [consult.books.cell]
      rfl
  have stays := h.stays.trans consult.stays
  obtain ⟨j, stays', answered⟩ := check.drains (undisturbed.later stays)
  exact ⟨j, stays.trans stays', answered⟩

theorem fulfils_complete : Fulfils watched script named refers c (.complete o) (.holding none)
    waiting invoked (.holding (some o)) (leftWaiting o.side waiting)
    (invoked ++ drainCalls o waiting) := by
  intro below i undisturbed h
  have claim : At watched script named refers c below (.commit o true .claim) {} waiting invoked
      (i + 1) := h.onward fun y a does => by
    cases does with
    | look => exact ⟨rfl, h.books.cell, h.books.waiting⟩
    | lookLate late =>
      rw [h.books.cell] at late
      exact absurd rfl late
  have store : At watched script named refers c below (.commit o true .store)
      { state := .committing } waiting invoked (i + 1 + 1) := claim.onward fun y a does => by
    cases does with
    | claim =>
      rw [claim.books.cell]
      exact ⟨rfl, rfl, claim.books.waiting⟩
    | claimLate late =>
      rw [claim.books.cell] at late
      exact absurd rfl late
  have publish : At watched script named refers c below (.commit o true .publish)
      { state := .committing, stored := some o } waiting invoked (i + 1 + 1 + 1) :=
    store.onward fun y a does => by
      cases does with
      | store =>
        rw [store.books.cell]
        exact ⟨rfl, rfl, store.books.waiting⟩
  have announce : At watched script named refers c below (.announce o.side) (.holding (some o))
      waiting invoked (i + 1 + 1 + 1 + 1) := publish.onward fun y a does => by
    cases does with
    | publish =>
      rw [publish.books.cell]
      exact ⟨rfl, rfl, publish.books.waiting⟩
  have check : At watched script named refers c below (.check o.side .won) (.holding (some o))
      waiting invoked (i + 1 + 1 + 1 + 1 + 1) := announce.onward fun y a does => by
    cases does with
    | announce => exact ⟨rfl, announce.books.cell, announce.books.waiting⟩
  have stays := (((h.stays.trans claim.stays).trans store.stays).trans publish.stays).trans
    announce.stays
  obtain ⟨j, stays', answered⟩ := check.drains (undisturbed.later stays)
  exact ⟨j, stays.trans stays', answered⟩

end Calls

/-! ## Steps of the list -/

/-- A step of a script registers an item, through one of the named handles. -/
inductive Enlists (named : List String) (refers : String → Option Ref) (c : CompletionId) :
    Act → Kind → Item → Prop
  | callback {handle : String} {k : Kind} {cb : Callback} : handle ∈ named →
      refers handle = some (.completion c) →
      Enlists named refers c (.onCompletion handle (.register k cb)) k (.callback cb none)
  | countdown {handle name : String} {k : Kind} {count : Nat} : handle ∈ named →
      refers handle = some (.completion c) →
      Enlists named refers c (.onCompletion handle (.registerCountdown k name count)) k
        (.countdown k name count)
  | waker {handle wakes : String} {w : WakerId} : handle ∈ named →
      refers handle = some (.completion c) → wakes ∈ named → refers wakes = some (.waker w) →
      Enlists named refers c (.onCompletion handle (.registerWaker wakes)) .waker (.waker w)
  | chained {handle : String} {ctx : Context} {watch : WatchId} {k : Kind} {cb : Callback} :
      handle ∈ named → refers handle = some (.promise c ctx watch) →
      Enlists named refers c (.onPromise handle (.register k cb)) k (.callback cb (some ctx))

/-- A step of a script completes with an outcome, through one of the named handles. -/
inductive Completes (named : List String) (refers : String → Option Ref) (c : CompletionId)
    (o : Outcome Value) : Act → Prop
  | direct {handle : String} : handle ∈ named → refers handle = some (.completion c) →
      Completes named refers c o (.onCompletion handle (.complete o))
  | deferred {handle : String} {ctx : Context} : handle ∈ named →
      refers handle = some (.deferred c ctx) →
      Completes named refers c o (.onDeferred handle (.settle o))

/-- User code of which the steps are still to be done. -/
inductive Todo (steps : Script) : Frame → Prop
  | session {watched : List String} : Todo steps (.session watched steps)
  | body {label : String} : Todo steps (.body label steps)

section Steps

variable {watched : List String} {script : Script} {named : List String}
  {refers : String → Option Ref} {c : CompletionId} {base below : List Frame}
  {cell cell' : Cell Value} {waiting waiting' : Kind → List Item}
  {invoked invoked' : List (Kind × Item × Option Value)} {i j : Nat} {o : Outcome Value}
  {k : Kind} {x : Item} {act : Act} {call : Completion.Call Value Item} {step : Step}
  {rest : Script}

/-- At moment `i` user code above the frames is about to do the steps, and the accounts are as
given. -/
structure Ready (watched : List String) (script : Script) (named : List String)
    (refers : String → Option Ref) (c : CompletionId) (base : List Frame) (steps : Script)
    (cell : Cell Value) (waiting : Kind → List Item)
    (invoked : List (Kind × Item × Option Value)) (i : Nat) : Prop where
  code : ∃ frame, Todo steps frame ∧ (moment watched script i).stack = frame :: base
  resume : (moment watched script i).control = .resume
  books : Books named refers c cell waiting invoked (moment watched script i).world

theorem Ready.begins
    (h : Ready watched script named refers c base (step :: rest) cell waiting invoked i) :
    ∃ frame, Todo rest frame ∧ Begins step.act (moment watched script i) (frame :: base) := by
  obtain ⟨label, act⟩ := step
  obtain ⟨frame, todo, hstack⟩ := h.code
  cases todo with
  | session => exact ⟨_, .session, .session hstack h.resume⟩
  | body => exact ⟨_, .body, .body hstack h.resume⟩

/-- A step that begins a call on the completion, while the accounts are as given. -/
structure Engaging (named : List String) (refers : String → Option Ref) (c : CompletionId)
    (call : Completion.Call Value Item) (act : Act) (m : Machine) (base : List Frame)
    (awaiting : List Frame) (r : Ref) (w : World) : Prop where
  start : begin m.world (heldBy base) act = Start.engage w r c (.direct call) awaiting
  same : Same c m.world w
  /-- The call holds what one of the named handles refers to. -/
  holds : ∃ h ∈ named, refers h = some r
  awaiting : awaiting = [] ∨ ∃ s, awaiting = [.settling c s]

/-- The frames below hear of the answer of a call. -/
theorem Answered.passes {frame : Frame}
    (h : Answered watched script named refers c (frame :: below) cell waiting invoked j)
    (passes : ∀ r, ∃ w r', receive (moment watched script j).world below r frame
      = hand w below r' ∧ Same c (moment watched script j).world w) :
    Stays watched script below j (j + 1) ∧
      Answered watched script named refers c below cell waiting invoked (j + 1) := by
  obtain ⟨r, answer⟩ := h.answers
  obtain ⟨w, r', received, same⟩ := passes r
  have next := step_of_answer h.stack answer
  rw [← moment_succ, received] at next
  refine ⟨.step (by rw [h.stack]; exact Nat.lt_succ_self _), ?_, ⟨r', ?_⟩, ?_⟩
  · rw [next]
    rfl
  · rw [next]
    rfl
  · rw [next]
    exact h.books.same same

theorem Answered.settled {s : Side}
    (h : Answered watched script named refers c (.settling c s :: below) cell waiting invoked j) :
    Stays watched script below j (j + 1) ∧
      Answered watched script named refers c below cell waiting invoked (j + 1) := by
  refine h.passes fun r => ?_
  unfold receive
  dsimp only
  split
  next => exact ⟨_, _, rfl, .record _ rfl⟩
  next => exact ⟨_, _, rfl, rfl, rfl, rfl⟩

theorem Answered.released {r : Ref} {handle : String} (hh : handle ∈ named)
    (hr : refers handle = some r)
    (h : Answered watched script named refers c (.holding r :: below) cell waiting invoked j) :
    Stays watched script below j (j + 1) ∧
      Answered watched script named refers c below cell waiting invoked (j + 1) := by
  refine h.passes fun r' => ⟨_, r', rfl, ?_⟩
  rw [release_of_lookup ((h.books.refers handle hh).trans hr)]
  exact ⟨rfl, rfl, rfl⟩

theorem Answered.goes_on {frame : Frame} (todo : Todo rest frame)
    (h : Answered watched script named refers c (frame :: base) cell waiting invoked j) :
    Ready watched script named refers c base rest cell waiting invoked (j + 1) := by
  obtain ⟨r, answer⟩ := h.answers
  have next := step_of_answer h.stack answer
  rw [← moment_succ] at next
  have same : Same c (moment watched script j).world (moment watched script (j + 1)).world := by
    rw [next]
    cases todo with
    | session => exact .record _ rfl
    | body => exact .record _ rfl
  refine ⟨⟨frame, todo, ?_⟩, ?_, h.books.same same⟩
  · rw [next]
    cases todo <;> rfl
  · rw [next]
    cases todo <;> rfl

/-- A call begins above what awaits its answer, and finds the accounts as the step found them. -/
theorem Begins.starts {w : World} {r : Ref} {awaiting : List Frame}
    (begins : Begins act (moment watched script i) base)
    (start : begin (moment watched script i).world (heldBy base) act
      = Start.engage w r c (.direct call) awaiting)
    (same : Same c (moment watched script i).world w)
    (books : Books named refers c cell waiting invoked (moment watched script i).world) :
    At watched script named refers c (awaiting ++ .holding r :: base) call.start cell waiting
      invoked (i + 1) := by
  have next := begins.step
  rw [← moment_succ] at next
  simp only [enter, start] at next
  refine ⟨⟨?_, by rw [next]; rfl⟩, ?_⟩
  · rw [next]
    simp [Start.engage, Start.run, Site.Call.start]
  · rw [next]
    exact books.same same

theorem Answered.awaited {awaiting : List Frame}
    (awaits : awaiting = [] ∨ ∃ s, awaiting = [.settling c s])
    (h : Answered watched script named refers c (awaiting ++ below) cell waiting invoked j) :
    ∃ j', Stays watched script below j j' ∧
      Answered watched script named refers c below cell waiting invoked j' := by
  obtain rfl | ⟨s, rfl⟩ := awaits
  · exact ⟨j, .refl j, h⟩
  · exact ⟨j + 1, h.settled⟩

/-- A step of the list comes back, and what becomes of the accounts is what the call makes of
them. -/
theorem Ready.calls (undisturbed : Undisturbed watched script named c base i)
    (h : Ready watched script named refers c base (step :: rest) cell waiting invoked i)
    (fulfils : Fulfils watched script named refers c call cell waiting invoked cell' waiting'
      invoked')
    (engages : ∀ base', ∃ awaiting r w,
      Engaging named refers c call step.act (moment watched script i) base' awaiting r w) :
    ∃ j, Stays watched script base i j ∧
      Ready watched script named refers c base rest cell' waiting' invoked' j := by
  obtain ⟨frame, todo, begins⟩ := h.begins
  obtain ⟨awaiting, r, w, engaging⟩ := engages (frame :: base)
  obtain ⟨handle, hh, hr⟩ := engaging.holds
  have first : Stays watched script base i (i + 1) := by
    obtain ⟨frame', -, hstack⟩ := h.code
    exact .step (by rw [hstack]; exact Nat.lt_succ_self _)
  have start := begins.starts engaging.start engaging.same h.books
  have lower : base.length ≤ (awaiting ++ .holding r :: frame :: base).length := by
    simp only [List.length_append, List.length_cons]
    omega
  have lower' : base.length ≤ (Frame.holding r :: frame :: base).length :=
    Nat.le_add_right base.length 2
  obtain ⟨j, stays, answered⟩ := fulfils _ _ ((undisturbed.later first).above lower) start
  obtain ⟨j', stays', answered'⟩ := answered.awaited engaging.awaiting
  obtain ⟨stays'', released⟩ := answered'.released hh hr
  have last : Stays watched script base (j' + 1) (j' + 1 + 1) :=
    .step (by rw [released.stack]; exact Nat.lt_succ_self _)
  exact ⟨j' + 1 + 1, (((first.trans (stays.above lower)).trans (stays'.above lower')).trans
    (stays''.above (Nat.le_succ _))).trans last, released.goes_on todo⟩

theorem Enlists.engages (h : Enlists named refers c act k x) {m : Machine}
    (books : Books named refers c cell waiting invoked m.world) (base' : List Frame) :
    ∃ awaiting r w, Engaging named refers c (.register k x) act m base' awaiting r w := by
  cases h with
  | @callback handle _ _ hh refers | @countdown handle _ _ _ hh refers =>
    refine ⟨[], .completion c, m.world, ?_, ⟨rfl, rfl, rfl⟩, ⟨handle, hh, refers⟩, .inl rfl⟩
    simp only [begin, (books.refers handle hh).trans refers, beginCompletion]
  | @waker handle wakes w hh refers hw wakesRefers =>
    refine ⟨[], .completion c, m.world, ?_, ⟨rfl, rfl, rfl⟩, ⟨handle, hh, refers⟩, .inl rfl⟩
    simp only [begin, (books.refers handle hh).trans refers, beginCompletion,
      (books.refers wakes hw).trans wakesRefers]
  | @chained handle ctx watch _ _ hh refers =>
    refine ⟨[], .promise c ctx watch, m.world, ?_, ⟨rfl, rfl, rfl⟩, ⟨handle, hh, refers⟩,
      .inl rfl⟩
    simp only [begin, (books.refers handle hh).trans refers, beginPromise]

theorem Completes.engages (h : Completes named refers c o act) {m : Machine}
    (books : Books named refers c cell waiting invoked m.world) (base' : List Frame) :
    ∃ awaiting r w, Engaging named refers c (.complete o) act m base' awaiting r w := by
  cases h with
  | @direct handle hh refers =>
    have offered : Same c m.world (m.world.record (.offered (.completion c) o)) :=
      .record m.world rfl
    refine ⟨[], .completion c, _, ?_, offered, ⟨handle, hh, refers⟩, .inl rfl⟩
    simp only [begin, (books.refers handle hh).trans refers, beginCompletion]
  | @deferred handle ctx hh refers =>
    have offered : Same c m.world (m.world.record (.offered (.completion c) o)) :=
      .record m.world rfl
    refine ⟨[.settling c o.side], .deferred c ctx, _, ?_, offered,
      ⟨handle, hh, refers⟩, .inr ⟨o.side, rfl⟩⟩
    simp only [begin, (books.refers handle hh).trans refers, beginDeferred]

end Steps

/-! ## Lists of registrations -/

structure Registration where
  step : Step
  kind : Kind
  item : Item

def Registration.entry (r : Registration) : Kind × Item := (r.kind, r.item)

/-- What an item is called with, of those that wait for an outcome. -/
def Registration.invocation (o : Outcome Value) (r : Registration) :
    Kind × Item × Option Value :=
  (r.kind, r.item, r.kind.argument o.value)

section Lists

variable {watched : List String} {script : Script} {named : List String}
  {refers : String → Option Ref} {c : CompletionId} {base : List Frame}
  {waiting : Kind → List Item} {invoked : List (Kind × Item × Option Value)} {i : Nat}
  {o : Outcome Value} {registrations : List Registration} {rest : Script}

/-- Before the completion is settled, all that is registered waits. -/
theorem Ready.registers_early
    (enlists : ∀ r ∈ registrations, Enlists named refers c r.step.act r.kind r.item)
    (undisturbed : Undisturbed watched script named c base i)
    (h : Ready watched script named refers c base
      (registrations.map Registration.step ++ rest) (.holding none) waiting invoked i) :
    ∃ j, Stays watched script base i j ∧
      Ready watched script named refers c base rest (.holding none)
        (joined waiting (registrations.map Registration.entry)) invoked j := by
  induction registrations generalizing waiting i with
  | nil =>
    exact ⟨i, .refl i, (joined_nil waiting).symm ▸ h⟩
  | cons r registrations ih =>
    obtain ⟨first, others⟩ := List.forall_mem_cons.1 enlists
    obtain ⟨j, stays, ready⟩ := h.calls undisturbed fulfils_early fun base' =>
      first.engages h.books base'
    obtain ⟨l, stays', ready'⟩ := ih others (undisturbed.later stays) ready
    rw [joined_joined] at ready'
    exact ⟨l, stays.trans stays', ready'⟩

theorem drainCalls_single {k : Kind} (hk : k ≠ .on o.side.other) (x : Item)
    (drained : ∀ k, k ≠ .on o.side.other → waiting k = []) :
    drainCalls o (joined waiting [(k, x)]) = [(k, x, k.argument o.value)] := by
  have alone : ∀ k', k' ≠ .on o.side.other →
      joined waiting [(k, x)] k' = if k = k' then [x] else [] := by
    intro k' hk'
    unfold joined itemsOf
    rw [drained k' hk']
    by_cases same : k = k' <;> simp [same]
  have wakers := alone .waker nofun
  have matching := alone (.on o.side) fun e => Side.other_ne o.side (Kind.on.inj e).symm
  have always := alone .always nofun
  unfold drainCalls
  simp only [List.flatMap_cons, List.flatMap_nil, wakers, matching, always]
  rcases k with s | _ | _
  · obtain rfl : s = o.side := by
      cases s <;> cases h : o.side <;> simp_all [Side.other]
    simp
  · simp
  · simp

theorem leftWaiting_of_ne {s : Side} {k : Kind} (hk : k ≠ .on s.other) :
    leftWaiting s waiting k = [] := if_neg hk

/-- What is left waiting when more has been registered meanwhile. -/
theorem leftWaiting_joined (s : Side) (entries : List (Kind × Item)) :
    leftWaiting s (joined (leftWaiting s waiting) entries)
      = leftWaiting s (joined waiting entries) := by
  funext k
  unfold leftWaiting joined
  split
  next hk => exact congrArg (· ++ itemsOf entries k) (if_pos hk)
  next => rfl

/-- What is left waiting once nothing else waits. -/
theorem leftWaiting_eq {s : Side} (drained : ∀ k, k ≠ .on s.other → waiting k = []) :
    leftWaiting s waiting = waiting := by
  funext k
  unfold leftWaiting
  split
  next => rfl
  next hk => exact (drained k hk).symm

/-- A registration with a settled completion, for which nothing waits but the other side. -/
theorem fulfils_settled (drained : ∀ k, k ≠ .on o.side.other → waiting k = [])
    (r : Registration) :
    Fulfils watched script named refers c (.register r.kind r.item) (.holding (some o)) waiting
      invoked (.holding (some o)) (leftWaiting o.side (joined waiting [r.entry]))
      (invoked ++ ([r].filter fun r => r.kind ≠ .on o.side.other).map
        (Registration.invocation o)) := by
  obtain ⟨step, k, x⟩ := r
  by_cases hk : k = .on o.side.other
  · subst hk
    have waits : leftWaiting o.side (joined waiting [(.on o.side.other, x)])
        = joined waiting [(.on o.side.other, x)] := by
      refine leftWaiting_eq fun k hk => ?_
      unfold joined itemsOf
      simp [drained k hk, Ne.symm hk]
    have none : invoked ++ ([Registration.mk step (.on o.side.other) x].filter fun r =>
        r.kind ≠ .on o.side.other).map (Registration.invocation o) = invoked := by simp
    rw [none]
    exact waits.symm ▸ fulfils_other
  · have one : ([Registration.mk step k x].filter fun r => r.kind ≠ .on o.side.other).map
        (Registration.invocation o) = drainCalls o (joined waiting [(k, x)]) := by
      rw [drainCalls_single hk x drained]
      simp [hk, Registration.invocation]
    rw [one]
    exact fulfils_late hk

/-- Once the completion has settled, each registration has its item called at once, except for
those of the other side. -/
theorem Ready.registers_late
    (enlists : ∀ r ∈ registrations, Enlists named refers c r.step.act r.kind r.item)
    (undisturbed : Undisturbed watched script named c base i)
    (drained : ∀ k, k ≠ .on o.side.other → waiting k = [])
    (h : Ready watched script named refers c base
      (registrations.map Registration.step ++ rest) (.holding (some o)) waiting invoked i) :
    ∃ j, Stays watched script base i j ∧
      Ready watched script named refers c base rest (.holding (some o))
        (leftWaiting o.side (joined waiting (registrations.map Registration.entry)))
        (invoked ++ (registrations.filter fun r => r.kind ≠ .on o.side.other).map
          (Registration.invocation o)) j := by
  induction registrations generalizing waiting invoked i with
  | nil =>
    have same : leftWaiting o.side (joined waiting []) = waiting :=
      (congrArg (leftWaiting o.side) (joined_nil waiting)).trans (leftWaiting_eq drained)
    refine ⟨i, .refl i, ?_⟩
    rw [List.map_nil, same, List.filter_nil, List.map_nil, List.append_nil]
    exact h
  | cons r registrations ih =>
    obtain ⟨first, others⟩ := List.forall_mem_cons.1 enlists
    obtain ⟨j, stays, ready⟩ := h.calls undisturbed (fulfils_settled drained r) fun base' =>
      first.engages h.books base'
    obtain ⟨l, stays', ready'⟩ := ih others (undisturbed.later stays)
      (fun k hk => leftWaiting_of_ne hk) ready
    refine ⟨l, stays.trans stays', ?_⟩
    rw [leftWaiting_joined, joined_joined, List.append_assoc, ← List.map_append,
      ← List.filter_append] at ready'
    exact ready'

end Lists

/-! ## What is invoked -/

section Invocations

variable {o : Outcome Value}

theorem itemsOf_entries (registrations : List Registration) (k : Kind) :
    (itemsOf (registrations.map Registration.entry) k).map (fun x => (k, x, k.argument o.value))
      = (registrations.filter fun r => r.kind = k).map (Registration.invocation o) := by
  unfold itemsOf
  rw [List.filter_map, List.map_map, List.map_map]
  apply List.map_congr_left
  intro r hr
  obtain rfl : r.kind = k := of_decide_eq_true (List.mem_filter.1 hr).2
  rfl

theorem itemsOf_eq_nil {registrations : List Registration} {k : Kind}
    (later : ∀ r ∈ registrations, k.turn < r.kind.turn) :
    itemsOf (registrations.map Registration.entry) k = [] := by
  unfold itemsOf
  rw [List.filter_map, List.map_map, List.map_eq_nil_iff, List.filter_eq_nil_iff]
  intro r hr same
  obtain rfl : r.kind = k := of_decide_eq_true same
  exact Nat.lt_irrefl _ (later r hr)

/-- What has been registered in the order of the turns is invoked in the order in which it was
registered. -/
theorem drainCalls_of_turns {registrations : List Registration}
    (turns : registrations.Pairwise fun r r' => r.kind.turn ≤ r'.kind.turn) :
    drainCalls o (joined (fun _ => []) (registrations.map Registration.entry))
      = (registrations.filter fun r => r.kind ≠ .on o.side.other).map
          (Registration.invocation o) := by
  induction turns with
  | nil => rfl
  | @cons r registrations first _ ih =>
    have item : ∀ k, joined (fun _ => []) ((r :: registrations).map Registration.entry) k
        = (if r.kind = k then [r.item] else [])
          ++ joined (fun _ => []) (registrations.map Registration.entry) k := by
      intro k
      unfold joined itemsOf
      by_cases hk : r.kind = k <;> simp [Registration.entry, hk]
    have past : ∀ k, k.turn < r.kind.turn →
        joined (fun _ => []) (registrations.map Registration.entry) k = [] := fun k hk =>
      itemsOf_eq_nil fun r' hr' => Nat.lt_of_lt_of_le hk (first r' hr')
    have wakers := past .waker
    have matching := past (.on o.side)
    rw [List.filter_cons]
    unfold drainCalls at ih ⊢
    simp only [List.flatMap_cons, List.flatMap_nil, List.append_nil, item] at ih ⊢
    obtain ⟨step, k, x⟩ := r
    rcases k with s | _ | _
    · rw [wakers Nat.zero_lt_one] at ih ⊢
      by_cases hs : s = o.side
      · subst hs
        simpa [Registration.invocation, (Side.other_ne o.side).symm] using ih
      · obtain rfl : s = o.side.other := by
          cases s <;> cases h : o.side <;> simp_all [Side.other]
        simpa [hs] using ih
    · rw [wakers Nat.zero_lt_two, matching Nat.one_lt_two] at ih ⊢
      simpa [Registration.invocation, Kind.argument] using ih
    · simpa [Registration.invocation, Kind.argument] using ih

end Invocations

/-! ## The place of the completing step -/

/-- The steps of a list of registrations, with a completing step at a place. -/
def placed (registrations : List Registration) (completing : Step) (place : Nat) : Script :=
  (registrations.take place).map Registration.step
    ++ completing :: (registrations.drop place).map Registration.step

/-- At moment `n` user code above the frames is about to do just these steps; the completion is
pending and nothing waits for it; the named handles refer to what is said; and what the
completion calls in the course of the steps lets it be. -/
structure Prepared (watched : List String) (script : Script) (named : List String)
    (refers : String → Option Ref) (c : CompletionId) (base : List Frame) (steps : Script)
    (n : Nat) : Prop where
  code : ∃ frame, Todo steps frame ∧ (moment watched script n).stack = frame :: base
  resume : (moment watched script n).control = .resume
  refers : ∀ h ∈ named, (moment watched script n).world.lookup h = refers h
  pending : ((moment watched script n).world.completion c).cell = {}
  nobody : ∀ k, ((moment watched script n).world.completion c).waiting k = []
  undisturbed : Undisturbed watched script named c base n

/-- By moment `l` the steps have been done that were about to be done at moment `n`, and since
then the completion has invoked the calls: of each kind all that was registered, each with what
its kind is given of the outcome, in the order of the registrations; but nothing of the other
side, whose items wait in that order. -/
structure Performed (watched : List String) (script : Script) (c : CompletionId)
    (base : List Frame) (o : Outcome Value) (registrations : List Registration) (n l : Nat)
    (calls : List (Kind × Item × Option Value)) : Prop where
  stays : Stays watched script base n l
  code : ∃ frame, Todo [] frame ∧ (moment watched script l).stack = frame :: base
  resume : (moment watched script l).control = .resume
  invoked : (moment watched script l).world.invoked c
    = (moment watched script n).world.invoked c ++ calls
  each : ∀ k, calls.filter (fun call => call.1 = k) = if k = .on o.side.other then [] else
    (registrations.filter fun r => r.kind = k).map (Registration.invocation o)
  cell : ((moment watched script l).world.completion c).cell
    = { state := .settled o.side, stored := some o }
  waiting : ∀ k, ((moment watched script l).world.completion c).waiting k =
    if k = .on o.side.other then
      (registrations.filter fun r => r.kind = k).map Registration.item else []

section Places

variable {watched : List String} {script : Script} {named : List String}
  {refers : String → Option Ref} {c : CompletionId} {base : List Frame} {n place : Nat}
  {o : Outcome Value} {registrations : List Registration} {completing : Step}

/-- What a list of registrations invokes with a completing step at a place. -/
def callsOf (o : Outcome Value) (registrations : List Registration) (place : Nat) :
    List (Kind × Item × Option Value) :=
  drainCalls o (joined (fun _ => []) ((registrations.take place).map Registration.entry))
    ++ ((registrations.drop place).filter fun r => r.kind ≠ .on o.side.other).map
      (Registration.invocation o)

theorem callsOf_of_kind (k : Kind) :
    (callsOf o registrations place).filter (fun call => call.1 = k)
      = if k = .on o.side.other then [] else
          (registrations.filter fun r => r.kind = k).map (Registration.invocation o) := by
  have late : (((registrations.drop place).filter fun r => r.kind ≠ .on o.side.other).map
        (Registration.invocation o)).filter (fun call => call.1 = k)
      = if k = .on o.side.other then [] else
          ((registrations.drop place).filter fun r => r.kind = k).map
            (Registration.invocation o) := by
    rw [List.filter_map, List.filter_filter]
    split
    next other =>
      rw [List.map_eq_nil_iff, List.filter_eq_nil_iff]
      rintro r - kept
      obtain ⟨same, apart⟩ := (Bool.and_eq_true ..).mp kept
      exact of_decide_eq_true apart ((of_decide_eq_true same).trans other)
    next other =>
      congr 1
      refine List.filter_congr fun r _ => ?_
      by_cases same : r.kind = k
      · subst same
        simp [Registration.invocation, other]
      · simp [Registration.invocation, same]
  unfold callsOf
  rw [List.filter_append, drainCalls_of_kind, late]
  split
  next => rfl
  next =>
    have early := @itemsOf_entries o (registrations.take place) k
    rw [joined, List.nil_append, early, ← List.map_append, ← List.filter_append,
      List.take_append_drop]

/-- Of registrations in the order of the turns, the place makes no difference at all. -/
theorem callsOf_of_turns
    (turns : registrations.Pairwise fun r r' => r.kind.turn ≤ r'.kind.turn) :
    callsOf o registrations place = (registrations.filter fun r =>
      r.kind ≠ .on o.side.other).map (Registration.invocation o) := by
  unfold callsOf
  rw [drainCalls_of_turns (turns.sublist (List.take_sublist place registrations)),
    ← List.map_append, ← List.filter_append, List.take_append_drop]

/-- What a run does with a completing step at a place of the list. -/
theorem Prepared.performs
    (enlists : ∀ r ∈ registrations, Enlists named refers c r.step.act r.kind r.item)
    (completes : Completes named refers c o completing.act)
    (prepared : Prepared watched script named refers c base
      (placed registrations completing place) n) :
    ∃ l, Performed watched script c base o registrations n l
      (callsOf o registrations place) := by
  have undisturbed := prepared.undisturbed
  have ready : Ready watched script named refers c base (placed registrations completing place)
      (.holding none) (fun _ => []) ((moment watched script n).world.invoked c) n :=
    ⟨prepared.code, prepared.resume, ⟨prepared.refers, prepared.pending, prepared.nobody, rfl⟩⟩
  obtain ⟨i, stays, committing⟩ := ready.registers_early
    (fun r hr => enlists r (List.mem_of_mem_take hr)) undisturbed
  obtain ⟨j, stays', settled⟩ := committing.calls (undisturbed.later stays) fulfils_complete
    fun base' => completes.engages committing.books base'
  have steps : (registrations.drop place).map Registration.step
      = (registrations.drop place).map Registration.step ++ [] := (List.append_nil _).symm
  rw [steps] at settled
  obtain ⟨l, stays'', done⟩ := settled.registers_late
    (fun r hr => enlists r (List.mem_of_mem_drop hr)) (undisturbed.later (stays.trans stays'))
    fun k hk => leftWaiting_of_ne hk
  refine ⟨l, (stays.trans stays').trans stays'', done.code, done.resume, ?_, callsOf_of_kind,
    done.books.cell, fun k => ?_⟩
  · rw [done.books.invoked, List.append_assoc]
    rfl
  · rw [done.books.waiting, leftWaiting_joined, joined_joined, ← List.map_append,
      List.take_append_drop]
    unfold leftWaiting joined
    split
    next =>
      rw [List.nil_append, itemsOf, List.filter_map, List.map_map]
      rfl
    next => rfl

end Places

/-- It makes no difference at which place of a list of registrations the completion is completed,
as long as the items let it be. Two runs that differ in the place, and in whatever comes before
and after the list, both perform it: for each kind they invoke the same items with the same
argument in the same order, each once, and leave the completion settled with the same items
waiting, those of the other side. If the list has all wakers first, then what waits for one
outcome, then what waits for either, the two runs invoke the same sequence. -/
theorem completing_place_immaterial (named : List String) (refers : String → Option Ref)
    (c : CompletionId) (o : Outcome Value) (registrations : List Registration)
    (enlists : ∀ r ∈ registrations, Enlists named refers c r.step.act r.kind r.item)
    (watched watched' : List String) (script script' : Script) (base base' : List Frame)
    (n n' place place' : Nat) (completing completing' : Step)
    (completes : Completes named refers c o completing.act)
    (completes' : Completes named refers c o completing'.act)
    (prepared : Prepared watched script named refers c base
      (placed registrations completing place) n)
    (prepared' : Prepared watched' script' named refers c base'
      (placed registrations completing' place') n') :
    ∃ l calls l' calls', Performed watched script c base o registrations n l calls ∧
      Performed watched' script' c base' o registrations n' l' calls' ∧
      (∀ k, calls'.filter (fun call => call.1 = k) = calls.filter fun call => call.1 = k) ∧
      ((moment watched' script' l').world.completion c).cell
        = ((moment watched script l).world.completion c).cell ∧
      (∀ k, ((moment watched' script' l').world.completion c).waiting k
        = ((moment watched script l).world.completion c).waiting k) ∧
      ((registrations.Pairwise fun r r' => r.kind.turn ≤ r'.kind.turn) → calls' = calls) := by
  obtain ⟨l, performed⟩ := prepared.performs enlists completes
  obtain ⟨l', performed'⟩ := prepared'.performs enlists completes'
  refine ⟨l, _, l', _, performed, performed', fun k => ?_, ?_, fun k => ?_, fun turns => ?_⟩
  · rw [callsOf_of_kind, callsOf_of_kind]
  · rw [performed.cell, performed'.cell]
  · rw [performed.waiting, performed'.waiting]
  · rw [callsOf_of_turns turns, callsOf_of_turns turns]

/-- A waker, a callback for each side and one for either. The body of the first callback is
busy with a queue. -/
def sampleRegistrations : List Registration :=
  [⟨.mk "" (.onCompletion "c" (.registerWaker "w")), .waker, .waker 0⟩,
    ⟨.mk "" (.onCompletion "c" (.register (.on .success)
      (.mk "a" [.mk "" (.onQueue "q" (.append { data := .int 1 }))]))), .on .success,
      .callback (.mk "a" [.mk "" (.onQueue "q" (.append { data := .int 1 }))]) none⟩,
    ⟨.mk "" (.onCompletion "c" (.register (.on .failure) (.mk "b" []))), .on .failure,
      .callback (.mk "b" []) none⟩,
    ⟨.mk "" (.onCompletion "c" (.register .always (.mk "z" []))), .always,
      .callback (.mk "z" []) none⟩]

/-- Three handles, and the registrations with a completing step among them. -/
def placeScript (place : Nat) : Script :=
  .mk "" (.create "c" .completion) :: .mk "" (.create "q" .queue)
    :: .mk "" (.create "w" (.waker []))
    :: placed sampleRegistrations
      (.mk "" (.onCompletion "c" (.complete ⟨.success, { data := .int 5 }⟩))) place

/-- In the first run the completing step comes second, in the other one last. -/
theorem completing_place_immaterial_sample :
    ∃ l calls l' calls',
      Performed [] (placeScript 1) 0 [] ⟨.success, { data := .int 5 }⟩ sampleRegistrations 6 l
        calls ∧
      Performed [] (placeScript 4) 0 [] ⟨.success, { data := .int 5 }⟩ sampleRegistrations 6 l'
        calls' ∧ calls' = calls := by
  have enlists : ∀ r ∈ sampleRegistrations, Enlists ["c", "w"]
      (moment [] (placeScript 1) 6).world.lookup 0 r.step.act r.kind r.item := by
    have callback : ∀ k cb, Enlists ["c", "w"] (moment [] (placeScript 1) 6).world.lookup 0
        (.onCompletion "c" (.register k cb)) k (.callback cb none) := fun k cb =>
      .callback (by simp) rfl
    simp only [sampleRegistrations, List.forall_mem_cons]
    exact ⟨.waker (by simp) rfl (by simp) rfl, callback _ _, callback _ _, callback _ _,
      List.forall_mem_nil _⟩
  have completes : Completes ["c", "w"] (moment [] (placeScript 1) 6).world.lookup 0
      ⟨.success, { data := .int 5 }⟩
      (.onCompletion "c" (.complete ⟨.success, { data := .int 5 }⟩)) := .direct (by simp) rfl
  have first : Undisturbed [] (placeScript 1) ["c", "w"] 0 [] 6 := by
    have calls : ∀ i, i < 67 →
        ((moment [] (placeScript 1) (i + 1)).world.invoked 0).length
          ≠ ((moment [] (placeScript 1) i).world.invoked 0).length →
        i = 19 ∨ i = 35 ∨ i = 58 := by decide +kernel
    refine @Undisturbed.of_calls _ _ _ _ _ _ 67 rfl fun i hi _ new => ?_
    obtain rfl | rfl | rfl := calls i hi new
    · exact ⟨21, by decide +kernel, by simp only [List.forall_mem_cons]; exact ⟨rfl, rfl, nofun⟩⟩
    · exact ⟨39, by decide +kernel, by simp only [List.forall_mem_cons]; exact ⟨rfl, rfl, nofun⟩⟩
    · exact ⟨60, by decide +kernel, by simp only [List.forall_mem_cons]; exact ⟨rfl, rfl, nofun⟩⟩
  have second : Undisturbed [] (placeScript 4) ["c", "w"] 0 [] 6 := by
    have calls : ∀ i, i < 53 →
        ((moment [] (placeScript 4) (i + 1)).world.invoked 0).length
          ≠ ((moment [] (placeScript 4) i).world.invoked 0).length →
        i = 34 ∨ i = 38 ∨ i = 44 := by decide +kernel
    refine @Undisturbed.of_calls _ _ _ _ _ _ 53 rfl fun i hi _ new => ?_
    obtain rfl | rfl | rfl := calls i hi new
    · exact ⟨36, by decide +kernel, by simp only [List.forall_mem_cons]; exact ⟨rfl, rfl, nofun⟩⟩
    · exact ⟨42, by decide +kernel, by simp only [List.forall_mem_cons]; exact ⟨rfl, rfl, nofun⟩⟩
    · exact ⟨46, by decide +kernel, by simp only [List.forall_mem_cons]; exact ⟨rfl, rfl, nofun⟩⟩
  have fresh : ∀ place, place = 1 ∨ place = 4 →
      ∀ k, ((moment [] (placeScript place) 6).world.completion 0).waiting k = [] := by
    rintro place (rfl | rfl) ((_ | _) | _ | _) <;> rfl
  obtain ⟨l, calls, l', calls', performed, performed', -, -, -, same⟩ :=
    completing_place_immaterial ["c", "w"] (moment [] (placeScript 1) 6).world.lookup 0 _
      sampleRegistrations enlists [] [] (placeScript 1) (placeScript 4) [] [] 6 6 1 4 _ _
      completes completes
      ⟨⟨_, .session, rfl⟩, rfl, fun _ _ => rfl, rfl, fresh 1 (.inl rfl), first⟩
      ⟨⟨_, .session, rfl⟩, rfl, fun _ _ => rfl, rfl, fresh 4 (.inr rfl), second⟩
  exact ⟨l, calls, l', calls', performed, performed', same (by decide)⟩

end Machine

end Eventual
