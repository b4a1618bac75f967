import Eventual.Proofs.Machine.BeforeOrAfter
import Eventual.Proofs.Machine.OnePoll

/-!
# What recovers leftovers

A completion can have settled while something waits for its outcome: a bare commit drains nothing,
and a panic cuts a drain short. What is left waits until somebody drains again. Which calls do,
says `Completion.Call.Recovers`: the drain of the side of the outcome, and every registration but
one for the other side. Such a call invokes all that is left, together with what it registers,
`At.recovers`. Every other call comes back without having invoked anything, `At.spares`, and so
does every step of a script that asks the completion without a call, or that polls it.
-/

namespace Eventual

/-- A call drains a completion that has settled on a side: it is the drain of that side, or a
registration that is not for the other side. -/
def Completion.Call.Recovers {α ι : Type} (s : Side) : Completion.Call α ι → Prop
  | .drain s' => s' = s
  | .register k _ => k ≠ .on s.other
  | .tryCommit _ | .complete _ => False

def Completion.Call.adds {α ι : Type} : Completion.Call α ι → List (Kind × ι)
  | .register k x => [(k, x)]
  | .tryCommit _ | .complete _ | .drain _ => []

/-- The call on a completion that a step of a script makes. A poll is not such a call. -/
def Act.asks? (w : World) : Act → Option (Completion.Call Value Item)
  | .onCompletion _ (.tryCommit o) => some (.tryCommit o)
  | .onCompletion _ (.complete o) | .onDeferred _ (.settle o) => some (.complete o)
  | .onCompletion _ (.drain s) => some (.drain s)
  | .onCompletion _ (.register k cb) => some (.register k (.callback cb none))
  | .onCompletion _ (.registerCountdown k name n) => some (.register k (.countdown k name n))
  | .onCompletion _ (.registerWaker handle) =>
    match w.lookup handle with
    | some (.waker i) => some (.register .waker (.waker i))
    | _ => none
  | .onPromise handle (.register k cb) =>
    match w.lookup handle with
    | some (.promise _ ctx _) => some (.register k (.callback cb (some ctx)))
    | _ => none
  | _ => none

/-- A step of a script is an operation on the completion: on a handle of the completion itself, of
its deferred, or of a promise. To chain callbacks to a promise is several operations. -/
inductive Addresses (w : World) (c : CompletionId) : Act → Prop
  | completion {handle : String} {op : CompletionOp} : w.lookup handle = some (.completion c) →
      Addresses w c (.onCompletion handle op)
  | deferred {handle : String} {ctx : Context} {op : DeferredOp} :
      w.lookup handle = some (.deferred c ctx) → Addresses w c (.onDeferred handle op)
  | promise {handle : String} {ctx : Context} {watch : WatchId} {op : PromiseOp} :
      w.lookup handle = some (.promise c ctx watch) →
      (∀ first onFirst onOther always, op ≠ .chained first onFirst onOther always) →
      Addresses w c (.onPromise handle op)

open World

/-! ## How an operation begins -/

section Beginnings

variable {w : World} {c : CompletionId} {act : Act}

/-- What the beginning of an operation on a completion leads to. -/
inductive Start.Addressed (w : World) (c : CompletionId) :
    Option (Completion.Call Value Item) → Start → Prop
  /-- The call that the step makes. -/
  | call {call : Completion.Call Value Item} {w' : World} {r : Ref} {awaiting : List Frame} :
      Same c w w' → (awaiting = [] ∨ ∃ s, awaiting = [.settling c s]) →
      Addressed w c (some call) (Start.engage w' r c (.direct call) awaiting)
  | poll {r : Ref} {p : Site.Poll Item WakerId} :
      Addressed w c none (Start.engage w r c (.poll p))
  /-- The step is over at once. -/
  | nothing {start : Start} : start.frames = [] → Addressed w c none start

theorem Start.Addressed.read (cell : Cell Value) (r : Reading) :
    Start.Addressed w c none (Start.read w cell r) := by
  cases r with
  | state | flags | result => exact .nothing rfl
  | demand s =>
    unfold Start.read
    dsimp only
    split
    next => exact .nothing rfl
    next => exact .nothing rfl

theorem Addresses.begins (h : Addresses w c act) (held : List Ref) :
    Start.Addressed w c (act.asks? w) (begin w held act) := by
  cases h with
  | @completion handle op refers =>
    have called : ∀ call, Start.Addressed w c (some call)
        (Start.engage w (.completion c) c (.direct call)) :=
      fun call => .call ⟨rfl, rfl, rfl⟩ (.inl rfl)
    have offered : ∀ o call, Start.Addressed w c (some call)
        (Start.engage (w.record (.offered (.completion c) o)) (.completion c) c (.direct call)) :=
      fun o call => .call (.record w rfl) (.inl rfl)
    simp only [begin, refers]
    cases op with
    | tryCommit o => exact offered o _
    | complete o => exact offered o _
    | read r => exact .read _ r
    | register k cb => exact called _
    | registerCountdown k name n => exact called _
    | drain s => exact called _
    | registerWaker wakes =>
      cases hw : w.lookup wakes with
      | none =>
        simp only [beginCompletion, Act.asks?, hw]
        exact .nothing rfl
      | some r =>
        cases r <;> simp only [beginCompletion, Act.asks?, hw]
        case waker i => exact called _
        all_goals exact .nothing rfl
    | describe _ | faulty _ => exact .nothing rfl
  | @deferred handle ctx op refers =>
    simp only [begin, refers]
    cases op with
    | settle o => exact .call (.record w rfl) (.inr ⟨_, rfl⟩)
    | promise _ | clone _ | profile | describe _ | faulty _ => exact .nothing rfl
  | @promise handle ctx watch op refers single =>
    simp only [begin, refers]
    cases op with
    | register k cb =>
      simp only [Act.asks?, refers]
      exact .call ⟨rfl, rfl, rfl⟩ (.inl rfl)
    | chained first onFirst onOther always => exact absurd rfl (single first onFirst onOther always)
    | flags => exact .read _ .flags
    | poll wakes =>
      simp only [beginPromise, Act.asks?]
      split
      next =>
        split
        next => exact .nothing rfl
        next => exact .poll
      next => exact .nothing rfl
    | blockOn =>
      simp only [beginPromise, Act.asks?]
      split
      next => exact .nothing rfl
      next => exact .nothing rfl
    | clone _ | profile | describe _ | faulty _ => exact .nothing rfl

end Beginnings

namespace Machine

/-! ## Calls on a settled completion -/

section Calls

variable {watched : List String} {script : Script} {named : List String}
  {refers : String → Option Ref} {c : CompletionId} {below : List Frame}
  {waiting : Kind → List Item} {invoked : List (Kind × Item × Option Value)} {i : Nat}
  {o : Outcome Value} {call : Completion.Call Value Item}

theorem At.loses {o' : Outcome Value} {drains : Bool}
    (h : At watched script named refers c below (.commit o' drains .look) (.holding (some o))
      waiting invoked i) :
    Answered watched script named refers c below (.holding (some o)) waiting invoked (i + 1) := by
  refine h.ends fun x a does => ?_
  cases does with
  | look pending =>
    rw [h.books.cell] at pending
    cases pending
  | lookLate => exact ⟨⟨_, rfl⟩, rfl⟩

theorem At.turns_away {answer : Completion.Answer Value}
    (h : At watched script named refers c below (.check o.side.other answer) (.holding (some o))
      waiting invoked i) :
    Answered watched script named refers c below (.holding (some o)) waiting invoked (i + 1) := by
  refine h.ends fun x a does => ?_
  generalize hs : o.side.other = s at does
  cases does with
  | check on =>
    rw [h.books.cell] at on
    exact absurd (hs.trans (Cell.State.settled.inj on).symm) (Side.other_ne o.side)
  | checkOff => exact ⟨⟨_, rfl⟩, rfl⟩

/-- A call that recovers invokes all that is left and what it registers. -/
theorem At.recovers (recovers : call.Recovers o.side)
    (undisturbed : Undisturbed watched script named c below i)
    (h : At watched script named refers c below call.start (.holding (some o)) waiting invoked i) :
    ∃ j, Stays watched script below i j ∧
      Answered watched script named refers c below (.holding (some o))
        (leftWaiting o.side (joined waiting call.adds))
        (invoked ++ drainCalls o (joined waiting call.adds)) j := by
  cases call with
  | tryCommit _ | complete _ => exact recovers.elim
  | register k x => exact fulfils_late recovers below i undisturbed h
  | drain s =>
    obtain rfl : s = o.side := recovers
    rw [Completion.Call.adds, joined_nil]
    exact At.drains undisturbed h

/-- Any other call comes back without having invoked anything, and leaves what is left. -/
theorem At.spares (spares : ¬ call.Recovers o.side)
    (h : At watched script named refers c below call.start (.holding (some o)) waiting invoked i) :
    ∃ j, Stays watched script below i j ∧
      Answered watched script named refers c below (.holding (some o))
        (joined waiting call.adds) invoked j := by
  cases call with
  | tryCommit o' | complete o' =>
    rw [Completion.Call.adds, joined_nil]
    exact ⟨i + 1, h.stays, At.loses h⟩
  | register k x =>
    obtain rfl := Classical.not_not.1 spares
    exact h.strands
  | drain s =>
    obtain rfl : s = o.side.other := by
      cases s <;> cases hs : o.side <;> simp_all [Completion.Call.Recovers, Side.other]
    rw [Completion.Call.adds, joined_nil]
    exact ⟨i + 1, h.stays, At.turns_away h⟩

end Calls

/-! ## Operations -/

section Operations

variable {watched : List String} {script : Script} {c : CompletionId} {base : List Frame}
  {cell : Cell Value} {waiting : Kind → List Item} {invoked : List (Kind × Item × Option Value)}
  {n j : Nat} {o : Outcome Value} {act : Act} {call : Completion.Call Value Item}

/-- What was begun above the frames at moment `n` has come back at moment `j`. By then the
completion has invoked what is said, and if it still lives, what is said waits. -/
structure Left (watched : List String) (script : Script) (c : CompletionId) (base : List Frame)
    (n j : Nat) (waiting : Kind → List Item) (invoked : List (Kind × Item × Option Value)) :
    Prop where
  later : n < j
  above : ∀ k, n < k → k < j → base.length < (moment watched script k).stack.length
  back : (moment watched script j).stack = base
  invoked : (moment watched script j).world.invoked c = invoked
  waiting : (moment watched script j).world.Alive c →
    ∀ k, ((moment watched script j).world.completion c).waiting k = waiting k

/-- A step that is no step of a call on the completion leaves what waits for it, if it lives on. -/
theorem waiting_of_apart (born : c < (moment watched script n).world.completions.size)
    (apart : ∀ here below, (moment watched script n).stack ≠ .driving c here :: below)
    (alive : (moment watched script (n + 1)).world.Alive c) (k : Kind) :
    ((moment watched script (n + 1)).world.completion c).waiting k
      = ((moment watched script n).world.completion c).waiting k := by
  have untouched := untouched_between born (Nat.le_succ n) alive fun l hnl hln => by
    obtain rfl : l = n := by omega
    exact apart
  rw [untouched.completion]

theorem Answered.left {r : Ref} {refers : String → Option Ref}
    (h : Answered watched script [] refers c (.holding r :: base) cell waiting invoked j)
    (born : c < (moment watched script j).world.completions.size) (hnj : n < j)
    (stays : Stays watched script base (n + 1) j) :
    Left watched script c base n (j + 1) waiting invoked := by
  obtain ⟨answer, told⟩ := h.answers
  have apart : ∀ here below, (moment watched script j).stack ≠ .driving c here :: below := by
    simp [h.stack]
  have next := step_of_answer h.stack told
  rw [← moment_succ] at next
  refine ⟨Nat.lt_succ_of_lt hnj, fun k hnk hkj => ?_, by rw [next]; rfl, ?_, fun alive k => ?_⟩
  · obtain sooner | rfl := Nat.lt_or_eq_of_le (Nat.le_of_lt_succ hkj)
    · exact stays.high k hnk sooner
    · rw [h.stack]
      exact Nat.lt_succ_self _
  · rw [moment_succ, ((moment_sound watched script j).still apart).invoked, h.books.invoked]
  · rw [waiting_of_apart born apart alive, h.books.waiting]

def waitingAt (watched : List String) (script : Script) (c : CompletionId) (n : Nat) (k : Kind) :
    List Item :=
  ((moment watched script n).world.completion c).waiting k

theorem Sound.of_result {m : Machine} (sound : m.Sound)
    (settled : (m.world.completion c).cell.result = some o) :
    m.world.Alive c ∧ (m.world.completion c).cell = .holding (some o) := by
  have alive : m.world.Alive c := by
    unfold World.completion at settled
    cases hplace : m.world.completions[c]?.join with
    | none =>
      rw [hplace] at settled
      cases settled
    | some x => exact ⟨x, Option.join_eq_some_iff.1 hplace⟩
  obtain ⟨state, stored⟩ := (sound.world.exact alive.getElem?).cell.of_result settled
  refine ⟨alive, ?_⟩
  generalize (m.world.completion c).cell = cell at state stored
  obtain ⟨state', stored'⟩ := cell
  obtain rfl : state' = .settled o.side := state
  obtain rfl : stored' = some o := stored
  rfl

/-- A call that an operation makes comes back, and so does the operation. -/
theorem Begins.left_of_call {w : World} {r : Ref} {awaiting : List Frame}
    {waiting' : Kind → List Item} {invoked' : List (Kind × Item × Option Value)}
    {refers : String → Option Ref}
    (begins : Begins act (moment watched script n) base)
    (start : begin (moment watched script n).world (heldBy base) act
      = Start.engage w r c (.direct call) awaiting)
    (same : Same c (moment watched script n).world w)
    (awaits : awaiting = [] ∨ ∃ s, awaiting = [.settling c s])
    (born : c < (moment watched script n).world.completions.size)
    (books : Books [] refers c cell waiting invoked (moment watched script n).world)
    (comes : At watched script [] refers c (awaiting ++ .holding r :: base) call.start cell waiting
        invoked (n + 1) →
      ∃ j, Stays watched script (awaiting ++ .holding r :: base) (n + 1) j ∧
        Answered watched script [] refers c (awaiting ++ .holding r :: base) cell waiting' invoked'
          j) :
    ∃ j, Left watched script c base n j waiting' invoked' := by
  have lower : base.length ≤ (awaiting ++ .holding r :: base).length := by
    simp only [List.length_append, List.length_cons]
    omega
  obtain ⟨j, stays, answered⟩ := comes (begins.starts start same books)
  obtain ⟨j', stays', answered'⟩ := answered.awaited awaits
  have high := (stays.above lower).trans (stays'.above (Nat.le_succ _))
  have born' := Nat.lt_of_lt_of_le born (size_le (Nat.le_of_succ_le high.le))
  exact ⟨j' + 1, answered'.left born' high.le high⟩

theorem Begins.left_of_poll {r : Ref} {p : Site.Poll Item WakerId}
    (begins : Begins act (moment watched script n) base)
    (start : begin (moment watched script n).world (heldBy base) act
      = Start.engage (moment watched script n).world r c (.poll p))
    (settled : ((moment watched script n).world.completion c).cell.result = some o) :
    ∃ j, Left watched script c base n j (waitingAt watched script c n)
      ((moment watched script n).world.invoked c) := by
  obtain ⟨alive, -⟩ := (moment_sound watched script n).of_result settled
  have look : moment watched script (n + 1) = goOn (moment watched script n).world
      (.driving c (.look p) :: .holding r :: base) := by
    rw [moment_succ, begins.step]
    simp only [enter, start]
    rfl
  have next := (moment_of_goOn look).trans
    (drive_look_settled alive settled (.holding r :: base))
  have copied : Same c (moment watched script n).world
      ((moment watched script n).world.record (.copied c o)) := .record _ rfl
  have books : Books [] (fun _ => none) c ((moment watched script n).world.completion c).cell
      (waitingAt watched script c n) ((moment watched script n).world.invoked c)
      (moment watched script n).world :=
    ⟨List.forall_mem_nil _, rfl, fun _ => rfl, rfl⟩
  have answered : Answered watched script [] (fun _ => none) c (.holding r :: base)
      ((moment watched script n).world.completion c).cell (waitingAt watched script c n)
      ((moment watched script n).world.invoked c) (n + 2) := by
    refine ⟨by rw [next]; rfl, ⟨.ready (o.map Value.data), by rw [next]; rfl⟩, ?_⟩
    rw [next]
    exact books.same copied
  have high : Stays watched script base (n + 1) (n + 2) :=
    .step (by rw [look]; exact Nat.lt_of_lt_of_le (Nat.lt_succ_self _) (Nat.le_succ _))
  have born := Nat.lt_of_lt_of_le alive.lt_size (size_le (Nat.le_add_right n 2))
  exact ⟨n + 2 + 1, answered.left born (by omega) high⟩

theorem Begins.left_of_nothing
    (begins : Begins act (moment watched script n) base)
    (nothing : (begin (moment watched script n).world (heldBy base) act).frames = [])
    (born : c < (moment watched script n).world.completions.size) :
    Left watched script c base n (n + 1) (waitingAt watched script c n)
      ((moment watched script n).world.invoked c) := by
  have next := begins.step
  rw [← moment_succ] at next
  have apart : ∀ here below, (moment watched script n).stack ≠ .driving c here :: below := by
    intro here below
    cases begins with
    | session hstack _ | body hstack _ => simp [hstack]
  refine ⟨Nat.lt_succ_self n, fun k hnk hkn => absurd hkn (Nat.not_lt_of_le hnk), ?_, ?_,
    fun alive k => waiting_of_apart born apart alive k⟩
  · rw [next]
    simp only [enter, nothing, List.nil_append]
  · rw [moment_succ]
    exact ((moment_sound watched script n).still apart).invoked

end Operations

/-- A step of a script begins at moment `n`, and is an operation on a completion that has settled
on an outcome, whatever still waits for that.

If it is the drain of the side of the outcome or a registration that is not for the other side, and
what the completion calls until the operation is over comes back with an answer and makes no call
on the completion, then the operation comes back, and has invoked all that was left together with
what it registers itself: the wakers, then the callbacks for the side of the outcome, then those for
either, of each kind from the front to the back; and nothing but the callbacks for the other side
waits afterwards.

Any other operation comes back too, has invoked nothing, and what was left waits as before, with
what it registers itself behind it. -/
theorem leftovers_recovered_or_spared (watched : List String) (script : Script) (n : Nat)
    (c : CompletionId) (o : Outcome Value) (act : Act) (base : List Frame)
    (begins : Begins act (moment watched script n) base)
    (addresses : Addresses (moment watched script n).world c act)
    (settled : ((moment watched script n).world.completion c).cell.result = some o) :
    (∀ call, act.asks? (moment watched script n).world = some call → call.Recovers o.side →
      Undisturbed watched script [] c base (n + 1) →
      ∃ j, Left watched script c base n j
        (leftWaiting o.side (joined (waitingAt watched script c n) call.adds))
        ((moment watched script n).world.invoked c
          ++ drainCalls o (joined (waitingAt watched script c n) call.adds))) ∧
    (∀ call, act.asks? (moment watched script n).world = some call → ¬ call.Recovers o.side →
      ∃ j, Left watched script c base n j (joined (waitingAt watched script c n) call.adds)
        ((moment watched script n).world.invoked c)) ∧
    (act.asks? (moment watched script n).world = none →
      ∃ j, Left watched script c base n j (waitingAt watched script c n)
        ((moment watched script n).world.invoked c)) := by
  obtain ⟨alive, cell⟩ := (moment_sound watched script n).of_result settled
  have books : Books [] (fun _ => none) c (.holding (some o)) (waitingAt watched script c n)
      ((moment watched script n).world.invoked c) (moment watched script n).world :=
    ⟨List.forall_mem_nil _, cell, fun _ => rfl, rfl⟩
  have begun := addresses.begins (heldBy base)
  generalize hstart : begin (moment watched script n).world (heldBy base) act = start at begun
  refine ⟨fun call asks recovers undisturbed => ?_, fun call asks spares => ?_, fun asks => ?_⟩
  · rw [asks] at begun
    cases begun with
    | call same awaits =>
      refine begins.left_of_call hstart same awaits alive.lt_size books fun first => ?_
      exact first.recovers recovers (undisturbed.above (by simp; omega))
  · rw [asks] at begun
    cases begun with
    | call same awaits =>
      exact begins.left_of_call hstart same awaits alive.lt_size books fun first =>
        first.spares spares
  · rw [asks] at begun
    cases begun with
    | poll => exact begins.left_of_poll hstart settled
    | nothing none => exact ⟨n + 1, begins.left_of_nothing (hstart ▸ none) alive.lt_size⟩

/-- A panic cuts the drain of a completion short. A callback for the other side comes afterwards,
and then a waker. -/
def cutShort : Script :=
  [.mk "" (.create "c" .completion), .mk "" (.create "w" (.waker [])),
    .mk "" (.onCompletion "c" (.register (.on .success) (.mk "panics"
      [.mk "" (.raise (.text "cut short"))]))),
    .mk "" (.onCompletion "c" (.register (.on .success) (.mk "left" []))),
    .mk "" (.onCompletion "c" (.register .always (.mk "last" []))),
    .mk "" (.onCompletion "c" (.complete ⟨.success, { data := .int 1 }⟩)),
    .mk "" (.onCompletion "c" (.register (.on .failure) (.mk "stays" []))),
    .mk "" (.onCompletion "c" (.registerWaker "w"))]

/-- In `cutShort` two callbacks are left. The step that begins at moment 34 leaves them there, and
the one that begins at moment 39 recovers them behind its own waker. -/
theorem leftovers_recovered_or_spared_cut_short :
    (∃ j, Left [] cutShort 0 [.session [] [.mk "" (.onCompletion "c" (.registerWaker "w"))]] 34 j
      (joined (waitingAt [] cutShort 0 34) [(.on .failure, .callback (.mk "stays" []) none)])
      ((moment [] cutShort 34).world.invoked 0)) ∧
    ∃ j, Left [] cutShort 0 [.session [] []] 39 j
      (leftWaiting .success (joined (waitingAt [] cutShort 0 39) [(.waker, .waker 0)]))
      ((moment [] cutShort 39).world.invoked 0 ++
        [(.waker, .waker 0, none),
          (.on .success, .callback (.mk "left" []) none, some { data := .int 1 }),
          (.always, .callback (.mk "last" []) none, none)]) := by
  have undisturbed : Undisturbed [] cutShort [] 0 [.session [] []] 40 := by
    have calls : ∀ i < 61, 40 ≤ i → ((moment [] cutShort (i + 1)).world.invoked 0).length
        ≠ ((moment [] cutShort i).world.invoked 0).length → i = 44 ∨ i = 48 ∨ i = 52 := by
      decide +kernel
    refine @Undisturbed.of_calls _ _ _ _ _ _ 61 rfl fun i hi later new => ?_
    obtain rfl | rfl | rfl := calls i hi later new
    · exact ⟨46, by decide +kernel, List.forall_mem_nil _⟩
    · exact ⟨50, by decide +kernel, List.forall_mem_nil _⟩
    · exact ⟨54, by decide +kernel, List.forall_mem_nil _⟩
  obtain ⟨-, spares, -⟩ := leftovers_recovered_or_spared [] cutShort 34 0
    ⟨.success, { data := .int 1 }⟩ _ _ (.session rfl rfl) (.completion rfl) rfl
  obtain ⟨recovers, -, -⟩ := leftovers_recovered_or_spared [] cutShort 39 0
    ⟨.success, { data := .int 1 }⟩ _ _ (.session rfl rfl) (.completion rfl) rfl
  exact ⟨spares (.register (.on .failure) (.callback (.mk "stays" []) none)) rfl
      fun other => other rfl,
    recovers (.register .waker (.waker 0)) rfl (fun same => Kind.noConfusion same) undisturbed⟩

end Machine

end Eventual
