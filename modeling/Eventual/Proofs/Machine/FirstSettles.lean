import Eventual.Proofs.Machine.Deferreds
import Eventual.Proofs.Machine.NothingLeft

/-!
# The first settlement wins, and every other one leaves no trace

A completion that belongs to a deferred is committed to by settlements only. So whatever the
script and its callbacks do, the settlement that begins first finds the cell pending and has
published its outcome five steps later, before any other code runs; then it drains, and comes
back accepted or with a panic that has unwound its drain.

A settlement that begins later finds the cell taken, wherever the first one may stand by then,
and is rejected within four steps. These note that the outcome was offered, lost and logged,
and change nothing else.
-/

namespace Eventual

open World

namespace Completion

variable {α ι : Type}

/-- A point that only a commit that has won, and drains, comes to. -/
def Point.Won : Point α ι → Prop
  | .announce _ => True
  | .check _ a | .fetch _ a | .sweep _ a _ _ _ | .report _ a _ | .finish a => a = .won
  | .commit _ _ _ | .append _ _ | .consult _ => False

section Effects

variable {c c' : Completion α ι} {p p' : Point α ι} {a : Action α ι (Point α ι) (Answer α)}

theorem Does.won (does : Does c p c' a) (won : p.Won) (next : a.next? = some p') : p'.Won := by
  cases does with
  | announce | check | fetch | take | leave | close | report =>
    cases next
    first | exact won | exact rfl
  | checkOff | refuse | finish => cases next
  | _ => exact won.elim

theorem Does.answers_won {answer : Answer α} (does : Does c p c' (.done answer)) (won : p.Won) :
    answer = .won := by
  cases does with
  | checkOff | finish => exact won
  | _ => exact won.elim

end Effects

end Completion

namespace Machine

variable {m : Machine} {c : CompletionId} {ctx : Context} {base below : List Frame}

/-! ## Who commits -/

/-- A settlement of the completion begins, through a handle of its deferred. -/
def Settling (c : CompletionId) (m : Machine) : Prop :=
  ∃ handle o ctx base, Begins (.onDeferred handle (.settle o)) m base ∧
    m.world.lookup handle = some (.deferred c ctx)

/-- The topmost frame has an outcome on offer for the completion. -/
def Offering (c : CompletionId) (m : Machine) : Prop :=
  ∃ p below, m.stack = .driving c p :: below ∧ p.offers ≠ []

theorem not_offering_of_idle {f : Frame} (idle : f.Idle) (hstack : m.stack = f :: below) :
    ¬ m.Offering c := by
  rintro ⟨p, below', hstack', offers⟩
  obtain rfl : f = .driving c p := (List.cons.inj (hstack.symm.trans hstack')).1
  exact offers idle.2

theorem Begins.not_offering {act : Act} (begins : Begins act m base) {m' : Machine}
    (hstack : m'.stack = base) : ¬ m'.Offering c := by
  cases begins with
  | @session watched _ rest below =>
    exact not_offering_of_idle (show Frame.Idle (.session watched rest) from trivial) hstack
  | @body label _ rest below =>
    exact not_offering_of_idle (show Frame.Idle (.body label rest) from trivial) hstack

/-- A commit to an owned completion begins as part of a settlement. -/
theorem Owned.settling_of_opens (h : m.Owned c ctx) {act : Act} (begins : Begins act m base)
    {start : Start} (opens : start.Opens m.world act) {control : Control}
    (offering : Offering c { world := start.world, stack := start.frames ++ base, control }) :
    Settling c m := by
  cases opens with
  | aloof _ aloof _ =>
    cases hframes : start.frames with
    | nil => exact absurd offering (begins.not_offering (by simp [hframes]))
    | cons f frames =>
      obtain ⟨p, below, hstack, -⟩ := offering
      rw [hframes] at hstack
      obtain rfl : f = .driving c p := (List.cons.inj hstack).1
      have none : (Frame.driving c p).Aloof := aloof _ (hframes ▸ List.mem_cons_self ..)
      exact none.elim
  | births => exact absurd offering (begins.not_offering rfl)
  | engages engages _ =>
    obtain ⟨p, below, hstack, offers⟩ := offering
    cases hstack
    cases engages with
    | direct refers => cases h.lookup refers rfl
    | settle refers => exact ⟨_, _, _, _, begins, refers⟩
    | register | poll => exact absurd rfl offers
  | chains =>
    obtain ⟨p, below, hstack, -⟩ := offering
    cases hstack

theorem Owned.settling_of_moves (h : m.Owned c ctx) (orderly : m.Orderly) {frame : Frame}
    {m' : Machine} (hstack : m.stack = frame :: below)
    (moves : Moves m.world below frame m.control m') (offering : m'.Offering c) :
    m.Offering c ∨ Settling c m := by
  have lower : ∀ {w' control}, ¬ Offering c { world := w', stack := below, control } := by
    rintro w' control ⟨p, below', hbelow, offers⟩
    obtain rfl : below = .driving c p :: below' := hbelow
    exact offers (orderly.below hstack (.driving c p) (List.mem_cons_self ..)).2
  have apart : ∀ {f w' stack control}, f.Idle →
      ¬ Offering c { world := w', stack := f :: stack, control } :=
    fun idle => not_offering_of_idle idle rfl
  obtain ⟨w, stack, control⟩ := m
  dsimp only at hstack moves
  subst hstack
  cases moves with
  | begins begins => exact .inr (h.settling_of_opens begins (begin_opens _) offering)
  | repeats => exact absurd offering (apart trivial)
  | chains => exact absurd offering (apart (Advance.idle_start rfl))
  | resumes =>
    obtain ⟨p, below', hstack', offers⟩ := offering
    exact .inl ⟨p, below', hstack', offers⟩
  | offers => exact absurd offering (apart trivial)
  | answers | breaks | passes | loses => exact absurd offering lower
  | @yields _ _ _ _ new _ aloof =>
    cases new with
    | nil => exact absurd offering lower
    | cons f new => exact absurd offering (apart (aloof f (List.mem_cons_self ..)).idle)

theorem not_offering_of_runs {w : World} {d : CompletionId} {x : Item} {frames : List Frame}
    {control control' : Control} (runs : x.Runs d frames control')
    {p : Site.Point Value Item WakerId}
    (nothing : p.offers = []) :
    ¬ Offering c { world := w, stack := frames ++ .driving d p :: below, control } := by
  rintro ⟨p', below', hstack, offers⟩
  cases runs with
  | again | idle =>
    cases hstack
    exact offers (by first | exact nothing | rfl)
  | bare | guarded | last | waker | relay => cases hstack

/-- A step of a call commits to a completion only in the course of a commit. -/
theorem offering_of_works (orderly : m.Orderly) (sound : m.Sound) {d : CompletionId}
    {here : Site.Point Value Item WakerId} {s : Site Value Item WakerId}
    {action : Action Value Item (Site.Point Value Item WakerId) (Site.Answer Value)}
    {m' : Machine} (hstack : m.stack = .driving d here :: below)
    (works : Works m.world d here below m' s action)
    (taken : m'.Offering c ∨ (d = c ∧ action.settled ≠ [])) : m.Offering c := by
  have candid : here.Candid := (orderly.top hstack).1
  have offers := works.does.offers_eq candid
  have own : d = c → here.offers ≠ [] → m.Offering c := by
    rintro rfl some
    exact ⟨here, below, hstack, some⟩
  obtain offering | ⟨same, settled⟩ := taken
  · have leads := works.leads
    have runs := works.runs
    have does := works.does
    obtain ⟨w', stack', control'⟩ := m'
    have onward : ∀ p stack control, action.onward? = some p →
        Offering c { world := w', stack := .driving d p :: stack, control } → m.Offering c := by
      rintro p stack control hp ⟨p', below', hstack', some⟩
      cases hstack'
      refine own rfl fun none => some ?_
      rw [none, hp] at offers
      exact (List.append_eq_nil_iff.1 offers.symm).2
    have lower : ∀ {control}, ¬ Offering c { world := w', stack := below, control } := by
      rintro control ⟨p, below', hbelow, some⟩
      obtain rfl : below = .driving c p :: below' := hbelow
      exact some (orderly.below hstack (.driving c p) (List.mem_cons_self ..)).2
    cases leads with
    | goto | notice => exact onward _ _ _ rfl offering
    | done | refused => exact absurd offering lower
    | call =>
      obtain ⟨frames, runs, hstack'⟩ := runs _ _ _ _ rfl
      obtain ⟨-, fits⟩ := sound.of_driving (hstack ▸ List.mem_cons_self ..)
      obtain ⟨-, -, -, sweeps⟩ := does.of_call fits
      obtain ⟨p', below', hoffering, some⟩ := offering
      refine absurd ⟨p', below', ?_, some⟩
        (@not_offering_of_runs c below w' _ _ _ control' _ runs _ sweeps.offers)
      exact hstack'.symm.trans hoffering
  · refine own same fun none => settled ?_
    rw [none] at offers
    exact (List.append_eq_nil_iff.1 (List.append_eq_nil_iff.1 offers.symm).1).1

/-- An owned completion settles, or has an outcome on offer, only after a settlement has
begun. -/
theorem Owned.settling_of_step (h : m.Owned c ctx) (orderly : m.Orderly) (sound : m.Sound)
    (taken : m.step.world.settlement c ≠ none ∨ m.step.Offering c) :
    (m.world.settlement c ≠ none ∨ m.Offering c) ∨ Settling c m := by
  cases hstack : m.stack with
  | nil =>
    rw [step_of_isOver (List.isEmpty_iff.2 hstack)] at taken
    exact .inl taken
  | cons frame below =>
    obtain moves | ⟨d, here, s, action, -, rfl, works⟩ := sound.moves_or_works hstack
    · obtain settled | offering := taken
      · rw [moves.settlement h.born] at settled
        exact .inl (.inl settled)
      · obtain before | begins := h.settling_of_moves orderly hstack moves offering
        · exact .inl (.inr before)
        · exact .inr begins
    · refine .inl ?_
      obtain settled | offering := taken
      · by_cases now : d = c ∧ action.settled ≠ []
        · exact .inr (offering_of_works orderly sound hstack works (.inr now))
        · have nothing : (if d = c then action.settled else []) = [] := by
            split
            next same => exact Classical.not_not.1 fun some => now ⟨same, some⟩
            next => rfl
          rw [works.settlement nothing] at settled
          exact .inl settled
      · exact .inr (offering_of_works orderly sound hstack works (.inl offering))

/-! ## How a settlement begins -/

section Beginning

variable {w : World} {o : Outcome Value}

theorem drive_publish (below : List Frame) :
    ∃ w' : World, drive w below c (.direct (.commit o true .publish))
      = goOn (w'.record (.settled (.completion c) o))
          (.driving c (.direct (.announce o.side)) :: below) :=
  ⟨_, rfl⟩

theorem drive_late (alive : w.Alive c) (taken : (w.completion c).cell.state ≠ .pending)
    (below : List Frame) :
    drive w below c (.direct (.commit o true .look))
      = hand (w.record (.lost (.completion c) o)) below (.flag false) := by
  have late : Cell.commitStep o (w.completion c).cell .look
      = ((w.completion c).cell, .done false) := by
    cases state : (w.completion c).cell.state with
    | pending => exact absurd state taken
    | committing | settled _ => simp only [Cell.commitStep, state]
  have step : (w.site c).step (.direct (.commit o true .look))
      = (w.site c, .done (.direct (.lost o))) := by
    simp only [Site.step, Completion.step, World.site, late]
    rfl
  simp only [drive, step, setSite_site alive]
  rfl

/-- What a handle refers to stays when a call lets go of it. -/
theorem release_of_lookup {handle : String} {r : Ref} (refers : w.lookup handle = some r)
    (held : List Ref) : w.release held r = w := by
  unfold World.release
  split
  next => rfl
  next e he =>
    have keeps : w.keeps held e = true := by
      simp only [World.keeps, Bool.or_eq_true, List.any_eq_true, decide_eq_true_eq]
      exact .inl ⟨_, mem_of_lookup refers, he⟩
    rw [if_pos keeps]

def settlementFrames (c : CompletionId) (ctx : Context) (s : Side) (base : List Frame) :
    List Frame :=
  .settling c s :: .holding (.deferred c ctx) :: base

variable {watched : List String} {script : Script} {n i j : Nat} {handle : String}

theorem moment_of_begins
    (begins : Begins (.onDeferred handle (.settle o)) (moment watched script n) base)
    (refers : (moment watched script n).world.lookup handle = some (.deferred c ctx)) :
    moment watched script (n + 1)
      = goOn ((moment watched script n).world.record (.offered (.completion c) o))
          (.driving c (.direct (.commit o true .look)) :: settlementFrames c ctx o.side base) := by
  rw [moment_succ, begins.step]
  simp only [enter, begin, refers, beginDeferred]
  rfl

theorem moment_of_goOn {w : World} {here : Site.Point Value Item WakerId}
    (h : moment watched script n = goOn w (.driving c here :: below)) :
    moment watched script (n + 1) = drive w below c here := by
  rw [moment_succ, h]
  rfl

theorem moment_of_commit {here here' : Cell.CommitPoint} {cell : Cell Value}
    (h : moment watched script n = goOn w (.driving c (.direct (.commit o true here)) :: below))
    (alive : w.Alive c)
    (step : Cell.commitStep o (w.completion c).cell here = (cell, .goto here')) :
    ∃ w' : World, moment watched script (n + 1)
        = goOn w' (.driving c (.direct (.commit o true here')) :: below) ∧
      w'.Alive c ∧ (w'.completion c).cell = cell := by
  refine ⟨w.setSite c { w.site c with completion := { w.completion c with cell } }, ?_,
    alive.setCompletion _, ?_⟩
  · rw [moment_of_goOn h]
    simp only [drive, Site.step, Completion.step, World.site, step]
    rfl
  · rw [(completion_setSite alive _).1]

/-- A settlement that finds the deferred unsettled commits at once. -/
theorem settlement_commits
    (begins : Begins (.onDeferred handle (.settle o)) (moment watched script n) base)
    (refers : (moment watched script n).world.lookup handle = some (.deferred c ctx))
    (unsettled : (moment watched script n).world.settlement c = none) :
    (∀ k, n < k → k ≤ n + 5 → ∃ here, (moment watched script k).stack
      = .driving c here :: settlementFrames c ctx o.side base) ∧
    ∃ w, moment watched script (n + 5)
        = goOn w (.driving c (.direct (.announce o.side)) :: settlementFrames c ctx o.side base) ∧
      w.settlement c = some o := by
  have orderly := moment_orderly watched script n
  have alive : (moment watched script n).world.Alive c :=
    orderly.rooted.lookup refers (.completion c) rfl trivial
  have pending : ((moment watched script n).world.completion c).cell = {} := by
    rw [orderly.cell_eq (begins.active _) alive, unsettled]
    rfl
  have look := moment_of_begins begins refers
  generalize hw : (moment watched script n).world.record (.offered (.completion c) o) = w at look
  replace alive : w.Alive c := hw ▸ alive
  replace pending : (w.completion c).cell = {} := hw ▸ pending
  obtain ⟨w₁, claim, alive₁, cell₁⟩ := moment_of_commit look alive (by rw [pending]; rfl)
  obtain ⟨w₂, store, alive₂, cell₂⟩ := moment_of_commit claim alive₁ (by rw [cell₁]; rfl)
  obtain ⟨w₃, publish, -, -⟩ := moment_of_commit store alive₂ (by rw [cell₂]; rfl)
  obtain ⟨w₄, drain⟩ := @drive_publish c w₃ o (settlementFrames c ctx o.side base)
  have published : moment watched script (n + 5) = _ := (moment_of_goOn publish).trans drain
  refine ⟨?_, _, published, ?_⟩
  · intro k hnk hk
    obtain rfl | rfl | rfl | rfl | rfl :
        k = n + 1 ∨ k = n + 2 ∨ k = n + 3 ∨ k = n + 4 ∨ k = n + 5 := by
      omega
    · exact ⟨_, by rw [look]; rfl⟩
    · exact ⟨_, by rw [claim]; rfl⟩
    · exact ⟨_, by rw [store]; rfl⟩
    · exact ⟨_, by rw [publish]; rfl⟩
    · exact ⟨_, by rw [published]; rfl⟩
  · have orderly' := moment_orderly watched script (n + 5)
    rw [published] at orderly'
    refine orderly'.settlement_of_settled ?_
    show _ ∈ (w₄.record _).history
    rw [history_record]
    exact List.mem_append_right _ (List.mem_singleton_self _)

/-- A settlement of a deferred that has settled is rejected, and leaves no trace but what it
notes. -/
theorem settlement_loses
    (begins : Begins (.onDeferred handle (.settle o)) (moment watched script n) base)
    (refers : (moment watched script n).world.lookup handle = some (.deferred c ctx))
    (settled : (moment watched script n).world.settlement c ≠ none) :
    moment watched script (n + 4)
      = { world := (moment watched script n).world.recordAll
            [.offered (.completion c) o, .lost (.completion c) o, .logged c (.lost o.side)]
          stack := base
          control := .answer (.rejected .alreadyCompleted) } := by
  have orderly := moment_orderly watched script n
  have alive : (moment watched script n).world.Alive c :=
    orderly.rooted.lookup refers (.completion c) rfl trivial
  have taken : ((moment watched script n).world.completion c).cell.state ≠ .pending := by
    intro pending
    rw [← orderly.result_eq alive] at settled
    exact settled (Cell.result_of_unsettled (by simp [pending]))
  have look := moment_of_begins begins refers
  generalize (moment watched script n).world = w at look alive refers taken
  have late := (moment_of_goOn look).trans
    (drive_late (show (w.record _).Alive c from alive) taken _)
  -- The settlement hears that it has lost, and the call lets go of the deferred.
  generalize hw : (w.record (.offered (.completion c) o)).record (.lost (.completion c) o) = w₁
    at late
  have refers' : (w₁.record (.logged c (.lost o.side))).lookup handle = some (.deferred c ctx) :=
    hw ▸ refers
  have told : (hand w₁ (settlementFrames c ctx o.side base) (.flag false)).step.step
      = hand ((w₁.record (.logged c (.lost o.side))).release (heldBy base) (.deferred c ctx)) base
          (.rejected .alreadyCompleted) := rfl
  rw [moment_succ, moment_succ, late, told, release_of_lookup refers', ← hw]
  rfl

end Beginning

/-! ## How the first settlement goes on -/

/-- A commit that has won drains above the frames: it goes on, or waits for an item that it
has called. -/
inductive Winning (c : CompletionId) (top : List Frame) (m : Machine) : Prop
  | acts {here : Completion.Point Value Item} :
      m.stack = .driving c (.direct here) :: top → m.control = .resume → here.Won →
      Winning c top m
  | waits {above : List Frame} {here : Completion.Point Value Item} :
      m.stack = above ++ .driving c (.direct here) :: top → here.Won → here.Sweeps →
      (above = [] → m.control.Handed) → Winning c top m

/-- A panic of an item reaches the drain that has called the item. -/
def Breaks (c : CompletionId) (top : List Frame) (p : Panic) (m : Machine) : Prop :=
  ∃ here : Completion.Point Value Item,
    m.stack = .driving c (.direct here) :: top ∧ here.Sweeps ∧ m.control = .unwind p

section Winning

variable {top : List Frame}

theorem Winning.higher (h : Winning c top m) : top.length < m.stack.length := by
  cases h with
  | acts hstack => simp [hstack]
  | waits hstack =>
    rw [hstack, List.length_append, List.length_cons]
    omega

theorem Winning.drive (sound : m.Sound) {here : Completion.Point Value Item}
    (hstack : m.stack = .driving c (.direct here) :: top) (won : here.Won) :
    Winning c top (Machine.drive m.world top c (.direct here)) ∨
      ((Machine.drive m.world top c (.direct here)).stack = top ∧
        (Machine.drive m.world top c (.direct here)).control = .answer (.flag true)) := by
  obtain ⟨alive, fits⟩ := sound.of_driving (hstack ▸ List.mem_cons_self ..)
  have cell := (sound.world.exact alive.getElem?).cell
  have does := Completion.step_does (m.world.completion c) here
  rcases h : (m.world.completion c).step here with ⟨x, action⟩
  rw [h] at does
  have step : (m.world.site c).step (.direct here)
      = ({ m.world.site c with completion := x }, action.map .direct .direct) := by
    simp only [Site.step, World.site, h]
  unfold Machine.drive
  simp only [step]
  cases action with
  | goto p => exact .inl (.acts rfl rfl (does.won won rfl))
  | notice n p => exact .inl (.acts rfl rfl (does.won won rfl))
  | call k y arg p =>
    obtain ⟨-, -, -, sweeps⟩ := does.of_call (fits here rfl)
    have alive' := alive.setCompletion x
    obtain ⟨-, frames, stack, -, handed⟩ := call_begins
      (w := (m.world.setSite c { m.world.site c with completion := x }).record (.started c k y arg))
      alive' (.driving c (.direct p) :: top) y
    exact .inl (.waits stack (does.won won rfl) sweeps handed)
  | done answer =>
    obtain rfl := does.answers_won won
    exact .inr ⟨rfl, rfl⟩
  | refused s st => exact absurd rfl (does.not_refused (fits here rfl) cell s st)

/-- A commit that has won goes on with its drain until it answers, or a panic of an item
breaks it off. -/
theorem Winning.step (h : Winning c top m) (sound : m.Sound) :
    Winning c top m.step ∨ (m.step.stack = top ∧ m.step.control = .answer (.flag true)) ∨
      ∃ p, Breaks c top p m ∧ m.step.stack = top ∧ m.step.control = .unwind p := by
  cases h with
  | @acts here hstack hresume won =>
    have next := Winning.drive sound hstack won
    rw [step_of_resume hstack hresume]
    exact next.imp_right .inl
  | @waits above here hstack won sweeps handed =>
    cases above with
    | cons frame above =>
      obtain ⟨frame', above', hstack'⟩ | back := sound.above_step ⟨frame, above, hstack⟩
      · exact .inl (@Winning.waits _ _ _ (frame' :: above') _ hstack' won sweeps nofun)
      · exact .inl (@Winning.waits _ _ _ [] _ back.stack won sweeps fun _ => back.control)
    | nil =>
      have told := handed rfl
      obtain ⟨w, stack, control⟩ := m
      obtain rfl : stack = .driving c (.direct here) :: top := hstack
      cases control with
      | answer r => exact .inl (.acts rfl rfl won)
      | unwind p => exact .inr (.inr ⟨p, ⟨here, rfl, sweeps, rfl⟩, rfl, rfl⟩)
      | resume | faulty f => exact told.elim

end Winning

section Committed

variable {watched : List String} {script : Script} {n i j : Nat} {o : Outcome Value}

/-- At moment `j` the frames on top are told what `r` says, or of a panic that has reached the
drain above `top` since moment `n`. -/
def Concludes (watched : List String) (script : Script) (n : Nat) (c : CompletionId)
    (top : List Frame) (r : Reply) (j : Nat) : Prop :=
  (moment watched script j).control = .answer r ∨
    ∃ p, (moment watched script j).control = .unwind p ∧
      ∃ i, n < i ∧ i < j ∧ Breaks c top p (moment watched script i)

/-- A frame that passes a panic on, and answers what it is told in its own way. -/
theorem Concludes.passes {top : List Frame} {r r' : Reply} {frame : Frame}
    (h : Concludes watched script n c top r j)
    (hstack : (moment watched script j).stack = frame :: below)
    (answers : ∀ w, ∃ w', receive w below r frame = hand w' below r')
    (breaks : ∀ w p, ∃ w', unwind w below p frame = raise w' below p) :
    (moment watched script (j + 1)).stack = below ∧
      Concludes watched script n c top r' (j + 1) := by
  unfold Concludes
  rw [moment_succ]
  obtain answer | ⟨p, unwound, i, hni, hij, reached⟩ := h
  · obtain ⟨w, answered⟩ := answers (moment watched script j).world
    rw [step_of_answer hstack answer, answered]
    exact ⟨rfl, .inl rfl⟩
  · obtain ⟨w, raised⟩ := breaks (moment watched script j).world p
    rw [step_of_unwind hstack unwound, raised]
    exact ⟨rfl, .inr ⟨p, rfl, i, hni, Nat.lt_succ_of_lt hij, reached⟩⟩

/-- A settlement that has committed is under way: it drains, or is about to return. -/
inductive Settles (watched : List String) (script : Script) (n : Nat) (c : CompletionId)
    (ctx : Context) (s : Side) (base : List Frame) (j : Nat) : Prop
  | drains : n < j → Winning c (settlementFrames c ctx s base) (moment watched script j) →
      Settles watched script n c ctx s base j
  | told : (moment watched script j).stack = settlementFrames c ctx s base →
      Concludes watched script n c (settlementFrames c ctx s base) (.flag true) j →
      Settles watched script n c ctx s base j
  | leaves : (moment watched script j).stack = .holding (.deferred c ctx) :: base →
      Concludes watched script n c (settlementFrames c ctx s base) .accepted j →
      Settles watched script n c ctx s base j

theorem Settles.higher {s : Side} (h : Settles watched script n c ctx s base j) :
    base.length < (moment watched script j).stack.length := by
  cases h with
  | drains _ winning =>
    apply Nat.lt_trans _ winning.higher
    simp only [settlementFrames, List.length_cons]
    omega
  | told hstack =>
    simp only [hstack, settlementFrames, List.length_cons]
    omega
  | leaves hstack =>
    rw [hstack]
    exact Nat.lt_succ_self _

/-- A settlement that has committed comes back accepted, or with a panic that has reached its
own drain. -/
theorem Settles.step {s : Side} (h : Settles watched script n c ctx s base j) :
    Settles watched script n c ctx s base (j + 1) ∨
      ((moment watched script (j + 1)).stack = base ∧
        Concludes watched script n c (settlementFrames c ctx s base) .accepted (j + 1)) := by
  cases h with
  | drains later winning =>
    have next := winning.step (moment_sound watched script j)
    rw [← moment_succ] at next
    obtain winning' | ⟨hstack, told⟩ | ⟨p, breaks, hstack, unwound⟩ := next
    · exact .inl (.drains (Nat.lt_succ_of_lt later) winning')
    · exact .inl (.told hstack (.inl told))
    · exact .inl (.told hstack (.inr ⟨p, unwound, j, later, Nat.lt_succ_self j, breaks⟩))
  | told hstack concludes =>
    obtain ⟨hstack', concludes'⟩ :=
      concludes.passes hstack (fun w => ⟨w, rfl⟩) (fun w p => ⟨w, rfl⟩)
    exact .inl (.leaves hstack' concludes')
  | leaves hstack concludes =>
    exact .inr (concludes.passes hstack (fun w => ⟨_, rfl⟩) (fun w p => ⟨_, rfl⟩))

/-- A deferred has settled, or settles, only after a settlement of it has begun. -/
theorem Newborn.exists_settling {b : Nat} (newborn : Newborn c ctx (moment watched script (b + 1)))
    (hi : b < i)
    (taken : (moment watched script i).world.settlement c ≠ none ∨
      (moment watched script i).Offering c) :
    ∃ i' < i, Settling c (moment watched script i') := by
  induction hi with
  | refl =>
    obtain settled | ⟨p, below, hstack, -⟩ := taken
    · exact absurd newborn.unsettled settled
    · have unvisited := newborn.unvisited
      rw [hstack] at unvisited
      exact absurd rfl (unvisited (.driving c p) (List.mem_cons_self ..))
  | @step i hi ih =>
    rw [Nat.succ_eq_add_one, moment_succ] at taken
    obtain before | now := (newborn.owned_later hi).settling_of_step
      (moment_orderly watched script i) (moment_sound watched script i) taken
    · obtain ⟨i', hi', settling⟩ := ih before
      exact ⟨i', Nat.lt_succ_of_lt hi', settling⟩
    · exact ⟨i, Nat.lt_succ_self i, now⟩

/-- Once a settlement of a deferred has begun, the deferred has settled before any other call
begins. -/
theorem settled_of_settling {act : Act} (settling : Settling c (moment watched script i))
    (hin : i < n) (begins : Begins act (moment watched script n) base) :
    (moment watched script n).world.settlement c ≠ none := by
  obtain ⟨handle, o, ctx, base', begins', refers⟩ := settling
  cases unsettled : (moment watched script i).world.settlement c with
  | some o' =>
    rw [settlement_lasts unsettled (Nat.le_of_lt hin)]
    exact Option.some_ne_none o'
  | none =>
    obtain ⟨commits, w, published, settled⟩ := settlement_commits begins' refers unsettled
    have later : i + 5 ≤ n := by
      apply Nat.le_of_not_lt
      intro sooner
      obtain ⟨here, hstack⟩ := commits n hin (Nat.le_of_lt sooner)
      cases begins with
      | session hstack' | body hstack' => cases hstack.symm.trans hstack'
    have settled' : (moment watched script (i + 5)).world.settlement c = some o := by
      rw [published]
      exact settled
    rw [settlement_lasts settled' later]
    exact Option.some_ne_none o

end Committed

/-- Of all settlements of a deferred, through whichever of its handles and wherever in a run
they begin, the first one commits: five steps later its outcome has settled the completion,
for good; and before the stack is as low again as when it began, it has come back accepted, or
with a panic that has reached its own drain. Every other one is rejected four steps later, and
then nothing has changed but that the record says so: its outcome was offered, was dropped, and
this was logged. -/
theorem first_settlement_wins (watched : List String) (script : Script) (n : Nat)
    (handle : String) (o : Outcome Value) (base : List Frame) (c : CompletionId) (ctx : Context)
    (begins : Begins (.onDeferred handle (.settle o)) (moment watched script n) base)
    (refers : (moment watched script n).world.lookup handle = some (.deferred c ctx)) :
    ((∀ i < n, ¬ Settling c (moment watched script i)) →
      (∀ j, n + 5 ≤ j → (moment watched script j).world.settlement c = some o ∧
        ∀ x, (moment watched script j).world.place (.completion c) = some (some x) →
          x.cell.result = some o) ∧
      ∀ last, n < last → (moment watched script last).stack.length ≤ base.length →
        ∃ j, n < j ∧ j ≤ last ∧
          (∀ i, n < i → i < j → base.length < (moment watched script i).stack.length) ∧
          (moment watched script j).stack = base ∧
          ((moment watched script j).control = .answer .accepted ∨
            ∃ p, (moment watched script j).control = .unwind p ∧ ∃ i, n < i ∧ i < j ∧
              Breaks c (settlementFrames c ctx o.side base) p (moment watched script i))) ∧
    ((∃ i < n, Settling c (moment watched script i)) →
      moment watched script (n + 4)
        = { world := (moment watched script n).world.recordAll
              [.offered (.completion c) o, .lost (.completion c) o, .logged c (.lost o.side)]
            stack := base
            control := .answer (.rejected .alreadyCompleted) }) := by
  constructor
  · intro first
    have unsettled : (moment watched script n).world.settlement c = none := by
      obtain ⟨b, hbn, -, newborn⟩ := exists_birth refers
      cases settled : (moment watched script n).world.settlement c with
      | none => rfl
      | some o' =>
        obtain ⟨i, hin, settling⟩ := newborn.exists_settling hbn
          (.inl (by rw [settled]; exact Option.some_ne_none o'))
        exact absurd settling (first i hin)
    obtain ⟨commits, w, published, settled⟩ := settlement_commits begins refers unsettled
    have settled' : (moment watched script (n + 5)).world.settlement c = some o := by
      rw [published]
      exact settled
    refine ⟨?_, ?_⟩
    · intro j hj
      have lasts := settlement_lasts settled' hj
      refine ⟨lasts, fun x hx => ?_⟩
      rw [(moment_orderly watched script j).result_of_place hx, lasts]
    · intro last hn low
      have higher : ∀ k, n < k → k ≤ n + 5 →
          base.length < (moment watched script k).stack.length := by
        intro k hnk hk
        obtain ⟨here, hstack⟩ := commits k hnk hk
        simp only [hstack, settlementFrames, List.length_cons]
        omega
      have later : n + 5 ≤ last := by
        apply Nat.le_of_not_le
        intro sooner
        exact absurd (higher last hn sooner) (Nat.not_lt_of_le low)
      have start : Settles watched script n c ctx o.side base (n + 5) :=
        .drains (by omega) (@Winning.acts _ _ _ (.announce o.side)
          (by rw [published]; rfl) (by rw [published]; rfl) trivial)
      obtain ⟨j, hnj, hj, running, back, concludes⟩ :=
        @exists_end watched script (Settles watched script n c ctx o.side base)
          (fun i => (moment watched script i).stack = base ∧
            Concludes watched script n c (settlementFrames c ctx o.side base) .accepted i)
          base (n + 5) last (fun i _ still => still.step) Settles.higher start later low
      refine ⟨j, by omega, hj, ?_, back, concludes⟩
      intro i hni hij
      obtain sooner | hi := Nat.le_total i (n + 5)
      · exact higher i hni sooner
      · exact (running i hi hij).higher
  · rintro ⟨i, hin, settling⟩
    exact settlement_loses begins refers (settled_of_settling settling hin begins)

/-- A callback tries to settle the deferred the other way, in the course of the drain that has
called it, and panics; so it leaves a callback waiting. A third settlement comes after that. -/
def settleRaceScript : Script :=
  [.mk "" (.create "d" (.pair "p")),
    .mk "" (.onDeferred "d" (.clone "e")),
    .mk "" (.onPromise "p" (.register (.on .success) (.mk "panics"
      [.mk "" (.onDeferred "e" (.settle ⟨.failure, { data := .int 2 }⟩)),
        .mk "" (.raise (.number 1))]))),
    .mk "" (.onPromise "p" (.register (.on .success) (.mk "waits" []))),
    .mk "" (.onDeferred "d" (.settle ⟨.success, { data := .int 1 }⟩)),
    .mk "" (.onDeferred "e" (.settle ⟨.failure, { data := .int 3 }⟩))]

/-- The first settlement begins at moment 14 and has unwound at moment 35. The callback's own
settlement begins at moment 24; the third one begins at moment 36, when a callback still
waits, and does not call it. -/
theorem first_settlement_wins_race :
    (moment [] settleRaceScript 60).world.settlement 0 = some ⟨.success, { data := .int 1 }⟩ ∧
    (∃ p i, (moment [] settleRaceScript 35).control = .unwind p ∧ i < 35 ∧
      Breaks 0 (settlementFrames 0 {} .success (moment [] settleRaceScript 35).stack) p
        (moment [] settleRaceScript i)) ∧
    (moment [] settleRaceScript 28).control = .answer (.rejected .alreadyCompleted) ∧
    ((moment [] settleRaceScript 36).world.completion 0).waiting (.on .success) ≠ [] ∧
    moment [] settleRaceScript 40
      = { world := (moment [] settleRaceScript 36).world.recordAll
            [.offered (.completion 0) ⟨.failure, { data := .int 3 }⟩,
              .lost (.completion 0) ⟨.failure, { data := .int 3 }⟩, .logged 0 (.lost .failure)]
          stack := (moment [] settleRaceScript 40).stack
          control := .answer (.rejected .alreadyCompleted) } := by
  have begins : Begins (.onDeferred "d" (.settle ⟨.success, { data := .int 1 }⟩))
      (moment [] settleRaceScript 14) (moment [] settleRaceScript 35).stack := .session rfl rfl
  have refers : (moment [] settleRaceScript 14).world.lookup "d" = some (.deferred 0 {}) := rfl
  have first : ∀ i < 14, ¬ Settling 0 (moment [] settleRaceScript i) := by
    intro i hi settling
    exact settled_of_settling settling hi begins rfl
  have began : Settling 0 (moment [] settleRaceScript 14) := ⟨_, _, _, _, begins, refers⟩
  have high : ∀ i, i < 35 → 14 < i → (moment [] settleRaceScript 35).stack.length
      < (moment [] settleRaceScript i).stack.length := by decide +kernel
  obtain ⟨lasts, ends⟩ := (first_settlement_wins [] settleRaceScript 14 "d"
    ⟨.success, { data := .int 1 }⟩ _ 0 {} begins refers).1 first
  obtain ⟨-, nested⟩ := first_settlement_wins [] settleRaceScript 24 "e"
    ⟨.failure, { data := .int 2 }⟩ _ 0 {} (.body rfl rfl) rfl
  obtain ⟨-, late⟩ := first_settlement_wins [] settleRaceScript 36 "e"
    ⟨.failure, { data := .int 3 }⟩ _ 0 {} (.session rfl rfl) rfl
  refine ⟨(lasts 60 (by decide)).1, ?_, ?_, ?_, late ⟨14, by decide, began⟩⟩
  · obtain ⟨j, hnj, hj, -, back, concludes⟩ := ends 35 (by decide) (Nat.le_refl _)
    obtain sooner | rfl := Nat.lt_or_eq_of_le hj
    · have higher := high j sooner hnj
      rw [back] at higher
      exact absurd higher (Nat.lt_irrefl _)
    · obtain answered | ⟨p, unwound, i, -, hi, breaks⟩ := concludes
      · cases answered
      · exact ⟨p, i, unwound, hi, breaks⟩
  · rw [nested ⟨14, by decide, began⟩]
  · exact List.ne_nil_of_length_pos (by decide +kernel)

end Machine

end Eventual
