import Eventual.Proofs.Machine.Steps
import Eventual.Proofs.World.Lives

/-!
# Every cell and every completion leads a life

A step of a run is a turn in the life of each cell and of each completion, or a few of
them, or none. Whoever makes the step, only the topmost frame can have an outcome on
offer, and only while it is told to go on: a commit calls nothing, so it is never waited
for. Hence a commit that is under way is the call that goes on, and to every other step
its cell looks pending or settled.
-/

namespace Eventual

/-- A frame has no outcome on offer. -/
def Frame.Idle : Frame → Prop
  | .driving _ p => p.Candid ∧ p.offers = []
  | _ => True

/-- A frame does not carry the answer of a commit that lost. -/
def Frame.Candid : Frame → Prop
  | .driving _ p => p.Candid
  | _ => True

theorem Frame.Idle.candid {f : Frame} (h : f.Idle) : f.Candid := by
  cases f with
  | driving c p => exact h.1
  | _ => trivial

theorem heldBy_cons_of_none {f : Frame} (h : f.held? = none) (stack : List Frame) :
    heldBy (f :: stack) = heldBy stack :=
  List.filterMap_cons_none h

namespace Machine

/-- The point at which the call stands that goes on with a thing. -/
def active (m : Machine) (e : Entity) : Option (Site.Point Value Item WakerId) :=
  match m.control, m.stack with
  | .resume, .driving c p :: _ => if .completion c = e then some p else none
  | _, _ => none

/-- The life of a thing at a moment of a run. -/
def life (m : Machine) (e : Entity) : Life :=
  { place := m.world.place e, active := m.active e, story := m.world.story e }

/-- Only the topmost frame has an outcome on offer, while it is told to go on; what the
handles and the running calls refer to lives; and the lives of cells and completions are
in order. -/
structure Orderly (m : Machine) : Prop where
  rooted : m.world.Rooted (heldBy m.stack)
  top : ∀ {f below}, m.stack = f :: below → f.Candid ∧ (f.Idle ∨ m.control = .resume)
  below : ∀ {f below}, m.stack = f :: below → ∀ f' ∈ below, f'.Idle
  lives : ∀ {e}, e.Settles → (m.life e).Sound e

end Machine

open World

/-! ## Idle steps -/

/-- What a step leads to that is not one of a call on a completion, made while the running
calls hold the references: the world changes and frames that have nothing on offer come
onto the stack, or a commit makes its offer. -/
inductive Advance (held : List Ref) (w : World) : World → List Frame → Control → Prop
  | calm {w' : World} {frames : List Frame} {control : Control} : Changes held w w' →
      (∀ f ∈ frames, f.Idle) → (∀ r ∈ heldBy frames, w'.Valid r) →
      Advance held w w' frames control
  | commits {c : CompletionId} {o : Outcome Value} {drains : Bool} {frames : List Frame} :
      w.Lives (.completion c) → (∀ f ∈ frames, f.Idle) → (∀ r ∈ heldBy frames, w.Valid r) →
      Advance held w (w.record (.offered (.completion c) o))
        (.driving c (.direct (.commit o drains .look)) :: frames) .resume

namespace Advance

variable {w w' : World} {held : List Ref} {control : Control} {c : CompletionId}

theorem of_nil (changes : Changes held w w') : Advance held w w' [] control :=
  .calm changes (List.forall_mem_nil _) (List.forall_mem_nil _)

/-- Frames that hold nothing. -/
theorem of_bare {frames : List Frame} (changes : Changes held w w')
    (idle : ∀ f ∈ frames, f.Idle) (bare : ∀ f ∈ frames, f.held? = none) :
    Advance held w w' frames control := by
  refine .calm changes idle ?_
  rw [heldBy, List.filterMap_eq_nil_iff.2 bare]
  exact List.forall_mem_nil _

/-- A frame that has nothing on offer stands below what a step leads to. -/
theorem onto {frames : List Frame} (h : Advance held w w' frames control) {f : Frame}
    (idle : f.Idle) (bare : f.held? = none) : Advance held w w' (frames ++ [f]) control := by
  have same : ∀ frames, heldBy (frames ++ [f]) = heldBy frames := fun frames => by
    simp [heldBy, bare]
  have idle' : ∀ {frames : List Frame}, (∀ f ∈ frames, f.Idle) → ∀ f' ∈ frames ++ [f], f'.Idle :=
    fun h => List.forall_mem_append.2 ⟨h, List.forall_mem_singleton.2 idle⟩
  cases h with
  | calm changes h valid => exact .calm changes (idle' h) ((same _).symm ▸ valid)
  | commits lives h valid => exact .commits lives (idle' h) ((same _).symm ▸ valid)

theorem history {frames : List Frame} (h : Advance held w w' frames control) :
    w.history <+: w'.history := by
  cases h with
  | calm changes _ _ => exact changes.history
  | commits _ _ _ =>
    rw [history_record]
    exact List.prefix_append ..

theorem idle_start {call : Site.Call Value Item WakerId} (nothing : call.start.offers = []) :
    (Frame.driving c call.start).Idle :=
  ⟨call.start_candid, nothing⟩

theorem heldBy_holding {awaiting : List Frame} (bare : ∀ f ∈ awaiting, f.held? = none) (r : Ref) :
    heldBy (awaiting ++ [.holding r]) = [r] := by
  simp [heldBy, List.filterMap_eq_nil_iff.2 bare, Frame.held?]

/-- A call that is no commit. -/
theorem engage {r : Ref} {call : Site.Call Value Item WakerId} (changes : Changes held w w')
    (valid : w'.Valid r) (nothing : call.start.offers = []) :
    Advance held w w' [.driving c call.start, .holding r] control := by
  refine .calm changes ?_ (List.forall_mem_singleton.2 valid)
  exact List.forall_mem_cons.2 ⟨idle_start nothing, List.forall_mem_singleton.2 trivial⟩

/-- A call that commits. -/
theorem engageCommit {r : Ref} {o : Outcome Value} (drains : Bool) {awaiting : List Frame}
    (lives : w.Lives (.completion c)) (valid : w.Valid r) (idle : ∀ f ∈ awaiting, f.Idle)
    (bare : ∀ f ∈ awaiting, f.held? = none) :
    Advance held w (w.record (.offered (.completion c) o))
      (.driving c (.direct (.commit o drains .look)) :: (awaiting ++ [.holding r])) .resume := by
  refine .commits lives ?_ ?_
  · exact List.forall_mem_append.2 ⟨idle, List.forall_mem_singleton.2 trivial⟩
  · rw [heldBy_holding bare]
    exact List.forall_mem_singleton.2 valid

end Advance

/-! ## Beginning a step -/

section Beginnings

variable {w : World} {held : List Ref} {c : CompletionId}

/-- What the beginning of a step leads to. -/
def Start.Advances (w : World) (held : List Ref) (s : Start) : Prop :=
  Advance held w s.world s.frames s.control

theorem Start.Advances.of_nil {s : Start} (changes : Changes held w s.world)
    (h : s.frames = []) : s.Advances w held := by
  unfold Start.Advances
  rw [h]
  exact .of_nil changes

theorem Start.Advances.read (w : World) (cell : Cell Value) (r : Reading) :
    (Start.read w cell r).Advances w held := by
  cases r with
  | state | flags | result => exact .of_nil .refl rfl
  | demand s =>
    unfold Start.read
    dsimp only
    split
    next => exact .of_nil .refl rfl
    next => exact .of_nil .refl rfl

theorem beginCell_advances {i : Nat} (lives : w.Lives (.cell i)) (op : CellOp) :
    (beginCell w i op).Advances w held := by
  cases op with
  | tryCommit o => exact .of_nil (Change.commit lives).changes rfl
  | read r => exact .read w (w.cell i) r
  | describe _ | faulty _ => exact .of_nil .refl rfl

theorem changes_take? (w : World) (q : Nat) : Changes held w (w.take? q).1 := by
  have set : Change held w (w.take? q).1 := .furnish rfl rfl rfl rfl
  exact set.changes

theorem changes_note (w : World) {ev : Event} (h : ev.subject? = none) :
    Changes held w (w.record ev) :=
  (Change.note h).changes

theorem changes_append (w : World) (q : Nat) (v : Value) : Changes held w (w.append q v) := by
  have set : Change held w (w.setQueue q ((w.queue q).append v)) := .furnish rfl rfl rfl rfl
  exact set.changes.trans (changes_note _ rfl)

theorem changes_appendAll (w : World) (q : Nat) (ns : List Int) :
    Changes held w (ns.foldl (fun w n => w.append q { data := .int n }) w) := by
  induction ns generalizing w with
  | nil => exact .refl
  | cons n ns ih => exact (changes_append w q _).trans (ih _)

theorem changes_takeAll (w : World) (q fuel : Nat) : Changes held w (w.takeAll q fuel).1 := by
  induction fuel generalizing w with
  | zero => exact .refl
  | succ fuel ih =>
    have taken : Changes held w (w.take? q).1 := changes_take? w q
    unfold World.takeAll
    split
    next w₁ h => exact (congrArg Prod.fst h) ▸ taken
    next w₁ v h =>
      rw [h] at taken
      exact (taken.trans (changes_note w₁ rfl)).trans (ih _)

theorem beginQueue_advances (w : World) (q : Nat) (op : QueueOp) :
    (beginQueue w q op).Advances w held := by
  have taken : Changes held w (w.take? q).1 := changes_take? w q
  cases op with
  | append v => exact .of_nil (changes_append w q v) rfl
  | appendRange start stop => exact .of_nil (changes_appendAll w q _) rfl
  | popAll => exact .of_nil (changes_takeAll w q (w.queue q).length) rfl
  | isEmpty | length | describe _ | faulty _ => exact .of_nil .refl rfl
  | pop =>
    unfold beginQueue
    dsimp only
    split
    next w₁ h =>
      rw [h] at taken
      exact .of_nil taken rfl
    next w₁ v h =>
      rw [h] at taken
      exact .of_nil (taken.trans (changes_note w₁ rfl)) rfl
  | popMatching body t =>
    unfold beginQueue
    dsimp only
    split
    next w₁ h =>
      rw [h] at taken
      exact .of_nil taken rfl
    next w₁ v h =>
      rw [h] at taken
      refine .calm taken (by simp [Start.run, Frame.Idle]) ?_
      -- The take holds its queue, which is no concern of cells and completions.
      intro r hr e he settles
      obtain rfl : .queue q = r := by simpa [Start.run, heldBy, Frame.held?] using hr
      obtain rfl : .queue q = e := by simpa [Ref.entity?] using he
      exact settles.elim

theorem valid_of_lives {r : Ref} (hr : r.entity? = some (.completion c))
    (lives : w.Lives (.completion c)) : w.Valid r := by
  intro e he _
  obtain rfl := Option.some.inj (hr.symm.trans he)
  exact lives

theorem beginCompletion_advances (lives : w.Lives (.completion c))
    (op : CompletionOp) : (beginCompletion w c op).Advances w held := by
  have valid : w.Valid (.completion c) := valid_of_lives rfl lives
  cases op with
  | tryCommit o | complete o =>
    exact .engageCommit _ lives valid (List.forall_mem_nil _) (List.forall_mem_nil _)
  | register k cb | registerCountdown k name n | drain s =>
    exact .engage .refl valid rfl
  | registerWaker handle =>
    unfold beginCompletion
    dsimp only
    split
    next => exact .engage .refl valid rfl
    next => exact .of_nil .refl rfl
  | read r => exact .read w _ r
  | describe _ | faulty _ => exact .of_nil .refl rfl

theorem beginContext_advances (rooted : w.Rooted held) (ctx : Context) (op : ContextOp) :
    (beginContext w held ctx op).Advances w held := by
  cases op with
  | clone handle => exact .of_nil (.bind rooted handle nofun) rfl
  | profile | describe _ | faulty _ => exact .of_nil .refl rfl

theorem beginDeferred_advances (rooted : w.Rooted held) (lives : w.Lives (.completion c))
    (ctx : Context) (op : DeferredOp) : (beginDeferred w held c ctx op).Advances w held := by
  have valid : w.Valid (.deferred c ctx) := valid_of_lives rfl lives
  cases op with
  | settle o =>
    exact .engageCommit true lives valid (List.forall_mem_singleton.2 trivial)
      (List.forall_mem_singleton.2 rfl)
  | promise handle => exact .of_nil (.bindPromise rooted handle ctx lives) rfl
  | clone handle => exact .of_nil (.bind rooted handle valid) rfl
  | profile | describe _ | faulty _ => exact .of_nil .refl rfl

theorem beginPromise_advances (rooted : w.Rooted held) (lives : w.Lives (.completion c))
    (ctx : Context) (watch : WatchId) (op : PromiseOp) :
    (beginPromise w held c ctx watch op).Advances w held := by
  have valid : w.Valid (.promise c ctx watch) := valid_of_lives rfl lives
  cases op with
  | register k cb => exact .engage .refl valid rfl
  | chained first onFirst onOther always =>
    exact .calm .refl (by simp [beginPromise, Start.run, Frame.Idle])
      (List.forall_mem_singleton.2 valid)
  | flags => exact .read w _ _
  | clone handle => exact .of_nil (.bindPromise rooted handle ctx lives) rfl
  | poll handle =>
    unfold beginPromise
    dsimp only
    split
    next =>
      split
      next => exact .of_nil .refl rfl
      next => exact .engage .refl valid rfl
    next => exact .of_nil .refl rfl
  | blockOn =>
    unfold beginPromise
    dsimp only
    split
    next o ho => exact .of_nil (Change.copy lives ho).changes rfl
    next => exact .of_nil .refl rfl
  | profile | describe _ | faulty _ => exact .of_nil .refl rfl

theorem changes_addCompletion_bind (rooted : w.Rooted held) (handle : String) {r : Ref}
    (hr : r.entity? = some (.completion w.completions.size)) :
    Changes held w ((w.addCompletion {}).1.bind held handle r) := by
  have born : Change held w (w.addCompletion {}).1 := .addCompletion
  exact born.changes.trans (.bind (born.rooted rooted) handle
    (valid_of_lives hr (lives_addCompletion w)))

theorem beginMaker_advances (rooted : w.Rooted held) (handle : String) (m : Maker) :
    (beginMaker w held handle m).Advances w held := by
  cases m with
  | cell =>
    have born : Change held w (w.addCell {}).1 := .addCell
    refine .of_nil (born.changes.trans (.bind (born.rooted rooted) handle ?_)) rfl
    intro e he _
    obtain rfl := Option.some.inj he
    exact lives_addCell w
  | queue =>
    have born : Change held w (w.addQueue {}).1 := .furnish rfl rfl rfl rfl
    refine .of_nil (born.changes.trans (.bind (born.rooted rooted) handle ?_)) rfl
    intro e he settles
    obtain rfl := Option.some.inj he
    exact settles.elim
  | waker body =>
    have born : Change held w (w.addWaker { name := handle, body }).1 := .furnish rfl rfl rfl rfl
    exact .of_nil (born.changes.trans (.bind (born.rooted rooted) handle nofun)) rfl
  | completion => exact .of_nil (changes_addCompletion_bind rooted handle rfl) rfl
  | context settings => exact .of_nil (.bind rooted handle nofun) rfl
  | deferred context =>
    cases context with
    | none => exact .of_nil (changes_addCompletion_bind rooted handle rfl) rfl
    | some name =>
      unfold beginMaker
      dsimp only
      split
      next ctx _ => exact .of_nil (changes_addCompletion_bind rooted handle rfl) rfl
      next => exact .of_nil .refl rfl
  | pair promise =>
    have deferred := changes_addCompletion_bind (r := .deferred w.completions.size {}) rooted
      handle rfl
    refine .of_nil (deferred.trans (.bindPromise (deferred.rooted rooted) promise {} ?_)) rfl
    obtain ⟨entry, hentry, he⟩ := binds_bind (w.addCompletion {}).1 held handle
      (r := .deferred w.completions.size {}) rfl
    exact (deferred.rooted rooted).bound entry hentry _ he trivial
  | settled o =>
    have born : Change held w (w.addCompletion {}).1 := .addCompletion
    have lives := lives_addCompletion w
    have pending : ((w.addCompletion {}).1.completion w.completions.size).cell.state
        = .pending := by
      rw [completion_eq ((getElem?_addCompletion w {} _).trans (if_pos rfl))]
    have settled : Change held (w.addCompletion {}).1
        ((w.addCompletion {}).1.settle w.completions.size o) := .settle lives pending
    have lives' : ((w.addCompletion {}).1.settle w.completions.size o).Lives
        (.completion w.completions.size) :=
      ((lives.record _).setCompletion (lives.record _)).record _
    exact .of_nil ((born.changes.trans settled.changes).trans
      (.bindPromise (settled.rooted (born.rooted rooted)) handle {} lives')) rfl

theorem begin_advances (rooted : w.Rooted held) (act : Act) :
    (begin w held act).Advances w held := by
  cases act with
  | attempt body =>
    exact .of_bare .refl (by simp [begin, Start.run, Frame.Idle])
      (by simp [begin, Start.run, Frame.held?])
  | iterate count body =>
    exact .of_bare .refl (by simp [begin, Start.run, Frame.Idle])
      (by simp [begin, Start.run, Frame.held?])
  | create handle m => exact beginMaker_advances rooted handle m
  | faulty _ | raise _ | compare _ _ _ | onUnknown _ => exact .of_nil .refl rfl
  | discard handle =>
    unfold begin
    dsimp only
    split
    next w' h => exact .of_nil (.unbind rooted h) rfl
    next => exact .of_nil .refl rfl
  | onCell handle op =>
    unfold begin
    dsimp only
    split
    next i h => exact beginCell_advances (rooted.lookup h _ rfl trivial) op
    next => exact .of_nil .refl rfl
  | onQueue handle op =>
    unfold begin
    dsimp only
    split
    next q _ => exact beginQueue_advances w q op
    next => exact .of_nil .refl rfl
  | onCompletion handle op =>
    unfold begin
    dsimp only
    split
    next c h => exact beginCompletion_advances (rooted.lookup h _ rfl trivial) op
    next => exact .of_nil .refl rfl
  | onContext handle op =>
    unfold begin
    dsimp only
    split
    next ctx _ => exact beginContext_advances rooted ctx op
    next => exact .of_nil .refl rfl
  | onDeferred handle op =>
    unfold begin
    dsimp only
    split
    next c ctx h => exact beginDeferred_advances rooted (rooted.lookup h _ rfl trivial) ctx op
    next => exact .of_nil .refl rfl
  | onPromise handle op =>
    unfold begin
    dsimp only
    split
    next c ctx watch h =>
      exact beginPromise_advances rooted (rooted.lookup h _ rfl trivial) ctx watch op
    next => exact .of_nil .refl rfl

end Beginnings

/-! ## Idle steps -/

namespace Machine

section Frames

variable {w w' : World} {below : List Frame} {frame : Frame} {c : CompletionId}

/-- What an idle step leads to, above the frames below. -/
def Advances (w : World) (below : List Frame) (m : Machine) : Prop :=
  ∃ frames, m.stack = frames ++ below ∧ Advance (heldBy below) w m.world frames m.control

/-- The frames below are handed something. -/
theorem Advances.of_changes (changes : Changes (heldBy below) w w') (control : Control) :
    Advances w below { world := w', stack := below, control } :=
  ⟨[], rfl, .of_nil changes⟩

/-- One frame comes above those below. -/
theorem Advances.push {control : Control} (changes : Changes (heldBy below) w w')
    (idle : frame.Idle) (bare : frame.held? = none) :
    Advances w below { world := w', stack := frame :: below, control } :=
  ⟨[frame], rfl, .of_bare changes (List.forall_mem_singleton.2 idle)
    (List.forall_mem_singleton.2 bare)⟩

/-- A frame that was put below for the step has come above those further below. -/
theorem Advances.of_cons {m : Machine} (h : Advances w (frame :: below) m) (idle : frame.Idle)
    (bare : frame.held? = none) : Advances w below m := by
  obtain ⟨frames, hstack, advance⟩ := h
  rw [heldBy_cons_of_none bare] at advance
  exact ⟨frames ++ [frame], hstack.trans (List.append_cons ..), advance.onto idle bare⟩

theorem changes_wake {held : List Ref} (w : World) (i : WakerId) :
    Changes held w (w.wake i).1 := by
  unfold World.wake
  split
  next => exact .refl
  next x _ =>
    have spent : Change held w
        { w with wakers := w.wakers.setIfInBounds i { x with spent := true } } :=
      .furnish rfl rfl rfl rfl
    exact spent.changes.trans (changes_note _ rfl)

theorem dispose_advances (changes : Changes (heldBy below) w w') (p : Panic) :
    Advances w below (dispose w' below p) := by
  unfold dispose
  split
  next i _ => exact .push (changes.trans (changes_wake w' i)) trivial rfl
  next => exact .of_changes changes _

theorem enter_advances (rooted : w.Rooted (heldBy below)) {f : Frame} (idle : f.Idle)
    (bare : f.held? = none) (act : Act) : Advances w below (enter w (f :: below) act) := by
  have held : heldBy (f :: below) = heldBy below := heldBy_cons_of_none bare below
  have begins := begin_advances rooted act
  refine ⟨(begin w (heldBy (f :: below)) act).frames ++ [f], ?_, ?_⟩
  · simp [enter]
  · rw [held]
    simp only [enter, held]
    exact begins.onto idle bare

theorem probe_advances (w : World) (below : List Frame) (q : Nat) (t : Test) (n : Nat)
    (v : Value) : Advances w below (probe w below q t n v) := by
  unfold probe
  split
  next => exact .of_changes (changes_note w rfl) _
  next => exact .of_changes ((changes_note w rfl).trans (changes_note _ rfl)) _
  next =>
    have noted : Changes (heldBy below) w ((w.record (.tested v false)).record (.discarded q v)) :=
      (changes_note w rfl).trans (changes_note _ rfl)
    have taken := noted.trans (changes_take? _ q)
    split
    next w' h =>
      rw [h] at taken
      exact .of_changes taken _
    next w' v' h =>
      rw [h] at taken
      exact .push taken trivial rfl

theorem chain_advances (w : World) (below : List Frame) (c : CompletionId) (ctx : Context)
    (rest : List (Kind × Callback)) : Advances w below (chain w below c ctx rest) := by
  cases rest with
  | nil => exact .of_changes .refl _
  | cons entry rest =>
    obtain ⟨k, cb⟩ := entry
    refine ⟨[.driving c (.direct (.append k (.callback cb (some ctx)))), .chaining c ctx rest],
      rfl, .of_bare .refl ?_ (by simp [Frame.held?])⟩
    refine List.forall_mem_cons.2 ⟨?_, List.forall_mem_singleton.2 trivial⟩
    exact ⟨trivial, rfl⟩

theorem contain_advances (w : World) (below : List Frame) (c : CompletionId) (ctx : Context)
    (p : Panic) : Advances w below (contain w below c ctx p) := by
  unfold contain
  dsimp only
  split
  next => exact dispose_advances (changes_note w rfl) p
  next h _ =>
    exact .of_cons (.push ((changes_note w rfl).trans (changes_note _ rfl)) trivial rfl) trivial rfl

theorem resume_advances (rooted : w.Rooted (heldBy below))
    (idle : ∀ c here, frame ≠ .driving c here) : Advances w below (resume w below frame) := by
  cases frame with
  | session watched rest =>
    cases rest with
    | nil => exact .of_changes .refl _
    | cons step rest => exact enter_advances (f := .session watched rest) rooted trivial rfl _
  | body label rest =>
    cases rest with
    | nil => exact .of_changes .refl _
    | cons step rest => exact enter_advances (f := .body step.label rest) rooted trivial rfl _
  | repeating count script =>
    cases count with
    | zero => exact .of_changes .refl _
    | succ n =>
      exact ⟨[.body "" script, .repeating n script], rfl,
        .of_bare .refl (by simp [Frame.Idle]) (by simp [Frame.held?])⟩
  | driving c here => exact absurd rfl (idle c here)
  | chaining c ctx rest => exact chain_advances w below c ctx rest
  | probing q t n v => exact probe_advances w below q t n v
  | catching | holding _ | settling _ _ | guarding _ _ | dropping _ | ending _ =>
    exact .of_changes .refl _

theorem receive_advances (rooted : w.Rooted (heldBy (frame :: below))) (idle : frame.Idle)
    (r : Reply) : Advances w below (receive w below r frame) := by
  cases frame with
  | session watched rest => exact .push (changes_note w rfl) trivial rfl
  | body label rest => exact .push (changes_note w rfl) trivial rfl
  | holding ref =>
    exact .of_changes (.release (rooted.held ref (List.mem_cons_self ..))) _
  | settling c s =>
    simp only [receive]
    split
    next => exact .of_changes (changes_note w rfl) _
    next => exact .of_changes .refl _
  | ending label => exact .of_changes (changes_note w rfl) _
  | probing q t n v => exact probe_advances w below q t n v
  | catching | guarding _ _ => exact .of_changes .refl _
  | dropping payload => exact dispose_advances .refl payload
  | driving c here | chaining c ctx rest | repeating count script => exact .push .refl idle rfl

theorem reject_advances (rooted : w.Rooted (heldBy (frame :: below))) (idle : frame.Idle)
    (f : Fault) : Advances w below (reject w below f frame) := by
  cases frame with
  | session watched rest => exact .push (changes_note w rfl) trivial rfl
  | body label rest => exact .push (changes_note w rfl) trivial rfl
  | holding ref =>
    exact ⟨[.holding ref], rfl, .calm .refl (List.forall_mem_singleton.2 trivial)
      (List.forall_mem_singleton.2 (rooted.held ref (List.mem_cons_self ..)))⟩
  | _ => exact .push .refl idle rfl

theorem unwind_advances (rooted : w.Rooted (heldBy (frame :: below))) (p : Panic) :
    Advances w below (unwind w below p frame) := by
  cases frame with
  | session watched rest => exact .push (changes_note w rfl) trivial rfl
  | catching => exact .of_changes .refl _
  | holding ref =>
    exact .of_changes (.release (rooted.held ref (List.mem_cons_self ..))) _
  | guarding c ctx =>
    simp only [unwind]
    split
    next => exact .of_changes .refl _
    next => exact contain_advances w below c ctx p
  | dropping payload =>
    simp only [unwind]
    split
    next => exact .of_changes .refl _
    next => exact .of_cons (dispose_advances .refl payload) trivial rfl
  | probing q t n v => exact .of_changes (changes_note w rfl) _
  | chaining c ctx rest => exact .of_changes (changes_note w rfl) _
  | body _ _ | repeating _ _ | driving _ _ | settling _ _ | ending _ =>
    exact .of_changes .refl _

end Frames

/-! ## Steps of calls on completions -/

/-- What a step of a call on a completion leads to once it is on record: the call goes on by
itself, or code that has nothing on offer goes on instead. -/
inductive Courses (c : CompletionId) (held : List Ref) (w : World) :
    Action Value Item (Site.Point Value Item WakerId) (Site.Answer Value) →
      World → List Frame → Control → Prop
  | onward {action : Action Value Item (Site.Point Value Item WakerId) (Site.Answer Value)}
      {p : Site.Point Value Item WakerId} {w' : World} : action.onward? = some p →
      Changes held w w' → (∀ e, w'.life e = w.life e) →
      Courses c held w action w' [.driving c p] .resume
  | apart {action : Action Value Item (Site.Point Value Item WakerId) (Site.Answer Value)}
      {w' : World} {frames : List Frame} {control : Control} : action.onward? = none →
      Changes held w w' → (∀ f ∈ frames, f.Idle) → heldBy frames = [] →
      Courses c held w action w' frames control

section Drive

variable {w w' : World} {below : List Frame} {held : List Ref} {c : CompletionId}

theorem Courses.history {frames : List Frame} {control : Control}
    {action : Action Value Item (Site.Point Value Item WakerId) (Site.Answer Value)}
    (h : Courses c held w action w' frames control) : w.history <+: w'.history := by
  cases h with
  | onward _ changes _ | apart _ changes _ _ => exact changes.history

/-- The code of an item that is called has nothing on offer and holds nothing. -/
theorem call_courses (alive : w.Alive c) (below : List Frame) (x : Item) :
    Changes held w (call w below c x).world ∧
      ∃ frames, (call w below c x).stack = frames ++ below ∧ (∀ f ∈ frames, f.Idle) ∧
        heldBy frames = [] := by
  have woken : ∀ {w'} i, Changes held w w' → Changes held w (wake w' below i).world ∧
      ∃ frames, (wake w' below i).stack = frames ++ below ∧ (∀ f ∈ frames, f.Idle) ∧
        heldBy frames = [] := fun i changes =>
    ⟨changes.trans (changes_wake _ i), [.body "" _], rfl, List.forall_mem_singleton.2 trivial, rfl⟩
  cases x with
  | callback cb guard =>
    cases guard with
    | none => exact ⟨.refl, [.body "" cb.body], rfl, List.forall_mem_singleton.2 trivial, rfl⟩
    | some ctx =>
      exact ⟨.refl, [.body "" cb.body, .guarding c ctx], rfl, by simp [Frame.Idle], rfl⟩
  | countdown k name n =>
    cases n with
    | zero => exact ⟨.refl, [.ending _], rfl, List.forall_mem_singleton.2 trivial, rfl⟩
    | succ n =>
      refine ⟨.refl, [.driving c _, .ending _], rfl, ?_, rfl⟩
      exact List.forall_mem_cons.2 ⟨⟨trivial, rfl⟩, List.forall_mem_singleton.2 trivial⟩
  | waker i => exact woken i .refl
  | relay watch =>
    have quiet : Quiet w (w.setSite c ((w.site c).takeWaker watch).1) := quiet_setSite alive _
    have taken : Change held w (w.setSite c ((w.site c).takeWaker watch).1) :=
      .furnish rfl rfl quiet.completions rfl
    unfold call
    dsimp only
    split
    next s h =>
      rw [h] at taken
      exact ⟨taken.changes, [], rfl, List.forall_mem_nil _, rfl⟩
    next s i h =>
      rw [h] at taken
      exact woken i taken.changes

/-- A step of a call on a completion does what the routine says, and puts it on record. -/
theorem drive_courses (alive : w.Alive c) (below : List Frame)
    {here : Site.Point Value Item WakerId} (fits : here.Fits (w.completion c).cell)
    (candid : here.Candid) :
    ∃ s action frames, Site.Does (w.site c) here s action ∧
      (drive w below c here).stack = frames ++ below ∧
      Courses c (heldBy below) ((w.setSite c s).recordAll (action.events c)) action
        (drive w below c here).world frames (drive w below c here).control := by
  have does := Site.step_does (w.site c) here
  rcases h : (w.site c).step here with ⟨s, action⟩
  rw [h] at does
  unfold drive
  simp only [h]
  cases action with
  | goto p => exact ⟨s, _, [.driving c p], does, rfl, .onward rfl .refl fun _ => rfl⟩
  | notice n p =>
    refine ⟨s, _, [.driving c p], does, rfl, ?_⟩
    cases n with
    | registered k x => exact .onward rfl .refl fun _ => rfl
    | settled o => exact .onward rfl .refl fun _ => rfl
    | logged r =>
      exact .onward rfl (changes_note _ rfl)
        fun e => life_congr (place_record ..) (story_record_of_ne nofun)
  | call k x arg p =>
    have alive' : ((w.setSite c s).record (.started c k x arg)).Alive c :=
      alive.setCompletion s.completion
    obtain ⟨changes, frames, stack, idle, bare⟩ :=
      @call_courses _ (heldBy below) _ alive' (.driving c p :: below) x
    obtain ⟨-, -, -, sweeps⟩ := does.of_call fits
    have waits : (Frame.driving c p).Idle := ⟨does.candid candid rfl, sweeps.offers⟩
    refine ⟨s, _, frames ++ [.driving c p], does, ?_, .apart rfl changes ?_ ?_⟩
    · rw [List.append_assoc]
      exact stack
    · exact List.forall_mem_append.2 ⟨idle, List.forall_mem_singleton.2 waits⟩
    · rw [heldBy, List.filterMap_append]
      exact List.append_eq_nil_iff.2 ⟨bare, rfl⟩
  | done a =>
    refine ⟨s, _, [], does, ?_, .apart rfl ?_ (List.forall_mem_nil _) rfl⟩
    · rcases a with (_ | _ | _) | _ | _ <;> rfl
    · rcases a with (_ | _ | _) | _ | _ <;> exact .refl
  | refused side st => exact ⟨s, _, [], does, rfl, .apart rfl .refl (List.forall_mem_nil _) rfl⟩

end Drive

/-! ## Runs -/

section Runs

variable {m : Machine} {w w' : World} {held : List Ref} {frames below : List Frame}
  {frame : Frame} {control : Control} {c : CompletionId} {e : Entity}

theorem heldBy_append' (frames below : List Frame) :
    heldBy (frames ++ below) = heldBy frames ++ heldBy below :=
  List.filterMap_append

theorem life_of_driving {here : Site.Point Value Item WakerId}
    (hstack : m.stack = .driving c here :: below) (hresume : m.control = .resume) (e : Entity) :
    m.life e = { m.world.life e with active := if .completion c = e then some here else none } := by
  simp only [life, active, hstack, hresume]
  rfl

/-- Unless a call on the thing goes on, its life is what the world knows of it. -/
theorem life_of_idle (idle : ¬ (m.control = .resume ∧ ∃ c p below, m.stack = .driving c p :: below))
    (e : Entity) : m.life e = m.world.life e := by
  have none : m.active e = none := by
    unfold active
    split
    next hcontrol hstack => exact absurd ⟨hcontrol, _, _, _, hstack⟩ idle
    next => rfl
  rw [life, none]
  rfl

/-- While nothing is on offer, a life is in order if the world says so. -/
theorem sound_life_of_idle (sound : m.Sound) (idle : ∀ f ∈ m.stack, f.Idle)
    (h : (m.world.life e).Sound e) : (m.life e).Sound e := by
  by_cases driving : m.control = .resume ∧ ∃ c p below, m.stack = .driving c p :: below
  · obtain ⟨hresume, c, p, below, hstack⟩ := driving
    have top : .driving c p ∈ m.stack := hstack ▸ List.mem_cons_self ..
    rw [life_of_driving hstack hresume]
    split
    next he =>
      subst he
      rw [life_of_place (Lives.place_completion (sound.of_driving top).1)] at h ⊢
      have nothing : p.offers = [] := (idle _ top).2
      have turn := Turn.sound (@Turn.enter _ _ p _) h
      rwa [nothing, List.map_nil, List.append_nil] at turn
    next => exact h
  · rwa [life_of_idle driving]

/-- Things are in order when no frame has anything on offer. -/
theorem Orderly.of_idle {stack : List Frame} (rooted : w.Rooted (heldBy stack))
    (idle : ∀ f ∈ stack, f.Idle) (lives : ∀ {e}, e.Settles → (w.life e).Sound e)
    (sound : Machine.Sound { world := w, stack, control }) :
    Orderly { world := w, stack, control } := by
  refine ⟨rooted, ?_, ?_, fun settles => sound_life_of_idle sound idle (lives settles)⟩
  · intro f rest hstack
    have hstack : stack = f :: rest := hstack
    have hf : f.Idle := idle f (hstack ▸ List.mem_cons_self ..)
    exact ⟨hf.candid, .inl hf⟩
  · intro f rest hstack f' hf'
    have hstack : stack = f :: rest := hstack
    exact idle f' (hstack ▸ List.mem_cons_of_mem _ hf')

/-- The first turn of a commit is its offer. -/
theorem sound_life_offered {o : Outcome Value} {drains : Bool}
    (living : w.Lives (.completion c)) (life : (w.life (.completion c)).Sound (.completion c)) :
    Life.Sound (.completion c)
      { (w.record (.offered (.completion c) o)).life (.completion c) with
        active := some (.direct (.commit o drains .look)) } := by
  have place := living.place_completion
  rw [life_of_place place] at life
  rw [life_of_place ((place_record ..).trans place), story_record_of_eq rfl]
  exact Turn.sound (@Turn.enter _ _ (.direct (.commit o drains .look)) _) life

/-- What an idle step leads to is in order. -/
theorem Orderly.of_advance (rooted : w.Rooted (heldBy below)) (idle : ∀ f ∈ below, f.Idle)
    (lives : ∀ {e}, e.Settles → (w.life e).Sound e)
    (h : Advance (heldBy below) w w' frames control)
    (sound : Machine.Sound { world := w', stack := frames ++ below, control }) :
    Orderly { world := w', stack := frames ++ below, control } := by
  cases h with
  | calm changes idle' valid =>
    have rooted' := changes.rooted rooted
    refine .of_idle ⟨rooted'.bound, ?_⟩ (List.forall_mem_append.2 ⟨idle', idle⟩)
      (fun settles => changes.sound_life settles (lives settles)) sound
    rw [heldBy_append']
    exact List.forall_mem_append.2 ⟨valid, rooted'.held⟩
  | @commits c o drains frames living idle' valid =>
    have all : ∀ f ∈ frames ++ below, f.Idle := List.forall_mem_append.2 ⟨idle', idle⟩
    have rooted' : (w.record (.offered (.completion c) o)).Rooted (heldBy below) :=
      rooted.of_lives rfl fun e living => living.record _
    refine ⟨⟨rooted'.bound, ?_⟩, ?_, ?_, ?_⟩
    · have held : heldBy (.driving c (.direct (.commit o drains .look)) :: frames ++ below)
          = heldBy frames ++ heldBy below := heldBy_append' (_ :: frames) below
      intro r hr
      rw [show heldBy _ = _ from held] at hr
      exact List.forall_mem_append.2 ⟨valid, rooted'.held⟩ r hr
    · intro f rest hstack
      cases hstack
      exact ⟨trivial, .inr rfl⟩
    · intro f rest hstack
      cases hstack
      exact all
    · intro e settles
      rw [life_of_driving rfl rfl]
      by_cases he : .completion c = e
      · subst he
        rw [if_pos rfl]
        exact sound_life_offered living (lives settles)
      · have other : (Event.offered (.completion c) o).subject? ≠ some e :=
          fun same => he (Option.some.inj same)
        rw [if_neg he, life_congr (place_record ..) (story_record_of_ne other)]
        exact lives settles

theorem recordAll_eq (w : World) (evs : List Event) :
    w.recordAll evs = { w with trail := evs.reverse ++ w.trail } := by
  unfold World.recordAll
  induction evs generalizing w with
  | nil => rfl
  | cons ev evs ih => simp [ih, World.record]

/-- A step that is on record concerns its completion. -/
theorem life_recorded (alive : w.Alive c) (s : Site Value Item WakerId) {evs : List Event}
    (about : ∀ ev ∈ evs, ev.subject? = some (.completion c)) :
    ((w.setSite c s).recordAll evs).place (.completion c) = some (some s.completion) ∧
      ((w.setSite c s).recordAll evs).story (.completion c) = w.story (.completion c) ++ evs ∧
      ∀ e, .completion c ≠ e → ((w.setSite c s).recordAll evs).life e = w.life e := by
  have place : ∀ e, ((w.setSite c s).recordAll evs).place e
      = (w.setCompletion c s.completion).place e := by
    intro e
    rw [recordAll_eq]
    cases e <;> rfl
  have story : ∀ e, ((w.setSite c s).recordAll evs).story e
      = w.story e ++ evs.filter fun ev => ev.subject? = some e := by
    intro e
    rw [World.story, history_recordAll, List.filter_append]
    rfl
  refine ⟨?_, ?_, ?_⟩
  · rw [place]
    exact place_setCompletion (show w.Lives (.completion c) from alive) _
  · rw [story, List.filter_eq_self.2 fun ev hev => decide_eq_true (about ev hev)]
  · intro e he
    refine life_congr ?_ ?_
    · rw [place, place_setCompletion_of_ne (Ne.symm he)]
    · have none : evs.filter (fun ev => ev.subject? = some e) = [] := by
        refine List.filter_eq_nil_iff.2 fun ev hev => ?_
        simpa [about ev hev] using he
      rw [story, none, List.append_nil]

theorem rooted_recorded (rooted : w.Rooted held) (alive : w.Alive c)
    (s : Site Value Item WakerId) {evs : List Event}
    (about : ∀ ev ∈ evs, ev.subject? = some (.completion c)) :
    ((w.setSite c s).recordAll evs).Rooted held := by
  obtain ⟨place, -, others⟩ := life_recorded alive s about
  refine rooted.of_lives (by rw [recordAll_eq]; rfl) fun e lives => ?_
  by_cases he : .completion c = e
  · subst he
    exact ⟨_, place⟩
  · obtain ⟨x, hx⟩ := lives
    exact ⟨x, (congrArg Life.place (others e he)).trans hx⟩

/-- A step of a run that stands on frames is an idle one, or one of a call on a completion,
which is put on record before anything else happens. -/
theorem Orderly.step_cases (h : m.Orderly) (sound : m.Sound) (hstack : m.stack = frame :: below) :
    (¬ (m.control = .resume ∧ ∃ c p below, m.stack = .driving c p :: below) ∧
      m.world.Rooted (heldBy below) ∧ Advances m.world below m.step) ∨
    ∃ c here s action frames, m.control = .resume ∧ frame = .driving c here ∧
      here.Fits (m.world.completion c).cell ∧ Site.Does (m.world.site c) here s action ∧
      m.step.stack = frames ++ below ∧
      Courses c (heldBy below) ((m.world.setSite c s).recordAll (action.events c)) action
        m.step.world frames m.step.control := by
  obtain ⟨w, stack, control⟩ := m
  obtain rfl : stack = frame :: below := hstack
  have rooted : w.Rooted (heldBy (frame :: below)) := h.rooted
  have rooted' : w.Rooted (heldBy below) := by
    refine ⟨rooted.bound, fun r hr => rooted.held r ?_⟩
    obtain ⟨f, hf, held⟩ := List.mem_filterMap.1 hr
    exact List.mem_filterMap.2 ⟨f, List.mem_cons_of_mem _ hf, held⟩
  by_cases driving : control = .resume ∧ ∃ c here, frame = .driving c here
  · obtain ⟨rfl, c, here, rfl⟩ := driving
    obtain ⟨alive, fits⟩ := sound.of_driving (List.mem_cons_self ..)
    obtain ⟨s, action, frames, does, stack, courses⟩ :=
      drive_courses alive below fits (h.top rfl).1
    exact .inr ⟨c, here, s, action, frames, rfl, rfl, fits, does, stack, courses⟩
  · have idle : frame.Idle := by
      obtain idle | hresume := (h.top rfl).2
      · exact idle
      · cases frame with
        | driving c p => exact absurd ⟨hresume, c, p, rfl⟩ driving
        | _ => trivial
    refine .inl ⟨?_, rooted', ?_⟩
    · rintro ⟨hresume, c, p, rest, hstack⟩
      exact driving ⟨hresume, c, p, (List.cons.inj hstack).1⟩
    · cases control with
      | resume => exact resume_advances rooted' fun c here same => driving ⟨rfl, c, here, same⟩
      | answer r => exact receive_advances rooted idle r
      | faulty f => exact reject_advances rooted idle f
      | unwind p => exact unwind_advances rooted p

/-- When a step of a call is on record, its completion has made a turn, and nothing has
happened to all other things. -/
theorem Orderly.recorded {here : Site.Point Value Item WakerId} {s : Site Value Item WakerId}
    {action : Action Value Item (Site.Point Value Item WakerId) (Site.Answer Value)}
    (h : m.Orderly) (sound : m.Sound) (hstack : m.stack = .driving c here :: below)
    (hresume : m.control = .resume) (does : Site.Does (m.world.site c) here s action) :
    Life.Sound (.completion c)
        { ((m.world.setSite c s).recordAll (action.events c)).life (.completion c) with
          active := action.onward? } ∧
      ∀ {e}, e.Settles → .completion c ≠ e →
        (((m.world.setSite c s).recordAll (action.events c)).life e).Sound e := by
  obtain ⟨alive, fits⟩ := sound.of_driving (hstack ▸ List.mem_cons_self ..)
  have candid : here.Candid := (h.top hstack).1
  obtain ⟨place, story, others⟩ := life_recorded alive s (action.events_tell c).about
  constructor
  · have life := h.lives (show (Entity.completion c).Settles from trivial)
    rw [life_of_driving hstack hresume, if_pos rfl,
      life_of_place (Lives.place_completion alive)] at life
    rw [life_of_place place, story]
    exact Turn.sound (.drive rfl does fits candid) life
  · intro e settles he
    have life := h.lives settles
    rw [life_of_driving hstack hresume, if_neg he] at life
    rw [others e he]
    exact life

/-- A step of a call on a completion leaves things in order. -/
theorem Orderly.of_courses {here : Site.Point Value Item WakerId} {s : Site Value Item WakerId}
    {action : Action Value Item (Site.Point Value Item WakerId) (Site.Answer Value)}
    {m' : Machine} (h : m.Orderly) (sound : m.Sound)
    (hstack : m.stack = .driving c here :: below) (hresume : m.control = .resume)
    (does : Site.Does (m.world.site c) here s action) (sound' : m'.Sound)
    (stack : m'.stack = frames ++ below)
    (courses : Courses c (heldBy below) ((m.world.setSite c s).recordAll (action.events c)) action
      m'.world frames m'.control) : m'.Orderly := by
  have candid : here.Candid := (h.top hstack).1
  have idle := h.below hstack
  obtain ⟨turned, unturned⟩ := h.recorded sound hstack hresume does
  have rooted : ((m.world.setSite c s).recordAll (action.events c)).Rooted (heldBy below) := by
    obtain ⟨alive, -⟩ := sound.of_driving (hstack ▸ List.mem_cons_self ..)
    have rooted := h.rooted
    rw [hstack, heldBy_cons_of_none rfl] at rooted
    exact rooted_recorded rooted alive s (action.events_tell c).about
  obtain ⟨w', stack', control⟩ := m'
  obtain rfl : stack' = frames ++ below := stack
  cases courses with
  | @onward _ p onward changes same =>
    have rooted' := changes.rooted rooted
    refine ⟨⟨rooted'.bound, rooted'.held⟩, ?_, ?_, ?_⟩
    · intro f rest hstack'
      cases hstack'
      exact ⟨does.candid candid (Action.next?_of_onward? onward), .inr rfl⟩
    · intro f rest hstack'
      cases hstack'
      exact idle
    · intro e settles
      rw [life_of_driving rfl rfl, same]
      by_cases he : .completion c = e
      · subst he
        rw [if_pos rfl, ← onward]
        exact turned
      · rw [if_neg he]
        exact unturned settles he
  | apart onward changes idle' bare =>
    refine .of_advance rooted idle ?_ (.calm changes idle' ?_) sound'
    · intro e settles
      by_cases he : .completion c = e
      · subst he
        rwa [onward] at turned
      · exact unturned settles he
    · rw [bare]
      exact List.forall_mem_nil _

/-- Every step leaves things in order. -/
theorem Orderly.step (h : m.Orderly) (sound : m.Sound) : m.step.Orderly := by
  cases hstack : m.stack with
  | nil => rwa [step_of_isOver (List.isEmpty_iff.2 hstack)]
  | cons frame below =>
    obtain ⟨idle, rooted, frames, stack, advance⟩ |
      ⟨c, here, s, action, frames, hresume, rfl, -, does, stack, courses⟩ :=
      h.step_cases sound hstack
    · have lives : ∀ {e}, e.Settles → (m.world.life e).Sound e := by
        intro e settles
        have life := h.lives settles
        rwa [life_of_idle idle] at life
      have sound' := sound.step
      generalize m.step = m' at stack advance sound' ⊢
      obtain ⟨w', stack', control'⟩ := m'
      obtain rfl : stack' = frames ++ below := stack
      exact .of_advance rooted (h.below hstack) lives advance sound'
    · exact h.of_courses sound hstack hresume does sound.step stack courses

/-- The history of a run only grows. -/
theorem Orderly.history_step (h : m.Orderly) (sound : m.Sound) :
    m.world.history <+: m.step.world.history := by
  cases hstack : m.stack with
  | nil =>
    have same : m.step = m := step_of_isOver (List.isEmpty_iff.2 hstack)
    exact same.symm ▸ List.prefix_rfl
  | cons frame below =>
    obtain ⟨-, -, frames, -, advance⟩ | ⟨c, here, s, action, frames, -, -, -, -, -, courses⟩ :=
      h.step_cases sound hstack
    · exact advance.history
    · have recorded : m.world.history
          <+: ((m.world.setSite c s).recordAll (action.events c)).history := by
        rw [history_recordAll]
        exact List.prefix_append ..
      exact recorded.trans courses.history

theorem initial_orderly (watched : List String) (script : Script) :
    (initial watched script).Orderly := by
  refine ⟨⟨nofun, nofun⟩, ?_, ?_, ?_⟩
  · intro f below hstack
    cases hstack
    exact ⟨trivial, .inl trivial⟩
  · intro f below hstack
    cases hstack
    exact List.forall_mem_nil _
  · intro e settles
    have unborn : (initial watched script).life e = { place := none, story := [] } := by
      cases e <;> simp [life, active, initial, place, story, history]
    rw [unborn]
    exact .unborn_place e

/-- At every moment of every run the lives of cells and completions are in order. -/
theorem moment_orderly (watched : List String) (script : Script) (n : Nat) :
    (moment watched script n).Orderly := by
  induction n with
  | zero => exact initial_orderly watched script
  | succ n ih =>
    rw [moment_succ]
    exact ih.step (moment_sound watched script n)

end Runs

end Machine

end Eventual
