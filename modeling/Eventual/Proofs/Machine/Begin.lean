import Eventual.Proofs.Machine.Stack

/-!
# Beginning a step keeps a run sound

Whatever a step asks for, what it changes at once is quiet, or brings something into
being, binds or lets go of a handle. What it starts stands on the frames below: a
call on a completion begins at a point that relies on nothing, above the reference
that it holds.
-/

namespace Eventual

/-- What a step leads to stands above any frames that wait and hold the references. -/
def Start.Sound (w : World) (held : List Ref) (s : Start) : Prop :=
  ∀ stack, heldBy stack = held → Waiting w stack →
    Machine.Sound { world := s.world, stack := s.frames ++ stack, control := s.control }

namespace Start

variable {w w' : World} {held : List Ref}

theorem Sound.of_plain {s : Start} (evolves : World.Evolves held w s.world)
    (plain : ∀ frame ∈ s.frames, frame.Plain) : s.Sound w held := by
  rintro stack rfl waiting
  exact .of_evolves plain waiting evolves

theorem Sound.of_nil {s : Start} (evolves : World.Evolves held w s.world) (h : s.frames = []) :
    s.Sound w held :=
  .of_plain evolves (by simp [h])

theorem Sound.read (evolves : World.Evolves held w w') (cell : Cell Value) (r : Reading) :
    (read w' cell r).Sound w held := by
  cases r with
  | state | flags | result => exact .of_nil evolves rfl
  | demand s =>
    unfold Start.read
    dsimp only
    split
    next => exact .of_nil evolves rfl
    next => exact .of_nil evolves rfl

/-- A frame that relies on no more than being held may start above the reference that
holds its completion. -/
theorem Sound.of_holding {frame : Frame} {frames : List Frame} {r : Ref} {c : CompletionId}
    {control : Control} (evolves : World.Evolves held w w') (alive : w'.Alive c)
    (hr : r.entity? = some (.completion c)) (plain : ∀ frame ∈ frames, frame.Plain)
    (hframe : frame.held? = none)
    (acts : ∀ below, Holds (heldBy below) c → frame.Acts w' (heldBy below)) :
    Start.Sound w held { world := w', frames := frame :: frames ++ [.holding r], control } := by
  rintro stack rfl waiting
  have sound : w'.Sound (r :: heldBy stack) := by
    apply evolves.sound.mono
    rintro c' ⟨r', hr', hc'⟩
    rcases List.mem_cons.1 hr' with rfl | hold
    · obtain rfl : c = c' := by simpa [hr] using hc'
      exact alive
    · exact evolves.sound.held ⟨r', hold, hc'⟩
  have below : heldBy (frames ++ .holding r :: stack) = r :: heldBy stack := heldBy_append plain
  have holds : Holds (heldBy (frames ++ .holding r :: stack)) c := by
    rw [below]
    exact ⟨r, List.mem_cons_self .., hr⟩
  have waiting' : Waiting w' (.holding r :: stack) := ⟨trivial, waiting.evolve evolves⟩
  have started : Machine.Sound ⟨w', frame :: (frames ++ .holding r :: stack), control⟩ :=
    .of_acts (waiting'.append plain) (.refl (below ▸ sound)) hframe (acts _ holds)
  simpa using started

theorem Sound.engage {r : Ref} {c : CompletionId} {awaiting : List Frame}
    (evolves : World.Evolves held w w') (alive : w'.Alive c)
    (hr : r.entity? = some (.completion c)) (call : Site.Call Value Item WakerId)
    (plain : ∀ frame ∈ awaiting, frame.Plain) :
    (engage w' r c call awaiting).Sound w held :=
  .of_holding evolves alive hr plain rfl fun _ holds => ⟨holds, call.start_fits _⟩
theorem Sound.probe (evolves : World.Evolves held w w') (body : Script) (q : Nat) (t : Test)
    (v : Value) :
    (run w' [.body "" body, .probing q t 1 v, .holding (.queue q)]).Sound w held := by
  rintro stack rfl waiting
  have sound : w'.Sound (.queue q :: heldBy stack) := by
    apply evolves.sound.mono
    rintro c ⟨r, hr, hc⟩
    rcases List.mem_cons.1 hr with rfl | hold
    · cases hc
    · exact evolves.sound.held ⟨r, hold, hc⟩
  exact ⟨sound, trivial, trivial, trivial, waiting.evolve evolves⟩

end Start

/-! ## Quiet beginnings -/

section Quiet

open World

variable {w : World} {held : List Ref}

theorem quiet_append (w : World) (q : Nat) (v : Value) : Quiet w (w.append q v) := by
  have set : Quiet w (w.setQueue q ((w.queue q).append v)) := .of_eq rfl rfl rfl
  exact set.trans (.record (fun _ _ => ⟨rfl, rfl⟩) _)

theorem quiet_take? (w : World) (q : Nat) : Quiet w (w.take? q).1 := .of_eq rfl rfl rfl

theorem quiet_takeAll (w : World) (q fuel : Nat) : Quiet w (w.takeAll q fuel).1 := by
  induction fuel generalizing w with
  | zero => exact .refl w
  | succ fuel ih =>
    have taken := quiet_take? w q
    unfold World.takeAll
    split
    next w₁ h => exact (congrArg Prod.fst h) ▸ taken
    next w₁ v h =>
      rw [h] at taken
      have consumed : Quiet w₁ (w₁.record (.consumed q v)) := .record (fun _ _ => ⟨rfl, rfl⟩) w₁
      exact (taken.trans consumed).trans (ih _)

theorem quiet_appendAll (w : World) (q : Nat) (ns : List Int) :
    Quiet w (ns.foldl (fun w n => w.append q { data := .int n }) w) := by
  induction ns generalizing w with
  | nil => exact .refl w
  | cons n ns ih => exact (quiet_append w q _).trans (ih _)

theorem beginCell_sound (sound : w.Sound held) (i : Nat) (op : CellOp) :
    (beginCell w i op).Sound w held := by
  cases op with
  | tryCommit o =>
    refine .of_nil (Quiet.evolves ?_ sound) rfl
    have offered : Quiet w (w.record (.offered (.cell i) o)) :=
      .record (fun _ _ => ⟨rfl, rfl⟩) w
    have set : Quiet (w.record (.offered (.cell i) o))
        ((w.record (.offered (.cell i) o)).setCell i ((w.cell i).tryCommit o).1) :=
      .of_eq rfl rfl rfl
    exact (offered.trans set).trans
      (.record (fun _ _ => by split <;> exact ⟨rfl, rfl⟩) _)
  | read r => exact .read (.refl sound) (w.cell i) r
  | describe _ | faulty _ => exact .of_nil (.refl sound) rfl

theorem beginQueue_sound (sound : w.Sound held) (q : Nat) (op : QueueOp) :
    (beginQueue w q op).Sound w held := by
  have taken := quiet_take? w q
  cases op with
  | append v => exact .of_nil ((quiet_append w q v).evolves sound) rfl
  | appendRange start stop => exact .of_nil ((quiet_appendAll w q _).evolves sound) rfl
  | popAll =>
    have quiet := quiet_takeAll w q (w.queue q).length
    unfold beginQueue
    dsimp only
    generalize w.takeAll q (w.queue q).length = r at quiet
    exact .of_nil (quiet.evolves sound) rfl
  | isEmpty | length | describe _ | faulty _ => exact .of_nil (.refl sound) rfl
  | pop =>
    unfold beginQueue
    dsimp only
    split
    next w₁ h =>
      rw [h] at taken
      exact .of_nil (taken.evolves sound) rfl
    next w₁ v h =>
      rw [h] at taken
      have consumed : Quiet w₁ (w₁.record (.consumed q v)) := .record (fun _ _ => ⟨rfl, rfl⟩) w₁
      exact .of_nil ((taken.trans consumed).evolves sound) rfl
  | popMatching body t =>
    unfold beginQueue
    dsimp only
    split
    next w₁ h =>
      rw [h] at taken
      exact .of_nil (taken.evolves sound) rfl
    next w₁ v h =>
      rw [h] at taken
      exact .probe (taken.evolves sound) body q t v

theorem beginCompletion_sound (sound : w.Sound held) {c : CompletionId} (alive : w.Alive c)
    (op : CompletionOp) : (beginCompletion w c op).Sound w held := by
  have offered : ∀ o, Quiet w (w.record (.offered (.completion c) o)) :=
    fun o => .record (fun _ _ => ⟨rfl, rfl⟩) w
  cases op with
  | tryCommit o =>
    exact .engage ((offered o).evolves sound) ((offered o).alive alive) rfl _
      (List.forall_mem_nil _)
  | complete o =>
    exact .engage ((offered o).evolves sound) ((offered o).alive alive) rfl _
      (List.forall_mem_nil _)
  | register k cb => exact .engage (.refl sound) alive rfl _ (List.forall_mem_nil _)
  | registerCountdown k name n => exact .engage (.refl sound) alive rfl _ (List.forall_mem_nil _)
  | drain s => exact .engage (.refl sound) alive rfl _ (List.forall_mem_nil _)
  | registerWaker handle =>
    unfold beginCompletion
    dsimp only
    split
    next => exact .engage (.refl sound) alive rfl _ (List.forall_mem_nil _)
    next => exact .of_nil (.refl sound) rfl
  | read r => exact .read (.refl sound) _ r
  | describe _ | faulty _ => exact .of_nil (.refl sound) rfl

end Quiet

/-! ## Beginnings that bind handles -/

section Binding

open World

variable {w w' : World} {held : List Ref} {c : CompletionId}

theorem evolves_bindPromise (sound : w.Sound held) (handle : String) (alive : w.Alive c)
    (ctx : Context) : Evolves held w (w.bindPromise held handle c ctx) := by
  have watched : Quiet w w.addWatch.1 := .of_eq rfl rfl rfl
  refine (watched.evolves sound).trans fun sound' => .bind sound' handle ?_
  intro c' hc'
  obtain rfl : c = c' := by simpa [Ref.entity?] using hc'
  exact watched.alive alive

/-- A completion may come into being and be bound to a handle at once. -/
theorem evolves_addCompletion (sound : w.Sound held) : Evolves held w (w.addCompletion {}).1 := by
  refine .addCompletion sound .empty nofun fun k => ?_
  rcases k with (_ | _) | _ | _ <;> rfl

theorem evolves_addCompletion_bind (sound : w.Sound held) (handle : String) {r : Ref}
    (hr : r.entity? = some (.completion w.completions.size)) :
    Evolves held w ((w.addCompletion {}).1.bind held handle r) := by
  refine (evolves_addCompletion sound).trans fun sound' => .bind sound' handle ?_
  intro c' hc'
  obtain rfl : w.completions.size = c' := by simpa [hr] using hc'
  exact alive_addCompletion w {}

theorem beginContext_sound (sound : w.Sound held) (ctx : Context) (op : ContextOp) :
    (beginContext w held ctx op).Sound w held := by
  cases op with
  | clone handle => exact .of_nil (.bind sound handle nofun) rfl
  | profile | describe _ | faulty _ => exact .of_nil (.refl sound) rfl

theorem beginDeferred_sound (sound : w.Sound held) (alive : w.Alive c) (ctx : Context)
    (op : DeferredOp) : (beginDeferred w held c ctx op).Sound w held := by
  cases op with
  | settle o =>
    have offered : Quiet w (w.record (.offered (.completion c) o)) :=
      .record (fun _ _ => ⟨rfl, rfl⟩) w
    exact .engage (offered.evolves sound) (offered.alive alive) rfl _
      (by simp [Frame.Plain])
  | promise handle => exact .of_nil (evolves_bindPromise sound handle alive ctx) rfl
  | clone handle =>
    refine .of_nil (.bind sound handle ?_) rfl
    intro c' hc'
    obtain rfl : c = c' := by simpa [Ref.entity?] using hc'
    exact alive
  | profile | describe _ | faulty _ => exact .of_nil (.refl sound) rfl

theorem beginPromise_sound (sound : w.Sound held) (alive : w.Alive c) (ctx : Context)
    (watch : WatchId) (op : PromiseOp) : (beginPromise w held c ctx watch op).Sound w held := by
  cases op with
  | register k cb => exact .engage (.refl sound) alive rfl _ (List.forall_mem_nil _)
  | chained first onFirst onOther always =>
    exact .of_holding (.refl sound) alive rfl (List.forall_mem_nil _) rfl fun _ holds => holds
  | flags => exact .read (.refl sound) _ _
  | clone handle => exact .of_nil (evolves_bindPromise sound handle alive ctx) rfl
  | poll handle =>
    unfold beginPromise
    dsimp only
    split
    next =>
      split
      next => exact .of_nil (.refl sound) rfl
      next => exact .engage (.refl sound) alive rfl _ (List.forall_mem_nil _)
    next => exact .of_nil (.refl sound) rfl
  | blockOn =>
    unfold beginPromise
    dsimp only
    split
    next o _ =>
      have copied : Quiet w (w.record (.copied c o)) := .record (fun _ _ => ⟨rfl, rfl⟩) w
      exact .of_nil (copied.evolves sound) rfl
    next => exact .of_nil (.refl sound) rfl
  | profile | describe _ | faulty _ => exact .of_nil (.refl sound) rfl

/-- A pending completion may be settled at once. -/
theorem evolves_settle (sound : w.Sound held) (alive : w.Alive c)
    (pending : (w.completion c).cell.state = .pending) (o : Outcome Value) :
    Evolves held w (w.setCompletion c
      { w.completion c with cell := ((w.completion c).cell.tryCommit o).1 }) := by
  have exact := sound.exact alive.getElem?
  refine .update sound alive rfl rfl (fun _ _ _ => rfl) (fun _ _ _ => rfl) ?_ ?_
  · refine ⟨exact.atRest, ?_, exact.order, ?_⟩
    · intro s hs
      rw [Cell.tryCommit_of_pending pending] at hs ⊢
      obtain rfl : o.side = s := by simpa using hs
      exact ⟨o.value, rfl⟩
    · intro k hk
      obtain ⟨s, hs, -⟩ := exact.settled k hk
      cases pending.symm.trans hs
  · intro p fits claims
    exact fits.of_unsettled claims (by simp [pending]) _

theorem beginMaker_sound (sound : w.Sound held) (handle : String) (m : Maker) :
    (beginMaker w held handle m).Sound w held := by
  cases m with
  | cell =>
    have added : Quiet w (w.addCell {}).1 := .of_eq rfl rfl rfl
    exact .of_nil ((added.evolves sound).trans fun sound' => .bind sound' handle nofun) rfl
  | queue =>
    have added : Quiet w (w.addQueue {}).1 := .of_eq rfl rfl rfl
    exact .of_nil ((added.evolves sound).trans fun sound' => .bind sound' handle nofun) rfl
  | waker body =>
    have added : Quiet w (w.addWaker { name := handle, body }).1 := .of_eq rfl rfl rfl
    exact .of_nil ((added.evolves sound).trans fun sound' => .bind sound' handle nofun) rfl
  | completion => exact .of_nil (evolves_addCompletion_bind sound handle rfl) rfl
  | context settings => exact .of_nil (.bind sound handle nofun) rfl
  | deferred context =>
    cases context with
    | none => exact .of_nil (evolves_addCompletion_bind sound handle rfl) rfl
    | some name =>
      unfold beginMaker
      dsimp only
      split
      next ctx _ => exact .of_nil (evolves_addCompletion_bind sound handle rfl) rfl
      next => exact .of_nil (.refl sound) rfl
  | pair promise =>
    have deferred := evolves_addCompletion_bind sound handle
      (r := .deferred w.completions.size {}) rfl
    refine .of_nil (deferred.trans fun sound' => evolves_bindPromise sound' promise ?_ {}) rfl
    exact sound'.bound (binds_bind _ held handle rfl)
  | settled o =>
    let w₁ := (w.addCompletion {}).1
    let c := w.completions.size
    let w₂ := w₁.record (.offered (.completion c) o)
    let w₃ := w₂.setCompletion c
      { w₂.completion c with cell := ((w₂.completion c).cell.tryCommit o).1 }
    let w₄ := w₃.record (.settled (.completion c) o)
    have offered : Quiet w₁ w₂ := .record (fun _ _ => ⟨rfl, rfl⟩) w₁
    have noted : Quiet w₃ w₄ := .record (fun _ _ => ⟨rfl, rfl⟩) w₃
    have alive : w₂.Alive c := offered.alive (alive_addCompletion w {})
    have pending : (w₂.completion c).cell.state = .pending := by
      rw [offered.completion,
        completion_eq ((getElem?_addCompletion w {} c).trans (if_pos rfl))]
    have settled : Evolves held w w₄ :=
      (((evolves_addCompletion sound).trans offered.evolves).trans
        fun sound₂ => evolves_settle sound₂ alive pending o).trans noted.evolves
    have alive₄ : w₄.Alive c := noted.alive (alive.setCompletion _)
    exact .of_nil (settled.trans fun sound₄ => evolves_bindPromise sound₄ handle alive₄ {}) rfl

end Binding

/-- Whatever a step asks for, what it leads to stands above the frames that wait. -/
theorem begin_sound {w : World} {held : List Ref} (sound : w.Sound held) (act : Act) :
    (begin w held act).Sound w held := by
  cases act with
  | attempt body => exact .of_plain (.refl sound) (by simp [begin, Start.run, Frame.Plain])
  | iterate count body => exact .of_plain (.refl sound) (by simp [begin, Start.run, Frame.Plain])
  | create handle m => exact beginMaker_sound sound handle m
  | faulty _ | raise _ | compare _ _ _ | onUnknown _ => exact .of_nil (.refl sound) rfl
  | discard handle =>
    unfold begin
    dsimp only
    split
    next w' h => exact .of_nil (.unbind sound h) rfl
    next => exact .of_nil (.refl sound) rfl
  | onCell handle op =>
    unfold begin
    dsimp only
    split
    next i _ => exact beginCell_sound sound i op
    next => exact .of_nil (.refl sound) rfl
  | onQueue handle op =>
    unfold begin
    dsimp only
    split
    next q _ => exact beginQueue_sound sound q op
    next => exact .of_nil (.refl sound) rfl
  | onCompletion handle op =>
    unfold begin
    dsimp only
    split
    next c h => exact beginCompletion_sound sound (sound.bound (World.binds_of_lookup h rfl)) op
    next => exact .of_nil (.refl sound) rfl
  | onContext handle op =>
    unfold begin
    dsimp only
    split
    next ctx _ => exact beginContext_sound sound ctx op
    next => exact .of_nil (.refl sound) rfl
  | onDeferred handle op =>
    unfold begin
    dsimp only
    split
    next c ctx h =>
      exact beginDeferred_sound sound (sound.bound (World.binds_of_lookup h rfl)) ctx op
    next => exact .of_nil (.refl sound) rfl
  | onPromise handle op =>
    unfold begin
    dsimp only
    split
    next c ctx watch h =>
      exact beginPromise_sound sound (sound.bound (World.binds_of_lookup h rfl)) ctx watch op
    next => exact .of_nil (.refl sound) rfl

end Eventual
