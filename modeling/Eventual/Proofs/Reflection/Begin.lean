import Eventual.Proofs.Reflection.Worlds

/-!
# Beginning reflected steps

A step that begins in one world and the reflected step that begins in the reflected world lead to
reflected worlds and put reflected frames onto the stack.
-/

namespace Eventual

open World

variable {ρ : Relabelling} {w w' : World}

/-- What the topmost frame is told is reflected, up to descriptions. -/
inductive Control.Reflects : Control → Control → Prop
  | resume : Reflects .resume .resume
  | answer {r r' : Reply} : r.Reflects r' → Reflects (.answer r) (.answer r')
  | faulty (f : Fault) : Reflects (.faulty f) (.faulty f)
  | unwind (p : Panic) : Reflects (.unwind p) (.unwind p.flip)

/-- What the beginnings of two steps lead to is reflected. -/
structure Start.Reflects (ρ : Relabelling) (s s' : Start) : Prop where
  world : s.world.Reflects ρ s'.world
  frames : s'.frames = s.frames.map (Frame.flip ρ)
  control : s.control.Reflects s'.control

namespace Start

theorem Reflects.reply (h : w.Reflects ρ w') {r r' : Reply} (same : r.Reflects r') :
    Reflects ρ (Start.reply w r) (Start.reply w' r') :=
  ⟨h, rfl, .answer same⟩

/-- Both steps answer with a description. -/
theorem Reflects.text (h : w.Reflects ρ w') (s s' : String) :
    Reflects ρ (Start.reply w (.text s)) (Start.reply w' (.text s')) :=
  .reply h (.text s s')

/-- Both steps answer what is the same on both sides. -/
theorem Reflects.same (h : w.Reflects ρ w') (r : Reply) :
    Reflects ρ (Start.reply w r) (Start.reply w' r.flip) :=
  .reply h (.flip r)

theorem Reflects.fault (h : w.Reflects ρ w') (f : Fault) :
    Reflects ρ (Start.fault w f) (Start.fault w' f) :=
  ⟨h, rfl, .faulty f⟩

theorem Reflects.panic (h : w.Reflects ρ w') (p : Panic) :
    Reflects ρ (Start.panic w p) (Start.panic w' p.flip) :=
  ⟨h, rfl, .unwind p⟩

theorem Reflects.run (h : w.Reflects ρ w') {frames frames' : List Frame}
    (same : frames' = frames.map (Frame.flip ρ)) :
    Reflects ρ (Start.run w frames) (Start.run w' frames') :=
  ⟨h, same, .resume⟩

theorem Reflects.engage (h : w.Reflects ρ w') (r : Ref) (c : CompletionId)
    (call : Site.Call Value Item WakerId) (awaiting : List Frame) :
    Reflects ρ (Start.engage w r c call awaiting)
      (Start.engage w' (r.flip ρ) c (call.flip (Item.flip ρ))
        (awaiting.map (Frame.flip ρ))) := by
  refine .run h ?_
  simp [Frame.flip]

theorem Reflects.read (h : w.Reflects ρ w') (cell : Cell Value) (r : Reading) :
    Reflects ρ (Start.read w cell r) (Start.read w' cell.flip r.flip) := by
  cases r with
  | state => exact .same h (.state cell.state)
  | flags =>
    have flags := Reflects.same h
      (.flags (cell.isOn .success) (cell.isOn .failure) cell.isTerminal)
    have onSuccess : cell.flip.isOn .success = cell.isOn .failure := cell.isOn_flip .failure
    have onFailure : cell.flip.isOn .failure = cell.isOn .success := cell.isOn_flip .success
    simp only [Start.read, Reading.flip, onSuccess, onFailure, Cell.isTerminal_flip]
    exact flags
  | result =>
    have result := Reflects.same h (.outcome (cell.result.map (Outcome.map Value.data)))
    simp only [Start.read, Reading.flip, Cell.result_flip, Option.map_map]
    simp only [Reply.flip, Option.map_map] at result
    exact result
  | demand s =>
    simp only [Start.read, Reading.flip, Cell.demand_flip]
    cases cell.demand s with
    | ok v => exact .same h (.datum v.data)
    | error st => exact .panic h (.refused s st)

end Start

open Start

section Families

variable {held : List Ref}

theorem beginCell_reflects (h : w.Reflects ρ w') (i : Nat) (op : CellOp) :
    (beginCell w i op).Reflects ρ (beginCell w' i op.flip) := by
  cases op with
  | tryCommit o =>
    simp only [beginCell, CellOp.flip, h.cell, Cell.tryCommit_flip]
    have set := (h.note (.offered (.cell i) o)).setCell i ((w.cell i).tryCommit o).1
    refine .same (set.record ?_) (.flag ((w.cell i).tryCommit o).2)
    split <;> exact .flip _
  | read r =>
    simp only [beginCell, CellOp.flip, h.cell]
    exact .read h (w.cell i) r
  | describe block => exact .text h _ _
  | faulty f => exact .fault h f

theorem appendAll_reflects (h : w.Reflects ρ w') (q : Nat) (ns : List Int) :
    (ns.foldl (fun w n => w.append q { data := .int n }) w).Reflects ρ
      (ns.foldl (fun w n => w.append q { data := .int n }) w') := by
  induction ns generalizing w w' with
  | nil => exact h
  | cons n ns ih => exact ih (h.append q _)

theorem beginQueue_reflects (h : w.Reflects ρ w') (q : Nat) (op : QueueOp) :
    (beginQueue w q op).Reflects ρ (beginQueue w' q (op.flip ρ)) := by
  cases op with
  | append v => exact .same (h.append q v) .unit
  | appendRange start stop => exact .same (appendAll_reflects h q _) .unit
  | pop =>
    obtain ⟨w₁', taken', same⟩ := h.take? q
    simp only [beginQueue, QueueOp.flip, taken']
    generalize w.take? q = taken at same
    rcases taken with ⟨w₁, _ | v⟩
    · exact .same same (.popped none)
    · exact .same (same.note (.consumed q v)) (.popped (some v.data))
  | popAll =>
    have length : (w'.queue q).length = (w.queue q).length := by rw [h.queue]
    obtain ⟨w₁', taken', same⟩ := h.takeAll q (w.queue q).length
    simp only [beginQueue, QueueOp.flip, length, taken']
    exact .same same (.items _)
  | popMatching body t =>
    obtain ⟨w₁', taken', same⟩ := h.take? q
    simp only [beginQueue, QueueOp.flip, taken']
    generalize w.take? q = taken at same
    rcases taken with ⟨w₁, _ | v⟩
    · exact .same same (.popped none)
    · exact .run same (by simp [Frame.flip, ρ.label_empty, Ref.flip])
  | isEmpty =>
    simp only [beginQueue, QueueOp.flip, h.queue]
    exact .same h (.flag (w.queue q).isEmpty)
  | length =>
    simp only [beginQueue, QueueOp.flip, h.queue]
    exact .same h (.count (w.queue q).length)
  | describe block => exact .text h _ _
  | faulty f => exact .fault h f

theorem beginCompletion_reflects (h : w.Reflects ρ w') (c : CompletionId) (op : CompletionOp) :
    (beginCompletion w c op).Reflects ρ (beginCompletion w' c (op.flip ρ)) := by
  cases op with
  | tryCommit o => exact .engage (h.note (.offered (.completion c) o)) (.completion c) c _ []
  | complete o => exact .engage (h.note (.offered (.completion c) o)) (.completion c) c _ []
  | read r =>
    simp only [beginCompletion, CompletionOp.flip, (h.completion c).cell]
    exact .read h _ r
  | register k cb => exact .engage h (.completion c) c (.direct (.register k _)) []
  | registerCountdown k name n => exact .engage h (.completion c) c (.direct (.register k _)) []
  | registerWaker handle =>
    simp only [beginCompletion, CompletionOp.flip, h.lookup]
    cases w.lookup handle with
    | none => exact .fault h .handle
    | some r =>
      cases r with
      | waker i => exact .engage h (.completion c) c (.direct (.register .waker (.waker i))) []
      | _ => exact .fault h .handle
  | drain s => exact .engage h (.completion c) c (.direct (.drain s)) []
  | describe block => exact .text h _ _
  | faulty f => exact .fault h f

theorem beginContext_reflects (h : w.Reflects ρ w') (ctx : Context) (op : ContextOp) :
    (beginContext w held ctx op).Reflects ρ
      (beginContext w' (held.map (Ref.flip ρ)) (ctx.flip ρ) op) := by
  cases op with
  | profile => exact .same h (.profile ctx.name ctx.policy)
  | clone handle => exact .same (h.bind held handle (.context ctx)) .unit
  | describe block => exact .text h _ _
  | faulty f => exact .fault h f

theorem beginDeferred_reflects (h : w.Reflects ρ w') (c : CompletionId) (ctx : Context)
    (op : DeferredOp) :
    (beginDeferred w held c ctx op).Reflects ρ
      (beginDeferred w' (held.map (Ref.flip ρ)) c (ctx.flip ρ) op.flip) := by
  cases op with
  | settle o =>
    exact .engage (h.note (.offered (.completion c) o)) (.deferred c ctx) c _ [.settling c o.side]
  | promise handle => exact .same (h.bindPromise held handle c ctx) .unit
  | clone handle => exact .same (h.bind held handle (.deferred c ctx)) .unit
  | profile => exact .same h (.profile ctx.name ctx.policy)
  | describe block => exact .text h _ _
  | faulty f => exact .fault h f

theorem isBusy_map (held : List Ref) (watch : WatchId) :
    isBusy (held.map (Ref.flip ρ)) watch = isBusy held watch := by
  unfold isBusy
  rw [List.any_map]
  congr 1
  funext r
  cases r <;> rfl

theorem beginPromise_reflects (h : w.Reflects ρ w') (c : CompletionId) (ctx : Context)
    (watch : WatchId) (op : PromiseOp) :
    (beginPromise w held c ctx watch op).Reflects ρ
      (beginPromise w' (held.map (Ref.flip ρ)) c (ctx.flip ρ) watch (op.flip ρ)) := by
  cases op with
  | register k cb =>
    exact .engage h (.promise c ctx watch) c (.direct (.register k (.callback cb (some ctx)))) []
  | chained first onFirst onOther always => exact .run h rfl
  | flags =>
    simp only [beginPromise, PromiseOp.flip, (h.completion c).cell]
    exact .read h _ .flags
  | clone handle => exact .same (h.bindPromise held handle c ctx) .unit
  | poll handle =>
    simp only [beginPromise, PromiseOp.flip, h.lookup, isBusy_map]
    cases w.lookup handle with
    | none => exact .fault h .handle
    | some r =>
      cases r with
      | waker i =>
        dsimp only [Option.map_some, Ref.flip]
        split
        · exact .fault h .busy
        · exact .engage h (.promise c ctx watch) c
            (.poll { watch, waker := i, relay := .relay watch }) []
      | _ => exact .fault h .handle
  | blockOn =>
    simp only [beginPromise, PromiseOp.flip, (h.completion c).cell, Cell.result_flip]
    cases (w.completion c).cell.result with
    | none => exact .same h .wouldBlock
    | some o => exact .same (h.note (.copied c o)) (.ready (o.map Value.data))
  | profile => exact .same h (.profile ctx.name ctx.policy)
  | describe block => exact .text h _ _
  | faulty f => exact .fault h f

theorem beginMaker_reflects (h : w.Reflects ρ w') (handle : String) (m : Maker) :
    (beginMaker w held handle m).Reflects ρ
      (beginMaker w' (held.map (Ref.flip ρ)) handle (m.flip ρ)) := by
  have added := h.addCompletion (@Completion.Reflects.empty Value Item (Item.flip ρ))
  cases m with
  | cell =>
    have added : (w.addCell {}).1.Reflects ρ (w'.addCell {}).1 := (h.addCell {}).1
    have index : (w'.addCell {}).2 = (w.addCell {}).2 := (h.addCell {}).2
    simp only [beginMaker, Maker.flip, index]
    exact .same (added.bind held handle (.cell _)) .unit
  | queue =>
    obtain ⟨added, index⟩ := h.addQueue {}
    simp only [beginMaker, Maker.flip, index]
    exact .same (added.bind held handle (.queue _)) .unit
  | completion =>
    simp only [beginMaker, Maker.flip, added.2]
    exact .same (added.1.bind held handle (.completion _)) .unit
  | waker body =>
    have added : (w.addWaker { name := handle, body }).1.Reflects ρ
        (w'.addWaker { name := handle, body := flipSteps ρ body }).1 := (h.addWaker _).1
    have index : (w'.addWaker { name := handle, body := flipSteps ρ body }).2
        = (w.addWaker { name := handle, body }).2 := (h.addWaker { name := handle, body }).2
    simp only [beginMaker, Maker.flip, index]
    exact .same (added.bind held handle (.waker _)) .unit
  | context settings =>
    simp only [beginMaker, Maker.flip, Context.ofSettings_flip]
    exact .same (h.bind held handle (.context (.ofSettings settings))) .unit
  | deferred context =>
    cases context with
    | none =>
      simp only [beginMaker, Maker.flip, added.2]
      exact .same (added.1.bind held handle (.deferred _ {})) .unit
    | some name =>
      simp only [beginMaker, Maker.flip, h.lookup]
      cases w.lookup name with
      | none => exact .fault h .handle
      | some r =>
        cases r with
        | context ctx =>
          simp only [Option.map_some, Ref.flip, added.2]
          exact .same (added.1.bind held handle (.deferred _ ctx)) .unit
        | _ => exact .fault h .handle
  | pair promise =>
    simp only [beginMaker, Maker.flip, added.2]
    exact .same ((added.1.bind held handle (.deferred _ {})).bindPromise held promise _ {}) .unit
  | settled o =>
    simp only [beginMaker, Maker.flip, added.2]
    generalize (w.addCompletion {}).2 = c
    have fresh := added.1.completion c
    have committed : Completion.Reflects (Item.flip ρ)
        { (w.addCompletion {}).1.completion c with
          cell := (((w.addCompletion {}).1.completion c).cell.tryCommit o).1 }
        { (w'.addCompletion {}).1.completion c with
          cell := (((w'.addCompletion {}).1.completion c).cell.tryCommit o.flip).1 } := by
      rw [fresh.cell, Cell.tryCommit_flip]
      exact fresh.withCell _
    exact .same ((((added.1.note (.offered (.completion c) o)).setCompletion c committed).note
      (.settled (.completion c) o)).bindPromise held handle c {}) .unit

theorem begin_reflects (h : w.Reflects ρ w') (act : Act) :
    (begin w held act).Reflects ρ (begin w' (held.map (Ref.flip ρ)) (act.flip ρ)) := by
  cases act with
  | faulty f => exact .fault h f
  | raise p => exact .panic h p
  | attempt body => exact .run h (by simp [Frame.flip, ρ.label_empty])
  | iterate count body => exact .run h rfl
  | discard handle =>
    have removed := h.unbind? held handle
    simp only [begin, Act.flip]
    generalize w.unbind? held handle = left at removed
    generalize w'.unbind? (held.map (Ref.flip ρ)) handle = left' at removed
    cases removed with
    | none => exact .fault h .handle
    | some same => exact .same same .unit
  | compare e other block => exact .same h (compareErrors e other block)
  | create handle m => exact beginMaker_reflects h handle m
  | onCell handle op =>
    simp only [begin, Act.flip, h.lookup]
    cases w.lookup handle with
    | none => exact .fault h .handle
    | some r =>
      cases r with
      | cell i => exact beginCell_reflects h i op
      | _ => exact .fault h .handle
  | onQueue handle op =>
    simp only [begin, Act.flip, h.lookup]
    cases w.lookup handle with
    | none => exact .fault h .handle
    | some r =>
      cases r with
      | queue q => exact beginQueue_reflects h q op
      | _ => exact .fault h .handle
  | onCompletion handle op =>
    simp only [begin, Act.flip, h.lookup]
    cases w.lookup handle with
    | none => exact .fault h .handle
    | some r =>
      cases r with
      | completion c => exact beginCompletion_reflects h c op
      | _ => exact .fault h .handle
  | onContext handle op =>
    simp only [begin, Act.flip, h.lookup]
    cases w.lookup handle with
    | none => exact .fault h .handle
    | some r =>
      cases r with
      | context ctx => exact beginContext_reflects h ctx op
      | _ => exact .fault h .handle
  | onDeferred handle op =>
    simp only [begin, Act.flip, h.lookup]
    cases w.lookup handle with
    | none => exact .fault h .handle
    | some r =>
      cases r with
      | deferred c ctx => exact beginDeferred_reflects h c ctx op
      | _ => exact .fault h .handle
  | onPromise handle op =>
    simp only [begin, Act.flip, h.lookup]
    cases w.lookup handle with
    | none => exact .fault h .handle
    | some r =>
      cases r with
      | promise c ctx watch => exact beginPromise_reflects h c ctx watch op
      | _ => exact .fault h .handle
  | onUnknown handle => exact .fault h .handle

end Families

end Eventual
