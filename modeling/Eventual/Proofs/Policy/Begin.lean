import Eventual.Proofs.Policy.Worlds

/-!
# Beginning steps without policies

A step that begins in one world and the stripped step that begins in the stripped world lead to a
world and the stripped one, and put frames and the stripped ones onto the stack.
-/

namespace Eventual

open World

variable {w w' : World}

/-- What the beginnings of two steps lead to is the same without policies. -/
structure Start.Stripped (s s' : Start) : Prop where
  world : s.world.Stripped s'.world
  frames : s'.frames = s.frames.map Frame.strip
  control : s'.control.veil = s.control.veil

namespace Start

theorem Stripped.reply (h : w.Stripped w') {r r' : Reply} (same : r'.veil = r.veil) :
    Stripped (Start.reply w r) (Start.reply w' r') :=
  ⟨h, rfl, congrArg Control.answer same⟩

theorem Stripped.same (h : w.Stripped w') (r : Reply) :
    Stripped (Start.reply w r) (Start.reply w' r) :=
  .reply h rfl

theorem Stripped.text (h : w.Stripped w') (s s' : String) :
    Stripped (Start.reply w (.text s)) (Start.reply w' (.text s')) :=
  .reply h rfl

theorem Stripped.fault (h : w.Stripped w') (f : Fault) :
    Stripped (Start.fault w f) (Start.fault w' f) :=
  ⟨h, rfl, rfl⟩

theorem Stripped.panic (h : w.Stripped w') (p : Panic) :
    Stripped (Start.panic w p) (Start.panic w' p) :=
  ⟨h, rfl, rfl⟩

theorem Stripped.run (h : w.Stripped w') {frames frames' : List Frame}
    (same : frames' = frames.map Frame.strip) :
    Stripped (Start.run w frames) (Start.run w' frames') :=
  ⟨h, same, rfl⟩

theorem Stripped.engage (h : w.Stripped w') (r : Ref) (c : CompletionId)
    (call : Site.Call Value Item WakerId) (awaiting : List Frame) :
    Stripped (Start.engage w r c call awaiting)
      (Start.engage w' r.strip c (call.onItems Item.strip) (awaiting.map Frame.strip)) := by
  refine .run h ?_
  simp [Frame.strip]

theorem Stripped.read (h : w.Stripped w') (cell : Cell Value) (r : Reading) :
    Stripped (Start.read w cell r) (Start.read w' cell r) := by
  cases r with
  | demand s =>
    simp only [Start.read]
    cases cell.demand s with
    | ok v => exact .same h (.datum v.data)
    | error st => exact .panic h (.refused s st)
  | state | flags | result => exact .same h _

end Start

open Start

section Families

variable {held : List Ref}

theorem beginCell_stripped (h : w.Stripped w') (i : Nat) (op : CellOp) :
    (beginCell w i op).Stripped (beginCell w' i op) := by
  cases op with
  | tryCommit o =>
    simp only [beginCell, h.cell]
    have set := (h.note (.offered (.cell i) o)).setCell i ((w.cell i).tryCommit o).1
    refine .same (set.record ?_) (.flag ((w.cell i).tryCommit o).2)
    split <;> rfl
  | read r =>
    simp only [beginCell, h.cell]
    exact .read h (w.cell i) r
  | describe block => exact .text h _ _
  | faulty f => exact .fault h f

theorem appendAll_stripped (h : w.Stripped w') (q : Nat) (ns : List Int) :
    (ns.foldl (fun w n => w.append q { data := .int n }) w).Stripped
      (ns.foldl (fun w n => w.append q { data := .int n }) w') := by
  induction ns generalizing w w' with
  | nil => exact h
  | cons n ns ih => exact ih (h.append q _)

theorem beginQueue_stripped (h : w.Stripped w') (q : Nat) (op : QueueOp) :
    (beginQueue w q op).Stripped (beginQueue w' q op.strip) := by
  cases op with
  | append v => exact .same (h.append q v) .unit
  | appendRange start stop => exact .same (appendAll_stripped h q _) .unit
  | pop =>
    obtain ⟨w₁', taken', same⟩ := h.take? q
    simp only [beginQueue, QueueOp.strip, taken']
    generalize w.take? q = taken at same
    rcases taken with ⟨w₁, _ | v⟩
    · exact .same same (.popped none)
    · exact .same (same.note (.consumed q v)) (.popped (some v.data))
  | popAll =>
    obtain ⟨w₁', taken', same⟩ := h.takeAll q (w.queue q).length
    simp only [beginQueue, QueueOp.strip, h.queue, taken']
    exact .same same (.items _)
  | popMatching body t =>
    obtain ⟨w₁', taken', same⟩ := h.take? q
    simp only [beginQueue, QueueOp.strip, taken']
    generalize w.take? q = taken at same
    rcases taken with ⟨w₁, _ | v⟩
    · exact .same same (.popped none)
    · exact .run same (by simp [Frame.strip, Ref.strip])
  | isEmpty =>
    simp only [beginQueue, QueueOp.strip, h.queue]
    exact .same h (.flag (w.queue q).isEmpty)
  | length =>
    simp only [beginQueue, QueueOp.strip, h.queue]
    exact .same h (.count (w.queue q).length)
  | describe block => exact .text h _ _
  | faulty f => exact .fault h f

theorem beginCompletion_stripped (h : w.Stripped w') (c : CompletionId) (op : CompletionOp) :
    (beginCompletion w c op).Stripped (beginCompletion w' c op.strip) := by
  cases op with
  | tryCommit o => exact .engage (h.note (.offered (.completion c) o)) (.completion c) c _ []
  | complete o => exact .engage (h.note (.offered (.completion c) o)) (.completion c) c _ []
  | read r =>
    simp only [beginCompletion, CompletionOp.strip, (h.completion c).cell]
    exact .read h _ r
  | register k cb => exact .engage h (.completion c) c (.direct (.register k _)) []
  | registerCountdown k name n => exact .engage h (.completion c) c (.direct (.register k _)) []
  | registerWaker handle =>
    simp only [beginCompletion, CompletionOp.strip, h.lookup]
    cases w.lookup handle with
    | none => exact .fault h .handle
    | some r =>
      cases r with
      | waker i => exact .engage h (.completion c) c (.direct (.register .waker (.waker i))) []
      | _ => exact .fault h .handle
  | drain s => exact .engage h (.completion c) c (.direct (.drain s)) []
  | describe block => exact .text h _ _
  | faulty f => exact .fault h f

theorem beginContext_stripped (h : w.Stripped w') (ctx : Context) (op : ContextOp) :
    (beginContext w held ctx op).Stripped
      (beginContext w' (held.map Ref.strip) ctx.strip op) := by
  cases op with
  | profile => exact .reply h rfl
  | clone handle => exact .same (h.bind held handle (.context ctx)) .unit
  | describe block => exact .text h _ _
  | faulty f => exact .fault h f

theorem beginDeferred_stripped (h : w.Stripped w') (c : CompletionId) (ctx : Context)
    (op : DeferredOp) :
    (beginDeferred w held c ctx op).Stripped
      (beginDeferred w' (held.map Ref.strip) c ctx.strip op) := by
  cases op with
  | settle o =>
    exact .engage (h.note (.offered (.completion c) o)) (.deferred c ctx) c _ [.settling c o.side]
  | promise handle => exact .same (h.bindPromise held handle c ctx) .unit
  | clone handle => exact .same (h.bind held handle (.deferred c ctx)) .unit
  | profile => exact .reply h rfl
  | describe block => exact .text h _ _
  | faulty f => exact .fault h f

theorem isBusy_strip (held : List Ref) (watch : WatchId) :
    isBusy (held.map Ref.strip) watch = isBusy held watch := by
  unfold isBusy
  rw [List.any_map]
  congr 1
  funext r
  cases r <;> rfl

theorem beginPromise_stripped (h : w.Stripped w') (c : CompletionId) (ctx : Context)
    (watch : WatchId) (op : PromiseOp) :
    (beginPromise w held c ctx watch op).Stripped
      (beginPromise w' (held.map Ref.strip) c ctx.strip watch op.strip) := by
  cases op with
  | register k cb =>
    exact .engage h (.promise c ctx watch) c (.direct (.register k (.callback cb (some ctx)))) []
  | chained first onFirst onOther always => exact .run h rfl
  | flags =>
    simp only [beginPromise, PromiseOp.strip, (h.completion c).cell]
    exact .read h _ .flags
  | clone handle => exact .same (h.bindPromise held handle c ctx) .unit
  | poll handle =>
    simp only [beginPromise, PromiseOp.strip, h.lookup, isBusy_strip]
    cases w.lookup handle with
    | none => exact .fault h .handle
    | some r =>
      cases r with
      | waker i =>
        dsimp only [Option.map_some, Ref.strip]
        split
        · exact .fault h .busy
        · exact .engage h (.promise c ctx watch) c
            (.poll { watch, waker := i, relay := .relay watch }) []
      | _ => exact .fault h .handle
  | blockOn =>
    simp only [beginPromise, PromiseOp.strip, (h.completion c).cell]
    cases (w.completion c).cell.result with
    | none => exact .same h .wouldBlock
    | some o => exact .same (h.note (.copied c o)) (.ready (o.map Value.data))
  | profile => exact .reply h rfl
  | describe block => exact .text h _ _
  | faulty f => exact .fault h f

theorem beginMaker_stripped (h : w.Stripped w') (handle : String) (m : Maker) :
    (beginMaker w held handle m).Stripped
      (beginMaker w' (held.map Ref.strip) handle m.strip) := by
  have added := h.addCompletion (@Completion.Image.empty Value Item Item.strip)
  cases m with
  | cell =>
    obtain ⟨added, index⟩ := h.addCell {}
    simp only [beginMaker, Maker.strip, index]
    exact .same (added.bind held handle (.cell _)) .unit
  | queue =>
    obtain ⟨added, index⟩ := h.addQueue {}
    simp only [beginMaker, Maker.strip, index]
    exact .same (added.bind held handle (.queue _)) .unit
  | completion =>
    simp only [beginMaker, Maker.strip, added.2]
    exact .same (added.1.bind held handle (.completion _)) .unit
  | waker body =>
    have added : (w.addWaker { name := handle, body }).1.Stripped
        (w'.addWaker { name := handle, body := stripSteps body }).1 := (h.addWaker _).1
    have index : (w'.addWaker { name := handle, body := stripSteps body }).2
        = (w.addWaker { name := handle, body }).2 := (h.addWaker { name := handle, body }).2
    simp only [beginMaker, Maker.strip, index]
    exact .same (added.bind held handle (.waker _)) .unit
  | context settings =>
    simp only [beginMaker, Maker.strip, Context.ofSettings_strip]
    exact .same (h.bind held handle (.context (.ofSettings settings))) .unit
  | deferred context =>
    cases context with
    | none =>
      simp only [beginMaker, Maker.strip, added.2]
      exact .same (added.1.bind held handle (.deferred _ {})) .unit
    | some name =>
      simp only [beginMaker, Maker.strip, h.lookup]
      cases w.lookup name with
      | none => exact .fault h .handle
      | some r =>
        cases r with
        | context ctx =>
          simp only [Option.map_some, Ref.strip, added.2]
          exact .same (added.1.bind held handle (.deferred _ ctx)) .unit
        | _ => exact .fault h .handle
  | pair promise =>
    simp only [beginMaker, Maker.strip, added.2]
    exact .same ((added.1.bind held handle (.deferred _ {})).bindPromise held promise _ {}) .unit
  | settled o =>
    simp only [beginMaker, Maker.strip, added.2]
    generalize (w.addCompletion {}).2 = c
    have fresh := added.1.completion c
    have committed : Completion.Image Item.strip
        { (w.addCompletion {}).1.completion c with
          cell := (((w.addCompletion {}).1.completion c).cell.tryCommit o).1 }
        { (w'.addCompletion {}).1.completion c with
          cell := (((w'.addCompletion {}).1.completion c).cell.tryCommit o).1 } := by
      rw [fresh.cell]
      exact fresh.withCell _
    exact .same ((((added.1.note (.offered (.completion c) o)).setCompletion c committed).note
      (.settled (.completion c) o)).bindPromise held handle c {}) .unit

theorem begin_stripped (h : w.Stripped w') (act : Act) :
    (begin w held act).Stripped (begin w' (held.map Ref.strip) act.strip) := by
  cases act with
  | faulty f => exact .fault h f
  | raise p => exact .panic h p
  | attempt body => exact .run h rfl
  | iterate count body => exact .run h rfl
  | discard handle =>
    have removed := h.unbind? held handle
    simp only [begin, Act.strip]
    generalize w.unbind? held handle = left at removed
    generalize w'.unbind? (held.map Ref.strip) handle = left' at removed
    cases removed with
    | none => exact .fault h .handle
    | some same => exact .same same .unit
  | compare e other block => exact .same h (compareErrors e other block)
  | create handle m => exact beginMaker_stripped h handle m
  | onCell handle op =>
    simp only [begin, Act.strip, h.lookup]
    cases w.lookup handle with
    | none => exact .fault h .handle
    | some r =>
      cases r with
      | cell i => exact beginCell_stripped h i op
      | _ => exact .fault h .handle
  | onQueue handle op =>
    simp only [begin, Act.strip, h.lookup]
    cases w.lookup handle with
    | none => exact .fault h .handle
    | some r =>
      cases r with
      | queue q => exact beginQueue_stripped h q op
      | _ => exact .fault h .handle
  | onCompletion handle op =>
    simp only [begin, Act.strip, h.lookup]
    cases w.lookup handle with
    | none => exact .fault h .handle
    | some r =>
      cases r with
      | completion c => exact beginCompletion_stripped h c op
      | _ => exact .fault h .handle
  | onContext handle op =>
    simp only [begin, Act.strip, h.lookup]
    cases w.lookup handle with
    | none => exact .fault h .handle
    | some r =>
      cases r with
      | context ctx => exact beginContext_stripped h ctx op
      | _ => exact .fault h .handle
  | onDeferred handle op =>
    simp only [begin, Act.strip, h.lookup]
    cases w.lookup handle with
    | none => exact .fault h .handle
    | some r =>
      cases r with
      | deferred c ctx => exact beginDeferred_stripped h c ctx op
      | _ => exact .fault h .handle
  | onPromise handle op =>
    simp only [begin, Act.strip, h.lookup]
    cases w.lookup handle with
    | none => exact .fault h .handle
    | some r =>
      cases r with
      | promise c ctx watch => exact beginPromise_stripped h c ctx watch op
      | _ => exact .fault h .handle
  | onUnknown handle => exact .fault h .handle

end Families

end Eventual
