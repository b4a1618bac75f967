import Eventual.Proofs.Machine.Moves
import Eventual.Proofs.World.Watches

/-!
# Whom a watch belongs to

A machine mentions a watch together with a completion where a handle refers to a promise, where a
call is about the watch, and where its relay has been registered. Every step keeps these mentions
`Allotted`: a watch is mentioned with one completion only, and under one handle at most.

Watches change with calls on completions only, and only by a poll through the handle of the watch,
or when its relay is called, which takes the waker out of it.
-/

namespace Eventual

open World

/-- The site when an item runs: a relay has taken the waker out of its watch. -/
def Site.running (s : Site Value Item WakerId) : Item → Site Value Item WakerId
  | .relay x => (s.takeWaker x).1
  | .callback _ _ | .countdown _ _ _ | .waker _ => s

/-- The site after what an action asks for. -/
def Site.acted {π ρ : Type} (s : Site Value Item WakerId) :
    Action Value Item π ρ → Site Value Item WakerId
  | .call _ x _ _ => s.running x
  | .goto _ | .notice _ _ | .done _ | .refused _ _ => s

theorem Site.watch_running (s : Site Value Item WakerId) (item : Item) (x : WatchId) :
    (s.running item).watch x
      = match item with
        | .relay y => if y = x then { s.watch x with stored := none } else s.watch x
        | .callback _ _ | .countdown _ _ _ | .waker _ => s.watch x := by
  cases item with
  | relay y =>
    show (s.updateWatch y _).watch x = ite ..
    rw [watch_updateWatch]
    by_cases same : y = x
    · subst same
      by_cases inside : y < s.watches.size
      · simp [inside]
      · simp [inside, watch]
    · simp [same]
  | callback | countdown | waker => rfl

namespace Machine

variable {m m' : Machine} {w w' : World} {frame : Frame} {below : List Frame} {c d : CompletionId}
  {x y : WatchId} {issued : Option (String × Ref)}

/-! ## What a call does to watches -/

theorem watches_wake (w : World) (i : WakerId) :
    (w.wake i).1.watches = w.watches ∧ (w.wake i).1.wakers.size = w.wakers.size := by
  unfold World.wake
  split
  next => exact ⟨rfl, rfl⟩
  next => exact ⟨rfl, Array.size_setIfInBounds⟩

theorem issues_wake (w : World) (i : WakerId) : Issues none w (w.wake i).1 := by
  obtain ⟨watches, wakers⟩ := watches_wake w i
  refine ⟨watches, Nat.le_of_eq wakers.symm, nofun, fun entry hentry => .inl ?_⟩
  rwa [handles_wake] at hentry

theorem watches_call (w : World) (below : List Frame) (c : CompletionId) (item : Item) :
    (call w below c item).world.watches = ((w.site c).running item).watches ∧
    (call w below c item).world.wakers.size = w.wakers.size := by
  cases item with
  | callback cb guard => cases guard <;> exact ⟨rfl, rfl⟩
  | countdown k name n => cases n <;> exact ⟨rfl, rfl⟩
  | waker i => exact watches_wake w i
  | relay x =>
    unfold call
    dsimp only
    split
    next s h => exact ⟨congrArg (fun next => next.1.watches) h.symm, rfl⟩
    next s i h =>
      obtain ⟨watches, wakers⟩ := watches_wake (w.setSite c s) i
      exact ⟨watches.trans (congrArg (fun next => next.1.watches) h.symm), wakers⟩

section Drive

variable {here : Site.Point Value Item WakerId} {s : Site Value Item WakerId}
  {action : Action Value Item (Site.Point Value Item WakerId) (Site.Answer Value)}

/-- The watches after a step of a call. -/
theorem watches_drive (below : List Frame) (h : (w.site c).step here = (s, action)) :
    (drive w below c here).world.watches = (s.acted action).watches ∧
    (drive w below c here).world.wakers.size = w.wakers.size := by
  unfold drive
  simp only [h]
  cases action with
  | call k item arg p =>
    obtain ⟨watches, wakers⟩ :=
      watches_call ((w.setSite c s).record (.started c k item arg)) (.driving c p :: below) c item
    refine ⟨watches.trans ?_, wakers⟩
    cases item <;> rfl
  | notice n p => cases n <;> exact ⟨rfl, rfl⟩
  | done a => rcases a with (_ | _ | _) | _ | _ <;> exact ⟨rfl, rfl⟩
  | goto p | refused side st => exact ⟨rfl, rfl⟩

theorem watch_drive (below : List Frame) (h : (w.site c).step here = (s, action)) (x : WatchId) :
    (drive w below c here).world.watch x = (s.acted action).watch x := by
  rw [World.watch, (watches_drive below h).1, Site.watch]

end Drive

/-! ## Mentions -/

/-- The watch is mentioned together with the completion. -/
inductive Mentions (m : Machine) (c : CompletionId) (x : WatchId) : Prop
  | bound {entry : String × Ref} : entry ∈ m.world.handles → entry.2.promise? = some (c, x) →
      Mentions m c x
  | calls {frame : Frame} : frame ∈ m.stack → frame.About c x → Mentions m c x
  | registered {k : Kind} : .relay x ∈ m.world.registered c k → Mentions m c x

/-- What a step does about mentions: those of a promise that is issued are new. -/
structure Gains (issued : Option (String × Ref)) (m m' : Machine) : Prop where
  watches : m'.world.watches.size = m.world.watches.size + issued.toList.length
  wakers : m.world.wakers.size ≤ m'.world.wakers.size
  fresh : ∀ entry, issued = some entry → ∃ c, entry.2.promise? = some (c, m.world.watches.size)
  handles : ∀ entry ∈ m'.world.handles, entry ∈ m.world.handles ∨ issued = some entry ∨
    (entry.2.promise? = none ∧ ∀ i, entry.2 = .waker i → i < m'.world.wakers.size)
  mentions : ∀ c x, m'.Mentions c x → m.Mentions c x ∨
    ∃ entry, issued = some entry ∧ entry.2.promise? = some (c, x)

/-- A step that does not go on with a call on a completion: what it does about promises, and the
frames that it leads to. -/
structure Heeds (w : World) (frame : Frame) (below : List Frame) (m' : Machine) : Prop where
  world : ∃ issued, Issues issued w m'.world
  stack : ∃ new, m'.stack = new ++ below ∧ ∀ f ∈ new, ∀ c x, f.About c x → frame.About c x ∨
    ∃ entry ∈ w.handles, entry.2.promise? = some (c, x)

section Frames

/-- The frame goes, and at most one frame that is about no watch comes in its place. -/
theorem Heeds.mute (new : List Frame) {control : Control} (world : Issues none w w')
    (mute : ∀ f ∈ new, ∀ c x, ¬ f.About c x) :
    Heeds w frame below { world := w', stack := new ++ below, control } :=
  ⟨⟨none, world⟩, new, rfl, fun f hf _ _ about => absurd about (mute f hf _ _)⟩

theorem Heeds.hand (world : Issues none w w') (r : Reply) :
    Heeds w frame below (hand w' below r) :=
  .mute [] world (List.forall_mem_nil _)

theorem Heeds.raise (world : Issues none w w') (p : Panic) :
    Heeds w frame below (raise w' below p) :=
  .mute [] world (List.forall_mem_nil _)

/-- The frame stays. -/
theorem Heeds.stays {control : Control} (world : Issues none w w') :
    Heeds w frame below { world := w', stack := frame :: below, control } :=
  ⟨⟨none, world⟩, [frame], rfl, fun _ hf _ _ about => .inl (List.mem_singleton.1 hf ▸ about)⟩

theorem Heeds.enter {f : Frame} (mute : ∀ c x, ¬ f.About c x) (act : Act) :
    Heeds w frame below (enter w (f :: below) act) := by
  have issues := @begin_issues w (heldBy (f :: below)) act
  refine ⟨issues.world, (begin w (heldBy (f :: below)) act).frames ++ [f],
    List.append_cons .., fun f' hf' c x about => .inr ?_⟩
  obtain hf' | hf' := List.mem_append.1 hf'
  · exact issues.about f' hf' c x about
  · obtain rfl := List.mem_singleton.1 hf'
    exact absurd about (mute c x)

theorem probe_heeds (q : Nat) (t : Test) (n : Nat) (v : Value) :
    Heeds w frame below (probe w below q t n v) := by
  unfold probe
  split
  next => exact .raise (.record w _) _
  next => exact .hand ((Issues.record w _).trans (.record _ _)) _
  next =>
    have taken : Issues none w
        (((w.record (.tested v false)).record (.discarded q v)).take? q).1 := .of_eq rfl rfl rfl
    split
    next w' h =>
      rw [h] at taken
      exact .hand taken _
    next w' v' h =>
      rw [h] at taken
      exact .mute [_] taken (List.forall_mem_singleton.2 fun _ _ => not_false)

/-- What a panic carries is dropped above a frame that is about no watch, or above none. -/
theorem dispose_heeds (world : Issues none w w') (again : List Frame)
    (mute : ∀ f ∈ again, ∀ c x, ¬ f.About c x) (p : Panic) :
    Heeds w frame below (dispose w' (again ++ below) p) := by
  unfold dispose
  split
  next i _ =>
    exact .mute (.body "" (w'.wake i).2 :: again) (world.trans (issues_wake w' i))
      (List.forall_mem_cons.2 ⟨fun _ _ => not_false, mute⟩)
  next => exact .mute again world mute

theorem contain_heeds (c : CompletionId) (ctx : Context) (p : Panic) :
    Heeds w frame below (contain w below c ctx p) := by
  unfold contain
  dsimp only
  split
  next => exact dispose_heeds (.record w _) [] (List.forall_mem_nil _) p
  next h _ =>
    exact .mute [.body "" h.body, .dropping p] (.of_eq rfl rfl rfl) (List.forall_mem_cons.2
      ⟨fun _ _ => not_false, List.forall_mem_singleton.2 fun _ _ => not_false⟩)

theorem resume_heeds (idle : ∀ c here, frame ≠ .driving c here) :
    Heeds w frame below (resume w below frame) := by
  have mute : ∀ {f : Frame}, (∀ c x, ¬ f.About c x) → ∀ f' ∈ [f], ∀ c x, ¬ f'.About c x :=
    fun mute => List.forall_mem_singleton.2 mute
  cases frame with
  | session watched rest =>
    cases rest with
    | nil => exact .hand (.refl w) _
    | cons step rest => exact .enter (f := .session watched rest) (fun _ _ => not_false) _
  | body label rest =>
    cases rest with
    | nil => exact .hand (.refl w) _
    | cons step rest => exact .enter (f := .body step.label rest) (fun _ _ => not_false) _
  | repeating count script =>
    cases count with
    | zero => exact .hand (.refl w) _
    | succ n =>
      exact .mute [_, _] (.refl w)
        (List.forall_mem_cons.2 ⟨fun _ _ => not_false, mute fun _ _ => not_false⟩)
  | driving c here => exact absurd rfl (idle c here)
  | chaining c ctx rest =>
    cases rest with
    | nil => exact .hand (.refl w) _
    | cons entry rest =>
      exact .mute [_, _] (.refl w) (List.forall_mem_cons.2
        ⟨fun _ _ about => absurd about.2 (not_about_register nofun), mute fun _ _ => not_false⟩)
  | probing q t n v => exact probe_heeds q t n v
  | catching | holding _ | settling _ _ | guarding _ _ | dropping _ | ending _ =>
    exact .hand (.refl w) _

theorem receive_heeds (r : Reply) : Heeds w frame below (receive w below r frame) := by
  cases frame with
  | session watched rest | body label rest =>
    exact .mute [_] (.record w _) (List.forall_mem_singleton.2 fun _ _ => not_false)
  | holding ref => exact .hand (.release w _ ref) _
  | settling c s =>
    simp only [receive]
    split
    next => exact .hand (.record w _) _
    next => exact .hand (.refl w) _
  | ending label => exact .hand (.record w _) _
  | probing q t n v => exact probe_heeds q t n v
  | catching | guarding _ _ => exact .hand (.refl w) _
  | dropping payload => exact dispose_heeds (.refl w) [] (List.forall_mem_nil _) payload
  | repeating _ _ | driving _ _ | chaining _ _ _ => exact .stays (.refl w)

theorem reject_heeds (f : Fault) : Heeds w frame below (reject w below f frame) := by
  cases frame with
  | session watched rest | body label rest =>
    exact .mute [_] (.record w _) (List.forall_mem_singleton.2 fun _ _ => not_false)
  | _ => exact .stays (.refl w)

theorem unwind_heeds (p : Panic) : Heeds w frame below (unwind w below p frame) := by
  cases frame with
  | session watched rest =>
    exact .mute [_] (.record w _) (List.forall_mem_singleton.2 fun _ _ => not_false)
  | catching => exact .hand (.refl w) _
  | holding ref => exact .raise (.release w _ ref) _
  | guarding c ctx =>
    simp only [unwind]
    split
    next => exact .raise (.refl w) _
    next => exact contain_heeds c ctx p
  | dropping payload =>
    simp only [unwind]
    split
    next => exact .raise (.refl w) _
    next =>
      exact dispose_heeds (.refl w) [.repeating 1 [.mk "" (.raise p)]]
        (List.forall_mem_singleton.2 fun _ _ => not_false) payload
  | probing q t n v => exact .raise (.record w _) _
  | chaining c ctx rest => exact .raise (.record w _) _
  | body _ _ | repeating _ _ | driving _ _ | settling _ _ | ending _ => exact .raise (.refl w) _

end Frames

/-- A step that goes on with no call gains the mentions of a promise that it issues. -/
theorem Heeds.gains (heeds : Heeds m.world frame below m') (hstack : m.stack = frame :: below)
    (registered : ∀ c k, m'.world.registered c k = m.world.registered c k) :
    ∃ issued, Issues issued m.world m'.world ∧ Gains issued m m' := by
  obtain ⟨⟨issued, issues⟩, new, hstack', about⟩ := heeds
  refine ⟨issued, issues, ?_, issues.wakers, issues.fresh, issues.handles, ?_⟩
  · rw [issues.watches]
    cases issued with
    | none => rfl
    | some entry => exact Array.size_push _
  · rintro c x (⟨hentry, refers⟩ | ⟨hframe, concerns⟩ | waited)
    · obtain before | issues | ⟨apart, -⟩ := issues.handles _ hentry
      · exact .inl (.bound before refers)
      · exact .inr ⟨_, issues, refers⟩
      · cases refers.symm.trans apart
    · rw [hstack'] at hframe
      obtain hnew | hbelow := List.mem_append.1 hframe
      · obtain before | ⟨entry, hentry, refers⟩ := about _ hnew c x concerns
        · exact .inl (.calls (hstack ▸ List.mem_cons_self ..) before)
        · exact .inl (.bound hentry refers)
      · exact .inl (.calls (hstack ▸ List.mem_cons_of_mem _ hbelow) concerns)
    · rw [registered] at waited
      exact .inl (.registered waited)

/-- What an item puts onto the stack is about no watch. -/
theorem Item.Runs.mute {item : Item} {frames : List Frame} {control : Control}
    (h : item.Runs c frames control) : ∀ f ∈ frames, ∀ d x, ¬ f.About d x := by
  cases h with
  | bare | waker | relay | last => exact List.forall_mem_singleton.2 fun _ _ => not_false
  | guarded =>
    exact List.forall_mem_cons.2
      ⟨fun _ _ => not_false, List.forall_mem_singleton.2 fun _ _ => not_false⟩
  | again =>
    exact List.forall_mem_cons.2 ⟨fun _ _ about => absurd about.2 (not_about_register nofun),
      List.forall_mem_singleton.2 fun _ _ => not_false⟩
  | idle => exact List.forall_mem_nil _

/-- A step of a call mentions nothing new. -/
theorem gains_drive {here : Site.Point Value Item WakerId} (alive : m.world.Alive c)
    (hstack : m.stack = .driving c here :: below) :
    Gains none m (drive m.world below c here) := by
  rcases h : (m.world.site c).step here with ⟨s, action⟩
  have works := drive_works_of_step alive below h
  obtain ⟨watches, wakers⟩ := watches_drive below h
  have handles := handles_drive m.world below c here
  have top : .driving c here ∈ m.stack := hstack ▸ List.mem_cons_self ..
  have lower : ∀ f ∈ below, f ∈ m.stack := fun f hf => hstack ▸ List.mem_cons_of_mem _ hf
  refine ⟨?_, Nat.le_of_eq wakers.symm, nofun, fun entry hentry => .inl (handles ▸ hentry), ?_⟩
  · rw [watches]
    refine Eq.trans ?_ works.does.size_eq
    cases action with
    | call k item arg p =>
      cases item with
      | relay x => exact Array.size_modify ..
      | callback | countdown | waker => rfl
    | goto | notice | done | refused => rfl
  · rintro d x (⟨hentry, refers⟩ | ⟨hframe, concerns⟩ | @⟨k, waited⟩)
    · exact .inl (.bound (handles ▸ hentry) refers)
    · refine .inl ?_
      have next : ∀ p, action.next? = some p → (Frame.driving c p).About d x → m.Mentions d x :=
        fun p hp about => .calls top ⟨about.1, works.does.about hp about.2⟩
      have leads := works.leads
      have runs := works.runs
      generalize drive m.world below c here = m' at hframe leads runs
      obtain ⟨w', stack', control'⟩ := m'
      cases leads with
      | goto | notice =>
        obtain rfl | hbelow := List.mem_cons.1 hframe
        · exact next _ rfl concerns
        · exact .calls (lower _ hbelow) concerns
      | done | refused => exact .calls (lower _ hframe) concerns
      | call =>
        obtain ⟨frames, runs, hstack'⟩ := runs _ _ _ _ rfl
        rw [hstack'] at hframe
        obtain hnew | hframe := List.mem_append.1 hframe
        · exact absurd concerns (Item.Runs.mute runs _ hnew d x)
        · obtain rfl | hbelow := List.mem_cons.1 hframe
          · exact next _ rfl concerns
          · exact .calls (lower _ hbelow) concerns
    · rw [works.registered] at waited
      obtain before | now := List.mem_append.1 waited
      · exact .inl (.registered before)
      · split at now
        next same =>
          exact .inl (.calls top ⟨same, .append (works.does.of_registered now)⟩)
        next => cases now

theorem step_heeds (hstack : m.stack = frame :: below)
    (idle : ¬ (m.control = .resume ∧ ∃ c here, frame = .driving c here)) :
    Heeds m.world frame below m.step := by
  obtain ⟨w, stack, control⟩ := m
  obtain rfl : stack = frame :: below := hstack
  cases control with
  | resume => exact resume_heeds fun c here same => idle ⟨rfl, c, here, same⟩
  | answer r => exact receive_heeds r
  | faulty f => exact reject_heeds f
  | unwind p => exact unwind_heeds p

/-- What a step gains, and that it gains nothing else. -/
theorem Sound.gains (sound : m.Sound) : ∃ issued, Gains issued m m.step := by
  cases hstack : m.stack with
  | nil =>
    rw [step_of_isOver (List.isEmpty_iff.2 hstack)]
    exact ⟨none, rfl, Nat.le_refl _, nofun, fun _ hentry => .inl hentry, fun _ _ => .inl⟩
  | cons frame below =>
    obtain ⟨idles, idle⟩ | ⟨c, here, -, -, hresume, rfl, -⟩ := sound.step_cases hstack
    · obtain ⟨issued, -, gains⟩ := (step_heeds hstack idle).gains hstack idles.silent.registered
      exact ⟨issued, gains⟩
    · rw [step_of_resume hstack hresume]
      exact ⟨none, gains_drive (sound.of_driving (hstack ▸ List.mem_cons_self ..)).1 hstack⟩

/-! ## Watches are allotted -/

/-- Every watch that is mentioned exists, and belongs to one completion and to one handle; and the
wakers that handles refer to exist. -/
structure Allotted (m : Machine) : Prop where
  inside : ∀ {c x}, m.Mentions c x → x < m.world.watches.size
  one : ∀ {c d x}, m.Mentions c x → m.Mentions d x → c = d
  named : ∀ {entry entry' c d x}, entry ∈ m.world.handles → entry' ∈ m.world.handles →
    entry.2.promise? = some (c, x) → entry'.2.promise? = some (d, x) → entry.1 = entry'.1
  wakers : ∀ entry ∈ m.world.handles, ∀ i, entry.2 = .waker i → i < m.world.wakers.size

theorem Allotted.of_gains (h : m.Allotted) (gains : Gains issued m m') : m'.Allotted := by
  have grown : m.world.watches.size ≤ m'.world.watches.size := by
    rw [gains.watches]
    exact Nat.le_add_right _ _
  have new : ∀ {entry c x}, issued = some entry → entry.2.promise? = some (c, x) →
      x = m.world.watches.size := by
    intro entry c x issues refers
    obtain ⟨c', fresh⟩ := gains.fresh entry issues
    exact (Prod.mk.inj (Option.some.inj (refers.symm.trans fresh))).2
  constructor
  · intro c x mentions
    obtain before | ⟨entry, rfl, refers⟩ := gains.mentions c x mentions
    · exact Nat.lt_of_lt_of_le (h.inside before) grown
    · rw [new rfl refers, gains.watches]
      exact Nat.lt_succ_self _
  · intro c d x mentions mentions'
    obtain before | ⟨entry, issues, refers⟩ := gains.mentions c x mentions
    · obtain before' | ⟨entry, issues, refers⟩ := gains.mentions d x mentions'
      · exact h.one before before'
      · exact absurd (h.inside before) (new issues refers ▸ Nat.lt_irrefl _)
    · obtain before' | ⟨entry', issues', refers'⟩ := gains.mentions d x mentions'
      · exact absurd (h.inside before') (new issues refers ▸ Nat.lt_irrefl _)
      · obtain rfl := Option.some.inj (issues.symm.trans issues')
        exact (Prod.mk.inj (Option.some.inj (refers.symm.trans refers'))).1
  · intro entry entry' c d x hentry hentry' refers refers'
    have origin : ∀ {entry c}, entry ∈ m'.world.handles → entry.2.promise? = some (c, x) →
        entry ∈ m.world.handles ∨ issued = some entry := by
      intro entry c hentry refers
      obtain before | issues | ⟨apart, -⟩ := gains.handles entry hentry
      · exact .inl before
      · exact .inr issues
      · cases refers.symm.trans apart
    obtain before | issues := origin hentry refers
    · obtain before' | issues := origin hentry' refers'
      · exact h.named before before' refers refers'
      · exact absurd (h.inside (.bound before refers)) (new issues refers' ▸ Nat.lt_irrefl _)
    · obtain before' | issues' := origin hentry' refers'
      · exact absurd (h.inside (.bound before' refers')) (new issues refers ▸ Nat.lt_irrefl _)
      · exact congrArg Prod.fst (Option.some.inj (issues.symm.trans issues'))
  · intro entry hentry i refers
    obtain before | issues | ⟨-, real⟩ := gains.handles entry hentry
    · exact Nat.lt_of_lt_of_le (h.wakers entry before i refers) gains.wakers
    · obtain ⟨c, fresh⟩ := gains.fresh entry issues
      rw [refers] at fresh
      cases fresh
    · exact real i refers

section Runs

variable {watched : List String} {script : Script} {n j : Nat}

theorem moment_allotted (watched : List String) (script : Script) (n : Nat) :
    (moment watched script n).Allotted := by
  induction n with
  | zero =>
    have nothing : ∀ c x, ¬ (moment watched script 0).Mentions c x := by
      rintro c x (⟨hentry, -⟩ | ⟨hframe, concerns⟩ | waited)
      · cases hentry
      · obtain rfl := List.mem_singleton.1 hframe
        exact concerns
      · cases waited
    exact ⟨fun mentions => absurd mentions (nothing _ _),
      fun mentions => absurd mentions (nothing _ _), nofun, nofun⟩
  | succ n ih =>
    rw [moment_succ]
    obtain ⟨issued, gains⟩ := (moment_sound watched script n).gains
    exact ih.of_gains gains

/-- Watches and wakers are never forgotten. -/
theorem watches_le (hnj : n ≤ j) :
    (moment watched script n).world.watches.size ≤ (moment watched script j).world.watches.size ∧
    (moment watched script n).world.wakers.size ≤ (moment watched script j).world.wakers.size := by
  induction hnj with
  | refl => exact ⟨Nat.le_refl _, Nat.le_refl _⟩
  | @step j _ ih =>
    rw [Nat.succ_eq_add_one, moment_succ]
    obtain ⟨issued, gains⟩ := (moment_sound watched script j).gains
    exact ⟨Nat.le_trans ih.1 (gains.watches ▸ Nat.le_add_right _ _),
      Nat.le_trans ih.2 gains.wakers⟩

/-- A handle to a promise at a later moment is one at an earlier moment already, or its watch is
newer. -/
theorem handle_or_newer (hnj : n ≤ j) {entry : String × Ref}
    (hentry : entry ∈ (moment watched script j).world.handles)
    (refers : entry.2.promise? = some (c, x)) :
    entry ∈ (moment watched script n).world.handles ∨
      (moment watched script n).world.watches.size ≤ x := by
  induction hnj with
  | refl => exact .inl hentry
  | @step j hnj ih =>
    rw [Nat.succ_eq_add_one, moment_succ] at hentry
    obtain ⟨issued, gains⟩ := (moment_sound watched script j).gains
    obtain before | issues | ⟨apart, -⟩ := gains.handles entry hentry
    · exact ih before
    · obtain ⟨c', fresh⟩ := gains.fresh entry issues
      obtain rfl := (Prod.mk.inj (Option.some.inj (refers.symm.trans fresh))).2
      exact .inr (watches_le hnj).1
    · cases refers.symm.trans apart

/-- Two handles to promises that have the same watch, at whichever moments, are one, and the
promises are of one completion. -/
theorem one_handle {h h' : String} {ctx ctx' : Context}
    (refers : (moment watched script n).world.lookup h = some (.promise c ctx x))
    (refers' : (moment watched script j).world.lookup h' = some (.promise d ctx' x)) :
    h = h' ∧ c = d := by
  have earlier : ∀ {n j h h' c d ctx ctx'}, n ≤ j →
      (moment watched script n).world.lookup h = some (.promise c ctx x) →
      (moment watched script j).world.lookup h' = some (.promise d ctx' x) → h = h' ∧ c = d := by
    intro n j h h' c d ctx ctx' hnj refers refers'
    have allotted := moment_allotted watched script n
    have mentions : (moment watched script n).Mentions c x := .bound (mem_of_lookup refers) rfl
    obtain before | newer := handle_or_newer hnj (mem_of_lookup refers') rfl
    · exact ⟨allotted.named (mem_of_lookup refers) before rfl rfl,
        allotted.one mentions (.bound before rfl)⟩
    · exact absurd (allotted.inside mentions) (Nat.not_lt_of_le newer)
  obtain hnj | hjn := Nat.le_total n j
  · exact earlier hnj refers refers'
  · obtain ⟨rfl, rfl⟩ := earlier hjn refers' refers
    exact ⟨rfl, rfl⟩

end Runs

end Machine

end Eventual
