import Eventual.Machine.Begin
import Eventual.Proofs.World.Evolution

/-!
# Stacks that stand on their world

A frame that drives a call on a completion has seen something of its cell, and some
call below it holds the completion. While code above it runs, a driving frame waits
in the middle of a drain: it has not claimed the cell, and what it has seen of it
stays true whatever that code does, `Waiting.evolve`. Only the topmost frame may be
in the middle of a commit.

A machine is `Sound` when its world is sound for what its frames hold and every
frame stands as it should. Beginning a step keeps a machine sound.
-/

namespace Eventual

/-- What a frame relies on while code above it runs. -/
def Frame.Waits (w : World) (held : List Ref) : Frame → Prop
  | .driving c here => Holds held c ∧ here.Fits (w.completion c).cell ∧ ¬ here.Claims
  | .chaining c _ _ => Holds held c
  | _ => True

/-- What the topmost frame relies on. -/
def Frame.Acts (w : World) (held : List Ref) : Frame → Prop
  | .driving c here => Holds held c ∧ here.Fits (w.completion c).cell
  | .chaining c _ _ => Holds held c
  | _ => True

/-- A frame that neither works on a completion nor holds anything. -/
def Frame.Plain : Frame → Prop
  | .driving _ _ | .chaining _ _ _ | .holding _ => False
  | _ => True

/-- All frames are as they should be while code above them runs. -/
def Waiting (w : World) : List Frame → Prop
  | [] => True
  | frame :: below => frame.Waits w (heldBy below) ∧ Waiting w below

/-- The topmost frame is as it should be, and so are those below it. -/
def Standing (w : World) : List Frame → Prop
  | [] => True
  | frame :: below => frame.Acts w (heldBy below) ∧ Waiting w below

/-- A moment of a run at which the accounts of the world are right and every frame
finds what it relies on. -/
structure Machine.Sound (m : Machine) : Prop where
  world : m.world.Sound (heldBy m.stack)
  stack : Standing m.world m.stack

section Stacks

variable {w w' : World} {held : List Ref} {frame : Frame} {frames stack : List Frame}
  {control : Control}

theorem Frame.Waits.acts (h : frame.Waits w held) : frame.Acts w held := by
  cases frame with
  | driving c here => exact ⟨h.1, h.2.1⟩
  | chaining c ctx rest => exact h
  | _ => trivial

theorem Waiting.standing (h : Waiting w stack) : Standing w stack := by
  cases stack with
  | nil => trivial
  | cons frame below => exact ⟨h.1.acts, h.2⟩

theorem Frame.Plain.waits (h : frame.Plain) (w : World) (held : List Ref) :
    frame.Waits w held := by
  cases frame with
  | driving c here => exact h.elim
  | chaining c ctx rest => exact h.elim
  | _ => trivial

theorem Frame.Plain.held? (h : frame.Plain) : frame.held? = none := by
  cases frame with
  | holding r => exact h.elim
  | _ => rfl

theorem heldBy_append (h : ∀ frame ∈ frames, frame.Plain) :
    heldBy (frames ++ stack) = heldBy stack := by
  have none : frames.filterMap Frame.held? = [] :=
    List.filterMap_eq_nil_iff.2 fun frame hframe => (h frame hframe).held?
  simp [heldBy, none]

/-- A plain frame may wait above the frames that wait. -/
theorem Waiting.cons (h : Waiting w stack) (frame : Frame) (plain : frame.Plain) :
    Waiting w (frame :: stack) :=
  ⟨plain.waits .., h⟩

theorem Waiting.append (h : Waiting w stack) (plain : ∀ frame ∈ frames, frame.Plain) :
    Waiting w (frames ++ stack) := by
  induction frames with
  | nil => exact h
  | cons frame frames ih =>
    have rest := ih fun frame' hframe' => plain frame' (List.mem_cons_of_mem _ hframe')
    exact rest.cons frame (plain frame (List.mem_cons_self ..))

theorem World.Evolves.mono {held' : List Ref} (h : World.Evolves held w w')
    (sub : ∀ {c}, Holds held' c → Holds held c) : World.Evolves held' w w' :=
  ⟨h.sound.mono fun hc => h.sound.held (sub hc), fun c hc => h.keeps c (sub hc)⟩

theorem Holds.cons {c : CompletionId} {stack : List Frame} (h : Holds (heldBy stack) c)
    (frame : Frame) : Holds (heldBy (frame :: stack)) c := by
  obtain ⟨r, hr, hc⟩ := h
  obtain ⟨below, hbelow, held⟩ := List.mem_filterMap.1 hr
  exact ⟨r, List.mem_filterMap.2 ⟨below, List.mem_cons_of_mem _ hbelow, held⟩, hc⟩

/-- Whatever the code above does, the frames below find what they rely on. -/
theorem Waiting.evolve (h : Waiting w stack) (evolves : World.Evolves (heldBy stack) w w') :
    Waiting w' stack := by
  induction stack with
  | nil => trivial
  | cons frame below ih =>
    have evolves' := evolves.mono fun hc => hc.cons frame
    refine ⟨?_, ih h.2 evolves'⟩
    cases frame with
    | driving c here =>
      obtain ⟨holds, fits, claims⟩ := h.1
      exact ⟨holds, evolves'.keeps c holds here fits claims, claims⟩
    | chaining c ctx rest => exact h.1
    | _ => trivial

namespace Machine

/-- The frames below go on, perhaps above them some plain ones. -/
theorem Sound.of_evolves (plain : ∀ frame ∈ frames, frame.Plain) (waiting : Waiting w stack)
    (evolves : World.Evolves (heldBy stack) w w') :
    Sound { world := w', stack := frames ++ stack, control } := by
  constructor
  · rw [heldBy_append plain]
    exact evolves.sound
  · exact ((waiting.evolve evolves).append plain).standing

/-- The frames below go on. -/
theorem Sound.below (waiting : Waiting w stack)
    (evolves : World.Evolves (heldBy stack) w w') :
    Sound { world := w', stack, control } :=
  of_evolves (List.forall_mem_nil _) waiting evolves

/-- A plain frame goes on above the frames below. -/
theorem Sound.push (waiting : Waiting w stack)
    (evolves : World.Evolves (heldBy stack) w w') (plain : frame.Plain) :
    Sound { world := w', stack := frame :: stack, control } :=
  of_evolves (List.forall_mem_singleton.2 plain) waiting evolves

/-- A frame that may do more goes on above the frames below. -/
theorem Sound.of_acts (waiting : Waiting w stack)
    (evolves : World.Evolves (heldBy stack) w w') (held : frame.held? = none)
    (acts : frame.Acts w' (heldBy stack)) :
    Sound { world := w', stack := frame :: stack, control } := by
  refine ⟨?_, acts, waiting.evolve evolves⟩
  rw [show heldBy (frame :: stack) = heldBy stack from List.filterMap_cons_none held]
  exact evolves.sound

end Machine

end Stacks

end Eventual
