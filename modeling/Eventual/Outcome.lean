/-!
# Outcomes

A promise settles on one of two sides, success or failure, and carries one
value with it. Everything that treats the two sides alike takes the side as an
argument, so exchanging them is `Side.other` and nothing else.
-/

namespace Eventual

/-- The two ways to settle. -/
inductive Side where
  | success
  | failure
  deriving DecidableEq, Inhabited

namespace Side

/-- The opposite side. -/
def other : Side → Side
  | .success => .failure
  | .failure => .success

@[simp] theorem other_other (s : Side) : s.other.other = s := by cases s <;> rfl

@[simp] theorem other_ne (s : Side) : s.other ≠ s := by cases s <;> simp [other]

@[simp] theorem other_inj {s t : Side} : s.other = t.other ↔ s = t := by
  cases s <;> cases t <;> simp [other]

end Side

/-- A value together with the side it settled on. -/
structure Outcome (α : Type) where
  side : Side
  value : α
  deriving DecidableEq, Inhabited

namespace Outcome

variable {α β : Type}

/-- The same outcome over another type of value. -/
def map (f : α → β) (o : Outcome α) : Outcome β := ⟨o.side, f o.value⟩

/-- The same value on the opposite side. -/
def flip (o : Outcome α) : Outcome α := ⟨o.side.other, o.value⟩

@[simp] theorem side_map (f : α → β) (o : Outcome α) : (o.map f).side = o.side := rfl

@[simp] theorem value_map (f : α → β) (o : Outcome α) : (o.map f).value = f o.value := rfl

@[simp] theorem side_flip (o : Outcome α) : o.flip.side = o.side.other := rfl

@[simp] theorem value_flip (o : Outcome α) : o.flip.value = o.value := rfl

@[simp] theorem flip_flip (o : Outcome α) : o.flip.flip = o := by simp [flip]

end Outcome

end Eventual
