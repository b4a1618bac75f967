/-!
# Data and tracked values

The payloads that promises, cells and queues carry. `Data` is plain: null,
booleans, 64-bit integers, text and lists of data. A `Value` is data that may
also be tracked under a name, in which case the moment it is dropped, and each
time it is copied, shows in the history of a run. A copy carries the same data
and is not tracked.
-/

namespace Eventual

/-- Plain data. -/
inductive Data where
  | null
  | bool (b : Bool)
  | int (n : Int)
  | text (s : String)
  | list (items : List Data)
  deriving Inhabited

namespace Data

mutual

/-- Whether two pieces of data are equal, decided by walking both. -/
def decEq : (a b : Data) → Decidable (a = b)
  | .null, .null => isTrue rfl
  | .bool a, .bool b => decidable_of_iff (a = b) (by simp)
  | .int a, .int b => decidable_of_iff (a = b) (by simp)
  | .text a, .text b => decidable_of_iff (a = b) (by simp)
  | .list as, .list bs =>
    match decEqList as bs with
    | isTrue h => isTrue (by rw [h])
    | isFalse h => isFalse (by simpa using h)
  | .null, .bool _ | .null, .int _ | .null, .text _ | .null, .list _
  | .bool _, .null | .bool _, .int _ | .bool _, .text _ | .bool _, .list _
  | .int _, .null | .int _, .bool _ | .int _, .text _ | .int _, .list _
  | .text _, .null | .text _, .bool _ | .text _, .int _ | .text _, .list _
  | .list _, .null | .list _, .bool _ | .list _, .int _ | .list _, .text _ =>
    isFalse (by simp)

/-- Whether two lists of data are equal, item by item. -/
def decEqList : (as bs : List Data) → Decidable (as = bs)
  | [], [] => isTrue rfl
  | [], _ :: _ | _ :: _, [] => isFalse (by simp)
  | a :: as, b :: bs =>
    match decEq a b, decEqList as bs with
    | isTrue h, isTrue hs => isTrue (by rw [h, hs])
    | isFalse h, _ => isFalse (by simp [h])
    | _, isFalse hs => isFalse (by simp [hs])

end

instance : DecidableEq Data := decEq

/-- The integers that data can hold: those of 64 bits, with a sign. -/
def int? (n : Int) : Option Data :=
  if -Int.pow 2 63 ≤ n ∧ n < Int.pow 2 63 then some (.int n) else none

theorem int?_eq_some_iff {n : Int} {d : Data} :
    int? n = some d ↔ d = .int n ∧ -Int.pow 2 63 ≤ n ∧ n < Int.pow 2 63 := by
  unfold int?
  split
  next h => exact ⟨fun e => ⟨(Option.some.inj e).symm, h⟩, fun e => by rw [e.1]⟩
  next h => exact ⟨fun e => by simp at e, fun e => absurd e.2 h⟩

end Data

/-- Data that may be tracked under a name. -/
structure Value where
  data : Data
  tracked : Option String := none
  deriving DecidableEq, Inhabited

end Eventual
