/-!
# Sets of characters

A set of characters as a list of runs of code points in ascending order. The
tables of character properties are written in this form. Main statement: a search
that ends at the first run it does not pass finds every run that holds.
-/

namespace Eventual.Text

/-- Whether runs are apart: none is empty, and each begins beyond the code point
that follows the run before. -/
def areApart : List (Nat × Nat) → Bool
  | [] => true
  | [run] => run.1 ≤ run.2
  | run :: next :: rest => run.1 ≤ run.2 && run.2 + 1 < next.1 && areApart (next :: rest)

/-- Whether a number lies in one of some ascending runs. The search ends at the
first run that does not end below the number. -/
def liesIn (n : Nat) : List (Nat × Nat) → Bool
  | [] => false
  | run :: rest => if run.2 < n then liesIn n rest else run.1 ≤ n

theorem areApart_of_cons {run : Nat × Nat} {rest : List (Nat × Nat)}
    (h : areApart (run :: rest) = true) : areApart rest = true := by
  cases rest with
  | nil => rfl
  | cons next rest =>
    simp only [areApart, Bool.and_eq_true] at h
    exact h.2

/-- In runs that are apart, every later run begins beyond the end of the first. -/
theorem lt_of_areApart {run later : Nat × Nat} {rest : List (Nat × Nat)}
    (h : areApart (run :: rest) = true) (hm : later ∈ rest) : run.2 < later.1 := by
  induction rest generalizing run with
  | nil => cases hm
  | cons next rest ih =>
    have hr := areApart_of_cons h
    simp only [areApart, Bool.and_eq_true, decide_eq_true_eq] at h
    cases hm with
    | head => omega
    | tail _ hm =>
      have hl := ih hr hm
      have hn : next.1 ≤ next.2 := by
        cases rest with
        | nil => simpa [areApart] using hr
        | cons _ _ =>
          simp only [areApart, Bool.and_eq_true, decide_eq_true_eq] at hr
          exact hr.1.1
      omega

/-- The search finds exactly what lies in one of the runs. -/
theorem liesIn_iff {runs : List (Nat × Nat)} (h : areApart runs = true) (n : Nat) :
    liesIn n runs = true ↔ ∃ run ∈ runs, run.1 ≤ n ∧ n ≤ run.2 := by
  induction runs with
  | nil => simp [liesIn]
  | cons run rest ih =>
    unfold liesIn
    split
    · rename_i hlt
      simp only [ih (areApart_of_cons h), List.mem_cons, or_and_right, exists_or, exists_eq_left]
      exact ⟨Or.inr, fun hs => hs.resolve_left (by omega)⟩
    · rename_i hle
      simp only [decide_eq_true_eq, List.mem_cons, or_and_right, exists_or, exists_eq_left]
      constructor
      · exact fun hn => Or.inl ⟨hn, by omega⟩
      · rintro (hs | ⟨later, hm, hs⟩)
        · exact hs.1
        · have := lt_of_areApart h hm
          omega

/-- A set of code points, as runs from a first to a last one. -/
structure CodeSet where
  runs : List (Nat × Nat)
  apart : areApart runs = true := by decide +kernel

namespace CodeSet

/-- Whether a character is in a set. -/
def contains (s : CodeSet) (c : Char) : Bool := liesIn c.toNat s.runs

/-- How many code points are in a set. -/
def size (s : CodeSet) : Nat := s.runs.foldl (fun n run => n + (run.2 + 1 - run.1)) 0

theorem contains_iff (s : CodeSet) (c : Char) :
    s.contains c = true ↔ ∃ run ∈ s.runs, run.1 ≤ c.toNat ∧ c.toNat ≤ run.2 :=
  liesIn_iff s.apart c.toNat

end CodeSet

end Eventual.Text
