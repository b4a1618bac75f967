import Eventual.Text.CodeSet

/-!
# Characters that have no picture

The assigned characters of Unicode 17.0 that show nothing of their own: controls,
format characters, separators other than the plain blank, private ones, and the
fillers that stand for a missing letter.
-/

namespace Eventual.Text

/-- Control characters, general category Cc. -/
def controls : CodeSet :=
  { runs := [
    (0x0, 0x1F), (0x7F, 0x9F)] }

/-- Format characters, general category Cf. -/
def formats : CodeSet :=
  { runs := [
    (0xAD, 0xAD), (0x600, 0x605), (0x61C, 0x61C), (0x6DD, 0x6DD), (0x70F, 0x70F), (0x890, 0x891),
    (0x8E2, 0x8E2), (0x180E, 0x180E), (0x200B, 0x200F), (0x202A, 0x202E), (0x2060, 0x2064),
    (0x2066, 0x206F), (0xFEFF, 0xFEFF), (0xFFF9, 0xFFFB), (0x110BD, 0x110BD), (0x110CD, 0x110CD),
    (0x13430, 0x1343F), (0x1BCA0, 0x1BCA3), (0x1D173, 0x1D17A), (0xE0001, 0xE0001),
    (0xE0020, 0xE007F)] }

/-- Separators, general categories Zs, Zl and Zp, without the plain blank. -/
def separators : CodeSet :=
  { runs := [
    (0xA0, 0xA0), (0x1680, 0x1680), (0x2000, 0x200A), (0x2028, 0x2029), (0x202F, 0x202F),
    (0x205F, 0x205F), (0x3000, 0x3000)] }

/-- Characters for private use, general category Co. -/
def privates : CodeSet :=
  { runs := [
    (0xE000, 0xF8FF), (0xF0000, 0xFFFFD), (0x100000, 0x10FFFD)] }

/-- Letters that are ignorable by default, property Default_Ignorable_Code_Point:
they hold the place of a letter that is missing. -/
def fillers : CodeSet :=
  { runs := [
    (0x115F, 0x1160), (0x3164, 0x3164), (0xFFA0, 0xFFA0)] }

/-- Whether a character is assigned but has no picture of its own. -/
def isInvisible (c : Char) : Bool :=
  controls.contains c || formats.contains c || separators.contains c || privates.contains c
    || fillers.contains c

example : controls.size = 65 ∧ formats.size = 170 ∧ separators.size = 18 ∧
    privates.size = 137468 ∧ fillers.size = 4 := by
  decide

/-- Every character that core counts as white space is invisible, the plain blank
apart. -/
theorem isInvisible_of_isWhitespace {c : Char} (h : c.isWhitespace = true) (hc : c ≠ ' ') :
    isInvisible c = true := by
  simp only [Char.isWhitespace, Bool.or_eq_true, decide_eq_true_eq] at h
  rcases h with ((h | h) | h) | h
  · exact absurd h hc
  all_goals subst h; decide

end Eventual.Text
