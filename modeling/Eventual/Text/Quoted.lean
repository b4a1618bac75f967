import Eventual.Text.Extender
import Eventual.Text.Invisible
import Eventual.Text.Unassigned

/-!
# Quoted text

Text between double quotes. A quote, a backslash, a line feed, a carriage
return, a tab and a null are written with a backslash and a letter, any other
character that would not show by itself by its code in hexadecimal, and
everything else as it is.
-/

namespace Eventual.Text

/-- Whether a character shows by itself: it is assigned, has a picture, and does
not attach to the character before it. -/
def showsAlone (c : Char) : Bool :=
  !(isInvisible c || extenders.contains c || unassigned.contains c)

/-- A number in hexadecimal, lower case, without leading zeros. -/
def hexadecimal (n : Nat) : String := String.ofList (Nat.toDigits 16 n)

/-- How a character stands between quotes. -/
def escaped (c : Char) : String :=
  if c = '"' then "\\\""
  else if c = '\\' then "\\\\"
  else if c = '\n' then "\\n"
  else if c = '\r' then "\\r"
  else if c = '\t' then "\\t"
  else if c = '\x00' then "\\0"
  else if showsAlone c then c.toString
  else "\\u\x7b" ++ hexadecimal c.toNat ++ "\x7d"

/-- The text between double quotes. -/
def quoted (s : String) : String :=
  "\"" ++ String.join (s.toList.map escaped) ++ "\""

end Eventual.Text
