/-!
# Layouts

The text of structured things, in two layouts. On one line, the parts stand
after one another with commas between. In a block, each part has its own line,
four blanks further in than what encloses it, and is followed by a comma. A
thing without parts has one form only.
-/

namespace Eventual.Text

/-- A structured thing: a text, a record with named fields, a tagged tuple, or
a list. -/
inductive Layout where
  | atom (s : String)
  | record (name : String) (fields : List (String × Layout))
  | tuple (name : String) (items : List Layout)
  | list (items : List Layout)
  deriving Inhabited

namespace Layout

mutual

/-- The layout on one line. -/
def line : Layout → String
  | .atom s => s
  | .record name [] => name
  | .record name fields => name ++ " \x7b " ++ ", ".intercalate (lineFields fields) ++ " \x7d"
  | .tuple name items => name ++ "(" ++ ", ".intercalate (lineItems items) ++ ")"
  | .list items => "[" ++ ", ".intercalate (lineItems items) ++ "]"

/-- Each item on one line. -/
def lineItems : List Layout → List String
  | [] => []
  | item :: items => item.line :: lineItems items

/-- Each field on one line, with its name. -/
def lineFields : List (String × Layout) → List String
  | [] => []
  | (name, value) :: fields => (name ++ ": " ++ value.line) :: lineFields fields

end

/-- The blanks before a line at a depth. -/
def margin (depth : Nat) : String := String.ofList (List.replicate (4 * depth) ' ')

/-- Parts on their own lines between an opening and a closing text. -/
def enclose (depth : Nat) (opening closing : String) (parts : List String) : String :=
  opening ++ "\n"
    ++ String.join (parts.map fun part => margin (depth + 1) ++ part ++ ",\n")
    ++ margin depth ++ closing

mutual

/-- The layout as a block whose first line is already indented to the depth. -/
def block (depth : Nat) : Layout → String
  | .atom s => s
  | .record name [] => name
  | .record name fields => enclose depth (name ++ " \x7b") "\x7d" (blockFields (depth + 1) fields)
  | .tuple name [] => name
  | .tuple name items => enclose depth (name ++ "(") ")" (blockItems (depth + 1) items)
  | .list [] => "[]"
  | .list items => enclose depth "[" "]" (blockItems (depth + 1) items)

/-- Each item as a block. -/
def blockItems (depth : Nat) : List Layout → List String
  | [] => []
  | item :: items => item.block depth :: blockItems depth items

/-- Each field as a block, after its name. -/
def blockFields (depth : Nat) : List (String × Layout) → List String
  | [] => []
  | (name, value) :: fields => (name ++ ": " ++ value.block depth) :: blockFields depth fields

end

/-- The layout in the form that is asked for. -/
def render (asBlock : Bool) (l : Layout) : String := if asBlock then l.block 0 else l.line

end Layout

end Eventual.Text
