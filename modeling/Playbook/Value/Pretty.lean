import Playbook.Value.Text

/-!
# Values over several lines

`Value.pretty` writes a value as JSON with every item and every field in a line of its own, two
blanks further to the right than what it belongs to.
-/

namespace Playbook.Value

/-- The beginning of a line that is nested to a given depth. -/
def newline (depth : Nat) : String :=
  String.ofList ('\n' :: List.replicate (2 * depth) ' ')

mutual

/-- A value that is nested to a given depth. -/
def prettyAt (depth : Nat) (v : Value) : String :=
  match v with
  | .list [] => "[]"
  | .list (first :: rest) =>
    "[" ++ newline (depth + 1) ++ prettyAt (depth + 1) first ++ prettyItems (depth + 1) rest
      ++ newline depth ++ "]"
  | .record [] => "\x7b\x7d"
  | .record ((key, first) :: rest) =>
    "\x7b" ++ newline (depth + 1) ++ Text.quoted key ++ ": " ++ prettyAt (depth + 1) first
      ++ prettyFields (depth + 1) rest ++ newline depth ++ "\x7d"
  | v => v.render
termination_by structural v

/-- Items that others stand before. -/
def prettyItems (depth : Nat) (items : List Value) : String :=
  match items with
  | [] => ""
  | v :: rest => "," ++ newline depth ++ prettyAt depth v ++ prettyItems depth rest
termination_by structural items

/-- Fields that others stand before. -/
def prettyFields (depth : Nat) (fields : List (String × Value)) : String :=
  match fields with
  | [] => ""
  | (key, v) :: rest =>
    "," ++ newline depth ++ Text.quoted key ++ ": " ++ prettyAt depth v ++ prettyFields depth rest
termination_by structural fields

end

/-- A value as JSON over several lines. -/
def pretty (v : Value) : String :=
  prettyAt 0 v

end Playbook.Value
