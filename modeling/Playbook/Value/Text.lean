import Playbook.Number.Shortest
import Playbook.Text.Quoted
import Playbook.Value

/-!
# Values as text

`Value.render` writes a value as compact JSON: no blanks, fields in their order, characters outside
ASCII as they are. `Value.display` is the text that a value has inside other text: a string stands
for itself, and everything else is rendered.
-/

namespace Playbook

/-- Doubles are written without an exponent while their leading digit stands for `10 ^ -5` to
`10 ^ 15`. -/
def Number.layout : Double.Layout := ⟨-5, 15⟩

/-- A number as text. An integer has no point, and a double always has a point or an exponent. -/
def Number.render : Number → String
  | .int n _ => if n < 0 then "-" ++ toString n.natAbs else toString n.natAbs
  | .double x _ => Number.layout.double x

namespace Value

mutual

/-- A value as compact JSON. -/
def render (v : Value) : String :=
  match v with
  | .null => "null"
  | .bool true => "true"
  | .bool false => "false"
  | .number n => n.render
  | .text s => Text.quoted s
  | .list items => "[" ++ renderItems items ++ "]"
  | .record fields => "\x7b" ++ renderFields fields ++ "\x7d"
termination_by structural v

/-- The items of a list, separated by commas. -/
def renderItems (items : List Value) : String :=
  match items with
  | [] => ""
  | [v] => render v
  | v :: rest => render v ++ "," ++ renderItems rest
termination_by structural items

/-- The fields of a record, separated by commas. -/
def renderFields (fields : List (String × Value)) : String :=
  match fields with
  | [] => ""
  | [(k, v)] => Text.quoted k ++ ":" ++ render v
  | (k, v) :: rest => Text.quoted k ++ ":" ++ render v ++ "," ++ renderFields rest
termination_by structural fields

end

/-- The text that a value has inside other text. -/
def display : Value → String
  | .text s => s
  | v => v.render

end Value

end Playbook
