import Playbook.Number.Numeral
import Playbook.Text.Blank
import Playbook.Value

/-!
# Paths

A path such as `row.accounts[0].balance` names a variable and a place inside its value. It is an
identifier followed by any number of segments, each a key behind a point or an index in brackets.
`Path.parse?` reads a path from text, and `Value.at?` walks down from a value.
-/

namespace Playbook

/-- One step down from a value. -/
inductive Segment where
  | key (name : String)
  | index (n : Nat)
deriving DecidableEq, Repr

/-- A variable and a place inside its value. -/
structure Path where
  /-- The name of the variable. -/
  root : String
  /-- The way down from the variable's value. -/
  segments : List Segment
deriving DecidableEq, Repr

namespace Path

/-- The characters of identifiers and keys: letters and digits of ASCII, `_` and `$`. -/
def isNameChar (c : Char) : Bool :=
  c.isAlphanum || c == '_' || c == '$'

/-- The characters that an identifier can begin with: all but the digits. -/
def isNameStart (c : Char) : Bool :=
  c.isAlpha || c == '_' || c == '$'

/-- Whether a text is an identifier. -/
def isIdentifier : List Char → Bool
  | [] => false
  | c :: cs => isNameStart c && cs.all isNameChar

/-- Whether a character belongs to the name before the next segment. -/
def inName (c : Char) : Bool :=
  c != '.' && c != '['

/-- Reads the segments of a path. A key has one or more characters of identifiers; an index has one
or more digits and is below `2 ^ 64`. -/
def segments? (cs : List Char) : Option (List Segment) :=
  match cs with
  | [] => some []
  | c :: rest =>
    if c = '.' then
      let key := rest.takeWhile inName
      if key.isEmpty || !key.all isNameChar then none
      else (segments? (rest.dropWhile inName)).map (.key (String.ofList key) :: ·)
    else if c = '[' then
      match _hr : rest.dropWhile Char.isDigit with
      | ']' :: behind =>
        match Numeral.index? (rest.takeWhile Char.isDigit) with
        | some n => (segments? behind).map (.index n :: ·)
        | none => none
      | _ => none
    else none
termination_by cs.length
decreasing_by
  · have := (List.dropWhile_suffix inName (l := rest)).length_le
    simp only [List.length_cons]
    omega
  · have := (List.dropWhile_suffix Char.isDigit (l := rest)).length_le
    rw [_hr] at this
    simp only [List.length_cons] at this ⊢
    omega

/-- Reads a path without the blanks around it. -/
def ofChars? (cs : List Char) : Option Path :=
  let cs := Text.trim cs
  let root := cs.takeWhile inName
  if isIdentifier root then
    (segments? (cs.dropWhile inName)).map fun segments => ⟨String.ofList root, segments⟩
  else none

/-- Reads a path from text; `none` for every other text. -/
def parse? (text : String) : Option Path :=
  ofChars? text.toList

/-- Whether a text is a path. -/
def isPath (text : String) : Bool :=
  (parse? text).isSome

end Path

namespace Value

/-- One step down from a value. A key that is a number selects the item of a list, as an index
does. -/
def step? (v : Value) : Segment → Option Value
  | .key name =>
    match v with
    | .record fields => fields.lookup name
    | .list items => (Numeral.index? name.toList).bind fun n => items[n]?
    | _ => none
  | .index n =>
    match v with
    | .list items => items[n]?
    | _ => none

/-- The value at the end of the way down from a value. -/
def at? (v : Value) (segments : List Segment) : Option Value :=
  segments.foldlM step? v

end Value

end Playbook
