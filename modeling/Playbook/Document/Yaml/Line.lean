import Playbook.Document.Yaml.Scalar

/-!
# Lines of YAML

The lines of a text in block style: without comments and empty lines, and with a list, a record or a
quoted string that goes over several lines joined into one.
-/

namespace Playbook.Yaml

/-- A line of a text. -/
structure Line where
  /-- The number of blanks in front. -/
  indent : Nat
  /-- The characters, which begin and end without blanks. -/
  text : List Char

/-- What has been seen of a line. -/
structure Seen where
  /-- How many brackets and braces are open. -/
  depth : Nat
  /-- The quote that is open. -/
  quote : Option Char
  /-- The last character that is not a blank. -/
  last : Option Char
  /-- Whether the last character is a blank. -/
  blank : Bool
  /-- Whether the last character is a backslash that the next one belongs to. -/
  escape : Bool

/-- Nothing has been seen. -/
def Seen.start : Seen := ⟨0, none, none, true, false⟩

/-- Whether something is still open. -/
def Seen.isOpen (seen : Seen) : Bool :=
  seen.depth > 0 || seen.quote.isSome

/-- Whether a quote, a bracket or a brace that comes next opens something. -/
def Seen.opens (seen : Seen) : Bool :=
  match seen.last with
  | none => true
  | some c =>
    c == '[' || c == '\x7b' || c == ',' || (seen.blank && (c == '-' || c == ':' || c == '?'))

/-- What has been seen after one more character outside of quotes. A single quote right behind
another one goes on with the string. -/
def Seen.outside (seen : Seen) (c : Char) : Seen :=
  if isBlank c then { seen with blank := true }
  else
    let seen' := { seen with last := some c, blank := false }
    if (c == '"' || c == '\'') && seen.opens then { seen' with quote := some c }
    else if c == '\'' && seen.last == some '\'' && !seen.blank then { seen' with quote := some c }
    else if (c == '[' || c == '\x7b') && (seen.depth > 0 || seen.opens) then
      { seen' with depth := seen.depth + 1 }
    else if c == ']' || c == '\x7d' then { seen' with depth := seen.depth - 1 }
    else seen'

/-- What has been seen after one more character inside the given quotes. -/
def Seen.inside (seen : Seen) (quote c : Char) : Seen :=
  let seen' := { seen with last := some c, blank := false, escape := false }
  if seen.escape then seen'
  else if quote == '"' && c == '\\' then { seen' with escape := true }
  else if c == quote then { seen' with quote := none }
  else seen'

/-- The characters of a line without its comment, and what has been seen at its end. -/
def scan (seen : Seen) : List Char → List Char × Seen
  | [] => ([], seen)
  | c :: rest =>
    if seen.quote.isNone && c == '#' && seen.blank then ([], seen)
    else
      let next :=
        match seen.quote with
        | some q => seen.inside q c
        | none => seen.outside c
      let (kept, after) := scan next rest
      (c :: kept, after)

/-- The lines of a text, given the line before, if it is still open. `none` if something is never
closed. -/
def linesFrom (before : Option (Line × Seen)) : List (List Char) → Option (List Line)
  | [] => if before.isSome then none else some []
  | cs :: rest =>
    match before with
    | some (line, seen) =>
      let (kept, seen) := scan { seen with blank := true } (strip cs)
      let joined := { line with text := strip (line.text ++ ' ' :: kept) }
      if seen.isOpen then linesFrom (some (joined, seen)) rest
      else (linesFrom none rest).map (joined :: ·)
    | none =>
      let indent := (cs.takeWhile (· == ' ')).length
      let (kept, seen) := scan .start (cs.drop indent)
      let line := Line.mk indent (strip kept)
      if seen.isOpen then linesFrom (some (line, seen)) rest
      else if line.text.isEmpty then linesFrom none rest
      else (linesFrom none rest).map (line :: ·)

/-- Cuts a text at the ends of its lines. -/
def physicalLines (cs : List Char) : List (List Char) :=
  cs.foldr (fun c lines =>
    if c == '\n' then [] :: lines
    else if c == '\r' then lines
    else
      match lines with
      | line :: rest => (c :: line) :: rest
      | [] => [[c]]) [[]]

/-- The lines of a text. A mark `---` may stand before the first one. -/
def lines (text : String) : Option (List Line) :=
  (linesFrom none (physicalLines text.toList)).map fun found =>
    match found with
    | first :: rest => if first.indent = 0 && first.text == ['-', '-', '-'] then rest else found
    | [] => []

end Playbook.Yaml
