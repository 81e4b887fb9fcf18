import Playbook.Value

/-!
# Documents

A document is a text in JSON or YAML as far as it could be read. Where the text stops being well
formed the document has the node `broken`, and nothing follows it. Readers of typed data walk a
document from left to right and stop at the first thing that does not fit, so a field of the wrong
kind is found before a later fault in the text, and the other way round.

Two faults do not end the reading: a number beyond the range of doubles and a string with half of a
surrogate pair. They matter only to a reader that needs the number or the string.
-/

namespace Playbook

/-- A text as far as it could be read. -/
inductive Document where
  | null
  | bool (b : Bool)
  /-- A number; `none` if it is beyond the range of numbers. -/
  | number (n : Option Number)
  /-- A string; `none` if it has half of a surrogate pair. -/
  | text (s : Option String)
  /-- A scalar written without quotes, with its characters; `meaning` is what it stands for. -/
  | word (s : String) (meaning : Document)
  | list (items : List Document)
  | record (fields : List (Option String × Document))
  /-- The place where the text stops being well formed. -/
  | broken
deriving Inhabited

namespace Document

mutual

/-- The value of a document. `none` if any part of it cannot be read. Of fields with the same name,
the first gives the place and the last gives the value. -/
def value? (d : Document) : Option Value :=
  match d with
  | .null => some .null
  | .bool b => some (.bool b)
  | .number n => n.map .number
  | .text s => s.map .text
  | .word _ meaning => value? meaning
  | .list items => (valueItems? items).map .list
  | .record fields => (valueFields? fields []).map .record
  | .broken => none
termination_by structural d

/-- The values of a list's items. -/
def valueItems? (items : List Document) : Option (List Value) :=
  match items with
  | [] => some []
  | d :: rest =>
    match value? d with
    | none => none
    | some v => (valueItems? rest).map (v :: ·)
termination_by structural items

/-- The values of a record's fields, stored behind those in `acc`. -/
def valueFields? (fields : List (Option String × Document)) (acc : Named Value) :
    Option (Named Value) :=
  match fields with
  | [] => some acc
  | (none, _) :: _ => none
  | (some k, d) :: rest =>
    match value? d with
    | none => none
    | some v => valueFields? rest (acc.put k v)
termination_by structural fields

/-- Whether the text of a document is well formed, be its numbers and strings readable or not. -/
def isWhole (d : Document) : Bool :=
  match d with
  | .broken => false
  | .word _ meaning => isWhole meaning
  | .list items => wholeItems items
  | .record fields => wholeFields fields
  | _ => true
termination_by structural d

/-- Whether all items are well formed. -/
def wholeItems (items : List Document) : Bool :=
  match items with
  | [] => true
  | d :: rest => isWhole d && wholeItems rest
termination_by structural items

/-- Whether all fields are well formed. -/
def wholeFields (fields : List (Option String × Document)) : Bool :=
  match fields with
  | [] => true
  | (_, d) :: rest => isWhole d && wholeFields rest
termination_by structural fields

end

mutual

/-- A value as a document. -/
def ofValue (v : Value) : Document :=
  match v with
  | .null => .null
  | .bool b => .bool b
  | .number n => .number (some n)
  | .text s => .text (some s)
  | .list items => .list (ofItems items)
  | .record fields => .record (ofFields fields)
termination_by structural v

/-- Values as the items of a document. -/
def ofItems (items : List Value) : List Document :=
  match items with
  | [] => []
  | v :: rest => ofValue v :: ofItems rest
termination_by structural items

/-- Named values as the fields of a document. -/
def ofFields (fields : List (String × Value)) : List (Option String × Document) :=
  match fields with
  | [] => []
  | (k, v) :: rest => (some k, ofValue v) :: ofFields rest
termination_by structural fields

end

end Document

end Playbook
