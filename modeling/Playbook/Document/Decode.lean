import Playbook.Document.Json
import Playbook.Document.Yaml
import Playbook.Failure

/-!
# Typed data from documents

A decoder makes typed data of a document or tells the first fault on its way. A record is decoded
field by field in the order of the text, and a field that is missing is found only at the end;
unknown fields count only in so far as they must be well formed. A record may also be written as a
list of its fields, in the order of their declaration.
-/

namespace Playbook

namespace Decode

/-- Why a document is not what was expected. -/
inductive Fault where
  /-- The text is not well formed. -/
  | malformed
  | wrongType
  | wrongValue
  | wrongLength
  /-- A record that is written as a list has more items than fields. Text is not read beyond its
  last field. -/
  | surplus
  | missing (field : String)
  | duplicate (field : String)
  /-- None of the forms that something can have. -/
  | noVariant (type : String)
  /-- A step that is not well written. -/
  | step (f : Failure)

/-- The wording of a fault. -/
def Fault.message : Fault → String
  | malformed => "syntax"
  | wrongType => "invalid type"
  | wrongValue => "invalid value"
  | wrongLength => "invalid length"
  | surplus => "syntax"
  | missing field => "missing field " ++ ticked field
  | duplicate field => "duplicate field " ++ ticked field
  | noVariant type => "data did not match any variant of untagged enum " ++ type
  | step f => f.message

/-- The result of a decoder. -/
abbrev Decoded (α : Type) := Except Fault α

/-- The fault of a document that is not what was expected, if it is well formed at least. -/
def mismatch {α : Type} : Document → Decoded α
  | .broken => .error .malformed
  | .number none => .error .malformed
  | .text none => .error .malformed
  | _ => .error .wrongType

/-- A value of any kind. -/
def value (d : Document) : Decoded Value :=
  match d.value? with
  | some v => .ok v
  | none => .error .malformed

/-- A string. A scalar without quotes is taken as it is written. -/
def text : Document → Decoded String
  | .text (some s) => .ok s
  | .word s _ => .ok s
  | d => mismatch d

/-- A boolean. -/
def bool : Document → Decoded Bool
  | .bool b => .ok b
  | .word _ (.bool b) => .ok b
  | d => mismatch d

/-- The unsigned integer below `bound` that a number is. -/
def countOf (bound : Nat) : Number → Decoded Nat
  | .int n _ => if 0 ≤ n ∧ n < bound then .ok n.toNat else .error .wrongValue
  | .double _ _ => .error .wrongType

/-- An unsigned integer below `bound`. -/
def count (bound : Nat) : Document → Decoded Nat
  | .number (some n) => countOf bound n
  | .word _ (.number (some n)) => countOf bound n
  | d => mismatch d

/-- Something that may be `null` instead. -/
def optional {α : Type} (decode : Document → Decoded α) : Document → Decoded (Option α)
  | .null => .ok none
  | .word _ .null => .ok none
  | d => (decode d).map some

/-- A list. -/
def list {α : Type} (decode : Document → Decoded α) : Document → Decoded (List α)
  | .list items => items.mapM decode
  | d => mismatch d

/-- The fields of a record whose keys can be any, behind those in `acc`. -/
def entries {α : Type} (decode : Document → Decoded α) (acc : Named α) :
    List (Option String × Document) → Decoded (Named α)
  | [] => .ok acc
  | (none, _) :: _ => .error .malformed
  | (some key, d) :: rest =>
    match decode d with
    | .error e => .error e
    | .ok a => entries decode (acc.put key a) rest

/-- A record whose keys can be any. -/
def named {α : Type} (decode : Document → Decoded α) : Document → Decoded (Named α)
  | .record fields => entries decode [] fields
  | d => mismatch d

/-- A field of a record that is made up in `δ`: its key, and how its document is taken in. -/
structure Field (δ : Type) where
  key : String
  take : δ → Document → Decoded δ

/-- A field that is stored as it is decoded. -/
def field {δ α : Type} (key : String) (decode : Document → Decoded α) (store : δ → α → δ) :
    Field δ where
  key := key
  take draft d := (decode d).map (store draft)

/-- Takes in the fields of a record, those in `seen` having been taken in already. -/
def takeFields {δ : Type} (known : List (Field δ)) (seen : List String) (draft : δ) :
    List (Option String × Document) → Decoded δ
  | [] => .ok draft
  | (none, _) :: _ => .error .malformed
  | (some key, d) :: rest =>
    match known.find? fun f => f.key == key with
    | none => if d.isWhole then takeFields known seen draft rest else .error .malformed
    | some f =>
      if seen.contains key then .error (.duplicate key)
      else
        match f.take draft d with
        | .error e => .error e
        | .ok draft => takeFields known (key :: seen) draft rest

/-- Takes in the fields of a record that is written as a list. Nothing may follow the last field. -/
def takeItems {δ : Type} (draft : δ) : List (Field δ) → List Document → Decoded δ
  | _, [] => .ok draft
  | [], _ :: _ => .error .surplus
  | f :: known, d :: rest =>
    match f.take draft d with
    | .error e => .error e
    | .ok draft => takeItems draft known rest

/-- A record with known fields, made up from a draft. `finish` makes the result of the draft, or
tells the first field that is missing. -/
def struct {δ α : Type} (known : List (Field δ)) (draft : δ) (finish : δ → Except String α) :
    Document → Decoded α
  | .record fields =>
    match takeFields known [] draft fields with
    | .error e => .error e
    | .ok draft => (finish draft).mapError .missing
  | .list items =>
    match takeItems draft known items with
    | .error e => .error e
    | .ok draft => (finish draft).mapError fun _ => .wrongLength
  | d => mismatch d

/-- What a whole text in JSON holds. -/
def ofJson {α : Type} (decode : Document → Decoded α) (text : String) : Decoded α :=
  match Document.ofJson text with
  | (d, whole) =>
    match decode d with
    | .error e => .error e
    | .ok a => if whole then .ok a else .error .malformed

/-- What a whole text in YAML holds. -/
def ofYaml {α : Type} (decode : Document → Decoded α) (text : String) : Decoded α :=
  let d := Document.ofYaml text
  if d.isWhole then decode d else .error .malformed

end Decode

end Playbook
