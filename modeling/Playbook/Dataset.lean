import Playbook.Document.Decode
import Playbook.Files

/-!
# Data rows

The rows that a scenario is run for: they stand in the scenario itself or in a file.
-/

namespace Playbook

/-- Where rows come from. -/
inductive Dataset where
  | inline (rows : List Value)
  /-- A file in YAML or, whatever else it is called, in JSON. -/
  | file (path : String)

/-- Why there are no rows. -/
inductive DatasetError where
  | unreadable (path : String) (fault : ReadFault)
  | invalidJson (fault : Decode.Fault)
  | invalidYaml (fault : Decode.Fault)
  | notList (path : String)

/-- The wording of an error. -/
def DatasetError.message : DatasetError → String
  | unreadable path fault => "failed to read dataset " ++ path ++ ": " ++ fault.message
  | invalidJson fault => "invalid JSON dataset: " ++ fault.message
  | invalidYaml fault => "invalid YAML dataset: " ++ fault.message
  | notList path => "dataset " ++ path ++ " must contain a list of rows"

namespace Dataset

/-- The rows in a field of a record, if the field is there once and holds a list of values. -/
def rows? (fields : List (Option String × Document)) : Option Dataset :=
  match fields.filter fun f => f.1 == some "rows" with
  | [(_, .list items)] => (items.mapM Document.value?).map .inline
  | _ => none

/-- The path in a field of a record, if the field is there once and holds a string. -/
def path? (fields : List (Option String × Document)) : Option Dataset :=
  match fields.filter fun f => f.1 == some "path" with
  | [(_, .text (some path))] => some (.file path)
  | [(_, .word _ (.text (some path)))] => some (.file path)
  | _ => none

/-- A source of rows from a document. All of the document must be readable. Rows win over a path. -/
def decode (d : Document) : Decode.Decoded Dataset :=
  match d.value? with
  | none => .error .malformed
  | some _ =>
    match d with
    | .record fields =>
      match rows? fields <|> path? fields with
      | some source => .ok source
      | none => .error (.noVariant "DatasetSpec")
    | _ => .error (.noVariant "DatasetSpec")

/-- A source of rows as it is written. -/
def toValue : Dataset → Value
  | inline rows => .record [("rows", .list rows)]
  | file path => .record [("path", .text path)]

/-- The path of a file that is looked for from a directory. -/
def locate (base : Option String) (path : String) : String :=
  match base with
  | some directory => FilePath.join directory path
  | none => path

/-- The rows of a source. Files are looked for from a directory, if one is given. -/
def load (files : Files) (base : Option String) : Dataset → Except DatasetError (List Value)
  | inline rows => .ok rows
  | file path =>
    let path := locate base path
    match files.read path with
    | .error fault => .error (.unreadable path fault)
    | .ok text =>
      let isYaml := ["yaml", "yml"].contains ((FilePath.extension? path).getD "")
      let content :=
        if isYaml then (Decode.ofYaml Decode.value text).mapError .invalidYaml
        else (Decode.ofJson Decode.value text).mapError .invalidJson
      match content with
      | .error e => .error e
      | .ok (.list rows) => .ok rows
      | .ok _ => .error (.notList path)

end Dataset

end Playbook
