import Playbook.Document.Decode
import Playbook.Files
import Playbook.Keyword
import Playbook.Step.Reader

/-!
# Reading keywords

Keywords as documents, and libraries of keywords: those held in memory, and those in the files of a
directory.
-/

namespace Playbook

/-- A step from a document. -/
def Step.decode (d : Document) : Decode.Decoded Step :=
  match Decode.value d with
  | .error e => .error e
  | .ok v => (Step.read v).mapError .step

namespace Keyword

/-- A keyword that is being decoded. -/
structure Draft where
  name : String
  params : List String
  steps : Option (List Step)
  returns : Option String
  description : Option String

/-- A keyword of which nothing is known. -/
def Draft.empty : Draft := ⟨"", [], none, none, none⟩

/-- The fields of a keyword. -/
def fields : List (Decode.Field Draft) := [
  Decode.field "name" Decode.text fun k name => { k with name },
  Decode.field "params" (Decode.list Decode.text) fun k params => { k with params },
  Decode.field "steps" (Decode.list Step.decode) fun k steps => { k with steps := some steps },
  Decode.field "returns" (Decode.optional Decode.text) fun k returns => { k with returns },
  Decode.field "description" (Decode.optional Decode.text) fun k description =>
    { k with description }]

/-- The keyword that was decoded. Only the steps must be there. -/
def Draft.finish (k : Draft) : Except String Keyword :=
  match k.steps with
  | none => .error "steps"
  | some steps => .ok ⟨k.name, k.params, steps, k.returns, k.description⟩

/-- A keyword from a document. -/
def decode : Document → Decode.Decoded Keyword :=
  Decode.struct fields .empty Draft.finish

/-- A field that is written only if there is something in it. -/
def optionalText (key : String) (s : Option String) : List (String × Value) :=
  (s.map fun s => (key, Value.text s)).toList

/-- A keyword as it is written. -/
def toValue (k : Keyword) : Value :=
  .record <| [
    ("name", .text k.name),
    ("params", .list (k.params.map .text)),
    ("steps", .list (k.steps.map Step.source))]
    ++ optionalText "returns" k.returns ++ optionalText "description" k.description

end Keyword

namespace Library

/-- A library with the given keywords. -/
def ofKeywords (keywords : Named Keyword) : Library := fun name => keywords.lookup name

/-- The endings of keyword files, in the order in which they are looked for. -/
def extensions : List String := ["yaml", "yml", "json"]

/-- The keyword in a file's text. -/
def ofText? (extension text : String) : Option Keyword :=
  (if extension = "json" then Decode.ofJson Keyword.decode text
    else Decode.ofYaml Keyword.decode text).toOption

/-- Whether a keyword can be kept in a file of its name. -/
def isFileName (name : String) : Bool :=
  name != "" && !name.toList.contains '/' && !name.toList.contains '\\'
    && !Text.occursIn ['.', '.'] name.toList

/-- The keywords that are kept in the files of a directory, each in a file of its name. Of several
files for a name only the first one counts, even if it cannot be read. -/
def ofDirectory (files : Files) (directory : String) : Library := fun name =>
  if isFileName name then
    let candidates := extensions.map fun e => (e, FilePath.join directory (name ++ "." ++ e))
    (candidates.find? fun c => files.isFile c.2).bind fun (extension, path) =>
      (files.read path).toOption.bind (ofText? extension)
  else none

end Library

end Playbook
