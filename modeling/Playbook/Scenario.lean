import Playbook.Dataset
import Playbook.Keyword.Reader

/-!
# Scenarios

A scenario is a list of steps with the variables and keywords that it begins with, and with the data
rows that it is run for, if there are any. It is written in JSON or in YAML.
-/

namespace Playbook

/-- A scenario. -/
structure Scenario where
  name : String
  description : Option String
  /-- The variables that are set before the first step, one after the other. -/
  vars : Named Value
  /-- The keywords in the order of their names. -/
  keywords : Named Keyword
  data : Option Dataset
  /-- Whether the run goes on after a step or a row that fails. -/
  continueOnError : Bool
  steps : List Step

/-- Why there is no scenario. -/
inductive ScenarioError where
  | unreadable (path : String) (fault : ReadFault)
  | invalidJson (fault : Decode.Fault)
  | invalidYaml (fault : Decode.Fault)
  | unsupportedFormat (extension : String)
  /-- The scenario has no steps. -/
  | noSteps (name : String)
  /-- A keyword of the scenario has no steps. -/
  | emptyKeyword (name : String)

/-- The wording of an error. -/
def ScenarioError.message : ScenarioError → String
  | unreadable path fault => "failed to read scenario " ++ path ++ ": " ++ fault.message
  | invalidJson fault => "invalid JSON scenario: " ++ fault.message
  | invalidYaml fault => "invalid YAML scenario: " ++ fault.message
  | unsupportedFormat extension => "unsupported scenario format: " ++ extension
  | noSteps name => "invalid scenario: scenario '" ++ name ++ "' has no steps"
  | emptyKeyword name => "invalid scenario: keyword '" ++ name ++ "' has no steps"

namespace Scenario

/-- A scenario that is being decoded. -/
structure Draft where
  name : Option String
  description : Option String
  vars : Named Value
  keywords : Named Keyword
  data : Option Dataset
  continueOnError : Bool
  steps : Option (List Step)

/-- A scenario of which nothing is known. -/
def Draft.empty : Draft := ⟨none, none, [], [], none, false, none⟩

/-- The fields of a scenario. -/
def fields : List (Decode.Field Draft) := [
  Decode.field "name" Decode.text fun s name => { s with name := some name },
  Decode.field "description" (Decode.optional Decode.text) fun s description =>
    { s with description },
  Decode.field "variables" (Decode.named Decode.value) fun s vars => { s with vars },
  Decode.field "keywords" (Decode.named Keyword.decode) fun s keywords => { s with keywords },
  Decode.field "data" (Decode.optional Dataset.decode) fun s data => { s with data },
  Decode.field "continueOnError" Decode.bool fun s continueOnError => { s with continueOnError },
  Decode.field "steps" (Decode.list Step.decode) fun s steps => { s with steps := some steps }]

/-- The scenario that was decoded. The name and the steps must be there. -/
def Draft.finish (s : Draft) : Except String Scenario :=
  match s.name, s.steps with
  | none, _ => .error "name"
  | some _, none => .error "steps"
  | some name, some steps =>
    .ok ⟨name, s.description, s.vars, s.keywords.sorted, s.data, s.continueOnError, steps⟩

/-- A scenario from a document. -/
def decode : Document → Decode.Decoded Scenario :=
  Decode.struct fields .empty Draft.finish

/-- Passes on a scenario that has steps and whose keywords have steps. -/
def validate (s : Scenario) : Except ScenarioError Scenario :=
  if s.steps.isEmpty then .error (.noSteps s.name)
  else
    match s.keywords.find? fun k => k.2.steps.isEmpty with
    | some (name, _) => .error (.emptyKeyword name)
    | none => .ok s

/-- A scenario from a JSON text. -/
def ofJson (text : String) : Except ScenarioError Scenario :=
  ((Decode.ofJson decode text).mapError .invalidJson).bind validate

/-- A scenario from a YAML text. -/
def ofYaml (text : String) : Except ScenarioError Scenario :=
  ((Decode.ofYaml decode text).mapError .invalidYaml).bind validate

/-- A scenario from a file; the file's name says what it is written in. -/
def ofFile (files : Files) (path : String) : Except ScenarioError Scenario :=
  match files.read path with
  | .error fault => .error (.unreadable path fault)
  | .ok text =>
    match (FilePath.extension? path).getD "" with
    | "json" => ofJson text
    | "yaml" => ofYaml text
    | "yml" => ofYaml text
    | other => .error (.unsupportedFormat other)

/-- A scenario as it is written. -/
def toValue (s : Scenario) : Value :=
  .record <|
    [("name", Value.text s.name)]
    ++ Keyword.optionalText "description" s.description
    ++ [("variables", .record s.vars),
      ("keywords", .record (s.keywords.map fun k => (k.1, k.2.toValue)))]
    ++ (s.data.map fun d => ("data", d.toValue)).toList
    ++ [("continueOnError", .bool s.continueOnError),
      ("steps", .list (s.steps.map Step.source))]

end Scenario

end Playbook
