import Playbook.Report.Json
import Playbook.Step.Calls
import Playbook.Value.Pretty

/-!
# The command line

`run FILE` runs a scenario file and prints its report. Options give a file of settings, values for
variables, a directory of keywords, and whether to go on after a failure. What a command does is
computed here; reading the files and printing are left to the caller.
-/

namespace Playbook.CommandLine

/-- What a run is asked for. -/
structure Command where
  file : Option String
  settings : Option String
  /-- Values for variables, in order. -/
  vars : List (String × Value)
  continueOnError : Bool
  /-- The directory of keyword files. -/
  keywords : Option String

/-- A run of which nothing has been said. -/
def Command.empty : Command := ⟨none, none, [], false, none⟩

/-- What the arguments ask for. -/
inductive Request where
  | run (command : Command)
  | help
  | version
  /-- The arguments make no sense. -/
  | misuse

/-- An option that has a value. -/
inductive ValueOption where
  | settings
  | variable
  | keywords
deriving DecidableEq, Repr

/-- The option with a given long name. -/
def longOption? : String → Option ValueOption
  | "config" => some .settings
  | "var" => some .variable
  | "keywords" => some .keywords
  | _ => none

/-- The option with a given short name. -/
def shortOption? : Char → Option ValueOption
  | 'c' => some .settings
  | 'k' => some .keywords
  | _ => none

/-- A variable and its value from the text `name=value`. The value is what the text holds as JSON
or, if it is no JSON, the text itself. -/
def assigned? (text : String) : Option (String × Value) :=
  (Text.cutAt ['='] text.toList).map fun (name, value) =>
    let value := String.ofList value
    (String.ofList name, (Value.ofJson? value).getD (.text value))

/-- Stores something that can be given only once and must not be empty. -/
def once (before : Option String) (value : String) : Option (Option String) :=
  if before.isSome || value = "" then none else some (some value)

/-- Takes in the value of an option. -/
def store (command : Command) (value : String) : ValueOption → Option Command
  | .settings => (once command.settings value).map fun settings => { command with settings }
  | .keywords => (once command.keywords value).map fun keywords => { command with keywords }
  | .variable => (assigned? value).map fun v => { command with vars := command.vars ++ [v] }

/-- Takes in the file. -/
def storeFile (command : Command) (value : String) : Option Command :=
  (once command.file value).map fun file => { command with file }

/-- Whether an argument can be the value of an option or a file: it does not look like an option. -/
def isPlain (arg : String) : Bool :=
  arg.toList.head? != some '-' || arg = "-"

/-- A long option, split at the equals sign if it has one. -/
def splitLong (name : List Char) : String × Option String :=
  match Text.cutAt ['='] name with
  | some (name, value) => (String.ofList name, some (String.ofList value))
  | none => (String.ofList name, none)

/-- The value that is attached to a short option, an equals sign in front left out. -/
def attached : List Char → Option String
  | [] => none
  | '=' :: value => some (String.ofList value)
  | value => some (String.ofList value)

/-- Takes in arguments behind the mark `--`, all of which are files. -/
def files (command : Command) : List String → Request
  | [] => if command.file.isSome then .run command else .misuse
  | arg :: rest =>
    match storeFile command arg with
    | some command => files command rest
    | none => .misuse

/-- What an argument is. -/
inductive Argument where
  /-- An option with the value that is attached to it. -/
  | valued (name : ValueOption) (value : Option String)
  | continueOnError
  | help
  | endOfOptions
  | file (value : String)
  | unknown

/-- What an argument is, by its look. -/
def Argument.ofText (arg : String) : Argument :=
  if arg = "--" then .endOfOptions
  else if arg = "--help" || arg = "-h" then .help
  else if arg = "--continue-on-error" then .continueOnError
  else if isPlain arg then .file arg
  else
    match arg.toList with
    | '-' :: '-' :: name =>
      let (name, value) := splitLong name
      match longOption? name with
      | some name => .valued name value
      | none => .unknown
    | '-' :: c :: value =>
      match shortOption? c with
      | some name => .valued name (attached value)
      | none => .unknown
    | _ => .unknown

/-- Takes in the arguments of a run, from left to right. -/
def arguments (command : Command) (args : List String) : Request :=
  match args with
  | [] => if command.file.isSome then .run command else .misuse
  | arg :: rest =>
    match Argument.ofText arg with
    | .help => .help
    | .endOfOptions => files command rest
    | .unknown => .misuse
    | .continueOnError =>
      if command.continueOnError then .misuse
      else arguments { command with continueOnError := true } rest
    | .file value =>
      match storeFile command value with
      | some command => arguments command rest
      | none => .misuse
    | .valued name (some value) =>
      match store command value name with
      | some command => arguments command rest
      | none => .misuse
    | .valued name none =>
      match rest with
      | [] => .misuse
      | value :: rest =>
        if isPlain value then
          match store command value name with
          | some command => arguments command rest
          | none => .misuse
        else .misuse

/-- What all arguments ask for. -/
def parse : List String → Request
  | "run" :: args => arguments .empty args
  | ["help"] => .help
  | ["help", "run"] => .help
  | ["help", "help"] => .help
  | "--help" :: _ => .help
  | "-h" :: _ => .help
  | "--version" :: _ => .version
  | "-V" :: _ => .version
  | _ => .misuse

/-- How the program is used. -/
def usage : String :=
  "Usage: scenario run [OPTIONS] <FILE>\n\n"
  ++ "Run a scenario file and print its report as JSON\n\n"
  ++ "Options:\n"
  ++ "  -c, --config <CONFIG>      Settings file (JSON)\n"
  ++ "      --var <NAME=VALUE>     Set a scenario variable\n"
  ++ "      --continue-on-error    Keep going after a failing step or row\n"
  ++ "  -k, --keywords <KEYWORDS>  Directory of keyword files\n"
  ++ "  -h, --help                 Print help"

/-- The name and the version of the program. -/
def versionText : String := "scenario 0.1.0"

/-- The names of environment variables that a text mentions. -/
def environmentNames (cs : List Char) : List String :=
  match cs with
  | [] => []
  | c :: rest =>
    match Text.dropLead "env.".toList (c :: rest) with
    | some behind => String.ofList (behind.takeWhile Path.isNameChar) :: environmentNames rest
    | none => environmentNames rest

/-- What a command leaves behind. -/
structure Ending where
  code : Nat
  /-- The report. -/
  report : Option Report
  /-- What is said instead of a report. -/
  complaint : Option String

/-- What a crash leaves behind. -/
def Ending.ofAbort : Abort → Ending
  | .crash _ => ⟨101, none, none⟩
  | .endless => ⟨1, none, some "the run does not end"⟩

/-- The settings of a command. -/
def Command.settingsFrom (command : Command) (files : Files) : Except SetupError Settings :=
  match command.settings with
  | none => .ok .default
  | some path => (Settings.ofFile files path).mapError .settings

/-- The scenario of a command, with the variables that the command gives. -/
def Command.scenarioFrom (command : Command) (files : Files) : Except SetupError Scenario :=
  ((Scenario.ofFile files (command.file.getD "")).mapError .scenario).map fun s =>
    { s with
      continueOnError := s.continueOnError || command.continueOnError
      vars := s.vars.putAll command.vars }

/-- The directory in which the data of a command's scenario is looked for. -/
def Command.base (command : Command) : String :=
  FilePath.parent (command.file.getD "")

/-- The keyword libraries of a command. -/
def Command.libraries (command : Command) (files : Files) : List Library :=
  (command.keywords.map fun directory => Library.ofDirectory files directory).toList

/-- Runs a command. The code is zero if the scenario succeeded. -/
def Command.run (command : Command) (files : Files) (ambient : Ambient) : Ending :=
  match command.settingsFrom files with
  | .error e => ⟨1, none, some e.message⟩
  | .ok settings =>
    match command.scenarioFrom files with
    | .error e => ⟨1, none, some e.message⟩
    | .ok s =>
      let engine : Engine Unit := ⟨settings, .chain [.standard ambient], ambient⟩
      match s.play engine (command.libraries files) files (some command.base) () with
      | .error a => .ofAbort a
      | .ok (.error e, _) => ⟨1, none, some e.message⟩
      | .ok (.ok report, _) => ⟨if report.success then 0 else 1, some report, none⟩

/-- Runs what the arguments ask for. -/
def run (args : List String) (files : Files) (ambient : Ambient) : Ending :=
  match parse args with
  | .run command => command.run files ambient
  | .help => ⟨0, none, none⟩
  | .version => ⟨0, none, none⟩
  | .misuse => ⟨2, none, none⟩

end Playbook.CommandLine
