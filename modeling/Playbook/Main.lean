import Playbook.Calendar
import Playbook.CommandLine
import Std.Time.DateTime.Timestamp

/-!
# The program

Reads what a command needs, runs it, waits as long as the run took on its clock, and prints the
report.
-/

namespace Playbook.Program

/-- What is known of files that were looked at. -/
abbrev Store := List (String × Except ReadFault String)

/-- The files in a store. -/
def Store.files (store : Store) : Files where
  read path := (store.lookup path).getD (.error .notFound)

/-- The texts in a store. -/
def Store.texts (store : Store) : List String :=
  store.filterMap fun entry => entry.2.toOption

/-- The number, perhaps negated, with which the operating system says that a file is a directory. -/
def directoryCode : UInt32 := 21

/-- Looks at a file. -/
def look (path : String) : IO (Except ReadFault String) := do
  try
    let bytes ← IO.FS.readBinFile path
    match String.fromUTF8? bytes with
    | some text => return .ok text
    | none => return .error .notText
  catch
    | .inappropriateType _ code _ =>
      return .error (if code = directoryCode || code = 0 - directoryCode then .isDirectory
        else .notDirectory)
    | _ => return .error .notFound

/-- Looks at files. -/
def lookAll (store : Store) (paths : List String) : IO Store := do
  let mut store := store
  for path in paths do
    store := (path, ← look path) :: store
  return store

/-- Looks at the files of keywords in a directory and of all keywords that these call. -/
partial def lookAtKeywords (directory : String) (store : Store) (seen : List String) :
    List String → IO Store
  | [] => return store
  | name :: rest => do
    if seen.contains name then lookAtKeywords directory store seen rest
    else
      let paths := Library.extensions.map fun e => FilePath.join directory (name ++ "." ++ e)
      let store ← lookAll store (if Library.isFileName name then paths else [])
      let calls :=
        match Library.ofDirectory store.files directory name with
        | some keyword => Step.calls keyword.steps
        | none => []
      lookAtKeywords directory store (name :: seen) (calls ++ rest)

/-- Looks at the files that a scenario leads to. -/
def lookBehind (command : CommandLine.Command) (store : Store) : IO Store := do
  match command.scenarioFrom store.files with
  | .error _ => return store
  | .ok s =>
    let data :=
      match s.data with
      | some (.file path) => [Dataset.locate (some command.base) path]
      | _ => []
    let store ← lookAll store data
    match command.keywords with
    | none => return store
    | some directory =>
      lookAtKeywords directory store []
        (Step.calls s.steps ++ s.keywords.flatMap fun k => Step.calls k.2.steps)

/-- A fresh identifier. -/
def freshUuid : IO String := do
  let mut digits : List Char := []
  for i in [0:32] do
    let n ← IO.rand 0 15
    let n := if i = 12 then 4 else if i = 16 then 8 + n % 4 else n
    if i = 8 || i = 12 || i = 16 || i = 20 then digits := '-' :: digits
    digits := Text.hexDigit n :: digits
  return String.ofList digits.reverse

/-- The built-in names, with those variables of the environment that texts mention. -/
def surroundings (texts : List String) : IO Ambient := do
  let moment := (← Std.Time.Timestamp.now).toNanosecondsSinceUnixEpoch.val.toNat
  let mut environment : List (String × String) := []
  for name in texts.flatMap fun t => CommandLine.environmentNames t.toList do
    if let some value ← IO.getEnv name then environment := (name, value) :: environment
  let known := environment
  return {
    now := moment / tenTo 6
    timestamp := Calendar.timestamp moment
    uuid := ← freshUuid
    environment := fun name => known.lookup name }

/-- Runs a command and prints what it leaves behind. -/
def perform (command : CommandLine.Command) : IO UInt32 := do
  let store ← lookAll [] (command.file.toList ++ command.settings.toList)
  let store ← lookBehind command store
  let given := command.vars.map fun v => v.2.render
  let ending := command.run store.files (← surroundings (store.texts ++ given))
  if let some report := ending.report then
    IO.sleep (min report.elapsed (twoTo 32 - 1)).toUInt32
    IO.println report.toValue.pretty
  if let some complaint := ending.complaint then
    IO.eprintln ("Error: " ++ complaint)
  return ending.code.toUInt32

end Playbook.Program

/-- Runs what the arguments ask for. -/
def main (args : List String) : IO UInt32 := do
  match Playbook.CommandLine.parse args with
  | .run command => Playbook.Program.perform command
  | .help => do
    IO.println Playbook.CommandLine.usage
    return 0
  | .version => do
    IO.println Playbook.CommandLine.versionText
    return 0
  | .misuse => do
    IO.eprintln Playbook.CommandLine.usage
    return 2
