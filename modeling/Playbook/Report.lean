import Playbook.Run.Rows
import Playbook.Scenario
import Playbook.Settings.Reader

/-!
# Reports

Running a scenario ends with a report: how it came out, the log of its steps, its metrics and the
variables it leaves. Steps that fail are part of the report; there is no report only if a keyword of
the scenario or its data cannot be used.
-/

namespace Playbook

/-- A failure as a report shows it. -/
structure ReportedFailure where
  message : String
  kind : String

/-- The report of a run. -/
structure Report where
  name : String
  value : Value
  /-- The failure that ended the run. -/
  error : Option ReportedFailure
  /-- The failures after which the run went on. -/
  failures : List ReportedFailure
  steps : List StepRecord
  metrics : Named MetricSummary
  rows : Option RowSummary
  vars : Named Value
  /-- How far the clock moved during the run, in milliseconds. -/
  elapsed : Nat

/-- Why there is no report. -/
inductive SetupError where
  | keyword (f : Failure)
  | dataset (e : DatasetError)
  | scenario (e : ScenarioError)
  | settings (e : Settings.SettingsError)

/-- The wording of an error. -/
def SetupError.message : SetupError → String
  | keyword f => "Eval error: " ++ f.message
  | dataset e => "Dataset error: " ++ e.message
  | scenario e => "Scenario error: " ++ e.message
  | settings e => "Internal error: " ++ e.message

/-- A failure as a report shows it. -/
def ReportedFailure.ofFailure (f : Failure) : ReportedFailure := ⟨f.message, f.kind⟩

/-- A failed row as a report shows it. -/
def ReportedFailure.ofRow? (r : RowOutcome) : Option ReportedFailure :=
  match r.result with
  | .ok _ => none
  | .error f => some ⟨"row " ++ toString r.index ++ ": " ++ f.message, "RowError"⟩

namespace Report

/-- Whether the run succeeded. -/
def success (r : Report) : Bool :=
  r.error.isNone && r.failures.isEmpty

end Report

namespace Scenario

variable {σ : Type}

/-- How the steps of a scenario came out. -/
structure Ran where
  value : Value
  error : Option ReportedFailure
  failures : List ReportedFailure
  rows : Option RowSummary
  vars : Variables

/-- The registry that knows the keywords of a scenario. -/
def registerAll (registry : Registry) : Named Keyword → Except SetupError Registry
  | [] => .ok registry
  | (name, keyword) :: rest =>
    match registry.register name keyword with
    | some registry => registerAll registry rest
    | none => .error (.keyword (.emptyKeyword name))

/-- Sets variables one after the other, each resolved with those before it set. -/
def setAll (engine : Engine σ) (vars : Variables) : Named Value → Except Crash Variables
  | [] => .ok vars
  | (name, v) :: rest =>
    match (engine.scope vars).resolve v with
    | .ok w => setAll engine (vars.setGlobal name w) rest
    | .error c => .error c

/-- Runs steps one after the other and goes on after a failure. `ran` is how those before came
out. -/
def playTolerant (engine : Engine σ) (index : Nat) (ran : Ran) : List Step → Play σ Ran
  | [] => pure { ran with failures := ran.failures.reverse }
  | step :: rest => do
    let o ← Play.run (engine.executeStep step index) ran.vars
    let ran := { ran with vars := o.vars }
    match o.result with
    | .ok (.continue v) => playTolerant engine (index + 1) { ran with value := v } rest
    | .ok (.return v) => pure { ran with value := v, failures := ran.failures.reverse }
    | .error f =>
      let failure := ReportedFailure.ofFailure (.inStep index f)
      playTolerant engine (index + 1) { ran with failures := failure :: ran.failures } rest

/-- Runs the steps of a scenario. `rows` are its data rows, if it has data. -/
def playSteps (engine : Engine σ) (s : Scenario) (rows : Option (List Value)) (vars : Variables) :
    Play σ Ran := do
  let begun : Ran := ⟨.null, none, [], none, vars⟩
  match rows with
  | some rows =>
    let (summary, vars) ← Rows.play (engine.execute s.steps) s.continueOnError rows vars
    match summary with
    | .ok summary =>
      return { begun with
        failures := summary.filterMap ReportedFailure.ofRow?, rows := some summary, vars := vars }
    | .error f => return { begun with error := some (.ofFailure f), vars := vars }
  | none =>
    if s.continueOnError then playTolerant engine 1 begun s.steps
    else
      let o ← Play.run (engine.execute s.steps) vars
      match o.result with
      | .ok flow => return { begun with value := flow.value, vars := o.vars }
      | .error f => return { begun with error := some (.ofFailure f), vars := o.vars }

/-- Runs a scenario in a new session and reports. Its keywords are registered and its variables are
set before its data is loaded. -/
def play (engine : Engine σ) (libraries : List Library) (files : Files) (base : Option String)
    (own : σ)
    (s : Scenario) : Except Abort (Except SetupError Report × List StepEvent) :=
  match registerAll (.ofLibraries libraries) s.keywords with
  | .error e => .ok (.error e, [])
  | .ok registry =>
    match setAll engine .empty s.vars with
    | .error c => .error (.crash c)
    | .ok vars =>
      match
          (s.data.mapM fun d => d.load files base : Except DatasetError (Option (List Value))) with
      | .error e => .ok (.error (.dataset e), [])
      | .ok rows =>
        match playSteps engine s rows vars (Session.start registry own) with
        | (.error a, _) => .error a
        | (.ok ran, session) =>
          let world := session.world
          .ok (.ok
            { name := s.name
              value := ran.value
              error := ran.error
              failures := ran.failures
              steps := world.results
              metrics := world.metrics.summaries
              rows := ran.rows
              vars := ran.vars.globals
              elapsed := session.now }, world.history)

end Scenario

end Playbook
