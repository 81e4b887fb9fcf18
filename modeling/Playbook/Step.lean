import Playbook.Condition

/-!
# Steps

A step is an action with what belongs to every step: the variable that receives its value, whether
the list goes on when it fails, and a label. Most actions hold further steps.
-/

namespace Playbook

/-- The names of a loop's variables and what the loop runs over. -/
structure Iteration where
  /-- The variable that holds the element. -/
  item : String
  /-- The variable that holds the element's position, if there is one. -/
  index : Option String
  /-- What gives the elements. -/
  source : Value

/-- Where an assignment stores its values. -/
inductive Target where
  /-- Among the global variables. -/
  | globals
  /-- Among the variables of the current keyword call; outside of all calls, among the globals. -/
  | locals
deriving DecidableEq, Repr

/-- The word that an assignment is written with. -/
def Target.word : Target → String
  | globals => "set"
  | locals => "let"

/-- The settings of a block of concurrent operations; the configuration gives those that are
missing. -/
structure BlockSettings where
  maxConcurrency : Option Nat
  failFast : Option Bool
  /-- In milliseconds. -/
  timeout : Option Nat
deriving DecidableEq, Repr

/-- The settings of a batch; the configuration gives those that are missing. -/
structure BatchSettings where
  size : Option Nat
  /-- In milliseconds. -/
  delay : Option Nat
  maxRetries : Option Nat
  /-- In milliseconds. -/
  retryDelay : Option Nat
deriving DecidableEq, Repr

mutual

/-- What a step does. -/
inductive Action where
  | keyword (name : String) (args : List Value)
  | ifElse (condition : Condition) (then_ else_ : List Step)
  | forEach (iteration : Iteration) (body : List Step)
  /-- Each element becomes the resolved expression or, if there is none, the value of the body. -/
  | map (iteration : Iteration) (body : List Step) (expression : Option Value)
  | filter (iteration : Iteration) (condition : Condition)
  | while_ (condition : Condition) (body : List Step) (maxIterations : Option Nat)
  | repeat_ (times : Value) (body : List Step) (index iteration : String)
  | parallel (operations : List Step) (settings : BlockSettings)
  | race (operations : List Step) (timeout : Option Nat)
  | batch (operations : List Step) (settings : BatchSettings)
  | parallelForEach (iteration : Iteration) (body : List Step) (settings : BlockSettings)
  /-- Without `catch_` a failure goes on after `finally_` has run. -/
  | try_ (body : List Step) (catch_ : Option (List Step)) (finally_ : List Step) (binding : String)
  | assign (target : Target) (values : List (String × Value))
  | return_ (value : Value)
  /-- Records the given sample or, if there is none, the time that the body takes. -/
  | measure (name : String) (body : List Step) (sample : Option Value)
  /-- An action for the injected handlers. -/
  | domain (name : String) (params : Value) (options : List (String × Value))

/-- A step of a scenario. -/
inductive Step where
  | mk (action : Action) (returns : Option String) (continueOnError : Bool) (label : Option String)
    (source : Value)

end

namespace Action

/-- The kind of an action, as the log names it. -/
def kind : Action → String
  | keyword _ _ => "keyword"
  | ifElse _ _ _ => "if"
  | forEach _ _ => "foreach"
  | map _ _ _ => "map"
  | filter _ _ => "filter"
  | while_ _ _ _ => "while"
  | repeat_ _ _ _ _ => "repeat"
  | parallel _ _ => "parallel"
  | race _ _ => "race"
  | batch _ _ => "batch"
  | parallelForEach _ _ _ => "parallel_foreach"
  | try_ _ _ _ _ => "try"
  | assign _ _ => "set"
  | return_ _ => "return"
  | measure _ _ _ => "measure"
  | domain _ _ _ => "domain"

/-- Assignments and returns touch nothing but variables. -/
def isControl : Action → Bool
  | assign _ _ => true
  | return_ _ => true
  | _ => false

end Action

namespace Step

/-- What the step does. -/
def action : Step → Action
  | mk action _ _ _ _ => action

/-- The variable that receives the step's value. -/
def returns : Step → Option String
  | mk _ returns _ _ _ => returns

/-- Whether the list goes on when the step fails. -/
def continueOnError : Step → Bool
  | mk _ _ continueOnError _ _ => continueOnError

/-- The name that the step was given. -/
def label : Step → Option String
  | mk _ _ _ label _ => label

/-- The step as it was written. -/
def source : Step → Value
  | mk _ _ _ _ source => source

/-- The keys that the step was written with. -/
def keys (step : Step) : List String :=
  match step.source with
  | .record fields => Named.names fields
  | _ => []

/-- A short text for the step: its label, or what it does. -/
def describe (step : Step) : String :=
  match step.label with
  | some label => label
  | none =>
    match step.action with
    | .keyword name _ => "run " ++ name
    | .domain name _ _ => name
    | .assign target values => target.word ++ " " ++ ", ".intercalate (Named.names values)
    | action => action.kind

end Step

end Playbook
