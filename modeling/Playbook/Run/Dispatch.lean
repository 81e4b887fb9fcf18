import Playbook.Run.Block

/-!
# Running steps

What each step does, put together from the runners of its construct. Around every step the observer
is told of its start and its end, its value is bound to its variable, and its end goes into the log.

The runner of a step is defined by recursion on the step; `call` says what a keyword call does.
`Engine.invokeWithin` ties the knot: by recursion on how many further calls may be nested.
-/

namespace Playbook

namespace Handling

variable {σ : Type}

/-- A handling as a task of a run. -/
def task (vars : Variables) : Handling σ → Task σ
  | .answer (.ok v) => Runner.yield v vars
  | .answer (.error e) => Runner.fail (.action e) vars
  | .crash c => .crash c
  | .act update next => .act (.own update) fun w => (next w.own).task vars
  | .sleep ms next => .sleep ms vars (next.task vars)

end Handling

namespace Runner

variable {σ : Type}

/-- Asks the handlers to carry out an action. `keys` are those of the step. -/
def perform (engine : Engine σ) (keys : List String) (name : String) (params : Value)
    (options : Named Value) : Runner σ :=
  if engine.handler.supports name then
    compute (fun vars => do
      let params' ← engine.resolve params vars
      let options' ← ((engine.scope vars).resolveFields options).mapError .crash
      return ActionCall.mk name params' options' params) fun call =>
        fun vars => (engine.handler.handle call vars).task vars
  else fail (.unknownAction keys)

/-- Stores values one after the other, each resolved with those before it stored. The value is the
last one. -/
def assignFrom (engine : Engine σ) (target : Target) (last : Value) :
    List (String × Value) → Runner σ
  | [] => yield last
  | (name, v) :: rest =>
    compute (engine.resolve v) fun v =>
      changing (match target with
        | .globals => Variables.setGlobal name v
        | .locals => Variables.bind name v)
        (assignFrom engine target v rest)

/-- Runs one of two lists. -/
def branch (engine : Engine σ) (condition : Condition) (then_ else_ : Runner σ) : Runner σ :=
  compute (engine.test condition) fun holds => if holds then then_ else else_

/-- Runs `r` and goes on with the outcome from before, unless `r` fails or returns. -/
def restoring (o : Outcome) (r : Runner σ) : Task σ :=
  (r o.vars).andThen fun last =>
    match last.result with
    | .ok (.continue _) => .done { o with vars := last.vars }
    | _ => .done last

/-- Runs a body. If it fails, the failure is bound to a variable and `catch_` runs. -/
def caught (body : Runner σ) (catch_ : Option (Runner σ)) (binding : String) : Runner σ :=
  body.andThen fun o =>
    match o.result, catch_ with
    | .error f, some r => r (o.vars.bind binding f.toValue)
    | _, _ => .done o

/-- Runs a body, with `catch_` if it fails; in any case `finally_` runs in the end. -/
def catching (body : Runner σ) (catch_ finally_ : Option (Runner σ)) (binding : String) :
    Runner σ :=
  match finally_ with
  | some r => (caught body catch_ binding).andThen fun o => restoring o r
  | none => caught body catch_ binding

/-- A sample of a metric: a number or the text of one. -/
def sample? : Value → Option Float
  | .text s => Numeral.double? (Text.trim s.toList)
  | v => v.float?

/-- Records a sample of a metric. -/
def sampling (engine : Engine σ) (name : String) (sample : Value) : Runner σ :=
  compute (engine.resolve sample) fun v =>
    match sample? v with
    | some x => doing (.measure name x) (yield v)
    | none => fail (.invalidAction (.sampleNotNumber name v))

/-- Runs a body and records the time that it took. -/
def timing (engine : Engine σ) (name : String) (body : Runner σ) : Runner σ :=
  body.andThen fun o =>
    .doing (.time name engine.stopwatch.body engine.stopwatch.turn) (.done o)

/-- The variables after a step: a step that ends with a value stores it in the step's variable. -/
def bindReturns (returns : Option String) (o : Outcome) : Variables :=
  match o.result, returns with
  | .ok (.continue v), some name => o.vars.bind name v
  | _, _ => o.vars

/-- Runs the action of a step at a position of its list, with all that belongs to a step around
it. -/
def observed (engine : Engine σ) (step : Step) (index : Nat) (r : Runner σ) :
    Runner σ := fun vars =>
  let depth := vars.depth
  .doing (.start step index depth) <| (r vars).andThen fun o =>
    let logged := !step.action.isControl || engine.settings.recordControlSteps
    let after := bindReturns step.returns o
    .doing (.finish step index depth (o.result.map Flow.value) logged) <|
      if o.failed && step.continueOnError then yield .null after
      else .done { o with vars := after }

/-- The value of a keyword call whose steps have ended without a `return`. -/
def declaredValue (scope : Scope) : Option String → Except Halt Value
  | none => .ok .null
  | some text =>
    if Path.isPath text then .ok ((scope.lookup? text).getD .null)
    else (scope.resolveText text).mapError .crash

/-- What a keyword call ends with, by the outcome of its steps. -/
def returning (engine : Engine σ) (keyword : Keyword) (name : String) (o : Outcome) : Task σ :=
  match o.result with
  | .error f => fail (.inKeyword name f) o.vars.leave
  | .ok (.return v) => yield v o.vars.leave
  | .ok (.continue _) =>
    compute (fun _ => declaredValue (engine.scope o.vars) keyword.returns) yield o.vars.leave

/-- Runs the steps of a keyword with variables of its own, and gets back to the variables of the
caller. -/
def calling (engine : Engine σ) (keyword : Keyword) (name : String) (args : List Value)
    (steps : Runner σ) : Runner σ := fun vars =>
  (steps (vars.enter (keyword.bindArguments args))).andThen (returning engine keyword name)

end Runner

/-- What a keyword call does. -/
abbrev Calls (σ : Type) := String → List Value → Runner σ

section

variable {σ : Type} (engine : Engine σ) (call : Calls σ)

mutual

/-- What an action does; `keys` are those of its step. -/
def Action.runner (keys : List String) (action : Action) : Runner σ :=
  match action with
  | .keyword name args =>
    .compute (fun vars => ((engine.scope vars).resolveItems args).mapError .crash) (call name)
  | .ifElse condition then_ else_ =>
    .branch engine condition (.inOrder (Step.runners then_)) (.inOrder (Step.runners else_))
  | .forEach iteration body => .forEach engine iteration (.inOrder (Step.runners body))
  | .map iteration body expression =>
    .mapEach engine iteration
      (match body with
        | [] => none
        | first :: rest => some (.inOrder (Step.runner first :: Step.runners rest)))
      expression
  | .filter iteration condition => .filterEach engine iteration condition
  | .while_ condition body maxIterations =>
    .whileHolds engine condition (.inOrder (Step.runners body))
      (maxIterations.getD engine.settings.maxWhileIterations)
  | .repeat_ times body index iteration =>
    .repeatTimes engine times index iteration (.inOrder (Step.runners body))
  | .parallel operations settings =>
    .countable engine settings
      (.parallel engine settings ((Step.runners operations).map fun r => .inOrder [r]))
  | .race operations timeout =>
    .race engine timeout ((Step.runners operations).map fun r => .inOrder [r])
  | .batch operations settings =>
    .batch engine settings ((Step.runners operations).map fun r => .inOrder [r])
  | .parallelForEach iteration body settings =>
    -- a collection that cannot be had is a failure of the block before it is begun
    .compute (Runner.elements engine iteration.source) fun _ =>
      .countable engine settings
        (.parallelForEach engine settings iteration (.inOrder (Step.runners body)))
  | .try_ body catch_ finally_ binding =>
    .catching (.inOrder (Step.runners body))
      (match catch_ with
        | none => none
        | some steps => some (.inOrder (Step.runners steps)))
      (match finally_ with
        | [] => none
        | first :: rest => some (.inOrder (Step.runner first :: Step.runners rest)))
      binding
  | .assign target values => .assignFrom engine target .null values
  | .return_ v => .compute (engine.resolve v) .leave
  | .measure name body sample =>
    match sample with
    | some v => .sampling engine name v
    | none => .timing engine name (.inOrder (Step.runners body))
  | .domain name params options => .perform engine keys name params options
termination_by structural action

/-- What a step does at a position of its list. -/
def Step.runner (step : Step) : Nat → Runner σ :=
  match step with
  | .mk action returns continueOnError label source =>
    let step := Step.mk action returns continueOnError label source
    let r := Action.runner step.keys action
    fun index => .observed engine step index r
termination_by structural step

/-- What each step of a list does. -/
def Step.runners (steps : List Step) : List (Nat → Runner σ) :=
  match steps with
  | [] => []
  | step :: rest => Step.runner step :: Step.runners rest
termination_by structural steps

end

/-- What a list of steps does. -/
def Step.listRunner (steps : List Step) : Runner σ :=
  .inOrder (Step.runners engine call steps)

end

namespace Engine

variable {σ : Type}

/-- What a keyword call does if `left` calls may be nested: the call itself and those that it
makes. -/
def invokeWithin (engine : Engine σ) (left : Nat) : Calls σ := fun name args vars =>
  .act (.visit name) fun w =>
    match w.registry.find? name with
    | none => Runner.fail (.unknownKeyword name) vars
    | some keyword =>
      match left with
      | 0 => Runner.fail (.recursionLimit name engine.settings.maxKeywordDepth) vars
      | left + 1 =>
        Runner.calling engine keyword name args
          (Step.listRunner engine (invokeWithin engine left) keyword.steps) vars
termination_by structural left

/-- How many further keyword calls may be nested. -/
def callsLeft (engine : Engine σ) (vars : Variables) : Nat :=
  engine.settings.maxKeywordDepth - vars.depth

/-- What a keyword call does among calls that are under way already. -/
def invoke (engine : Engine σ) : Calls σ := fun name args vars =>
  engine.invokeWithin (engine.callsLeft vars) name args vars

/-- What a list of steps does. -/
def execute (engine : Engine σ) (steps : List Step) : Runner σ := fun vars =>
  Step.listRunner engine (engine.invokeWithin (engine.callsLeft vars)) steps vars

/-- What a step does at a position of its list. -/
def executeStep (engine : Engine σ) (step : Step) (index : Nat) : Runner σ := fun vars =>
  Step.runner engine (engine.invokeWithin (engine.callsLeft vars)) step index vars

end Engine

end Playbook
