import Playbook.Step

/-!
# Called keywords

The names of the keywords that a list of steps can call by itself. Names are never computed, so they
can be read off the steps.
-/

namespace Playbook

mutual

/-- The keywords that an action can call. -/
def Action.calls (action : Action) : List String :=
  match action with
  | .keyword name _ => [name]
  | .ifElse _ then_ else_ => Step.calls then_ ++ Step.calls else_
  | .forEach _ body => Step.calls body
  | .map _ body _ => Step.calls body
  | .filter _ _ => []
  | .while_ _ body _ => Step.calls body
  | .repeat_ _ body _ _ => Step.calls body
  | .parallel operations _ => Step.calls operations
  | .race operations _ => Step.calls operations
  | .batch operations _ => Step.calls operations
  | .parallelForEach _ body _ => Step.calls body
  | .try_ body catch_ finally_ _ =>
    Step.calls body
      ++ (match catch_ with
        | none => []
        | some steps => Step.calls steps)
      ++ Step.calls finally_
  | .assign _ _ => []
  | .return_ _ => []
  | .measure _ body _ => Step.calls body
  | .domain _ _ _ => []
termination_by structural action

/-- The keywords that a step can call. -/
def Step.callsOne (step : Step) : List String :=
  match step with
  | .mk action _ _ _ _ => Action.calls action
termination_by structural step

/-- The keywords that a list of steps can call. -/
def Step.calls (steps : List Step) : List String :=
  match steps with
  | [] => []
  | step :: rest => Step.callsOne step ++ Step.calls rest
termination_by structural steps

end

end Playbook
