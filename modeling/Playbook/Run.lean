import Playbook.Handler
import Playbook.Settings
import Playbook.World

/-!
# Runners

A runner is what a step does: from the variables it finds, it makes a task that ends with an outcome
and with the variables it leaves. Runners are put together from small ones. A failure, a `return`
and a crash all end the runner they happen in; who wants to go on after a failure or a `return`
looks at the outcome.
-/

namespace Playbook

/-- How a step or a list of steps ends if it does not fail. -/
inductive Flow where
  /-- The next step follows. -/
  | continue (value : Value)
  /-- A `return` ends the lists up to the keyword call. -/
  | return (value : Value)

/-- The value with which a step ends. -/
def Flow.value : Flow → Value
  | .continue v => v
  | .return v => v

/-- What a task ends with. -/
structure Outcome where
  result : Except Failure Flow
  /-- The variables that the task leaves. -/
  vars : Variables
  /-- How often the task tried what it was asked to do. -/
  attempts : Nat

/-- A task: a process on the world of a run that has variables to itself. -/
abbrev Task (σ : Type) := Process (Deed σ) (World σ) Variables Outcome Crash

/-- What a step does with the variables it finds. -/
abbrev Runner (σ : Type) := Variables → Task σ

/-- What times are measured with. What it shows is told by a state outside of the run, which a look
at it may change; so no two looks need show the same. -/
class Stopwatch (σ : Type) where
  /-- The milliseconds that the operations of a block took, by their positions in it. -/
  operation : σ → Nat → UInt64
  /-- The milliseconds that a body took. -/
  body : σ → Number
  /-- The state after a look. -/
  turn : σ → σ

/-- A stopwatch that stands still. -/
instance (priority := low) Stopwatch.still {σ : Type} : Stopwatch σ where
  operation _ _ := 0
  body _ := .int 0 (by decide)
  turn := id

/-- What stays the same during a run. -/
structure Engine (σ : Type) where
  settings : Settings
  handler : Handler σ
  ambient : Ambient
  /-- What times are measured with; it stands still if nothing else is said. -/
  [stopwatch : Stopwatch σ]

/-- The scope of variables in an engine's surroundings. -/
def Engine.scope {σ : Type} (engine : Engine σ) (vars : Variables) : Scope :=
  vars.scope engine.ambient

/-- Why something cannot be computed for a step. -/
inductive Halt where
  | failure (f : Failure)
  | crash (c : Crash)

/-- Why an expression has no value, for the step that asked for it. -/
def Halt.ofStop : Stop → Halt
  | .error e => .failure (.expression e)
  | .crash c => .crash c

namespace Outcome

/-- Whether a task has failed. -/
def failed (o : Outcome) : Bool :=
  !o.result.isOk

/-- Ends with a value. -/
def yield (v : Value) (vars : Variables) : Outcome := ⟨.ok (.continue v), vars, 1⟩

/-- Ends with a failure. -/
def fail (f : Failure) (vars : Variables) : Outcome := ⟨.error f, vars, 1⟩

/-- The outcome with a place put around its failure. -/
def mapFailure (place : Failure → Failure) (o : Outcome) : Outcome :=
  { o with result := o.result.mapError place }

end Outcome

namespace Runner

variable {σ : Type} {α : Type}

/-- Ends with a value. -/
def yield (v : Value) : Runner σ := fun vars => .done (.yield v vars)

/-- Ends with a failure. -/
def fail (f : Failure) : Runner σ := fun vars => .done (.fail f vars)

/-- Leaves the list of steps with a value. -/
def leave (v : Value) : Runner σ := fun vars => .done ⟨.ok (.return v), vars, 1⟩

/-- Goes on from the outcome, whatever it is. -/
def andThen (r : Runner σ) (k : Outcome → Task σ) : Runner σ := fun vars => (r vars).andThen k

/-- Goes on with the value, unless there was a failure or a `return`. -/
def onValue (r : Runner σ) (k : Value → Runner σ) : Runner σ :=
  r.andThen fun o =>
    match o.result with
    | .ok (.continue v) => k v o.vars
    | _ => .done o

/-- Computes something from the variables and goes on with it. -/
def compute (f : Variables → Except Halt α) (k : α → Runner σ) : Runner σ := fun vars =>
  match f vars with
  | .ok a => k a vars
  | .error (.failure f) => fail f vars
  | .error (.crash c) => .crash c

/-- Changes the variables and goes on. -/
def changing (f : Variables → Variables) (r : Runner σ) : Runner σ := fun vars => r (f vars)

/-- Does something to the world and goes on. -/
def doing (deed : Deed σ) (r : Runner σ) : Runner σ := fun vars =>
  .doing deed (r vars)

/-- Runs a list of runners in order, each one with its position, from a given position and a value
that an empty list ends with. The first failure ends the list; it tells the position. -/
def inOrderFrom (index : Nat) (last : Value) : List (Nat → Runner σ) → Runner σ
  | [] => yield last
  | r :: rest => (r index).andThen fun o =>
    match o.result with
    | .ok (.continue v) => inOrderFrom (index + 1) v rest o.vars
    | _ => .done (o.mapFailure (.inStep index))

/-- Runs a list of runners in order. Its value is that of the last one; that of the empty list is
`null`. -/
def inOrder (runners : List (Nat → Runner σ)) : Runner σ :=
  inOrderFrom 1 .null runners

end Runner

namespace Engine

variable {σ : Type}

/-- The value of a condition. -/
def test (engine : Engine σ) (condition : Condition) (vars : Variables) : Except Halt Bool :=
  (condition.eval (engine.scope vars)).mapError .ofStop

/-- A value with all its strings resolved. -/
def resolve (engine : Engine σ) (v : Value) (vars : Variables) : Except Halt Value :=
  ((engine.scope vars).resolve v).mapError .crash

end Engine

end Playbook
