import Playbook.Expr.Eval
import Playbook.Failure
import Playbook.Number.Numeral
import Playbook.Variables

/-!
# Handlers

A step that is none of the constructs is an action for a handler. A handler says which actions it
supports and how it goes about one: it may change a state of its own, let time pass, and in the end
it answers with a value or a failure. It can see the variables but not change them. Nor can it write
into the log, tell the observer of anything, record a sample, call a keyword or run steps: the type
has no word for it. A handler that does so behind the back of a run is not spoken of here, and what
is proved of the log, the events and the variables of a run is not proved for it.

`Handler.chain` asks handlers in order, and `Handler.standard` has the actions that every scenario
can use: `assert`, `log`, `sleep` with its other name `wait`, and `echo`.
-/

namespace Playbook

/-- An action that a handler is asked to carry out. -/
structure ActionCall where
  name : String
  /-- The parameters with all their strings resolved. -/
  params : Value
  /-- What stands beside the action under the keys `from`, `message` and `timeout`, resolved. -/
  options : Named Value
  /-- The parameters as they are written. -/
  written : Value

/-- How a handler with states in `σ` goes about an action. Of all that a run shares it reaches the
state in `σ` only. -/
inductive Handling (σ : Type) where
  | answer (result : Except ActionError Value)
  | crash (c : Crash)
  /-- Changes the handler's state and goes on, depending on the state from before. -/
  | act (update : σ → σ) (next : σ → Handling σ)
  /-- Lets a time in milliseconds pass. -/
  | sleep (ms : Nat) (next : Handling σ)

/-- A handler: which actions it supports, and how it goes about one among the variables that it
sees. -/
structure Handler (σ : Type) where
  supports : String → Bool
  handle : ActionCall → Variables → Handling σ

namespace Handling

variable {σ : Type}

/-- Answers with a value. -/
def value (v : Value) : Handling σ := .answer (.ok v)

/-- Answers that the action failed. -/
def failed (reason : String) : Handling σ := .answer (.error (.failed reason))

/-- Answers that the parameters are no good. -/
def invalidParams (reason : String) : Handling σ := .answer (.error (.invalidParams reason))

end Handling

namespace Handler

variable {σ : Type}

/-- Asks handlers in order; the first one that supports an action carries it out. -/
def chain (handlers : List (Handler σ)) : Handler σ where
  supports name := handlers.any fun h => h.supports name
  handle call vars :=
    match handlers.find? fun h => h.supports call.name with
    | some h => h.handle call vars
    | none => .failed ("no handler for '" ++ call.name ++ "'")

/-- Whether what an assertion asks for holds: an expression by its value, anything else as it is. -/
def assertionHolds (scope : Scope) : Value → Evaluated Bool
  | .text s => scope.test s
  | v => .ok v.isTruthy

/-- Checks a condition. It is the parameter itself, or in a record the field `condition` or `that`.
A failed assertion shows the message that goes with it or, if there is none, the condition. -/
def checkAssertion (scope : Scope) (call : ActionCall) : Handling σ :=
  let condition? : Option Value :=
    match call.written with
    | .record fields => fields.lookup "condition" <|> fields.lookup "that"
    | v => some v
  match condition? with
  | none => .invalidParams "assert needs a condition"
  | some condition =>
    match assertionHolds scope condition with
    | .ok true => .value (.bool true)
    | .ok false =>
      let message? :=
        (match call.written with
          | .record _ => call.params.field? "message"
          | _ => none) <|> call.options.lookup "message"
      .answer (.error (.assertion (message?.getD condition).display))
    | .error (.error e) => .invalidParams e.message
    | .error (.crash c) => .crash c

/-- The text that is logged: the field `message` of a record that has it, or else all of it. -/
def logText (params : Value) : String :=
  ((params.field? "message").getD params).display

/-- A time in milliseconds: an unsigned number, a double cut off to an integer, or the text of an
unsigned number. -/
def milliseconds? : Value → Option Nat
  | .number n =>
    match n.toNat? with
    | some ms => some ms
    | none => if n.toFloat ≥ 0 then some n.toFloat.toUInt64.toNat else none
  | .text s => Numeral.unsigned? (Text.trim s.toList)
  | _ => none

/-- Lets time pass. The time is the parameter itself, or in a record the field `ms` or
`duration`. -/
def pause (call : ActionCall) : Handling σ :=
  let time? : Option Nat :=
    match call.params with
    | .record fields => (fields.lookup "ms" <|> fields.lookup "duration").bind milliseconds?
    | v => milliseconds? v
  match time? with
  | some ms => .sleep ms (.value .null)
  | none => .invalidParams (call.name ++ " expects milliseconds, got " ++ call.params.render)

/-- The names of the standard actions. -/
def standardNames : List String := ["assert", "log", "sleep", "wait", "echo"]

/-- The standard actions. -/
def standard (ambient : Ambient) : Handler σ where
  supports name := standardNames.contains name
  handle call vars :=
    match call.name with
    | "assert" => checkAssertion (vars.scope ambient) call
    | "log" => .value (.text (logText call.params))
    | "sleep" => pause call
    | "wait" => pause call
    | "echo" => .value call.params
    | other => .failed ("unsupported standard action '" ++ other ++ "'")

end Handler

end Playbook
