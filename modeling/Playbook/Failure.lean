import Playbook.Expr

/-!
# Failures

Why a step cannot be read or run. A failure has a root cause, and around it the places it came
through: steps, keyword calls, data rows and operations of a concurrent block. Each of them adds a
prefix to the message.

The root cause of a failure has no place around it (`isPlace_rootCause`). A place has no kind of its
own: the kind is that of the root cause.
-/

namespace Playbook

/-- Why an action failed. -/
inductive ActionError where
  | assertion (message : String)
  | failed (reason : String)
  | invalidParams (reason : String)

/-- The wording of an action's failure. -/
def ActionError.message : ActionError → String
  | assertion message => "assertion failed: " ++ message
  | failed reason => "action failed: " ++ reason
  | invalidParams reason => "invalid parameters: " ++ reason

/-- What is wrong with the way a step is written or with the values it is given. -/
inductive Flaw where
  | stepNotRecord (v : Value)
  | stepsNotList (v : Value)
  | returnsNotName (v : Value)
  | keywordNotName (v : Value)
  | conditionNotGroup (v : Value)
  | conditionIsList (v : Value)
  | groupNotList (group : String)
  | notRecord (construct : String) (v : Value)
  | missing (construct key : String)
  | notCount (key : String) (v : Value)
  | parallelNotBlock (v : Value)
  | parallelWithoutForm (keys : List String)
  | assignmentTarget (construct : String) (v : Value)
  | measuresNothing (name : String)
  | sourceUnset (name : String)
  | notIterable (v : Value)
  | timesNotCount (v : Value)
  | sampleNotNumber (name : String) (v : Value)

/-- A word in the quotes that messages use for what scenarios are written with. -/
def ticked (word : String) : String :=
  "`" ++ word ++ "`"

/-- The wording of a flaw. -/
def Flaw.message : Flaw → String
  | stepNotRecord v => "step must be an object, got " ++ v.render
  | stepsNotList v => "expected a list of steps, got " ++ v.render
  | returnsNotName v => ticked "returns" ++ " must be a variable name, got " ++ v.render
  | keywordNotName v => "keyword name must be a string, got " ++ v.render
  | conditionNotGroup v =>
    "condition object needs " ++ ticked "and" ++ ", " ++ ticked "or" ++ " or " ++ ticked "not"
      ++ ", got " ++ v.render
  | conditionIsList v => "condition must not be a bare list: " ++ v.render
  | groupNotList group => ticked group ++ " expects a list of conditions"
  | notRecord construct v => ticked construct ++ " expects an object, got " ++ v.render
  | missing construct key => ticked construct ++ " is missing " ++ ticked key
  | notCount key v => ticked key ++ " must be a non-negative integer, got " ++ v.render
  | parallelNotBlock v => ticked "parallel" ++ " expects a list or an object, got " ++ v.render
  | parallelWithoutForm keys =>
    ticked "parallel" ++ " object needs " ++ ticked "actions" ++ ", " ++ ticked "race" ++ ", "
      ++ ticked "batch" ++ " or " ++ ticked "forEach" ++ ", got keys ["
      ++ ", ".intercalate keys ++ "]"
  | assignmentTarget construct v =>
    ticked construct ++ " expects an object or a variable name, got " ++ v.render
  | measuresNothing name =>
    "measure '" ++ name ++ "' needs either " ++ ticked "do" ++ " or " ++ ticked "value"
  | sourceUnset name => "loop source '" ++ name ++ "' is not set"
  | notIterable v => "cannot iterate over " ++ v.render
  | timesNotCount v =>
    "repeat " ++ ticked "times" ++ " must be a non-negative integer, got " ++ v.render
  | sampleNotNumber name v => "measure '" ++ name ++ "' needs a numeric value, got " ++ v.render

/-- Why a step cannot be read or run. -/
inductive Failure where
  | unknownAction (keys : List String)
  | invalidAction (flaw : Flaw)
  | unknownKeyword (name : String)
  | emptyKeyword (name : String)
  | recursionLimit (name : String) (maxDepth : Nat)
  | loopLimit (limit : Nat)
  | expression (e : ExprError)
  | action (e : ActionError)
  | timeout (ms : Nat)
  | raceExhausted (failures : List String)
  /-- In an operation of a concurrent block, counted from zero. -/
  | inOperation (index : Nat) (cause : Failure)
  /-- In a data row, counted from zero. -/
  | inRow (index : Nat) (cause : Failure)
  /-- In a step of a list, counted from one. -/
  | inStep (index : Nat) (cause : Failure)
  /-- In a call of a keyword. -/
  | inKeyword (name : String) (cause : Failure)

namespace Failure

/-- The wording of a failure, from the outermost place to the root cause. -/
def message : Failure → String
  | unknownAction keys => "unknown action with keys [" ++ ", ".intercalate keys ++ "]"
  | invalidAction flaw => "invalid action: " ++ flaw.message
  | unknownKeyword name => "unknown keyword '" ++ name ++ "'"
  | emptyKeyword name => "invalid keyword '" ++ name ++ "': step list is empty"
  | recursionLimit name maxDepth =>
    "keyword '" ++ name ++ "' exceeded the maximum call depth of " ++ toString maxDepth
  | loopLimit limit => "while loop exceeded " ++ toString limit ++ " iterations"
  | expression e => "expression error: " ++ e.message
  | action e => e.message
  | timeout ms => "operation timed out after " ++ toString ms ++ "ms"
  | raceExhausted failures =>
    "all " ++ toString failures.length ++ " race operations failed: " ++ "; ".intercalate failures
  | inOperation index cause =>
    "parallel operation " ++ toString index ++ " failed: " ++ cause.message
  | inRow index cause => "row " ++ toString index ++ ": " ++ cause.message
  | inStep index cause => "step " ++ toString index ++ ": " ++ cause.message
  | inKeyword name cause => "keyword '" ++ name ++ "': " ++ cause.message

/-- The failure without the places it came through. -/
def rootCause : Failure → Failure
  | inOperation _ cause => cause.rootCause
  | inRow _ cause => cause.rootCause
  | inStep _ cause => cause.rootCause
  | inKeyword _ cause => cause.rootCause
  | cause => cause

/-- Whether a failure is a place around another one. -/
def isPlace : Failure → Bool
  | inOperation _ _ => true
  | inRow _ _ => true
  | inStep _ _ => true
  | inKeyword _ _ => true
  | _ => false

/-- The kind of the root cause, as scenarios see it. -/
def kind : Failure → String
  | unknownAction _ => "UnknownActionError"
  | invalidAction _ => "InvalidActionError"
  | unknownKeyword _ => "UnknownKeywordError"
  | emptyKeyword _ => "InvalidKeywordError"
  | recursionLimit _ _ => "RecursionLimitError"
  | loopLimit _ => "LoopLimitError"
  | expression _ => "ExpressionError"
  | action (.assertion _) => "AssertionError"
  | action _ => "ActionError"
  | timeout _ => "TimeoutError"
  | raceExhausted _ => "RaceError"
  | inOperation _ cause => cause.kind
  | inRow _ cause => cause.kind
  | inStep _ cause => cause.kind
  | inKeyword _ cause => cause.kind

theorem isPlace_rootCause (f : Failure) : f.rootCause.isPlace = false := by
  induction f <;> simp_all [rootCause, isPlace]

/-- A failure as the value that scenarios see when they catch it. -/
def toValue (f : Failure) : Value :=
  .record [
    ("message", .text f.rootCause.message),
    ("kind", .text f.kind),
    ("trace", .text f.message)]

end Failure

end Playbook
