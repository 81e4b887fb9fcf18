import Playbook.Expr.Eval
import Playbook.Failure

/-!
# Conditions

A condition is written as a literal, as an expression, or as a record that joins conditions by
`and`, `or` or `not`. Groups are decided from left to right and no further than necessary.
-/

namespace Playbook

/-- A condition. -/
inductive Condition where
  | literal (v : Value)
  | expr (text : String)
  | all (items : List Condition)
  | any (items : List Condition)
  | not (c : Condition)
deriving Inhabited

namespace Condition

/-- The conditions of a group; `read` reads each of them. -/
def readGroup (read : Value → Except Failure Condition) (group : String) (v : Value) :
    Except Failure (List Condition) :=
  match v with
  | .list items => items.mapM read
  | _ => .error (.invalidAction (.groupNotList group))

/-- Reads a condition whose groups are nested to a depth of at most the given number. -/
def readAt : Nat → Value → Except Failure Condition
  | _, .text s => .ok (.expr s)
  | _, .list items => .error (.invalidAction (.conditionIsList (.list items)))
  | 0, .record fields => .error (.invalidAction (.conditionNotGroup (.record fields)))
  | depth + 1, .record fields =>
    match fields.lookup "and", fields.lookup "or", fields.lookup "not" with
    | some v, _, _ => (readGroup (readAt depth) "and" v).map .all
    | none, some v, _ => (readGroup (readAt depth) "or" v).map .any
    | none, none, some v => (readAt depth v).map .not
    | none, none, none => .error (.invalidAction (.conditionNotGroup (.record fields)))
  | _, v => .ok (.literal v)

/-- Reads a condition. -/
def read (v : Value) : Except Failure Condition :=
  readAt v.height v

mutual

/-- Whether a condition holds in a scope. -/
def eval (scope : Scope) (c : Condition) : Evaluated Bool :=
  match c with
  | .literal v => .ok v.isTruthy
  | .expr text => scope.test text
  | .all items => evalAll scope items
  | .any items => evalAny scope items
  | .not c => (eval scope c).map (!·)
termination_by structural c

/-- Whether all conditions hold. -/
def evalAll (scope : Scope) (items : List Condition) : Evaluated Bool :=
  match items with
  | [] => .ok true
  | c :: rest =>
    match eval scope c with
    | .ok true => evalAll scope rest
    | other => other
termination_by structural items

/-- Whether one of the conditions holds. -/
def evalAny (scope : Scope) (items : List Condition) : Evaluated Bool :=
  match items with
  | [] => .ok false
  | c :: rest =>
    match eval scope c with
    | .ok false => evalAny scope rest
    | other => other
termination_by structural items

end

end Condition

end Playbook
