import Playbook.Expr.Operation
import Playbook.Expr.Parser
import Playbook.Scope
import Playbook.Template

/-!
# Evaluation

The value of an expression and the text of a template in a scope.

Evaluation can meet further texts: the inside of a reference that is not a path is an expression,
and a string with placeholders is a template whose placeholders are expressions. `Expr.evalWith` and
`Template.fillWith` leave these texts to an `Inner`, and `Scope.inner` is the one that evaluates
them in turn, down to a given depth. A text is longer than any text inside it, so its length is
depth enough.

A placeholder is replaced if it is a path that leads to a value, or an expression all of whose names
and references do and which has a value. Any other placeholder stays as it is written.
-/

namespace Playbook

/-- How the texts inside an expression or a template are evaluated. -/
structure Inner where
  /-- The value of an expression given as text. -/
  value : String → Evaluated Value
  /-- Whether a text is an expression whose names and references all lead to values. -/
  isBound : String → Bool

namespace Template

/-- The value that replaces a placeholder; none if it stays. -/
def placeholderWith (scope : Scope) (inner : Inner) (cs : List Char) :
    Except Crash (Option Value) :=
  let text := String.ofList (Text.trim cs)
  if text = "" then .ok none
  else if Path.isPath text then .ok (scope.lookup? text)
  else if inner.isBound text then
    match inner.value text with
    | .ok v => .ok (some v)
    | .error (.error _) => .ok none
    | .error (.crash c) => .error c
  else .ok none

/-- The text that a piece of a template becomes. -/
def pieceWith (scope : Scope) (inner : Inner) (piece : Piece) : Except Crash String :=
  match piece with
  | .placeholder cs =>
    match placeholderWith scope inner cs with
    | .ok (some v) => .ok v.display
    | .ok none => .ok (String.ofList piece.written)
    | .error c => .error c
  | _ => .ok (String.ofList piece.written)

/-- The texts that the pieces of a template become, one behind the other. -/
def piecesWith (scope : Scope) (inner : Inner) : List Piece → Except Crash String
  | [] => .ok ""
  | piece :: rest =>
    match pieceWith scope inner piece with
    | .error c => .error c
    | .ok text => (piecesWith scope inner rest).map (text ++ ·)

/-- The text of a template with its placeholders replaced. -/
def fillWith (scope : Scope) (inner : Inner) (text : String) : Except Crash String :=
  piecesWith scope inner (pieces text.toList)

end Template

namespace Expr

/-- The value of an expression. -/
def evalWith (scope : Scope) (inner : Inner) : Expr → Evaluated Value
  | literal v => .ok v
  | template text =>
    match Template.fillWith scope inner text with
    | .ok s => .ok (.text s)
    | .error c => .error (.crash c)
  | name word => .ok ((scope.lookup? word).getD (.text word))
  | reference text =>
    if Path.isPath text then .ok ((scope.lookup? text).getD .null) else inner.value text
  | not e => (evalWith scope inner e).map fun v => .bool (!v.isTruthy)
  | neg e => (evalWith scope inner e).bind Value.negated
  | and left right =>
    match evalWith scope inner left with
    | .error stop => .error stop
    | .ok v =>
      if v.isTruthy then (evalWith scope inner right).map fun w => .bool w.isTruthy
      else .ok (.bool false)
  | or left right =>
    match evalWith scope inner left with
    | .error stop => .error stop
    | .ok v =>
      if v.isTruthy then .ok (.bool true)
      else (evalWith scope inner right).map fun w => .bool w.isTruthy
  | compare op left right =>
    match evalWith scope inner left with
    | .error stop => .error stop
    | .ok v =>
      match evalWith scope inner right with
      | .error stop => .error stop
      | .ok w => (op.apply v w).map .bool
  | compute op left right =>
    match evalWith scope inner left with
    | .error stop => .error stop
    | .ok v =>
      match evalWith scope inner right with
      | .error stop => .error stop
      | .ok w => op.apply v w

/-- Whether all names and references of an expression lead to values. -/
def boundWith (scope : Scope) (inner : Inner) : Expr → Bool
  | literal _ => true
  | template _ => true
  | name word => (scope.lookup? word).isSome
  | reference text =>
    if Path.isPath text then (scope.lookup? text).isSome else inner.isBound text
  | not e => boundWith scope inner e
  | neg e => boundWith scope inner e
  | and left right => boundWith scope inner left && boundWith scope inner right
  | or left right => boundWith scope inner left && boundWith scope inner right
  | compare _ left right => boundWith scope inner left && boundWith scope inner right
  | compute _ left right => boundWith scope inner left && boundWith scope inner right

end Expr

namespace Scope

/-- Evaluates texts that hold further texts to a depth below the given number. -/
def inner (scope : Scope) : Nat → Inner
  | 0 => ⟨fun _ => .ok .null, fun _ => false⟩
  | depth + 1 =>
    { value := fun text =>
        match Expr.parse text with
        | .error e => .error (.error e)
        | .ok e => e.evalWith scope (scope.inner depth)
      isBound := fun text =>
        match Expr.parse text with
        | .error _ => false
        | .ok e => e.boundWith scope (scope.inner depth) }

/-- The depth to which a text can hold further texts is less than its length. -/
def depthOf (text : String) : Nat :=
  text.length + 1

/-- The value of an expression given as text. -/
def evaluate (scope : Scope) (text : String) : Evaluated Value :=
  (scope.inner (depthOf text)).value text

/-- The truth of an expression given as text. -/
def test (scope : Scope) (text : String) : Evaluated Bool :=
  (scope.evaluate text).map Value.isTruthy

/-- Whether a text is an expression whose names and references all lead to values. -/
def isBound (scope : Scope) (text : String) : Bool :=
  (scope.inner (depthOf text)).isBound text

/-- The text of a template with its placeholders replaced. -/
def fill (scope : Scope) (text : String) : Except Crash String :=
  Template.fillWith scope (scope.inner (depthOf text)) text

/-- The value of a string. A single placeholder becomes its value, of whatever kind; anything else
is filled in as a template. -/
def resolveText (scope : Scope) (text : String) : Except Crash Value :=
  match Template.single? text.toList with
  | some cs =>
    match Template.placeholderWith scope (scope.inner (depthOf text)) cs with
    | .ok (some v) => .ok v
    | .ok none => .ok (.text text)
    | .error c => .error c
  | none => (scope.fill text).map .text

mutual

/-- A value with all its strings resolved. -/
def resolve (scope : Scope) (v : Value) : Except Crash Value :=
  match v with
  | .text s => scope.resolveText s
  | .list items => (resolveItems scope items).map .list
  | .record fields => (resolveFields scope fields).map .record
  | v => .ok v
termination_by structural v

/-- The items of a list with all their strings resolved. -/
def resolveItems (scope : Scope) (items : List Value) : Except Crash (List Value) :=
  match items with
  | [] => .ok []
  | v :: rest =>
    match resolve scope v with
    | .error c => .error c
    | .ok w => (resolveItems scope rest).map (w :: ·)
termination_by structural items

/-- The fields of a record with all the strings in their values resolved. -/
def resolveFields (scope : Scope) (fields : List (String × Value)) :
    Except Crash (List (String × Value)) :=
  match fields with
  | [] => .ok []
  | (k, v) :: rest =>
    match resolve scope v with
    | .error c => .error c
    | .ok w => (resolveFields scope rest).map ((k, w) :: ·)
termination_by structural fields

end

/-- A value that is a string is resolved; any other value stays as it is. -/
def resolveReference (scope : Scope) : Value → Except Crash Value
  | .text s => scope.resolveText s
  | v => .ok v

end Scope

end Playbook
