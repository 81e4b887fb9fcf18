import Playbook.Run

/-!
# Loops

The loops one after the other: over the elements of a collection, while a condition holds, and a
number of times. What a loop runs over is settled when it begins. Its variables are those of the
list it stands in, are set before each pass, and keep their last values.
-/

namespace Playbook

namespace Runner

variable {σ : Type}

/-- The variables with an element and its position bound for a pass of a loop. -/
def bindPass (iteration : Iteration) (index : Nat) (item : Value) (vars : Variables) : Variables :=
  let vars := vars.bind iteration.item item
  match iteration.index with
  | some name => vars.bind name (.nat index)
  | none => vars

/-- An entry of a record as an element. -/
def entry (field : String × Value) : Value :=
  .record [("key", .text field.1), ("value", field.2)]

/-- The elements of a collection. Those of a record are its entries. -/
def elementsOf : Value → Except Halt (List Value)
  | .list items => .ok items
  | .record fields => .ok (fields.map entry)
  | v => .error (.failure (.invalidAction (.notIterable v)))

/-- The elements that a loop runs over. A text that is a path names a variable, which must be
set. -/
def elements (engine : Engine σ) (source : Value) (vars : Variables) :
    Except Halt (List Value) := do
  let resolved ←
    match source with
    | .text name =>
      if Path.isPath name then
        match (engine.scope vars).lookup? name with
        | some v => .ok v
        | none => .error (.failure (.invalidAction (.sourceUnset name)))
      else engine.resolve source vars
    | _ => engine.resolve source vars
  elementsOf resolved

/-- Runs over elements from a given position on. Each pass makes a list of values, and `finish`
makes a value of all of them. -/
def passes (iteration : Iteration) (finish : List Value → Value)
    (pass : Value → (List Value → Runner σ) → Runner σ) (index : Nat) (made : List Value) :
    List Value → Runner σ
  | [] => yield (finish made.reverse)
  | item :: rest =>
    changing (bindPass iteration index item)
      (pass item fun values =>
        passes iteration finish pass (index + 1) (values.reverse ++ made) rest)

/-- Runs a body for each element. The value is the number of elements. -/
def forEach (engine : Engine σ) (iteration : Iteration) (body : Runner σ) : Runner σ :=
  compute (elements engine iteration.source) fun items =>
    passes iteration (fun _ => .nat items.length)
      (fun _ next => body.onValue fun _ => next []) 0 [] items

/-- Makes a list with a value for each element: the resolved expression if there is one, or else the
value of the body, and the element itself if there is no body either. -/
def mapEach (engine : Engine σ) (iteration : Iteration) (body : Option (Runner σ))
    (expression : Option Value) : Runner σ :=
  compute (elements engine iteration.source) fun items =>
    passes iteration .list (fun item next =>
      match expression, body with
      | some e, _ => compute (engine.resolve e) fun v => next [v]
      | none, some body => body.onValue fun v => next [v]
      | none, none => next [item]) 0 [] items

/-- Makes a list of the elements of which a condition holds. -/
def filterEach (engine : Engine σ) (iteration : Iteration) (condition : Condition) : Runner σ :=
  compute (elements engine iteration.source) fun items =>
    passes iteration .list (fun item next =>
      compute (engine.test condition) fun holds => next (if holds then [item] else [])) 0 [] items

/-- Runs a body while a condition holds, `left` more times at most out of `limit`. The value is the
number of passes. -/
def whileFrom (engine : Engine σ) (condition : Condition) (body : Runner σ) (limit : Nat) :
    Nat → Runner σ
  | 0 => compute (engine.test condition) fun holds =>
    if holds then fail (.loopLimit limit) else yield (.nat limit)
  | left + 1 => compute (engine.test condition) fun holds =>
    if holds then body.onValue fun _ => whileFrom engine condition body limit left
    else yield (.nat (limit - (left + 1)))

/-- Runs a body while a condition holds. It fails if the condition still holds after `limit`
passes. -/
def whileHolds (engine : Engine σ) (condition : Condition) (body : Runner σ) (limit : Nat) :
    Runner σ :=
  whileFrom engine condition body limit limit

/-- How often a loop is to run: an unsigned number, a whole double, or the text of an unsigned
number. -/
def times? : Value → Option Nat
  | .number n =>
    match n.toNat? with
    | some k => some k
    | none =>
      if n.toFloat ≥ 0 && Double.isWhole n.toFloat then some n.toFloat.toUInt64.toNat else none
  | .text s => Numeral.unsigned? (Text.trim s.toList)
  | _ => none

/-- How often a loop is to run. -/
def timesOf (engine : Engine σ) (times : Value) (vars : Variables) : Except Halt Nat := do
  let v ← ((engine.scope vars).resolveReference times).mapError .crash
  match times? v with
  | some n => .ok n
  | none => .error (.failure (.invalidAction (.timesNotCount v)))

/-- Runs a body `left` more times, the next pass being the one at the position `index`. -/
def repeatFrom (index iteration : String) (body : Runner σ) (times : Nat) : Nat → Runner σ
  | 0 => yield (.nat times)
  | left + 1 =>
    let pass := times - (left + 1)
    changing (fun vars => (vars.bind index (.nat pass)).bind iteration (.nat (pass + 1)))
      (body.onValue fun _ => repeatFrom index iteration body times left)

/-- Runs a body a number of times. The value is that number. -/
def repeatTimes (engine : Engine σ) (times : Value) (index iteration : String) (body : Runner σ) :
    Runner σ :=
  compute (timesOf engine times) fun n => repeatFrom index iteration body n n

end Runner

end Playbook
