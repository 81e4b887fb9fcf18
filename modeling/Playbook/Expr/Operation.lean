import Playbook.Expr
import Playbook.Number.Numeral
import Playbook.Pattern.Reader
import Playbook.Text.Blank

/-!
# What the operators do

A value takes part in arithmetic as a number if it is one, or if it is a string that looks like one.
Two integers give an exact integer wherever that fits into 64 bits; everything else is computed in
doubles.

Comparisons are numeric if both sides are numbers in this sense. Otherwise they compare texts, and
two values that are not strings are equal if they are the same value.
-/

namespace Playbook

/-- A value's part in arithmetic. -/
inductive Operand where
  | int (n : Int)
  | double (x : Float)

/-- An operand as a double, the nearest one to an integer. -/
def Operand.toFloat : Operand → Float
  | int n => Float.ofInt n
  | double x => x

namespace Value

/-- Whether a text has a digit and no characters but those of numbers. -/
def looksNumeric (cs : List Char) : Bool :=
  cs.any Char.isDigit && cs.all fun c => c.isDigit || ['.', '-', '+', 'e', 'E'].contains c

/-- The number that a value stands for in arithmetic. A string is read without the blanks around
it. -/
def operand? : Value → Option Operand
  | .number n =>
    match n.toInt? with
    | some i => some (.int i)
    | none => some (.double n.toFloat)
  | .text s =>
    let cs := Text.trim s.toList
    if looksNumeric cs then
      match Numeral.signed? cs with
      | some i => some (.int i)
      | none => (Numeral.double? cs).map .double
    else none
  | _ => none

/-- Equality with coercion: as numbers if both sides are, else as texts if one side is a string,
else as values. -/
def looseEq (left right : Value) : Bool :=
  match left.operand?, right.operand? with
  | some a, some b => a.toFloat == b.toFloat
  | _, _ =>
    match left, right with
    | .text _, _ => left.display == right.display
    | _, .text _ => left.display == right.display
    | _, _ => left.same right

/-- The order of two values: as numbers if both are, else as texts by their code points. -/
def order (left right : Value) : Ordering :=
  match left.operand?, right.operand? with
  | some a, some b =>
    if a.toFloat < b.toFloat then .lt else if b.toFloat < a.toFloat then .gt else .eq
  | _, _ =>
    if left.display < right.display then .lt
    else if right.display < left.display then .gt
    else .eq

/-- Whether a list has an equal item, a record has a field of that name, or a text has that part. -/
def holds (container item : Value) : Bool :=
  match container with
  | .list items => items.any fun v => v.looseEq item
  | .record fields => (fields.lookup item.display).isSome
  | .text s => Text.occursIn item.display.toList s.toList
  | _ => false

end Value

namespace Comparison

/-- What messages say of a text that is not a pattern: the same for all of them, without the place
and the reason. -/
def patternFault : String := "regex parse error: the pattern cannot be read"

/-- The outcome of a comparison. -/
def apply (op : Comparison) (left right : Value) : Evaluated Bool :=
  match op with
  | eq => .ok (left.looseEq right)
  | ne => .ok (!left.looseEq right)
  | lt => .ok (left.order right == .lt)
  | le => .ok (left.order right != .gt)
  | gt => .ok (left.order right == .gt)
  | ge => .ok (left.order right != .lt)
  | isIn => .ok (right.holds left)
  | contains => .ok (left.holds right)
  | .matches =>
    match Pattern.parse? right.display with
    | some p => .ok (p.occursIn left.display)
    | none => .error (.error (.invalidPattern right.display patternFault))

end Comparison

namespace Arithmetic

/-- The exact result for two integers; none if it is not an integer of 64 bits. The least integer
divided by minus one ends in a crash. -/
def integral? (op : Arithmetic) (a b : Int) : Evaluated (Option Int) :=
  match op with
  | add => .ok (Word.signed? (a + b))
  | sub => .ok (Word.signed? (a - b))
  | mul => .ok (Word.signed? (a * b))
  | div =>
    if b = 0 then .error (.error .divisionByZero)
    else if a = Word.least ∧ b = -1 then .error (.crash .quotientOverflow)
    else if a.tmod b = 0 then .ok (Word.signed? (a.tdiv b))
    else .ok none
  | rem =>
    if b = 0 then .error (.error .divisionByZero)
    else if a = Word.least ∧ b = -1 then .ok none
    else .ok (some (a.tmod b))

/-- The result in doubles. -/
def inexact (op : Arithmetic) (x y : Float) : Evaluated Value :=
  match op with
  | add => .ok (.float (x + y))
  | sub => .ok (.float (x - y))
  | mul => .ok (.float (x * y))
  | div => if y == 0 then .error (.error .divisionByZero) else .ok (.float (x / y))
  | rem => if y == 0 then .error (.error .divisionByZero) else .ok (.float (Double.truncRem x y))

/-- The result for two numbers. -/
def compute (op : Arithmetic) (a b : Operand) : Evaluated Value :=
  match a, b with
  | .int m, .int n =>
    match op.integral? m n with
    | .ok (some r) => .ok (.int r)
    | .ok none => op.inexact a.toFloat b.toFloat
    | .error stop => .error stop
  | _, _ => op.inexact a.toFloat b.toFloat

/-- The result for two values. A sum of values that are not both numbers joins two lists or two
texts. -/
def apply (op : Arithmetic) (left right : Value) : Evaluated Value :=
  match left.operand?, right.operand? with
  | some a, some b => op.compute a b
  | _, _ =>
    match op with
    | add =>
      match left, right with
      | .list xs, .list ys => .ok (.list (xs ++ ys))
      | _, _ => .ok (.text (left.display ++ right.display))
    | _ => .error (.error (.mismatch op.symbol left.kindName right.kindName))

end Arithmetic

/-- The number with the opposite sign. -/
def Value.negated (v : Value) : Evaluated Value :=
  match v.operand? with
  | some (.int n) =>
    match Word.signed? (-n) with
    | some m => .ok (.int m)
    | none => .ok (.float (-Float.ofInt n))
  | some (.double x) => .ok (.float (-x))
  | none => .error (.error (.mismatch "-" "nothing" v.kindName))

end Playbook
