import Playbook.Expr.Lexer

/-!
# From tokens to syntax trees

The operators bind in seven levels: `or`, `and`, `not`, comparisons, sums, products and signs, with
brackets around anything. Operators of one level group to the left, and comparisons do not group at
all. A `!` is read at the level of `not` where one can stand there, and as a sign elsewhere.

Each level is a function of the one for the text between brackets. `Parser.level n` reads what has
brackets nested to a depth below `n`, which is never more than there are tokens.
-/

namespace Playbook.Parser

/-- A parser for the beginning of a list of tokens. -/
abbrev Parse := List Token → Except ParseFault (Expr × List Token)

/-- Operands joined by the operators of one level, behind the operand `left`. Each pass takes an
operator and an operand, so `fuel` need not be more than the number of tokens. -/
def chain (operand : Parse) (join? : Token → Option (Expr → Expr → Expr)) :
    Nat → Expr → Parse
  | fuel + 1, left, t :: ts =>
    match join? t with
    | some join =>
      match operand ts with
      | .ok (right, rest) => chain operand join? fuel (join left right) rest
      | .error fault => .error fault
    | none => .ok (left, t :: ts)
  | _, left, ts => .ok (left, ts)

/-- One or more operands joined by the operators of one level. -/
def joined (operand : Parse) (join? : Token → Option (Expr → Expr → Expr)) : Parse := fun ts =>
  match operand ts with
  | .ok (left, rest) => chain operand join? rest.length left rest
  | .error fault => .error fault

/-- The node of an `or`. -/
def orJoin? : Token → Option (Expr → Expr → Expr)
  | .op .or => some .or
  | _ => none

/-- The node of an `and`. -/
def andJoin? : Token → Option (Expr → Expr → Expr)
  | .op .and => some .and
  | _ => none

/-- The node of a sum or a difference. -/
def sumJoin? : Token → Option (Expr → Expr → Expr)
  | .op (.compute .add) => some (.compute .add)
  | .op (.compute .sub) => some (.compute .sub)
  | _ => none

/-- The node of a product, a quotient or a remainder. -/
def productJoin? : Token → Option (Expr → Expr → Expr)
  | .op (.compute .mul) => some (.compute .mul)
  | .op (.compute .div) => some (.compute .div)
  | .op (.compute .rem) => some (.compute .rem)
  | _ => none

/-- The tree of a string: a template if it has a placeholder in it. -/
def textExpr (s : String) : Expr :=
  if Text.occursIn ['\x7b', '\x7b'] s.toList then .template s else .literal (.text s)

/-- An operand without operators. `inside` reads what stands between brackets. -/
def primary (inside : Parse) : Parse
  | [] => .error .unexpectedEnd
  | .literal v :: ts => .ok (.literal v, ts)
  | .text s :: ts => .ok (textExpr s, ts)
  | .name word :: ts => .ok (.name word, ts)
  | .reference inner :: ts => .ok (.reference inner, ts)
  | .opening :: ts =>
    match inside ts with
    | .ok (e, .closing :: rest) => .ok (e, rest)
    | .ok (_, t :: _) => .error (.unexpectedToken t)
    | .ok (_, []) => .error .unexpectedEnd
    | .error fault => .error fault
  | t :: _ => .error (.unexpectedToken t)

/-- An operand with any number of signs in front. -/
def unary (inside : Parse) : Parse
  | .op (.compute .sub) :: ts => (unary inside ts).map fun (e, rest) => (.neg e, rest)
  | .op .not :: ts => (unary inside ts).map fun (e, rest) => (.not e, rest)
  | ts => primary inside ts

/-- A product. -/
def product (inside : Parse) : Parse :=
  joined (unary inside) productJoin?

/-- A sum. -/
def sum (inside : Parse) : Parse :=
  joined (product inside) sumJoin?

/-- A sum or a comparison of two sums. A second comparison cannot follow. -/
def comparison (inside : Parse) : Parse := fun ts =>
  match sum inside ts with
  | .ok (left, .op (.compare op) :: rest) =>
    match sum inside rest with
    | .ok (_, .op (.compare next) :: _) => .error (.unexpectedToken (.op (.compare next)))
    | .ok (right, rest') => .ok (.compare op left right, rest')
    | .error fault => .error fault
  | other => other

/-- A comparison with any number of `not` in front. -/
def negation (inside : Parse) : Parse
  | .op .not :: ts => (negation inside ts).map fun (e, rest) => (.not e, rest)
  | ts => comparison inside ts

/-- Negations joined by `and`. -/
def conjunction (inside : Parse) : Parse :=
  joined (negation inside) andJoin?

/-- Conjunctions joined by `or`. -/
def disjunction (inside : Parse) : Parse :=
  joined (conjunction inside) orJoin?

/-- Reads an expression with brackets nested to a depth below the given number. -/
def level : Nat → Parse
  | 0 => fun _ => .error .unexpectedEnd
  | n + 1 => disjunction (level n)

/-- The tree of a list of tokens, all of which belong to it. -/
def parse (ts : List Token) : Except ParseFault Expr :=
  match level (ts.length + 1) ts with
  | .ok (e, []) => .ok e
  | .ok (_, t :: _) => .error (.unexpectedToken t)
  | .error fault => .error fault

end Playbook.Parser

namespace Playbook.Expr

/-- Reads an expression from text. -/
def parse (source : String) : Except ExprError Expr :=
  match Lexer.tokens source with
  | .error fault => .error (.parse source fault)
  | .ok ts =>
    match Parser.parse ts with
    | .error fault => .error (.parse source fault)
    | .ok e => .ok e

end Playbook.Expr
