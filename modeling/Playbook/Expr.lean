import Playbook.Value.Text

/-!
# Expressions

The syntax trees of the expression language, its tokens and its faults. An expression computes a
value from literals, variables and references with logical, comparing and computing operators.

A bare name stands for the variable of that name and, if there is none, for itself. A reference `{{
… }}` holds a path or an expression of its own. A string with `{{` in it is a template.
-/

namespace Playbook

/-- The operators that compare two values. -/
inductive Comparison where
  | eq | ne | lt | le | gt | ge | isIn | contains | matches
deriving DecidableEq, Repr

/-- The operators that compute a value from two numbers. -/
inductive Arithmetic where
  | add | sub | mul | div | rem
deriving DecidableEq, Repr

/-- The operators of the expression language. -/
inductive Operator where
  | compare (op : Comparison)
  | compute (op : Arithmetic)
  | and
  | or
  | not
deriving DecidableEq, Repr

namespace Comparison

/-- The operator as it is written in messages. -/
def symbol : Comparison → String
  | eq => "=="
  | ne => "!="
  | lt => "<"
  | le => "<="
  | gt => ">"
  | ge => ">="
  | isIn => "in"
  | contains => "contains"
  | .matches => "matches"

end Comparison

namespace Arithmetic

/-- The operator as it is written in messages. -/
def symbol : Arithmetic → String
  | add => "+"
  | sub => "-"
  | mul => "*"
  | div => "/"
  | rem => "%"

end Arithmetic

namespace Operator

/-- The operator as it is written in messages. -/
def symbol : Operator → String
  | compare op => op.symbol
  | compute op => op.symbol
  | .and => "&&"
  | .or => "||"
  | .not => "!"

end Operator

/-- The tokens of the expression language. -/
inductive Token where
  | literal (v : Value)
  | text (s : String)
  | name (word : String)
  | reference (inner : String)
  | op (o : Operator)
  | opening
  | closing
deriving Inhabited

/-- A token as it is shown in messages. -/
def Token.describe : Token → String
  | literal v => v.render
  | text s => "'" ++ s ++ "'"
  | name word => word
  | reference inner => "\x7b\x7b" ++ inner ++ "\x7d\x7d"
  | op o => o.symbol
  | opening => "("
  | closing => ")"

/-- A syntax tree. -/
inductive Expr where
  | literal (v : Value)
  /-- A string with placeholders, filled in when it is evaluated. -/
  | template (text : String)
  /-- A bare name; it stands for itself if no variable has it. -/
  | name (word : String)
  /-- The text between the braces of a reference. -/
  | reference (inner : String)
  | not (e : Expr)
  | neg (e : Expr)
  | and (left right : Expr)
  | or (left right : Expr)
  | compare (op : Comparison) (left right : Expr)
  | compute (op : Arithmetic) (left right : Expr)
deriving Inhabited

/-- What is wrong with the text of an expression. -/
inductive ParseFault where
  /-- A character that no token begins with, and how many characters stand before it. -/
  | unexpectedChar (ch : Char) (position : Nat)
  /-- A run of operator characters that is not an operator followed by signs. -/
  | unknownOperator (run : String)
  /-- A token that cannot stand where it does. -/
  | unexpectedToken (token : Token)
  /-- The text ends where an operand, a bracket or the end of a reference should be. -/
  | unexpectedEnd
  /-- A string has no closing quote. -/
  | unterminatedText

/-- Why an expression has no value. -/
inductive ExprError where
  | parse (source : String) (fault : ParseFault)
  | invalidPattern (pattern : String) (message : String)
  /-- An operator met values of kinds that it does not work on. -/
  | mismatch (op left right : String)
  | divisionByZero

/-- The wording of an error. -/
def ExprError.message : ExprError → String
  | parse source fault =>
    let quoted := "`" ++ source ++ "`"
    match fault with
    | .unexpectedChar ch position =>
      "unexpected character '" ++ ch.toString ++ "' at position " ++ toString position ++ " in "
        ++ quoted
    | .unknownOperator run => "unknown operator '" ++ run ++ "' in " ++ quoted
    | .unexpectedToken token => "unexpected token '" ++ token.describe ++ "' in " ++ quoted
    | .unexpectedEnd => "unexpected end of expression " ++ quoted
    | .unterminatedText => "unterminated string literal in " ++ quoted
  | invalidPattern pattern message => "invalid regex '" ++ pattern ++ "': " ++ message
  | mismatch op left right => "cannot apply '" ++ op ++ "' to " ++ left ++ " and " ++ right
  | divisionByZero => "division by zero"

/-- An accident that ends not only the evaluation but the whole task it belongs to. No step can
catch it. -/
inductive Crash where
  /-- The least signed integer of 64 bits was divided by minus one. -/
  | quotientOverflow
  /-- A block was to run more operations at the same time than can be counted. -/
  | tooManyAtOnce
deriving DecidableEq, Repr

/-- The wording of a crash. -/
def Crash.message : Crash → String
  | quotientOverflow => "attempt to calculate the remainder with overflow"
  | tooManyAtOnce => "a semaphore may not have more than MAX_PERMITS permits (2305843009213693951)"

/-- Why an evaluation stopped without a value. -/
inductive Stop where
  | error (e : ExprError)
  | crash (c : Crash)

/-- The outcome of an evaluation. -/
abbrev Evaluated (α : Type) := Except Stop α

end Playbook
