import Playbook.Document
import Playbook.Number.Numeral
import Playbook.Text.Blank
import Playbook.Text.Quoted

/-!
# Scalars in YAML

A scalar in quotes is a string. A plain scalar is `null`, a boolean or a number if it is written
like one, and otherwise a string; it also keeps its characters, for a reader that wants a string.
-/

namespace Playbook.Yaml

/-- The blanks inside a line. -/
def isBlank (c : Char) : Bool :=
  c == ' ' || c == '\t'

/-- The text without the blanks it begins with. -/
def skip (cs : List Char) : List Char :=
  cs.dropWhile isBlank

/-- The text without the blanks at its ends. -/
def strip (cs : List Char) : List Char :=
  (skip (skip cs).reverse).reverse

/-- The value of a digit in a given base. -/
def digit? (base : Nat) (c : Char) : Option Nat :=
  (Text.hexValue? c).filter (· < base)

/-- The number that digits stand for in a given base; there must be a digit. -/
def natural? (base : Nat) (cs : List Char) : Option Nat :=
  if cs.isEmpty then none else cs.foldlM (fun n c => (digit? base c).map (n * base + ·)) 0

/-- An unsigned integer with the mark of its base in front. -/
def magnitude? : List Char → Option Nat
  | '0' :: 'x' :: ds => natural? 16 ds
  | '0' :: 'o' :: ds => natural? 8 ds
  | '0' :: 'b' :: ds => natural? 2 ds
  | ds => natural? 10 ds

/-- A decimal integer with a needless zero in front is a string. -/
def hasNeedlessZero (cs : List Char) : Bool :=
  match cs with
  | '0' :: d :: ds => (d :: ds).all Char.isDigit
  | _ => false

/-- A number without its sign, and whether the sign is negative. -/
def unsigned : List Char → Bool × List Char
  | '-' :: cs => (true, cs)
  | '+' :: cs => (false, cs)
  | cs => (false, cs)

/-- An integer as a number of a document; none if 64 bits do not hold it. -/
def integer (n : Int) : Document :=
  .number (if h : Word.Fits n then some (.int n h) else none)

/-- What a double stands for; one that is not finite is `null`. -/
def double (x : Float) : Document :=
  if h : x.isFinite = true then .number (some (.double x h)) else .null

/-- The infinite doubles and those that are no numbers, by their names. -/
def special? (s : String) : Option Document :=
  if [".inf", ".Inf", ".INF", "+.inf", "+.Inf", "+.INF", "-.inf", "-.Inf", "-.INF",
    ".nan", ".NaN", ".NAN"].contains s then some .null
  else none

/-- What a plain scalar that is written like a number stands for. -/
def number? (cs : List Char) : Option Document :=
  let (negative, ds) := unsigned cs
  if hasNeedlessZero ds then none
  else
    match magnitude? ds with
    | some n => some (integer (if negative then -(n : Int) else n))
    | none =>
      if ds.any fun c => c.isDigit then
        if ds.head?.any fun c => c == '-' || c == '+' then none
        else
          ((Numeral.decimal? ds).map fun x => if negative then -x else x).bind fun x =>
            if x.isFinite then some (double x) else none
      else none

/-- A plain scalar. -/
def plain (cs : List Char) : Document :=
  let s := String.ofList cs
  if ["", "~", "null", "Null", "NULL"].contains s then .word s .null
  else if ["true", "True", "TRUE"].contains s then .word s (.bool true)
  else if ["false", "False", "FALSE"].contains s then .word s (.bool false)
  else .word s (((special? s) <|> number? cs).getD (.text (some s)))

/-- The character that a letter behind a backslash stands for. -/
def escapedChar? (c : Char) : Option Char :=
  match c with
  | 'n' => some '\n'
  | 't' => some '\t'
  | 'r' => some '\r'
  | '0' => some (Char.ofNat 0)
  | 'a' => some (Char.ofNat 7)
  | 'b' => some (Char.ofNat 8)
  | 'v' => some (Char.ofNat 11)
  | 'f' => some (Char.ofNat 12)
  | 'e' => some (Char.ofNat 27)
  | 'N' => some (Char.ofNat 0x85)
  | '_' => some (Char.ofNat 0xA0)
  | 'L' => some (Char.ofNat 0x2028)
  | 'P' => some (Char.ofNat 0x2029)
  | '"' => some '"'
  | '/' => some '/'
  | '\\' => some '\\'
  | ' ' => some ' '
  | _ => none

/-- The number of hexadecimal digits behind a letter that announces a character by its number. -/
def codeLength? : Char → Option Nat
  | 'x' => some 2
  | 'u' => some 4
  | 'U' => some 8
  | _ => none

/-- Reads the rest of a string in double quotes, and what follows the closing quote. -/
def doubleQuoted (acc : List Char) (cs : List Char) : Option (List Char × List Char) :=
  match cs with
  | [] => none
  | '"' :: rest => some (acc.reverse, rest)
  | '\\' :: c :: rest =>
    match codeLength? c with
    | some k =>
      match natural? 16 (rest.take k) with
      | some n =>
        if (rest.take k).length = k && n.isValidChar then
          doubleQuoted (Char.ofNat n :: acc) (rest.drop k)
        else none
      | none => none
    | none =>
      match escapedChar? c with
      | some e => doubleQuoted (e :: acc) rest
      | none => none
  | c :: rest => doubleQuoted (c :: acc) rest
termination_by cs.length
decreasing_by
  all_goals simp only [List.length_cons, List.length_drop]; omega

/-- Reads the rest of a string in single quotes, and what follows the closing quote. A quote inside
the string is written twice. -/
def singleQuoted (acc : List Char) : List Char → Option (List Char × List Char)
  | [] => none
  | '\'' :: '\'' :: rest => singleQuoted ('\'' :: acc) rest
  | '\'' :: rest => some (acc.reverse, rest)
  | c :: rest => singleQuoted (c :: acc) rest

/-- Reads a string in quotes of either kind, and what follows it; the outer `none` says that there
is no quote. -/
def quoted? : List Char → Option (Option (String × List Char))
  | '"' :: rest => some ((doubleQuoted [] rest).map fun (cs, rest) => (String.ofList cs, rest))
  | '\'' :: rest => some ((singleQuoted [] rest).map fun (cs, rest) => (String.ofList cs, rest))
  | _ => none

/-- Characters that a plain scalar cannot begin with. -/
def indicators : List Char :=
  [',', '[', ']', '\x7b', '\x7d', '#', '&', '*', '!', '|', '>', '\'', '"', '%', '@', Char.ofNat 96]

/-- Whether a plain scalar can begin like this. -/
def canBePlain : List Char → Bool
  | [] => false
  | '-' :: rest => !rest.isEmpty && !isBlank (rest.headD ' ')
  | '?' :: rest => !rest.isEmpty && !isBlank (rest.headD ' ')
  | ':' :: rest => !rest.isEmpty && !isBlank (rest.headD ' ')
  | c :: _ => !indicators.contains c

end Playbook.Yaml
