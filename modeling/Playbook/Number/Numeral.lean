import Playbook.Number.Double

/-!
# Numbers written as text

Settings, indices and numeric strings are numbers written in decimal. An unsigned number may have a
plus sign, a signed one either sign, and both must fit into 64 bits. A decimal may have a point and
an exponent, needs a digit before or behind the point, and may also be one of the words `inf`,
`infinity` and `nan` in any case.
-/

namespace Playbook.Numeral

/-- The number that a run of digits stands for, behind digits that stand for `acc`. -/
def valueFrom (acc : Nat) (ds : List Char) : Nat :=
  ds.foldl (fun n d => n * 10 + (d.toNat - 48)) acc

/-- A number written with digits alone, of which there is at least one. -/
def digits? (cs : List Char) : Option Nat :=
  if cs.isEmpty || !cs.all Char.isDigit then none else some (valueFrom 0 cs)

/-- An unsigned number of 64 bits written with digits alone. -/
def index? (cs : List Char) : Option Nat :=
  (digits? cs).filter (· < twoTo 64)

/-- An unsigned number of 64 bits; a plus sign may stand in front. -/
def unsigned? : List Char → Option Nat
  | '+' :: cs => index? cs
  | cs => index? cs

/-- A signed number of 64 bits. -/
def signed? : List Char → Option Int
  | '-' :: cs => (digits? cs).bind fun n => Word.signed? (-(n : Int))
  | '+' :: cs => (digits? cs).bind fun n => Word.signed? n
  | cs => (digits? cs).bind fun n => Word.signed? n

/-- The exponent of a decimal: nothing, or a letter, a sign and digits. -/
def exponent? : List Char → Option Int
  | [] => some 0
  | e :: cs =>
    if e = 'e' || e = 'E' then
      match cs with
      | '-' :: ds => (digits? ds).map fun n => -(n : Int)
      | '+' :: ds => (digits? ds).map fun n => (n : Int)
      | ds => (digits? ds).map fun n => (n : Int)
    else none

/-- The double nearest to an unsigned decimal. -/
def decimal? (cs : List Char) : Option Float :=
  let whole := cs.takeWhile Char.isDigit
  let rest := cs.dropWhile Char.isDigit
  let (fraction, rest) :=
    match rest with
    | '.' :: cs => (cs.takeWhile Char.isDigit, cs.dropWhile Char.isDigit)
    | _ => ([], rest)
  if whole.isEmpty && fraction.isEmpty then none
  else
    (exponent? rest).map fun e =>
      Double.ofDecimal (valueFrom (valueFrom 0 whole) fraction) (e - (fraction.length : Int))

/-- The double that an unsigned decimal or one of the words for infinity and not-a-number stands
for. -/
def unsignedDouble? (cs : List Char) : Option Float :=
  let word := cs.map Char.toLower
  if word = "inf".toList || word = "infinity".toList then some (1 / 0)
  else if word = "nan".toList then some (0 / 0)
  else decimal? cs

/-- The double nearest to a decimal with an optional sign. -/
def double? : List Char → Option Float
  | '-' :: cs => (unsignedDouble? cs).map fun x => -x
  | '+' :: cs => unsignedDouble? cs
  | cs => unsignedDouble? cs

end Playbook.Numeral
