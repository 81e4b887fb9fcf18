import Playbook.Number.Word

/-!
# Doubles as scaled integers

A finite double is `m * 2 ^ q` with a sign, where `m` is a natural number below `2 ^ 53`. This
module takes doubles apart, puts them together, and builds on the two what the scenario language
needs beyond the four operations: the exact remainder of a division cut off towards zero, and the
reading of decimal texts.

Two ways of reading a decimal exist side by side. `ofDecimal` gives the double nearest to the
decimal; numbers inside expressions and numeric strings are read so. `ofSignificand` rounds the
significand first and scales by a power of ten afterwards, which costs two roundings; numbers in
JSON text are read so.
-/

namespace Playbook.Double

/-- The sign, the integer significand and the binary exponent of a finite double. -/
structure Parts where
  /-- Whether the sign bit is set; zero has a sign too. -/
  negative : Bool
  /-- The integer significand. -/
  significand : Nat
  /-- The power of two that the significand is scaled by. -/
  exponent : Int
deriving DecidableEq, Repr

/-- The exponent field of a double's bits. -/
def exponentField (x : Float) : Nat :=
  x.toBits.toNat / twoTo 52 % twoTo 11

/-- The fraction field of a double's bits. -/
def fractionField (x : Float) : Nat :=
  x.toBits.toNat % twoTo 52

/-- Whether the sign bit is set. -/
def isNegative (x : Float) : Bool :=
  twoTo 63 ≤ x.toBits.toNat

/-- Takes a finite double apart. The exponent is that of the last place. -/
def parts (x : Float) : Parts :=
  let e := exponentField x
  let f := fractionField x
  if e = 0 then ⟨isNegative x, f, -1074⟩ else ⟨isNegative x, f + twoTo 52, (e : Int) - 1075⟩

/-- Puts a double together from its parts. The value must be one that a double can hold. -/
def ofParts (p : Parts) : Float :=
  let sign : Nat := if p.negative then twoTo 63 else 0
  if p.significand = 0 then Float.ofBits (UInt64.ofNat sign)
  else
    let shift := min (52 - (p.significand.log2 : Int)) (p.exponent + 1074)
    let m := p.significand * twoTo shift.toNat
    let q := p.exponent - shift
    let field : Nat := if m < twoTo 52 then 0 else (q + 1075).toNat
    Float.ofBits (UInt64.ofNat (sign + field * twoTo 52 + m % twoTo 52))

/-- The remainder of the division of `x` by `y` with the quotient cut off towards zero. It is exact,
smaller than `y` in size and has the sign of `x`. -/
def truncRem (x y : Float) : Float :=
  if x.isNaN || y.isNaN || x.isInf || y == 0 then 0 / 0
  else if y.isInf then x
  else
    let a := parts x
    let b := parts y
    let q := min a.exponent b.exponent
    let m := a.significand * twoTo (a.exponent - q).toNat
    let n := b.significand * twoTo (b.exponent - q).toNat
    ofParts ⟨a.negative, m % n, q⟩

/-- The double nearest to `digits * 10 ^ exponent`; infinity if it is beyond the range. -/
def ofDecimal (digits : Nat) (exponent : Int) : Float :=
  if digits = 0 then 0
  else if exponent > 400 then 1 / 0
  else if exponent + (digits.log2 / 3 : Nat) + 1 < -400 then 0
  else if exponent < 0 then Float.ofScientific digits true exponent.natAbs
  else Float.ofScientific digits false exponent.natAbs

/-- The double nearest to a power of ten. -/
def powerOfTen (exponent : Nat) : Float :=
  Float.ofScientific 1 false exponent

/-- Scales a double by a power of ten in steps of at most `10 ^ 308`, each of them rounded. `none`
if the number grows beyond the range. -/
def scaleByTen (x : Float) (exponent : Int) : Nat → Option Float
  | 0 => some 0
  | steps + 1 =>
    if exponent.natAbs ≤ 308 then
      if exponent < 0 then some (x / powerOfTen exponent.natAbs)
      else
        let y := x * powerOfTen exponent.natAbs
        if y.isInf then none else some y
    else if x == 0 then some x
    else if exponent < 0 then scaleByTen (x / powerOfTen 308) (exponent + 308) steps
    else none

/-- `digits * 10 ^ exponent` with the digits rounded to a double before they are scaled. `none` if
the number is beyond the range. -/
def ofSignificand (digits : Nat) (exponent : Int) : Option Float :=
  scaleByTen (Float.ofNat digits) exponent 5

/-- Whether a double has no fractional part. -/
def isWhole (x : Float) : Bool :=
  !x.isNaN && !x.isInf && truncRem x 1 == 0

end Playbook.Double
