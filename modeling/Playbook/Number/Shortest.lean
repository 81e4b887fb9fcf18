import Playbook.Number.Double

/-!
# The shortest decimal that reads back

The numbers that round to a given double form an interval around it. Among the decimals in that
interval, the one with the fewest digits is written; of several with the same number of digits, the
nearest to the double, and of two that are equally near, the one whose last digit is even.

The search goes from coarse to fine. On the grid of the multiples of `10 ^ k` only the two
neighbours of the value can lie in its interval if any multiple does, so two tests decide a grid,
and the first grid with a hit has the fewest digits.
-/

namespace Playbook.Double

/-- The positive reals that round to one double, and the double itself, all in quarters of its last
place, scaled to be integers over a common denominator. -/
structure Rounding where
  /-- The lower end. -/
  low : Nat
  /-- The double itself. -/
  value : Nat
  /-- The upper end. -/
  high : Nat
  /-- The denominator of the three numbers. -/
  scale : Nat
  /-- Whether the ends belong to the interval: they do if the significand is even. -/
  closed : Bool
deriving Repr

/-- The interval of a positive double. Just above a power of two the neighbour below is only half as
far as the one above. -/
def rounding (p : Parts) : Rounding :=
  let narrow := p.significand = twoTo 52 ∧ p.exponent > -1074
  let up := twoTo (p.exponent - 2).toNat
  { low := (4 * p.significand - if narrow then 1 else 2) * up
    value := 4 * p.significand * up
    high := (4 * p.significand + 2) * up
    scale := twoTo (2 - p.exponent).toNat
    closed := p.significand % 2 = 0 }

/-- Whether `digits * 10 ^ exponent` rounds to the double. -/
def Rounding.holds (r : Rounding) (digits : Nat) (exponent : Int) : Bool :=
  let d := digits * tenTo exponent.toNat * r.scale
  let unit := tenTo (-exponent).toNat
  if r.closed then r.low * unit ≤ d && d ≤ r.high * unit
  else r.low * unit < d && d < r.high * unit

/-- The multiple of `10 ^ exponent` nearest to the double, if one rounds to it; of two that are
equally near, the even one. -/
def Rounding.onGrid? (r : Rounding) (exponent : Int) : Option Nat :=
  let num := r.value * tenTo (-exponent).toNat
  let den := r.scale * tenTo exponent.toNat
  let below := num / den
  let above := below + 1
  let rest := 2 * (num - below * den)
  let nearBelow := rest < den || (rest = den && below % 2 = 0)
  if nearBelow && below ≠ 0 && r.holds below exponent then some below
  else if r.holds above exponent then some above
  else if below ≠ 0 && r.holds below exponent then some below
  else none

/-- The digits and the decimal exponent of the shortest decimal that rounds to a positive double. -/
def shortest (p : Parts) : Nat × Int :=
  let r := rounding p
  let top : Int := ((p.significand.log2 : Int) + p.exponent) * 1233 / 4096 + 2
  let tries : List Int := (List.range 24).map fun (i : Nat) => top - (i : Int)
  (tries.findSome? fun e => (r.onGrid? e).map fun d => (d, e)).getD (0, 0)

/-- How numbers are laid out around their digits. -/
structure Layout where
  /-- The least decimal exponent of a number written without an exponent. -/
  plainFrom : Int
  /-- The greatest decimal exponent of a number written without an exponent. -/
  plainTo : Int

/-- Writes digits and a decimal exponent: plainly with a point while the exponent of the leading
digit is in the layout's range, else with one digit before the point and a signed exponent. -/
def Layout.write (layout : Layout) (digits : Nat) (exponent : Int) : String :=
  let ds := Nat.toDigits 10 digits
  let lead : Int := exponent + (ds.length : Int) - 1
  let text : List Char :=
    if layout.plainFrom ≤ lead ∧ lead ≤ layout.plainTo then
      if exponent ≥ 0 then ds ++ List.replicate exponent.toNat '0' ++ ['.', '0']
      else if lead ≥ 0 then ds.take (lead.toNat + 1) ++ '.' :: ds.drop (lead.toNat + 1)
      else '0' :: '.' :: (List.replicate (-lead - 1).toNat '0' ++ ds)
    else
      let fraction := if ds.length = 1 then [] else '.' :: ds.drop 1
      let sign := if lead < 0 then '-' else '+'
      ds.take 1 ++ fraction ++ 'e' :: sign :: Nat.toDigits 10 lead.natAbs
  String.ofList text

/-- A finite double as text: its shortest digits in the given layout. -/
def Layout.double (layout : Layout) (x : Float) : String :=
  let p := parts x
  let sign := if p.negative then "-" else ""
  if p.significand = 0 then sign ++ "0.0"
  else
    let (d, e) := shortest p
    sign ++ layout.write d e

end Playbook.Double
