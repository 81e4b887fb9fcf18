/-!
# Words of bits

The numbers that a given count of bits can hold, and the powers that numbers are scaled by. The
integers of scenarios are those that 64 bits hold, read with a sign or without one; a double is a
word of 64 bits.

The bounds of integers are written out in decimal, so that arithmetic on them needs no unfolding of
powers.
-/

namespace Playbook

/-- Two to the power of `n`: how many words of `n` bits there are. -/
def twoTo (n : Nat) : Nat := Nat.pow 2 n

/-- Ten to the power of `n`. -/
def tenTo (n : Nat) : Nat := Nat.pow 10 n

namespace Word

/-- The least integer that 64 bits hold. -/
abbrev least : Int := -9223372036854775808

/-- Whether 64 bits hold an integer when they are read with a sign. -/
abbrev FitsSigned (n : Int) : Prop := -9223372036854775808 ≤ n ∧ n < 9223372036854775808

/-- Whether 64 bits hold an integer when they are read with a sign or without one. -/
abbrev Fits (n : Int) : Prop := -9223372036854775808 ≤ n ∧ n < 18446744073709551616

/-- An integer, if 64 bits hold it with a sign. -/
def signed? (n : Int) : Option Int :=
  if FitsSigned n then some n else none

theorem signed?_eq_some_iff {n m : Int} : signed? n = some m ↔ FitsSigned n ∧ n = m := by
  rw [signed?, Option.ite_none_right_eq_some, Option.some.injEq]

end Word

end Playbook
