import Playbook.Proofs.Expr.Depth
import Playbook.Proofs.Expr.Printing
import Playbook.Proofs.Number.Rounding
import Playbook.Proofs.Text.Search

/-!
# Arithmetic on integers

Two integers of 64 bits give an exact integer where there is one that 64 bits hold, and a double
where there is none (`Scope.evaluate_integers`). It does not matter whether they are numbers or
texts: a decimal with a sign and leading zeros stands for its integer, with blanks around it or
without.

The double is a number and never `null`: no operation on integers leaves the range of doubles. Nor
does a divisor vanish on the way to doubles, so that a division by zero is one of integers.

One pair of operands is left out of this. The least integer divided by minus one is an integer that
64 bits do not hold. Whether the division comes out even is asked by a remainder, which overflows at
this pair and crashes. The remainder itself is zero, but is not given as an integer: it counts as
one that does not fit and is computed in doubles, to zero with a sign.
-/

namespace Playbook

/-! ## Integers as values -/

namespace Numeral

/-- The digits of a number with leading zeros. -/
def padded (zeros n : Nat) : List Char :=
  List.replicate zeros '0' ++ Nat.toDigits 10 n

/-- **A decimal of an integer**: digits with leading zeros or without, and a sign in front if there
is one. -/
inductive IsDecimal : Int → List Char → Prop
  | plain (zeros n : Nat) : IsDecimal n (padded zeros n)
  | plus (zeros n : Nat) : IsDecimal n ('+' :: padded zeros n)
  | minus (zeros n : Nat) : IsDecimal (-n) ('-' :: padded zeros n)

theorem all_isDigit_padded (zeros n : Nat) : (padded zeros n).all Char.isDigit = true := by
  rw [padded, List.all_append, Lexer.all_isDigit_toDigits, Bool.and_true, List.all_eq_true]
  intro c hc
  rw [List.eq_of_mem_replicate hc]
  rfl

theorem padded_ne_nil (zeros n : Nat) : padded zeros n ≠ [] := by
  rw [padded, Ne, List.append_eq_nil_iff, not_and]
  exact fun _ => Nat.toDigits_ne_nil

/-- Leading zeros do not count. -/
theorem digits?_padded (zeros n : Nat) : digits? (padded zeros n) = some n := by
  have hzeros : valueFrom 0 (List.replicate zeros '0') = 0 := by
    induction zeros with
    | zero => rfl
    | succ zeros ih => exact ih
  rw [digits?, List.isEmpty_eq_false_iff.mpr (padded_ne_nil zeros n), all_isDigit_padded, padded,
    valueFrom, List.foldl_append]
  show some (valueFrom (valueFrom 0 (List.replicate zeros '0')) (Nat.toDigits 10 n)) = _
  rw [hzeros, Lexer.valueFrom_toDigits]

namespace IsDecimal

variable {n : Int} {cs : List Char}

/-- **A decimal is read back.** -/
theorem signed? (h : IsDecimal n cs) (hn : Word.FitsSigned n) : Numeral.signed? cs = some n := by
  have hfits : Word.signed? n = some n := Word.signed?_eq_some_iff.mpr ⟨hn, rfl⟩
  cases h with
  | plain zeros n =>
    rw [Lexer.signed?_of_all_isDigit (all_isDigit_padded zeros n), digits?_padded,
      Option.bind_some, hfits]
  | plus zeros n | minus zeros n =>
    rw [Numeral.signed?, digits?_padded, Option.bind_some, hfits]

theorem ne_nil (h : IsDecimal n cs) : cs ≠ [] := by
  cases h with
  | plain zeros n => exact padded_ne_nil zeros n
  | plus | minus => exact List.cons_ne_nil _ _

theorem sign_or_isDigit (h : IsDecimal n cs) {c : Char} (hc : c ∈ cs) :
    c = '+' ∨ c = '-' ∨ c.isDigit = true := by
  have hdigit {zeros n : Nat} (hc : c ∈ padded zeros n) : c.isDigit = true :=
    List.all_eq_true.mp (all_isDigit_padded zeros n) c hc
  cases h with
  | plain => exact .inr (.inr (hdigit hc))
  | plus | minus =>
    obtain rfl | hc := List.mem_cons.mp hc
    · simp
    · exact .inr (.inr (hdigit hc))

theorem exists_isDigit (h : IsDecimal n cs) : ∃ c ∈ cs, c.isDigit = true := by
  have hdigit (zeros n : Nat) : ∃ c ∈ padded zeros n, c.isDigit = true := by
    obtain ⟨c, hc⟩ := List.exists_mem_of_ne_nil _ (padded_ne_nil zeros n)
    exact ⟨c, hc, List.all_eq_true.mp (all_isDigit_padded zeros n) c hc⟩
  cases h with
  | plain zeros n => exact hdigit zeros n
  | plus zeros n | minus zeros n =>
    obtain ⟨c, hc, hd⟩ := hdigit zeros n
    exact ⟨c, List.mem_cons_of_mem _ hc, hd⟩

theorem looksNumeric (h : IsDecimal n cs) : Value.looksNumeric cs = true := by
  rw [Value.looksNumeric, Bool.and_eq_true, List.any_eq_true, List.all_eq_true]
  refine ⟨h.exists_isDigit, fun c hc => ?_⟩
  obtain rfl | rfl | hd := h.sign_or_isDigit hc
  · rfl
  · rfl
  · rw [hd]
    rfl

theorem not_isBlank (h : IsDecimal n cs) {c : Char} (hc : c ∈ cs) : Text.isBlank c = false := by
  obtain rfl | rfl | hd := h.sign_or_isDigit hc
  · rfl
  · rfl
  · exact Text.isBlank_of_isDigit hd

end IsDecimal

end Numeral

/-- **A value that gives an integer**: the number, or a text that is a decimal of it but for blanks
around. -/
inductive Value.IsInteger (n : Int) : Value → Prop
  | number : IsInteger n (.int n)
  | text {lead cs tail : List Char} (hl : ∀ c ∈ lead, Text.isBlank c = true)
    (ht : ∀ c ∈ tail, Text.isBlank c = true) (hd : Numeral.IsDecimal n cs) :
    IsInteger n (.text (String.ofList (lead ++ cs ++ tail)))

/-- **An integer takes part in arithmetic as an integer.** -/
theorem Value.IsInteger.operand? {n : Int} {v : Value} (h : v.IsInteger n)
    (hn : Word.FitsSigned n) : v.operand? = some (.int n) := by
  cases h with
  | number =>
    have hfits : Word.Fits n := ⟨hn.1, by omega⟩
    rw [Value.int, dif_pos hfits, Value.operand?, Number.toInt?,
      Word.signed?_eq_some_iff.mpr ⟨hn, rfl⟩]
  | text hl ht hd =>
    rw [Value.operand?, String.toList_ofList,
      Text.trim_of_blanks hl ht hd.ne_nil fun c hc => hd.not_isBlank hc]
    rw [if_pos hd.looksNumeric, hd.signed? hn]

/-! ## Exact results -/

namespace Arithmetic

variable {a b : Int}

/-- The two operations that a divisor belongs to. -/
def Divides (op : Arithmetic) : Prop := op = .div ∨ op = .rem

/-- **The exact result**, if it is an integer. A remainder has the sign of what is divided. -/
def integer? (op : Arithmetic) (a b : Int) : Option Int :=
  match op with
  | add => some (a + b)
  | sub => some (a - b)
  | mul => some (a * b)
  | div => if b ∣ a then some (a / b) else none
  | rem => some (a.tmod b)

/-- **The result in doubles.** -/
def nearby (op : Arithmetic) (x y : Float) : Float :=
  match op with
  | add => x + y
  | sub => x - y
  | mul => x * y
  | div => x / y
  | rem => Double.truncRem x y

/-- A remainder is smaller than what is divided by. -/
theorem fitsSigned_tmod (hb : Word.FitsSigned b) (h0 : b ≠ 0) :
    Word.FitsSigned (a.tmod b) := by
  have habs : (a.tmod b).natAbs = a.natAbs % b.natAbs := Int.natAbs_tmod a b
  have hlt : a.natAbs % b.natAbs < b.natAbs := Nat.mod_lt _ (by omega)
  omega

/-- **Integers are computed exactly**, but for the one pair that overflows. -/
theorem integral?_eq {op : Arithmetic} (hb : Word.FitsSigned b)
    (hop : op.Divides → b ≠ 0 ∧ ¬ (a = Word.least ∧ b = -1)) :
    op.integral? a b = .ok ((op.integer? a b).bind Word.signed?) := by
  cases op with
  | add | sub | mul => rfl
  | div =>
    obtain ⟨h0, hpair⟩ := hop (.inl rfl)
    rw [integral?, integer?, if_neg h0, if_neg hpair]
    by_cases hd : b ∣ a
    · rw [if_pos (Int.dvd_iff_tmod_eq_zero.mp hd), if_pos hd, Int.tdiv_eq_ediv_of_dvd hd]
      rfl
    · rw [if_neg (fun h => hd (Int.dvd_iff_tmod_eq_zero.mpr h)), if_neg hd]
      rfl
  | rem =>
    obtain ⟨h0, hpair⟩ := hop (.inr rfl)
    have hfits := fitsSigned_tmod (a := a) hb h0
    rw [integral?, integer?, if_neg h0, if_neg hpair, Option.bind_some,
      Word.signed?_eq_some_iff.mpr ⟨hfits, rfl⟩]

/-! ## Results in doubles -/

theorem inexact_eq {op : Arithmetic} (hb : Word.FitsSigned b) (hop : op.Divides → b ≠ 0) :
    op.inexact (Float.ofInt a) (Float.ofInt b)
      = .ok (.float (op.nearby (Float.ofInt a) (Float.ofInt b))) := by
  cases op with
  | add | sub | mul => rfl
  | div =>
    rw [inexact, Double.ofInt_beq_zero (hop (.inl rfl)) hb]
    rfl
  | rem =>
    rw [inexact, Double.ofInt_beq_zero (hop (.inr rfl)) hb]
    rfl

/-- No result is beyond the range of doubles. Remainders are left out: they are never rounded. -/
theorem isFinite_nearby {op : Arithmetic} (ha : Word.FitsSigned a) (hb : Word.FitsSigned b)
    (hop : op.Divides → b ≠ 0) (hrem : op ≠ .rem) :
    (op.nearby (Float.ofInt a) (Float.ofInt b)).isFinite = true := by
  cases op with
  | add => exact Double.isFinite_add_ofInt ha hb
  | sub => exact Double.isFinite_sub_ofInt ha hb
  | mul => exact Double.isFinite_mul_ofInt ha hb
  | div => exact Double.isFinite_div_ofInt ha hb (hop (.inl rfl))
  | rem => exact absurd rfl hrem

/-! ## Operations on values -/

theorem apply_integers (op : Arithmetic) {v w : Value} (hv : v.IsInteger a) (hw : w.IsInteger b)
    (ha : Word.FitsSigned a) (hb : Word.FitsSigned b) :
    op.apply v w = op.compute (.int a) (.int b) := by
  unfold apply
  rw [hv.operand? ha, hw.operand? hb]

theorem compute_of_exact {op : Arithmetic} {n : Int} (hb : Word.FitsSigned b)
    (hop : op.Divides → b ≠ 0 ∧ ¬ (a = Word.least ∧ b = -1)) (hn : op.integer? a b = some n)
    (hfits : Word.FitsSigned n) : op.compute (.int a) (.int b) = .ok (.int n) := by
  rw [compute, integral?_eq hb hop, hn, Option.bind_some,
    Word.signed?_eq_some_iff.mpr ⟨hfits, rfl⟩]

theorem compute_of_not_exact {op : Arithmetic} (ha : Word.FitsSigned a) (hb : Word.FitsSigned b)
    (hop : op.Divides → b ≠ 0 ∧ ¬ (a = Word.least ∧ b = -1))
    (hn : ∀ n, op.integer? a b = some n → ¬ Word.FitsSigned n) :
    ∃ h, op.compute (.int a) (.int b)
      = .ok (.number (.double (op.nearby (Float.ofInt a) (Float.ofInt b)) h)) := by
  have h0 : op.Divides → b ≠ 0 := fun hd => (hop hd).1
  have hrem : op ≠ .rem := by
    -- a remainder fits wherever its divisor does
    rintro rfl
    exact hn _ rfl (fitsSigned_tmod hb (h0 (.inr rfl)))
  have hnone : (op.integer? a b).bind Word.signed? = none := by
    rw [Option.bind_eq_none_iff]
    exact fun n hexact => if_neg (hn n hexact)
  have hfinite := isFinite_nearby ha hb h0 hrem
  refine ⟨hfinite, ?_⟩
  rw [compute, integral?_eq hb hop, hnone]
  dsimp only [Operand.toFloat]
  rw [inexact_eq hb h0, Value.float, dif_pos hfinite]

theorem compute_zero {op : Arithmetic} (hop : op.Divides) :
    op.compute (.int a) (.int 0) = .error (.error .divisionByZero) := by
  obtain rfl | rfl := hop <;> rfl

/-- The quotient that 64 bits do not hold. -/
theorem div_least : div.compute (.int Word.least) (.int (-1)) = .error (.crash .quotientOverflow) :=
  rfl

theorem rem_least : rem.compute (.int Word.least) (.int (-1)) = .ok (.float (-0.0)) := by
  with_unfolding_all rfl

/-- **The only crash.** -/
theorem crashes_iff {op : Arithmetic} (ha : Word.FitsSigned a) (hb : Word.FitsSigned b) :
    (∃ c, op.compute (.int a) (.int b) = .error (.crash c))
      ↔ op = .div ∧ a = Word.least ∧ b = -1 := by
  constructor
  · rintro ⟨c, hc⟩
    by_cases hop : op.Divides → b ≠ 0 ∧ ¬ (a = Word.least ∧ b = -1)
    · by_cases hexact : ∃ n, op.integer? a b = some n ∧ Word.FitsSigned n
      · obtain ⟨n, hn, hfits⟩ := hexact
        rw [compute_of_exact hb hop hn hfits] at hc
        cases hc
      · obtain ⟨h, hdouble⟩ :=
          compute_of_not_exact ha hb hop fun n hn hfits => hexact ⟨n, hn, hfits⟩
        rw [hdouble] at hc
        cases hc
    · rw [Classical.not_imp, not_and_or, not_not, not_not] at hop
      obtain ⟨hdiv, rfl | ⟨rfl, rfl⟩⟩ := hop
      · rw [compute_zero hdiv] at hc
        cases hc
      · obtain rfl | rfl := hdiv
        · exact ⟨rfl, rfl, rfl⟩
        · rw [rem_least] at hc
          cases hc
  · rintro ⟨rfl, rfl, rfl⟩
    exact ⟨_, div_least⟩

end Arithmetic

namespace Scope

variable (scope : Scope)

/-- **Arithmetic on two integers.** Where there is an exact result that 64 bits hold, it is the
value; where there is none, the value is the result in doubles; and a division by zero is an error.
The least integer divided by minus one is the exception: the division crashes, as nothing else does,
and the remainder is the zero of doubles with a minus sign. -/
theorem evaluate_integers {source : String} {op : Arithmetic} {l r : Expr} {v w : Value} {a b : Int}
    (he : Expr.parse source = .ok (.compute op l r)) (hl : l.evalWith scope scope.whole = .ok v)
    (hr : r.evalWith scope scope.whole = .ok w) (hv : v.IsInteger a) (hw : w.IsInteger b)
    (ha : Word.FitsSigned a) (hb : Word.FitsSigned b) :
    (op.Divides → b = 0 → scope.evaluate source = .error (.error .divisionByZero))
      ∧ ((op.Divides → b ≠ 0 ∧ ¬ (a = Word.least ∧ b = -1)) →
        (∀ n, op.integer? a b = some n → Word.FitsSigned n → scope.evaluate source = .ok (.int n))
        ∧ ((∀ n, op.integer? a b = some n → ¬ Word.FitsSigned n) →
          ∃ h, scope.evaluate source
            = .ok (.number (.double (op.nearby (Float.ofInt a) (Float.ofInt b)) h)))
        ∧ (op = .rem → scope.evaluate source = .ok (.int (a.tmod b))))
      ∧ (op = .rem → a = Word.least → b = -1 → scope.evaluate source = .ok (.float (-0.0)))
      ∧ ((∃ c, scope.evaluate source = .error (.crash c))
        ↔ op = .div ∧ a = Word.least ∧ b = -1) := by
  have hvalue : scope.evaluate source = op.compute (.int a) (.int b) := by
    rw [scope.evaluate_eq he, Expr.evalWith, hl, hr]
    exact op.apply_integers hv hw ha hb
  rw [hvalue]
  refine ⟨?_, fun hop => ⟨fun n hn hfits => ?_, fun hn => ?_, ?_⟩, ?_, ?_⟩
  · rintro hop rfl
    exact Arithmetic.compute_zero hop
  · exact Arithmetic.compute_of_exact hb hop hn hfits
  · exact Arithmetic.compute_of_not_exact ha hb hop hn
  · rintro rfl
    have hfits := Arithmetic.fitsSigned_tmod (a := a) hb (hop (.inr rfl)).1
    exact Arithmetic.compute_of_exact hb hop rfl hfits
  · rintro rfl rfl rfl
    exact Arithmetic.rem_least
  · exact Arithmetic.crashes_iff ha hb

/-- A product that 64 bits do not hold, of a number and a text with a sign, a zero and blanks. -/
theorem evaluate_integers_product :
    let scope := ofVariables [("total", .int 9223372036854775807), ("factor", .text " +02 ")]
    let source := "total * factor"
    Expr.parse source = .ok (.compute .mul (.name "total") (.name "factor"))
      ∧ (Value.text " +02 ").IsInteger 2
      ∧ ∃ h, scope.evaluate source = .ok (.number
        (.double (Arithmetic.mul.nearby (Float.ofInt 9223372036854775807) (Float.ofInt 2)) h)) := by
  intro scope source
  let e : Expr := .compute .mul (.name "total") (.name "factor")
  have hwritten : String.ofList e.written = source := by decide +kernel
  have he : Expr.parse source = .ok e := by
    obtain ⟨hparse, hplain⟩ := Expr.parse_written e (by decide +kernel)
    exact hwritten ▸ hplain (by decide +kernel) ▸ hparse
  have hl : Expr.evalWith scope scope.whole (.name "total") = .ok (.int 9223372036854775807) := by
    with_unfolding_all rfl
  have hr : Expr.evalWith scope scope.whole (.name "factor") = .ok (.text " +02 ") := by
    with_unfolding_all rfl
  have hw : (Value.text " +02 ").IsInteger 2 := by
    have hblank : ∀ c ∈ [' '], Text.isBlank c = true := List.forall_mem_singleton.mpr rfl
    have h :
        (Value.text (String.ofList ([' '] ++ '+' :: Numeral.padded 1 2 ++ [' ']))).IsInteger 2 :=
      .text hblank hblank (.plus 1 2)
    exact h
  have hnot : ∀ n, Arithmetic.mul.integer? 9223372036854775807 2 = some n →
      ¬ Word.FitsSigned n := by
    intro n hn
    cases hn
    decide
  obtain ⟨-, hresult, -⟩ := scope.evaluate_integers he hl hr .number hw (by decide) (by decide)
  exact ⟨he, hw, (hresult nofun).2.1 hnot⟩

/-- The least integer and minus one have no quotient at all, and their remainder is not the integer
zero. -/
theorem evaluate_ne_of_least :
    let scope := ofVariables [("small", .int Word.least)]
    (∀ v, scope.evaluate "small / -1" ≠ .ok v) ∧ scope.evaluate "small % -1" ≠ .ok (.int 0) := by
  intro scope
  have hdiv : (scope.evaluate "small / -1").toOption.isNone = true := by decide +kernel
  have hrem : (scope.evaluate "small % -1").toOption.map Value.display = some "-0.0" := by
    decide +kernel
  refine ⟨fun v hv => ?_, fun hv => ?_⟩
  · rw [hv] at hdiv
    cases hdiv
  · rw [hv] at hrem
    exact absurd hrem (by decide)

end Scope

end Playbook
