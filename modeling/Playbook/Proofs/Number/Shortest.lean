import Mathlib
import Playbook.Number.Shortest

/-!
# Doubles are told apart by their digits

The numbers that round to a double form an interval around it, and the intervals of two doubles have
no number in common (`Parts.Rounds.unique`): where they meet, one of the two significands is odd,
and its interval does not take in its ends. So any number from the interval of a double tells the
double, whether it is the shortest one or not. What remains to be seen is that the search for the
shortest digits ends in the interval (`shortest_rounds`), and then a double is told by its sign and
by its digits (`eq_of_written_eq`).

The search goes from a grid that is too coarse down to one of 24 grids. It cannot miss: the multiple
next above a double is less than one width of the grid away, and on the last grid that is less than
half of the double's last place. This is where the first grid must not be too coarse. Its width is
estimated from the binary logarithm by a fraction a little below the decimal logarithm of two,
and over the range of doubles the two go apart by less than one binary digit (`ten_zpow_le`).
-/

namespace Playbook.Double

variable {p p' : Parts} {x y : Float}

/-! ## Taking doubles apart -/

/-- **Parts as they are taken from a double.** A significand that is not full has the least
exponent. -/
structure Parts.Canonical (p : Parts) : Prop where
  significand : p.significand < 2 ^ 53
  least : -1074 ≤ p.exponent
  full : -1074 < p.exponent → 2 ^ 52 ≤ p.significand

theorem toNat_toBits (x : Float) : x.toBits.toNat
    = (if isNegative x then 2 ^ 63 else 0) + exponentField x * 2 ^ 52 + fractionField x := by
  have hlt := x.toBits.toNat_lt
  show _ = (if decide (2 ^ 63 ≤ x.toBits.toNat) = true then _ else _)
    + x.toBits.toNat / 2 ^ 52 % 2 ^ 11 * 2 ^ 52 + x.toBits.toNat % 2 ^ 52
  split
  · rename_i h
    have := of_decide_eq_true h
    omega
  · rename_i h
    have : ¬ 2 ^ 63 ≤ x.toBits.toNat := fun h' => h (decide_eq_true h')
    omega

theorem fractionField_lt (x : Float) : fractionField x < 2 ^ 52 := Nat.mod_lt _ (by decide)

theorem parts_of_zero (h : exponentField x = 0) :
    parts x = ⟨isNegative x, fractionField x, -1074⟩ := by
  unfold parts
  dsimp only
  rw [if_pos h]

theorem parts_of_ne_zero (h : exponentField x ≠ 0) :
    parts x = ⟨isNegative x, fractionField x + 2 ^ 52, (exponentField x : Int) - 1075⟩ := by
  unfold parts
  dsimp only
  rw [if_neg h]
  rfl

theorem canonical_parts (x : Float) : (parts x).Canonical := by
  have hfraction := fractionField_lt x
  by_cases h : exponentField x = 0
  · rw [parts_of_zero h]
    exact ⟨by dsimp only; omega, Int.le_refl _, fun hlt => absurd hlt (Int.lt_irrefl _)⟩
  · rw [parts_of_ne_zero h]
    exact ⟨by dsimp only; omega, by dsimp only; omega, fun _ => Nat.le_add_left _ _⟩

/-- **A double is told by its parts.** -/
theorem eq_of_parts_eq (h : parts x = parts y) : x = y := by
  have hx := fractionField_lt x
  have hy := fractionField_lt y
  have hfields : isNegative x = isNegative y ∧ exponentField x = exponentField y
      ∧ fractionField x = fractionField y := by
    by_cases h0 : exponentField x = 0
    · by_cases h0' : exponentField y = 0
      · rw [parts_of_zero h0, parts_of_zero h0', Parts.mk.injEq] at h
        exact ⟨h.1, h0.trans h0'.symm, h.2.1⟩
      · rw [parts_of_zero h0, parts_of_ne_zero h0', Parts.mk.injEq] at h
        omega
    · by_cases h0' : exponentField y = 0
      · rw [parts_of_ne_zero h0, parts_of_zero h0', Parts.mk.injEq] at h
        omega
      · rw [parts_of_ne_zero h0, parts_of_ne_zero h0', Parts.mk.injEq] at h
        exact ⟨h.1, by omega, by omega⟩
  refine Float.toBits_inj.mp (UInt64.toNat_inj.mp ?_)
  rw [toNat_toBits, toNat_toBits, hfields.1, hfields.2.1, hfields.2.2]

/-! ## The numbers that round to a double -/

/-- A decimal. -/
def decimal (digits : Nat) (exponent : Int) : ℚ := digits * 10 ^ exponent

namespace Parts

/-- A quarter of the last place. -/
def quarter (p : Parts) : ℚ := 2 ^ (p.exponent - 2)

/-- How many quarters there are between a double and the lower end of its interval. -/
def below (p : Parts) : Nat := if p.significand = 2 ^ 52 ∧ -1074 < p.exponent then 1 else 2

/-- The lower end of the interval of a double. -/
def low (p : Parts) : ℚ := (4 * p.significand - p.below : Nat) * p.quarter

/-- The upper end of the interval of a double. -/
def high (p : Parts) : ℚ := (4 * p.significand + 2 : Nat) * p.quarter

/-- **A number rounds to a double**: it lies between the ends of the interval, and they belong to it
if the significand is even. -/
def Rounds (p : Parts) (r : ℚ) : Prop :=
  if p.significand % 2 = 0 then p.low ≤ r ∧ r ≤ p.high else p.low < r ∧ r < p.high

theorem quarter_pos (p : Parts) : 0 < p.quarter := zpow_pos (by norm_num) _

theorem Rounds.bounds {r : ℚ} (h : p.Rounds r) : p.low ≤ r ∧ r ≤ p.high := by
  unfold Rounds at h
  split at h
  · exact h
  · exact ⟨h.1.le, h.2.le⟩

theorem Rounds.strict {r : ℚ} (h : p.Rounds r) (hodd : p.significand % 2 = 1) :
    p.low < r ∧ r < p.high := by
  unfold Rounds at h
  rwa [if_neg (by omega)] at h

theorem rounds_of_strict {r : ℚ} (hlow : p.low < r) (hhigh : r < p.high) : p.Rounds r := by
  unfold Rounds
  split
  · exact ⟨hlow.le, hhigh.le⟩
  · exact ⟨hlow, hhigh⟩

/-- What rounds to a positive double is positive. -/
theorem Rounds.pos {r : ℚ} (h : p.Rounds r) (h0 : 0 < p.significand) : 0 < r := by
  have hbelow : p.below ≤ 2 := by
    unfold below
    split <;> decide
  have hlow : 0 < p.low := mul_pos (by exact_mod_cast (by omega)) p.quarter_pos
  exact lt_of_lt_of_le hlow h.bounds.1

theorem quarter_of_add {k : Nat} (hk : p'.exponent = p.exponent + k) :
    p'.quarter = (2 ^ k : Nat) * p.quarter := by
  unfold quarter
  rw [hk, show p.exponent + k - 2 = (k : Int) + (p.exponent - 2) by ring,
    zpow_add₀ (by norm_num), zpow_natCast]
  push_cast
  rfl

/-- The upper end of one interval and the lower end of the next one, in quarters of the smaller
double's last place. -/
theorem quarters_le (hp : p.Canonical) (hp' : p'.Canonical) {k : Nat}
    (hk : p'.exponent = p.exponent + k) (h : k = 0 → p.significand < p'.significand) :
    4 * p.significand + 2 < (4 * p'.significand - p'.below) * 2 ^ k
      ∨ 4 * p.significand + 2 = (4 * p'.significand - p'.below) * 2 ^ k
        ∧ (p.significand % 2 = 1 ∨ p'.significand % 2 = 1) := by
  have hbelow : p'.below = 1 ∧ p'.significand = 2 ^ 52 ∨ p'.below = 2
      ∧ ¬ (p'.significand = 2 ^ 52 ∧ -1074 < p'.exponent) := by
    unfold below
    split
    · rename_i hn
      exact .inl ⟨rfl, hn.1⟩
    · rename_i hn
      exact .inr ⟨rfl, hn⟩
  have hlt := hp.significand
  have hleast := hp.least
  cases k with
  | zero =>
    have hsig := h rfl
    rw [Nat.pow_zero, Nat.mul_one]
    omega
  | succ k =>
    have hfull := hp'.full (by omega)
    have hpow : 2 ≤ 2 ^ (k + 1) := Nat.le_self_pow (Nat.succ_ne_zero k) 2
    have hmul := Nat.mul_le_mul_left (4 * p'.significand - p'.below) hpow
    omega

/-- **The intervals of two doubles**, the smaller one first, meet at most in one number. Then one of
the two significands is odd. -/
theorem high_le_low (hp : p.Canonical) (hp' : p'.Canonical)
    (h : p.exponent < p'.exponent ∨ p.exponent = p'.exponent ∧ p.significand < p'.significand) :
    p.high < p'.low ∨ p.high = p'.low ∧ (p.significand % 2 = 1 ∨ p'.significand % 2 = 1) := by
  obtain ⟨k, hk⟩ : ∃ k : Nat, p'.exponent = p.exponent + k :=
    ⟨(p'.exponent - p.exponent).toNat, by omega⟩
  have hlow : p'.low = ((4 * p'.significand - p'.below) * 2 ^ k : Nat) * p.quarter := by
    rw [low, quarter_of_add hk, ← mul_assoc]
    push_cast
    rfl
  rw [high, hlow]
  obtain hlt | ⟨heq, hodd⟩ := quarters_le hp hp' hk (by omega)
  · exact .inl (mul_lt_mul_of_pos_right (by exact_mod_cast hlt) p.quarter_pos)
  · exact .inr ⟨by rw [heq], hodd⟩

/-- Numbers that round to the smaller of two doubles are smaller. -/
theorem Rounds.lt {r r' : ℚ} (hp : p.Canonical) (hp' : p'.Canonical)
    (h : p.exponent < p'.exponent ∨ p.exponent = p'.exponent ∧ p.significand < p'.significand)
    (hr : p.Rounds r) (hr' : p'.Rounds r') : r < r' := by
  obtain hlt | ⟨heq, hodd | hodd⟩ := high_le_low hp hp' h
  · exact lt_of_le_of_lt hr.bounds.2 (lt_of_lt_of_le hlt hr'.bounds.1)
  · exact lt_of_lt_of_le (hr.strict hodd).2 (heq ▸ hr'.bounds.1)
  · exact lt_of_le_of_lt (heq ▸ hr.bounds.2) (hr'.strict hodd).1

/-- **No number rounds to two doubles.** -/
theorem Rounds.unique {r : ℚ} (hp : p.Canonical) (hp' : p'.Canonical) (hr : p.Rounds r)
    (hr' : p'.Rounds r) : p.significand = p'.significand ∧ p.exponent = p'.exponent := by
  obtain hlt | heq | hgt := lt_trichotomy p.exponent p'.exponent
  · exact absurd (hr.lt hp hp' (.inl hlt) hr') (lt_irrefl r)
  · obtain hlt | hsig | hgt := lt_trichotomy p.significand p'.significand
    · exact absurd (hr.lt hp hp' (.inr ⟨heq, hlt⟩) hr') (lt_irrefl r)
    · exact ⟨hsig, heq⟩
    · exact absurd (hr'.lt hp' hp (.inr ⟨heq.symm, hgt⟩) hr) (lt_irrefl r)
  · exact absurd (hr'.lt hp' hp (.inl hgt) hr) (lt_irrefl r)

end Parts

/-! ## The search -/

theorem zpow_eq_div {a : Nat} (ha : 0 < a) (k : Int) :
    (a : ℚ) ^ k = (a ^ k.toNat : Nat) / (a ^ (-k).toNat : Nat) := by
  have hne : (a : ℚ) ≠ 0 := by exact_mod_cast ha.ne'
  push_cast
  rw [← zpow_natCast, ← zpow_natCast, ← zpow_sub₀ hne]
  congr 1
  omega

/-- Products with fractions are compared by their cross products. -/
theorem mul_div_lt_mul_div {a b c a' b' c' : Nat} (hc : 0 < c) (hc' : 0 < c') :
    (a : ℚ) * ((b : ℚ) / c) < a' * ((b' : ℚ) / c') ↔ a * b * c' < a' * b' * c := by
  rw [← mul_div_assoc, ← mul_div_assoc,
    div_lt_div_iff₀ (by exact_mod_cast hc) (by exact_mod_cast hc')]
  exact_mod_cast Iff.rfl

theorem mul_div_le_mul_div {a b c a' b' c' : Nat} (hc : 0 < c) (hc' : 0 < c') :
    (a : ℚ) * ((b : ℚ) / c) ≤ a' * ((b' : ℚ) / c') ↔ a * b * c' ≤ a' * b' * c := by
  rw [← not_lt, ← not_lt, mul_div_lt_mul_div hc' hc]

theorem quarter_eq (p : Parts) : p.quarter
    = (twoTo (p.exponent - 2).toNat : Nat) / (twoTo (2 - p.exponent).toNat : Nat) := by
  have h := zpow_eq_div (a := 2) (by decide) (p.exponent - 2)
  rw [neg_sub] at h
  exact_mod_cast h

theorem decimal_eq (digits : Nat) (exponent : Int) : decimal digits exponent
    = digits * ((tenTo exponent.toNat : Nat) / (tenTo (-exponent).toNat : Nat)) := by
  have h := zpow_eq_div (a := 10) (by decide) exponent
  exact congrArg _ (by exact_mod_cast h)

theorem twoTo_pos (n : Nat) : 0 < twoTo n := Nat.two_pow_pos n

theorem tenTo_pos (n : Nat) : 0 < tenTo n := Nat.pow_pos (by decide)

theorem rounding_eq (p : Parts) : rounding p
    = ⟨(4 * p.significand - p.below) * twoTo (p.exponent - 2).toNat,
      4 * p.significand * twoTo (p.exponent - 2).toNat,
      (4 * p.significand + 2) * twoTo (p.exponent - 2).toNat, twoTo (2 - p.exponent).toNat,
      decide (p.significand % 2 = 0)⟩ :=
  rfl

/-- **The test of the search** is whether a decimal rounds to the double. -/
theorem holds_iff (digits : Nat) (exponent : Int) :
    (rounding p).holds digits exponent = true ↔ p.Rounds (decimal digits exponent) := by
  have htwo := twoTo_pos (2 - p.exponent).toNat
  have hten := tenTo_pos (-exponent).toNat
  unfold Parts.Rounds Parts.low Parts.high
  rw [rounding_eq, quarter_eq, decimal_eq, mul_div_le_mul_div htwo hten,
    mul_div_le_mul_div hten htwo, mul_div_lt_mul_div htwo hten, mul_div_lt_mul_div hten htwo]
  unfold Rounding.holds
  dsimp only
  by_cases h : p.significand % 2 = 0
  · rw [if_pos (decide_eq_true h), if_pos h, Bool.and_eq_true, decide_eq_true_eq,
      decide_eq_true_eq]
  · rw [if_neg (by rw [decide_eq_true_eq]; exact h), if_neg h, Bool.and_eq_true,
      decide_eq_true_eq, decide_eq_true_eq]

/-- What is found on a grid rounds to the double. -/
theorem rounds_of_onGrid? {exponent : Int} {digits : Nat}
    (h : (rounding p).onGrid? exponent = some digits) : p.Rounds (decimal digits exponent) := by
  rw [← holds_iff]
  unfold Rounding.onGrid? at h
  dsimp only at h
  split at h
  · rename_i hb
    cases h
    simp only [Bool.and_eq_true, decide_eq_true_eq] at hb
    exact hb.2
  · split at h
    · rename_i ha
      cases h
      exact ha
    · split at h
      · rename_i hb
        cases h
        simp only [Bool.and_eq_true, decide_eq_true_eq] at hb
        exact hb.2
      · cases h

/-- **The next multiple above a double rounds to it** on a grid that is finer than half of its last
place. -/
theorem rounds_above (h0 : 0 < p.significand) {exponent : Int}
    (he : (10 : ℚ) ^ exponent < 2 * p.quarter) :
    p.Rounds (decimal ((rounding p).value * tenTo (-exponent).toNat
      / ((rounding p).scale * tenTo exponent.toNat) + 1) exponent) := by
  have htwo := twoTo_pos (2 - p.exponent).toNat
  have hten := tenTo_pos (-exponent).toNat
  rw [rounding_eq]
  dsimp only
  generalize hnum : 4 * p.significand * twoTo (p.exponent - 2).toNat * tenTo (-exponent).toNat = num
  generalize hden : twoTo (2 - p.exponent).toNat * tenTo exponent.toNat = den
  have hpos : 0 < den := hden ▸ Nat.mul_pos htwo (tenTo_pos _)
  have hbelow : decimal (num / den) exponent ≤ (4 * p.significand : Nat) * p.quarter := by
    rw [decimal_eq, quarter_eq, mul_div_le_mul_div hten htwo, hnum, Nat.mul_assoc,
      Nat.mul_comm (tenTo _), hden]
    exact Nat.div_mul_le_self num den
  have habove : (4 * p.significand : Nat) * p.quarter < decimal (num / den + 1) exponent := by
    rw [decimal_eq, quarter_eq, mul_div_lt_mul_div htwo hten, hnum, Nat.mul_assoc,
      Nat.mul_comm (tenTo _), hden]
    exact Nat.lt_mul_of_div_lt (Nat.lt_succ_self _) hpos
  have hstep : decimal (num / den + 1) exponent = decimal (num / den) exponent + 10 ^ exponent := by
    unfold decimal
    push_cast
    ring
  have hhigh : p.high = (4 * p.significand : Nat) * p.quarter + 2 * p.quarter := by
    unfold Parts.high
    push_cast
    ring
  have hlow : p.low < (4 * p.significand : Nat) * p.quarter := by
    refine mul_lt_mul_of_pos_right ?_ p.quarter_pos
    have hsome : 0 < p.below := by
      unfold Parts.below
      split <;> decide
    exact_mod_cast Nat.sub_lt (Nat.mul_pos (by decide) h0) hsome
  exact Parts.rounds_of_strict (hlow.trans habove) (by linarith)

/-- The estimate of a power of two by a power of ten, in the range of the exponents of doubles. -/
theorem ten_zpow_le {j : Int} (hj : -4096 ≤ j) : (10 : ℚ) ^ (j * 1233 / 4096) ≤ 2 ^ (j + 1) := by
  have hpow : ((10 : ℚ) ^ (j * 1233 / 4096)) ^ 4096 ≤ ((2 : ℚ) ^ (j + 1)) ^ 4096 := by
    have hfloor : j * 1233 / 4096 * 4096 ≤ 1233 * j := by omega
    have hten : ((10 : ℚ) ^ (j * 1233 / 4096)) ^ 4096 ≤ ((10 : ℚ) ^ 1233) ^ j := by
      rw [← zpow_natCast, ← zpow_mul, ← zpow_natCast 10 1233, ← zpow_mul]
      exact zpow_le_zpow_right₀ (by norm_num) hfloor
    have hlow : (2 : ℚ) ^ 4095 ≤ 10 ^ 1233 := by
      exact_mod_cast (by decide +kernel : 2 ^ 4095 ≤ 10 ^ 1233)
    have hhigh : (10 : ℚ) ^ 1233 ≤ 2 ^ 4096 := by
      exact_mod_cast (by decide +kernel : 10 ^ 1233 ≤ 2 ^ 4096)
    refine hten.trans ?_
    rw [← zpow_natCast ((2 : ℚ) ^ (j + 1)), ← zpow_mul]
    obtain hneg | hpos := le_or_gt j 0
    · have hinv : ((10 : ℚ) ^ 1233) ^ j ≤ (2 ^ 4095) ^ j := by
        have habs : j = -(j.natAbs : Int) := by omega
        rw [habs, zpow_neg, zpow_neg, zpow_natCast, zpow_natCast]
        exact inv_anti₀ (by positivity) (pow_le_pow_left₀ (by positivity) hlow _)
      refine hinv.trans ?_
      rw [← zpow_natCast 2 4095, ← zpow_mul]
      exact zpow_le_zpow_right₀ (by norm_num) (by omega)
    · refine (zpow_le_zpow_left₀ hpos.le (by positivity) hhigh).trans ?_
      rw [← zpow_natCast 2 4096, ← zpow_mul]
      exact zpow_le_zpow_right₀ (by norm_num) (by omega)
  exact (pow_le_pow_iff_left₀ (by positivity) (by positivity) (by decide)).mp hpow

/-- The exponent of the grid that the search begins with. -/
def coarsest (p : Parts) : Int :=
  ((p.significand.log2 : Int) + p.exponent) * 1233 / 4096 + 2

/-- **The last grid of the search is fine enough.** -/
theorem finest_lt (hp : p.Canonical) (h0 : 0 < p.significand) :
    (10 : ℚ) ^ (coarsest p - 23) < 2 * p.quarter := by
  have hleast := hp.least
  have hlog : p.significand.log2 < 53 := (Nat.log2_lt h0.ne').mpr hp.significand
  have hten := ten_zpow_le (j := p.significand.log2 + p.exponent) (by omega)
  have hsplit : (10 : ℚ) ^ (coarsest p - 23)
      = 10 ^ ((p.significand.log2 + p.exponent) * 1233 / 4096) * 10 ^ (-21 : Int) := by
    rw [← zpow_add₀ (by norm_num)]
    congr 1
    unfold coarsest
    ring
  have hhalf : 2 * p.quarter = 2 ^ (p.exponent - 1) := by
    unfold Parts.quarter
    rw [← zpow_one_add₀ (by norm_num)]
    congr 1
    ring
  have hrange : (2 : ℚ) ^ ((p.significand.log2 : Int) + p.exponent + 1)
      ≤ 2 ^ (p.exponent - 1) * 2 ^ (54 : Int) := by
    rw [← zpow_add₀ (by norm_num)]
    exact zpow_le_zpow_right₀ (by norm_num) (by omega)
  rw [hsplit, hhalf]
  refine lt_of_le_of_lt (mul_le_mul_of_nonneg_right (hten.trans hrange) (by positivity)) ?_
  rw [mul_assoc]
  exact mul_lt_of_lt_one_right (by positivity) (by norm_num)

/-- **The shortest digits of a double round to it.** -/
theorem shortest_rounds (hp : p.Canonical) (h0 : 0 < p.significand) :
    p.Rounds (decimal (shortest p).1 (shortest p).2) := by
  have hlast : ((rounding p).onGrid? (coarsest p - 23)).isSome = true := by
    have hholds := (holds_iff _ _).mpr (rounds_above h0 (finest_lt hp h0))
    unfold Rounding.onGrid?
    dsimp only
    rw [hholds]
    split <;> rfl
  have hfound : (((List.range 24).map fun (i : Nat) => coarsest p - (i : Int)).findSome? fun e =>
      ((rounding p).onGrid? e).map fun d => (d, e)).isSome = true :=
    List.findSome?_isSome_iff.mpr ⟨coarsest p - 23, List.mem_map.mpr ⟨23, by decide, rfl⟩,
      by rw [Option.isSome_map, hlast]⟩
  obtain ⟨found, hfound⟩ := Option.isSome_iff_exists.mp hfound
  have hshort : shortest p = found := by
    show Option.getD (List.findSome? _ _) _ = _
    exact congrArg (Option.getD · (0, 0)) hfound
  obtain ⟨e, -, he⟩ := List.exists_of_findSome?_eq_some hfound
  obtain ⟨d, hd, rfl⟩ := Option.map_eq_some_iff.mp he
  rw [hshort]
  exact rounds_of_onGrid? hd

/-! ## Doubles by their decimals -/

/-- The decimal that is written of a double, without its sign. -/
def written (x : Float) : ℚ :=
  if (parts x).significand = 0 then 0
  else decimal (shortest (parts x)).1 (shortest (parts x)).2

theorem written_of_zero (h : (parts x).significand = 0) : written x = 0 := if_pos h

theorem rounds_written (h : (parts x).significand ≠ 0) : (parts x).Rounds (written x) := by
  rw [written, if_neg h]
  exact shortest_rounds (canonical_parts x) (Nat.pos_of_ne_zero h)

theorem written_pos (h : (parts x).significand ≠ 0) : 0 < written x :=
  (rounds_written h).pos (Nat.pos_of_ne_zero h)

/-- **A double is told by its sign and by the decimal that is written of it.** -/
theorem eq_of_written_eq (hsign : (parts x).negative = (parts y).negative)
    (h : written x = written y) : x = y := by
  have hx := canonical_parts x
  have hy := canonical_parts y
  have hparts : (parts x).significand = (parts y).significand
      ∧ (parts x).exponent = (parts y).exponent := by
    by_cases h0 : (parts x).significand = 0
    · by_cases h0' : (parts y).significand = 0
      · have hfull := hx.full
        have hfull' := hy.full
        have hleast := hx.least
        have hleast' := hy.least
        omega
      · exact absurd (h ▸ written_of_zero h0) (written_pos h0').ne'
    · by_cases h0' : (parts y).significand = 0
      · exact absurd (h ▸ written_of_zero h0') (written_pos h0).ne'
      · exact (rounds_written h0).unique hx hy (h ▸ rounds_written h0')
  refine eq_of_parts_eq ?_
  generalize parts x = p at hsign hparts ⊢
  generalize parts y = q at hsign hparts ⊢
  cases p
  cases q
  exact congr (congr (congrArg Parts.mk hsign) hparts.1) hparts.2

end Playbook.Double
