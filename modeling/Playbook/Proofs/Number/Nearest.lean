import Mathlib
import Playbook.Proofs.Number.Order

/-!
# The double nearest to an integer

A double has 53 bits for its significand. An integer that takes more is rounded to them, to the even
one of two candidates where both are equally near; `nearest` is the integer that results. It is the
integer itself as far as 53 bits go, and beyond that integers near each other become one.

The double that an integer is turned into stands for exactly this integer (`stands_ofInt`). The way
there is not a straight one. A long integer is shifted and rounded; a short one is stored as it is
and multiplied by one, and the product is rounded once more. Rounding decides by the two bits that
are kept of everything that is cut off. What these two say is that the quotient is rounded to the
nearest integer (`roundedMantissa_eq`).

As full significands are compared like the integers they stand for, doubles of integers are compared
as their nearest integers are. Rounding keeps the order, so a comparison can be wrong in one way
only, which is that different integers are taken for the same.
-/

namespace Playbook.Double

open Float.Model Float.Model.UnpackedFloat

variable {n d k : Nat}

/-! ## Rounding a quotient -/

/-- **A quotient rounded to the nearest integer**, to the even one if two are equally near. -/
def halfEven (n d : Nat) : Nat :=
  if 2 * (n % d) < d then n / d
  else if 2 * (n % d) = d then n / d + n / d % 2
  else n / d + 1

theorem div_le_halfEven (n d : Nat) : n / d ≤ halfEven n d := by
  rw [halfEven]
  split
  · exact Nat.le_refl _
  · split <;> omega

theorem halfEven_le_div (n d : Nat) : halfEven n d ≤ n / d + 1 := by
  rw [halfEven]
  split
  · exact Nat.le_succ _
  · split <;> omega

theorem halfEven_one (n : Nat) : halfEven n 1 = n := by
  rw [halfEven, Nat.mod_one, if_pos (by decide), Nat.div_one]

theorem halfEven_mul_right (n d : Nat) {c : Nat} (hc : 0 < c) :
    halfEven (n * c) (d * c) = halfEven n d := by
  rw [halfEven, Nat.mul_mod_mul_right, Nat.mul_div_mul_right _ _ hc, ← Nat.mul_assoc,
    halfEven]
  simp only [Nat.mul_lt_mul_right hc, Nat.mul_left_inj (Nat.ne_of_gt hc)]

theorem halfEven_self_mul (n : Nat) (hd : 0 < d) : halfEven (n * d) d = n := by
  have h := halfEven_mul_right n 1 hd
  rwa [Nat.one_mul, halfEven_one] at h

/-- Rounding keeps the order. -/
theorem halfEven_mono {m : Nat} (h : m ≤ n) : halfEven m d ≤ halfEven n d := by
  obtain hlt | heq := Nat.lt_or_eq_of_le (Nat.div_le_div_right (c := d) h)
  · exact (halfEven_le_div m d).trans (Nat.succ_le_of_lt hlt |>.trans (div_le_halfEven n d))
  · have hm := Nat.div_add_mod m d
    have hn := Nat.div_add_mod n d
    rw [heq] at hm
    have hrest : m % d ≤ n % d := by omega
    rw [halfEven, halfEven, heq]
    split_ifs <;> omega

/-! ## What the rounding bits say -/

/-- **What is known of a number that was cut off** after the quotient by `d`: whether there is a
rest, and where the rest stands relative to one half. -/
def Cut (em : ExtendedMantissa) (n d : Nat) : Prop :=
  em.mantissa = n / d ∧
    match em.accuracy with
    | .exact => n % d = 0
    | .inexact .lt => 0 < n % d ∧ 2 * (n % d) < d
    | .inexact .eq => 2 * (n % d) = d
    | .inexact .gt => d < 2 * (n % d)

theorem cut_exact (n : Nat) : Cut (.ofMantissaAndAccuracy n .exact) n 1 :=
  ⟨(Nat.div_one n).symm, Nat.mod_one n⟩

/-- A further bit is cut off, and the bits behind it count as a rest. -/
theorem Cut.shiftRightOne {em : ExtendedMantissa} (hd : 0 < d) (h : Cut em n d) :
    Cut em.shiftRightOne n (d * 2) := by
  obtain ⟨q, round, sticky⟩ := em
  obtain ⟨rfl, h⟩ := h
  have hrest : n % (d * 2) = n % d + d * (n / d % 2) := Nat.mod_mul
  have hlt : n % d < d := Nat.mod_lt n hd
  refine ⟨Nat.div_div_eq_div_mul n d 2, ?_⟩
  rw [hrest]
  obtain hbit | hbit := Nat.mod_two_eq_zero_or_one (n / d)
  all_goals
    have hround : ExtendedMantissa.shiftRightOne ⟨n / d, round, sticky⟩
        = ⟨n / d / 2, n / d % 2 != 0, round || sticky⟩ := rfl
    rw [hround, hbit]
    cases round <;> cases sticky <;>
      simp [ExtendedMantissa.accuracy] at h ⊢ <;> omega

theorem cut_shiftRight (n k : Nat) :
    Cut (ExtendedMantissa.ofMantissaAndAccuracy n .exact >>> k) n (2 ^ k) := by
  induction k with
  | zero => exact cut_exact n
  | succ k ih => exact ih.shiftRightOne (Nat.two_pow_pos k)

/-- **A number that was cut off is rounded to the nearest.** -/
theorem Cut.roundedMantissa_eq {em : ExtendedMantissa} (hd : 0 < d) (h : Cut em n d) :
    em.roundedMantissa = halfEven n d := by
  obtain ⟨q, round, sticky⟩ := em
  obtain ⟨rfl, h⟩ := h
  rw [halfEven]
  cases round <;> cases sticky <;>
    simp only [ExtendedMantissa.roundedMantissa, ExtendedMantissa.accuracy,
      Accuracy.roundToNearestEven] at h ⊢ <;>
    split <;> first | omega | (split <;> omega)

theorem rounded_eq (m : Nat) : rounded m .exact = halfEven m (2 ^ (m.log2 - 52)) :=
  (cut_shiftRight m _).roundedMantissa_eq (Nat.two_pow_pos _)

/-! ## Integers of 53 bits -/

/-- A natural number rounded to 53 significant bits. -/
def nearestNat (n : Nat) : Nat := halfEven n (2 ^ (n.log2 - 52)) * 2 ^ (n.log2 - 52)

/-- **The integer nearest to a given one among those that 53 bits hold**, as doubles do; of two that
are equally near the one with the even significand. -/
def nearest (n : Int) : Int := n.sign * nearestNat n.natAbs

theorem nearestNat_of_lt (h : n < 2 ^ 53) : nearestNat n = n := by
  have hlog : n.log2 < 53 := (log2_lt_iff (by decide)).mpr h
  rw [nearestNat, Nat.sub_eq_zero_of_le (by omega), Nat.pow_zero, halfEven_one, Nat.mul_one]

theorem le_nearestNat (h : n ≠ 0) : 2 ^ n.log2 ≤ nearestNat n := by
  have hlow := Nat.log2_self_le h
  by_cases hlog : n.log2 < 53
  · rwa [nearestNat_of_lt ((log2_lt_iff (by decide)).mp hlog)]
  · rw [nearestNat]
    calc 2 ^ n.log2 = 2 ^ n.log2 / 2 ^ (n.log2 - 52) * 2 ^ (n.log2 - 52) := by
          rw [Nat.div_mul_cancel (Nat.pow_dvd_pow 2 (Nat.sub_le _ _))]
      _ ≤ n / 2 ^ (n.log2 - 52) * 2 ^ (n.log2 - 52) :=
          Nat.mul_le_mul_right _ (Nat.div_le_div_right hlow)
      _ ≤ _ := Nat.mul_le_mul_right _ (div_le_halfEven _ _)

theorem nearestNat_le (n : Nat) : nearestNat n ≤ 2 ^ (n.log2 + 1) := by
  have hhigh : n < 2 ^ (n.log2 + 1) := Nat.lt_log2_self
  by_cases hlog : n.log2 < 53
  · rw [nearestNat_of_lt ((log2_lt_iff (by decide)).mp hlog)]
    exact hhigh.le
  · have hsplit : 2 ^ 53 * 2 ^ (n.log2 - 52) = 2 ^ (n.log2 + 1) := by
      rw [← Nat.pow_add]
      congr 1
      omega
    have hdiv : n / 2 ^ (n.log2 - 52) < 2 ^ 53 :=
      (Nat.div_lt_iff_lt_mul (Nat.two_pow_pos _)).mpr (hsplit ▸ hhigh)
    rw [nearestNat, ← hsplit]
    exact Nat.mul_le_mul_right _ ((halfEven_le_div _ _).trans hdiv)

theorem nearestNat_mono {m : Nat} (h : m ≤ n) : nearestNat m ≤ nearestNat n := by
  by_cases hm : m = 0
  · rw [hm, nearestNat_of_lt (by decide)]
    exact Nat.zero_le _
  have hlog : m.log2 ≤ n.log2 := (Nat.le_log2 (by omega)).mpr ((Nat.log2_self_le hm).trans h)
  obtain hlt | heq := Nat.lt_or_eq_of_le hlog
  · calc nearestNat m ≤ 2 ^ (m.log2 + 1) := nearestNat_le m
      _ ≤ 2 ^ n.log2 := Nat.pow_le_pow_right (by decide) hlt
      _ ≤ nearestNat n := le_nearestNat (by omega)
  · rw [nearestNat, nearestNat, heq]
    exact Nat.mul_le_mul_right _ (halfEven_mono h)

theorem nearestNat_pos (h : 0 < n) : 0 < nearestNat n :=
  (Nat.two_pow_pos _).trans_le (le_nearestNat (Nat.ne_of_gt h))

/-- **Rounding keeps the order.** -/
theorem nearest_mono {a b : Int} (h : a ≤ b) : nearest a ≤ nearest b := by
  obtain ha | rfl | ha := lt_trichotomy a 0
  · rw [nearest, Int.sign_eq_neg_one_of_neg ha]
    obtain hb | rfl | hb := lt_trichotomy b 0
    · have := nearestNat_mono (m := b.natAbs) (n := a.natAbs) (by omega)
      rw [nearest, Int.sign_eq_neg_one_of_neg hb]
      omega
    · rw [nearest, Int.sign_zero]
      omega
    · rw [nearest, Int.sign_eq_one_of_pos hb]
      omega
  · obtain hb | rfl | hb := lt_trichotomy b 0
    · omega
    · exact le_refl _
    · rw [nearest, nearest, Int.sign_zero, Int.sign_eq_one_of_pos hb]
      omega
  · have := nearestNat_mono (m := a.natAbs) (n := b.natAbs) (by omega)
    rw [nearest, nearest, Int.sign_eq_one_of_pos ha, Int.sign_eq_one_of_pos (by omega)]
    omega

/-- **An integer of 53 bits is its own nearest.** -/
theorem nearest_of_natAbs_le {a : Int} (h : a.natAbs ≤ 2 ^ 53) : nearest a = a := by
  have hself : nearestNat a.natAbs = a.natAbs := by
    obtain hlt | heq := Nat.lt_or_eq_of_le h
    · exact nearestNat_of_lt hlt
    · rw [heq]
      decide +kernel
  rw [nearest, hself, Int.sign_mul_natAbs]

/-! ## Doubles of integers -/

/-- **A double that stands for an integer**: the zero, or one with a full significand. What the
integer is multiplied by makes the exponents of such doubles natural numbers. -/
inductive Stands : UnpackedFloat → Int → Prop
  | zero (s : Sign) : Stands (.zero s) 0
  | full (s : Sign) (f : Nat) (e : Int) (hpos : 0 < f) (n : Int) (hf : f.log2 = 52)
    (hlow : -104 ≤ e) (hhigh : e ≤ 12)
    (hn : s.apply (f * 2 ^ (e + 104).toNat : Nat) = n * 2 ^ 104) :
    Stands (.finite s f e hpos) n

theorem stands_positive {f m : Nat} {e : Int} (hpos : 0 < f) (hf : f.log2 = 52) (hlow : -104 ≤ e)
    (hhigh : e ≤ 12) (h : f * 2 ^ (e + 104).toNat = m * 2 ^ 104) :
    Stands (.finite .positive f e hpos) m :=
  .full .positive f e hpos m hf hlow hhigh (by rw [Sign.apply]; exact_mod_cast h)

/-- A number of at least 53 bits is rounded to a full significand, which stands for its nearest. -/
theorem exists_round_full (s : Sign) {m : Nat} {e : Int} (hm : 52 ≤ m.log2)
    (hlow : -104 ≤ e) :
    ∃ f e' hpos, roundWithAccuracy Format.binary64 s m e .exact = .finite s f e' hpos
      ∧ f.log2 = 52 ∧ e ≤ e' ∧ e' ≤ e + m.log2 - 51
      ∧ f * 2 ^ (e' + 104).toNat = nearestNat m * 2 ^ (e + 104).toNat := by
  have hlead := le_leading hm
  have hlead' := leading_lt m
  obtain ⟨hl, hh⟩ := rounded_bounds m .exact
  have hnear : nearestNat m = rounded m .exact * 2 ^ (m.log2 - 52) := by
    rw [nearestNat, rounded_eq]
  rw [roundWithAccuracy_eq s m .exact (by omega), hnear]
  generalize rounded m .exact = r at hl hh
  -- Rounding up may lead to the next power of two, which is one bit longer.
  obtain ⟨hr, hrlog⟩ : leading r * 2 ^ (r.log2 - 52) = r ∧ 52 ≤ r.log2 ∧ r.log2 ≤ 53 := by
    obtain hlt | rfl := Nat.lt_or_eq_of_le (show r ≤ 2 ^ 53 by omega)
    · have hlog : r.log2 = 52 := (Nat.log2_eq_iff (by omega)).mpr ⟨by omega, by omega⟩
      rw [leading, hlog, Nat.sub_self, Nat.pow_zero, Nat.div_one, Nat.mul_one]
      omega
    · rw [leading, Nat.log2_two_pow]
      decide
  have hne : leading r ≠ 0 := by
    have := le_leading hrlog.1
    omega
  rw [dif_neg hne]
  refine ⟨_, _, _, rfl, log2_leading hrlog.1, by omega, by omega, ?_⟩
  have hexp : (e + (m.log2 - 52 : Nat) + (r.log2 - 52 : Nat) + 104).toNat
      = (r.log2 - 52) + ((m.log2 - 52) + (e + 104).toNat) := by omega
  rw [hexp, Nat.pow_add, ← Nat.mul_assoc, hr, Nat.pow_add, Nat.mul_assoc]

/-- A significand that is full already is not changed. -/
theorem nearestNat_shiftLeft {f : Nat} (hf : f.log2 = 52) (k : Nat) :
    nearestNat (f * 2 ^ k) = f * 2 ^ k := by
  have hpos : 0 < f := by
    by_contra h0
    rw [Nat.eq_zero_of_not_pos h0] at hf
    cases hf
  have hlog : (f * 2 ^ k).log2 = 52 + k := by
    rw [← Nat.shiftLeft_eq, log2_shiftLeft hpos, hf]
  rw [nearestNat, hlog, Nat.add_sub_cancel_left, halfEven_self_mul _ (Nat.two_pow_pos k)]

/-- Shifting a long number does not change what is cut off. -/
theorem nearestNat_mul_two_pow (hn : 52 ≤ n.log2) (k : Nat) :
    nearestNat (n * 2 ^ k) = nearestNat n * 2 ^ k := by
  have hpos : 0 < n := by
    by_contra h0
    rw [Nat.eq_zero_of_not_pos h0] at hn
    cases hn
  have hlog : (n * 2 ^ k).log2 - 52 = (n.log2 - 52) + k := by
    rw [← Nat.shiftLeft_eq, log2_shiftLeft hpos]
    omega
  rw [nearestNat, hlog, Nat.pow_add, halfEven_mul_right _ _ (Nat.two_pow_pos k), nearestNat,
    Nat.mul_assoc]

theorem nearest_natCast (n : Nat) : nearest (n : Int) = nearestNat n := by
  rw [nearest, Int.natAbs_natCast]
  obtain rfl | hn := Nat.eq_zero_or_pos n
  · rfl
  · rw [Int.sign_natCast_of_ne_zero (Nat.ne_of_gt hn), Int.one_mul]

theorem nearest_neg (n : Int) : nearest (-n) = -nearest n := by
  rw [nearest, nearest, Int.sign_neg, Int.natAbs_neg, Int.neg_mul]

/-- A short number is stored as it is, with a full significand. -/
theorem exists_unpack_toFloat (h0 : 0 < n) (hn : n < 2 ^ 53) :
    ∃ f e hpos, n.toUInt64.toFloat.toModel.unpack = .finite .positive f e hpos ∧ f.log2 = 52
      ∧ -52 ≤ e ∧ e ≤ 1 ∧ f * 2 ^ (e + 104).toNat = n * 2 ^ 104 := by
  have hlog : n.log2 < 53 := (log2_lt_iff (by decide)).mpr hn
  have hshift : min (52 - n.log2) ((0 : Int) + 1074).toNat = 52 - n.log2 := by omega
  have hlen := log2_shiftLeft h0 (52 - n.log2)
  obtain ⟨f, e, hpos, hround, hf, hlow, hhigh, hvalue⟩ :=
    exists_round_full .positive (m := n <<< (52 - n.log2)) (e := 0 - (52 - n.log2 : Nat))
      (by omega) (by omega)
  refine ⟨f, e, hpos, ?_, hf, by omega, by omega, ?_⟩
  · rw [toFloat_eq h0 (by omega), round_eq, hshift, hround]
    exact unpack_pack .positive hpos hf (by omega) (by omega)
  · -- the exponent takes back what the number was shifted by
    have hexp : (0 - ((52 - n.log2 : Nat) : Int) + 104).toNat = 104 - (52 - n.log2) := by omega
    have hshort : n <<< (52 - n.log2) < 2 ^ 53 := (log2_lt_iff (by decide)).mp (by omega)
    rw [hvalue, nearestNat_of_lt hshort, hexp, Nat.shiftLeft_eq, Nat.mul_assoc, ← Nat.pow_add,
      Nat.add_sub_of_le (by omega)]

/-- A product by one stands for what its factor stands for. -/
theorem exists_unpack_mul_one {f : Nat} {e : Int} (hpos : 0 < f) (hf : f.log2 = 52)
    (hlow : -52 ≤ e) (hhigh : e ≤ 1) :
    ∃ f' e' hpos', (Float.Model.pack (UnpackedFloat.mul Format.binary64
        (.finite .positive f e hpos) (Float.ofBits 0x3FF0000000000000).toModel.unpack)).unpack
          = .finite .positive f' e' hpos' ∧ f'.log2 = 52 ∧ -104 ≤ e' ∧ e' ≤ 12
      ∧ f' * 2 ^ (e' + 104).toNat = f * 2 ^ (e + 104).toNat := by
  have hlen := log2_shiftLeft hpos 52
  obtain ⟨f', e', hpos', hround, hf', hlow', hhigh', hvalue⟩ :=
    exists_round_full .positive (m := f <<< 52) (e := e + -52) (by omega) (by omega)
  refine ⟨f', e', hpos', ?_, hf', by omega, by omega, ?_⟩
  · rw [unpack_one]
    show (Float.Model.pack (roundWithAccuracy Format.binary64 .positive (f * 2 ^ 52) (e + -52)
      .exact)).unpack = _
    rw [← Nat.shiftLeft_eq, hround]
    exact unpack_pack .positive hpos' hf' (by omega) (by omega)
  · have hexp : (e + 104).toNat = 52 + (e + -52 + 104).toNat := by omega
    rw [hvalue, Nat.shiftLeft_eq, nearestNat_shiftLeft hf, Nat.mul_assoc, ← Nat.pow_add, hexp]

/-- **A natural number becomes a double that stands for its nearest.** -/
theorem stands_ofNat (hn : n < 2 ^ 64) : Stands (Float.ofNat n).toModel.unpack (nearestNat n) := by
  obtain rfl | h0 := Nat.eq_zero_or_pos n
  · have hzero : (Float.ofNat 0).toModel.unpack = .zero .positive := by with_unfolding_all rfl
    rw [hzero]
    exact .zero _
  obtain hsmall | hlarge := Nat.lt_or_ge n (2 ^ 53)
  · obtain ⟨f, e, hpos, hstored, hf, hlow, hhigh, hvalue⟩ := exists_unpack_toFloat h0 hsmall
    obtain ⟨f', e', hpos', hproduct, hf', hlow', hhigh', hvalue'⟩ :=
      exists_unpack_mul_one hpos hf hlow hhigh
    rw [ofNat_of_lt hsmall, nearestNat_of_lt hsmall]
    show Stands (Float.Model.pack (UnpackedFloat.mul Format.binary64
      n.toUInt64.toFloat.toModel.unpack
      (Float.ofBits 0x3FF0000000000000).toModel.unpack)).unpack n
    rw [hstored, hproduct]
    exact stands_positive hpos' hf' hlow' hhigh' (hvalue'.trans hvalue)
  · have hlog : n.log2 < 64 := (log2_lt_iff (by decide)).mpr hn
    have hlog' : 53 ≤ n.log2 := (Nat.le_log2 (by omega)).mpr hlarge
    have hlen := log2_shiftLeft h0 53
    obtain ⟨f, e, hpos, hround, hf, hlow, hhigh, hvalue⟩ :=
      exists_round_full .positive (m := n <<< 53) (e := -53) (by omega) (by omega)
    have hsame : f * 2 ^ (e + 104).toNat = nearestNat n * 2 ^ 104 := by
      rw [hvalue, Nat.shiftLeft_eq, nearestNat_mul_two_pow (by omega), Nat.mul_assoc]
      rfl
    rw [ofNat_of_le hlarge, hround, unpack_pack .positive hpos hf (by omega) (by omega)]
    exact stands_positive hpos hf (by omega) (by omega) hsame

/-- **An integer becomes a double that stands for its nearest.** -/
theorem stands_ofInt {a : Int} (ha : Word.FitsSigned a) :
    Stands (Float.ofInt a).toModel.unpack (nearest a) := by
  cases a with
  | ofNat n =>
    have hcast := Int.ofNat_eq_natCast n
    rw [hcast, nearest_natCast]
    exact stands_ofNat (by omega)
  | negSucc n =>
    have h := stands_ofNat (n := n + 1) (by omega)
    have hneg : (Float.ofInt (.negSucc n)).toModel.unpack
        = (Float.Model.pack (Float.ofNat (n + 1)).toModel.unpack.neg).unpack := rfl
    rw [hneg, Int.negSucc_eq, ← Int.natCast_succ, nearest_neg, nearest_natCast]
    have hpos := nearestNat_pos (n := n + 1) (by omega)
    generalize (Float.ofNat (n + 1)).toModel.unpack = x at h
    generalize hm : (nearestNat (n + 1) : Int) = m at h ⊢
    cases h with
    | zero => omega
    | full s f e hpos m hf hlow hhigh hn =>
      rw [UnpackedFloat.neg, unpack_pack _ hpos hf (by omega) (by omega)]
      refine .full _ f e hpos _ hf hlow hhigh ?_
      rw [Int.neg_mul, ← hn]
      cases s
      · exact (Int.neg_neg _).symm
      · rfl

/-! ## Comparing doubles of integers -/

/-- Full significands are compared like what they stand for: the greater exponent comes with the
greater number, whatever the significands are. -/
theorem lt_of_lex {f f' : Nat} {e e' : Int} (hf : f.log2 = 52) (hf' : f'.log2 = 52)
    (he : -104 ≤ e) (h : e < e' ∨ e = e' ∧ f < f') :
    f * 2 ^ (e + 104).toNat < f' * 2 ^ (e' + 104).toNat := by
  obtain hlt | ⟨rfl, hlt⟩ := h
  · have hhigh : f < 2 ^ 53 := (log2_lt_iff (by decide)).mp (by omega)
    have hlow' : 2 ^ 52 ≤ f' := by
      rw [← hf']
      exact Nat.log2_self_le (by rintro rfl; cases hf')
    calc f * 2 ^ (e + 104).toNat < 2 ^ 53 * 2 ^ (e + 104).toNat :=
          Nat.mul_lt_mul_of_pos_right hhigh (Nat.two_pow_pos _)
      _ ≤ 2 ^ 52 * 2 ^ (e' + 104).toNat := by
          rw [← Nat.pow_add, ← Nat.pow_add]
          exact Nat.pow_le_pow_right (by decide) (by omega)
      _ ≤ f' * 2 ^ (e' + 104).toNat := Nat.mul_le_mul_right _ hlow'
  · exact Nat.mul_lt_mul_of_pos_right hlt (Nat.two_pow_pos _)

namespace Stands

variable {x y : UnpackedFloat} {a b : Int}

theorem lt_of_rank_lt (hx : Stands x a) (hy : Stands y b) (h : rank x < rank y) : a < b := by
  cases hx with
  | zero s =>
    cases hy with
    | zero t => exact absurd h (lt_irrefl _)
    | full t f e hpos b hf hlow hhigh hn =>
      have hprod : 0 < f * 2 ^ (e + 104).toNat := Nat.mul_pos hpos (Nat.two_pow_pos _)
      cases t with
      | negative => exact absurd h (by simp [rank, Prod.Lex.toLex_lt_toLex])
      | positive =>
        dsimp only [Sign.apply] at hn
        omega
  | full s f e hpos a hf hlow hhigh hm =>
    have hprod : 0 < f * 2 ^ (e + 104).toNat := Nat.mul_pos hpos (Nat.two_pow_pos _)
    cases hy with
    | zero t =>
      cases s with
      | negative =>
        dsimp only [Sign.apply] at hm
        omega
      | positive => exact absurd h (by simp [rank, Prod.Lex.toLex_lt_toLex])
    | full t f' e' hpos' b hf' hlow' hhigh' hn =>
      have hprod' : 0 < f' * 2 ^ (e' + 104).toNat := Nat.mul_pos hpos' (Nat.two_pow_pos _)
      cases s with
      | negative =>
        dsimp only [Sign.apply] at hm
        cases t with
        | negative =>
          have hlex : e' < e ∨ e' = e ∧ f' < f := by
            simpa [rank, Prod.Lex.toLex_lt_toLex, eq_comm] using h
          have := lt_of_lex hf' hf hlow' hlex
          dsimp only [Sign.apply] at hn
          omega
        | positive =>
          dsimp only [Sign.apply] at hn
          omega
      | positive =>
        dsimp only [Sign.apply] at hm
        cases t with
        | negative => exact absurd h (by simp [rank, Prod.Lex.toLex_lt_toLex])
        | positive =>
          have hlex : e < e' ∨ e = e' ∧ f < f' := by
            simpa [rank, Prod.Lex.toLex_lt_toLex] using h
          have := lt_of_lex hf hf' hlow hlex
          dsimp only [Sign.apply] at hn
          omega

theorem eq_of_rank_eq (hx : Stands x a) (hy : Stands y b) (h : rank x = rank y) : a = b := by
  cases hx with
  | zero s =>
    cases hy with
    | zero t => rfl
    | full t => cases t <;> simp [rank] at h
  | full s f e hpos a hf hlow hhigh hm =>
    cases hy with
    | zero t => cases s <;> simp [rank] at h
    | full t f' e' hpos' b hf' hlow' hhigh' hn =>
      obtain ⟨rfl, rfl, rfl⟩ : s = t ∧ e = e' ∧ f = f' := by
        cases s <;> cases t <;> simp [rank] at h ⊢ <;> exact h
      rw [hm] at hn
      omega

/-- **Doubles of integers are placed like the integers they stand for.** -/
theorem rank_lt_iff (hx : Stands x a) (hy : Stands y b) : rank x < rank y ↔ a < b := by
  refine ⟨hx.lt_of_rank_lt hy, fun h => ?_⟩
  obtain hlt | heq | hgt := lt_trichotomy (rank x) (rank y)
  · exact hlt
  · have := hx.eq_of_rank_eq hy heq
    omega
  · have := hy.lt_of_rank_lt hx hgt
    omega

theorem rank_eq_iff (hx : Stands x a) (hy : Stands y b) : rank x = rank y ↔ a = b := by
  refine ⟨hx.eq_of_rank_eq hy, fun h => ?_⟩
  obtain hlt | heq | hgt := lt_trichotomy (rank x) (rank y)
  · have := hx.lt_of_rank_lt hy hlt
    omega
  · exact heq
  · have := hy.lt_of_rank_lt hx hgt
    omega

end Stands

/-- **Doubles of integers are in the order of their nearest integers.** -/
theorem ofInt_lt_iff {a b : Int} (ha : Word.FitsSigned a) (hb : Word.FitsSigned b) :
    Float.ofInt a < Float.ofInt b ↔ nearest a < nearest b := by
  rw [lt_iff_rank (isNaN_ofInt a) (isNaN_ofInt b)]
  exact (stands_ofInt ha).rank_lt_iff (stands_ofInt hb)

theorem ofInt_beq_iff {a b : Int} (ha : Word.FitsSigned a) (hb : Word.FitsSigned b) :
    (Float.ofInt a == Float.ofInt b) = true ↔ nearest a = nearest b := by
  rw [beq_iff_rank (isNaN_ofInt a) (isNaN_ofInt b)]
  exact (stands_ofInt ha).rank_eq_iff (stands_ofInt hb)

end Playbook.Double
