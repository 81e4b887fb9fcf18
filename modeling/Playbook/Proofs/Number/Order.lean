import Mathlib
import Playbook.Expr.Operation
import Playbook.Proofs.Number.Rounding

/-!
# The order of doubles

Doubles are compared by their sign, then by their exponent and then by their significand; infinities
are beyond all others, and the two zeros are equal. That is an order of triples (`rank`), so among
doubles that are numbers, exactly one of `<`, `==` and `>` holds. Not-a-number is equal to
nothing, itself included, and is the only double that is.

It never gets into a comparison of values. Numbers are finite, and what is read of a text that looks
like a number is a number, possibly an infinite one (`Value.isNaN_of_operand?`): the words for
not-a-number have no digit in them, and rounding does not lead there.
-/

namespace Playbook

namespace Double

open Float.Model Float.Model.UnpackedFloat

/-! ## Comparisons -/

/-- **The place of a double among all doubles**: where its kind stands, and for the finite ones the
exponent and the significand, turned round below zero. -/
def rank : UnpackedFloat → Int ×ₗ Int ×ₗ Int
  | .infinity .negative => toLex (-2, toLex (0, 0))
  | .finite .negative m e _ => toLex (-1, toLex (-e, -(m : Int)))
  | .zero _ => toLex (0, toLex (0, 0))
  | .finite .positive m e _ => toLex (1, toLex (e, (m : Int)))
  | .infinity .positive => toLex (2, toLex (0, 0))
  | .notANumber => toLex (3, toLex (0, 0))

theorem compare_natCast (a b : Nat) : compare (a : Int) (b : Int) = compare a b := by
  rw [← cmp_eq_compare, ← cmp_eq_compare]
  exact Nat.strictMono_cast.cmp_map_eq a b

theorem compare_neg (a b : Int) : compare (-a) (-b) = (compare a b).swap := by
  rw [← cmp_eq_compare, ← cmp_eq_compare, cmp_swap]
  exact StrictAnti.cmp_map_eq (fun _ _ => neg_lt_neg) a b

/-- **Doubles are compared by their places.** -/
theorem compare_eq {a b : UnpackedFloat} (ha : a.isNaN = false) (hb : b.isNaN = false) :
    a.compare b = some (compare (rank a) (rank b)) := by
  cases a with
  | notANumber => cases ha
  | infinity s =>
    cases b with
    | notANumber => cases hb
    | infinity t | finite t => cases s <;> cases t <;> rfl
    | zero t => cases s <;> rfl
  | zero s =>
    cases b with
    | notANumber => cases hb
    | infinity t | finite t => cases t <;> rfl
    | zero t => rfl
  | finite s m e =>
    cases b with
    | notANumber => cases hb
    | infinity t => cases s <;> cases t <;> rfl
    | zero t => cases s <;> rfl
    | finite t m' e' =>
      cases s with
      | negative =>
        cases t with
        | positive => rfl
        | negative =>
          show some ((compare e e').then (compare m m')).swap
            = some ((compare (-e) (-e')).then (compare (-(m : Int)) (-(m' : Int))))
          rw [compare_neg, compare_neg, compare_natCast, Ordering.swap_then]
      | positive =>
        cases t with
        | negative => rfl
        | positive =>
          show some ((compare e e').then (compare m m'))
            = some ((compare e e').then (compare (m : Int) (m' : Int)))
          rw [compare_natCast]

variable {x y z : Float}

theorem lt_iff_rank (hx : x.isNaN = false) (hy : y.isNaN = false) :
    x < y ↔ rank x.toModel.unpack < rank y.toModel.unpack := by
  have h : x < y ↔ decide ((x.toModel.unpack.compare y.toModel.unpack == some .lt) = true) = true :=
    Iff.rfl
  rw [h, decide_eq_true_eq, compare_eq hx hy, beq_iff_eq, Option.some.injEq, compare_lt_iff_lt]

theorem beq_iff_rank (hx : x.isNaN = false) (hy : y.isNaN = false) :
    (x == y) = true ↔ rank x.toModel.unpack = rank y.toModel.unpack := by
  have h : (x == y) = (x.toModel.unpack.compare y.toModel.unpack == some .eq) := rfl
  rw [h, compare_eq hx hy, beq_iff_eq, Option.some.injEq, compare_eq_iff_eq]

/-- What is equal to anything is a number. -/
theorem isNaN_of_beq (h : (x == y) = true) : x.isNaN = false ∧ y.isNaN = false := by
  have h : (x.toModel.unpack.compare y.toModel.unpack == some .eq) = true := h
  show x.toModel.unpack.isNaN = false ∧ y.toModel.unpack.isNaN = false
  generalize x.toModel.unpack = a at h ⊢
  generalize y.toModel.unpack = b at h ⊢
  cases a with
  | notANumber => cases h
  | infinity s =>
    cases b with
    | notANumber => cases s <;> cases h
    | infinity | zero | finite => exact ⟨rfl, rfl⟩
  | zero | finite =>
    cases b with
    | notANumber => cases h
    | infinity | zero | finite => exact ⟨rfl, rfl⟩

theorem beq_self (hx : x.isNaN = false) : (x == x) = true :=
  (beq_iff_rank hx hx).mpr rfl

theorem beq_symm (h : (x == y) = true) : (y == x) = true := by
  obtain ⟨hx, hy⟩ := isNaN_of_beq h
  exact (beq_iff_rank hy hx).mpr ((beq_iff_rank hx hy).mp h).symm

theorem beq_trans (h : (x == y) = true) (h' : (y == z) = true) : (x == z) = true := by
  obtain ⟨hx, hy⟩ := isNaN_of_beq h
  obtain ⟨-, hz⟩ := isNaN_of_beq h'
  exact (beq_iff_rank hx hz).mpr
    (((beq_iff_rank hx hy).mp h).trans ((beq_iff_rank hy hz).mp h'))

theorem lt_asymm (hx : x.isNaN = false) (hy : y.isNaN = false) (h : x < y) : ¬ y < x := by
  rw [lt_iff_rank hx hy] at h
  rw [lt_iff_rank hy hx]
  exact not_lt_of_gt h

/-- **Numbers are equal where neither is less.** -/
theorem beq_iff_not_lt (hx : x.isNaN = false) (hy : y.isNaN = false) :
    (x == y) = true ↔ ¬ x < y ∧ ¬ y < x := by
  rw [beq_iff_rank hx hy, lt_iff_rank hx hy, lt_iff_rank hy hx, not_lt, not_lt]
  exact le_antisymm_iff.trans and_comm

/-! ## Doubles that are numbers -/

theorem isNaN_of_isFinite (h : x.isFinite = true) : x.isNaN = false := by
  have h : x.toModel.unpack.isFinite = true := h
  show x.toModel.unpack.isNaN = false
  generalize x.toModel.unpack = a at h ⊢
  cases a with
  | notANumber => cases h
  | infinity | zero | finite => rfl

theorem isNaN_unpack {b : BitVec Format.binary64.numBits}
    (h : unpackExponent b = -1#_ → unpackMantissa b = 0#_) :
    (UnpackedFloat.unpack Format.binary64 b).isNaN = false := by
  rw [UnpackedFloat.unpack]
  dsimp only
  split
  · rename_i he
    rw [if_pos (h he)]
    rfl
  · split
    · split <;> rfl
    · rfl

/-- A number is stored as a number, one beyond the range as an infinite one. -/
theorem isNaN_pack {a : UnpackedFloat} (h : a.isNaN = false) :
    (Float.ofModel (.pack a)).isNaN = false := by
  show (UnpackedFloat.unpack Format.binary64 (UnpackedFloat.pack Format.binary64 a)).isNaN = false
  refine isNaN_unpack ?_
  cases a with
  | notANumber => cases h
  | infinity s | zero s => exact fun _ => unpackMantissa_packComponents
  | finite s m e hm =>
    rw [UnpackedFloat.pack]
    simp only [biased_eq]
    split
    · exact fun _ => unpackMantissa_packComponents
    · rename_i he
      split
      · rw [unpackExponent_packComponents]
        exact fun h => absurd h (ofNat_exponent_ne (by omega))
      · rw [unpackExponent_packComponents]
        exact fun h => absurd h (by decide)

theorem isNaN_roundWithAccuracy (s : Sign) (m : Nat) (e : Int) (acc : Accuracy) :
    (roundWithAccuracy Format.binary64 s m e acc).isNaN = false := by
  rw [roundWithAccuracy]
  dsimp only
  split <;> rfl

/-- Whether a double is a number that can be divided by. -/
def isDivisor : UnpackedFloat → Bool
  | .finite _ _ _ _ => true
  | _ => false

theorem isNaN_mul {a b : UnpackedFloat} (ha : a.isNaN = false) (hb : isDivisor b = true) :
    (UnpackedFloat.mul Format.binary64 a b).isNaN = false := by
  cases b with
  | finite =>
    cases a with
    | notANumber => cases ha
    | infinity | zero => rfl
    | finite => exact isNaN_roundWithAccuracy _ _ _ _
  | infinity | zero | notANumber => cases hb

theorem isNaN_div {a b : UnpackedFloat} (ha : a.isNaN = false) (hb : isDivisor b = true) :
    (UnpackedFloat.div Format.binary64 a b).isNaN = false := by
  cases b with
  | finite =>
    cases a with
    | notANumber => cases ha
    | infinity | zero => rfl
    | finite => exact isNaN_roundWithAccuracy _ _ _ _
  | infinity | zero | notANumber => cases hb

theorem isNaN_toFloat (n : UInt64) : n.toFloat.isNaN = false := by
  refine isNaN_pack ?_
  show (UnpackedFloat.normalize Format.binary64 (n.toNat : Int) 0 .positive).isNaN = false
  rw [UnpackedFloat.normalize]
  split
  · exact isNaN_roundWithAccuracy _ _ _ _
  · rfl
  · exact isNaN_roundWithAccuracy _ _ _ _

/-- **A decimal is rounded to a number**, or to an infinite one. -/
theorem isNaN_ofScientific (m : Nat) (down : Bool) (e : Nat) :
    (Float.ofScientific m down e).isNaN = false := by
  have hpowers : ∀ x ∈ Float.exactlyRepresentablePowersOfTen,
      isDivisor x.toModel.unpack = true := by
    decide +kernel
  rw [Float.ofScientific]
  split
  · split
    · exact isNaN_pack (isNaN_div (isNaN_toFloat _) (hpowers _ (Array.getElem_mem _)))
    · exact isNaN_pack (isNaN_mul (isNaN_toFloat _) (hpowers _ (Array.getElem_mem _)))
  · refine isNaN_pack ?_
    generalize (if down then Int.negOfNat e else Int.ofNat e) = k
    rw [UnpackedFloat.ofScientific]
    split
    · rfl
    · rename_i hm
      split
      · rfl
      · split
        · rfl
        · have isNaN_finite (m : Nat) (e : Int) (h : 0 < m) :
              (finite .positive m e h).isNaN = false := rfl
          have isDivisor_finite (m : Nat) (e : Int) (h : 0 < m) :
              isDivisor (finite .positive m e h) = true := rfl
          split
          · exact isNaN_mul (isNaN_finite _ _ _) (isDivisor_finite _ _ _)
          · exact isNaN_div (isNaN_finite _ _ _) (isDivisor_finite _ _ _)

theorem isNaN_neg (h : x.isNaN = false) : (-x).isNaN = false := by
  refine isNaN_pack ?_
  have h : x.toModel.unpack.isNaN = false := h
  generalize x.toModel.unpack = a at h ⊢
  cases a with
  | notANumber => cases h
  | infinity | zero | finite => rfl

theorem isNaN_ofInt (n : Int) : (Float.ofInt n).isNaN = false := by
  cases n with
  | ofNat n => exact isNaN_ofScientific n false 0
  | negSucc n => exact isNaN_neg (isNaN_ofScientific (n + 1) false 0)

theorem isNaN_infinity : (1 / 0 : Float).isNaN = false := by with_unfolding_all rfl

theorem isNaN_ofDecimal (digits : Nat) (exponent : Int) :
    (ofDecimal digits exponent).isNaN = false := by
  unfold ofDecimal
  split
  · exact isNaN_ofScientific 0 false 0
  · split
    · exact isNaN_infinity
    · split
      · exact isNaN_ofScientific 0 false 0
      · split <;> exact isNaN_ofScientific _ _ _

end Double

/-! ## Numbers that values stand for -/

namespace Numeral

variable {cs : List Char} {x : Float}

theorem isDigit_toLower {c : Char} (h : c.isDigit = true) : c.toLower.isDigit = true := by
  have hupper : ¬ (c.val ≥ 'A'.val ∧ c.val ≤ 'Z'.val) := by
    simp only [Char.isDigit, Bool.and_eq_true, decide_eq_true_eq] at h
    intro hu
    exact absurd (UInt32.le_trans hu.1 h.2) (by decide)
  rwa [Char.toLower, dif_neg hupper]

theorem isNaN_of_decimal? (h : decimal? cs = some x) : x.isNaN = false := by
  have hread (whole : List Char) (p : List Char × List Char)
      (h : (if (whole.isEmpty && p.1.isEmpty) = true then none
        else (exponent? p.2).map fun e =>
          Double.ofDecimal (valueFrom (valueFrom 0 whole) p.1) (e - (p.1.length : Int))) = some x) :
      x.isNaN = false := by
    obtain ⟨-, h⟩ := Option.ite_none_left_eq_some.mp h
    obtain ⟨e, -, rfl⟩ := Option.map_eq_some_iff.mp h
    exact Double.isNaN_ofDecimal _ _
  exact hread _ _ h

/-- What has a digit in it is not read as not-a-number. -/
theorem isNaN_of_unsignedDouble? (hd : cs.any Char.isDigit = true)
    (h : unsignedDouble? cs = some x) : x.isNaN = false := by
  have hword : cs.map Char.toLower ≠ "nan".toList := by
    obtain ⟨c, hc, hdigit⟩ := List.any_eq_true.mp hd
    have hmem : c.toLower ∈ cs.map Char.toLower := List.mem_map_of_mem hc
    intro hnan
    rw [hnan] at hmem
    have hnone : "nan".toList.any Char.isDigit = false := by decide
    exact absurd (List.any_eq_true.mpr ⟨_, hmem, isDigit_toLower hdigit⟩) (by rw [hnone]; decide)
  unfold unsignedDouble? at h
  dsimp only at h
  split at h
  · obtain rfl := Option.some.inj h
    exact Double.isNaN_infinity
  · exact isNaN_of_decimal? h

theorem isNaN_of_double? (hd : cs.any Char.isDigit = true) (h : double? cs = some x) :
    x.isNaN = false := by
  unfold double? at h
  split at h
  · obtain ⟨y, hy, rfl⟩ := Option.map_eq_some_iff.mp h
    exact Double.isNaN_neg (isNaN_of_unsignedDouble? (by simpa using hd) hy)
  · exact isNaN_of_unsignedDouble? (by simpa using hd) h
  · exact isNaN_of_unsignedDouble? hd h

end Numeral

/-- **A value never stands for not-a-number.** -/
theorem Value.isNaN_of_operand? {v : Value} {a : Operand} (h : v.operand? = some a) :
    a.toFloat.isNaN = false := by
  cases v with
  | null | bool | list | record => cases h
  | number n =>
    unfold operand? at h
    dsimp only at h
    split at h
    · cases h
      exact Double.isNaN_ofInt _
    · cases h
      cases n with
      | int m _ => exact Double.isNaN_ofInt m
      | double x hx => exact Double.isNaN_of_isFinite hx
  | text text =>
    unfold operand? at h
    dsimp only at h
    split at h
    · rename_i hn
      split at h
      · cases h
        exact Double.isNaN_ofInt _
      · obtain ⟨x, hx, rfl⟩ := Option.map_eq_some_iff.mp h
        exact Numeral.isNaN_of_double? (Bool.and_eq_true_iff.mp hn).1 hx
    · cases h

end Playbook
