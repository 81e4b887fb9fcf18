import Mathlib
import Playbook.Value

/-!
# Doubles of integers

Arithmetic leaves the integers of 64 bits for doubles where a result does not fit. Two things must
hold for it to give a number there: a divisor that is not zero stays apart from zero as a double,
and no result is beyond the range of doubles, where there would be no value for it but `null`.

Both are facts on rounding. A significand of at least 53 bits is rounded to one of exactly 53,
whatever is cut off (`full_round`), and so an integer other than zero becomes a double with a full
significand and an exponent far from both ends of the range (`full_ofInt`). Such doubles are not
zero, and a sum, a difference, a product or a quotient of two of them is rounded to a double that
can be stored (`inRange_round`).

How near the rounded number is to the exact one plays no part in this. Of the rounding itself it is
used only that it takes one of the two neighbours (`roundedMantissa_bounds`). Nor are signs kept
track of, but for those in a sum, where one may be the opposite of the other.
-/

namespace Playbook.Double

open Float.Model Float.Model.UnpackedFloat

variable {m f : Nat} {e : Int}

/-! ## Cutting off bits -/

theorem log2_lt_iff {k : Nat} (hk : 0 < k) : m.log2 < k ↔ m < 2 ^ k := by
  by_cases h0 : m = 0
  · rw [h0, Nat.log2_zero]
    exact iff_of_true hk (Nat.two_pow_pos k)
  · exact Nat.log2_lt h0

theorem log2_shiftLeft (h : 0 < m) (k : Nat) : (m <<< k).log2 = m.log2 + k := by
  have hlow := Nat.log2_self_le (Nat.ne_of_gt h)
  have hhigh : m < 2 ^ (m.log2 + 1) := Nat.lt_log2_self
  have hpos : 0 < m * 2 ^ k := Nat.mul_pos h (Nat.two_pow_pos k)
  rw [Nat.shiftLeft_eq, Nat.log2_eq_iff (Nat.ne_of_gt hpos)]
  refine ⟨?_, ?_⟩
  · rw [Nat.pow_add]
    exact Nat.mul_le_mul_right _ hlow
  · rw [Nat.add_right_comm, Nat.pow_add]
    exact Nat.mul_lt_mul_of_pos_right hhigh (Nat.two_pow_pos k)

/-- The leading 53 bits of a number; all of it if it has no more. -/
def leading (m : Nat) : Nat := m / 2 ^ (m.log2 - 52)

theorem leading_lt (m : Nat) : leading m < 2 ^ 53 := by
  refine (Nat.div_lt_iff_lt_mul (Nat.two_pow_pos _)).mpr ?_
  rw [← Nat.pow_add]
  exact Nat.lt_of_lt_of_le Nat.lt_log2_self (Nat.pow_le_pow_right (by decide) (by omega))

theorem le_leading (h : 52 ≤ m.log2) : 2 ^ 52 ≤ leading m := by
  have hm : m ≠ 0 := by
    rintro rfl
    exact absurd h (by decide)
  refine (Nat.le_div_iff_mul_le (Nat.two_pow_pos _)).mpr ?_
  rw [← Nat.pow_add, Nat.add_sub_cancel' h]
  exact Nat.log2_self_le hm

theorem log2_leading (h : 52 ≤ m.log2) : (leading m).log2 = 52 := by
  have hlow := le_leading h
  exact (Nat.log2_eq_iff (by omega)).mpr ⟨hlow, leading_lt m⟩

theorem mantissa_shiftRight (em : ExtendedMantissa) (k : Nat) :
    (em >>> k).mantissa = em.mantissa / 2 ^ k := by
  induction k with
  | zero => exact (Nat.div_one _).symm
  | succ k ih =>
    show (em >>> k).mantissa / 2 = _
    rw [ih, Nat.div_div_eq_div_mul, Nat.pow_succ]

/-- Rounding takes the number below or the one above. -/
theorem roundedMantissa_bounds (em : ExtendedMantissa) :
    em.mantissa ≤ em.roundedMantissa ∧ em.roundedMantissa ≤ em.mantissa + 1 := by
  obtain ⟨m, round, sticky⟩ := em
  cases round <;> cases sticky <;>
    simp only [ExtendedMantissa.roundedMantissa, ExtendedMantissa.accuracy,
      Accuracy.roundToNearestEven] <;> omega

theorem targetExponent_eq (he : -1074 ≤ e) :
    (Format.binary64.targetExponent (totalExponent m e) - e).toNat = m.log2 - 52 := by
  simp only [Format.targetExponent, totalExponent, Format.mantissaBits, Format.minExponent]
  omega

/-- A significand cut to 53 bits and rounded by what was cut off. -/
def rounded (m : Nat) (acc : Accuracy) : Nat :=
  (ExtendedMantissa.ofMantissaAndAccuracy m acc >>> (m.log2 - 52)).roundedMantissa

theorem rounded_bounds (m : Nat) (acc : Accuracy) :
    leading m ≤ rounded m acc ∧ rounded m acc ≤ leading m + 1 := by
  have hstart : (ExtendedMantissa.ofMantissaAndAccuracy m acc).mantissa = m := by
    unfold ExtendedMantissa.ofMantissaAndAccuracy
    split <;> rfl
  have hbounds := roundedMantissa_bounds
    (ExtendedMantissa.ofMantissaAndAccuracy m acc >>> (m.log2 - 52))
  rwa [mantissa_shiftRight, hstart] at hbounds

/-- A shift to 53 bits keeps the leading ones. -/
theorem shiftToTargetExponent_eq (m : Nat) (acc : Accuracy) (he : -1074 ≤ e) :
    shiftToTargetExponent Format.binary64 m e acc
      = (ExtendedMantissa.ofMantissaAndAccuracy m acc >>> (m.log2 - 52),
          e + (m.log2 - 52 : Nat)) := by
  rw [shiftToTargetExponent, shiftToExponent, targetExponent_eq he]

/-- **What rounding does**: it takes a neighbour of the leading 53 bits, and where that is one bit
longer, it shifts once more. -/
theorem roundWithAccuracy_eq (s : Sign) (m : Nat) (acc : Accuracy) (he : -1074 ≤ e) :
    roundWithAccuracy Format.binary64 s m e acc
      = if h : leading (rounded m acc) = 0 then .zero s
        else .finite s (leading (rounded m acc))
          (e + (m.log2 - 52 : Nat) + ((rounded m acc).log2 - 52 : Nat)) (Nat.pos_of_ne_zero h) := by
  have hexact (n : Nat) :
      (ExtendedMantissa.ofMantissaAndAccuracy n .exact >>> (n.log2 - 52)).mantissa = leading n :=
    mantissa_shiftRight _ _
  have hround : (ExtendedMantissa.ofMantissaAndAccuracy m acc >>> (m.log2 - 52)).roundedMantissa
      = rounded m acc := rfl
  have hagain := shiftToTargetExponent_eq (rounded m acc) .exact
    (e := e + (m.log2 - 52 : Nat)) (by omega)
  rw [roundWithAccuracy]
  simp only [shiftToTargetExponent_eq m acc he, hround, hagain, hexact]

/-! ## Full significands -/

/-- **A double with a full significand** of 53 bits and an exponent between two bounds. -/
inductive Full (low high : Int) : UnpackedFloat → Prop
  | mk (s : Sign) (f : Nat) (e : Int) (hpos : 0 < f) (hf : f.log2 = 52) (hlow : low ≤ e)
    (hhigh : e ≤ high) : Full low high (.finite s f e hpos)

/-- **A double within the range**: zero, or one whose exponent can be stored. -/
inductive InRange : UnpackedFloat → Prop
  | zero (s : Sign) : InRange (.zero s)
  | finite (s : Sign) {f : Nat} {e : Int} (hpos : 0 < f) (he : e ≤ 971) :
    InRange (.finite s f e hpos)

variable {low high : Int} {x y : UnpackedFloat}

theorem Full.mono {low' high' : Int} (h : Full low high x) (hl : low' ≤ low) (hh : high ≤ high') :
    Full low' high' x := by
  obtain ⟨s, f, e, hpos, hf, hlow, hhigh⟩ := h
  exact .mk s f e hpos hf (by omega) (by omega)

theorem Full.neg (h : Full low high x) : Full low high x.neg := by
  obtain ⟨s, f, e, hpos, hf, hlow, hhigh⟩ := h
  exact .mk (-s) f e hpos hf hlow hhigh

/-- **A number of at least 53 bits keeps a full significand.** -/
theorem full_round (s : Sign) (acc : Accuracy) (hm : 52 ≤ m.log2) (he : -1074 ≤ e) :
    Full e (e + m.log2 - 51) (roundWithAccuracy Format.binary64 s m e acc) := by
  obtain ⟨hlow, hhigh⟩ := rounded_bounds m acc
  have heq := roundWithAccuracy_eq s m acc he
  generalize rounded m acc = r at hlow hhigh heq
  have hlead := leading_lt m
  have hlead' := le_leading hm
  have h0 : r ≠ 0 := by omega
  have hr : 52 ≤ r.log2 ∧ r.log2 < 54 :=
    ⟨(Nat.le_log2 h0).mpr (by omega), (Nat.log2_lt h0).mpr (by omega)⟩
  have hne : leading r ≠ 0 := by
    have := le_leading hr.1
    omega
  rw [heq, dif_neg hne]
  exact .mk s _ _ _ (log2_leading hr.1) (by omega) (by omega)

/-- Whatever is rounded stays near its own size. -/
theorem inRange_round (s : Sign) (acc : Accuracy) (he : -1074 ≤ e) (hm : e + m.log2 ≤ 970) :
    InRange (roundWithAccuracy Format.binary64 s m e acc) := by
  obtain ⟨-, hr⟩ := rounded_bounds m acc
  rw [roundWithAccuracy_eq s m acc he]
  generalize rounded m acc = r at hr ⊢
  split
  · exact .zero s
  · have hlead := leading_lt m
    -- Rounding up can make it one bit longer.
    have hlog : r.log2 < 54 := (log2_lt_iff (by decide)).mpr (by omega)
    refine .finite s _ ?_
    omega

/-! ## Doubles as bits -/

theorem isFinite_unpack {b : BitVec Format.binary64.numBits} (h : unpackExponent b ≠ -1#_) :
    (UnpackedFloat.unpack Format.binary64 b).isFinite = true := by
  rw [UnpackedFloat.unpack]
  dsimp only
  rw [if_neg h]
  split
  · split <;> rfl
  · rfl

/-- The exponent of a finite double is not the one that all bits set stand for. -/
theorem ofNat_exponent_ne {k : Nat} (hk : k < 2047) : BitVec.ofNat 11 k ≠ -1#_ := by
  intro h
  have hk' := congrArg BitVec.toNat h
  rw [BitVec.toNat_ofNat, Nat.mod_eq_of_lt (by omega)] at hk'
  have : (-1#11).toNat = 2047 := by decide
  omega

theorem biased_eq (e : Int) : e + Format.binary64.exponentBias + (52 : Nat) = e + 1075 := by
  show e + 1023 + 52 = e + 1075
  omega

theorem not_overflows (h : e ≤ 971) : ¬ 2 ^ 11 ≤ (e + 1075).toNat + 1 := by
  omega

/-- **A double within the range is finite** when it is stored. -/
theorem isFinite_pack {x : UnpackedFloat} (h : InRange x) :
    (Float.ofModel (.pack x)).isFinite = true := by
  show (UnpackedFloat.unpack Format.binary64 (UnpackedFloat.pack Format.binary64 x)).isFinite = true
  refine isFinite_unpack ?_
  obtain s | ⟨s, hpos, he⟩ := h
  · show unpackExponent (packComponents Format.binary64 s 0 0) ≠ _
    rw [unpackExponent_packComponents]
    decide
  · rw [UnpackedFloat.pack]
    simp only [biased_eq, if_neg (not_overflows he)]
    -- A significand that is not full has zero for its exponent.
    split
    · rw [unpackExponent_packComponents]
      exact ofNat_exponent_ne (by omega)
    · rw [unpackExponent_packComponents]
      decide

/-- The leading bit of a full significand is left out and put back. -/
theorem toNat_one_append (hf : f.log2 = 52) : (1#1 ++ BitVec.ofNat 52 f).toNat = f := by
  have hne : f ≠ 0 := by
    rintro rfl
    cases hf
  have hlow : 2 ^ 52 ≤ f := hf ▸ Nat.log2_self_le hne
  have hhigh : f < 2 ^ 53 := (log2_lt_iff (by decide)).mp (by omega)
  rw [BitVec.toNat_append, BitVec.toNat_ofNat, BitVec.toNat_ofNat,
    ← Nat.shiftLeft_add_eq_or_of_lt (Nat.mod_lt _ (Nat.two_pow_pos _)), Nat.shiftLeft_eq]
  omega

theorem pack_finite (s : Sign) (hpos : 0 < f) (hf : f.log2 = 52) (hhigh : e ≤ 971) :
    UnpackedFloat.pack Format.binary64 (.finite s f e hpos)
      = packComponents Format.binary64 s (BitVec.ofNat _ (e + 1075).toNat) (BitVec.ofNat _ f) := by
  have hbits : f.log2 + 1 = Format.binary64.mantissaBits := by rw [hf]; rfl
  rw [UnpackedFloat.pack]
  simp only [biased_eq, if_neg (not_overflows hhigh), if_pos hbits]

theorem unpackSign_packComponents {spec : Format} {s : Sign} {exponent mantissa} :
    Sign.ofBitVec (unpackSign (packComponents spec s exponent mantissa)) = s := by
  have h : unpackSign (packComponents spec s exponent mantissa) = s.toBitVec := by
    ext i hi
    obtain rfl : i = 0 := by omega
    simp [unpackSign, packComponents, BitVec.getLsbD_append, BitVec.getElem_append]
  rw [h]
  cases s <;> rfl

/-- **The bits hold all of a double** with a full significand. -/
theorem unpack_pack (s : Sign) (hpos : 0 < f) (hf : f.log2 = 52) (hlow : -1074 ≤ e)
    (hhigh : e ≤ 971) :
    (Float.Model.pack (.finite s f e hpos)).unpack = .finite s f e hpos := by
  have hk : (e + 1075).toNat < 2047 := by omega
  have hne : BitVec.ofNat 11 (e + 1075).toNat ≠ 0#11 := by
    intro h0
    have h0 := congrArg BitVec.toNat h0
    rw [BitVec.toNat_ofNat, Nat.mod_eq_of_lt (by omega), BitVec.toNat_ofNat] at h0
    omega
  have he : ((BitVec.ofNat 11 (e + 1075).toNat).toNat : Int)
      - (Format.binary64.exponentBias + Format.binary64.mantissaBitsWithoutImplicit) = e := by
    show _ - ((1023 : Nat) + (52 : Nat) : Int) = e
    rw [BitVec.toNat_ofNat, Nat.mod_eq_of_lt (by omega)]
    omega
  show UnpackedFloat.unpack Format.binary64 (UnpackedFloat.pack Format.binary64 _) = _
  rw [pack_finite s hpos hf hhigh, UnpackedFloat.unpack]
  simp only [unpackExponent_packComponents, unpackMantissa_packComponents, he,
    unpackSign_packComponents, if_neg (ofNat_exponent_ne hk), if_neg hne, toNat_one_append hf]

theorem full_unpack_pack (h : Full low high x) (hl : -1075 < low) (hh : high ≤ 971) :
    Full low high (Float.Model.pack x).unpack := by
  obtain ⟨s, f, e, hpos, hf, hlow, hhigh⟩ := h
  rw [unpack_pack s hpos hf (by omega) (by omega)]
  exact .mk s f e hpos hf hlow hhigh

/-! ## Integers as doubles -/

/-- Before it is rounded, a number is written with as many as 53 bits, if the exponent can go down
so far. -/
theorem round_eq (s : Sign) (m : Nat) (e : Int) :
    UnpackedFloat.round Format.binary64 s m e
      = roundWithAccuracy Format.binary64 s (m <<< min (52 - m.log2) (e + 1074).toNat)
          (e - (min (52 - m.log2) (e + 1074).toNat : Nat)) .exact := by
  have hk : (e - Format.binary64.targetExponent (totalExponent m e)).toNat
      = min (52 - m.log2) (e + 1074).toNat := by
    simp only [Format.targetExponent, totalExponent, Format.mantissaBits, Format.minExponent]
    omega
  rw [UnpackedFloat.round, decreaseExponent, hk]

/-- One as a double. -/
theorem unpack_one :
    (Float.ofBits 0x3FF0000000000000).toModel.unpack
      = .finite .positive (2 ^ 52) (-52) (by decide) := by
  with_unfolding_all rfl

/-- A product by one is rounded again. -/
theorem Full.mul_one (h : Full (-52) 1 x) :
    Full (-104) 12
      (mul Format.binary64 x (Float.ofBits 0x3FF0000000000000).toModel.unpack) := by
  rw [unpack_one]
  obtain ⟨s, f, e, hpos, hf, hlow, hhigh⟩ := h
  have hlen := log2_shiftLeft hpos 52
  rw [Nat.shiftLeft_eq] at hlen
  exact (full_round _ .exact (by omega) (by omega)).mono (by omega) (by omega)

/-- A number of 64 bits is rounded as it is. -/
theorem toFloat_eq {n : Nat} (h0 : 0 < n) (hn : n < 2 ^ 64) :
    n.toUInt64.toFloat = .ofModel (.pack (UnpackedFloat.round Format.binary64 .positive n 0)) := by
  have hword : n.toUInt64.toNat = n := Nat.mod_eq_of_lt hn
  have hsign : compare (n : Int) 0 = .gt := Int.compare_eq_gt.mpr (by omega)
  have hround : UnpackedFloat.normalize Format.binary64 (n.toUInt64.toNat : Int) 0 .positive
      = UnpackedFloat.round Format.binary64 .positive n 0 := by
    rw [hword, UnpackedFloat.normalize, hsign]
    rfl
  show Float.ofModel (.pack (UnpackedFloat.normalize Format.binary64 (n.toUInt64.toNat : Int) 0
    .positive)) = _
  rw [hround]

/-- A number below `2 ^ 53` is a double times a power of ten, which is one here. -/
theorem ofNat_of_lt {n : Nat} (hn : n < 2 ^ 53) :
    Float.ofNat n = n.toUInt64.toFloat * Float.ofBits 0x3FF0000000000000 := by
  show Float.ofScientific n false 0 = _
  rw [Float.ofScientific, dif_pos ⟨hn, by decide⟩]
  rfl

/-- Any other number is shifted before it is rounded. -/
theorem ofNat_of_le {n : Nat} (hn : 2 ^ 53 ≤ n) :
    Float.ofNat n = .ofModel (.pack
      (roundWithAccuracy Format.binary64 .positive (n <<< 53) (-53) .exact)) := by
  have heq : Float.ofNat n = .ofModel (.ofScientific n 0) := by
    show Float.ofScientific n false 0 = _
    rw [Float.ofScientific, dif_neg fun h => absurd h.1 (Nat.not_lt.mpr hn)]
    rfl
  have hbits : Format.binary64.mantissaBits = 53 := rfl
  have hten : 10 ^ (0 : Int).toNat = 1 := rfl
  have hlow : ¬ (0 : Int) < -((2 : Int) ^ Format.binary64.exponentBits + n.log2) := by
    have : (2 : Int) ^ Format.binary64.exponentBits = 2048 := by decide
    omega
  rw [heq, Float.Model.ofScientific, UnpackedFloat.ofScientific, dif_neg (by omega),
    if_neg (by decide), if_neg hlow, if_pos (by decide), UnpackedFloat.mul]
  simp only [hbits, hten, Nat.mul_one]
  rfl

/-- A short number is written with 53 bits. -/
theorem full_toFloat {n : Nat} (h0 : 0 < n) (hn : n < 2 ^ 53) :
    Full (-52) 1 n.toUInt64.toFloat.toModel.unpack := by
  have hlog : n.log2 < 53 := (log2_lt_iff (by decide)).mpr hn
  have hlen := log2_shiftLeft h0 (min (52 - n.log2) ((0 : Int) + 1074).toNat)
  rw [toFloat_eq h0 (by omega)]
  refine full_unpack_pack ?_ (by decide) (by decide)
  rw [round_eq]
  exact (full_round _ .exact (by omega) (by omega)).mono (by omega) (by omega)

/-- **An integer other than zero becomes a double with a full significand.** A long one is shifted
before it is rounded; a short one has its 53 bits and is multiplied by one. -/
theorem full_ofNat {n : Nat} (h0 : 0 < n) (hn : n < 2 ^ 64) :
    Full (-104) 12 (Float.ofNat n).toModel.unpack := by
  obtain hsmall | hlarge := Nat.lt_or_ge n (2 ^ 53)
  · rw [ofNat_of_lt hsmall]
    exact full_unpack_pack (full_toFloat h0 hsmall).mul_one (by decide) (by decide)
  · have hlog : n.log2 < 64 := (log2_lt_iff (by decide)).mpr hn
    have hlen := log2_shiftLeft h0 53
    rw [ofNat_of_le hlarge]
    refine full_unpack_pack ?_ (by decide) (by decide)
    exact (full_round _ .exact (by omega) (by omega)).mono (by omega) (by omega)

theorem full_ofInt {n : Int} (h0 : n ≠ 0) (hn : Word.FitsSigned n) :
    Full (-104) 12 (Float.ofInt n).toModel.unpack := by
  cases n with
  | ofNat n =>
    have hcast := Int.ofNat_eq_natCast n
    exact full_ofNat (by omega) (by omega)
  | negSucc n =>
    have h : Full (-104) 12 (Float.ofNat (n + 1)).toModel.unpack :=
      full_ofNat (by omega) (by omega)
    exact full_unpack_pack h.neg (by decide) (by decide)

theorem Full.isFinite (h : Full low high x) : x.isFinite = true := by
  obtain ⟨s, f, e, hpos⟩ := h
  rfl

/-- **An integer of 64 bits is finite as a double.** -/
theorem isFinite_ofInt {n : Int} (hn : Word.Fits n) : (Float.ofInt n).isFinite = true := by
  show (Float.ofInt n).toModel.unpack.isFinite = true
  by_cases h0 : n = 0
  · rw [h0]
    with_unfolding_all rfl
  · cases n with
    | ofNat n =>
      have hcast := Int.ofNat_eq_natCast n
      exact (full_ofNat (by omega) (by omega)).isFinite
    | negSucc n => exact (full_ofInt h0 (by omega)).isFinite

/-- **An integer other than zero is not zero as a double.** -/
theorem ofInt_beq_zero {n : Int} (h0 : n ≠ 0) (hn : Word.FitsSigned n) :
    (Float.ofInt n == 0) = false := by
  have hzero : (0 : Float).toModel.unpack = .zero .positive := by with_unfolding_all rfl
  show UnpackedFloat.beq (Float.ofInt n).toModel.unpack (0 : Float).toModel.unpack = false
  rw [hzero]
  have hfull := full_ofInt h0 hn
  generalize (Float.ofInt n).toModel.unpack = x at hfull
  obtain ⟨s⟩ := hfull
  cases s <;> rfl

/-! ## Results within the range -/

/-- What an integer is as a double: zero, or a full significand in the middle of the range. -/
inductive Middle : UnpackedFloat → Prop
  | zero (s : Sign) : Middle (.zero s)
  | full {x : UnpackedFloat} (h : Full (-104) 12 x) : Middle x

theorem middle_ofInt {n : Int} (hn : Word.FitsSigned n) :
    Middle (Float.ofInt n).toModel.unpack := by
  by_cases h0 : n = 0
  · have hzero : (Float.ofInt 0).toModel.unpack = .zero .positive := by with_unfolding_all rfl
    rw [h0, hzero]
    exact .zero _
  · exact .full (full_ofInt h0 hn)

theorem inRange_normalize {M : Int} (he : -104 ≤ e) (he' : e ≤ 12) (hM : M.natAbs < 2 ^ 170) :
    InRange (UnpackedFloat.normalize Format.binary64 M e .positive) := by
  have hround (s : Sign) {m : Nat} (h0 : 0 < m) (hm : m < 2 ^ 170) :
      InRange (UnpackedFloat.round Format.binary64 s m e) := by
    have hlog : m.log2 < 170 := (log2_lt_iff (by decide)).mpr hm
    have hlen := log2_shiftLeft h0 (min (52 - m.log2) (e + 1074).toNat)
    rw [round_eq]
    exact inRange_round _ .exact (by omega) (by omega)
  rw [UnpackedFloat.normalize]
  split
  · rename_i h
    rw [Int.compare_eq_lt] at h
    exact hround _ (by omega) (by omega)
  · exact .zero _
  · rename_i h
    rw [Int.compare_eq_gt] at h
    exact hround _ (by omega) (by omega)

theorem natAbs_apply (s : Sign) (n : Nat) : (s.apply n).natAbs = n := by
  cases s
  · exact (Int.natAbs_neg _).trans (Int.natAbs_natCast n)
  · exact Int.natAbs_natCast n

/-- A sum is rounded after both significands are written with the same exponent. -/
theorem Middle.add (hx : Middle x) (hy : Middle y) :
    InRange (UnpackedFloat.add Format.binary64 x y) := by
  cases hx with
  | zero s =>
    cases hy with
    | zero t =>
      rw [UnpackedFloat.add]
      split <;> exact .zero _
    | full hy =>
      obtain ⟨t, f, e, hpos, hf, hlow, hhigh⟩ := hy
      exact .finite t hpos (by omega)
  | full hx =>
    obtain ⟨s, f, e, hpos, hf, hlow, hhigh⟩ := hx
    cases hy with
    | zero t => exact .finite s hpos (by omega)
    | full hy =>
      obtain ⟨t, f', e', hpos', hf', hlow', hhigh'⟩ := hy
      have hl := log2_shiftLeft hpos (e - min e e').toNat
      have hr := log2_shiftLeft hpos' (e' - min e e').toNat
      have hltl : f <<< (e - min e e').toNat < 2 ^ 169 := (log2_lt_iff (by decide)).mp (by omega)
      have hltr : f' <<< (e' - min e e').toNat < 2 ^ 169 := (log2_lt_iff (by decide)).mp (by omega)
      refine inRange_normalize (by omega) (by omega)
        (Nat.lt_of_le_of_lt (Int.natAbs_add_le _ _) ?_)
      rw [natAbs_apply, natAbs_apply]
      exact Nat.add_lt_add hltl hltr

theorem Middle.neg (h : Middle x) : Middle x.neg := by
  cases h with
  | zero s => exact .zero (-s)
  | full h => exact .full h.neg

theorem sub_eq_add_neg (x y : UnpackedFloat) :
    UnpackedFloat.sub Format.binary64 x y = UnpackedFloat.add Format.binary64 x y.neg := by
  have hsign (s : Sign) (n : Int) : (-s).apply n = -s.apply n := by
    cases s
    · exact (Int.neg_neg n).symm
    · rfl
  cases x <;> cases y <;> try rfl
  rw [UnpackedFloat.sub, UnpackedFloat.neg, UnpackedFloat.add]
  dsimp only
  rw [hsign, Int.sub_eq_add_neg]

theorem Middle.sub (hx : Middle x) (hy : Middle y) :
    InRange (UnpackedFloat.sub Format.binary64 x y) := by
  rw [sub_eq_add_neg]
  exact hx.add hy.neg

theorem Middle.mul (hx : Middle x) (hy : Middle y) :
    InRange (UnpackedFloat.mul Format.binary64 x y) := by
  cases hx with
  | zero s =>
    cases hy with
    | zero t => exact .zero _
    | full hy =>
      obtain ⟨t⟩ := hy
      exact .zero _
  | full hx =>
    obtain ⟨s, f, e, hpos, hf, hlow, hhigh⟩ := hx
    cases hy with
    | zero t => exact .zero _
    | full hy =>
      obtain ⟨t, f', e', hpos', hf', hlow', hhigh'⟩ := hy
      have hlt : f < 2 ^ 53 := (log2_lt_iff (by decide)).mp (by omega)
      have hlt' : f' < 2 ^ 53 := (log2_lt_iff (by decide)).mp (by omega)
      have hprod : f * f' < 2 ^ 53 * 2 ^ 53 := Nat.mul_lt_mul'' hlt hlt'
      have hlog : (f * f').log2 < 106 := (log2_lt_iff (by decide)).mpr (by omega)
      exact inRange_round _ .exact (by omega) (by omega)

/-- A quotient has 53 bits more than the difference of the exponents says. -/
theorem Middle.div (hx : Middle x) (hy : Full (-104) 12 y) :
    InRange (UnpackedFloat.div Format.binary64 x y) := by
  obtain ⟨t, f', e', hpos', hf', hlow', hhigh'⟩ := hy
  cases hx with
  | zero s => exact .zero _
  | full hx =>
    obtain ⟨s, f, e, hpos, hf, hlow, hhigh⟩ := hx
    have htarget : Format.binary64.targetExponent (totalExponent f e - totalExponent f' e')
        = e - e' - 53 := by
      simp only [Format.targetExponent, totalExponent, Format.mantissaBits, Format.minExponent]
      omega
    have hshift : (e - e' - (e - e' - 53)).toNat = 53 := by omega
    have hmin : min (e - e') (e - e' - 53) = e - e' - 53 := by omega
    have hcore : divCore Format.binary64 f e f' e'
        = (f <<< 53 / f', e - e' - 53, accuracyOfFraction (f <<< 53 % f') f') := by
      simp only [divCore, htarget, hmin, hshift]
    rw [UnpackedFloat.div, hcore]
    have hlen := log2_shiftLeft hpos 53
    have hlt : f <<< 53 < 2 ^ 106 := (log2_lt_iff (by decide)).mp (by omega)
    have hlog : (f <<< 53 / f').log2 < 106 :=
      (log2_lt_iff (by decide)).mpr (Nat.lt_of_le_of_lt (Nat.div_le_self _ _) hlt)
    exact inRange_round _ _ (by omega) (by omega)

/-! ## The four operations -/

variable {a b : Int}

/-- **No operation on integers leaves the range of doubles.** -/
theorem isFinite_add_ofInt (ha : Word.FitsSigned a) (hb : Word.FitsSigned b) :
    (Float.ofInt a + Float.ofInt b).isFinite = true :=
  isFinite_pack ((middle_ofInt ha).add (middle_ofInt hb))

theorem isFinite_sub_ofInt (ha : Word.FitsSigned a) (hb : Word.FitsSigned b) :
    (Float.ofInt a - Float.ofInt b).isFinite = true :=
  isFinite_pack ((middle_ofInt ha).sub (middle_ofInt hb))

theorem isFinite_mul_ofInt (ha : Word.FitsSigned a) (hb : Word.FitsSigned b) :
    (Float.ofInt a * Float.ofInt b).isFinite = true :=
  isFinite_pack ((middle_ofInt ha).mul (middle_ofInt hb))

theorem isFinite_div_ofInt (ha : Word.FitsSigned a) (hb : Word.FitsSigned b) (h0 : b ≠ 0) :
    (Float.ofInt a / Float.ofInt b).isFinite = true :=
  isFinite_pack ((middle_ofInt ha).div (full_ofInt h0 hb))

end Playbook.Double
