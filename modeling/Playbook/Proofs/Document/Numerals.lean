import Mathlib.Algebra.Group.Nat.Defs
import Mathlib.Data.List.TakeDrop
import Playbook.Document.Json
import Playbook.Proofs.Expr.Printing
import Playbook.Value.Text

/-!
# Numerals in JSON

A numeral is split off the text that it is written in front of, whatever the text is, unless it
begins with something that a numeral goes on with (`Json.numeral?_written`). What is written of a
number is a sign and such a numeral: of an integer its digits, and of a double the layout of its
shortest digits (`Json.exists_numeral`).

The numeral of an integer stands for that integer (`Json.value?_toDigits`). Nothing of the kind
holds for doubles. The shortest digits are chosen so that the double is the nearest one to them, but
JSON does not read the nearest one: it rounds the digits first and scales them afterwards.
Expressions do; they read a numeral as the decimal that it is (`Json.decimal?_written`).
-/

namespace Playbook

namespace Json

/-- A numeral as it is written. -/
def Numeral.written (n : Numeral) : List Char :=
  n.whole
    ++ (match n.fraction with
      | none => []
      | some ds => '.' :: ds)
    ++ (match n.exponent with
      | none => []
      | some (down, ds) => 'e' :: (if down then '-' else '+') :: ds)

/-- Some digits, one at least. -/
def AreDigits (ds : List Char) : Prop :=
  ds ≠ [] ∧ ∀ c ∈ ds, c.isDigit = true

/-- **A numeral is well formed**: no digits are missing, and no zero stands in front of others. -/
structure Numeral.WellFormed (n : Numeral) : Prop where
  whole : AreDigits n.whole
  noZero : 1 < n.whole.length → n.whole.head? ≠ some '0'
  fraction : ∀ ds, n.fraction = some ds → AreDigits ds
  exponent : ∀ down ds, n.exponent = some (down, ds) → AreDigits ds

/-- A text that no numeral goes on with. -/
def EndsNumeral (rest : List Char) : Prop :=
  ∀ c us, rest = c :: us → c.isDigit = false ∧ c ≠ '.' ∧ c ≠ 'e' ∧ c ≠ 'E'

variable {n : Numeral} {ds rest : List Char}

theorem areDigits_zero : AreDigits ['0'] :=
  ⟨List.cons_ne_nil _ _, List.forall_mem_singleton.mpr rfl⟩

theorem span_digits (hd : AreDigits ds) (hr : ∀ c us, rest = c :: us → c.isDigit = false) :
    (ds ++ rest).span Char.isDigit = (ds, rest) := by
  rw [List.span_eq_takeWhile_dropWhile, Lexer.takeWhile_append_of_head hr,
    Lexer.dropWhile_append_of_head hr, List.takeWhile_eq_self_iff.mpr hd.2,
    List.dropWhile_eq_nil_iff.mpr hd.2, List.nil_append]

/-! ## The parts of a numeral -/

/-- Splits a fraction off a text, if there is one. -/
def fractionPart (cs : List Char) : Option (Option (List Char) × List Char) :=
  match cs with
  | '.' :: cs =>
    let (digits, rest) := cs.span Char.isDigit
    if digits.isEmpty then none else some (some digits, rest)
  | _ => some (none, cs)

/-- A numeral with the given parts and the exponent that a text begins with. -/
def withExponent (whole : List Char) (fraction : Option (List Char)) (cs : List Char) :
    Option (Numeral × List Char) :=
  let exponentOf (negative : Bool) (cs : List Char) : Option (Numeral × List Char) :=
    let (digits, rest) := cs.span Char.isDigit
    if digits.isEmpty then none else some (⟨whole, fraction, some (negative, digits)⟩, rest)
  match cs with
  | 'e' :: '-' :: cs => exponentOf true cs
  | 'E' :: '-' :: cs => exponentOf true cs
  | 'e' :: '+' :: cs => exponentOf false cs
  | 'E' :: '+' :: cs => exponentOf false cs
  | 'e' :: cs => exponentOf false cs
  | 'E' :: cs => exponentOf false cs
  | _ => some (⟨whole, fraction, none⟩, cs)

/-- A numeral is made up of its parts. -/
theorem numeral?_eq {whole cs : List Char} (hs : cs.span Char.isDigit = (whole, rest))
    (hwhole : whole ≠ []) (hzero : 1 < whole.length → whole.head? ≠ some '0') :
    numeral? cs = match fractionPart rest with
      | none => none
      | some (fraction, behind) => withExponent whole fraction behind := by
  have hstart :
      ¬ (whole.isEmpty || decide (whole.length > 1) && whole.head? == some '0') = true := by
    rw [Bool.or_eq_true, Bool.and_eq_true, decide_eq_true_eq, List.isEmpty_iff, beq_iff_eq]
    exact not_or.mpr ⟨hwhole, fun h => hzero h.1 h.2⟩
  unfold numeral?
  rw [hs]
  dsimp only
  rw [if_neg hstart]
  rfl

theorem fractionPart_none (h : ∀ us, rest ≠ '.' :: us) : fractionPart rest = some (none, rest) := by
  unfold fractionPart
  split
  · exact (h _ rfl).elim
  · rfl

theorem fractionPart_some (hd : AreDigits ds)
    (hr : ∀ c us, rest = c :: us → c.isDigit = false) :
    fractionPart ('.' :: (ds ++ rest)) = some (some ds, rest) := by
  have hempty : ¬ ds.isEmpty = true := fun h => hd.1 (List.isEmpty_iff.mp h)
  rw [fractionPart, span_digits hd hr]
  exact if_neg hempty

theorem withExponent_none {whole : List Char} {fraction : Option (List Char)}
    (hr : EndsNumeral rest) :
    withExponent whole fraction rest = some (⟨whole, fraction, none⟩, rest) := by
  unfold withExponent
  dsimp only
  split
  · exact ((hr _ _ rfl).2.2.1 rfl).elim
  · exact ((hr _ _ rfl).2.2.2 rfl).elim
  · exact ((hr _ _ rfl).2.2.1 rfl).elim
  · exact ((hr _ _ rfl).2.2.2 rfl).elim
  · exact ((hr _ _ rfl).2.2.1 rfl).elim
  · exact ((hr _ _ rfl).2.2.2 rfl).elim
  · rfl

theorem withExponent_some {whole : List Char} {fraction : Option (List Char)} {down : Bool}
    (hd : AreDigits ds) (hr : EndsNumeral rest) :
    withExponent whole fraction ('e' :: (if down then '-' else '+') :: (ds ++ rest))
      = some (⟨whole, fraction, some (down, ds)⟩, rest) := by
  have hempty : ¬ ds.isEmpty = true := fun h => hd.1 (List.isEmpty_iff.mp h)
  have hspan : (ds ++ rest).span Char.isDigit = (ds, rest) :=
    span_digits hd fun c us hc => (hr c us hc).1
  have hread : withExponent whole fraction ('e' :: (if down then '-' else '+') :: (ds ++ rest))
      = match (ds ++ rest).span Char.isDigit with
        | (digits, r) =>
          if digits.isEmpty then none else some (⟨whole, fraction, some (down, digits)⟩, r) := by
    cases down <;> rfl
  rw [hread, hspan]
  exact if_neg hempty

/-- **A numeral is read back from its text**, whatever stands behind it but does not go on with
it. -/
theorem numeral?_written (h : n.WellFormed) (hr : EndsNumeral rest) :
    numeral? (n.written ++ rest) = some (n, rest) := by
  obtain ⟨whole, fraction, exponent⟩ := n
  obtain ⟨hwhole, hzero, hfraction, hexponent⟩ := h
  dsimp only at hwhole hzero hfraction hexponent
  -- What stands behind the fraction goes on neither with digits nor with a point.
  obtain ⟨behind, hbehind, hend, hread⟩ : ∃ behind,
      Numeral.written ⟨[], none, exponent⟩ ++ rest = behind
      ∧ (∀ c us, behind = c :: us → c.isDigit = false ∧ c ≠ '.')
      ∧ ∀ fraction, withExponent whole fraction behind
        = some (⟨whole, fraction, exponent⟩, rest) := by
    cases exponent with
    | none =>
      exact ⟨rest, rfl, fun c us hc => ⟨(hr c us hc).1, (hr c us hc).2.1⟩,
        fun _ => withExponent_none hr⟩
    | some e =>
      obtain ⟨down, es⟩ := e
      refine ⟨_, rfl, ?_, fun _ => withExponent_some (hexponent down es rfl) hr⟩
      rintro _ _ ⟨⟩
      decide
  cases fraction with
  | none =>
    have htext : Numeral.written ⟨whole, none, exponent⟩ ++ rest = whole ++ behind := by
      rw [← hbehind]
      simp [Numeral.written]
    rw [htext, numeral?_eq (span_digits hwhole fun c us hc => (hend c us hc).1) hwhole.1 hzero,
      fractionPart_none fun us hus => (hend _ us hus).2 rfl]
    exact hread none
  | some ds =>
    have htext : Numeral.written ⟨whole, some ds, exponent⟩ ++ rest
        = whole ++ '.' :: (ds ++ behind) := by
      rw [← hbehind]
      simp [Numeral.written]
    have hpoint : ∀ c us, '.' :: (ds ++ behind) = c :: us → c.isDigit = false := by
      rintro _ _ ⟨⟩
      rfl
    rw [htext, numeral?_eq (span_digits hwhole hpoint) hwhole.1 hzero,
      fractionPart_some (hfraction ds rfl) fun c us hc => (hend c us hc).1]
    exact hread (some ds)

/-! ## Digits of numbers -/

theorem areDigits_toDigits (m : Nat) : AreDigits (Nat.toDigits 10 m) :=
  ⟨Nat.toDigits_ne_nil, List.all_eq_true.mp (Lexer.all_isDigit_toDigits m)⟩

theorem areDigits_append {us : List Char} (hd : AreDigits ds) (hu : ∀ c ∈ us, c.isDigit = true) :
    AreDigits (ds ++ us) :=
  ⟨fun h => hd.1 (List.append_eq_nil_iff.mp h).1, List.forall_mem_append.mpr ⟨hd.2, hu⟩⟩

/-- Only the digits of zero begin with a zero. -/
theorem head?_toDigits {m : Nat} (hm : m ≠ 0) : (Nat.toDigits 10 m).head? ≠ some '0' := by
  induction m using Nat.strongRecOn with
  | ind m ih =>
    by_cases hlt : m < 10
    · have hall : ∀ k, k < 10 → k ≠ 0 → some k.digitChar ≠ some '0' := by decide
      rw [Nat.toDigits_of_lt_base hlt]
      exact hall m hlt hm
    · rw [Nat.toDigits_of_base_le (by decide) (by omega), List.head?_append]
      intro h
      obtain h | ⟨hnone, -⟩ := Option.or_eq_some_iff.mp h
      · exact ih (m / 10) (by omega) (by omega) h
      · exact Nat.toDigits_ne_nil (List.head?_eq_none_iff.mp hnone)

theorem le_valueFrom (acc : Nat) (ds : List Char) : acc ≤ Playbook.Numeral.valueFrom acc ds := by
  induction ds generalizing acc with
  | nil => exact Nat.le_refl acc
  | cons d ds ih => exact Nat.le_trans (by omega) (ih (acc * 10 + (d.toNat - 48)))

/-- The significand takes in all digits of a number that 64 bits hold. -/
theorem significand_eq {acc : Nat} (h : Playbook.Numeral.valueFrom acc ds < twoTo 64) :
    significand acc ds = (Playbook.Numeral.valueFrom acc ds, 0) := by
  induction ds generalizing acc with
  | nil => rfl
  | cons d ds ih =>
    have hnext : acc * 10 + (d.toNat - 48) < twoTo 64 := Nat.lt_of_le_of_lt (le_valueFrom _ ds) h
    rw [significand, if_pos hnext]
    exact ih h

theorem significand_toDigits {m : Nat} (h : m < twoTo 64) :
    significand 0 (Nat.toDigits 10 m) = (m, 0) := by
  have hv := Lexer.valueFrom_toDigits m
  rw [significand_eq (by rwa [hv]), hv]

/-- **An integer is read back from its digits.** -/
theorem value?_toDigits {m : Int} (h : Word.Fits m) :
    (⟨Nat.toDigits 10 m.natAbs, none, none⟩ : Numeral).value? (decide (m < 0))
      = some (.int m h) := by
  have hlt : m.natAbs < twoTo 64 := by
    show _ < 18446744073709551616
    omega
  have hneg : (if decide (m < 0) then -((m.natAbs : Nat) : Int) else (m.natAbs : Int)) = m := by
    split
    · rename_i hd
      have := of_decide_eq_true hd
      omega
    · rename_i hd
      have : ¬ m < 0 := fun h => hd (decide_eq_true h)
      omega
  have hzero : 0 = 0 ∧ ¬ (decide (m < 0) = true ∧ m.natAbs = 0) := by
    refine ⟨rfl, fun hz => ?_⟩
    have := of_decide_eq_true hz.1
    omega
  unfold Numeral.value?
  dsimp only
  rw [significand_toDigits hlt]
  dsimp only
  rw [if_pos hzero, hneg, dif_pos h]

/-! ## Numerals as decimals -/

/-- All digits of a numeral but those of its exponent, as one number. -/
def Numeral.digits (n : Numeral) : Nat :=
  Playbook.Numeral.valueFrom (Playbook.Numeral.valueFrom 0 n.whole) (n.fraction.getD [])

/-- The power of ten that a numeral's exponent gives. -/
def Numeral.scale (n : Numeral) : Int :=
  match n.exponent with
  | none => 0
  | some (down, ds) =>
    if down then -(Playbook.Numeral.valueFrom 0 ds : Int) else Playbook.Numeral.valueFrom 0 ds

/-- The power of ten that the last of the digits stands for. -/
def Numeral.place (n : Numeral) : Int :=
  n.scale - ((n.fraction.getD []).length : Int)

/-- **A numeral stands for a decimal**: it has its digits, and maybe some zeros behind them. -/
def Numeral.StandsFor (n : Numeral) (digits : Nat) (exponent : Int) : Prop :=
  ∃ k : Nat, n.digits = digits * 10 ^ k ∧ n.place = exponent - k

/-- Whether a numeral is just digits, as that of an integer. -/
def Numeral.isWhole (n : Numeral) : Bool :=
  n.fraction.isNone && n.exponent.isNone

theorem valueFrom_append (acc : Nat) (ds es : List Char) :
    Playbook.Numeral.valueFrom acc (ds ++ es)
      = Playbook.Numeral.valueFrom (Playbook.Numeral.valueFrom acc ds) es :=
  List.foldl_append

theorem valueFrom_zeros (acc k : Nat) :
    Playbook.Numeral.valueFrom acc (List.replicate k '0') = acc * 10 ^ k := by
  induction k generalizing acc with
  | zero => exact (Nat.mul_one acc).symm
  | succ k ih =>
    rw [List.replicate_succ]
    show Playbook.Numeral.valueFrom (acc * 10 + 0) (List.replicate k '0') = _
    rw [ih, Nat.add_zero, Nat.pow_succ', Nat.mul_assoc]

/-! ## Numbers as numerals -/

/-- A minus sign, if a number has one. -/
def minus (negative : Bool) : List Char :=
  if negative then ['-'] else []

/-- A multiple that rounds to a double is not zero. -/
theorem onGrid?_ne_zero {r : Double.Rounding} {e : Int} {d : Nat} (h : r.onGrid? e = some d) :
    d ≠ 0 := by
  unfold Double.Rounding.onGrid? at h
  dsimp only at h
  split at h
  · rename_i hb
    cases h
    simp only [Bool.and_eq_true, decide_eq_true_eq] at hb
    exact hb.1.2
  · split at h
    · cases h
      exact Nat.succ_ne_zero _
    · split at h
      · rename_i hb
        cases h
        simp only [Bool.and_eq_true, decide_eq_true_eq] at hb
        exact hb.1
      · cases h

/-- The digits of a double are not those of zero, unless none were found. -/
theorem shortest_eq (p : Double.Parts) :
    (Double.shortest p).1 ≠ 0 ∨ Double.shortest p = (0, 0) := by
  unfold Double.shortest
  dsimp only
  cases hf : (List.map _ (List.range 24)).findSome? _ with
  | none => exact .inr rfl
  | some found =>
    obtain ⟨e, -, he⟩ := List.exists_of_findSome?_eq_some hf
    obtain ⟨d, hd, rfl⟩ := Option.map_eq_some_iff.mp he
    exact .inl (onGrid?_ne_zero hd)

theorem areDigits_take {k : Nat} (hd : AreDigits ds) (hk : k ≠ 0) : AreDigits (ds.take k) :=
  ⟨fun h => (List.take_eq_nil_iff.mp h).elim hk hd.1, fun c hc => hd.2 c (List.mem_of_mem_take hc)⟩

theorem areDigits_drop {k : Nat} (hd : AreDigits ds) (hk : k < ds.length) : AreDigits (ds.drop k) :=
  ⟨fun h => Nat.not_le_of_lt hk (List.drop_eq_nil_iff.mp h),
    fun c hc => hd.2 c (List.mem_of_mem_drop hc)⟩

theorem isDigit_of_mem_zeros {c : Char} {k : Nat} (hc : c ∈ List.replicate k '0') :
    c.isDigit = true := by
  rw [List.eq_of_mem_replicate hc]
  rfl

theorem wellFormed_decimal {whole fraction : List Char} (hw : AreDigits whole)
    (hz : 1 < whole.length → whole.head? ≠ some '0') (hf : AreDigits fraction) :
    Numeral.WellFormed ⟨whole, some fraction, none⟩ :=
  ⟨hw, hz, fun _ h => Option.some.inj h ▸ hf, nofun⟩

theorem wellFormed_whole {whole : List Char} (hw : AreDigits whole)
    (hz : 1 < whole.length → whole.head? ≠ some '0') : Numeral.WellFormed ⟨whole, none, none⟩ :=
  ⟨hw, hz, nofun, nofun⟩

/-- Digits with the point behind them, and some zeros in between. -/
theorem exists_numeral_zeros {digits : Nat} {exponent : Int} (h : digits = 0 → exponent = 0)
    (hexp : 0 ≤ exponent) : ∃ n : Numeral, n.WellFormed ∧ n.StandsFor digits exponent
      ∧ n.isWhole = false ∧ Nat.toDigits 10 digits ++ List.replicate exponent.toNat '0'
      ++ ".0".toList = n.written := by
  have hds := areDigits_toDigits digits
  refine ⟨⟨_, some ['0'], none⟩, wellFormed_decimal
    (areDigits_append hds fun _ => isDigit_of_mem_zeros) ?_ areDigits_zero,
    ⟨exponent.toNat + 1, ?_, ?_⟩, rfl, (List.append_nil _).symm⟩
  · intro hlen hhead
    rw [List.head?_append, Option.or_eq_some_iff, List.head?_eq_none_iff] at hhead
    by_cases hd : digits = 0
    · rw [h hd, hd] at hlen
      exact absurd hlen (by decide)
    · exact hhead.elim (head?_toDigits hd) fun hnil => hds.1 hnil.1
  · show Playbook.Numeral.valueFrom (Playbook.Numeral.valueFrom 0 _) (List.replicate 1 '0') = _
    rw [valueFrom_zeros, valueFrom_append, valueFrom_zeros, Lexer.valueFrom_toDigits, Nat.mul_assoc,
      ← Nat.pow_add]
  · show (0 : Int) - 1 = exponent - ((exponent.toNat + 1 : Nat) : Int)
    omega

/-- Digits with the point between them. -/
theorem exists_numeral_point {digits k : Nat} (hd : digits ≠ 0) (hk : k ≠ 0)
    (hlen : k < (Nat.toDigits 10 digits).length) : ∃ n : Numeral, n.WellFormed
      ∧ n.StandsFor digits (k - (Nat.toDigits 10 digits).length) ∧ n.isWhole = false
      ∧ (Nat.toDigits 10 digits).take k ++ '.' :: (Nat.toDigits 10 digits).drop k = n.written := by
  have hds := areDigits_toDigits digits
  refine ⟨⟨_, some _, none⟩, wellFormed_decimal (areDigits_take hds hk) (fun _ => ?_)
    (areDigits_drop hds hlen), ⟨0, ?_, ?_⟩, rfl, (List.append_nil _).symm⟩
  · rw [List.head?_take, if_neg hk]
    exact head?_toDigits hd
  · unfold Numeral.digits
    rw [Option.getD_some, ← valueFrom_append, List.take_append_drop, Lexer.valueFrom_toDigits]
    exact (Nat.mul_one _).symm
  · show (0 : Int) - (((Nat.toDigits 10 digits).drop k).length : Nat) = _
    rw [List.length_drop]
    omega

/-- Digits behind the point, and some zeros in between. -/
theorem exists_numeral_behind (digits k : Nat) : ∃ n : Numeral, n.WellFormed
    ∧ n.StandsFor digits (-(k + (Nat.toDigits 10 digits).length : Nat)) ∧ n.isWhole = false
    ∧ "0.".toList ++ List.replicate k '0' ++ Nat.toDigits 10 digits = n.written := by
  have hds := areDigits_toDigits digits
  have hfraction : AreDigits (List.replicate k '0' ++ Nat.toDigits 10 digits) :=
    ⟨fun h => hds.1 (List.append_eq_nil_iff.mp h).2,
      List.forall_mem_append.mpr ⟨fun _ => isDigit_of_mem_zeros, hds.2⟩⟩
  refine ⟨⟨['0'], some _, none⟩, wellFormed_decimal areDigits_zero nofun hfraction,
    ⟨0, ?_, ?_⟩, rfl, ?_⟩
  · show Playbook.Numeral.valueFrom 0 (List.replicate k '0' ++ Nat.toDigits 10 digits) = _
    rw [valueFrom_append, valueFrom_zeros, Nat.zero_mul, Lexer.valueFrom_toDigits]
    exact (Nat.mul_one _).symm
  · show (0 : Int) - ((List.replicate k '0' ++ Nat.toDigits 10 digits).length : Nat) = _
    rw [List.length_append, List.length_replicate]
    omega
  · simp [Numeral.written]

/-- Digits with the point behind the first of them, and an exponent. -/
theorem exists_numeral_exponent (digits : Nat) (lead : Int) : ∃ n : Numeral, n.WellFormed
    ∧ n.StandsFor digits (lead - (Nat.toDigits 10 digits).length + 1) ∧ n.isWhole = false
    ∧ (Nat.toDigits 10 digits).take 1
      ++ (if (Nat.toDigits 10 digits).length = 1 then [] else
        '.' :: (Nat.toDigits 10 digits).drop 1)
      ++ 'e' :: (if lead < 0 then '-' else '+') :: Nat.toDigits 10 lead.natAbs = n.written := by
  have hds := areDigits_toDigits digits
  have hpos : 0 < (Nat.toDigits 10 digits).length := List.length_pos_iff.mpr hds.1
  have hfraction : Option.getD (if (Nat.toDigits 10 digits).length = 1 then none else
      some ((Nat.toDigits 10 digits).drop 1)) [] = (Nat.toDigits 10 digits).drop 1 := by
    split
    · rename_i hlen
      exact (List.drop_of_length_le (Nat.le_of_eq hlen)).symm
    · rfl
  refine ⟨⟨(Nat.toDigits 10 digits).take 1,
      if (Nat.toDigits 10 digits).length = 1 then none else some ((Nat.toDigits 10 digits).drop 1),
      some (decide (lead < 0), Nat.toDigits 10 lead.natAbs)⟩,
    ⟨areDigits_take hds nofun, fun hlen => ?_, fun us hus => ?_, ?_⟩, ⟨0, ?_, ?_⟩,
    Bool.and_false _, ?_⟩
  · exact absurd (Nat.lt_of_lt_of_le hlen (List.length_take_le _ _)) (Nat.lt_irrefl 1)
  · obtain ⟨hne, ⟨⟩⟩ := Option.ite_none_left_eq_some.mp hus
    exact areDigits_drop hds (by omega)
  · rintro _ _ ⟨⟩
    exact areDigits_toDigits _
  · unfold Numeral.digits
    dsimp only
    rw [hfraction, ← valueFrom_append, List.take_append_drop, Lexer.valueFrom_toDigits]
    exact (Nat.mul_one _).symm
  · have hscale : (if decide (lead < 0) then -(lead.natAbs : Int) else lead.natAbs) = lead := by
      split
      · rename_i hneg
        have := of_decide_eq_true hneg
        omega
      · rename_i hneg
        have : ¬ lead < 0 := fun h => hneg (decide_eq_true h)
        omega
    unfold Numeral.place Numeral.scale
    dsimp only
    rw [hfraction, Lexer.valueFrom_toDigits, hscale, List.length_drop]
    omega
  · unfold Numeral.written
    dsimp only
    rw [List.append_assoc, List.append_assoc]
    refine congrArg _ ?_
    by_cases hlen : (Nat.toDigits 10 digits).length = 1
    · rw [if_pos hlen, if_pos hlen]
      simp
    · rw [if_neg hlen, if_neg hlen]
      simp

/-- **Digits are laid out as a numeral** that stands for the decimal. -/
theorem exists_numeral_write {digits : Nat} {exponent : Int} (h : digits = 0 → exponent = 0) :
    ∃ n : Numeral, n.WellFormed ∧ n.StandsFor digits exponent ∧ n.isWhole = false
      ∧ (Number.layout.write digits exponent).toList = n.written := by
  have hpos : 0 < (Nat.toDigits 10 digits).length :=
    List.length_pos_iff.mpr (areDigits_toDigits digits).1
  unfold Double.Layout.write
  rw [String.toList_ofList]
  dsimp only
  generalize hlead : exponent + ((Nat.toDigits 10 digits).length : Int) - 1 = lead
  by_cases hplain : Number.layout.plainFrom ≤ lead ∧ lead ≤ Number.layout.plainTo
  · rw [if_pos hplain]
    by_cases hexp : exponent ≥ 0
    · rw [if_pos hexp]
      exact exists_numeral_zeros h hexp
    · rw [if_neg hexp]
      by_cases hnonneg : lead ≥ 0
      · rw [if_pos hnonneg]
        have hd : digits ≠ 0 := fun hd => hexp (Int.le_of_eq (h hd).symm)
        have hpoint := exists_numeral_point hd (Nat.succ_ne_zero lead.toNat) (by omega)
        rwa [show ((lead.toNat + 1 : Nat) : Int) - (Nat.toDigits 10 digits).length = exponent
          by omega]
          at hpoint
      · rw [if_neg hnonneg]
        have hbehind := exists_numeral_behind digits (-lead - 1).toNat
        rwa [show -(((-lead - 1).toNat + (Nat.toDigits 10 digits).length : Nat) : Int) = exponent
          by omega] at hbehind
  · rw [if_neg hplain]
    have hexponent := exists_numeral_exponent digits lead
    rwa [show lead - (Nat.toDigits 10 digits).length + 1 = exponent by omega] at hexponent

/-- **An integer is written as its digits** with a sign. -/
theorem exists_numeral_int (m : Int) (h : Word.Fits m) : ∃ n : Numeral, n.WellFormed
    ∧ n.isWhole = true ∧ n.value? (decide (m < 0)) = some (.int m h)
    ∧ (Number.int m h).render.toList = minus (decide (m < 0)) ++ n.written := by
  refine ⟨⟨Nat.toDigits 10 m.natAbs, none, none⟩,
    wellFormed_whole (areDigits_toDigits _) fun hlen => head?_toDigits ?_, rfl,
    value?_toDigits h, ?_⟩
  · intro hm
    rw [hm] at hlen
    exact absurd hlen (by decide)
  · have hwritten : Numeral.written ⟨Nat.toDigits 10 m.natAbs, none, none⟩
        = Nat.toDigits 10 m.natAbs := by simp [Numeral.written]
    rw [Number.render, hwritten, minus, Nat.toString_eq_ofList_toDigits]
    by_cases hm : m < 0
    · rw [if_pos hm, if_pos (decide_eq_true hm), String.toList_append, String.toList_ofList,
        String.toList_ofList]
    · rw [if_neg hm, if_neg (by simpa using hm), String.toList_ofList]
      rfl

/-- **A double is written as a numeral** with a sign, which stands for the shortest digits and is
not that of an integer. -/
theorem exists_numeral_double (x : Float) : ∃ n : Numeral, n.WellFormed ∧ n.isWhole = false
    ∧ ((Double.parts x).significand = 0 → n.digits = 0)
    ∧ ((Double.parts x).significand ≠ 0 →
      n.StandsFor (Double.shortest (Double.parts x)).1 (Double.shortest (Double.parts x)).2)
    ∧ (Number.layout.double x).toList = minus (Double.parts x).negative ++ n.written := by
  have hsign : (if (Double.parts x).negative then "-" else "").toList
      = minus (Double.parts x).negative := by
    unfold minus
    split <;> rfl
  unfold Double.Layout.double
  dsimp only
  by_cases hzero : (Double.parts x).significand = 0
  · rw [if_pos hzero, String.toList_append, hsign]
    exact ⟨⟨['0'], some ['0'], none⟩, wellFormed_decimal areDigits_zero
      (fun h => absurd h (Nat.lt_irrefl 1)) areDigits_zero, rfl, fun _ => rfl,
      fun hne => absurd hzero hne, rfl⟩
  · have hshort : (Double.shortest (Double.parts x)).1 = 0
        → (Double.shortest (Double.parts x)).2 = 0 := fun h => by
      rw [(shortest_eq (Double.parts x)).resolve_left fun hne => hne h]
    obtain ⟨n, hn, hstands, hwhole, hwrite⟩ := exists_numeral_write hshort
    rw [if_neg hzero, String.toList_append, hsign, hwrite]
    exact ⟨n, hn, hwhole, fun h => absurd h hzero, fun _ => hstands, rfl⟩

/-- **A number is written as a numeral** with a sign, and an integer as its digits. -/
theorem exists_numeral (x : Number) : ∃ (negative : Bool) (n : Numeral), n.WellFormed
    ∧ x.render.toList = minus negative ++ n.written
    ∧ ∀ m h, x = .int m h → n.value? negative = some x := by
  cases x with
  | int m h =>
    obtain ⟨n, hn, -, hvalue, htext⟩ := exists_numeral_int m h
    exact ⟨_, n, hn, htext, fun _ _ _ => hvalue⟩
  | double x hx =>
    obtain ⟨n, hn, -, -, -, htext⟩ := exists_numeral_double x
    exact ⟨_, n, hn, htext, fun _ _ he => Number.noConfusion he⟩

/-! ## Numerals outside JSON -/

theorem Numeral.WellFormed.exists_head (h : n.WellFormed) :
    ∃ c us, n.written = c :: us ∧ c.isDigit = true := by
  obtain ⟨c, cs, hcs⟩ := List.exists_cons_of_ne_nil h.whole.1
  have hdigit : c.isDigit = true := h.whole.2 c (hcs ▸ List.mem_cons_self)
  unfold written
  rw [hcs]
  exact ⟨c, _, rfl, hdigit⟩

/-- The characters that numerals are written with. -/
theorem Numeral.WellFormed.isDigit_or (h : n.WellFormed) {c : Char} (hc : c ∈ n.written) :
    c.isDigit = true ∨ c ∈ ['.', '-', '+', 'e', 'E'] := by
  obtain ⟨whole, fraction, exponent⟩ := n
  obtain ⟨hwhole, -, hfraction, hexponent⟩ := h
  dsimp only at hwhole hfraction hexponent
  unfold written at hc
  dsimp only at hc
  rw [List.mem_append, List.mem_append] at hc
  obtain (hc | hc) | hc := hc
  · exact .inl (hwhole.2 c hc)
  · cases fraction with
    | none => cases hc
    | some ds =>
      obtain rfl | hc := List.mem_cons.mp hc
      · exact .inr (by simp)
      · exact .inl ((hfraction ds rfl).2 c hc)
  · cases exponent with
    | none => cases hc
    | some e =>
      obtain ⟨down, ds⟩ := e
      obtain rfl | hc := List.mem_cons.mp hc
      · exact .inr (by simp)
      · obtain rfl | hc := List.mem_cons.mp hc
        · exact .inr (by cases down <;> simp)
        · exact .inl ((hexponent down ds rfl).2 c hc)

theorem digits?_of_areDigits {ds : List Char} (h : AreDigits ds) :
    Playbook.Numeral.digits? ds = some (Playbook.Numeral.valueFrom 0 ds) := by
  rw [Playbook.Numeral.digits?, List.isEmpty_eq_false_iff.mpr h.1, List.all_eq_true.mpr h.2]
  rfl

theorem exponent?_written (h : n.WellFormed) :
    Playbook.Numeral.exponent? (Numeral.written ⟨[], none, n.exponent⟩) = some n.scale := by
  obtain ⟨whole, fraction, exponent⟩ := n
  cases exponent with
  | none => rfl
  | some e =>
    obtain ⟨down, ds⟩ := e
    have hdigits := digits?_of_areDigits (h.exponent down ds rfl)
    cases down with
    | false =>
      show (Playbook.Numeral.digits? ds).map (fun n => (n : Int)) = _
      rw [hdigits]
      rfl
    | true =>
      show (Playbook.Numeral.digits? ds).map (fun n => -(n : Int)) = _
      rw [hdigits]
      rfl

/-- **A numeral is read as the decimal that it is**: all its digits, and the power of ten that
the last one of them stands for. -/
theorem decimal?_written (h : n.WellFormed) :
    Playbook.Numeral.decimal? n.written = some (Double.ofDecimal n.digits n.place) := by
  have hexponent := exponent?_written h
  have hstart : ∀ c us, Numeral.written ⟨[], none, n.exponent⟩ = c :: us →
      c.isDigit = false ∧ c ≠ '.' := by
    intro c us hc
    cases he : n.exponent with
    | none =>
      rw [he] at hc
      cases hc
    | some e =>
      rw [he] at hc
      cases hc
      decide
  obtain ⟨whole, fraction, exponent⟩ := n
  dsimp only at hexponent hstart ⊢
  generalize hbehind : Numeral.written ⟨[], none, exponent⟩ = behind at hexponent hstart
  have hwhole : whole.isEmpty = false := List.isEmpty_eq_false_iff.mpr h.whole.1
  cases fraction with
  | none =>
    have htext : Numeral.written ⟨whole, none, exponent⟩ = whole ++ behind := by
      rw [← hbehind]
      simp [Numeral.written]
    have hspan := span_digits h.whole fun c us hc => (hstart c us hc).1
    rw [List.span_eq_takeWhile_dropWhile, Prod.mk.injEq] at hspan
    rw [htext, Playbook.Numeral.decimal?, hspan.1, hspan.2]
    split
    rename_i fraction rest hsplit
    split at hsplit
    · exact absurd rfl (hstart _ _ rfl).2
    · cases hsplit
      rw [hwhole, hexponent]
      rfl
  | some ds =>
    have htext : Numeral.written ⟨whole, some ds, exponent⟩ = whole ++ '.' :: (ds ++ behind) := by
      rw [← hbehind]
      simp [Numeral.written]
    have hpoint : ∀ c us, '.' :: (ds ++ behind) = c :: us → c.isDigit = false := by
      rintro _ _ ⟨⟩
      rfl
    have hspan := span_digits h.whole hpoint
    have hspan' := span_digits (h.fraction ds rfl) fun c us hc => (hstart c us hc).1
    rw [List.span_eq_takeWhile_dropWhile, Prod.mk.injEq] at hspan hspan'
    rw [htext, Playbook.Numeral.decimal?, hspan.1, hspan.2]
    show (if (whole.isEmpty && ((ds ++ behind).takeWhile Char.isDigit).isEmpty) = true then none
      else (Playbook.Numeral.exponent? ((ds ++ behind).dropWhile Char.isDigit)).map fun e =>
        Double.ofDecimal (Playbook.Numeral.valueFrom (Playbook.Numeral.valueFrom 0 whole)
          ((ds ++ behind).takeWhile Char.isDigit))
          (e - (((ds ++ behind).takeWhile Char.isDigit).length : Int))) = _
    rw [hspan'.1, hspan'.2, hwhole, hexponent]
    rfl

end Json

end Playbook
