import Playbook.Proofs.Expr.Equality
import Playbook.Proofs.Expr.Integers
import Playbook.Proofs.Number.Nearest
import Playbook.Proofs.Value.Rendering

/-!
# Comparisons

Equality and order are decided in two ways that need not agree: two lists are equal if their items
are, and one is less than the other if its text is. They agree all the same, in that exactly one of
less, equal and greater holds, wherever equal values have equal texts (`Scope.ordered_iff`). That is
so because different values have different texts (`Value.Plain.render_inj`). What goes wrong is that
records with the same fields in another order are equal, and so are zeros of different signs. Such
values are equal, and one of them is less (`Value.DiffersInText.looseEq_order`).

Two integers are compared as doubles, whether they are numbers or texts. A comparison sees each
integer as the nearest one that 53 bits hold, and its outcome is that of the nearest integers
(`Scope.evaluate_compare_integers`). It is the outcome of the integers themselves unless they are
different and have the same nearest, which takes one of them beyond `2 ^ 53`. Then they count as
equal, while their difference is computed exactly and is not zero.
-/

namespace Playbook

/-! ## The order of two values -/

namespace Value

variable {v w : Value}

theorem order_of_operands {a b : Operand} (hv : v.operand? = some a) (hw : w.operand? = some b) :
    v.order w = if a.toFloat < b.toFloat then .lt
      else if b.toFloat < a.toFloat then .gt else .eq := by
  unfold order
  rw [hv, hw]

theorem order_of_display (h : ¬ Numeric v w) :
    v.order w = if v.display < w.display then .lt
      else if w.display < v.display then .gt else .eq := by
  unfold order
  split
  · rename_i hv hw
    exact absurd ⟨hv ▸ rfl, hw ▸ rfl⟩ h
  · rfl

/-! ### Equality and order -/

theorem display_of_not_text (h : v.isText = false) : v.display = v.render := by
  cases v with
  | text => cases h
  | null | bool | number | list | record => rfl

/-- Two values are compared the same from either side. -/
theorem order_swap (v w : Value) : w.order v = (v.order w).swap := by
  by_cases h : Numeric v w
  · obtain ⟨a, ha⟩ := Option.isSome_iff_exists.mp h.1
    obtain ⟨b, hb⟩ := Option.isSome_iff_exists.mp h.2
    have hasymm := Double.lt_asymm (isNaN_of_operand? ha) (isNaN_of_operand? hb)
    rw [order_of_operands ha hb, order_of_operands hb ha]
    by_cases hab : a.toFloat < b.toFloat
    · rw [if_pos hab, if_neg (hasymm hab), if_pos hab]
      rfl
    · rw [if_neg hab, if_neg hab]
      split <;> rfl
  · rw [order_of_display h, order_of_display fun h' => h h'.symm]
    by_cases hvw : v.display < w.display
    · rw [if_pos hvw, if_neg (String.lt_asymm hvw), if_pos hvw]
      rfl
    · rw [if_neg hvw, if_neg hvw]
      split <;> rfl

theorem order_eq_iff_display (h : ¬ Numeric v w) : v.order w = .eq ↔ v.display = w.display := by
  rw [order_of_display h]
  constructor
  · intro he
    split at he
    · cases he
    · rename_i hlt
      split at he
      · cases he
      · rename_i hgt
        exact String.le_antisymm (String.not_lt.mp hgt) (String.not_lt.mp hlt)
  · intro he
    rw [he, if_neg (String.lt_irrefl _), if_neg (String.lt_irrefl _)]

theorem order_eq_iff_operands {a b : Operand} (hv : v.operand? = some a)
    (hw : w.operand? = some b) : v.order w = .eq ↔ v.looseEq w = true := by
  rw [order_of_operands hv hw, looseEq_of_operands hv hw,
    Double.beq_iff_not_lt (isNaN_of_operand? hv) (isNaN_of_operand? hw)]
  split
  · rename_i h
    exact iff_of_false nofun fun h' => h'.1 h
  · rename_i h
    split
    · rename_i h'
      exact iff_of_false nofun fun h'' => h''.2 h'
    · rename_i h'
      exact iff_of_true rfl ⟨h, h'⟩

/-- **Two lists or two records that are equal and are written differently**: with the fields of a
record in another order, or with zeros of different signs. -/
def DiffersInText (v w : Value) : Prop :=
  v.isScalar = false ∧ v.same w = true ∧ v ≠ w

theorem isText_of_not_isScalar (h : v.isScalar = false) : v.isText = false := by
  cases v with
  | text => cases h
  | null | bool | number | list | record => rfl

theorem isScalar_of_same (h : v.same w = true) : w.isScalar = v.isScalar := by
  cases v <;> cases w <;> first | rfl | cases h

theorem operand?_of_not_isScalar (h : v.isScalar = false) : v.operand? = none := by
  cases v with
  | list | record => rfl
  | null | bool | number | text => cases h

/-- **Such values are equal, and one of them is less than the other.** -/
theorem DiffersInText.looseEq_order (hv : v.Plain n) (h : v.DiffersInText w) :
    v.looseEq w = true ∧ v.order w ≠ .eq := by
  obtain ⟨hscalar, hsame, hne⟩ := h
  have hscalar' := (isScalar_of_same hsame).trans hscalar
  have hnum : ¬ Numeric v w := fun hnum => by
    have hsome := hnum.1
    rw [operand?_of_not_isScalar hscalar] at hsome
    cases hsome
  have ht := isText_of_not_isScalar hscalar
  have ht' := isText_of_not_isScalar hscalar'
  refine ⟨?_, fun he => hne ?_⟩
  · rw [looseEq_of_not_text hnum ht ht', hsame]
  · rw [order_eq_iff_display hnum, display_of_not_text ht, display_of_not_text ht'] at he
    exact hv.render_inj he

/-- **All other values** are equal if neither of them is less than the other. -/
theorem Plain.order_eq_iff (hv : v.Plain n) (h : ¬ v.DiffersInText w) :
    v.order w = .eq ↔ v.looseEq w = true := by
  obtain ⟨ha, hb⟩ | ⟨hnum, ht⟩ | ⟨hnum, ht, ht'⟩ := route v w
  · exact order_eq_iff_operands ha hb
  · rw [order_eq_iff_display hnum, looseEq_of_text hnum ht, beq_iff_eq]
  rw [order_eq_iff_display hnum, looseEq_of_not_text hnum ht ht', display_of_not_text ht,
    display_of_not_text ht']
  constructor
  · intro he
    obtain rfl := hv.render_inj he
    exact hv.same_self
  · intro hsame
    by_contra hne
    have hscalar : v.isScalar = true := by
      by_contra hscalar
      exact h ⟨Bool.not_eq_true _ ▸ hscalar, hsame, fun hvw => hne (hvw ▸ rfl)⟩
    cases v with
    | null =>
      cases w with
      | null => exact hne rfl
      | bool | number | text | list | record => cases hsame
    | bool =>
      cases w with
      | bool => exact hne (by rw [beq_iff_eq.mp hsame])
      | null | number | text | list | record => cases hsame
    | number x =>
      cases w with
      | number y => exact hnum ⟨isSome_operand?_number x, isSome_operand?_number y⟩
      | null | bool | text | list | record => cases hsame
    | text => cases ht
    | list | record => cases hscalar

end Value

/-! ## Consistency -/

namespace Scope

variable (scope : Scope)

/-- **A comparison holds** of what two expressions come to. -/
def Holds (op : Comparison) (l r : Expr) : Prop :=
  (Expr.compare op l r).evalWith scope scope.whole = .ok (.bool true)

/-- **Two expressions are ordered by their comparisons**: exactly one of less, equal and greater
holds, and the other ones say the same. -/
structure Ordered (l r : Expr) : Prop where
  one : scope.Holds .lt l r ∧ ¬ scope.Holds .eq l r ∧ ¬ scope.Holds .gt l r
    ∨ ¬ scope.Holds .lt l r ∧ scope.Holds .eq l r ∧ ¬ scope.Holds .gt l r
    ∨ ¬ scope.Holds .lt l r ∧ ¬ scope.Holds .eq l r ∧ scope.Holds .gt l r
  le : scope.Holds .le l r ↔ scope.Holds .lt l r ∨ scope.Holds .eq l r
  ge : scope.Holds .ge l r ↔ scope.Holds .gt l r ∨ scope.Holds .eq l r
  swap : scope.Holds .lt l r ↔ scope.Holds .gt r l

variable {scope} {l r : Expr} {v w : Value} {n : Nat}

theorem holds_iff {op : Comparison} (hl : l.evalWith scope scope.whole = .ok v)
    (hr : r.evalWith scope scope.whole = .ok w) :
    scope.Holds op l r ↔ op.apply v w = .ok true := by
  unfold Holds
  rw [Expr.evalWith, hl, hr]
  show (op.apply v w).map Value.bool = _ ↔ _
  cases op.apply v w with
  | error => simp [Except.map]
  | ok b => cases b <;> simp [Except.map]

/-- **Comparisons are consistent** but for lists and records that are equal and are written
differently. Of these, one is less than the other. -/
theorem ordered_iff (hl : l.evalWith scope scope.whole = .ok v)
    (hr : r.evalWith scope scope.whole = .ok w) (hv : v.Plain n) :
    (scope.Ordered l r ↔ ¬ v.DiffersInText w)
      ∧ (v.DiffersInText w → scope.Holds .eq l r
        ∧ (scope.Holds .lt l r ∧ ¬ scope.Holds .gt l r
          ∨ ¬ scope.Holds .lt l r ∧ scope.Holds .gt l r))
      ∧ (scope.Holds .le l r ↔ ¬ scope.Holds .gt l r)
      ∧ (scope.Holds .ge l r ↔ ¬ scope.Holds .lt l r)
      ∧ (scope.Holds .lt l r ↔ scope.Holds .gt r l) := by
  have heq : scope.Holds .eq l r ↔ v.looseEq w = true := by simp [holds_iff hl hr, Comparison.apply]
  have hlt : scope.Holds .lt l r ↔ v.order w = .lt := by simp [holds_iff hl hr, Comparison.apply]
  have hgt : scope.Holds .gt l r ↔ v.order w = .gt := by simp [holds_iff hl hr, Comparison.apply]
  have hle : scope.Holds .le l r ↔ v.order w ≠ .gt := by simp [holds_iff hl hr, Comparison.apply]
  have hge : scope.Holds .ge l r ↔ v.order w ≠ .lt := by simp [holds_iff hl hr, Comparison.apply]
  have hback : scope.Holds .gt r l ↔ v.order w = .lt := by
    have hgt : scope.Holds .gt r l ↔ w.order v = .gt := by simp [holds_iff hr hl, Comparison.apply]
    rw [hgt, Value.order_swap v w]
    cases v.order w <;> decide
  have hone (h : ¬ v.DiffersInText w) : scope.Holds .eq l r ↔ v.order w = .eq :=
    heq.trans (hv.order_eq_iff h).symm
  have happart (h : v.DiffersInText w) : scope.Holds .lt l r ∧ ¬ scope.Holds .gt l r
      ∨ ¬ scope.Holds .lt l r ∧ scope.Holds .gt l r := by
    have hne := (h.looseEq_order hv).2
    rw [hlt, hgt]
    cases ho : v.order w with
    | lt => exact .inl ⟨rfl, nofun⟩
    | gt => exact .inr ⟨nofun, rfl⟩
    | eq => exact absurd ho hne
  refine ⟨⟨fun hord h => ?_, fun h => ⟨?_, ?_, ?_, hlt.trans hback.symm⟩⟩,
    fun h => ⟨heq.mpr (h.looseEq_order hv).1, happart h⟩, ?_, ?_, hlt.trans hback.symm⟩
  · -- both of them are equal and one is less, which is one too many
    have he := heq.mpr (h.looseEq_order hv).1
    obtain ⟨-, hnot, -⟩ | ⟨hnlt, -, hngt⟩ | ⟨-, hnot, -⟩ := hord.one
    · exact hnot he
    · exact (happart h).elim (fun h => hnlt h.1) fun h => hngt h.2
    · exact hnot he
  · rw [hlt, hgt, hone h]
    cases v.order w <;> decide
  · rw [hle, hlt, hone h]
    cases v.order w <;> decide
  · rw [hge, hgt, hone h]
    cases v.order w <;> decide
  · rw [hle, hgt]
  · rw [hge, hlt]

/-- Two lists, of which the first is less. -/
theorem ordered_iff_lists :
    let scope := ofVariables [("a", .list [.int 9]), ("b", .list [.text "9"])]
    scope.Ordered (.name "a") (.name "b") := by
  intro scope
  have hl : Expr.evalWith scope scope.whole (.name "a") = .ok (.list [.int 9]) := by
    with_unfolding_all rfl
  have hr : Expr.evalWith scope scope.whole (.name "b") = .ok (.list [.text "9"]) := by
    with_unfolding_all rfl
  have hplain : (Value.list [.int 9]).Plain 1 :=
    .list fun v hv => List.mem_singleton.mp hv ▸ .number
  exact (ordered_iff hl hr hplain).1.mpr fun h => Bool.false_ne_true h.2.1

/-- Two records that are equal, while the first is less than the second. -/
theorem less_and_equal :
    let first := Value.record [("x", .int 1), ("y", .int 2)]
    let second := Value.record [("y", .int 2), ("x", .int 1)]
    let scope := ofVariables [("a", first), ("b", second)]
    (scope.evaluate "a == b").toOption.map Value.display = some "true"
      ∧ (scope.evaluate "a < b").toOption.map Value.display = some "true"
      ∧ (scope.evaluate "a >= b").toOption.map Value.display = some "false" := by
  decide +kernel

end Scope

/-! ## Integers -/

namespace Comparison

/-- The truth of a comparison of two integers, for the six operators that compare numbers. -/
def between? (op : Comparison) (a b : Int) : Option Bool :=
  match op with
  | eq => some (a = b)
  | ne => some (a ≠ b)
  | lt => some (a < b)
  | le => some (a ≤ b)
  | gt => some (b < a)
  | ge => some (b ≤ a)
  | isIn | contains | .matches => none

variable {op : Comparison} {a b : Int} {v w : Value}

theorem looseEq_integers (hv : v.IsInteger a) (hw : w.IsInteger b) (ha : Word.FitsSigned a)
    (hb : Word.FitsSigned b) :
    v.looseEq w = decide (Double.nearest a = Double.nearest b) := by
  rw [Value.looseEq_of_operands (hv.operand? ha) (hw.operand? hb), Bool.eq_iff_iff,
    decide_eq_true_eq]
  exact Double.ofInt_beq_iff ha hb

theorem order_integers (hv : v.IsInteger a) (hw : w.IsInteger b) (ha : Word.FitsSigned a)
    (hb : Word.FitsSigned b) :
    v.order w = compare (Double.nearest a) (Double.nearest b) := by
  have hlt : (Operand.int a).toFloat < (Operand.int b).toFloat
      ↔ Double.nearest a < Double.nearest b := Double.ofInt_lt_iff ha hb
  have hgt : (Operand.int b).toFloat < (Operand.int a).toFloat
      ↔ Double.nearest b < Double.nearest a := Double.ofInt_lt_iff hb ha
  rw [Value.order_of_operands (hv.operand? ha) (hw.operand? hb)]
  obtain h | h | h := lt_trichotomy (Double.nearest a) (Double.nearest b)
  · rw [if_pos (hlt.mpr h), Int.compare_eq_lt.mpr h]
  · rw [h] at hlt hgt ⊢
    rw [if_neg (mt hlt.mp (lt_irrefl _)), if_neg (mt hgt.mp (lt_irrefl _)),
      Int.compare_eq_eq.mpr rfl]
  · rw [if_neg (mt hlt.mp (lt_asymm h)), if_pos (hgt.mpr h), Int.compare_eq_gt.mpr h]

/-- **Integers are compared by their nearest.** -/
theorem apply_integers {t : Bool} (hv : v.IsInteger a) (hw : w.IsInteger b)
    (ha : Word.FitsSigned a) (hb : Word.FitsSigned b)
    (ht : op.between? (Double.nearest a) (Double.nearest b) = some t) : op.apply v w = .ok t := by
  have heq := looseEq_integers hv hw ha hb
  have horder := order_integers hv hw ha hb
  cases op with
  | isIn | contains | «matches» => cases ht
  | eq | ne | lt | le | gt | ge =>
    obtain rfl := Option.some.inj ht
    refine congrArg Except.ok (Bool.eq_iff_iff.mpr ?_)
    simp only [heq, horder, decide_eq_true_eq, beq_iff_eq, bne_iff_ne, Bool.not_eq_true',
      decide_eq_false_iff_not, Int.compare_eq_lt, Int.compare_eq_gt, Ne, not_lt]

/-- Where rounding keeps two integers apart, it keeps their order. -/
theorem between?_nearest (h : a = b ∨ Double.nearest a ≠ Double.nearest b) :
    op.between? (Double.nearest a) (Double.nearest b) = op.between? a b := by
  obtain rfl | hne := h
  · cases op <;> simp [between?]
  · have hab : a ≠ b := fun h => hne (h ▸ rfl)
    have hle := fun h : a ≤ b => Double.nearest_mono h
    have hge := fun h : b ≤ a => Double.nearest_mono h
    cases op <;> simp only [between?, Option.some.injEq, decide_eq_decide] <;> omega

end Comparison

namespace Scope

variable (scope : Scope)

/-- **Comparisons of two integers.** Each integer counts as its nearest of 53 bits. So the outcome
is that of the integers, unless these are different and have the same nearest; it is that of the
integers wherever both are at most `2 ^ 53` in size. -/
theorem evaluate_compare_integers {source : String} {op : Comparison} {l r : Expr} {v w : Value}
    {a b : Int} (he : Expr.parse source = .ok (.compare op l r))
    (hl : l.evalWith scope scope.whole = .ok v) (hr : r.evalWith scope scope.whole = .ok w)
    (hv : v.IsInteger a) (hw : w.IsInteger b) (ha : Word.FitsSigned a) (hb : Word.FitsSigned b) :
    (∀ t, op.between? (Double.nearest a) (Double.nearest b) = some t →
      scope.evaluate source = .ok (.bool t))
      ∧ (a = b ∨ Double.nearest a ≠ Double.nearest b →
        ∀ t, op.between? a b = some t → scope.evaluate source = .ok (.bool t))
      ∧ (a.natAbs ≤ 2 ^ 53 → b.natAbs ≤ 2 ^ 53 →
        ∀ t, op.between? a b = some t → scope.evaluate source = .ok (.bool t)) := by
  have hvalue : scope.evaluate source = (op.apply v w).map .bool := by
    rw [scope.evaluate_eq he, Expr.evalWith, hl, hr]
  have hnearest : ∀ t, op.between? (Double.nearest a) (Double.nearest b) = some t →
      scope.evaluate source = .ok (.bool t) := fun t ht => by
    rw [hvalue, Comparison.apply_integers hv hw ha hb ht]
    rfl
  have happart (h : a = b ∨ Double.nearest a ≠ Double.nearest b) (t : Bool)
      (ht : op.between? a b = some t) : scope.evaluate source = .ok (.bool t) :=
    hnearest t ((Comparison.between?_nearest h).trans ht)
  refine ⟨hnearest, happart, fun ha hb => happart ?_⟩
  rw [Double.nearest_of_natAbs_le ha, Double.nearest_of_natAbs_le hb]
  exact em (a = b)

/-- A number beyond `2 ^ 53` and a text. -/
theorem evaluate_compare_integers_less :
    let scope := ofVariables [("paid", .text "9007199254740992"), ("due", .int 9007199254740994)]
    let source := "paid < due"
    Expr.parse source = .ok (.compare .lt (.name "paid") (.name "due"))
      ∧ (Value.text "9007199254740992").IsInteger 9007199254740992
      ∧ Double.nearest 9007199254740992 ≠ Double.nearest 9007199254740994
      ∧ scope.evaluate source = .ok (.bool true) := by
  intro scope source
  let e : Expr := .compare .lt (.name "paid") (.name "due")
  have hwritten : String.ofList e.written = source := by decide +kernel
  have he : Expr.parse source = .ok e := by
    obtain ⟨hparse, hplain⟩ := Expr.parse_written e (by decide +kernel)
    exact hwritten ▸ hplain (by decide +kernel) ▸ hparse
  have hl : Expr.evalWith scope scope.whole (.name "paid") = .ok (.text "9007199254740992") := by
    with_unfolding_all rfl
  have hr : Expr.evalWith scope scope.whole (.name "due") = .ok (.int 9007199254740994) := by
    with_unfolding_all rfl
  have hv : (Value.text "9007199254740992").IsInteger 9007199254740992 := by
    have h : (Value.text (String.ofList ([] ++ Numeral.padded 0 9007199254740992 ++ []))).IsInteger
        9007199254740992 := .text nofun nofun (.plain 0 _)
    exact h
  have happart : Double.nearest 9007199254740992 ≠ Double.nearest 9007199254740994 := by
    decide +kernel
  obtain ⟨-, hresult, -⟩ :=
    scope.evaluate_compare_integers he hl hr hv .number (by decide) (by decide)
  exact ⟨he, hv, happart, hresult (.inr happart) true rfl⟩

/-- Two integers that are not equal and are found to be. -/
theorem evaluate_eq_of_neighbours :
    let scope := ofVariables [("a", .int 9007199254740993), ("b", .int 9007199254740992)]
    (9007199254740993 : Int) ≠ 9007199254740992
      ∧ (scope.evaluate "a == b").toOption.map Value.display = some "true"
      ∧ (scope.evaluate "a - b").toOption.map Value.display = some "1" := by
  decide +kernel

end Scope

end Playbook
