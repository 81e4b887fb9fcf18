import Playbook.Proofs.Document.Values
import Playbook.Proofs.Number.Order
import Playbook.Proofs.Text.Search

/-!
# Equality with coercion

Two values are equal as numbers if both stand for numbers, else by their texts if one of them is a
text, and else as the values they are. Each of the three ways is an equivalence, but a chain of
equalities may cross from one to another.

Among scalars this does no harm. A number is written as a text that stands for a number
(`Value.isSome_operand?_render`), and neither `null` nor a boolean is, so what is equal to a number
stands for a number itself (`Value.isSome_operand?_of_looseEq`). All other scalars are equal if and
only if their texts are. So the equality of scalars is transitive. That of all values is not: a
record is equal to its own text and to a record with its fields in another order, which has another
text.
-/

namespace Playbook

/-! ## Equality of values -/

namespace Number

theorem same_self (x : Number) : x.same x = true := by
  cases x with
  | int m _ => exact beq_self_eq_true m
  | double x hx => exact Double.beq_self (Double.isNaN_of_isFinite hx)

theorem same_symm {x y : Number} (h : x.same y = true) : y.same x = true := by
  cases x with
  | int m _ =>
    cases y with
    | int n _ => exact beq_iff_eq.mpr (beq_iff_eq.mp h).symm
    | double => cases h
  | double x _ =>
    cases y with
    | int => cases h
    | double y _ => exact Double.beq_symm h

end Number

namespace Value

variable {n m : Nat} {u v w : Value}

theorem sameItems_iff {xs ys : List Value} :
    sameItems xs ys = true ↔ List.Forall₂ (fun v w => same v w = true) xs ys := by
  induction xs generalizing ys with
  | nil =>
    cases ys with
    | nil => exact iff_of_true rfl .nil
    | cons y ys => exact iff_of_false nofun nofun
  | cons x xs ih =>
    cases ys with
    | nil => exact iff_of_false nofun nofun
    | cons y ys => rw [sameItems, Bool.and_eq_true, ih, List.forall₂_cons]

theorem sameFields_iff {fs gs : Named Value} :
    sameFields fs gs = true ↔ ∀ f ∈ fs, ∃ w, gs.lookup f.1 = some w ∧ same f.2 w = true := by
  induction fs with
  | nil => exact iff_of_true rfl nofun
  | cons f fs ih =>
    obtain ⟨k, v⟩ := f
    rw [sameFields, Bool.and_eq_true, ih, List.forall_mem_cons]
    refine and_congr_left fun _ => ?_
    cases gs.lookup k with
    | none => simp
    | some w => simp

/-- **A value is equal to itself.** -/
theorem Plain.same_self (h : v.Plain n) : v.same v = true := by
  induction h with
  | null => rfl
  | bool => exact beq_self_eq_true _
  | number => exact Number.same_self _
  | text => exact beq_self_eq_true _
  | list _ ih => exact sameItems_iff.mpr (List.forall₂_same.mpr ih)
  | record hn _ ih =>
    rw [same, Bool.and_eq_true]
    exact ⟨beq_self_eq_true _,
      sameFields_iff.mpr fun f hf => ⟨f.2, Named.lookup_of_mem hn hf, ih f hf⟩⟩

/-- As many names that are all among others are the same names. -/
theorem names_subset {α β : Type} {fs : Named α} {gs : Named β} (hn : fs.names.Nodup)
    (hlen : fs.length = gs.length) (h : fs.names ⊆ gs.names) : gs.names ⊆ fs.names := by
  have hperm : fs.names.Perm gs.names :=
    (List.subperm_of_subset hn h).perm_of_length_le (by simp [Named.names, hlen])
  exact hperm.symm.subset

/-- **Equality goes both ways**, although only the fields on the left are looked up on the right:
where each name stands once, they are all of them. -/
theorem Plain.same_symm (hv : v.Plain n) (hw : w.Plain m) (h : v.same w = true) :
    w.same v = true := by
  induction hv generalizing w m with
  | null | bool | text =>
    cases hw with
    | null | bool | text =>
      first
      | cases h; done
      | exact beq_iff_eq.mpr (beq_iff_eq.mp h).symm
      | rfl
    | number | list | record => cases h
  | number =>
    cases hw with
    | number => exact Number.same_symm h
    | null | bool | text | list | record => cases h
  | list _ ih =>
    cases hw with
    | list hw =>
      rw [same, sameItems_iff] at h ⊢
      have hleft := (List.forall₂_and_left _ _).mpr ⟨fun v hv => @ih v hv, h⟩
      have hboth := (List.forall₂_and_left _ _).mpr ⟨hw, hleft.flip⟩
      exact hboth.imp fun _ _ ⟨hw, hsymm, hsame⟩ => hsymm hw hsame
    | null | bool | text | number | record => cases h
  | record hn _ ih =>
    cases hw with
    | record hn' hw =>
      rw [same, Bool.and_eq_true, sameFields_iff] at h ⊢
      obtain ⟨hlen, h⟩ := h
      refine ⟨beq_iff_eq.mpr (beq_iff_eq.mp hlen).symm, fun g hg => ?_⟩
      have hback := names_subset hn (beq_iff_eq.mp hlen) fun k hk => by
        obtain ⟨f, hf, rfl⟩ := List.mem_map.mp hk
        obtain ⟨w, hl, -⟩ := h f hf
        exact List.mem_map.mpr ⟨_, Named.mem_of_lookup hl, rfl⟩
      obtain ⟨f, hf, hname⟩ := List.mem_map.mp (hback (List.mem_map_of_mem hg))
      obtain ⟨w, hl, hsame⟩ := h f hf
      have hgl := Named.lookup_of_mem hn' hg
      rw [hname, hgl] at hl
      cases hl
      exact ⟨f.2, hname ▸ Named.lookup_of_mem hn hf, ih f hf (hw g hg) hsame⟩
    | null | bool | text | number | list => cases h

end Value

/-! ## Numbers as texts -/

namespace Json

variable {n : Numeral}

theorem isSome_unsignedDouble?_written (h : n.WellFormed) :
    (Playbook.Numeral.unsignedDouble? n.written).isSome = true := by
  unfold Playbook.Numeral.unsignedDouble?
  dsimp only
  split
  · rfl
  · split
    · rfl
    · rw [decimal?_written h]
      rfl

theorem isSome_double?_written (negative : Bool) (h : n.WellFormed) :
    (Playbook.Numeral.double? (minus negative ++ n.written)).isSome = true := by
  have hread := isSome_unsignedDouble?_written h
  cases negative with
  | true =>
    show ((Playbook.Numeral.unsignedDouble? n.written).map fun x => -x).isSome = true
    rwa [Option.isSome_map]
  | false =>
    obtain ⟨c, us, hus, hdigit⟩ := h.exists_head
    show (Playbook.Numeral.double? n.written).isSome = true
    unfold Playbook.Numeral.double?
    split
    · rename_i htext
      rw [hus] at htext
      cases htext
      cases hdigit
    · rename_i htext
      rw [hus] at htext
      cases htext
      cases hdigit
    · exact hread

end Json

namespace Value

variable {u v w : Value}

theorem not_isBlank_of_numeral {c : Char}
    (h : c.isDigit = true ∨ c ∈ ['.', '-', '+', 'e', 'E']) : Text.isBlank c = false := by
  obtain h | h := h
  · exact Text.isBlank_of_isDigit h
  · simp only [List.mem_cons, List.not_mem_nil, or_false] at h
    obtain rfl | rfl | rfl | rfl | rfl := h <;> rfl

/-- **The text of a number stands for a number.** -/
theorem isSome_operand?_render (x : Number) : (text x.render).operand?.isSome = true := by
  obtain ⟨negative, n, hn, htext, -⟩ := Json.exists_numeral x
  have hchars : ∀ c ∈ Json.minus negative ++ n.written,
      c.isDigit = true ∨ c ∈ ['.', '-', '+', 'e', 'E'] := by
    intro c hc
    obtain hc | hc := List.mem_append.mp hc
    · cases negative with
      | true =>
        obtain rfl := List.mem_singleton.mp hc
        exact .inr (by decide)
      | false => cases hc
    · exact hn.isDigit_or hc
  obtain ⟨d, us, hus, hdigit⟩ := hn.exists_head
  have hmem : d ∈ Json.minus negative ++ n.written :=
    List.mem_append_right _ (hus ▸ List.mem_cons_self)
  have htrim : Text.trim x.render.toList = Json.minus negative ++ n.written := by
    have hnil : ∀ c ∈ ([] : List Char), Text.isBlank c = true := nofun
    have h := Text.trim_of_blanks hnil hnil (List.ne_nil_of_mem hmem)
      fun c hc => not_isBlank_of_numeral (hchars c hc)
    rw [List.nil_append, List.append_nil] at h
    rw [htext, h]
  have hlooks : looksNumeric (Json.minus negative ++ n.written) = true := by
    rw [looksNumeric, Bool.and_eq_true, List.any_eq_true, List.all_eq_true]
    exact ⟨⟨d, hmem, hdigit⟩, fun c hc => by simpa using hchars c hc⟩
  unfold operand?
  dsimp only
  rw [htrim, if_pos hlooks]
  split
  · rfl
  · rw [Option.isSome_map]
    exact Json.isSome_double?_written negative hn

/-! ## The three ways of comparing -/

/-- Whether both of two values take part in arithmetic. -/
def Numeric (v w : Value) : Prop := v.operand?.isSome = true ∧ w.operand?.isSome = true

/-- A value that is not a text. -/
def isText : Value → Bool
  | .text _ => true
  | _ => false

theorem looseEq_of_operands {a b : Operand} (hv : v.operand? = some a) (hw : w.operand? = some b) :
    v.looseEq w = (a.toFloat == b.toFloat) := by
  unfold looseEq
  rw [hv, hw]

theorem looseEq_of_text (h : ¬ Numeric v w) (ht : v.isText = true ∨ w.isText = true) :
    v.looseEq w = (v.display == w.display) := by
  unfold looseEq
  split
  · rename_i hv hw
    exact absurd ⟨hv ▸ rfl, hw ▸ rfl⟩ h
  · split
    · rfl
    · rfl
    · rename_i hv hw
      exfalso
      obtain ht | ht := ht
      · cases v with
        | text s => exact hv s rfl
        | null | bool | number | list | record => cases ht
      · cases w with
        | text s => exact hw s rfl
        | null | bool | number | list | record => cases ht

theorem looseEq_of_not_text (h : ¬ Numeric v w) (hv : v.isText = false) (hw : w.isText = false) :
    v.looseEq w = v.same w := by
  unfold looseEq
  split
  · rename_i hv hw
    exact absurd ⟨hv ▸ rfl, hw ▸ rfl⟩ h
  · split
    · cases hv
    · cases hw
    · rfl

/-- **The way in which two values are compared.** -/
inductive Route (v w : Value) : Prop
  | numbers {a b : Operand} (hv : v.operand? = some a) (hw : w.operand? = some b)
  | texts (h : ¬ Numeric v w) (ht : v.isText = true ∨ w.isText = true)
  | values (h : ¬ Numeric v w) (hv : v.isText = false) (hw : w.isText = false)

theorem route (v w : Value) : Route v w := by
  by_cases hnum : Numeric v w
  · obtain ⟨a, ha⟩ := Option.isSome_iff_exists.mp hnum.1
    obtain ⟨b, hb⟩ := Option.isSome_iff_exists.mp hnum.2
    exact .numbers ha hb
  by_cases ht : v.isText = true ∨ w.isText = true
  · exact .texts hnum ht
  · rw [not_or, Bool.not_eq_true, Bool.not_eq_true] at ht
    exact .values hnum ht.1 ht.2

/-- **Every value is equal to itself.** -/
theorem Plain.looseEq_self {n : Nat} (h : v.Plain n) : v.looseEq v = true := by
  cases route v v with
  | numbers ha _ =>
    rw [looseEq_of_operands ha ha]
    exact Double.beq_self (isNaN_of_operand? ha)
  | texts hnum ht =>
    rw [looseEq_of_text hnum ht]
    exact beq_self_eq_true _
  | values hnum ht _ =>
    rw [looseEq_of_not_text hnum ht ht]
    exact h.same_self

/-- **Equality with coercion goes both ways.** -/
theorem Plain.looseEq_symm {n m : Nat} (hv : v.Plain n) (hw : w.Plain m)
    (h : v.looseEq w = true) : w.looseEq v = true := by
  cases route v w with
  | numbers ha hb =>
    rw [looseEq_of_operands ha hb] at h
    rw [looseEq_of_operands hb ha]
    exact Double.beq_symm h
  | texts hnum ht =>
    rw [looseEq_of_text hnum ht] at h
    rw [looseEq_of_text (fun h => hnum h.symm) ht.symm]
    exact beq_iff_eq.mpr (beq_iff_eq.mp h).symm
  | values hnum ht ht' =>
    rw [looseEq_of_not_text hnum ht ht'] at h
    rw [looseEq_of_not_text (fun h => hnum h.symm) ht' ht]
    exact hv.same_symm hw h

/-! ## Scalars -/

/-- Whether a value is neither a list nor a record. -/
def isScalar : Value → Bool
  | .list _ => false
  | .record _ => false
  | _ => true

theorem plain_of_isScalar (h : v.isScalar = true) : v.Plain 0 := by
  cases v with
  | null => exact .null
  | bool => exact .bool
  | number => exact .number
  | text => exact .text
  | list | record => cases h

theorem isSome_operand?_number (x : Number) : (number x).operand?.isSome = true := by
  unfold operand?
  dsimp only
  split <;> rfl

theorem operand?_number_ne_none (x : Number) : (number x).operand? ≠ none :=
  Option.isSome_iff_ne_none.mp (isSome_operand?_number x)

/-- The texts of `null` and of booleans do not look like numbers. -/
theorem operand?_display (h : v.isScalar = true) (hv : v.operand? = none) :
    (text v.display).operand? = none := by
  cases v with
  | null => rfl
  | bool b => cases b <;> rfl
  | number x => exact absurd hv (operand?_number_ne_none x)
  | text => exact hv
  | list | record => cases h

/-- And the text of a number does. -/
theorem isSome_operand?_display (h : v.operand?.isSome = true) :
    (text v.display).operand?.isSome = true := by
  cases v with
  | null | bool | list | record => cases h
  | number x => exact isSome_operand?_render x
  | text => exact h

/-- **Scalars that stand for no numbers** are equal if their texts are. -/
theorem looseEq_of_scalar (hv : v.isScalar = true) (hw : w.isScalar = true)
    (h : v.operand? = none) (h' : w.operand? = none) :
    v.looseEq w = (v.display == w.display) := by
  cases route v w with
  | numbers ha _ => cases h.symm.trans ha
  | texts hnum ht => exact looseEq_of_text hnum ht
  | values hnum ht ht' =>
    rw [looseEq_of_not_text hnum ht ht']
    cases v with
    | number x => exact absurd h (operand?_number_ne_none x)
    | text => cases ht
    | list | record => cases hv
    | null =>
      cases w with
      | number y => exact absurd h' (operand?_number_ne_none y)
      | text => cases ht'
      | list | record => cases hw
      | null => rfl
      | bool b => cases b <;> rfl
    | bool a =>
      cases w with
      | number y => exact absurd h' (operand?_number_ne_none y)
      | text => cases ht'
      | list | record => cases hw
      | null => cases a <;> rfl
      | bool b => cases a <;> cases b <;> rfl

/-- **What is equal to a number stands for one.** -/
theorem isSome_operand?_of_looseEq (hv : v.isScalar = true) (hw : w.isScalar = true)
    (h : v.looseEq w = true) (hsome : v.operand?.isSome = true) : w.operand?.isSome = true := by
  by_contra hnone
  rw [Bool.not_eq_true, Option.isSome_eq_false_iff, Option.isNone_iff_eq_none] at hnone
  cases route v w with
  | numbers _ hb => cases hnone.symm.trans hb
  | texts hnum ht =>
    rw [looseEq_of_text hnum ht] at h
    have hdisplay := isSome_operand?_display hsome
    rw [beq_iff_eq.mp h, operand?_display hw hnone] at hdisplay
    cases hdisplay
  | values hnum ht ht' =>
    rw [looseEq_of_not_text hnum ht ht'] at h
    cases v with
    | null | bool | list | record => cases hsome
    | text => cases ht
    | number x =>
      cases w with
      | null | bool | text | list | record => cases h
      | number y => exact operand?_number_ne_none y hnone

/-- **Equality of scalars is transitive**, whichever of the three ways leads from one to the
next. -/
theorem looseEq_trans (hu : u.isScalar = true) (hv : v.isScalar = true) (hw : w.isScalar = true)
    (h : u.looseEq v = true) (h' : v.looseEq w = true) : u.looseEq w = true := by
  cases hb : v.operand? with
  | some b =>
    have hsome : v.operand?.isSome = true := hb ▸ rfl
    have hback := (plain_of_isScalar hu).looseEq_symm (plain_of_isScalar hv) h
    obtain ⟨a, ha⟩ := Option.isSome_iff_exists.mp (isSome_operand?_of_looseEq hv hu hback hsome)
    obtain ⟨c, hc⟩ := Option.isSome_iff_exists.mp (isSome_operand?_of_looseEq hv hw h' hsome)
    rw [looseEq_of_operands ha hb] at h
    rw [looseEq_of_operands hb hc] at h'
    rw [looseEq_of_operands ha hc]
    exact Double.beq_trans h h'
  | none =>
    have hnone {x : Value} (hx : x.isScalar = true) (heq : x.looseEq v = true) :
        x.operand? = none := by
      by_contra hne
      have hsome := isSome_operand?_of_looseEq hx hv heq (Option.isSome_iff_ne_none.mpr hne)
      rw [hb] at hsome
      cases hsome
    have ha := hnone hu h
    have hc := hnone hw ((plain_of_isScalar hv).looseEq_symm (plain_of_isScalar hw) h')
    rw [looseEq_of_scalar hu hv ha hb] at h
    rw [looseEq_of_scalar hv hw hb hc] at h'
    rw [looseEq_of_scalar hu hw ha hc]
    exact beq_iff_eq.mpr ((beq_iff_eq.mp h).trans (beq_iff_eq.mp h'))

/-- **Equality with coercion is an equivalence of scalars**, and reflexive and symmetric on all
values. -/
theorem looseEq_refl_symm_trans :
    (∀ n v, Plain n v → v.looseEq v = true)
      ∧ (∀ n m v w, Plain n v → Plain m w → v.looseEq w = w.looseEq v)
      ∧ ∀ u v w, isScalar u = true → isScalar v = true → isScalar w = true →
        u.looseEq v = true → v.looseEq w = true → u.looseEq w = true := by
  refine ⟨fun n v hv => hv.looseEq_self, fun n m v w hv hw => ?_, fun u v w => looseEq_trans⟩
  rw [Bool.eq_iff_iff]
  exact ⟨hv.looseEq_symm hw, hw.looseEq_symm hv⟩

/-- A record is equal to itself, a number to a text with blanks from either side, and from there to
another text. -/
theorem looseEq_record_number :
    let point := record [("x", .int 1), ("y", .list [.null])]
    point.looseEq point = true
      ∧ (int 1).looseEq (text " 1.0 ") = (text " 1.0 ").looseEq (int 1)
      ∧ (int 1).looseEq (text " 1.0 ") = true ∧ (text " 1.0 ").looseEq (text "+01") = true
      ∧ (int 1).looseEq (text "+01") = true := by
  intro point
  obtain ⟨hself, hsymm, htrans⟩ := looseEq_refl_symm_trans
  have hitems : ∀ v ∈ [Value.null], Plain 0 v := List.forall_mem_singleton.mpr .null
  have hpoint : point.Plain 2 := .record (by decide) fun f hf => by
    obtain rfl | hf := List.mem_cons.mp hf
    · exact .number
    · exact List.mem_singleton.mp hf ▸ .list hitems
  have hleft : (int 1).looseEq (text " 1.0 ") = true := by decide +kernel
  have hright : (text " 1.0 ").looseEq (text "+01") = true := by decide +kernel
  exact ⟨hself 2 point hpoint, hsymm 0 0 _ _ .number .text, hleft, hright,
    htrans _ _ _ rfl rfl rfl hleft hright⟩

/-- From a text to a record and on to another record there may be no such step. -/
example :
    let written := text "\x7b\"x\":1,\"y\":2\x7d"
    let fields := record [("x", .int 1), ("y", .int 2)]
    let turned := record [("y", .int 2), ("x", .int 1)]
    written.looseEq fields = true ∧ fields.looseEq turned = true
      ∧ written.looseEq turned = false := by
  decide +kernel

end Value

end Playbook
