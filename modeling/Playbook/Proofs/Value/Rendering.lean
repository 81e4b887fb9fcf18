import Playbook.Proofs.Document.Values
import Playbook.Proofs.Number.Shortest

/-!
# Values are told apart by their texts

Different values have different texts (`Value.Plain.render_inj`). The reader of JSON shows most of
it: two values with the same text are read as the same document. That leaves the numbers, because a
double is not always read back as it was, and so two of them might be read alike. Their texts differ
all the same: the shortest digits of a double round to no other one (`Double.eq_of_written_eq`), and
an integer has neither a point nor an exponent.

So the statement is shown beside the reader, by induction over the value. In a list or a record
there is more behind a value than the value itself. The reader takes it off: what it leaves is the
same for both texts, so what it has read is too (`Json.render_eq_of_append`).
-/

namespace Playbook

/-! ## Numbers -/

namespace Json

variable {n n' : Numeral} {rest rest' : List Char}

theorem Numeral.StandsFor.decimal_eq {digits : Nat} {exponent : Int}
    (h : n.StandsFor digits exponent) :
    Double.decimal n.digits n.place = Double.decimal digits exponent := by
  obtain ⟨k, hdigits, hplace⟩ := h
  unfold Double.decimal
  rw [hdigits, hplace, zpow_sub₀ (by norm_num), zpow_natCast]
  push_cast
  field_simp

/-- **Numerals with signs are told apart by their texts.** -/
theorem eq_of_written_eq {negative negative' : Bool} (hn : n.WellFormed) (hn' : n'.WellFormed)
    (h : minus negative ++ n.written = minus negative' ++ n'.written) :
    negative = negative' ∧ n = n' := by
  have hread {m : Numeral} (hm : m.WellFormed) : numeral? m.written = some (m, []) := by
    have hread := numeral?_written hm endsNumeral_nil
    rwa [List.append_nil] at hread
  have heq (h : n.written = n'.written) : n = n' := by
    have hboth := hread hn
    rw [h, hread hn'] at hboth
    exact (Prod.ext_iff.mp (Option.some.inj hboth)).1.symm
  -- without a sign the text begins with a digit
  have hdigit {m : Numeral} (hm : m.WellFormed) (us : List Char) : m.written ≠ '-' :: us := by
    obtain ⟨c, cs, hcs, hc⟩ := hm.exists_head
    rw [hcs]
    rintro ⟨⟩
    cases hc
  cases negative with
  | true =>
    cases negative' with
    | true => exact ⟨rfl, heq (List.cons.inj h).2⟩
    | false => exact absurd h.symm (hdigit hn' _)
  | false =>
    cases negative' with
    | true => exact absurd h (hdigit hn _)
    | false => exact ⟨rfl, heq h⟩

/-- The numeral of a double stands for the decimal that is written of it. -/
theorem exists_numeral_written (x : Float) : ∃ n : Numeral, n.WellFormed ∧ n.isWhole = false
    ∧ Double.decimal n.digits n.place = Double.written x
    ∧ (Number.layout.double x).toList = minus (Double.parts x).negative ++ n.written := by
  obtain ⟨n, hn, hwhole, hzero, hstands, htext⟩ := exists_numeral_double x
  refine ⟨n, hn, hwhole, ?_, htext⟩
  by_cases h : (Double.parts x).significand = 0
  · rw [Double.written_of_zero h, hzero h, Double.decimal, Nat.cast_zero, zero_mul]
  · rw [(hstands h).decimal_eq, Double.written, if_neg h]

end Json

/-- **Numbers are told apart by their texts.** -/
theorem Number.render_inj {x y : Number} (h : x.render = y.render) : x = y := by
  have h := congrArg String.toList h
  cases x with
  | int m hm =>
    obtain ⟨n, hn, hwhole, hvalue, htext⟩ := Json.exists_numeral_int m hm
    rw [htext] at h
    cases y with
    | int m' hm' =>
      obtain ⟨n', hn', -, hvalue', htext'⟩ := Json.exists_numeral_int m' hm'
      rw [htext'] at h
      obtain ⟨hsign, rfl⟩ := Json.eq_of_written_eq hn hn' h
      rw [hsign, hvalue'] at hvalue
      exact (Option.some.inj hvalue).symm
    | double y hy =>
      obtain ⟨n', hn', hwhole', -, htext'⟩ := Json.exists_numeral_written y
      obtain ⟨-, rfl⟩ := Json.eq_of_written_eq hn hn' (h.trans htext')
      cases hwhole.symm.trans hwhole'
  | double x hx =>
    obtain ⟨n, hn, hwhole, hwritten, htext⟩ := Json.exists_numeral_written x
    have h := htext.symm.trans h
    cases y with
    | int m' hm' =>
      obtain ⟨n', hn', hwhole', -, htext'⟩ := Json.exists_numeral_int m' hm'
      obtain ⟨-, rfl⟩ := Json.eq_of_written_eq hn hn' (h.trans htext')
      cases hwhole.symm.trans hwhole'
    | double y hy =>
      obtain ⟨n', hn', -, hwritten', htext'⟩ := Json.exists_numeral_written y
      obtain ⟨hsign, rfl⟩ := Json.eq_of_written_eq hn hn' (h.trans htext')
      cases Double.eq_of_written_eq hsign (hwritten.symm.trans hwritten')
      rfl

/-! ## Values -/

namespace Json

open Value (renderItems renderFields)
open Document (reread rereadItems rereadFields)

variable {rest rest' : List Char} {v w : Value}

/-- **Two texts that begin with values** and go on differently are the same only if they are the
same so far and from there on. -/
theorem render_eq_of_append (hr : EndsNumeral rest) (hr' : EndsNumeral rest')
    (h : v.render.toList ++ rest = w.render.toList ++ rest') :
    reread v = reread w ∧ v.render = w.render ∧ rest = rest' := by
  have hread := (readsWritten (max (2 * v.render.length) (2 * w.render.length))).value
  have hv := hread v rest (max v.height w.height) (Nat.le_max_left _ _) (Nat.le_max_left _ _) hr
  have hw := hread w rest' (max v.height w.height) (Nat.le_max_right _ _) (Nat.le_max_right _ _) hr'
  rw [h, hw, Prod.mk.injEq, Option.some.injEq] at hv
  obtain ⟨hdoc, rfl⟩ := hv
  exact ⟨hdoc.symm, String.toList_inj.mp (List.append_cancel_right h), rfl⟩

theorem reread_eq_of_render (h : v.render = w.render) : reread v = reread w :=
  (render_eq_of_append endsNumeral_nil endsNumeral_nil (by rw [h])).1

theorem enclosed_inj {a b s t : String} (h : a ++ s ++ b = a ++ t ++ b) : s = t := by
  have h := congrArg String.toList h
  simp only [String.toList_append] at h
  exact String.toList_inj.mp (List.append_cancel_left (List.append_cancel_right h))

/-- Lists are told apart by their items. -/
theorem items_eq {vs : List Value} (ih : ∀ v ∈ vs, ∀ w, v.render = w.render → v = w)
    {ws : List Value} (hdoc : rereadItems vs = rereadItems ws)
    (h : renderItems vs = renderItems ws) : vs = ws := by
  induction vs generalizing ws with
  | nil =>
    cases ws with
    | nil => rfl
    | cons => cases hdoc
  | cons v vs ihs =>
    obtain ⟨ihv, ih⟩ := List.forall_mem_cons.mp ih
    cases ws with
    | nil => cases hdoc
    | cons w ws =>
      have hdocs : rereadItems vs = rereadItems ws := (List.cons.inj hdoc).2
      cases vs with
      | nil =>
        cases ws with
        | nil => rw [ihv w h]
        | cons => cases hdocs
      | cons v' vs =>
        cases ws with
        | nil => cases hdocs
        | cons w' ws =>
          have h := congrArg String.toList h
          rw [toList_renderItems_cons_cons, toList_renderItems_cons_cons] at h
          obtain ⟨-, hhead, htail⟩ := render_eq_of_append endsNumeral_comma endsNumeral_comma h
          rw [ihv w hhead, ihs ih hdocs (String.toList_inj.mp (List.cons.inj htail).2)]

/-- Records are told apart by their fields. -/
theorem fields_eq {fs : Named Value} (ih : ∀ f ∈ fs, ∀ w, f.2.render = w.render → f.2 = w)
    {gs : Named Value} (hdoc : rereadFields fs = rereadFields gs)
    (h : renderFields fs = renderFields gs) : fs = gs := by
  induction fs generalizing gs with
  | nil =>
    cases gs with
    | nil => rfl
    | cons => cases hdoc
  | cons f fs ihs =>
    obtain ⟨k, v⟩ := f
    obtain ⟨ihv, ih⟩ := List.forall_mem_cons.mp ih
    have ihv : ∀ w, v.render = w.render → v = w := ihv
    cases gs with
    | nil => cases hdoc
    | cons g gs =>
      obtain ⟨k', w⟩ := g
      obtain ⟨hfield, hdocs⟩ := List.cons.inj hdoc
      cases (Prod.ext_iff.mp hfield).1
      have h := congrArg String.toList h
      cases fs with
      | nil =>
        cases gs with
        | nil =>
          rw [toList_renderFields_singleton, toList_renderFields_singleton] at h
          have hvalue := (List.cons.inj (List.append_cancel_left h)).2
          rw [ihv w (String.toList_inj.mp hvalue)]
        | cons => cases hdocs
      | cons f' fs =>
        cases gs with
        | nil => cases hdocs
        | cons g' gs =>
          rw [toList_renderFields_cons_cons, toList_renderFields_cons_cons] at h
          have hvalue := (List.cons.inj (List.append_cancel_left h)).2
          obtain ⟨-, hhead, htail⟩ :=
            render_eq_of_append endsNumeral_comma endsNumeral_comma hvalue
          rw [ihv w hhead, ihs ih hdocs (String.toList_inj.mp (List.cons.inj htail).2)]

end Json

/-- **Values are told apart by their texts.** -/
theorem Value.Plain.render_inj {n : Nat} {v w : Value} (hv : v.Plain n)
    (h : v.render = w.render) : v = w := by
  have hdoc := Json.reread_eq_of_render h
  induction hv generalizing w with
  | null =>
    cases w with
    | null => rfl
    | bool | number | text | list | record => cases hdoc
  | bool =>
    cases w with
    | bool =>
      cases hdoc
      rfl
    | null | number | text | list | record => cases hdoc
  | number =>
    cases w with
    | number => rw [Number.render_inj h]
    | null | bool | text | list | record => cases hdoc
  | text =>
    cases w with
    | text =>
      cases hdoc
      rfl
    | null | bool | number | list | record => cases hdoc
  | list _ ih =>
    cases w with
    | list =>
      have hitems := Json.items_eq (fun v hv w h => ih v hv h (Json.reread_eq_of_render h))
        (Document.list.inj hdoc) (Json.enclosed_inj h)
      rw [hitems]
    | null | bool | number | text | record => cases hdoc
  | record _ _ ih =>
    cases w with
    | record =>
      have hfields := Json.fields_eq (fun f hf w h => ih f hf h (Json.reread_eq_of_render h))
        (Document.record.inj hdoc) (Json.enclosed_inj h)
      rw [hfields]
    | null | bool | number | text | list => cases hdoc

end Playbook
