import Playbook.Proofs.Document.Numerals
import Playbook.Proofs.Value.Fields

/-!
# Values that are written and read again

The text that is written of a value is a JSON document, and the reader gets back from it all of the
value but the numbers: each number is what the reader makes of that number's own text
(`Document.reread`, `Number.reread`). So strings come back as they were, because every character is
read back from its escaped form (`Json.stringTail_quoted`), and so do integers (`Json.reread_int`).

`Document.ofJson_render` is the statement for a whole text. The reader goes 127 levels deep, so it
is about values that are not higher than that.
-/

namespace Playbook

namespace Json

variable {c : Char} {acc rest : List Char}

/-! ## Strings -/

theorem stringTail_backslash {e : Char} (he : escapedChar? c = some e) (hu : c ≠ 'u') :
    stringTail (some acc) ('\\' :: c :: rest) = stringTail (some (e :: acc)) rest := by
  rw [stringTail, he]
  · rfl
  · exact fun _ _ _ _ _ _ _ _ _ h => (hu h).elim
  · exact fun _ _ _ _ _ h => (hu h).elim

theorem stringTail_plain (hq : c ≠ '"') (hb : c ≠ '\\') (hc : ¬ c.toNat < 32) :
    stringTail (some acc) (c :: rest) = stringTail (some (c :: acc)) rest := by
  rw [stringTail, if_neg hc]
  · rfl
  · exact hq
  · exact fun _ _ _ _ _ _ _ _ _ h => (hb h).elim
  · exact fun _ _ _ _ _ h => (hb h).elim
  · exact fun _ _ h => (hb h).elim

theorem stringTail_unit {a b c d : Char} {n : Nat} (hn : hex4? a b c d = some n) (hlow : n < 32) :
    stringTail (some acc) ('\\' :: 'u' :: a :: b :: c :: d :: rest)
      = stringTail (some (Char.ofNat n :: acc)) rest := by
  have hlead : isLead n = false := by
    rw [isLead, Bool.and_eq_false_iff, decide_eq_false_iff_not]
    exact .inl (by omega)
  have htrail : isTrail n = false := by
    rw [isTrail, Bool.and_eq_false_iff, decide_eq_false_iff_not]
    exact .inl (by omega)
  by_cases hrest : ∃ a' b' c' d' rest', rest = '\\' :: 'u' :: a' :: b' :: c' :: d' :: rest'
  · obtain ⟨a', b', c', d', rest', rfl⟩ := hrest
    rw [stringTail, hn]
    dsimp only
    rw [hlead, htrail]
    rfl
  · rw [stringTail, hn]
    · dsimp only
      rw [hlead, htrail]
      rfl
    · rintro a' b' c' d' rest' rfl
      exact hrest ⟨_, _, _, _, _, rfl⟩

/-- **A character is read back from its escaped form.** -/
theorem stringTail_escaped (c : Char) (acc rest : List Char) :
    stringTail (some acc) (Text.escaped c ++ rest) = stringTail (some (c :: acc)) rest := by
  have hcode : ∀ n, c.toNat = n → Char.ofNat n = c := fun n hn => hn ▸ Char.ofNat_toNat c
  unfold Text.escaped
  split
  · rename_i h
    subst h
    exact stringTail_backslash rfl (by decide)
  split
  · rename_i h
    subst h
    exact stringTail_backslash rfl (by decide)
  split
  · rename_i h
    subst h
    exact stringTail_backslash rfl (by decide)
  split
  · rename_i h
    subst h
    exact stringTail_backslash rfl (by decide)
  split
  · rename_i h
    subst h
    exact stringTail_backslash rfl (by decide)
  split
  · rename_i h
    exact stringTail_backslash (hcode 8 h ▸ rfl) (by decide)
  split
  · rename_i h
    exact stringTail_backslash (hcode 12 h ▸ rfl) (by decide)
  split
  · rename_i h
    have hdigit : ∀ d, d < 16 → Text.hexValue? (Text.hexDigit d) = some d := by decide
    have hhex : hex4? '0' '0' (Text.hexDigit (c.toNat / 16)) (Text.hexDigit (c.toNat % 16))
        = some c.toNat := by
      unfold hex4?
      rw [hdigit _ (by omega), hdigit _ (by omega)]
      show some _ = _
      congr 1
      show ((0 * 16 + 0) * 16 + c.toNat / 16) * 16 + c.toNat % 16 = c.toNat
      omega
    exact (stringTail_unit hhex h).trans (by rw [hcode _ rfl]; rfl)
  · rename_i hq hb _ _ _ _ _ hc
    exact stringTail_plain hq hb hc

/-- **A string is read back from between its quotes.** -/
theorem stringTail_quoted (cs acc rest : List Char) :
    stringTail (some acc) (cs.flatMap Text.escaped ++ '"' :: rest)
      = some (some (String.ofList (acc.reverse ++ cs)), rest) := by
  induction cs generalizing acc with
  | nil =>
    rw [List.flatMap_nil, List.nil_append, List.append_nil]
    rfl
  | cons c cs ih =>
    rw [List.flatMap_cons, List.append_assoc, stringTail_escaped, ih, List.reverse_cons,
      List.append_assoc]
    rfl

theorem toList_quoted (s : String) :
    (Text.quoted s).toList = '"' :: (s.toList.flatMap Text.escaped ++ ['"']) := by
  rw [Text.quoted, String.toList_ofList]

/-! ## Numbers -/

theorem skip_of_not_blank (h : isBlank c = false) : skip (c :: rest) = c :: rest :=
  List.dropWhile_cons_of_neg (by rw [h]; exact nofun)

theorem value_digit {fuel depth : Nat} {n : Numeral} {cs : List Char} (hc : c.isDigit = true)
    (hn : numeral? (c :: cs) = some (n, rest)) :
    value (fuel + 1) depth (c :: cs) = (.number (n.value? false), some rest) := by
  have hne : ∀ d : Char, d.isDigit = false → c ≠ d := by
    rintro d hd rfl
    rw [hd] at hc
    cases hc
  have hskip : skip (c :: cs) = c :: cs := by
    refine skip_of_not_blank ?_
    simp only [isBlank, Bool.or_eq_false_iff, beq_eq_false_iff_ne]
    exact ⟨⟨⟨hne _ rfl, hne _ rfl⟩, hne _ rfl⟩, hne _ rfl⟩
  rw [value, hskip]
  split
  · rename_i h
    exact (hne _ rfl (List.cons.inj h).1).elim
  · rename_i h
    exact (hne _ rfl (List.cons.inj h).1).elim
  · rename_i h
    exact (hne _ rfl (List.cons.inj h).1).elim
  · rename_i h
    exact (hne _ rfl (List.cons.inj h).1).elim
  · rename_i h
    exact (hne _ rfl (List.cons.inj h).1).elim
  · rename_i h
    exact (hne _ rfl (List.cons.inj h).1).elim
  · rename_i h
    exact (hne _ rfl (List.cons.inj h).1).elim
  · rw [hn]

/-- Reads a number behind its sign. -/
def numberPart (negative : Bool) (cs : List Char) : Reading :=
  match numeral? cs with
  | some (n, rest) => (.number (n.value? negative), some rest)
  | none => (.broken, none)

theorem value_minus {fuel depth : Nat} (cs : List Char) :
    value (fuel + 1) depth ('-' :: cs) = numberPart true cs := rfl

/-- **A number that is written with a numeral** is read as what the numeral stands for. -/
theorem value_numeral {fuel depth : Nat} {n : Numeral} (negative : Bool) (hn : n.WellFormed)
    (hr : EndsNumeral rest) : value (fuel + 1) depth (minus negative ++ n.written ++ rest)
      = (.number (n.value? negative), some rest) := by
  have hread := numeral?_written hn hr
  cases negative with
  | true =>
    have htext : minus true ++ n.written ++ rest = '-' :: (n.written ++ rest) := rfl
    rw [htext, value_minus, numberPart, hread]
  | false =>
    show value (fuel + 1) depth (n.written ++ rest) = _
    obtain ⟨c, us, hus, hdigit⟩ := hn.exists_head
    rw [hus, List.cons_append] at hread ⊢
    exact value_digit hdigit hread

end Json

/-- What is read for a number in JSON. `none` if its text is beyond the range of doubles. -/
def Number.reread (x : Number) : Option Number :=
  match (Document.ofJson x.render).1 with
  | .number n => n
  | _ => none

namespace Json

variable {rest : List Char} {fuel depth : Nat}

theorem endsNumeral_nil : EndsNumeral [] := nofun

/-- What is read for a number is what its numeral stands for. -/
theorem reread_eq {x : Number} {negative : Bool} {n : Numeral} (hn : n.WellFormed)
    (htext : x.render.toList = minus negative ++ n.written) : x.reread = n.value? negative := by
  unfold Number.reread Document.ofJson
  dsimp only
  rw [← List.append_nil x.render.toList, htext]
  rw [value_numeral negative hn endsNumeral_nil]

/-- **The number in a text does not depend on what is around it.** -/
theorem value_number (x : Number) (hr : EndsNumeral rest) :
    value (fuel + 1) depth (x.render.toList ++ rest) = (.number x.reread, some rest) := by
  obtain ⟨negative, n, hn, htext, -⟩ := exists_numeral x
  rw [reread_eq hn htext, htext, value_numeral negative hn hr]

/-- **An integer is read back.** -/
theorem reread_int {m : Int} (h : Word.Fits m) : (Number.int m h).reread = some (.int m h) := by
  obtain ⟨negative, n, hn, htext, hint⟩ := exists_numeral (.int m h)
  exact (reread_eq hn htext).trans (hint m h rfl)

end Json

namespace Document

mutual

/-- What is read for a value in JSON: the value, with each number as it is read. -/
def reread (v : Value) : Document :=
  match v with
  | .null => .null
  | .bool b => .bool b
  | .number x => .number x.reread
  | .text s => .text (some s)
  | .list items => .list (rereadItems items)
  | .record fields => .record (rereadFields fields)
termination_by structural v

/-- What is read for the items of a list. -/
def rereadItems (items : List Value) : List Document :=
  match items with
  | [] => []
  | v :: rest => reread v :: rereadItems rest
termination_by structural items

/-- What is read for the fields of a record. -/
def rereadFields (fields : List (String × Value)) : List (Option String × Document) :=
  match fields with
  | [] => []
  | (k, v) :: rest => (some k, reread v) :: rereadFields rest
termination_by structural fields

end

end Document

namespace Json

open Value (renderItems renderFields heightItems heightFields)
open Document (reread rereadItems rereadFields)

variable {rest : List Char} {fuel depth : Nat}

/-! ## Values -/

theorem endsNumeral_comma : EndsNumeral (',' :: rest) := by
  rintro _ _ ⟨⟩
  decide

theorem endsNumeral_bracket : EndsNumeral (']' :: rest) := by
  rintro _ _ ⟨⟩
  decide

theorem endsNumeral_brace : EndsNumeral ('\x7d' :: rest) := by
  rintro _ _ ⟨⟩
  decide

/-- Reads a string behind its opening quote. -/
def textPart (cs : List Char) : Reading :=
  match stringTail (some []) cs with
  | some (s, rest) => (.text s, some rest)
  | none => (.broken, none)

theorem value_quote (cs : List Char) : value (fuel + 1) depth ('"' :: cs) = textPart cs := rfl

theorem value_quoted (s : String) :
    value (fuel + 1) depth ((Text.quoted s).toList ++ rest) = (.text (some s), some rest) := by
  have htail := stringTail_quoted s.toList [] rest
  rw [List.reverse_nil, List.nil_append, String.ofList_toList] at htail
  rw [toList_quoted, List.cons_append, List.append_assoc, List.singleton_append, value_quote,
    textPart, htail]

/-- The first character of a value's text is no blank, and no bracket that closes a list. -/
theorem render_head (v : Value) :
    ∃ c cs, v.render.toList = c :: cs ∧ isBlank c = false ∧ c ≠ ']' := by
  cases v with
  | null => exact ⟨'n', _, rfl, by decide⟩
  | bool b => cases b <;> exact ⟨_, _, rfl, by decide⟩
  | number x =>
    obtain ⟨negative, n, hn, htext, -⟩ := exists_numeral x
    rw [Value.render, htext]
    cases negative with
    | true => exact ⟨'-', n.written, rfl, by decide⟩
    | false =>
      obtain ⟨c, us, hus, hdigit⟩ := hn.exists_head
      have hne : ∀ d : Char, d.isDigit = false → c ≠ d := by
        rintro d hd rfl
        rw [hd] at hdigit
        cases hdigit
      refine ⟨c, us, hus, ?_, hne _ rfl⟩
      simp only [isBlank, Bool.or_eq_false_iff, beq_eq_false_iff_ne]
      exact ⟨⟨⟨hne _ rfl, hne _ rfl⟩, hne _ rfl⟩, hne _ rfl⟩
  | text s => exact ⟨'"', _, toList_quoted s, by decide⟩
  | list items =>
    rw [Value.render, String.toList_append, String.toList_append]
    exact ⟨'[', _, rfl, by decide⟩
  | record fields =>
    rw [Value.render, String.toList_append, String.toList_append]
    exact ⟨'\x7b', _, rfl, by decide⟩

theorem length_render_pos (v : Value) : 0 < v.render.length := by
  obtain ⟨c, cs, hcs, -⟩ := render_head v
  rw [← String.length_toList, hcs]
  exact Nat.succ_pos _

theorem renderItems_cons_cons (v w : Value) (rest : List Value) :
    renderItems (v :: w :: rest) = v.render ++ "," ++ renderItems (w :: rest) := by
  rw [renderItems]
  exact nofun

theorem renderFields_cons_cons (k : String) (v : Value) (field : String × Value)
    (rest : List (String × Value)) : renderFields ((k, v) :: field :: rest)
      = Text.quoted k ++ ":" ++ v.render ++ "," ++ renderFields (field :: rest) := by
  rw [renderFields]
  exact nofun

theorem toList_renderItems_cons_cons (v w : Value) (rest : List Value) :
    (renderItems (v :: w :: rest)).toList
      = v.render.toList ++ ',' :: (renderItems (w :: rest)).toList := by
  rw [renderItems_cons_cons, String.toList_append, String.toList_append, List.append_assoc]
  rfl

theorem length_renderItems_cons_cons (v w : Value) (rest : List Value) :
    (renderItems (v :: w :: rest)).length
      = v.render.length + (renderItems (w :: rest)).length + 1 := by
  rw [renderItems_cons_cons, String.length_append, String.length_append]
  have hcomma : ",".length = 1 := rfl
  omega

theorem toList_renderFields_singleton (k : String) (v : Value) :
    (renderFields [(k, v)]).toList = (Text.quoted k).toList ++ ':' :: v.render.toList := by
  rw [renderFields, String.toList_append, String.toList_append, List.append_assoc]
  rfl

theorem toList_renderFields_cons_cons (k : String) (v : Value) (field : String × Value)
    (rest : List (String × Value)) : (renderFields ((k, v) :: field :: rest)).toList
      = (Text.quoted k).toList
        ++ ':' :: (v.render.toList ++ ',' :: (renderFields (field :: rest)).toList) := by
  rw [renderFields_cons_cons, String.toList_append, String.toList_append, String.toList_append,
    String.toList_append, List.append_assoc, List.append_assoc, List.append_assoc]
  rfl

theorem length_renderFields_cons_cons (k : String) (v : Value) (field : String × Value)
    (rest : List (String × Value)) : v.render.length + (renderFields (field :: rest)).length + 1
      ≤ (renderFields ((k, v) :: field :: rest)).length := by
  rw [renderFields_cons_cons]
  simp only [String.length_append]
  have hcomma : ",".length = 1 := rfl
  omega

theorem renderItems_head {items : List Value} (h : items ≠ []) :
    ∃ c cs, (renderItems items).toList = c :: cs ∧ isBlank c = false ∧ c ≠ ']' := by
  match items with
  | [] => exact (h rfl).elim
  | [v] => exact render_head v
  | v :: w :: rest =>
    obtain ⟨c, cs, hcs, hc⟩ := render_head v
    rw [renderItems_cons_cons, String.toList_append, String.toList_append, hcs]
    exact ⟨c, _, rfl, hc⟩

theorem renderFields_head {fields : List (String × Value)} (h : fields ≠ []) :
    ∃ cs, (renderFields fields).toList = '"' :: cs := by
  match fields with
  | [] => exact (h rfl).elim
  | [(k, v)] =>
    rw [renderFields, String.toList_append, String.toList_append, toList_quoted]
    exact ⟨_, rfl⟩
  | (k, v) :: field :: rest =>
    rw [renderFields_cons_cons, String.toList_append, String.toList_append, String.toList_append,
      String.toList_append, toList_quoted]
    exact ⟨_, rfl⟩

theorem length_enclosed (a b s : String) (ha : a.length = 1) (hb : b.length = 1) :
    (a ++ s ++ b).length = s.length + 2 := by
  rw [String.length_append, String.length_append, ha, hb]
  omega

/-- Reads a list behind its opening bracket. -/
def listPart (fuel depth : Nat) (cs : List Char) : Reading :=
  match skip cs with
  | ']' :: rest => (.list [], some rest)
  | rest => (.list (items fuel depth rest).1, (items fuel depth rest).2)

theorem value_bracket (cs : List Char) :
    value (fuel + 1) (depth + 1) ('[' :: cs) = listPart fuel depth cs := rfl

/-- A list that is not empty is read item by item. -/
theorem value_list {c : Char} {cs : List Char} (hb : isBlank c = false) (hc : c ≠ ']') :
    value (fuel + 1) (depth + 1) ('[' :: c :: cs)
      = (.list (items fuel depth (c :: cs)).1, (items fuel depth (c :: cs)).2) := by
  rw [value_bracket, listPart, skip_of_not_blank hb]
  split
  · rename_i h
    exact (hc (List.cons.inj h).1).elim
  · rfl

/-- A record that is not empty is read field by field. -/
theorem value_record {cs : List Char} :
    value (fuel + 1) (depth + 1) ('\x7b' :: '"' :: cs)
      = (.record (fields fuel depth ('"' :: cs)).1, (fields fuel depth ('"' :: cs)).2) := rfl

/-- Behind an item the list is closed, or a comma leads to the next one. -/
theorem items_of_value {v : Document} {cs behind : List Char}
    (hv : value fuel depth cs = (v, some behind)) :
    (∀ rest, behind = ']' :: rest → items (fuel + 1) depth cs = ([v], some rest))
    ∧ ∀ rest, behind = ',' :: rest → items (fuel + 1) depth cs
      = (v :: (items fuel depth rest).1, (items fuel depth rest).2) := by
  constructor
  · rintro rest rfl
    rw [items, hv]
    dsimp only
    rw [skip_of_not_blank (by decide)]
    rfl
  · rintro rest rfl
    rw [items, hv]
    dsimp only
    rw [skip_of_not_blank (by decide)]
    rfl

/-- Goes on with a record behind the value of a field. -/
def behindField (fuel depth : Nat) (key : Option String) :
    Reading → List (Option String × Document) × Option (List Char)
  | (node, none) => ([(key, node)], none)
  | (node, some left) =>
    match skip left with
    | '\x7d' :: rest => ([(key, node)], some rest)
    | ',' :: rest => ((key, node) :: (fields fuel depth rest).1, (fields fuel depth rest).2)
    | _ => ([(key, node), (none, .broken)], none)

theorem fields_quoted (key : String) (cs : List Char) :
    fields (fuel + 1) depth ((Text.quoted key).toList ++ ':' :: cs)
      = behindField fuel depth (some key) (value fuel depth cs) := by
  have htail := stringTail_quoted key.toList [] (':' :: cs)
  rw [List.reverse_nil, List.nil_append, String.ofList_toList] at htail
  rw [toList_quoted, List.cons_append, List.append_assoc, List.singleton_append, fields,
    skip_of_not_blank (by decide)]
  split
  · rename_i us hus
    cases hus
    rw [htail]
    rfl
  · rename_i hne
    exact (hne _ rfl).elim

/-- Behind a field the record is closed, or a comma leads to the next one. -/
theorem fields_of_value {v : Document} (key : String) {cs behind : List Char}
    (hv : value fuel depth cs = (v, some behind)) :
    (∀ rest, behind = '\x7d' :: rest →
      fields (fuel + 1) depth ((Text.quoted key).toList ++ ':' :: cs)
        = ([(some key, v)], some rest))
    ∧ ∀ rest, behind = ',' :: rest →
      fields (fuel + 1) depth ((Text.quoted key).toList ++ ':' :: cs)
        = ((some key, v) :: (fields fuel depth rest).1, (fields fuel depth rest).2) := by
  constructor
  · rintro rest rfl
    rw [fields_quoted, hv, behindField, skip_of_not_blank (by decide)]
    rfl
  · rintro rest rfl
    rw [fields_quoted, hv, behindField, skip_of_not_blank (by decide)]
    rfl

/-- What is read from a text that was written, with a given fuel: a value, the items of a list up to
the bracket that closes it, and the fields of a record up to the brace. -/
structure ReadsWritten (fuel : Nat) : Prop where
  value : ∀ v rest depth, 2 * v.render.length ≤ fuel → v.height ≤ depth → EndsNumeral rest →
    value fuel depth (v.render.toList ++ rest) = (reread v, some rest)
  items : ∀ vs rest depth, vs ≠ [] → 2 * (renderItems vs).length + 1 ≤ fuel →
    heightItems vs ≤ depth →
    items fuel depth ((renderItems vs).toList ++ ']' :: rest) = (rereadItems vs, some rest)
  fields : ∀ fs rest depth, fs ≠ [] → 2 * (renderFields fs).length + 1 ≤ fuel →
    heightFields fs ≤ depth →
    fields fuel depth ((renderFields fs).toList ++ '\x7d' :: rest) = (rereadFields fs, some rest)

theorem ReadsWritten.value_succ (h : ReadsWritten fuel) (v : Value) (rest : List Char)
    (depth : Nat) (hfuel : 2 * v.render.length ≤ fuel + 1) (hv : v.height ≤ depth)
    (hr : EndsNumeral rest) :
    Json.value (fuel + 1) depth (v.render.toList ++ rest) = (reread v, some rest) := by
  cases v with
  | null => rfl
  | bool b => cases b <;> rfl
  | number x => exact value_number x hr
  | text s => exact value_quoted s
  | list items =>
    obtain ⟨d, rfl⟩ := Nat.exists_eq_add_of_le' (Nat.le_trans (Nat.le_add_left 1 _) hv)
    by_cases hne : items = []
    · subst hne
      rfl
    · rw [Value.render, length_enclosed _ _ _ rfl rfl] at hfuel
      have hread := h.items items rest d hne (by omega) (Nat.le_of_succ_le_succ hv)
      obtain ⟨c, cs, hcs, hblank, hclose⟩ := renderItems_head hne
      have htext : (Value.list items).render.toList ++ rest = '[' :: c :: (cs ++ ']' :: rest) := by
        rw [Value.render, String.toList_append, String.toList_append, hcs]
        simp
      rw [hcs] at hread
      rw [htext, value_list hblank hclose, ← List.cons_append, hread]
      rfl
  | record fields =>
    obtain ⟨d, rfl⟩ := Nat.exists_eq_add_of_le' (Nat.le_trans (Nat.le_add_left 1 _) hv)
    by_cases hne : fields = []
    · subst hne
      rfl
    · rw [Value.render, length_enclosed _ _ _ rfl rfl] at hfuel
      have hread := h.fields fields rest d hne (by omega) (Nat.le_of_succ_le_succ hv)
      obtain ⟨cs, hcs⟩ := renderFields_head hne
      have htext : (Value.record fields).render.toList ++ rest
          = '\x7b' :: '"' :: (cs ++ '\x7d' :: rest) := by
        rw [Value.render, String.toList_append, String.toList_append, hcs]
        simp
      rw [hcs] at hread
      rw [htext, value_record, ← List.cons_append, hread]
      rfl

theorem ReadsWritten.items_succ (h : ReadsWritten fuel) (vs : List Value) (rest : List Char)
    (depth : Nat) (hne : vs ≠ []) (hfuel : 2 * (renderItems vs).length + 1 ≤ fuel + 1)
    (hv : heightItems vs ≤ depth) : Json.items (fuel + 1) depth
      ((renderItems vs).toList ++ ']' :: rest) = (rereadItems vs, some rest) := by
  obtain ⟨v, vs, rfl⟩ := List.exists_cons_of_ne_nil hne
  rw [heightItems, Nat.max_le] at hv
  cases vs with
  | nil =>
    have hread := h.value v (']' :: rest) depth (Nat.le_of_succ_le_succ hfuel) hv.1
      endsNumeral_bracket
    exact (items_of_value hread).1 rest rfl
  | cons w ws =>
    have hlen := length_renderItems_cons_cons v w ws
    have hread := h.value v (',' :: ((renderItems (w :: ws)).toList ++ ']' :: rest)) depth
      (by omega) hv.1 endsNumeral_comma
    have hboth := (items_of_value hread).2 _ rfl
    rw [h.items (w :: ws) rest depth (List.cons_ne_nil _ _) (by omega) hv.2] at hboth
    rw [toList_renderItems_cons_cons, List.append_assoc, List.cons_append]
    exact hboth

theorem ReadsWritten.fields_succ (h : ReadsWritten fuel) (k : String) (v : Value)
    (fs : List (String × Value)) (rest : List Char) (depth : Nat)
    (hfuel : 2 * (renderFields ((k, v) :: fs)).length + 1 ≤ fuel + 1)
    (hv : heightFields ((k, v) :: fs) ≤ depth) :
    Json.fields (fuel + 1) depth ((renderFields ((k, v) :: fs)).toList ++ '\x7d' :: rest)
      = (rereadFields ((k, v) :: fs), some rest) := by
  rw [heightFields, Nat.max_le] at hv
  cases fs with
  | nil =>
    rw [renderFields, String.length_append] at hfuel
    have hread := h.value v ('\x7d' :: rest) depth (by omega) hv.1 endsNumeral_brace
    rw [toList_renderFields_singleton, List.append_assoc, List.cons_append]
    exact (fields_of_value k hread).1 rest rfl
  | cons field fs =>
    have hlen := length_renderFields_cons_cons k v field fs
    have hread := h.value v (',' :: ((renderFields (field :: fs)).toList ++ '\x7d' :: rest)) depth
      (by omega) hv.1 endsNumeral_comma
    have hboth := (fields_of_value k hread).2 _ rfl
    rw [h.fields (field :: fs) rest depth (List.cons_ne_nil _ _) (by omega) hv.2] at hboth
    rw [toList_renderFields_cons_cons, List.append_assoc, List.cons_append, List.append_assoc,
      List.cons_append]
    exact hboth

/-- **What was written is read back**, each number as it is read on its own. The induction is on the
fuel, which every step of the reader takes from. -/
theorem readsWritten (fuel : Nat) : ReadsWritten fuel := by
  induction fuel with
  | zero =>
    refine ⟨fun v _ _ hfuel => ?_, fun _ _ _ _ hfuel => by omega, fun _ _ _ _ hfuel => by omega⟩
    have hpos := length_render_pos v
    omega
  | succ fuel ih =>
    refine ⟨ih.value_succ, ih.items_succ, fun fs rest depth hne => ?_⟩
    obtain ⟨⟨k, v⟩, fs, rfl⟩ := List.exists_cons_of_ne_nil hne
    exact ih.fields_succ k v fs rest depth

end Json

/-- **The document of a value's text** is the value, each number as it is read on its own, and
nothing is left of the text. -/
theorem Document.ofJson_render (v : Value) (hv : v.height ≤ 127) :
    ofJson v.render = (reread v, true) := by
  have hread := (Json.readsWritten (2 * v.render.toList.length + 2)).value v [] 127
    (by rw [String.length_toList]; omega) hv Json.endsNumeral_nil
  rw [List.append_nil] at hread
  unfold ofJson
  dsimp only
  rw [hread]
  rfl

end Playbook
