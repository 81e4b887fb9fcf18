import Mathlib.Data.List.Forall2
import Playbook.Document.Decode
import Playbook.Proofs.Document.Written

/-!
# The values of documents

Whatever text is read, its document is nested no deeper than the reader goes
(`Document.nested_ofJson`), and the value of a document is no deeper nested than the document and
has each name once in every record (`Document.Nested.plain`). Values of that kind can be written and
read again: such a value is read back from its text if and only if each of its doubles is
(`Value.Plain.readsBack_iff`).
-/

namespace Playbook

/-! ## Nesting -/

/-- **A document is nested at most so deep.** -/
inductive Document.Nested : Nat → Document → Prop
  | null {n} : Nested n .null
  | bool {n b} : Nested n (.bool b)
  | number {n x} : Nested n (.number x)
  | text {n s} : Nested n (.text s)
  | word {n s meaning} (h : Nested n meaning) : Nested n (.word s meaning)
  | list {n items} (h : ∀ d ∈ items, Nested n d) : Nested (n + 1) (.list items)
  | record {n fields} (h : ∀ f ∈ fields, Nested n f.2) : Nested (n + 1) (.record fields)
  | broken {n} : Nested n .broken

/-- **A value that JSON can hold**, nested at most so deep: every record has each name once. -/
inductive Value.Plain : Nat → Value → Prop
  | null {n} : Plain n .null
  | bool {n b} : Plain n (.bool b)
  | number {n x} : Plain n (.number x)
  | text {n s} : Plain n (.text s)
  | list {n items} (h : ∀ v ∈ items, Plain n v) : Plain (n + 1) (.list items)
  | record {n fields} (hn : Named.names fields |>.Nodup) (h : ∀ f ∈ fields, Plain n f.2) :
    Plain (n + 1) (.record fields)

namespace Value

mutual

/-- The numbers that stand somewhere in a value. -/
def numbers (v : Value) : List Number :=
  match v with
  | .number x => [x]
  | .list items => numbersItems items
  | .record fields => numbersFields fields
  | _ => []
termination_by structural v

/-- The numbers in the items of a list. -/
def numbersItems (items : List Value) : List Number :=
  match items with
  | [] => []
  | v :: rest => numbers v ++ numbersItems rest
termination_by structural items

/-- The numbers in the fields of a record. -/
def numbersFields (fields : List (String × Value)) : List Number :=
  match fields with
  | [] => []
  | (_, v) :: rest => numbers v ++ numbersFields rest
termination_by structural fields

end

end Value

namespace Value

variable {n m : Nat} {v : Value}

theorem heightItems_le {items : List Value} (h : ∀ v ∈ items, v.height ≤ n) :
    heightItems items ≤ n := by
  induction items with
  | nil => exact Nat.zero_le n
  | cons v rest ih =>
    obtain ⟨hv, hrest⟩ := List.forall_mem_cons.mp h
    rw [heightItems]
    exact Nat.max_le.mpr ⟨hv, ih hrest⟩

theorem heightFields_le {fields : List (String × Value)} (h : ∀ f ∈ fields, f.2.height ≤ n) :
    heightFields fields ≤ n := by
  induction fields with
  | nil => exact Nat.zero_le n
  | cons field rest ih =>
    obtain ⟨hv, hrest⟩ := List.forall_mem_cons.mp h
    rw [heightFields]
    exact Nat.max_le.mpr ⟨hv, ih hrest⟩

theorem Plain.height_le (h : v.Plain n) : v.height ≤ n := by
  induction h with
  | list _ ih => exact Nat.succ_le_succ (heightItems_le ih)
  | record _ _ ih => exact Nat.succ_le_succ (heightFields_le ih)
  | _ => exact Nat.zero_le _

end Value

namespace Decode

variable {α β : Type} {decode : Document → Decoded α} {acc out : Named α}

theorem value_eq_ok_iff {d : Document} {v : Value} : value d = .ok v ↔ d.value? = some v := by
  unfold value
  split
  · rename_i w hw
    rw [hw, Except.ok.injEq, Option.some.injEq]
  · rename_i hw
    rw [hw]
    exact ⟨nofun, nofun⟩

theorem entries_value_eq_ok_iff {fields : List (Option String × Document)} {acc out : Named Value} :
    entries value acc fields = .ok out ↔ Document.valueFields? fields acc = some out := by
  induction fields generalizing acc with
  | nil => rw [entries, Document.valueFields?, Except.ok.injEq, Option.some.injEq]
  | cons field rest ih =>
    obtain ⟨key?, d⟩ := field
    cases key? with
    | none => exact ⟨nofun, nofun⟩
    | some key =>
      rw [entries, Document.valueFields?, value]
      cases d.value? with
      | none => exact ⟨nofun, nofun⟩
      | some w => exact ih

/-- The fields that are stored have names of their own, and hold what was there before or what was
decoded of a field of the document. -/
theorem entries_spec {fields : List (Option String × Document)}
    (h : entries decode acc fields = .ok out) (hacc : acc.names.Nodup) :
    out.names.Nodup ∧ ∀ f ∈ out, f ∈ acc ∨ ∃ g ∈ fields, decode g.2 = .ok f.2 := by
  induction fields generalizing acc with
  | nil =>
    cases h
    exact ⟨hacc, fun f hf => .inl hf⟩
  | cons field rest ih =>
    obtain ⟨key?, d⟩ := field
    cases key? with
    | none => cases h
    | some key =>
      rw [entries] at h
      split at h
      · cases h
      · rename_i a ha
        obtain ⟨hn, hout⟩ := ih h (Named.nodup_put hacc key a)
        refine ⟨hn, fun f hf => ?_⟩
        obtain hmem | ⟨g, hg, he⟩ := hout f hf
        · obtain hmem | rfl := Named.mem_put hmem
          · exact .inl hmem
          · exact .inr ⟨_, List.mem_cons_self, ha⟩
        · exact .inr ⟨g, List.mem_cons_of_mem _ hg, he⟩

/-- **Fields with names of their own** are stored one behind the other. -/
theorem entries_eq_ok_iff (acc : Named α) {fields : Named β} (doc : β → Document)
    (hn : (acc.names ++ fields.names).Nodup) :
    entries decode acc (fields.map fun f => (some f.1, doc f.2)) = .ok out
      ↔ ∃ added, List.Forall₂ (fun f g => f.1 = g.1 ∧ decode (doc f.2) = .ok g.2) fields added
        ∧ out = acc ++ added := by
  induction fields generalizing acc with
  | nil => simp [entries, eq_comm]
  | cons field rest ih =>
    obtain ⟨key, b⟩ := field
    have hkey : key ∉ acc.names := fun hm =>
      (List.disjoint_of_nodup_append hn) hm List.mem_cons_self
    rw [List.map_cons, entries]
    cases hd : decode (doc b) with
    | error e =>
      refine ⟨nofun, ?_⟩
      rintro ⟨_, _ | ⟨⟨-, ha⟩, -⟩, -⟩
      rw [hd] at ha
      cases ha
    | ok a =>
      have hrest : (Named.names (acc ++ [(key, a)]) ++ Named.names rest).Nodup := by
        simpa [Named.names] using hn
      dsimp only
      rw [Named.put_of_not_mem hkey, ih _ hrest]
      constructor
      · rintro ⟨added, hadded, rfl⟩
        exact ⟨(key, a) :: added, .cons ⟨rfl, hd⟩ hadded, by rw [List.append_assoc]; rfl⟩
      · rintro ⟨_, _ | @⟨_, ⟨key', a'⟩, _, added, ⟨hk, ha⟩, hadded⟩, rfl⟩
        rw [hd] at ha
        cases ha
        cases hk
        exact ⟨added, hadded, by rw [List.append_assoc]; rfl⟩

end Decode

namespace Document

variable {n : Nat} {d : Document} {v : Value}

theorem mem_valueItems? {items : List Document} {vs : List Value} (h : valueItems? items = some vs)
    (hv : v ∈ vs) : ∃ d ∈ items, d.value? = some v := by
  induction items generalizing vs with
  | nil =>
    cases h
    cases hv
  | cons d rest ih =>
    rw [valueItems?] at h
    cases hd : d.value? with
    | none =>
      rw [hd] at h
      cases h
    | some w =>
      rw [hd] at h
      obtain ⟨ws, hws, rfl⟩ := Option.map_eq_some_iff.mp h
      obtain rfl | hv := List.mem_cons.mp hv
      · exact ⟨d, List.mem_cons_self, hd⟩
      · obtain ⟨d', hd', he⟩ := ih hws hv
        exact ⟨d', List.mem_cons_of_mem _ hd', he⟩

/-- **The value of a document is no deeper nested**, and has no name twice in a record. -/
theorem Nested.plain (h : d.Nested n) (hv : d.value? = some v) : v.Plain n := by
  induction h generalizing v with
  | null =>
    cases hv
    exact .null
  | bool =>
    cases hv
    exact .bool
  | number =>
    obtain ⟨x, -, rfl⟩ := Option.map_eq_some_iff.mp hv
    exact .number
  | text =>
    obtain ⟨s, -, rfl⟩ := Option.map_eq_some_iff.mp hv
    exact .text
  | word _ ih => exact ih hv
  | list _ ih =>
    obtain ⟨vs, hvs, rfl⟩ := Option.map_eq_some_iff.mp hv
    refine .list fun w hw => ?_
    obtain ⟨d, hd, he⟩ := mem_valueItems? hvs hw
    exact ih d hd he
  | record _ ih =>
    obtain ⟨out, hout, rfl⟩ := Option.map_eq_some_iff.mp hv
    obtain ⟨hn, hmem⟩ :=
      Decode.entries_spec (Decode.entries_value_eq_ok_iff.mpr hout) List.nodup_nil
    refine .record hn fun f hf => ?_
    obtain hnil | ⟨g, hg, he⟩ := hmem f hf
    · cases hnil
    · exact ih g hg (Decode.value_eq_ok_iff.mp he)
  | broken => cases hv

end Document

/-! ## Values that are read back -/

namespace Document

theorem rereadItems_eq_map (items : List Value) : rereadItems items = items.map reread := by
  induction items with
  | nil => rfl
  | cons v rest ih => rw [rereadItems, ih, List.map_cons]

theorem rereadFields_eq_map (fields : Named Value) :
    rereadFields fields = fields.map fun f => (some f.1, reread f.2) := by
  induction fields with
  | nil => rfl
  | cons field rest ih => rw [rereadFields, ih, List.map_cons]

theorem valueItems?_eq_some_iff {items : List Document} {vs : List Value} :
    valueItems? items = some vs ↔ List.Forall₂ (fun d v => d.value? = some v) items vs := by
  induction items generalizing vs with
  | nil => simp [valueItems?, eq_comm]
  | cons d rest ih =>
    rw [valueItems?]
    cases hd : d.value? with
    | none =>
      refine ⟨nofun, ?_⟩
      rintro (_ | ⟨hv, -⟩)
      rw [hd] at hv
      cases hv
    | some w =>
      dsimp only
      rw [Option.map_eq_some_iff]
      constructor
      · rintro ⟨ws, hws, rfl⟩
        exact .cons hd (ih.mp hws)
      · rintro (_ | ⟨hv, hvs⟩)
        rw [hd] at hv
        cases hv
        exact ⟨_, ih.mpr hvs, rfl⟩

end Document

namespace Value

variable {n : Nat} {v : Value}

/-- **A value is read back** from its text. -/
def ReadsBack (v : Value) : Prop :=
  (Document.reread v).value? = some v

theorem readsBack_text (s : String) : ReadsBack (.text s) := rfl

theorem readsBack_bool (b : Bool) : ReadsBack (.bool b) := rfl

theorem readsBack_number_iff {x : Number} : ReadsBack (.number x) ↔ x.reread = some x := by
  unfold ReadsBack
  rw [Document.reread, Document.value?, Option.map_eq_some_iff]
  exact ⟨fun ⟨y, hy, he⟩ => Value.number.inj he ▸ hy, fun h => ⟨x, h, rfl⟩⟩

theorem readsBack_list_iff_valueItems? {items : List Value} : ReadsBack (.list items)
    ↔ Document.valueItems? (Document.rereadItems items) = some items := by
  unfold ReadsBack
  rw [Document.reread, Document.value?, Option.map_eq_some_iff]
  exact ⟨fun ⟨vs, hvs, he⟩ => Value.list.inj he ▸ hvs, fun h => ⟨items, h, rfl⟩⟩

theorem readsBack_list_iff {items : List Value} :
    ReadsBack (.list items) ↔ ∀ v ∈ items, ReadsBack v := by
  rw [readsBack_list_iff_valueItems?, Document.rereadItems_eq_map, Document.valueItems?_eq_some_iff,
    List.forall₂_map_left_iff]
  exact List.forall₂_same

theorem readsBack_record_iff {fields : Named Value} (hn : fields.names.Nodup) :
    ReadsBack (.record fields) ↔ ∀ f ∈ fields, ReadsBack f.2 := by
  have hfields : ReadsBack (.record fields)
      ↔ Document.valueFields? (Document.rereadFields fields) [] = some fields := by
    unfold ReadsBack
    rw [Document.reread, Document.value?, Option.map_eq_some_iff]
    exact ⟨fun ⟨fs, hfs, he⟩ => Value.record.inj he ▸ hfs, fun h => ⟨fields, h, rfl⟩⟩
  rw [hfields, Document.rereadFields_eq_map, ← Decode.entries_value_eq_ok_iff,
    Decode.entries_eq_ok_iff [] Document.reread hn]
  simp only [List.nil_append, exists_eq_right', List.forall₂_same, true_and,
    Decode.value_eq_ok_iff]
  rfl

theorem mem_numbersItems {x : Number} {items : List Value} :
    x ∈ numbersItems items ↔ ∃ v ∈ items, x ∈ v.numbers := by
  induction items with
  | nil => exact ⟨nofun, nofun⟩
  | cons v rest ih => rw [numbersItems, List.mem_append, ih, List.exists_mem_cons_iff]

theorem mem_numbersFields {x : Number} {fields : Named Value} :
    x ∈ numbersFields fields ↔ ∃ f ∈ fields, x ∈ f.2.numbers := by
  induction fields with
  | nil => exact ⟨nofun, nofun⟩
  | cons f rest ih => rw [numbersFields, List.mem_append, ih, List.exists_mem_cons_iff]

theorem Plain.readsBack_iff_numbers (h : v.Plain n) :
    v.ReadsBack ↔ ∀ x ∈ v.numbers, x.reread = some x := by
  induction h with
  | null => exact iff_of_true rfl (List.forall_mem_nil _)
  | bool => exact iff_of_true (readsBack_bool _) (List.forall_mem_nil _)
  | text => exact iff_of_true (readsBack_text _) (List.forall_mem_nil _)
  | number =>
    rw [readsBack_number_iff, numbers, List.forall_mem_singleton]
  | list _ ih =>
    rw [readsBack_list_iff]
    constructor
    · intro hall x hx
      obtain ⟨v, hv, hx⟩ := mem_numbersItems.mp hx
      exact (ih v hv).mp (hall v hv) x hx
    · exact fun hall v hv => (ih v hv).mpr fun x hx => hall x (mem_numbersItems.mpr ⟨v, hv, hx⟩)
  | record hn _ ih =>
    rw [readsBack_record_iff hn]
    constructor
    · intro hall x hx
      obtain ⟨f, hf, hx⟩ := mem_numbersFields.mp hx
      exact (ih f hf).mp (hall f hf) x hx
    · exact fun hall f hf => (ih f hf).mpr fun x hx => hall x (mem_numbersFields.mpr ⟨f, hf, hx⟩)

/-- **A value is read back if its doubles are**, and only then: integers always are. -/
theorem Plain.readsBack_iff (h : v.Plain n) :
    v.ReadsBack ↔ ∀ x hx, .double x hx ∈ v.numbers →
      (Number.double x hx).reread = some (.double x hx) := by
  rw [h.readsBack_iff_numbers]
  constructor
  · exact fun hall x hx => hall _
  · intro hall x hx
    cases x with
    | int m hm => exact Json.reread_int hm
    | double x hfinite => exact hall x hfinite hx

end Value

/-! ## Documents that are read -/

namespace Json

open Document (Nested broken)

variable {fuel depth : Nat} {cs : List Char}

/-- What the readers make of a text, with a given fuel, is nested no deeper than they may go. -/
structure ReadsNested (fuel : Nat) : Prop where
  value : ∀ depth cs, (value fuel depth cs).1.Nested depth
  items : ∀ depth cs, ∀ d ∈ (items fuel depth cs).1, d.Nested depth
  fields : ∀ depth cs, ∀ f ∈ (fields fuel depth cs).1, f.2.Nested depth

theorem keyword_nested {word : String} {node : Document} (h : node.Nested depth) :
    (keyword word node cs).1.Nested depth := by
  unfold keyword
  split
  · exact h
  · exact .broken

theorem ReadsNested.value_succ (h : ReadsNested fuel) (depth : Nat) (cs : List Char) :
    (Json.value (fuel + 1) depth cs).1.Nested depth := by
  rw [Json.value]
  split
  · exact keyword_nested .null
  · exact keyword_nested .bool
  · exact keyword_nested .bool
  · split
    · exact .text
    · exact .broken
  · cases depth with
    | zero => exact .broken
    | succ depth =>
      dsimp only
      split
      · exact .list (List.forall_mem_nil _)
      · exact .list (h.items depth _)
  · cases depth with
    | zero => exact .broken
    | succ depth =>
      dsimp only
      split
      · exact .record (List.forall_mem_nil _)
      · exact .record (h.fields depth _)
  · split
    · exact .number
    · exact .broken
  · split
    · exact .number
    · exact .broken

theorem ReadsNested.items_succ (h : ReadsNested fuel) (depth : Nat) (cs : List Char) :
    ∀ d ∈ (Json.items (fuel + 1) depth cs).1, d.Nested depth := by
  have hv := h.value depth cs
  rw [Json.items]
  split
  · rename_i he
    rw [he] at hv
    exact List.forall_mem_singleton.mpr hv
  · rename_i he
    rw [he] at hv
    split
    · exact List.forall_mem_singleton.mpr hv
    · exact List.forall_mem_cons.mpr ⟨hv, h.items depth _⟩
    · exact List.forall_mem_cons.mpr ⟨hv, List.forall_mem_singleton.mpr .broken⟩

theorem ReadsNested.fields_succ (h : ReadsNested fuel) (depth : Nat) (cs : List Char) :
    ∀ f ∈ (Json.fields (fuel + 1) depth cs).1, f.2.Nested depth := by
  rw [Json.fields]
  split
  · split
    · exact List.forall_mem_singleton.mpr .broken
    · split
      · rename_i cs _
        have hv := h.value depth cs
        split
        · rename_i he
          rw [he] at hv
          exact List.forall_mem_singleton.mpr hv
        · rename_i he
          rw [he] at hv
          split
          · exact List.forall_mem_singleton.mpr hv
          · exact List.forall_mem_cons.mpr ⟨hv, h.fields depth _⟩
          · exact List.forall_mem_cons.mpr ⟨hv, List.forall_mem_singleton.mpr .broken⟩
      · exact List.forall_mem_singleton.mpr .broken
  · exact List.forall_mem_singleton.mpr .broken

theorem readsNested (fuel : Nat) : ReadsNested fuel := by
  induction fuel with
  | zero =>
    exact ⟨fun _ _ => .broken, fun _ _ => List.forall_mem_singleton.mpr .broken,
      fun _ _ => List.forall_mem_singleton.mpr .broken⟩
  | succ fuel ih => exact ⟨ih.value_succ, ih.items_succ, ih.fields_succ⟩

end Json

/-- **No text is nested deeper** than the reader goes. -/
theorem Document.nested_ofJson (text : String) : (ofJson text).1.Nested 127 := by
  have hv := (Json.readsNested (2 * text.toList.length + 2)).value 127 text.toList
  unfold ofJson
  dsimp only
  split
  · rename_i he
    rw [he] at hv
    exact hv
  · rename_i he
    rw [he] at hv
    exact hv

end Playbook
