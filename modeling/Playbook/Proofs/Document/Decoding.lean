import Playbook.Proofs.Document.Values

/-!
# Typed data that is written and read again

Typed data is written as a value, and its text is the value's text. A decoder *keeps* its data
(`Decode.Keeps`) if whatever it makes of a document is written without deeper nesting, and if the
decoder makes the same of what was written just when the value is read back from its text. Lists and
records of data that is kept are kept (`Decode.Keeps.list`, `Decode.Keeps.named`), and so are texts,
booleans and counts. A record with known fields has no such rule, because each one is written in its
own way; what its decoder yields is told by what every field preserves (`Decode.struct_spec`).

For data that is kept the text that is written gives the same data again if and only if its value is
read back (`Decode.Keeps.ofJson_iff`).
-/

namespace Playbook

namespace Decode

open Document (Nested reread)

variable {α : Type} {decode : Document → Decoded α} {write : α → Value} {n : Nat} {d : Document}
  {a : α}

/-- **Something is kept** in what is written of it: that is nested at most so deep, and the decoder
makes the same of it if and only if it is read back as a value. -/
structure Kept (decode : Document → Decoded α) (write : α → Value) (n : Nat) (a : α) : Prop where
  plain : (write a).Plain n
  decode_iff : decode (reread (write a)) = .ok a ↔ (write a).ReadsBack

/-- **A decoder keeps its data**: all that it yields is kept in a value that is nested no deeper
than the document was. -/
def Keeps (decode : Document → Decoded α) (write : α → Value) : Prop :=
  ∀ n d a, Nested n d → decode d = .ok a → Kept decode write n a

theorem mapError_eq_ok_iff {ε ε' : Type} {x : Except ε α} {f : ε → ε'} :
    x.mapError f = .ok a ↔ x = .ok a := by
  cases x with
  | error e => exact ⟨nofun, nofun⟩
  | ok b => exact ⟨fun h => congrArg Except.ok (Except.ok.inj h), fun h => h ▸ rfl⟩

/-- What a text holds was decoded of a document that is nested no deeper than the reader goes. -/
theorem exists_of_ofJson {text : String} (h : ofJson decode text = .ok a) :
    ∃ d, Nested 127 d ∧ decode d = .ok a := by
  refine ⟨_, Document.nested_ofJson text, ?_⟩
  unfold ofJson at h
  dsimp only at h
  split at h
  · cases h
  · rename_i b hb
    split at h
    · cases h
      exact hb
    · cases h

/-- What the text of a value holds is decoded of what is read for the value. -/
theorem ofJson_render {v : Value} (hv : v.height ≤ 127) :
    ofJson decode v.render = decode (reread v) := by
  unfold ofJson
  rw [Document.ofJson_render v hv]
  dsimp only
  cases decode (reread v) with
  | error e => rfl
  | ok b => rfl

/-- **The text that is written** yields the same data again if and only if its value is read
back. -/
theorem Keeps.ofJson_iff (hk : Keeps decode write) {text : String}
    (h : ofJson decode text = .ok a) :
    ofJson decode (write a).render = .ok a ↔ (write a).ReadsBack := by
  obtain ⟨d, hd, hdecode⟩ := exists_of_ofJson h
  have hkept := hk 127 d a hd hdecode
  rw [ofJson_render hkept.plain.height_le, hkept.decode_iff]

/-! ## Single values -/

theorem mismatch_ne_ok : mismatch d ≠ .ok a := by
  unfold mismatch
  split <;> exact nofun

theorem keeps_value : Keeps value id :=
  fun _ _ _ hd h => ⟨hd.plain (value_eq_ok_iff.mp h), value_eq_ok_iff⟩

theorem kept_text (n : Nat) (s : String) : Kept text Value.text n s :=
  ⟨.text, iff_of_true rfl (Value.readsBack_text s)⟩

theorem countOf_lt {bound m : Nat} {x : Number} (h : countOf bound x = .ok m) : m < bound := by
  cases x with
  | int k hk =>
    obtain ⟨hb, h⟩ := ite_eq_iff.mp h |>.resolve_right fun h => nomatch h.2
    cases h
    omega
  | double y hy => cases h

theorem count_lt {bound m : Nat} (h : count bound d = .ok m) : m < bound := by
  unfold count at h
  split at h
  · exact countOf_lt h
  · exact countOf_lt h
  · exact (mismatch_ne_ok h).elim

/-- What is there where `null` might be was decoded. -/
theorem of_optional_eq_some (h : optional decode d = .ok (some a)) : decode d = .ok a := by
  unfold optional at h
  split at h
  · cases h
  · cases h
  · cases hd : decode d with
    | error e =>
      rw [hd] at h
      cases h
    | ok b =>
      rw [hd] at h
      cases h
      rfl

/-- Counts of up to 64 bits are integers, so they are read back. -/
theorem readsBack_nat {m : Nat} (hm : m < twoTo 64) :
    Value.ReadsBack (.nat m) ∧ ∀ bound, m < bound → count bound (reread (.nat m)) = .ok m := by
  have hfits : Word.Fits (m : Int) := by
    have hlimit : twoTo 64 = 18446744073709551616 := rfl
    omega
  have hnat : Value.nat m = .number (.int m hfits) := by
    rw [Value.nat, Value.int, dif_pos hfits]
  have hback : (Number.int m hfits).reread = some (.int m hfits) := Json.reread_int hfits
  refine ⟨hnat ▸ Value.readsBack_number_iff.mpr hback, fun bound hb => ?_⟩
  rw [hnat, reread, hback]
  have hrange : (0 : Int) ≤ m ∧ (m : Int) < bound := by omega
  exact (if_pos hrange).trans (by rw [Int.toNat_natCast])

/-! ## Lists and records -/

theorem mapM_eq_ok_iff {β : Type} {f : β → Decoded α} {items : List β} {as : List α} :
    items.mapM f = .ok as ↔ List.Forall₂ (fun b a => f b = .ok a) items as := by
  induction items generalizing as with
  | nil =>
    rw [List.mapM_nil, List.forall₂_nil_left_iff]
    exact ⟨fun h => (Except.ok.inj h).symm, fun h => h ▸ rfl⟩
  | cons b rest ih =>
    rw [List.mapM_cons]
    cases hb : f b with
    | error e =>
      refine ⟨nofun, ?_⟩
      rintro (_ | ⟨ha, -⟩)
      rw [hb] at ha
      cases ha
    | ok a =>
      cases hrest : rest.mapM f with
      | error e =>
        refine ⟨nofun, ?_⟩
        rintro (_ | ⟨-, has⟩)
        rw [ih.mpr has] at hrest
        cases hrest
      | ok as' =>
        constructor
        · rintro ⟨⟩
          exact .cons hb (ih.mp hrest)
        · rintro (_ | ⟨ha, has⟩)
          rw [hb] at ha
          cases ha
          rw [ih.mpr has] at hrest
          cases hrest
          rfl

theorem mapM_option_eq_ok_iff {o : Option α} {f : α → Decoded α} :
    o.mapM f = .ok o ↔ ∀ a ∈ o, f a = .ok a := by
  cases o with
  | none => exact iff_of_true rfl nofun
  | some a =>
    have hone : (some a).mapM f = (f a).map some := rfl
    rw [hone]
    simp only [Option.mem_some_iff, forall_eq']
    cases f a with
    | error e => exact ⟨nofun, nofun⟩
    | ok b =>
      show Except.ok (some b) = Except.ok (some a) ↔ _
      rw [Except.ok.injEq, Except.ok.injEq, Option.some.injEq]

theorem list_eq_ok_iff {as : List α} : list decode d = .ok as
    ↔ ∃ items, d = .list items ∧ List.Forall₂ (fun d a => decode d = .ok a) items as := by
  unfold list
  split
  · rw [mapM_eq_ok_iff]
    exact ⟨fun h => ⟨_, rfl, h⟩, fun ⟨_, he, h⟩ => Document.list.inj he ▸ h⟩
  · rename_i hne
    exact ⟨fun h => (mismatch_ne_ok h).elim, fun ⟨items, he, _⟩ => (hne items he).elim⟩

/-- **A list** of what is kept is kept. -/
theorem Kept.list {as : List α} (h : ∀ a ∈ as, Kept decode write n a) :
    Kept (list decode) (fun as => .list (as.map write)) (n + 1) as := by
  refine ⟨.list (List.forall_mem_map.mpr fun a ha => (h a ha).plain), ?_⟩
  rw [Value.readsBack_list_iff, List.forall_mem_map, reread, Document.rereadItems_eq_map,
    Decode.list,
    mapM_eq_ok_iff, List.forall₂_map_left_iff, List.forall₂_map_left_iff, List.forall₂_same]
  exact forall₂_congr fun a ha => (h a ha).decode_iff

theorem Keeps.list (hk : Keeps decode write) :
    Keeps (list decode) fun as => .list (as.map write) := by
  intro n d as hd h
  obtain ⟨items, rfl, hitems⟩ := list_eq_ok_iff.mp h
  cases hd with
  | @list n _ hd =>
    refine Kept.list fun a ha => ?_
    obtain ⟨i, hi, rfl⟩ := List.getElem_of_mem ha
    have hlen := hitems.length_eq
    exact hk n _ _ (hd _ (List.getElem_mem (hlen ▸ hi)))
      ((List.forall₂_iff_get.mp hitems).2 i _ hi)

theorem named_eq_ok {out : Named α} (h : named decode d = .ok out) :
    ∃ fields, d = .record fields ∧ entries decode [] fields = .ok out := by
  unfold named at h
  split at h
  · exact ⟨_, rfl, h⟩
  · exact (mismatch_ne_ok h).elim

/-- Data under names, as it is written. -/
def written (write : α → Value) (fields : Named α) : Named Value :=
  fields.map fun f => (f.1, write f.2)

theorem names_written (write : α → Value) (fields : Named α) :
    (written write fields).names = fields.names := by
  unfold written Named.names
  rw [List.map_map]
  rfl

/-- What is decoded of data under names, each name standing once. -/
theorem named_written_eq_ok_iff {fields out : Named α} (hn : fields.names.Nodup) :
    named decode (reread (.record (written write fields))) = .ok out
      ↔ List.Forall₂ (fun f g => f.1 = g.1 ∧ decode (reread (write f.2)) = .ok g.2) fields out := by
  have hdoc : Document.rereadFields (written write fields)
      = fields.map fun f => (some f.1, reread (write f.2)) := by
    rw [Document.rereadFields_eq_map, written, List.map_map]
    rfl
  rw [reread, named, hdoc, entries_eq_ok_iff [] (fun a => reread (write a)) hn]
  simp only [List.nil_append, exists_eq_right']

/-- **A record** of what is kept is kept, if each name stands once. -/
theorem Kept.named {fields : Named α} (hn : fields.names.Nodup)
    (h : ∀ f ∈ fields, Kept decode write n f.2) :
    Kept (named decode) (fun fields => .record (written write fields)) (n + 1) fields := by
  have hnames : (written write fields).names.Nodup := names_written write fields ▸ hn
  refine ⟨.record hnames (List.forall_mem_map.mpr fun f hf => (h f hf).plain), ?_⟩
  rw [Value.readsBack_record_iff hnames, written, List.forall_mem_map, ← written,
    named_written_eq_ok_iff hn, List.forall₂_same]
  exact forall₂_congr fun f hf => (and_iff_right rfl).trans (h f hf).decode_iff

theorem Keeps.named (hk : Keeps decode write) {fields : Named α} (hd : Nested n d)
    (h : named decode d = .ok fields) :
    fields.names.Nodup ∧ ∀ f ∈ fields, Kept decode write (n - 1) f.2 := by
  obtain ⟨gs, rfl, hgs⟩ := named_eq_ok h
  cases hd with
  | record hd =>
    obtain ⟨hn, hmem⟩ := entries_spec hgs List.nodup_nil
    refine ⟨hn, fun f hf => ?_⟩
    obtain hnil | ⟨g, hg, he⟩ := hmem f hf
    · cases hnil
    · exact hk _ _ _ (hd g hg) he

theorem kept_record {fields : Named Value} (hn : fields.names.Nodup)
    (h : ∀ f ∈ fields, f.2.Plain n) : Kept (named value) Value.record (n + 1) fields := by
  have hid : (fun fields : Named Value => Value.record (written id fields)) = Value.record :=
    funext fun fields => congrArg Value.record (List.map_id fields)
  have hkept : Kept (named value) (fun fields => Value.record (written id fields)) (n + 1) fields :=
    Kept.named hn fun f hf => ⟨h f hf, value_eq_ok_iff⟩
  rwa [hid] at hkept

/-- The names that are decoded of data under names are those that were written. -/
theorem names_of_named_written {fields out : Named α} (hn : fields.names.Nodup)
    (h : named decode (reread (.record (written write fields))) = .ok out) :
    out.names = fields.names := by
  have hall := (named_written_eq_ok_iff hn).mp h
  clear hn h
  induction hall with
  | nil => rfl
  | cons hfirst _ ih => exact congrArg₂ List.cons hfirst.1.symm ih

/-! ## Records with known fields -/

variable {δ : Type} {known : List (Field δ)} {draft : δ} {P : δ → Prop}
  {finish : δ → Except String α}

/-- **A field preserves** something about drafts when it takes in a document that is nested at most
so deep. -/
def Field.Preserves (P : δ → Prop) (n : Nat) (f : Field δ) : Prop :=
  ∀ draft draft' d, Nested n d → P draft → f.take draft d = .ok draft' → P draft'

/-- A field that is stored preserves what every such storing does. -/
theorem field_preserves {key : String} {store : δ → α → δ}
    (h : ∀ draft d a, Nested n d → decode d = .ok a → P draft → P (store draft a)) :
    (field key decode store).Preserves P n := by
  intro draft draft' d hd hdraft htake
  unfold field at htake
  dsimp only at htake
  cases ha : decode d with
  | error e =>
    rw [ha] at htake
    cases htake
  | ok a =>
    rw [ha] at htake
    cases htake
    exact h draft d a hd ha hdraft

theorem takeFields_spec (hknown : ∀ f ∈ known, f.Preserves P n) {seen : List String} {out : δ}
    {fields : List (Option String × Document)} (hd : ∀ f ∈ fields, Nested n f.2) (hdraft : P draft)
    (h : takeFields known seen draft fields = .ok out) : P out := by
  induction fields generalizing seen draft with
  | nil =>
    cases h
    exact hdraft
  | cons field rest ih =>
    obtain ⟨hfirst, hrest⟩ := List.forall_mem_cons.mp hd
    obtain ⟨key?, d⟩ := field
    cases key? with
    | none => cases h
    | some key =>
      rw [takeFields] at h
      split at h
      · split at h
        · exact ih hrest hdraft h
        · cases h
      · rename_i f hf
        split at h
        · cases h
        · split at h
          · cases h
          · rename_i htake
            exact ih hrest (hknown f (List.mem_of_find?_eq_some hf) _ _ d hfirst hdraft htake) h

theorem takeItems_spec (hknown : ∀ f ∈ known, f.Preserves P n) {items : List Document} {out : δ}
    (hd : ∀ d ∈ items, Nested n d) (hdraft : P draft) (h : takeItems draft known items = .ok out) :
    P out := by
  induction items generalizing known draft with
  | nil =>
    rw [takeItems] at h
    cases h
    exact hdraft
  | cons d rest ih =>
    obtain ⟨hfirst, hrest⟩ := List.forall_mem_cons.mp hd
    cases known with
    | nil => cases h
    | cons f known =>
      obtain ⟨hf, hknown⟩ := List.forall_mem_cons.mp hknown
      rw [takeItems] at h
      split at h
      · cases h
      · rename_i htake
        exact ih hknown hrest (hf _ _ d hfirst hdraft htake) h

/-- **A record with known fields** is finished from a draft of which holds what the first draft has
and every field preserves, be the record written with its keys or as a list. -/
theorem struct_spec (hd : Nested n d) (h : struct known draft finish d = .ok a) :
    ∃ m, n = m + 1 ∧ ∀ P : δ → Prop, P draft → (∀ f ∈ known, f.Preserves P m) →
      ∃ out, P out ∧ finish out = .ok a := by
  unfold struct at h
  split at h
  · cases hd with
    | @record m _ hfields =>
      split at h
      · cases h
      · rename_i htake
        exact ⟨m, rfl, fun P hdraft hknown =>
          ⟨_, takeFields_spec hknown hfields hdraft htake, mapError_eq_ok_iff.mp h⟩⟩
  · cases hd with
    | @list m _ hitems =>
      split at h
      · cases h
      · rename_i htake
        exact ⟨m, rfl, fun P hdraft hknown =>
          ⟨_, takeItems_spec hknown hitems hdraft htake, mapError_eq_ok_iff.mp h⟩⟩
  · exact (mismatch_ne_ok h).elim

/-! ## Records that are written -/

/-- Takes in a field as it is written. -/
def takeField (known : List (Field δ)) (draft : δ) (field : String × Value) : Decoded δ :=
  match known.find? fun f => f.key == field.1 with
  | none => if (reread field.2).isWhole then .ok draft else .error .malformed
  | some f => f.take draft (reread field.2)

/-- A field whose document is decoded is stored, and then the others follow. -/
theorem foldlM_takeField_cons {key : String} {store : δ → α → δ} {v : Value} {rest : Named Value}
    (hf : known.find? (fun f => f.key == key) = some (field key decode store))
    (h : decode (reread v) = .ok a) :
    ((key, v) :: rest).foldlM (takeField known) draft
      = rest.foldlM (takeField known) (store draft a) := by
  rw [List.foldlM_cons, takeField, hf]
  dsimp only [field]
  rw [h]
  rfl

theorem ok_bind {β : Type} (a : α) (f : α → Decoded β) : (.ok a : Decoded α) >>= f = f a := rfl

theorem map_bind {β γ : Type} (x : Decoded α) (f : α → β) (g : β → Decoded γ) :
    x.map f >>= g = x >>= fun a => g (f a) := by
  cases x <;> rfl

theorem bind_eq_ok_iff {β : Type} {x : Decoded α} {f : α → Decoded β} {b : β} :
    x >>= f = .ok b ↔ ∃ a, x = .ok a ∧ f a = .ok b := by
  cases x with
  | error e => exact ⟨nofun, fun ⟨_, h, _⟩ => nomatch h⟩
  | ok a =>
    refine ⟨fun h => ⟨a, rfl, h⟩, ?_⟩
    rintro ⟨_, ⟨⟩, h⟩
    exact h

theorem takeFields_reread {fields : Named Value} {seen : List String}
    (hn : fields.names.Nodup) (hseen : ∀ key ∈ fields.names, key ∉ seen) :
    takeFields known seen draft (Document.rereadFields fields)
      = fields.foldlM (takeField known) draft := by
  induction fields generalizing seen draft with
  | nil => rfl
  | cons field rest ih =>
    obtain ⟨key, v⟩ := field
    obtain ⟨hkey, hrest⟩ := List.nodup_cons.mp hn
    obtain ⟨hnew, hseen⟩ := List.forall_mem_cons.mp hseen
    rw [List.foldlM_cons, Document.rereadFields, takeFields, takeField]
    dsimp only at hkey hnew ⊢
    cases known.find? fun f => f.key == key with
    | none =>
      cases (reread v).isWhole with
      | true => exact ih hrest hseen
      | false => rfl
    | some f =>
      dsimp only
      rw [if_neg (by simpa using hnew)]
      cases f.take draft (reread v) with
      | error e => rfl
      | ok out =>
        refine ih hrest fun k hk => ?_
        rw [List.mem_cons, not_or]
        exact ⟨fun he => hkey (he ▸ hk), hseen k hk⟩

/-- **A record that is written**, each key once, is taken in field by field. -/
theorem struct_reread {fields : Named Value} (hn : fields.names.Nodup) :
    struct known draft finish (reread (.record fields))
      = fields.foldlM (takeField known) draft >>= fun out => (finish out).mapError .missing := by
  rw [reread, struct, takeFields_reread hn fun _ _ => List.not_mem_nil]
  cases fields.foldlM (takeField known) draft <;> rfl

end Decode

end Playbook
