import Playbook.Proofs.Settings.Reload
import Playbook.Proofs.Step.Reading
import Playbook.Scenario

/-!
# Scenarios that are written and read again

Steps are written as the values that they were read from, keywords and scenarios as records with a
field for each of their parts. Of what is written the decoder makes the same thing, with its steps,
variables, keywords and rows as they are decoded on their own (`Keyword.decode_toValue`,
`Scenario.decode_toValue`), so all of them are kept in what is written of them
(`Scenario.keeps_decode`). It does not matter how a scenario was spelled in the text that it came
from: fields may be missing or unknown, and a record may be written as a list. All that is used of
that text is what every field preserves (`Scenario.preserves_fields`).

So a scenario that was loaded is loaded again from its text if and only if each double in it is read
back from the double's own text, and settings always are (`reload_written`). Some doubles are not
(`reload_written_ne`).
-/

namespace Playbook

open Decode (Keeps Kept)
open Document (Nested reread)

/-! ## Steps -/

namespace Step

/-- A step that was read has the value that it was read from as its source. -/
theorem source_of_read {v : Value} {s : Step} (h : read v = .ok s) : s.source = v := by
  rw [read_eq] at h
  unfold readWith at h
  split at h
  · split at h
    · cases h
    · dsimp only at h
      rename_i fields _ returns _
      cases hfirst : firstConstruct fields (constructs readList fields) with
      | error e =>
        rw [hfirst] at h
        cases h
      | ok action =>
        rw [hfirst] at h
        cases h
        rfl
  · cases h

theorem decode_eq_ok_iff {d : Document} {s : Step} :
    decode d = .ok s ↔ d.value? = some s.source ∧ read s.source = .ok s := by
  have hdecode : decode d = .ok s ↔ ∃ v, d.value? = some v ∧ read v = .ok s := by
    unfold decode Decode.value
    cases d.value? with
    | none => exact ⟨nofun, fun ⟨_, h, _⟩ => nomatch h⟩
    | some v =>
      dsimp only
      cases hv : read v with
      | error e =>
        refine ⟨nofun, ?_⟩
        rintro ⟨_, ⟨⟩, he⟩
        rw [hv] at he
        cases he
      | ok t =>
        refine ⟨?_, ?_⟩
        · rintro ⟨⟩
          exact ⟨v, rfl, hv⟩
        · rintro ⟨_, ⟨⟩, he⟩
          rw [hv] at he
          cases he
          rfl
  rw [hdecode]
  constructor
  · rintro ⟨v, hv, hs⟩
    rw [source_of_read hs]
    exact ⟨hv, hs⟩
  · exact fun ⟨hv, hs⟩ => ⟨_, hv, hs⟩

/-- **Steps are kept** in their sources. -/
theorem keeps_decode : Keeps decode source := by
  intro n d s hd h
  obtain ⟨hv, hs⟩ := decode_eq_ok_iff.mp h
  exact ⟨hd.plain hv, decode_eq_ok_iff.trans (and_iff_left hs)⟩

/-- Lists of steps as they are written. -/
theorem keeps_list : Keeps (Decode.list decode) fun steps => .list (steps.map source) :=
  keeps_decode.list

end Step

/-! ## Keywords -/

namespace Keyword

open Decode (takeField)

theorem names_optionalText (key : String) (s : Option String) :
    (Named.names (optionalText key s)).Sublist [key] := by
  cases s with
  | none => exact List.nil_sublist _
  | some s => exact List.Sublist.refl _

theorem forall_optionalText {P : Value → Prop} (hP : ∀ s, P (.text s)) (key : String)
    (s : Option String) : ∀ f ∈ optionalText key s, P f.2 := by
  cases s with
  | none => exact nofun
  | some s => exact List.forall_mem_singleton.mpr (hP s)

/-- The fields of a keyword as it is written. -/
def written (k : Keyword) : Named Value :=
  [("name", .text k.name),
    ("params", .list (k.params.map .text)),
    ("steps", .list (k.steps.map Step.source))]
    ++ optionalText "returns" k.returns ++ optionalText "description" k.description

theorem toValue_eq (k : Keyword) : k.toValue = .record k.written := rfl

theorem nodup_written (k : Keyword) : k.written.names.Nodup := by
  have hall : ["name", "params", "steps", "returns", "description"].Nodup := by decide
  refine hall.sublist ?_
  unfold written Named.names
  rw [List.map_append, List.map_append]
  exact ((List.Sublist.refl ["name", "params", "steps"]).append (names_optionalText _ _)).append
    (names_optionalText _ _)

/-- What holds of all texts holds of all that is written of a keyword, if it holds of its
parameters and steps. -/
theorem forall_written {P : Value → Prop} (hP : ∀ s, P (.text s)) (k : Keyword) :
    (∀ f ∈ k.written, P f.2)
      ↔ P (.list (k.params.map .text)) ∧ P (.list (k.steps.map Step.source)) := by
  unfold written
  rw [List.forall_mem_append, List.forall_mem_append, List.forall_mem_cons, List.forall_mem_cons,
    List.forall_mem_singleton]
  constructor
  · exact fun h => h.1.1.2
  · exact fun h => ⟨⟨⟨hP _, h⟩, forall_optionalText hP _ _⟩, forall_optionalText hP _ _⟩

/-- **What is written of a keyword** is decoded to the keyword, with its steps as they are
decoded. -/
theorem decode_toValue (k : Keyword) : decode (reread k.toValue)
    = Decode.list Step.decode (reread (.list (k.steps.map Step.source))) >>=
        fun steps => .ok { k with steps } := by
  have hname : ∀ draft : Draft, takeField fields draft ("name", .text k.name)
      = .ok { draft with name := k.name } := fun _ => rfl
  have hparams : ∀ draft : Draft, takeField fields draft ("params", .list (k.params.map .text))
      = .ok { draft with params := k.params } := by
    have htexts : Decode.list Decode.text (reread (.list (k.params.map .text))) = .ok k.params :=
      (Kept.list fun s _ => Decode.kept_text 0 s).decode_iff.mpr
        (Value.readsBack_list_iff.mpr (List.forall_mem_map.mpr fun s _ => Value.readsBack_text s))
    intro draft
    show (Decode.list Decode.text (reread (.list (k.params.map .text)))).map _ = _
    rw [htexts]
    rfl
  have hsteps : ∀ draft : Draft, takeField fields draft ("steps", .list (k.steps.map Step.source))
      = (Decode.list Step.decode (reread (.list (k.steps.map Step.source)))).map
          fun steps => { draft with steps := some steps } := fun _ => rfl
  have hreturns : ∀ draft : Draft, draft.returns = none →
      (optionalText "returns" k.returns).foldlM (takeField fields) draft
        = .ok { draft with returns := k.returns } := by
    rintro ⟨⟩ ⟨⟩
    cases k.returns <;> rfl
  have hdescription : ∀ draft : Draft, draft.description = none →
      (optionalText "description" k.description).foldlM (takeField fields) draft
        = .ok { draft with description := k.description } := by
    rintro ⟨⟩ ⟨⟩
    cases k.description <;> rfl
  rw [decode, toValue_eq, Decode.struct_reread k.nodup_written, Draft.empty, written]
  simp only [List.foldlM_append, List.foldlM_cons, List.foldlM_nil, hname, hparams, hsteps,
    hreturns,
    hdescription, Decode.ok_bind, Decode.map_bind, bind_assoc, pure_bind]
  rfl

/-- **Keywords are kept.** -/
theorem keeps_decode : Keeps decode toValue := by
  intro n d k hd h
  obtain ⟨m, rfl, hspec⟩ := Decode.struct_spec hd h
  obtain ⟨draft, hdraft, hfinish⟩ := hspec
    (fun draft => ∀ steps, draft.steps = some steps →
      Kept (Decode.list Step.decode) (fun steps => .list (steps.map Step.source)) m steps)
    nofun (by
      refine List.forall_mem_cons.mpr ⟨Decode.field_preserves fun _ _ _ _ _ h => h, ?_⟩
      refine List.forall_mem_cons.mpr ⟨Decode.field_preserves fun _ _ _ _ _ h => h, ?_⟩
      refine List.forall_mem_cons.mpr ⟨Decode.field_preserves fun _ d steps hd h _ _ he => ?_, ?_⟩
      · cases he
        exact Step.keeps_list _ d steps hd h
      refine List.forall_mem_cons.mpr ⟨Decode.field_preserves fun _ _ _ _ _ h => h, ?_⟩
      exact List.forall_mem_singleton.mpr (Decode.field_preserves fun _ _ _ _ _ h => h))
  have hkept :
      Kept (Decode.list Step.decode) (fun steps => .list (steps.map Step.source)) m k.steps := by
    unfold Draft.finish at hfinish
    split at hfinish
    · cases hfinish
    · rename_i steps hsteps
      cases hfinish
      exact hdraft steps hsteps
  constructor
  · -- The list of steps is nested once at least, so a list of texts is nested no deeper.
    have htexts : (Value.list (k.params.map .text)).Plain m := by
      cases hkept.plain with
      | list => exact .list (List.forall_mem_map.mpr fun _ _ => .text)
    exact .record k.nodup_written ((forall_written (fun _ => .text) k).mpr ⟨htexts, hkept.plain⟩)
  · have htexts : (Value.list (k.params.map .text)).ReadsBack :=
      Value.readsBack_list_iff.mpr (List.forall_mem_map.mpr fun s _ => Value.readsBack_text s)
    rw [decode_toValue, Decode.bind_eq_ok_iff, toValue_eq,
      Value.readsBack_record_iff k.nodup_written,
      forall_written Value.readsBack_text, and_iff_right htexts, ← hkept.decode_iff]
    constructor
    · rintro ⟨steps, hsteps, he⟩
      rw [hsteps, ← congrArg Keyword.steps (Except.ok.inj he)]
    · exact fun h => ⟨_, h, rfl⟩

end Keyword

/-! ## Data rows -/

namespace Dataset

theorem mapM_value?_eq (items : List Document) :
    items.mapM Document.value? = Document.valueItems? items := by
  induction items with
  | nil => rfl
  | cons d rest ih =>
    rw [List.mapM_cons, Document.valueItems?, ih]
    cases d.value? with
    | none => rfl
    | some v => cases Document.valueItems? rest <;> rfl

/-- Where the rows of a source come from in the document. -/
theorem exists_rows {fields : List (Option String × Document)} {source : Dataset}
    (h : (rows? fields <|> path? fields) = some source) :
    (∃ path, source = .file path)
      ∨ ∃ field ∈ fields, ∃ rows, field.2.value? = some (.list rows) ∧ source = .inline rows := by
  cases hrows : rows? fields with
  | some found =>
    right
    rw [hrows] at h
    cases h
    unfold rows? at hrows
    split at hrows
    · rename_i key items hfilter
      obtain ⟨rows, hitems, rfl⟩ := Option.map_eq_some_iff.mp hrows
      have hmem : (key, Document.list items) ∈ fields :=
        List.mem_of_mem_filter (hfilter ▸ List.mem_singleton_self _)
      refine ⟨_, hmem, rows, ?_, rfl⟩
      rw [Document.value?, ← mapM_value?_eq, hitems]
      rfl
    · cases hrows
  | none =>
    left
    have hpath : path? fields = some source := by rwa [hrows] at h
    unfold path? at hpath
    split at hpath
    · cases hpath
      exact ⟨_, rfl⟩
    · cases hpath
      exact ⟨_, rfl⟩
    · cases hpath

/-- What is decoded of rows that are written: the rows as they are read. -/
theorem decode_inline (rows : List Value) : decode (reread (toValue (.inline rows)))
    = match Document.valueItems? (Document.rereadItems rows) with
      | none => .error .malformed
      | some vs => .ok (.inline vs) := by
  have hrows : rows? (Document.rereadFields [("rows", .list rows)])
      = (Document.valueItems? (Document.rereadItems rows)).map inline := by
    rw [← mapM_value?_eq]
    rfl
  have hvalue : (reread (toValue (.inline rows))).value?
      = (Document.valueItems? (Document.rereadItems rows)).map
          fun vs => .record [("rows", .list vs)] := by
    rw [toValue, reread, Document.rereadFields, Document.rereadFields, reread, Document.value?,
      Document.valueFields?, Document.value?]
    cases Document.valueItems? (Document.rereadItems rows) <;> rfl
  unfold decode
  rw [hvalue, toValue, reread]
  dsimp only
  rw [hrows]
  cases Document.valueItems? (Document.rereadItems rows) <;> rfl

/-- **Sources of rows are kept.** -/
theorem keeps_decode : Keeps decode toValue := by
  intro n d source hd h
  have hsource : ∃ fields, d = .record fields ∧ (rows? fields <|> path? fields) = some source := by
    unfold decode at h
    split at h
    · cases h
    · split at h
      · split at h
        · rename_i hs
          cases h
          exact ⟨_, rfl, hs⟩
        · cases h
      · cases h
  obtain ⟨fields, rfl, hs⟩ := hsource
  cases hd with
  | @record m _ hd =>
    obtain ⟨path, rfl⟩ | ⟨field, hfield, rows, hrows, rfl⟩ := exists_rows hs
    · exact ⟨.record (List.nodup_singleton _) (List.forall_mem_singleton.mpr .text),
        iff_of_true rfl rfl⟩
    · have hn : Named.names [("rows", Value.list rows)] |>.Nodup := List.nodup_singleton _
      refine ⟨.record hn (List.forall_mem_singleton.mpr ((hd field hfield).plain hrows)), ?_⟩
      rw [decode_inline, toValue, Value.readsBack_record_iff hn, List.forall_mem_singleton,
        Value.readsBack_list_iff_valueItems?]
      cases Document.valueItems? (Document.rereadItems rows) with
      | none => exact ⟨nofun, nofun⟩
      | some vs => rw [Except.ok.injEq, inline.injEq, Option.some.injEq]

end Dataset

/-! ## Scenarios -/

namespace Scenario

open Decode (takeField)

/-- The fields of a scenario as it is written. -/
def written (s : Scenario) : Named Value :=
  [("name", .text s.name)]
    ++ Keyword.optionalText "description" s.description
    ++ [("variables", .record s.vars),
      ("keywords", .record (Decode.written Keyword.toValue s.keywords))]
    ++ (s.data.map fun d => ("data", d.toValue)).toList
    ++ [("continueOnError", .bool s.continueOnError),
      ("steps", .list (s.steps.map Step.source))]

theorem toValue_eq (s : Scenario) : s.toValue = .record s.written := rfl

theorem nodup_written (s : Scenario) : s.written.names.Nodup := by
  have hall : ["name", "description", "variables", "keywords", "data", "continueOnError",
    "steps"].Nodup := by decide
  have hdata :
      (s.data.map fun d => ("data", d.toValue)).toList.map Prod.fst |>.Sublist ["data"] := by
    cases s.data with
    | none => exact List.nil_sublist _
    | some d => exact List.Sublist.refl _
  refine hall.sublist ?_
  unfold written Named.names
  rw [List.map_append, List.map_append, List.map_append, List.map_append]
  exact ((((List.Sublist.refl ["name"]).append (Keyword.names_optionalText "description" _)).append
    (List.Sublist.refl ["variables", "keywords"])).append hdata).append
    (List.Sublist.refl ["continueOnError", "steps"])

/-- What holds of all texts and booleans holds of all that is written of a scenario, if it holds of
its variables, its keywords, its source of rows and its steps. -/
theorem forall_written {P : Value → Prop} (htext : ∀ s, P (.text s)) (hbool : ∀ b, P (.bool b))
    (s : Scenario) : (∀ f ∈ s.written, P f.2)
      ↔ P (.record s.vars) ∧ P (.record (Decode.written Keyword.toValue s.keywords))
        ∧ (∀ d ∈ s.data, P d.toValue) ∧ P (.list (s.steps.map Step.source)) := by
  have hdata : (∀ f ∈ (s.data.map fun d => ("data", d.toValue)).toList, P f.2)
      ↔ ∀ d ∈ s.data, P d.toValue := by
    cases s.data with
    | none => exact ⟨fun _ => nofun, fun _ => nofun⟩
    | some d => simp
  unfold written
  simp only [List.forall_mem_append, List.forall_mem_cons, List.not_mem_nil, false_implies,
    implies_true, and_true, hdata]
  constructor
  · rintro ⟨⟨⟨-, hvars, hkeywords⟩, hrows⟩, -, hsteps⟩
    exact ⟨hvars, hkeywords, hrows, hsteps⟩
  · rintro ⟨hvars, hkeywords, hrows, hsteps⟩
    exact ⟨⟨⟨⟨htext _, Keyword.forall_optionalText htext _ _⟩, hvars, hkeywords⟩, hrows⟩, hbool _,
      hsteps⟩

/-- **What is written of a scenario** is decoded to the scenario, with its parts as they are
decoded. -/
theorem decode_toValue (s : Scenario) : decode (reread s.toValue)
    = Decode.named Decode.value (reread (.record s.vars)) >>= fun vars =>
      Decode.named Keyword.decode (reread (.record (Decode.written Keyword.toValue s.keywords)))
        >>= fun keywords =>
      s.data.mapM (fun d => Dataset.decode (reread d.toValue)) >>= fun data =>
      Decode.list Step.decode (reread (.list (s.steps.map Step.source))) >>= fun steps =>
      .ok { s with vars, keywords := keywords.sorted, data, steps } := by
  have hname : ∀ draft : Draft, takeField fields draft ("name", .text s.name)
      = .ok { draft with name := some s.name } := fun _ => rfl
  have hdescription : ∀ draft : Draft, draft.description = none →
      (Keyword.optionalText "description" s.description).foldlM (takeField fields) draft
        = .ok { draft with description := s.description } := by
    rintro ⟨⟩ ⟨⟩
    cases s.description <;> rfl
  have hvars : ∀ draft : Draft, takeField fields draft ("variables", .record s.vars)
      = (Decode.named Decode.value (reread (.record s.vars))).map
          fun vars => { draft with vars } := fun _ => rfl
  have hkeywords : ∀ draft : Draft,
      takeField fields draft ("keywords", .record (Decode.written Keyword.toValue s.keywords))
        = (Decode.named Keyword.decode
            (reread (.record (Decode.written Keyword.toValue s.keywords)))).map
            fun keywords => { draft with keywords } := fun _ => rfl
  have hdata : ∀ draft : Draft, draft.data = none →
      (s.data.map fun d => ("data", d.toValue)).toList.foldlM (takeField fields) draft
        = (s.data.mapM fun d => Dataset.decode (reread d.toValue)).map
            fun data => { draft with data } := by
    rintro ⟨⟩ ⟨⟩
    cases s.data with
    | none => rfl
    | some d =>
      have hsome : Decode.optional Dataset.decode (reread d.toValue)
          = (Dataset.decode (reread d.toValue)).map some := by cases d <;> rfl
      show (Decode.optional Dataset.decode (reread d.toValue)).map _ >>= _ = _
      rw [hsome]
      show _ = (some <$> Dataset.decode (reread d.toValue)).map _
      cases Dataset.decode (reread d.toValue) <;> rfl
  have hcontinue : ∀ draft : Draft,
      takeField fields draft ("continueOnError", .bool s.continueOnError)
      = .ok { draft with continueOnError := s.continueOnError } := fun _ => rfl
  have hsteps : ∀ draft : Draft, takeField fields draft ("steps", .list (s.steps.map Step.source))
      = (Decode.list Step.decode (reread (.list (s.steps.map Step.source)))).map
          fun steps => { draft with steps := some steps } := fun _ => rfl
  rw [decode, toValue_eq, Decode.struct_reread s.nodup_written, Draft.empty, written]
  simp only [List.foldlM_append, List.foldlM_cons, List.foldlM_nil, hname, hdescription, hvars,
    hkeywords, hdata, hcontinue, hsteps, Decode.ok_bind, Decode.map_bind, bind_assoc, pure_bind]
  rfl

/-- **The parts of a scenario are kept**, and its names stand once: those of keywords in order. -/
structure Sound (m : Nat) (s : Scenario) : Prop where
  names_vars : s.vars.names.Nodup
  vars : ∀ f ∈ s.vars, f.2.Plain m
  names_keywords : s.keywords.names.Nodup
  sorted : s.keywords.names.Pairwise (· ≤ ·)
  keywords : ∀ f ∈ s.keywords, Kept Keyword.decode Keyword.toValue m f.2
  data : ∀ d ∈ s.data, Kept Dataset.decode Dataset.toValue (m + 1) d
  steps : Kept (Decode.list Step.decode) (fun steps => .list (steps.map Step.source)) (m + 1)
    s.steps

/-- So they are in a draft. -/
structure Draft.Sound (m : Nat) (draft : Draft) : Prop where
  vars : draft.vars.names.Nodup ∧ ∀ f ∈ draft.vars, Kept Decode.value id (m - 1) f.2
  keywords : draft.keywords.names.Nodup
    ∧ ∀ f ∈ draft.keywords, Kept Keyword.decode Keyword.toValue (m - 1) f.2
  data : ∀ d ∈ draft.data, Kept Dataset.decode Dataset.toValue m d
  steps : ∀ steps ∈ draft.steps,
    Kept (Decode.list Step.decode) (fun steps => .list (steps.map Step.source)) m steps

theorem Draft.sound_empty (m : Nat) : Draft.empty.Sound m :=
  ⟨⟨List.nodup_nil, nofun⟩, ⟨List.nodup_nil, nofun⟩, nofun, nofun⟩

/-- Every field takes in something that is kept. -/
theorem preserves_fields (m : Nat) : ∀ f ∈ fields, f.Preserves (Draft.Sound m) m := by
  have hplain : ∀ {α : Type} {key : String} {decode : Document → Decode.Decoded α}
      {store : Draft → α → Draft},
      (∀ draft a, Draft.Sound m draft → Draft.Sound m (store draft a)) →
      (Decode.field key decode store).Preserves (Draft.Sound m) m :=
    fun h => Decode.field_preserves fun draft _ a _ _ hdraft => h draft a hdraft
  refine List.forall_mem_cons.mpr ⟨hplain fun _ _ h => ⟨h.1, h.2, h.3, h.4⟩, ?_⟩
  refine List.forall_mem_cons.mpr ⟨hplain fun _ _ h => ⟨h.1, h.2, h.3, h.4⟩, ?_⟩
  refine List.forall_mem_cons.mpr ⟨Decode.field_preserves fun _ d vars hd hvars h => ?_, ?_⟩
  · exact ⟨Decode.keeps_value.named hd hvars, h.keywords, h.data, h.steps⟩
  refine List.forall_mem_cons.mpr ⟨Decode.field_preserves fun _ d keywords hd hkeywords h => ?_, ?_⟩
  · exact ⟨h.vars, Keyword.keeps_decode.named hd hkeywords, h.data, h.steps⟩
  refine List.forall_mem_cons.mpr ⟨Decode.field_preserves fun _ d data hd hdata h => ?_, ?_⟩
  · refine ⟨h.vars, h.keywords, ?_, h.steps⟩
    rintro source ⟨⟩
    exact Dataset.keeps_decode m d source hd (Decode.of_optional_eq_some hdata)
  refine List.forall_mem_cons.mpr ⟨hplain fun _ _ h => ⟨h.1, h.2, h.3, h.4⟩, ?_⟩
  refine List.forall_mem_singleton.mpr (Decode.field_preserves fun _ d steps hd hsteps h => ?_)
  refine ⟨h.vars, h.keywords, h.data, ?_⟩
  rintro _ ⟨⟩
  exact Step.keeps_list m d steps hd hsteps

/-- Every scenario that is decoded is sound. Its list of steps is nested once at least. -/
theorem sound_of_decode {n : Nat} {d : Document} {s : Scenario} (hd : Nested n d)
    (h : decode d = .ok s) : ∃ m, n = m + 2 ∧ s.Sound m := by
  obtain ⟨l, rfl, hspec⟩ := Decode.struct_spec hd h
  obtain ⟨draft, hdraft, hfinish⟩ :=
    hspec (Draft.Sound l) (Draft.sound_empty l) (preserves_fields l)
  unfold Draft.finish at hfinish
  split at hfinish
  · cases hfinish
  · cases hfinish
  · rename_i name steps _ hsteps
    cases hfinish
    have hlist := hdraft.steps steps hsteps
    obtain ⟨m, rfl⟩ : ∃ m, l = m + 1 := by
      cases hlist.plain
      exact ⟨_, rfl⟩
    have hperm := Named.sorted_perm draft.keywords
    exact ⟨m, rfl, {
      names_vars := hdraft.vars.1
      vars := fun f hf => (hdraft.vars.2 f hf).plain
      names_keywords := (Named.names_perm hperm).nodup_iff.mpr hdraft.keywords.1
      sorted := Named.pairwise_sorted _
      keywords := fun f hf => hdraft.keywords.2 f (hperm.mem_iff.mp hf)
      data := hdraft.data
      steps := hlist }⟩

/-- **Scenarios are kept.** -/
theorem keeps_decode : Keeps decode toValue := by
  intro n d s hd h
  obtain ⟨m, rfl, hs⟩ := sound_of_decode hd h
  have hvars := Decode.kept_record hs.names_vars hs.vars
  have hkeywords := Kept.named hs.names_keywords hs.keywords
  have hdata : s.data.mapM (fun d => Dataset.decode (reread d.toValue)) = .ok s.data
      ↔ ∀ d ∈ s.data, d.toValue.ReadsBack := by
    rw [Decode.mapM_option_eq_ok_iff]
    exact forall₂_congr fun d hd => (hs.data d hd).decode_iff
  constructor
  · exact .record s.nodup_written ((forall_written (fun _ => .text) (fun _ => .bool) s).mpr
      ⟨hvars.plain, hkeywords.plain, fun d hd => (hs.data d hd).plain, hs.steps.plain⟩)
  · rw [decode_toValue, toValue_eq, Value.readsBack_record_iff s.nodup_written,
      forall_written Value.readsBack_text Value.readsBack_bool, ← hvars.decode_iff,
      ← hkeywords.decode_iff, ← hs.steps.decode_iff, ← hdata]
    simp only [Decode.bind_eq_ok_iff]
    constructor
    · rintro ⟨vars, hvars, keywords, hkeywords, data, hdata, steps, hsteps, he⟩
      have hs' := Except.ok.inj he
      have hnames := Decode.names_of_named_written hs.names_keywords hkeywords
      have hsorted : keywords.sorted = keywords := Named.sorted_eq_self (hnames ▸ hs.sorted)
      rw [hvars, hkeywords, hdata, hsteps, ← hs', hsorted]
      exact ⟨rfl, rfl, rfl, rfl⟩
    · rintro ⟨hvars, hkeywords, hdata, hsteps⟩
      refine ⟨_, hvars, _, hkeywords, _, hdata, _, hsteps, ?_⟩
      rw [Named.sorted_eq_self hs.sorted]

/-! ## Loading again -/

theorem ofJson_eq_ok_iff {text : String} {s : Scenario} :
    ofJson text = .ok s ↔ Decode.ofJson decode text = .ok s ∧ validate s = .ok s := by
  have hself : ∀ {t u : Scenario}, validate t = .ok u → t = u := by
    intro t u h
    unfold validate at h
    split at h
    · cases h
    · split at h
      · cases h
      · exact Except.ok.inj h
  unfold ofJson
  constructor
  · intro h
    cases hread : Decode.ofJson decode text with
    | error e =>
      rw [hread] at h
      cases h
    | ok t =>
      rw [hread] at h
      obtain rfl := hself h
      exact ⟨rfl, h⟩
  · rintro ⟨hread, hvalid⟩
    rw [hread]
    exact hvalid

end Scenario

theorem exists_ok_of_any {ε α : Type} {x : Except ε α} {p : α → Bool}
    (h : x.toOption.any p = true) : ∃ a, x = .ok a ∧ p a = true := by
  cases x with
  | error e => cases h
  | ok a => exact ⟨a, rfl, h⟩

/-- **What was loaded is loaded again** from the text that is written of it: settings always, and a
scenario if and only if every double in it is read back from its own text. -/
theorem reload_written (text : String) :
    (∀ s, Scenario.ofJson text = .ok s →
      (Scenario.ofJson s.toValue.render = .ok s
        ↔ ∀ x hx, .double x hx ∈ s.toValue.numbers →
          (Number.double x hx).reread = some (.double x hx)))
    ∧ ∀ s, Settings.ofJson text = .ok s → Settings.ofJson s.toValue.render = .ok s := by
  refine ⟨fun s h => ?_, fun _ => Settings.ofJson_toValue⟩
  obtain ⟨hread, hvalid⟩ := Scenario.ofJson_eq_ok_iff.mp h
  obtain ⟨d, hd, hdecode⟩ := Decode.exists_of_ofJson hread
  rw [Scenario.ofJson_eq_ok_iff, and_iff_left hvalid, Scenario.keeps_decode.ofJson_iff hread,
    (Scenario.keeps_decode _ d s hd hdecode).plain.readsBack_iff]

/-- A scenario with a field that nothing asks for, a keyword that is written as a list and a double,
and settings where some are missing. -/
theorem reload_written_half :
    let scenario := "\x7b\"extra\":[1],\"steps\":[\x7b\"run\":\"k\",\"args\":[0.5]\x7d],"
      ++ "\"name\":\"s\","
      ++ "\"keywords\":\x7b\"k\":[\"k\",[\"p\"],[\x7b\"return\":\"p\"\x7d]]\x7d\x7d"
    let settings := "\x7b\"batch\":[3],\"race\":\x7b\"timeout\":18446744073709551615\x7d\x7d"
    (∃ s, Scenario.ofJson scenario = .ok s ∧ Scenario.ofJson s.toValue.render = .ok s)
      ∧ ∃ s, Settings.ofJson settings = .ok s ∧ Settings.ofJson s.toValue.render = .ok s := by
  intro scenario settings
  have hscenario : ((Scenario.ofJson scenario).toOption.any fun s =>
      s.toValue.numbers.all fun x => decide (x.reread = some x)) = true := by decide +kernel
  have hsettings : (Settings.ofJson settings).isOk = true := by decide +kernel
  constructor
  · obtain ⟨s, hs, hnumbers⟩ := exists_ok_of_any hscenario
    refine ⟨s, hs, ((reload_written scenario).1 s hs).mpr fun x hx hmem => ?_⟩
    exact of_decide_eq_true (List.all_eq_true.mp hnumbers _ hmem)
  · cases hs : Settings.ofJson settings with
    | error e =>
      rw [hs] at hsettings
      cases hsettings
    | ok s => exact ⟨s, rfl, (reload_written settings).2 s hs⟩

/-- Not every scenario is loaded again: the double here is written with sixteen digits, which are
read as the double next to it. -/
theorem reload_written_ne :
    let text := "\x7b\"name\":\"s\",\"variables\":\x7b\"x\":90.13438738599286\x7d,"
      ++ "\"steps\":[\x7b\"log\":1\x7d]\x7d"
    ∃ s t, Scenario.ofJson text = .ok s ∧ Scenario.ofJson s.toValue.render = .ok t
      ∧ t.toValue.render ≠ s.toValue.render := by
  intro text
  let saved := "\x7b\"name\":\"s\",\"variables\":\x7b\"x\":90.13438738599287\x7d,"
    ++ "\"keywords\":\x7b\x7d,\"continueOnError\":false,\"steps\":[\x7b\"log\":1\x7d]\x7d"
  obtain ⟨s, hs, hrender⟩ := exists_ok_of_any
    (show ((Scenario.ofJson text).toOption.any fun s => decide (s.toValue.render = saved)) = true by
      decide +kernel)
  obtain ⟨t, ht, hdiffer⟩ := exists_ok_of_any
    (show
        ((Scenario.ofJson saved).toOption.any fun t => decide (t.toValue.render ≠ saved)) = true by
      decide +kernel)
  have hsaved : s.toValue.render = saved := of_decide_eq_true hrender
  refine ⟨s, t, hs, hsaved ▸ ht, ?_⟩
  rw [hsaved]
  exact of_decide_eq_true hdiffer

end Playbook
