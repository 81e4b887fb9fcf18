import Playbook.Proofs.Step.Reading

/-!
# What a step does

A record says what its step does by the first construct key that it has, in the order of
`Step.constructKeys` (`Step.firstKey?`). That key, its value and the keys that are no construct keys
tell the action or what is wrong with it; construct keys that come later could be left out, added or
changed. A record without any construct key is an action for the handlers if one key is left
(`Step.candidates`), and is not understood otherwise. The order of the fields is nowhere looked at,
so another order gives the same step (`Step.Reordered`), or the same failure but for the order of
the keys that are listed in it. All this is `Step.read_by_priority`.
-/

namespace Playbook

/-- The construct keys that introduce an action. -/
def Action.introducedBy : Action → List String
  | keyword _ _ => ["run", "keyword"]
  | ifElse _ _ _ => ["if"]
  | forEach _ _ => ["foreach"]
  | map _ _ _ => ["map"]
  | filter _ _ => ["filter"]
  | while_ _ _ _ => ["while"]
  | repeat_ _ _ _ _ => ["repeat"]
  | parallel _ _ => ["parallel"]
  | race _ _ => ["parallel"]
  | batch _ _ => ["parallel"]
  | parallelForEach _ _ _ => ["parallel"]
  | try_ _ _ _ _ => ["try"]
  | assign .globals _ => ["set"]
  | assign .locals _ => ["let"]
  | return_ _ => ["return"]
  | measure _ _ _ => ["measure"]
  | domain _ _ _ => []

namespace Step

/-- The keys of constructs in the order of their priority. -/
def constructKeys : List String :=
  ["run", "keyword", "if", "foreach", "map", "filter", "while", "repeat", "parallel", "try", "set",
    "let", "return", "measure"]

/-- The construct key that says what a record does. -/
def firstKey? (fields : Named Value) : Option String :=
  constructKeys.find? fun key => (fields.lookup key).isSome

/-- The keys that could name an action for the handlers. -/
def candidates (fields : Named Value) : List String :=
  fields.names.filter fun key => !auxiliaryKeys.contains key && !optionKeys.contains key

/-- The fields that are handed on to the handlers. -/
def options (fields : Named Value) : Named Value :=
  fields.filter fun field => optionKeys.contains field.1

/-- The step, written in another way. -/
def withSource (v : Value) : Step → Step
  | mk action returns continueOnError label _ => mk action returns continueOnError label v

/-- **A step that is written with its fields in another order** is the same step. An action for the
handlers has its options in that order too. -/
inductive Reordered : Step → Step → Prop
  | action {action returns continueOnError label fields other} (h : List.Perm fields other) :
    Reordered (.mk action returns continueOnError label (.record fields))
      (.mk action returns continueOnError label (.record other))
  | domain {name params options options' returns continueOnError label fields other}
    (h : List.Perm fields other) (ho : List.Perm options options') :
    Reordered (.mk (.domain name params options) returns continueOnError label (.record fields))
      (.mk (.domain name params options') returns continueOnError label (.record other))

/-! ## What constructs introduce -/

section

variable {α β : Type} {p : α → Prop} {x : Except Failure α} {e : Failure}

/-- A reader makes nothing but what has a property. -/
def Yields (p : α → Prop) (x : Except Failure α) : Prop :=
  ∀ a, x = .ok a → p a

theorem Yields.ok {a : α} (h : p a) : Yields p (.ok a) := by
  rintro _ ⟨⟩
  exact h

theorem Yields.error : Yields p (.error e) := nofun

theorem Yields.bind {x : Except Failure β} {f : β → Except Failure α} (h : ∀ b, Yields p (f b)) :
    Yields p (x >>= f) := by
  cases x with
  | error e => exact nofun
  | ok b => exact h b

theorem Yields.map {x : Except Failure β} {g : β → α} (h : ∀ b, p (g b)) :
    Yields p (x.map g) := by
  cases x with
  | error e => exact nofun
  | ok b => exact .ok (h b)

end

variable {steps : Value → Except Failure (List Step)} {fields other : Named Value}
  {key : String} {v : Value}

theorem keywordCall_yields (hkey : key = "run" ∨ key = "keyword") :
    Yields (key ∈ Action.introducedBy ·) (keywordCall v fields) := by
  have hmem : ∀ name args, key ∈ (Action.keyword name args).introducedBy := by
    rintro name args
    obtain rfl | rfl := hkey
    · exact List.mem_cons_self
    · exact List.mem_cons_of_mem _ List.mem_cons_self
  unfold keywordCall
  split
  · split <;> exact .ok (hmem _ _)
  · exact .error

theorem parallelBlock_yields :
    Yields ("parallel" ∈ Action.introducedBy ·) (parallelBlock steps v) := by
  unfold parallelBlock
  split
  · exact .map fun _ => List.mem_singleton_self _
  · split
    · exact .bind fun _ => .bind fun _ => .bind fun _ => .ok (List.mem_singleton_self _)
    · exact .bind fun _ => .bind fun _ => .bind fun _ => .bind fun _ => .bind fun _ =>
        .ok (List.mem_singleton_self _)
    · exact .bind fun _ => .bind fun _ => .bind fun _ => .bind fun _ => .bind fun _ =>
        .ok (List.mem_singleton_self _)
    · exact .bind fun _ => .bind fun _ => .bind fun _ => .ok (List.mem_singleton_self _)
    · exact .error
  · exact .error

theorem measurement_yields :
    Yields ("measure" ∈ Action.introducedBy ·) (measurement steps v) := by
  unfold measurement
  refine .bind fun inner => ?_
  split
  · exact .error
  · refine .bind fun body => ?_
    split
    · split
      · exact .error
      · exact .ok (List.mem_singleton_self _)
    · exact .ok (List.mem_singleton_self _)

/-- **A construct introduces actions of its own kind.** -/
theorem introducedBy_of_constructs {c : String × (Value → Except Failure Action)}
    (hc : c ∈ constructs steps fields) (v : Value) :
    Yields (c.1 ∈ Action.introducedBy ·) (c.2 v) := by
  revert c
  unfold constructs
  simp only [List.forall_mem_cons]
  refine ⟨keywordCall_yields (.inl rfl), keywordCall_yields (.inr rfl), ?_, ?_, ?_, ?_, ?_, ?_,
    parallelBlock_yields, ?_, ?_, ?_, .ok (List.mem_singleton_self _), measurement_yields, nofun⟩
  · exact .bind fun _ => .bind fun _ => .bind fun _ => .ok (List.mem_singleton_self _)
  · exact .bind fun _ => .bind fun _ => .bind fun _ => .ok (List.mem_singleton_self _)
  · exact .bind fun _ => .bind fun _ => .bind fun _ => .ok (List.mem_singleton_self _)
  · exact .bind fun _ => .bind fun _ => .bind fun _ => .bind fun _ =>
      .ok (List.mem_singleton_self _)
  · exact .bind fun _ => .bind fun _ => .bind fun _ => .bind fun _ => .bind fun _ =>
      .ok (List.mem_singleton_self _)
  · exact .bind fun _ => .bind fun _ => .bind fun _ => .ok (List.mem_singleton_self _)
  · exact .bind fun _ => .bind fun _ => .bind fun _ => .ok (List.mem_singleton_self _)
  · exact .map fun _ => List.mem_singleton_self _
  · exact .map fun _ => List.mem_singleton_self _

/-! ## Which construct counts -/

theorem keys_constructs : (constructs steps fields).map Prod.fst = constructKeys := rfl

/-- The construct that counts is that of the first key. -/
theorem exists_construct_of_firstKey? (steps : Value → Except Failure (List Step))
    (h : firstKey? fields = some key) :
    ∃ read v, (key, read) ∈ constructs steps fields ∧ fields.lookup key = some v
      ∧ (constructs steps fields).lookup key = some read
      ∧ firstConstruct fields (constructs steps fields) = read v := by
  have hfirst : ∀ table : List (String × (Value → Except Failure Action)),
      (table.map Prod.fst).find? (fun k => (fields.lookup k).isSome) = some key →
      ∃ read v, (key, read) ∈ table ∧ fields.lookup key = some v
        ∧ table.lookup key = some read ∧ firstConstruct fields table = read v := by
    intro table ht
    induction table with
    | nil => cases ht
    | cons c rest ih =>
      obtain ⟨k, read⟩ := c
      rw [List.map_cons, List.find?_cons] at ht
      rw [firstConstruct]
      cases hl : fields.lookup k with
      | some v =>
        rw [hl] at ht
        cases ht
        exact ⟨read, v, List.mem_cons_self, hl, List.lookup_cons_self, rfl⟩
      | none =>
        rw [hl] at ht
        obtain ⟨read', v, hm, hv, hlookup, he⟩ := ih ht
        have hne : (key == k) = false := by
          rw [beq_eq_false_iff_ne]
          rintro rfl
          rw [hl] at hv
          cases hv
        refine ⟨read', v, List.mem_cons_of_mem _ hm, hv, ?_, he⟩
        rw [List.lookup_cons, hne]
        exact hlookup
  refine hfirst _ ?_
  rw [keys_constructs]
  exact h

/-- Without a construct key, a record is an action for the handlers. -/
theorem firstConstruct_of_firstKey? (h : firstKey? fields = none) :
    firstConstruct fields (constructs steps fields) = domainAction fields := by
  have hnone : ∀ table : List (String × (Value → Except Failure Action)),
      (∀ c ∈ table, fields.lookup c.1 = none) →
        firstConstruct fields table = domainAction fields := by
    intro table ht
    induction table with
    | nil => rfl
    | cons c rest ih =>
      obtain ⟨hc, hrest⟩ := List.forall_mem_cons.mp ht
      rw [firstConstruct, hc]
      exact ih hrest
  refine hnone _ fun c hc => ?_
  rw [← Option.not_isSome_iff_eq_none]
  exact List.find?_eq_none.mp h c.1 (List.mem_map_of_mem hc)

theorem branch_congr_fields (steps : Value → Except Failure (List Step)) (v : Value)
    (h : ∀ k ∉ constructKeys, other.lookup k = fields.lookup k) :
    branch steps v other = branch steps v fields := by
  unfold branch
  cases v.fields?.filter fun inner => (inner.lookup "condition").isSome with
  | some inner => rfl
  | none =>
    show Condition.read v >>= _ = Condition.read v >>= _
    simp only [Option.getD_none, fieldOrNull, h "then" (by decide), h "else" (by decide)]

/-- **What is read beside a construct** stands under other keys than those of constructs. -/
theorem constructs_congr (h : ∀ k ∉ constructKeys, other.lookup k = fields.lookup k) :
    constructs steps other = constructs steps fields := by
  have hcall : ∀ v, keywordCall v other = keywordCall v fields := by
    intro v
    unfold keywordCall
    rw [h "args" (by decide), h "params" (by decide)]
  have htry : ∀ v, tryBlock steps v other = tryBlock steps v fields := by
    intro v
    simp only [tryBlock, fieldOrNull, textField, h "catch" (by decide), h "finally" (by decide),
      h "as" (by decide)]
  have hassign : ∀ target v, assignments target v other = assignments target v fields := by
    intro target v
    unfold assignments required
    rw [h "value" (by decide)]
  simp only [constructs, hcall, fun v => branch_congr_fields steps v h, htry,
    hassign]

/-! ## Actions for the handlers -/

/-- The fields whose keys could name an action. -/
theorem candidates_eq : candidates fields
    = Named.names (fields.filter fun field =>
        !auxiliaryKeys.contains field.1 && !optionKeys.contains field.1) :=
  List.filter_map

/-- A record with one key left is the action of that name. -/
theorem domainAction_of_single (hn : fields.names.Nodup) {name : String}
    (h : candidates fields = [name]) :
    domainAction fields = .ok (.domain name (fieldOrNull name fields) (options fields)) := by
  rw [candidates_eq] at h
  obtain ⟨⟨k, v⟩, hf, rfl⟩ := List.map_eq_singleton_iff.mp h
  have hmem : (k, v) ∈ fields :=
    (List.mem_filter.mp (hf ▸ List.mem_singleton_self _ : (k, v) ∈ fields.filter _)).1
  rw [fieldOrNull, Named.lookup_of_mem hn hmem]
  unfold domainAction
  dsimp only
  rw [hf]
  rfl

/-- Every other record is not understood. -/
theorem domainAction_of_not_single (h : (candidates fields).length ≠ 1) :
    domainAction fields = .error (.unknownAction fields.names) := by
  rw [candidates_eq, Named.names, List.length_map] at h
  unfold domainAction
  dsimp only
  split
  · rename_i hf
    rw [hf] at h
    exact (h rfl).elim
  · rfl

theorem candidates_perm (hp : fields.Perm other) : (candidates fields).Perm (candidates other) :=
  (Named.names_perm hp).filter _

theorem firstKey?_congr (h : ∀ k, other.lookup k = fields.lookup k) :
    firstKey? other = firstKey? fields := by
  unfold firstKey?
  simp only [h]

/-! ## Steps -/

/-- What is read of a record besides its action. -/
theorem read_record {returns : Option String} (hr : returnsOf fields = .ok returns) :
    read (.record fields)
      = (firstConstruct fields (constructs readList fields)).map fun action =>
          .mk action returns ((boolField "continueOnError" fields).getD false)
            ((fields.lookup "name" <|> fields.lookup "description").bind Value.text?)
            (.record fields) := by
  rw [read_eq, readWith, hr]

theorem returnsOf_eq_ok (hr : ∀ v, (fields.lookup "returns" <|> fields.lookup "assign") = some v →
    v = .null ∨ ∃ s, v = .text s) : ∃ returns, returnsOf fields = .ok returns := by
  unfold returnsOf
  cases hl : fields.lookup "returns" <|> fields.lookup "assign" with
  | none => exact ⟨_, rfl⟩
  | some v =>
    obtain rfl | ⟨s, rfl⟩ := hr v hl
    · exact ⟨_, rfl⟩
    · exact ⟨_, rfl⟩

/-- What a record says besides its construct is not said under the keys of constructs. -/
theorem read_eq_map_withSource (h : ∀ k ∉ constructKeys, other.lookup k = fields.lookup k)
    (hc : firstConstruct other (constructs readList other)
      = firstConstruct fields (constructs readList fields)) :
    read (.record other) = (read (.record fields)).map (withSource (.record other)) := by
  have hreturns : returnsOf other = returnsOf fields := by
    unfold returnsOf
    rw [h "returns" (by decide), h "assign" (by decide)]
  cases hr : returnsOf fields with
  | error e =>
    rw [read_eq, read_eq, readWith, readWith, hreturns, hr]
    rfl
  | ok returns =>
    rw [read_record hr, read_record (hreturns.trans hr), hc, boolField, boolField,
      h "continueOnError" (by decide), h "name" (by decide), h "description" (by decide)]
    cases firstConstruct fields (constructs readList fields) <;> rfl

/-- **Lower construct keys do not count**: records that have the same first one, with the same
value, and the same under all keys that are not of constructs, are read in the same way. -/
theorem read_of_firstKey? (hf : firstKey? fields = some key) (hf' : firstKey? other = some key)
    (h : ∀ k, k = key ∨ k ∉ constructKeys → other.lookup k = fields.lookup k) :
    read (.record other) = (read (.record fields)).map (withSource (.record other)) := by
  have hrest : ∀ k ∉ constructKeys, other.lookup k = fields.lookup k := fun k hk => h k (.inr hk)
  refine read_eq_map_withSource hrest ?_
  obtain ⟨reader, v, -, hv, hl, he⟩ := exists_construct_of_firstKey? readList hf
  obtain ⟨reader', v', -, hv', hl', he'⟩ := exists_construct_of_firstKey? readList hf'
  rw [constructs_congr hrest, hl] at hl'
  rw [h key (.inl rfl), hv] at hv'
  cases hl'
  cases hv'
  rw [he, he']

/-- In another order, the first construct is the same; without one, the options of the action are in
that order, or the keys that are listed. -/
theorem firstConstruct_perm (hp : fields.Perm other) (hn : fields.names.Nodup) :
    firstConstruct other (constructs readList other)
        = firstConstruct fields (constructs readList fields)
    ∨ (∃ name params options options', List.Perm options options'
      ∧ firstConstruct fields (constructs readList fields) = .ok (.domain name params options)
      ∧ firstConstruct other (constructs readList other) = .ok (.domain name params options'))
    ∨ (firstConstruct fields (constructs readList fields) = .error (.unknownAction fields.names)
      ∧ firstConstruct other (constructs readList other)
        = .error (.unknownAction other.names)) := by
  have hlookup := Named.lookup_perm hp hn
  have htable : constructs readList other = constructs readList fields :=
    constructs_congr fun k _ => hlookup k
  have hkey := firstKey?_congr hlookup
  cases hf : firstKey? fields with
  | some key =>
    left
    obtain ⟨reader, v, -, hv, hl, he⟩ := exists_construct_of_firstKey? readList hf
    obtain ⟨reader', v', -, hv', hl', he'⟩ :=
      exists_construct_of_firstKey? readList (hkey.trans hf)
    rw [htable, hl] at hl'
    rw [hlookup, hv] at hv'
    cases hl'
    cases hv'
    rw [he, he']
  | none =>
    right
    rw [firstConstruct_of_firstKey? hf, firstConstruct_of_firstKey? (hkey.trans hf)]
    have hcand := candidates_perm hp
    by_cases hone : (candidates fields).length = 1
    · left
      obtain ⟨name, hname⟩ := List.length_eq_one_iff.mp hone
      rw [hname] at hcand
      have hname' := List.singleton_perm.mp hcand
      have hn' := (Named.names_perm hp).nodup_iff.mp hn
      rw [domainAction_of_single hn hname, domainAction_of_single hn' hname'.symm, fieldOrNull,
        fieldOrNull, hlookup]
      exact ⟨_, _, _, _, hp.filter _, rfl, rfl⟩
    · right
      exact ⟨domainAction_of_not_single hone,
        domainAction_of_not_single (hcand.length_eq ▸ hone)⟩

/-- **The order of fields does not count**: the same record in another order is the same step, or
is not understood in the same way. -/
theorem read_perm (hp : fields.Perm other) (hn : fields.names.Nodup) :
    (∀ s, read (.record fields) = .ok s → ∃ s', read (.record other) = .ok s' ∧ s.Reordered s')
    ∧ ∀ e, read (.record fields) = .error e → read (.record other) = .error e
      ∨ e = .unknownAction fields.names
        ∧ read (.record other) = .error (.unknownAction other.names) := by
  have hlookup := Named.lookup_perm hp hn
  have hreturns : returnsOf other = returnsOf fields := by
    unfold returnsOf
    rw [hlookup, hlookup]
  cases hr : returnsOf fields with
  | error e₀ =>
    rw [read_eq, read_eq, readWith, readWith, hreturns, hr]
    exact ⟨nofun, fun e he => .inl he⟩
  | ok returns =>
    rw [read_record hr, read_record (hreturns.trans hr), boolField, boolField, hlookup, hlookup,
      hlookup]
    obtain heq | ⟨name, params, o, o', ho, hf, hf'⟩ | ⟨hf, hf'⟩ := firstConstruct_perm hp hn
    · rw [heq]
      cases firstConstruct fields (constructs readList fields) with
      | error e₀ => exact ⟨nofun, fun e he => .inl he⟩
      | ok action =>
        refine ⟨?_, nofun⟩
        rintro _ ⟨⟩
        exact ⟨_, rfl, .action hp⟩
    · rw [hf, hf']
      refine ⟨?_, nofun⟩
      rintro _ ⟨⟩
      exact ⟨_, rfl, .domain hp ho⟩
    · rw [hf, hf']
      refine ⟨nofun, ?_⟩
      rintro _ ⟨⟩
      exact .inr ⟨rfl, rfl⟩

/-- **What a step does is told by priority.** Take a record with each key once that names no
variable for its value, or names it by a text.

* If it has construct keys, its action, or what is wrong with it, is what the first of them
  introduces, an action of that kind. Any other record with the same first key, the same value there
  and the same under the keys that are not of constructs is read in the same way.
* If it has none, it is an action for the handlers if one key is left besides those for every step
  and those for options. Otherwise it is not understood, and its keys are listed.
* In another order of its fields it is the same step, or the same failure. -/
theorem read_by_priority (hn : fields.names.Nodup)
    (hr : ∀ v, (fields.lookup "returns" <|> fields.lookup "assign") = some v →
      v = .null ∨ ∃ s, v = .text s) :
    (∀ key, firstKey? fields = some key →
      (∃ reader v, (constructs readList fields).lookup key = some reader
        ∧ fields.lookup key = some v ∧ (read (.record fields)).map action = reader v)
      ∧ (∀ s, read (.record fields) = .ok s → key ∈ s.action.introducedBy)
      ∧ ∀ other : Named Value, firstKey? other = some key →
        (∀ k, k = key ∨ k ∉ constructKeys → other.lookup k = fields.lookup k) →
        read (.record other) = (read (.record fields)).map (withSource (.record other)))
    ∧ (firstKey? fields = none →
      (∀ name, candidates fields = [name] → (read (.record fields)).map action
        = .ok (.domain name (fieldOrNull name fields) (options fields)))
      ∧ ((candidates fields).length ≠ 1 →
        read (.record fields) = .error (.unknownAction fields.names)))
    ∧ ∀ other : Named Value, fields.Perm other →
      (∀ s, read (.record fields) = .ok s → ∃ s', read (.record other) = .ok s' ∧ s.Reordered s')
      ∧ ∀ e, read (.record fields) = .error e → read (.record other) = .error e
        ∨ e = .unknownAction fields.names
          ∧ read (.record other) = .error (.unknownAction other.names) := by
  obtain ⟨returns, hreturns⟩ := returnsOf_eq_ok hr
  have haction : (read (.record fields)).map action
      = firstConstruct fields (constructs readList fields) := by
    rw [read_record hreturns]
    cases firstConstruct fields (constructs readList fields) <;> rfl
  refine ⟨fun key hf => ?_, fun hf => ⟨fun name hname => ?_, fun hone => ?_⟩,
    fun other hp => read_perm hp hn⟩
  · obtain ⟨reader, v, hm, hv, hl, he⟩ := exists_construct_of_firstKey? readList hf
    refine ⟨⟨reader, v, hl, hv, haction.trans he⟩, fun s hs => ?_,
      fun other hf' h => read_of_firstKey? hf hf' h⟩
    rw [hs, he] at haction
    exact introducedBy_of_constructs hm v _ haction.symm
  · rw [haction, firstConstruct_of_firstKey? hf, domainAction_of_single hn hname]
  · rw [read_record hreturns, firstConstruct_of_firstKey? hf, domainAction_of_not_single hone]
    rfl

/-- An assignment without a value stands in front of a call, which counts. -/
theorem read_by_priority_call :
    let fields : Named Value := [("set", .text "x"), ("returns", .text "r"), ("run", .text "k")]
    fields.names.Nodup ∧ firstKey? fields = some "run"
      ∧ ∃ s, read (.record fields) = .ok s ∧ s.action = .keyword "k" []
        ∧ ∃ s', read (.record fields.reverse) = .ok s' ∧ s.Reordered s' := by
  intro fields
  have hn : fields.names.Nodup := by decide
  have hf : firstKey? fields = some "run" := by decide
  have hr : ∀ v, (fields.lookup "returns" <|> fields.lookup "assign") = some v →
      v = .null ∨ ∃ s, v = .text s := by
    rintro _ ⟨⟩
    exact .inr ⟨"r", rfl⟩
  obtain ⟨hfirst, -, hperm⟩ := read_by_priority hn hr
  obtain ⟨⟨reader, v, hl, hv, he⟩, -, -⟩ := hfirst "run" hf
  cases hv
  cases hl
  cases hs : read (.record fields) with
  | error e =>
    rw [hs] at he
    cases he
  | ok s =>
    rw [hs] at he
    refine ⟨hn, hf, s, rfl, Except.ok.inj he, ?_⟩
    exact (hperm _ (List.reverse_perm _).symm).1 s hs

end Step

end Playbook
