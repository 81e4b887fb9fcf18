import Playbook.Proofs.Step.Priority

/-!
# Two spellings of a step

A branch and the blocks of concurrent operations can be written in two ways: what belongs to the
construct stands beside its key, or in a record of its own under the key (`Step.Spellings`). Each
way has its own places where conditions, lists and settings are looked for. They come to the same
step: if one of the two spellings can be read, so can the other, and the steps are the same but for
the way in which they are written (`Step.read_of_spellings`).

Only what is read is the same. Of two faults in a step, the one spelling may tell the first and the
other the second, since the places are not looked at in the same order.
-/

namespace Playbook

namespace Named

/-- **Records alike**: they hold the same under every name. The order of their fields makes no
difference. -/
def Alike {α : Type} (fields other : Named α) : Prop :=
  ∀ name, fields.lookup name = other.lookup name

theorem lookup_of_names_subset {α : Type} {fields : Named α} {names : List String} {name : String}
    (h : fields.names ⊆ names) (hn : name ∉ names) : fields.lookup name = none :=
  lookup_eq_none.mpr fun hm => hn (h hm)

/-- What stands behind a field of another name. -/
theorem lookup_cons_of_ne {α : Type} {name key : String} (h : name ≠ key) (a : α)
    (fields : Named α) : List.lookup name ((key, a) :: fields) = fields.lookup name := by
  rw [List.lookup_cons, beq_eq_false_iff_ne.mpr h]

section Alike

variable {α : Type} {fields other settings : Named α} {key name : String} {a : α}

/-- What stands in a record besides a field. -/
theorem Alike.lookup_of_ne (h : fields.Alike ((key, a) :: settings)) (hn : name ≠ key) :
    fields.lookup name = settings.lookup name :=
  (h name).trans (lookup_cons_of_ne hn a settings)

theorem Alike.of_perm (h : fields.Perm other) (hn : fields.names.Nodup) : fields.Alike other :=
  fun name => (lookup_perm h hn name).symm

end Alike

end Named

open Named (Alike)

namespace Step

/-- The settings of a block whose operations are many of one kind. -/
def limitKeys : List String := ["maxConcurrency", "failFast", "timeout"]

/-- The settings of a batch. -/
def batchKeys : List String := ["size", "delay", "maxRetries", "retryDelay"]

/-- **Two spellings of a block of operations**, by what stands under its key. In the first one the
settings stand beside the form of the block, and in the second one with the operations in a
record. -/
inductive BlockSpellings : Value → Value → Prop
  | plain {operations : List Value} {block : Named Value}
    (hb : block.Alike [("actions", .list operations)]) :
    BlockSpellings (.list operations) (.record block)
  | race {operations : List Value} {settings beside under inner : Named Value}
    (hs : settings.names ⊆ ["timeout"])
    (hb : beside.Alike (("race", .list operations) :: settings))
    (hu : under.Alike [("race", .record inner)])
    (hi : inner.Alike (("actions", .list operations) :: settings)) :
    BlockSpellings (.record beside) (.record under)
  | batch {operations : List Value} {settings beside under inner : Named Value}
    (hs : settings.names ⊆ batchKeys)
    (hb : beside.Alike (("batch", .list operations) :: settings))
    (hu : under.Alike [("batch", .record inner)])
    (hi : inner.Alike (("actions", .list operations) :: settings)) :
    BlockSpellings (.record beside) (.record under)
  | forEach {loop settings beside under inner : Named Value}
    (hs : settings.names ⊆ limitKeys) (hl : ∀ key ∈ limitKeys, key ∉ loop.names)
    (hb : beside.Alike (("forEach", .record loop) :: settings))
    (hu : under.Alike [("forEach", .record inner)])
    (hi : inner.Alike (loop ++ settings)) :
    BlockSpellings (.record beside) (.record under)

/-- **Two spellings of a step.** Besides its construct a step can have what every step can
have. -/
inductive Spellings : Named Value → Named Value → Prop
  | branch {condition : Value} {lists own beside under inner : Named Value}
    (hc : condition.field? "condition" = none) (hl : lists.names ⊆ ["then", "else"])
    (ho : own.names ⊆ auxiliaryKeys)
    (hb : beside.Alike (("if", condition) :: (lists ++ own)))
    (hu : under.Alike (("if", .record inner) :: own))
    (hi : inner.Alike (("condition", condition) :: lists)) :
    Spellings beside under
  | block {v w : Value} {own beside under : Named Value} (h : BlockSpellings v w)
    (ho : own.names ⊆ auxiliaryKeys)
    (hb : beside.Alike (("parallel", v) :: own)) (hu : under.Alike (("parallel", w) :: own)) :
    Spellings beside under

/-! ## Blocks -/

section

variable {fields other settings : Named Value} {key : String}

/-- What is not there is no count. -/
theorem countField_of_none (h : fields.lookup key = none) : countField key fields = .ok none := by
  unfold countField
  rw [h]

theorem countField_congr (h : fields.lookup key = other.lookup key) :
    countField key fields = countField key other := by
  unfold countField
  rw [h]

end

/-! The form of a block is told by the first of three keys that is there. -/

section

variable (steps : Value → Except Failure (List Step)) {fields : Named Value} {v : Value}

theorem parallelBlock_of_race (h : fields.lookup "race" = some v) :
    parallelBlock steps (.record fields) = raceBlock steps v fields := by
  unfold parallelBlock
  dsimp only
  rw [h]

theorem parallelBlock_of_batch (hr : fields.lookup "race" = none)
    (h : fields.lookup "batch" = some v) :
    parallelBlock steps (.record fields) = batchBlock steps v fields := by
  unfold parallelBlock
  dsimp only
  rw [hr, h]

theorem parallelBlock_of_forEach (hr : fields.lookup "race" = none)
    (hb : fields.lookup "batch" = none) (h : fields.lookup "forEach" = some v) :
    parallelBlock steps (.record fields) = forEachBlock steps v fields := by
  unfold parallelBlock
  dsimp only
  rw [hr, hb, h]

/-! Each form has its own places for the settings. -/

variable {operations : List Value} {settings beside under inner : Named Value}

theorem parallelBlock_plain (hb : fields.Alike [("actions", .list operations)]) :
    (parallelBlock steps (.list operations)).toOption
      = (parallelBlock steps (.record fields)).toOption := by
  have hnone : ∀ key, key ≠ "actions" → fields.lookup key = none := fun key hk =>
    hb.lookup_of_ne hk
  have hactions : fields.lookup "actions" = some (.list operations) := hb "actions"
  unfold parallelBlock
  dsimp only
  rw [hnone "race" (by decide), hnone "batch" (by decide), hnone "forEach" (by decide), hactions]
  dsimp only
  rw [countField_of_none (hnone "maxConcurrency" (by decide)),
    countField_of_none (hnone "timeout" (by decide)), boolField, hnone "failFast" (by decide)]
  cases steps (.list operations) <;> rfl

theorem raceBlock_beside (hb : beside.Alike (("race", .list operations) :: settings))
    (hu : under.Alike [("race", .record inner)])
    (hi : inner.Alike (("actions", .list operations) :: settings)) :
    (raceBlock steps (.list operations) beside).toOption
      = (raceBlock steps (.record inner) under).toOption := by
  have hoperations : fieldOrNull "actions" inner = .list operations :=
    congrArg (Option.getD · Value.null) (hi "actions")
  have hinner : countField "timeout" inner = countField "timeout" settings :=
    countField_congr (hi.lookup_of_ne (by decide))
  have hbeside : countField "timeout" beside = countField "timeout" settings :=
    countField_congr (hb.lookup_of_ne (by decide))
  have hunder : countField "timeout" under = .ok none :=
    countField_of_none (hu.lookup_of_ne (by decide))
  show (countField "timeout" [] >>= _).toOption = (countField "timeout" inner >>= _).toOption
  dsimp only
  rw [hoperations, hinner, hbeside, hunder, countField_of_none rfl]
  cases steps (.list operations) with
  | error => cases countField "timeout" settings <;> rfl
  | ok =>
    cases countField "timeout" settings with
    | error => rfl
    | ok timeout => cases timeout <;> rfl

theorem batchBlock_beside (hb : beside.Alike (("batch", .list operations) :: settings))
    (hi : inner.Alike (("actions", .list operations) :: settings)) (under : Named Value) :
    batchBlock steps (.list operations) beside = batchBlock steps (.record inner) under := by
  have hoperations : fieldOrNull "actions" inner = .list operations :=
    congrArg (Option.getD · Value.null) (hi "actions")
  have hcount : ∀ key ∈ batchKeys, countField key beside = countField key inner := fun key hk =>
    countField_congr <| (hb.lookup_of_ne (ne_of_mem_of_not_mem hk (by decide))).trans
      (hi.lookup_of_ne (ne_of_mem_of_not_mem hk (by decide))).symm
  unfold batchBlock
  dsimp only [Value.fields?, Option.getD_none, Option.getD_some]
  rw [hoperations, hcount "size" (by decide), hcount "delay" (by decide),
    hcount "maxRetries" (by decide), hcount "retryDelay" (by decide)]

/-- A setting of a loop is looked for in its record and then beside it. -/
theorem forEachBlock_beside {loop : Named Value} (hs : settings.names ⊆ limitKeys)
    (hl : ∀ key ∈ limitKeys, key ∉ loop.names)
    (hb : beside.Alike (("forEach", .record loop) :: settings))
    (hu : under.Alike [("forEach", .record inner)]) (hi : inner.Alike (loop ++ settings)) :
    forEachBlock steps (.record loop) beside = forEachBlock steps (.record inner) under := by
  have hnone : ∀ key ∈ limitKeys, loop.lookup key = none := fun key hk =>
    Named.lookup_eq_none.mpr (hl key hk)
  have hloop : ∀ key ∉ limitKeys, inner.lookup key = loop.lookup key := fun key hk => by
    rw [hi, List.lookup_append, Named.lookup_of_names_subset hs hk, Option.or_none]
  have hsetting : ∀ key ∈ limitKeys, inner.lookup key = beside.lookup key := fun key hk => by
    rw [hi, List.lookup_append, hnone key hk, Option.none_or]
    exact (hb.lookup_of_ne (ne_of_mem_of_not_mem hk (by decide))).symm
  have hunder : ∀ key ∈ limitKeys, under.lookup key = none := fun key hk =>
    hu.lookup_of_ne (ne_of_mem_of_not_mem hk (by decide))
  have hcount : ∀ key ∈ limitKeys, firstCount key inner under = firstCount key loop beside :=
    fun key hk => by
      unfold firstCount
      rw [countField_of_none (hunder key hk), countField_of_none (hnone key hk),
        countField_congr (hsetting key hk)]
      cases countField key beside with
      | error => rfl
      | ok n => cases n <;> rfl
  have hflag : (boolField "failFast" inner <|> boolField "failFast" under)
      = (boolField "failFast" loop <|> boolField "failFast" beside) := by
    unfold boolField
    rw [hunder _ (by decide), hnone _ (by decide), hsetting _ (by decide)]
    cases (beside.lookup "failFast").bind Value.bool? <;> rfl
  have hiteration : iterationOf "parallel.forEach" inner
      = iterationOf "parallel.forEach" loop := by
    unfold iterationOf required textField
    rw [hloop "in" (by decide), hloop "item" (by decide), hloop "index" (by decide)]
  have hbody : fieldOrNull "do" inner = fieldOrNull "do" loop :=
    congrArg (Option.getD · Value.null) (hloop "do" (by decide))
  show (iterationOf "parallel.forEach" loop >>= _) = (iterationOf "parallel.forEach" inner >>= _)
  dsimp only
  rw [hiteration, hbody, hcount _ (by decide), hcount _ (by decide), hflag]

end

/-- **Both spellings of a block are read as the same action**, if either is read. -/
theorem parallelBlock_of_spellings (steps : Value → Except Failure (List Step)) {v w : Value}
    (h : BlockSpellings v w) :
    (parallelBlock steps v).toOption = (parallelBlock steps w).toOption := by
  cases h with
  | plain hb => exact parallelBlock_plain steps hb
  | race hs hb hu hi =>
    rw [parallelBlock_of_race steps (hb "race"), parallelBlock_of_race steps (hu "race")]
    exact raceBlock_beside steps hb hu hi
  | @batch operations settings beside under inner hs hb hu hi =>
    have hnone : beside.lookup "race" = none :=
      (hb.lookup_of_ne (by decide)).trans (Named.lookup_of_names_subset hs (by decide))
    rw [parallelBlock_of_batch steps hnone (hb "batch"),
      parallelBlock_of_batch steps (hu.lookup_of_ne (by decide)) (hu "batch"),
      batchBlock_beside steps hb hi under]
  | @forEach loop settings beside under inner hs hl hb hu hi =>
    have hnone : ∀ key, key ≠ "forEach" → key ∉ limitKeys → beside.lookup key = none :=
      fun key hk hn => (hb.lookup_of_ne hk).trans (Named.lookup_of_names_subset hs hn)
    rw [parallelBlock_of_forEach steps (hnone _ (by decide) (by decide))
        (hnone _ (by decide) (by decide)) (hb "forEach"),
      parallelBlock_of_forEach steps (hu.lookup_of_ne (by decide)) (hu.lookup_of_ne (by decide))
        (hu "forEach"), forEachBlock_beside steps hs hl hb hu hi]

/-! ## Branches -/

/-- **Both spellings of a branch are read as the same action.** -/
theorem branch_of_spellings (steps : Value → Except Failure (List Step)) {condition : Value}
    {lists own beside inner : Named Value} (hc : condition.field? "condition" = none)
    (ho : own.names ⊆ auxiliaryKeys) (hb : beside.Alike (("if", condition) :: (lists ++ own)))
    (hi : inner.Alike (("condition", condition) :: lists)) (under : Named Value) :
    branch steps (.record inner) under = branch steps condition beside := by
  have hcondition : inner.lookup "condition" = some condition := hi "condition"
  have hlist : ∀ key, key ≠ "condition" → key ≠ "if" → key ∉ auxiliaryKeys →
      fieldOrNull key inner = fieldOrNull key beside := fun key hk hk' hn => by
    unfold fieldOrNull
    rw [hi.lookup_of_ne hk, hb.lookup_of_ne hk', List.lookup_append,
      Named.lookup_of_names_subset ho hn, Option.or_none]
  have hnested : (Value.record inner).fields?.filter (fun f => (f.lookup "condition").isSome)
      = some inner := by
    show Option.filter _ (some inner) = _
    rw [Option.filter_some, hcondition]
    rfl
  have hflat : condition.fields?.filter (fun f => (f.lookup "condition").isSome) = none := by
    cases condition with
    | record fields =>
      show Option.filter _ (some fields) = _
      rw [Option.filter_some, show fields.lookup "condition" = none from hc]
      rfl
    | _ => rfl
  unfold branch
  rw [hnested, hflat]
  dsimp only [Option.getD_some, Option.getD_none]
  rw [hlist "then" (by decide) (by decide) (by decide),
    hlist "else" (by decide) (by decide) (by decide), fieldOrNull, hcondition, Option.getD_some]

/-! ## Steps -/

section

variable {beside under fields rest : Named Value} {key : String} {v : Value}

/-- Besides a construct key there are no others. -/
theorem firstKey?_of_alike (hk : key ∈ constructKeys) (h : fields.Alike ((key, v) :: rest))
    (hr : ∀ k ∈ constructKeys, rest.lookup k = none) : firstKey? fields = some key := by
  have hv : fields.lookup key = some v := (h key).trans List.lookup_cons_self
  cases hf : firstKey? fields with
  | none =>
    have hnone := List.find?_eq_none.mp hf key hk
    rw [hv] at hnone
    exact absurd rfl hnone
  | some k =>
    have hsome := List.find?_some hf
    by_contra hne
    rw [h.lookup_of_ne (fun he => hne (congrArg some he)), hr k (List.mem_of_find?_eq_some hf)]
      at hsome
    cases hsome

/-- What the only construct of a record introduces. -/
theorem firstConstruct_of_alike {reader : Value → Except Failure Action}
    (hl : (constructs readList fields).lookup key = some reader) (hk : key ∈ constructKeys)
    (h : fields.Alike ((key, v) :: rest)) (hr : ∀ k ∈ constructKeys, rest.lookup k = none) :
    firstConstruct fields (constructs readList fields) = reader v := by
  obtain ⟨reader', v', -, hv, hl', he⟩ :=
    exists_construct_of_firstKey? readList (firstKey?_of_alike hk h hr)
  rw [hl] at hl'
  cases hl'
  rw [h key, List.lookup_cons_self] at hv
  cases hv
  exact he

@[simp] theorem action_withSource (v : Value) (s : Step) : (s.withSource v).action = s.action := by
  cases s
  rfl

/-- Records that say the same about a step in general are the same step, if what they introduce is
the same action. -/
theorem read_of_firstConstruct (ha : ∀ k ∈ auxiliaryKeys, under.lookup k = beside.lookup k)
    (hc : (firstConstruct beside (constructs readList beside)).toOption
      = (firstConstruct under (constructs readList under)).toOption) {s : Step}
    (hs : read (.record beside) = .ok s) :
    read (.record under) = .ok (s.withSource (.record under)) := by
  have hreturns : returnsOf under = returnsOf beside := by
    unfold returnsOf
    rw [ha "returns" (by decide), ha "assign" (by decide)]
  cases hr : returnsOf beside with
  | error e =>
    rw [read_eq, readWith, hr] at hs
    cases hs
  | ok returns =>
    rw [read_record hr] at hs
    rw [read_record (hreturns.trans hr), boolField, ha "continueOnError" (by decide),
      ha "name" (by decide), ha "description" (by decide)]
    generalize firstConstruct beside (constructs readList beside) = x at hc hs
    generalize firstConstruct under (constructs readList under) = y at hc ⊢
    cases x with
    | error => cases hs
    | ok action =>
      cases hs
      cases y <;> cases hc
      rfl

end

/-- **The two spellings of a step introduce the same action**, if either introduces one, and they
say the same about the step in general. -/
theorem Spellings.agree {beside under : Named Value} (h : Spellings beside under) :
    (∀ k ∈ auxiliaryKeys, under.lookup k = beside.lookup k)
    ∧ (firstConstruct beside (constructs readList beside)).toOption
      = (firstConstruct under (constructs readList under)).toOption := by
  have hown : ∀ {own : Named Value}, own.names ⊆ auxiliaryKeys → ∀ k ∈ constructKeys,
      own.lookup k = none := fun ho k hk =>
    Named.lookup_of_names_subset ho (by revert k; decide)
  cases h with
  | @branch condition lists own beside under inner hc hl ho hb hu hi =>
    have hlists : ∀ k, k ∉ ["then", "else"] → (lists ++ own).lookup k = own.lookup k := by
      intro k hk
      rw [List.lookup_append, Named.lookup_of_names_subset hl hk, Option.none_or]
    refine ⟨fun k hk => ?_, ?_⟩
    · rw [hb.lookup_of_ne (ne_of_mem_of_not_mem hk (by decide)), hlists k (by revert k; decide),
        hu.lookup_of_ne (ne_of_mem_of_not_mem hk (by decide))]
    · rw [firstConstruct_of_alike rfl (by decide) hb fun k hk =>
          (hlists k (by revert k; decide)).trans (hown ho k hk),
        firstConstruct_of_alike rfl (by decide) hu (hown ho)]
      exact congrArg _ (branch_of_spellings readList hc ho hb hi under).symm
  | @block v w own beside under h ho hb hu =>
    refine ⟨fun k hk => ?_, ?_⟩
    · rw [hb.lookup_of_ne (ne_of_mem_of_not_mem hk (by decide)),
        hu.lookup_of_ne (ne_of_mem_of_not_mem hk (by decide))]
    · rw [firstConstruct_of_alike rfl (by decide) hb (hown ho),
        firstConstruct_of_alike rfl (by decide) hu (hown ho)]
      exact parallelBlock_of_spellings readList h

/-- **Two spellings of a step are the same step.** If either of them can be read, so can the other
one, and what is read is the same action with the same variable for its value, the same label and
the same tolerance of failures. Only what the step was written as is different. -/
theorem read_of_spellings {beside under : Named Value} (h : Spellings beside under) :
    (∀ s, read (.record beside) = .ok s → ∃ s', read (.record under) = .ok s'
      ∧ s'.action = s.action ∧ s' = s.withSource (.record under))
    ∧ ∀ s, read (.record under) = .ok s → ∃ s', read (.record beside) = .ok s'
      ∧ s'.action = s.action ∧ s' = s.withSource (.record beside) := by
  obtain ⟨haux, hfirst⟩ := h.agree
  refine ⟨fun s hs => ?_, fun s hs => ?_⟩
  · exact ⟨_, read_of_firstConstruct haux hfirst hs, action_withSource _ s, rfl⟩
  · exact ⟨_, read_of_firstConstruct (fun k hk => (haux k hk).symm) hfirst.symm hs,
      action_withSource _ s, rfl⟩

/-- The settings of a concurrent loop beside it, and among its own fields with another order: both
are the same loop, which is tried with two passes at once and goes on after a failure. -/
theorem read_of_spellings_forEach :
    let pass : Value := .record [("log", .text "{{item}}")]
    let loop : Named Value := [("in", .list []), ("do", .list [pass])]
    let settings : Named Value := [("maxConcurrency", .text " 2 "), ("failFast", .bool false)]
    let beside : Named Value :=
      [("returns", .text "r"), ("parallel", .record (settings ++ [("forEach", .record loop)]))]
    let under : Named Value :=
      [("parallel", .record [("forEach", .record (settings ++ loop))]), ("returns", .text "r")]
    Spellings beside under ∧ ∃ s s' body, read (.record beside) = .ok s
      ∧ s.action = .parallelForEach ⟨"item", none, .list []⟩ body ⟨some 2, some false, none⟩
      ∧ read (.record under) = .ok s' ∧ s'.action = s.action
      ∧ s' = s.withSource (.record under) := by
  intro pass loop settings beside under
  have hblock : BlockSpellings (.record (settings ++ [("forEach", .record loop)]))
      (.record [("forEach", .record (settings ++ loop))]) := by
    have hb : Alike (settings ++ [("forEach", .record loop)])
        (("forEach", .record loop) :: settings) := .of_perm List.perm_append_comm (by decide)
    have hi : Alike (settings ++ loop) (loop ++ settings) :=
      .of_perm List.perm_append_comm (by decide)
    exact .forEach (by decide) (by decide) hb (fun _ => rfl) hi
  have h : Spellings beside under := by
    have hb : beside.Alike [("parallel", .record (settings ++ [("forEach", .record loop)])),
        ("returns", .text "r")] := .of_perm (.swap _ _ _) (by decide)
    exact .block hblock (by decide) hb fun _ => rfl
  obtain ⟨s, body, hs, ha⟩ : ∃ s body, read (.record beside) = .ok s
      ∧ s.action = .parallelForEach ⟨"item", none, .list []⟩ body ⟨some 2, some false, none⟩ := by
    with_unfolding_all exact ⟨_, _, rfl, rfl⟩
  obtain ⟨s', hs', haction, hsource⟩ := (read_of_spellings h).1 s hs
  exact ⟨h, s, s', body, hs, ha, hs', haction, hsource⟩

end Step

end Playbook
