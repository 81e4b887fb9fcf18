import Playbook.Keyword
import Playbook.Proofs.Value.Fields
import Playbook.Variables

/-!
# The arguments of a keyword call

A call begins with a frame that has the parameters of its keyword and nothing else. All of them are
there from the start, bound to `null`, and the arguments are stored over that one after the other.
So of several arguments for one name the last one counts (`Named.lookup_putAll_reverse`), and a
parameter that no argument is for is `null` and not missing (`Keyword.bindArguments_spec`). What is
in the frame hides what is below it.
-/

namespace Playbook

namespace Named

variable {α : Type} {fields entries : Named α}

theorem mem_names_putAll {x : String} :
    x ∈ (fields.putAll entries).names ↔ x ∈ entries.names ∨ x ∈ fields.names := by
  induction entries generalizing fields with
  | nil => exact (or_iff_right nofun).symm
  | cons entry rest ih =>
    show x ∈ ((fields.put entry.1 entry.2).putAll rest).names ↔ x ∈ entry.1 :: names rest ∨ _
    rw [ih, mem_names_put, List.mem_cons, or_left_comm, or_assoc]

/-- **The thing that was stored last under a name is found.** -/
theorem lookup_putAll_reverse (x : String) :
    (fields.putAll entries).lookup x = (entries.reverse.lookup x).or (fields.lookup x) := by
  induction entries generalizing fields with
  | nil => rfl
  | cons entry rest ih =>
    obtain ⟨k, v⟩ := entry
    show ((fields.put k v).putAll rest).lookup x = _
    rw [ih, List.reverse_cons, List.lookup_append, Option.or_assoc]
    congr 1
    by_cases hx : x = k
    · subst hx
      rw [lookup_put_self, List.lookup_cons_self, Option.some_or]
    · have hb : (x == k) = false := beq_eq_false_iff_ne.mpr hx
      rw [lookup_put_of_ne hx, List.lookup_cons, hb]
      rfl

/-- There is an entry under a name if there is one at some position. -/
theorem mem_names_iff_getElem? {x : String} :
    x ∈ entries.names ↔ ∃ (i : Nat) (v : α), entries[i]? = some (x, v) := by
  rw [names, List.mem_map]
  constructor
  · rintro ⟨⟨_, v⟩, hm, rfl⟩
    obtain ⟨i, hi⟩ := List.mem_iff_getElem?.mp hm
    exact ⟨i, v, hi⟩
  · rintro ⟨i, v, hi⟩
    exact ⟨(x, v), List.mem_of_getElem? hi, rfl⟩

/-- The last entry under a name is the one that no other follows. -/
theorem lookup_reverse_eq_some_iff {x : String} {v : α} : entries.reverse.lookup x = some v
    ↔ ∃ i : Nat, entries[i]? = some (x, v) ∧ ∀ j w, i < j → entries[j]? ≠ some (x, w) := by
  induction entries with
  | nil =>
    refine ⟨nofun, ?_⟩
    rintro ⟨i, hi, -⟩
    cases hi
  | cons entry rest ih =>
    have hnone : rest.reverse.lookup x = none ↔ ∀ (i : Nat) w, rest[i]? ≠ some (x, w) := by
      rw [lookup_eq_none, names, List.map_reverse, List.mem_reverse]
      show ¬ x ∈ names rest ↔ _
      rw [mem_names_iff_getElem?, not_exists]
      exact forall_congr' fun i => not_exists
    rw [List.reverse_cons, List.lookup_append, Option.or_eq_some_iff, ih, hnone]
    constructor
    · rintro (⟨i, hi, hlast⟩ | ⟨hno, hentry⟩)
      · refine ⟨i + 1, hi, fun j w hj => ?_⟩
        obtain ⟨j, rfl⟩ := Nat.exists_eq_add_of_lt hj
        exact hlast _ w (by omega)
      · have he := mem_of_lookup hentry
        rw [List.mem_singleton] at he
        refine ⟨0, congrArg some he.symm, fun j w hj => ?_⟩
        obtain ⟨j, rfl⟩ := Nat.exists_eq_add_of_lt hj
        rw [Nat.zero_add]
        exact hno j w
    · rintro ⟨i, hi, hlast⟩
      cases i with
      | zero =>
        cases Option.some.inj hi
        exact .inr ⟨fun j w => hlast (j + 1) w (Nat.succ_pos j), List.lookup_cons_self⟩
      | succ i => exact .inl ⟨i, hi, fun j w hj => hlast (j + 1) w (Nat.succ_lt_succ hj)⟩

end Named

namespace Keyword

/-- **What a parameter gets from the arguments of a call.** A single record is asked for the field
of that name. Otherwise arguments go by position, and of several positions the last one counts that
has an argument. A parameter that nothing is for gets `null`. -/
inductive Gets (params : List String) (args : List Value) (p : String) : Value → Prop
  | field {fields : Named Value} {v : Value} (ha : args = [.record fields])
    (hv : fields.lookup p = some v) : Gets params args p v
  | noField {fields : Named Value} (ha : args = [.record fields]) (hno : fields.lookup p = none) :
    Gets params args p .null
  | position {i : Nat} {v : Value} (ha : ∀ fields, args ≠ [.record fields])
    (hp : params[i]? = some p) (hv : args[i]? = some v)
    (hlast : ∀ j, i < j → params[j]? = some p → args[j]? = none) : Gets params args p v
  | noPosition (ha : ∀ fields, args ≠ [.record fields])
    (hno : ∀ i : Nat, params[i]? = some p → args[i]? = none) : Gets params args p .null

variable {keyword : Keyword} {args : List Value} {p : String} {v : Value}

/-- The arguments as they are stored, one after the other. -/
def given (keyword : Keyword) (args : List Value) : Named Value :=
  match args with
  | [.record fields] => keyword.params.filterMap fun p => (fields.lookup p).map fun v => (p, v)
  | args => keyword.params.zip args

/-- The frame of a call: `null` for all parameters, and the arguments over that. -/
theorem bindArguments_eq (keyword : Keyword) (args : List Value) : keyword.bindArguments args
    = (Named.putAll (keyword.params.map fun p => (p, Value.null)) []).putAll
        (keyword.given args) := by
  rfl

/-- The field of its name is what is given for a parameter. -/
theorem lookup_given_record {fields : Named Value} (hp : p ∈ keyword.params) :
    (keyword.given [.record fields]).reverse.lookup p = fields.lookup p := by
  have hmem : ∀ {q : String} {w : Value}, (q, w) ∈ keyword.given [.record fields]
      ↔ q ∈ keyword.params ∧ fields.lookup q = some w := by
    intro q w
    show (q, w) ∈ keyword.params.filterMap _ ↔ _
    rw [List.mem_filterMap]
    constructor
    · rintro ⟨q', hq, he⟩
      obtain ⟨w', hw, he⟩ := Option.map_eq_some_iff.mp he
      cases he
      exact ⟨hq, hw⟩
    · rintro ⟨hq, hw⟩
      exact ⟨q, hq, by rw [hw]; rfl⟩
  cases hl : (keyword.given [.record fields]).reverse.lookup p with
  | some v => exact (hmem.mp (List.mem_reverse.mp (Named.mem_of_lookup hl))).2.symm
  | none =>
    cases hf : fields.lookup p with
    | none => rfl
    | some w =>
      have hin := List.mem_map_of_mem (f := Prod.fst) (List.mem_reverse.mpr (hmem.mpr ⟨hp, hf⟩))
      exact absurd hin (Named.lookup_eq_none.mp hl)

theorem given_of_position (ha : ∀ fields, args ≠ [.record fields]) :
    keyword.given args = keyword.params.zip args := by
  unfold given
  split
  · rename_i fields
    exact absurd rfl (ha fields)
  · rfl

/-- By position, the last argument for a parameter is what is given for it. -/
theorem lookup_zip_eq_some_iff {params : List String} : (params.zip args).reverse.lookup p = some v
    ↔ ∃ i : Nat, params[i]? = some p ∧ args[i]? = some v
      ∧ ∀ j, i < j → params[j]? = some p → args[j]? = none := by
  rw [Named.lookup_reverse_eq_some_iff]
  refine exists_congr fun i => ?_
  rw [List.getElem?_zip_eq_some, and_assoc]
  refine and_congr_right fun _ => and_congr_right fun _ => forall_congr' fun j => ?_
  constructor
  · intro hlast hj hp
    rw [Option.eq_none_iff_forall_ne_some]
    exact fun w hw => hlast w hj (List.getElem?_zip_eq_some.mpr ⟨hp, hw⟩)
  · intro hlast w hj he
    obtain ⟨hp, hw⟩ := List.getElem?_zip_eq_some.mp he
    cases hw.symm.trans (hlast hj hp)

theorem lookup_zip_eq_none_iff {params : List String} : (params.zip args).reverse.lookup p = none
    ↔ ∀ i : Nat, params[i]? = some p → args[i]? = none := by
  have hnames : Named.names (params.zip args).reverse = (Named.names (params.zip args)).reverse :=
    List.map_reverse
  rw [Named.lookup_eq_none, hnames, List.mem_reverse, Named.mem_names_iff_getElem?, not_exists]
  refine forall_congr' fun i => ?_
  rw [not_exists]
  constructor
  · intro hno hp
    rw [Option.eq_none_iff_forall_ne_some]
    exact fun w hw => hno w (List.getElem?_zip_eq_some.mpr ⟨hp, hw⟩)
  · intro hno w he
    obtain ⟨hp, hw⟩ := List.getElem?_zip_eq_some.mp he
    cases hw.symm.trans (hno hp)

/-- All parameters are `null` at first. -/
theorem lookup_unbound (hp : p ∈ keyword.params) :
    (Named.putAll (keyword.params.map fun p => (p, Value.null)) []).lookup p = some .null := by
  rw [Named.lookup_putAll_reverse]
  cases hl : (keyword.params.map fun p => (p, Value.null)).reverse.lookup p with
  | some v =>
    obtain ⟨q, -, he⟩ := List.mem_map.mp (List.mem_reverse.mp (Named.mem_of_lookup hl))
    cases he
    rfl
  | none =>
    have hin : (p, Value.null) ∈ (keyword.params.map fun p => (p, Value.null)).reverse :=
      List.mem_reverse.mpr (List.mem_map_of_mem hp)
    exact absurd (List.mem_map_of_mem hin) (Named.lookup_eq_none.mp hl)

/-- The names that something is given for are parameters. -/
theorem mem_params_of_mem_given (h : p ∈ (keyword.given args).names) : p ∈ keyword.params := by
  obtain ⟨⟨_, v⟩, hm, rfl⟩ := List.mem_map.mp h
  unfold given at hm
  split at hm
  · obtain ⟨q, hq, he⟩ := List.mem_filterMap.mp hm
    obtain ⟨w, -, he⟩ := Option.map_eq_some_iff.mp he
    cases he
    exact hq
  · exact (List.of_mem_zip hm).1

/-- **What is bound to a parameter is what it gets.** -/
theorem lookup_bindArguments (hp : p ∈ keyword.params) :
    (keyword.bindArguments args).lookup p = some v ↔ Gets keyword.params args p v := by
  rw [bindArguments_eq, Named.lookup_putAll_reverse, lookup_unbound hp]
  by_cases ha : ∃ fields, args = [.record fields]
  · obtain ⟨fields, rfl⟩ := ha
    rw [lookup_given_record hp]
    constructor
    · intro h
      cases hf : fields.lookup p with
      | some w =>
        rw [hf] at h
        cases h
        exact .field rfl hf
      | none =>
        rw [hf] at h
        cases h
        exact .noField rfl hf
    · intro h
      cases h with
      | field ha hv =>
        cases ha
        rw [hv, Option.some_or]
      | noField ha hno =>
        cases ha
        rw [hno, Option.none_or]
      | position ha | noPosition ha => exact absurd rfl (ha fields)
  · have ha : ∀ fields, args ≠ [.record fields] := fun fields he => ha ⟨fields, he⟩
    rw [given_of_position ha]
    constructor
    · intro h
      cases hl : (keyword.params.zip args).reverse.lookup p with
      | some w =>
        rw [hl] at h
        cases h
        obtain ⟨i, hp, hv, hlast⟩ := lookup_zip_eq_some_iff.mp hl
        exact .position ha hp hv hlast
      | none =>
        rw [hl] at h
        cases h
        exact .noPosition ha (lookup_zip_eq_none_iff.mp hl)
    · intro h
      cases h with
      | field he | noField he => exact absurd he (ha _)
      | position _ hp hv hlast =>
        rw [lookup_zip_eq_some_iff.mpr ⟨_, hp, hv, hlast⟩, Option.some_or]
      | noPosition _ hno => rw [lookup_zip_eq_none_iff.mpr hno, Option.none_or]

/-- **A call begins with its parameters and nothing else**, each with what it gets. -/
theorem bindArguments_spec (keyword : Keyword) (args : List Value) :
    (keyword.bindArguments args).names.Nodup
      ∧ (∀ x, x ∈ (keyword.bindArguments args).names ↔ x ∈ keyword.params)
      ∧ ∀ p ∈ keyword.params, ∀ v,
        (keyword.bindArguments args).lookup p = some v ↔ Gets keyword.params args p v := by
  have hnone : (Named.names ([] : Named Value)).Nodup := List.nodup_nil
  refine ⟨Named.nodup_putAll (Named.nodup_putAll hnone _) _, fun x => ?_,
    fun p hp v => lookup_bindArguments hp⟩
  have hparams : Named.names (keyword.params.map fun p => (p, Value.null)) = keyword.params := by
    rw [Named.names, List.map_map]
    exact List.map_id _
  rw [bindArguments_eq, Named.mem_names_putAll, Named.mem_names_putAll, hparams]
  constructor
  · rintro (h | h | h)
    · exact mem_params_of_mem_given h
    · exact h
    · cases h
  · exact fun h => .inr (.inl h)

end Keyword

end Playbook
