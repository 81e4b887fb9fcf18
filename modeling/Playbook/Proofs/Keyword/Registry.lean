import Playbook.Keyword

/-!
# A registry is a map over its libraries

A registry keeps what was registered and what its libraries gave in one table. What it answers
can be told without the table. The keyword of a name is the one that was last registered
under it, and if there is none the first one with steps in the libraries, in their order
(`Registry.Stands`). A keyword without steps counts nowhere.

The reason is that a call changes the keywords of a registry by what it registers and by
nothing else (`Registry.find?_answer`). To look up a keyword may change the table but no
keyword, so two registries with the same keywords answer the same for good
(`Registry.answers_congr`). The main statement is `Registry.answers_as_map`.
-/

namespace Playbook

namespace Registry

/-- What can be asked of a registry. -/
inductive Call where
  /-- To register a keyword under a name. -/
  | register (name : String) (keyword : Keyword)
  /-- To look up the keyword of a name. -/
  | resolve (name : String)

/-- What a registry answers. -/
inductive Answer where
  | registered
  /-- The keyword has no steps and was not registered. -/
  | refused
  | resolved (keyword : Option Keyword)

/-- The answer to a call, and the registry behind it. -/
def answer (registry : Registry) : Call → Answer × Registry
  | .register name keyword =>
    match registry.register name keyword with
    | some registry' => (.registered, registry')
    | none => (.refused, registry)
  | .resolve name => (.resolved (registry.find? name), registry.visit name)

/-- The registry behind calls that are made one after the other. -/
def after (registry : Registry) (calls : List Call) : Registry :=
  calls.foldl (fun r call => (r.answer call).2) registry

/-- The answers to calls that are made one after the other. -/
def answers (registry : Registry) : List Call → List Answer
  | [] => []
  | call :: rest => (registry.answer call).1 :: answers (registry.answer call).2 rest

/-- **A keyword is the last one that was registered under a name**, not counting those
without steps. -/
def LastRegistered (name : String) (calls : List Call) (keyword : Keyword) : Prop :=
  ∃ before behind, calls = before ++ .register name keyword :: behind ∧ keyword.steps ≠ []
    ∧ ∀ other, .register name other ∈ behind → other.steps = []

/-- **A keyword is the first one of a name in a list of libraries**, not counting those
without steps. -/
def FirstGiven (name : String) (libraries : List Library) (keyword : Keyword) : Prop :=
  ∃ before library behind, libraries = before ++ library :: behind
    ∧ library name = some keyword ∧ keyword.steps ≠ []
    ∧ ∀ earlier ∈ before, ∀ other, earlier name = some other → other.steps = []

/-- **What a name stands for**: what was last registered under it, and if there is nothing,
what the libraries give first. -/
def Stands (libraries : List Library) (calls : List Call) (name : String)
    (keyword : Keyword) : Prop :=
  LastRegistered name calls keyword
    ∨ (∀ other, ¬ LastRegistered name calls other) ∧ FirstGiven name libraries keyword

/-- What a call registers under a name. -/
def Call.given (name : String) : Call → Option Keyword
  | register other keyword =>
    if other = name ∧ keyword.steps ≠ [] then some { keyword with name := name } else none
  | resolve _ => none

theorem Call.given_eq_some_iff {name : String} {call : Call} {found : Keyword} :
    call.given name = some found ↔ ∃ keyword, call = .register name keyword
      ∧ keyword.steps ≠ [] ∧ found = { keyword with name := name } := by
  cases call with
  | resolve other => exact ⟨nofun, nofun⟩
  | register other keyword =>
    unfold given
    rw [Option.ite_none_right_eq_some]
    constructor
    · rintro ⟨⟨rfl, hs⟩, he⟩
      exact ⟨keyword, rfl, hs, (Option.some.inj he).symm⟩
    · rintro ⟨_, he, hs, rfl⟩
      cases he
      exact ⟨⟨rfl, hs⟩, rfl⟩

theorem Call.given_eq_none_iff {name : String} {call : Call} :
    call.given name = none ↔ ∀ keyword, call = .register name keyword → keyword.steps = [] := by
  rw [Option.eq_none_iff_forall_ne_some]
  constructor
  · intro h keyword hc
    by_cases hs : keyword.steps = []
    · exact hs
    · exact absurd (given_eq_some_iff.mpr ⟨keyword, hc, hs, rfl⟩) (h _)
  · intro h found hf
    obtain ⟨keyword, hc, hs, -⟩ := given_eq_some_iff.mp hf
    exact hs (h keyword hc)

/-! ## The keywords behind a call -/

/-- The keywords of a registry behind a keyword put in its table. -/
theorem find?_put (registry : Registry) (name other : String) (keyword : Keyword) :
    find? other { registry with keywords := registry.keywords.put name keyword }
      = if name = other then some keyword else registry.find? other := by
  unfold find?
  split
  · rename_i h
    rw [h, Named.lookup_put_self]
    rfl
  · rename_i h
    rw [Named.lookup_put_of_ne (Ne.symm h)]

/-- Looking up a keyword changes no keyword. -/
theorem find?_visit (name other : String) (registry : Registry) :
    (registry.visit name).find? other = registry.find? other := by
  unfold visit
  cases hk : registry.keywords.lookup name with
  | some _ => rfl
  | none =>
    cases hl : fromLibraries name registry.libraries with
    | none => rfl
    | some keyword =>
      dsimp only
      rw [find?_put]
      split
      · rename_i h
        unfold find?
        rw [← h, hk, hl]
        rfl
      · rfl

/-- **A call changes the keywords by what it registers**, and by nothing else. -/
theorem find?_answer (registry : Registry) (call : Call) (name : String) :
    (registry.answer call).2.find? name = (call.given name).or (registry.find? name) := by
  cases call with
  | resolve other => exact find?_visit other name registry
  | register other keyword =>
    unfold answer register Call.given
    by_cases hs : keyword.steps = []
    · simp [hs]
    · simp only [List.isEmpty_iff, hs, if_false, find?_put, ne_eq, not_false_eq_true, and_true]
      split
      · rename_i h
        rw [h, Option.some_or]
      · rfl

/-- The keywords of a registry behind any calls. -/
theorem find?_after (registry : Registry) (calls : List Call) (name : String) :
    (registry.after calls).find? name
      = (calls.reverse.findSome? (Call.given name)).or (registry.find? name) := by
  induction calls generalizing registry with
  | nil => rfl
  | cons call rest ih =>
    show ((registry.answer call).2.after rest).find? name = _
    rw [ih, find?_answer, List.reverse_cons, List.findSome?_append, List.findSome?_singleton,
      Option.or_assoc]

/-! ## What a name stands for -/

theorem lastRegistered_iff {name : String} {calls : List Call} {found : Keyword} :
    calls.reverse.findSome? (Call.given name) = some found
      ↔ ∃ keyword, LastRegistered name calls keyword ∧ found = { keyword with name := name } := by
  rw [List.findSome?_eq_some_iff]
  constructor
  · rintro ⟨behind, call, before, he, hg, hnone⟩
    obtain ⟨keyword, rfl, hs, rfl⟩ := Call.given_eq_some_iff.mp hg
    refine ⟨keyword, ⟨before.reverse, behind.reverse, ?_, hs, fun other hm => ?_⟩, rfl⟩
    · rw [← List.reverse_inj, he]
      simp
    · exact Call.given_eq_none_iff.mp (hnone _ (List.mem_reverse.mp hm)) other rfl
  · rintro ⟨keyword, ⟨before, behind, rfl, hs, hnone⟩, rfl⟩
    refine ⟨behind.reverse, .register name keyword, before.reverse, by simp,
      Call.given_eq_some_iff.mpr ⟨keyword, rfl, hs, rfl⟩, fun call hm => ?_⟩
    exact Call.given_eq_none_iff.mpr fun other hc => hnone other (hc ▸ List.mem_reverse.mp hm)

theorem firstGiven_iff {name : String} {libraries : List Library} {found : Keyword} :
    fromLibraries name libraries = some found
      ↔ ∃ keyword, FirstGiven name libraries keyword ∧ found = { keyword with name := name } := by
  unfold fromLibraries
  rw [List.findSome?_eq_some_iff]
  constructor
  · rintro ⟨before, library, behind, he, hg, hnone⟩
    obtain ⟨keyword, hk, hg⟩ := Option.bind_eq_some_iff.mp hg
    obtain ⟨hs, hf⟩ := (Option.ite_none_left_eq_some ..).mp hg
    refine ⟨keyword, ⟨before, library, behind, he, hk, fun h => hs (List.isEmpty_iff.mpr h),
      fun earlier hm other ho => ?_⟩, (Option.some.inj hf).symm⟩
    have hn := hnone earlier hm
    rw [ho, Option.bind_some, ite_eq_left_iff] at hn
    exact List.isEmpty_iff.mp (Classical.not_not.mp fun h => nomatch hn h)
  · rintro ⟨keyword, ⟨before, library, behind, he, hk, hs, hnone⟩, rfl⟩
    refine ⟨before, library, behind, he, ?_, fun earlier hm => ?_⟩
    · rw [hk, Option.bind_some, if_neg fun h => hs (List.isEmpty_iff.mp h)]
    · cases ho : earlier name with
      | none => rfl
      | some other =>
        rw [Option.bind_some, if_pos (List.isEmpty_iff.mpr (hnone earlier hm other ho))]

/-- **The keywords of a registry behind any calls** are what their names stand for. -/
theorem find?_after_iff (libraries : List Library) (calls : List Call) (name : String)
    (found : Keyword) : ((ofLibraries libraries).after calls).find? name = some found
      ↔ ∃ keyword, Stands libraries calls name keyword
        ∧ found = { keyword with name := name } := by
  have hown : (ofLibraries libraries).find? name = fromLibraries name libraries := rfl
  rw [find?_after, Option.or_eq_some_iff, lastRegistered_iff, hown, firstGiven_iff,
    Option.eq_none_iff_forall_ne_some]
  constructor
  · rintro (⟨keyword, h, hf⟩ | ⟨hnone, keyword, h, hf⟩)
    · exact ⟨keyword, .inl h, hf⟩
    · exact ⟨keyword, .inr ⟨fun other ho =>
        hnone _ (lastRegistered_iff.mpr ⟨other, ho, rfl⟩), h⟩, hf⟩
  · rintro ⟨keyword, h | ⟨hnone, h⟩, hf⟩
    · exact .inl ⟨keyword, h, hf⟩
    · refine .inr ⟨fun found' hs => ?_, keyword, h, hf⟩
      obtain ⟨other, ho, -⟩ := lastRegistered_iff.mp hs
      exact hnone other ho

theorem Stands.steps_ne_nil {libraries : List Library} {calls : List Call} {name : String}
    {keyword : Keyword} (h : Stands libraries calls name keyword) : keyword.steps ≠ [] := by
  obtain ⟨_, _, _, hs, _⟩ | ⟨_, _, _, _, _, _, hs, _⟩ := h
  · exact hs
  · exact hs

/-! ## What is not seen -/

/-- A registration is refused if the keyword has no steps. -/
theorem refused_iff (registry : Registry) (name : String) (keyword : Keyword) :
    (registry.answer (.register name keyword)).1 = .refused ↔ keyword.steps = [] := by
  unfold answer register
  by_cases hs : keyword.steps = []
  · simp [hs]
  · simp [hs]

/-- **Registries with the same keywords answer the same**, now and later. -/
theorem answers_congr {r s : Registry} (h : ∀ name, r.find? name = s.find? name)
    (calls : List Call) : r.answers calls = s.answers calls := by
  induction calls generalizing r s with
  | nil => rfl
  | cons call rest ih =>
    have hfirst : (r.answer call).1 = (s.answer call).1 := by
      cases call with
      | resolve name => exact congrArg Answer.resolved (h name)
      | register name keyword =>
        unfold answer register
        by_cases hs : keyword.steps = []
        · simp [hs]
        · simp [hs]
    have hrest : (r.answer call).2.answers rest = (s.answer call).2.answers rest :=
      ih fun name => by rw [find?_answer, find?_answer, h]
    show _ :: _ = _ :: _
    rw [hfirst, hrest]

/-- A call that registers nothing is not seen in later answers. -/
theorem answers_answer {registry : Registry} {call : Call}
    (h : ∀ name, call.given name = none) (later : List Call) :
    (registry.answer call).2.answers later = registry.answers later :=
  answers_congr (fun name => by rw [find?_answer, h name, Option.none_or]) later

/-- **A registry is a map over its libraries.** Let any calls be made to a registry that
begins with nothing but its libraries, in any order. The keyword of a name is what the name
stands for, under that name: the keyword that was last registered under it; if there is
none, the first one with steps that the libraries have, in their order; and nothing if there
is none of these. It always has that name, and steps. A registration is refused if and only
if the keyword has no steps, and then no later answer is other than without it. Nor is any
later answer other than without a keyword having been looked up, so what the registry keeps
of its libraries is never seen. -/
theorem answers_as_map (libraries : List Library) (calls : List Call) :
    let registry := (ofLibraries libraries).after calls
    (∀ name found, (registry.answer (.resolve name)).1 = .resolved (some found)
      ↔ ∃ keyword, Stands libraries calls name keyword ∧ found = { keyword with name := name })
    ∧ (∀ name, (registry.answer (.resolve name)).1 = .resolved none
      ↔ ∀ keyword, ¬ Stands libraries calls name keyword)
    ∧ (∀ name found, (registry.answer (.resolve name)).1 = .resolved (some found) →
      found.name = name ∧ found.steps ≠ [])
    ∧ (∀ name keyword,
      (registry.answer (.register name keyword)).1 = .refused ↔ keyword.steps = [])
    ∧ (∀ name keyword, keyword.steps = [] → ∀ later,
      (registry.answer (.register name keyword)).2.answers later = registry.answers later)
    ∧ ∀ name later,
      (registry.answer (.resolve name)).2.answers later = registry.answers later := by
  intro registry
  have hfound : ∀ name found, (registry.answer (.resolve name)).1 = .resolved (some found)
      ↔ ∃ keyword, Stands libraries calls name keyword
        ∧ found = { keyword with name := name } := fun name found => by
    rw [← find?_after_iff]
    exact ⟨fun h => Answer.resolved.inj h, fun h => congrArg Answer.resolved h⟩
  refine ⟨hfound, fun name => ?_, fun name found h => ?_, registry.refused_iff,
    fun name keyword hs => answers_answer fun other => ?_,
    fun name => answers_answer fun _ => rfl⟩
  · have hnone : (registry.answer (.resolve name)).1 = .resolved none
        ↔ registry.find? name = none :=
      ⟨fun h => Answer.resolved.inj h, fun h => congrArg Answer.resolved h⟩
    rw [hnone, Option.eq_none_iff_forall_ne_some]
    constructor
    · exact fun h keyword hk => h _ ((find?_after_iff ..).mpr ⟨keyword, hk, rfl⟩)
    · intro h found hf
      obtain ⟨keyword, hk, -⟩ := (find?_after_iff ..).mp hf
      exact h keyword hk
  · obtain ⟨keyword, hk, rfl⟩ := (hfound name found).mp h
    exact ⟨rfl, hk.steps_ne_nil⟩
  · refine Call.given_eq_none_iff.mpr fun keyword' hc => ?_
    cases hc
    exact hs

/-- Two libraries know a keyword, the first one without steps. It is looked up, a keyword
without steps is registered in vain, and then another one is registered. -/
theorem answers_as_map_replaced :
    let step := Step.mk (.return_ .null) none false none .null
    let given : Keyword := ⟨"", [], [step], none, none⟩
    let own : Keyword := ⟨"", ["p"], [step, step], none, none⟩
    let empty : Keyword := ⟨"", [], [], none, none⟩
    let libraries : List Library := [fun _ => some empty, fun _ => some given]
    let before : List Call := [.resolve "k"]
    let behind := before ++ [.register "k" empty, .register "k" own]
    let registry (calls : List Call) := (ofLibraries libraries).after calls
    ((registry before).answer (.resolve "k")).1 = .resolved (some { given with name := "k" })
      ∧ ((registry before).answer (.register "k" empty)).1 = .refused
      ∧ ((registry before).answer (.register "k" empty)).2.answers [.resolve "k"]
        = (registry before).answers [.resolve "k"]
      ∧ ((registry behind).answer (.resolve "k")).1 = .resolved (some { own with name := "k" })
      ∧ ({ own with name := "k" } : Keyword).steps ≠ [] := by
  intro step given own empty libraries before behind registry
  obtain ⟨hfound, -, -, hrefused, hlater, -⟩ := answers_as_map libraries before
  obtain ⟨hbehind, -, hsteps, -⟩ := answers_as_map libraries behind
  have hno : ∀ other, ¬ LastRegistered "k" before other := by
    rintro other ⟨t, u, he, -⟩
    have hm : .register "k" other ∈ before := he ▸ List.mem_append_right t List.mem_cons_self
    cases List.mem_singleton.mp hm
  have hgiven : FirstGiven "k" libraries given :=
    ⟨[fun _ => some empty], fun _ => some given, [], rfl, rfl, nofun, by simp [empty]⟩
  have hlast : LastRegistered "k" behind own :=
    ⟨before ++ [.register "k" empty], [], rfl, nofun, nofun⟩
  have hnow := (hbehind "k" _).mpr ⟨own, .inl hlast, rfl⟩
  exact ⟨(hfound "k" _).mpr ⟨given, .inr ⟨hno, hgiven⟩, rfl⟩, (hrefused "k" empty).mpr rfl,
    hlater "k" empty rfl [.resolve "k"], hnow, (hsteps "k" _ hnow).2⟩

end Registry

end Playbook
