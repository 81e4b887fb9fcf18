import Playbook.Proofs.Expr.Placeholder
import Playbook.Proofs.Expr.Visibility
import Playbook.Proofs.Run.Restoration
import Playbook.Proofs.Run.Returns
import Playbook.Proofs.Step.Priority

/-!
# Variables that can be read back

A step stores values under names, and texts read them by paths. A path begins with an identifier,
so a value that is stored under an identifier is read back in braces
(`Variables.resolveText_braced_of_get?`), and one that is stored under any other name is never
looked up by any text (`Variables.resolveText_unbind`).

A name is written with or without the braces of a reference. The blanks and braces are taken away
wherever a name stands alone (`Step.variableName`), but not from the names in the record of an
assignment (`Step.Naming`). So what is stored under a name in braces there cannot be read back
(`Engine.unread_braces`). What is stored can be read back if and only if the name it is stored under
is an identifier, and then it is exactly what is read (`Engine.executeStep_reads_back`).
-/

namespace Playbook

variable {σ : Type}

/-! ## Texts use identifiers only -/

theorem Path.isIdentifier_root {text : String} {path : Path} (h : Path.parse? text = some path) :
    Path.isIdentifier path.root.toList = true :=
  (Path.valid_of_parse? h).root

mutual

/-- **The variables of an expression have identifiers for names.** -/
theorem Expr.Uses.isIdentifier {x : String} {e : Expr} :
    e.Uses x → Path.isIdentifier x.toList = true
  | .name hp hx => hx ▸ Path.isIdentifier_root hp
  | .reference h | .template _ h => h.isIdentifier
  | .not h | .neg h | .andLeft h | .andRight h | .orLeft h | .orRight h => h.isIdentifier
  | .compareLeft h | .compareRight h | .computeLeft h | .computeRight h => h.isIdentifier

/-- So have those between braces. -/
theorem Expr.UsesInside.isIdentifier {x text : String} :
    Expr.UsesInside x text → Path.isIdentifier x.toList = true
  | .path hp hx => hx ▸ Path.isIdentifier_root hp
  | .expr _ _ h => h.isIdentifier

end

/-- Scopes that agree on the variables with identifiers for names resolve every string to the
same. -/
theorem Scope.resolveText_of_agreeOn {s t : Scope}
    (h : s.AgreeOn (fun x => Path.isIdentifier x.toList = true) t) (text : String) :
    s.resolveText text = t.resolveText text :=
  Scope.resolveText_agree h fun _ hx => by
    cases hx with
    | text _ hx => exact hx.isIdentifier

/-! ## Reading back -/

/-- An identifier in braces is a placeholder on its own. -/
theorem Template.single?_braced_of_isIdentifier {name : String}
    (h : Path.isIdentifier name.toList = true) :
    single? (braced name).toList = some name.toList := by
  have hno : ∀ c, Path.isNameChar c = false → ∀ mark, c ∈ mark → ¬ mark <:+: name.toList := by
    intro c hc mark hm hi
    rw [Path.all_isNameChar_of_isIdentifier h c (hi.subset hm)] at hc
    cases hc
  exact single?_eq_some_iff.mpr ⟨String.toList_ofList,
    hno '\x7b' (by decide) _ (by decide), hno '\x7d' (by decide) _ (by decide)⟩

/-- An identifier in braces becomes what it leads to; if that is nothing, it stays as it is. -/
theorem Scope.resolveText_braced_of_isIdentifier (scope : Scope) {name : String}
    (hn : Path.isIdentifier name.toList = true) : scope.resolveText (Template.braced name)
      = .ok ((scope.lookup? name).getD (.text (Template.braced name))) := by
  have htrim : String.ofList (Text.trim name.toList) = name := by
    rw [(Path.spelled_of_isIdentifier hn).trim, String.ofList_toList]
  have hne : name ≠ "" := by
    rintro rfl
    cases hn
  have hp : Path.isPath name = true := by
    rw [Path.isPath, Path.parse?_of_isIdentifier hn]
    rfl
  rw [scope.resolveText_single (Template.single?_braced_of_isIdentifier hn),
    Template.placeholderWith, htrim, if_neg hne, if_pos hp]
  rfl

namespace Variables

variable {ambient : Ambient} {vars : Variables} {name : String} {v : Value}

/-- **A variable is read back** in braces if its name is an identifier. -/
theorem resolveText_braced_of_get? (hn : Path.isIdentifier name.toList = true)
    (h : vars.get? name = some v) :
    (vars.scope ambient).resolveText (Template.braced name) = .ok v := by
  rw [Scope.resolveText_braced_of_isIdentifier _ hn, lookup?_scope_of_get? hn h]
  rfl

/-- What is forgotten under another name makes no difference. -/
theorem get?_unbind_of_ne {other : String} (h : other ≠ name) :
    (vars.unbind name).get? other = vars.get? other := by
  obtain ⟨globals, _ | ⟨frame, outer⟩⟩ := vars
  · exact Named.lookup_remove_of_ne h globals
  · show get? other ⟨globals, frame.remove name :: outer⟩ = _
    rw [get?_within, get?_within, Named.lookup_remove_of_ne h]

/-- **A variable is not read** by any text if its name is no identifier: it might as well not be
there. -/
theorem resolveText_unbind (hn : Path.isIdentifier name.toList = false) (text : String) :
    (vars.scope ambient).resolveText text
      = ((vars.unbind name).scope ambient).resolveText text := by
  refine Scope.resolveText_of_agreeOn (fun path hp => ?_) text
  have hne : path.root ≠ name := by
    intro he
    rw [he, hn] at hp
    cases hp
  rw [scope, scope]
  dsimp only
  rw [get?_unbind_of_ne hne]

end Variables

/-! ## Names in a step -/

namespace Step

/-- An identifier is the name of a variable as it stands. -/
theorem variableName_of_isIdentifier {name : String} (h : Path.isIdentifier name.toList = true) :
    variableName name = name := by
  have hlead : Text.dropLead Template.opening name.toList = none := by
    refine Text.dropLead_eq_none.mpr fun hp => ?_
    cases Path.all_isNameChar_of_isIdentifier h '\x7b' (hp.subset (by decide))
  unfold variableName
  dsimp only
  rw [(Path.spelled_of_isIdentifier h).trim, hlead, Option.bind_none, String.ofList_toList]

/-- **A variable in a step**: its name as it is written and the name that its value is stored under.
It stands under the key `returns` or `assign`, alone in an assignment, or in the record of one. Only
in the record is it stored as it is written. -/
inductive Naming (fields : Named Value) (action : Action) : String → String → Prop
  | returns {written : String}
    (h : (fields.lookup "returns" <|> fields.lookup "assign") = some (.text written)) :
    Naming fields action written (variableName written)
  | alone {target : Target} {values : List (String × Value)} {written : String}
    (ha : action = .assign target values) (h : fields.lookup target.word = some (.text written)) :
    Naming fields action written (variableName written)
  | field {target : Target} {values : List (String × Value)} {entries : Named Value}
    {written : String} (ha : action = .assign target values)
    (h : fields.lookup target.word = some (.record entries)) (hm : written ∈ entries.names) :
    Naming fields action written written

/-- A variable that is stored under an identifier has that name when it is written without its
braces. -/
theorem Naming.variableName_eq {fields : Named Value} {action : Action} {written stored : String}
    (h : Naming fields action written stored) (hn : Path.isIdentifier stored.toList = true) :
    variableName written = stored := by
  cases h with
  | returns | alone => rfl
  | field => exact variableName_of_isIdentifier hn

/-- The names under which a step stores values: those of its assignment, and its own. -/
def storedNames (step : Step) : List String :=
  (match step.action with
    | .assign _ values => Named.names values
    | _ => []) ++ step.returns.toList

variable {fields : Named Value} {step : Step}

/-- An assignment is read from the value under its word. -/
theorem exists_assignments_of_firstConstruct {target : Target} {values : List (String × Value)}
    {steps : Value → Except Failure (List Step)}
    (h : firstConstruct fields (constructs steps fields) = .ok (.assign target values)) :
    ∃ spec, fields.lookup target.word = some spec
      ∧ assignments target spec fields = .ok values := by
  cases hf : firstKey? fields with
  | none =>
    rw [firstConstruct_of_firstKey? hf] at h
    unfold domainAction at h
    dsimp only at h
    split at h <;> cases h
  | some key =>
    obtain ⟨reader, spec, hm, hv, hl, he⟩ := exists_construct_of_firstKey? steps hf
    rw [he] at h
    have hkey : key = target.word := by
      have hi := introducedBy_of_constructs hm spec _ h
      cases target <;> exact List.mem_singleton.mp hi
    subst hkey
    have hreader : reader = fun v => (assignments target v fields).map (.assign target) := by
      cases target <;> exact (Option.some.inj hl).symm
    subst hreader
    refine ⟨spec, hv, ?_⟩
    dsimp only at h
    cases ha : assignments target spec fields with
    | error e =>
      rw [ha] at h
      cases h
    | ok values' =>
      rw [ha] at h
      cases h
      rfl

/-- A step that has been read has its variable and its action from the fields of its record. -/
theorem exists_of_read (h : read (.record fields) = .ok step) :
    returnsOf fields = .ok step.returns
      ∧ firstConstruct fields (constructs readList fields) = .ok step.action := by
  cases hr : returnsOf fields with
  | error e =>
    rw [read_eq, readWith, hr] at h
    cases h
  | ok returns =>
    rw [read_record hr] at h
    cases ha : firstConstruct fields (constructs readList fields) with
    | error e =>
      rw [ha] at h
      cases h
    | ok action =>
      rw [ha] at h
      cases h
      exact ⟨rfl, rfl⟩

theorem exists_assignments_of_read (h : read (.record fields) = .ok step) {target : Target}
    {values : List (String × Value)} (ha : step.action = .assign target values) :
    ∃ spec, fields.lookup target.word = some spec ∧ assignments target spec fields = .ok values :=
  exists_assignments_of_firstConstruct ((exists_of_read h).2.trans (congrArg _ ha))

/-- What an assignment stores is read from a record or from a name and a value. -/
theorem cases_of_assignments {target : Target} {spec : Value} {values : List (String × Value)}
    (h : assignments target spec fields = .ok values) :
    spec = .record values ∨ ∃ written v, spec = .text written
      ∧ values = [(variableName written, v)] := by
  unfold assignments at h
  split at h
  · cases h
    exact .inl rfl
  · rename_i written
    cases hv : required target.word "value" fields with
    | error e =>
      rw [hv] at h
      cases h
    | ok v =>
      rw [hv] at h
      cases h
      exact .inr ⟨written, v, rfl, rfl⟩
  · cases h

/-- The variable of a step is written under `returns` or `assign`. -/
theorem returnsOf_eq_some_iff {returns : Option String} (h : returnsOf fields = .ok returns)
    {stored : String} : returns = some stored
      ↔ ∃ written, (fields.lookup "returns" <|> fields.lookup "assign") = some (.text written)
        ∧ stored = variableName written := by
  unfold returnsOf at h
  split at h
  · rename_i hl
    cases h
    rw [hl]
    exact ⟨nofun, fun ⟨_, hw, _⟩ => nomatch hw⟩
  · rename_i hl
    cases h
    rw [hl]
    exact ⟨nofun, fun ⟨_, hw, _⟩ => nomatch hw⟩
  · rename_i written hl
    cases h
    rw [hl]
    constructor
    · intro he
      exact ⟨written, rfl, (Option.some.inj he).symm⟩
    · rintro ⟨_, hw, rfl⟩
      cases hw
      rfl
  · cases h

/-- **The names under which a step stores** are those that are written in it. -/
theorem mem_storedNames_iff (h : read (.record fields) = .ok step) {stored : String} :
    stored ∈ step.storedNames ↔ ∃ written, Naming fields step.action written stored := by
  obtain ⟨hreturns, -⟩ := exists_of_read h
  rw [storedNames, List.mem_append, Option.mem_toList, returnsOf_eq_some_iff hreturns]
  constructor
  · rintro (hs | ⟨written, hw, rfl⟩)
    · split at hs
      · rename_i target values ha
        obtain ⟨spec, hspec, hvalues⟩ := exists_assignments_of_read h ha
        obtain rfl | ⟨written, v, rfl, rfl⟩ := cases_of_assignments hvalues
        · exact ⟨stored, .field ha hspec hs⟩
        · rw [List.mem_singleton.mp hs]
          exact ⟨written, .alone ha hspec⟩
      · cases hs
    · exact ⟨written, .returns hw⟩
  · rintro ⟨written, hn⟩
    cases hn with
    | returns hw => exact .inr ⟨written, hw, rfl⟩
    | @alone target values written ha hw =>
      left
      obtain ⟨spec, hspec, hvalues⟩ := exists_assignments_of_read h ha
      rw [hw] at hspec
      cases hspec
      rw [ha]
      obtain hr | ⟨_, v, ht, rfl⟩ := cases_of_assignments hvalues
      · cases hr
      · cases ht
        exact List.mem_cons_self
    | @field target values entries _ ha hw hm =>
      left
      obtain ⟨spec, hspec, hvalues⟩ := exists_assignments_of_read h ha
      rw [hw] at hspec
      cases hspec
      rw [ha]
      obtain hr | ⟨_, _, ht, _⟩ := cases_of_assignments hvalues
      · cases hr
        exact hm
      · cases ht

end Step

/-! ## What a step stores -/

/-- Stores a value where an assignment does. -/
def Target.store : Target → String → Value → Variables → Variables
  | globals => Variables.setGlobal
  | locals => Variables.bind

/-- Outside of calls, all assignments store values in the current scope. -/
theorem Target.store_eq_bind {target : Target} {vars : Variables}
    (h : target = globals → vars.frames = []) (name : String) (v : Value) :
    target.store name v vars = vars.bind name v := by
  cases target with
  | locals => rfl
  | globals =>
    rw [Variables.bind, h rfl]
    rfl

namespace Engine

variable {engine : Engine σ} {target : Target} {values : List (String × Value)}
  {vars after : Variables} {assigned : Named Value}

/-- **An assignment stores values**, each resolved with those before it stored. -/
inductive Assigns (engine : Engine σ) (target : Target) :
    List (String × Value) → Variables → Named Value → Variables → Prop
  | nil {vars : Variables} : Assigns engine target [] vars [] vars
  | cons {name : String} {v w : Value} {rest : List (String × Value)} {vars after : Variables}
    {assigned : Named Value} (hv : engine.resolve v vars = .ok w)
    (h : Assigns engine target rest (target.store name w vars) assigned after) :
    Assigns engine target ((name, v) :: rest) vars ((name, w) :: assigned) after

theorem Assigns.names_eq (h : engine.Assigns target values vars assigned after) :
    assigned.names = Named.names values := by
  induction h with
  | nil => rfl
  | @cons name _ _ _ _ _ _ _ _ ih => exact congrArg (name :: ·) ih

/-- In the current scope, what has been assigned is bound. -/
theorem Assigns.eq_bindAll (h : engine.Assigns target values vars assigned after)
    (htop : target = .globals → vars.frames = []) : after = vars.bindAll assigned := by
  induction h with
  | nil => rfl
  | @cons name _ w _ vars after assigned _ _ ih =>
    have hframes : target = .globals → (target.store name w vars).frames = [] := by
      rintro rfl
      exact htop rfl
    rw [ih hframes, Target.store_eq_bind htop]
    rfl

/-- An assignment that ends has stored its values, and has one itself. -/
theorem assigns_of_reaches {last : Value} {t : List (Deed σ)} {o : Outcome}
    (h : (Runner.assignFrom engine target last values vars).Reaches t (.inl o)) :
    ∃ assigned, engine.Assigns target values vars assigned o.vars
      ∧ ∃ v, o.result = .ok (.continue v) := by
  induction values generalizing last vars with
  | nil =>
    obtain ⟨-, ho⟩ := Process.reaches_done.mp h
    rw [Sum.inl.inj ho]
    exact ⟨[], .nil, last, rfl⟩
  | cons entry rest ih =>
    obtain ⟨name, v⟩ := entry
    unfold Runner.assignFrom Runner.compute at h
    cases hv : engine.resolve v vars with
    | error e =>
      rw [hv] at h
      cases e with
      | failure f => exact absurd hv resolve_ne_failure
      | crash c => exact (Process.reaches_crash h).elim
    | ok w =>
      rw [hv] at h
      have hrest : (Runner.assignFrom engine target w rest (target.store name w vars)).Reaches t
          (.inl o) := by
        cases target <;> exact h
      obtain ⟨assigned, hs, hvalue⟩ := ih hrest
      exact ⟨(name, w) :: assigned, .cons hv hs, hvalue⟩

end Engine

/-- What a step stores for itself, by the outcome of its action: a value that it goes on with. -/
def Step.own (step : Step) (acted : Outcome) : Named Value :=
  match acted.result, step.returns with
  | .ok (.continue v), some name => [(name, v)]
  | _, _ => []

theorem Step.vars_outcome (step : Step) (acted : Outcome) :
    (step.outcome acted).vars = acted.vars.bindAll (step.own acted) := by
  have hb : Runner.bindReturns step.returns acted = acted.vars.bindAll (step.own acted) := by
    unfold Runner.bindReturns Step.own
    obtain _ | (_ | _) := acted.result
    · rfl
    · cases step.returns <;> rfl
    · rfl
  unfold outcome
  split
  · exact hb
  · exact hb

namespace Engine

variable {engine : Engine σ} {fields : Named Value} {step : Step} {index : Nat}
  {here : Variables} {t : List (Deed σ)} {o acted : Outcome}

/-- **All that a step stores**, in order, when its action has come to an outcome: the values of an
assignment, and then its own. -/
def StoredBy (engine : Engine σ) (step : Step) (here : Variables) (acted : Outcome)
    (stored : Named Value) : Prop :=
  ∃ assigned, stored = assigned ++ step.own acted ∧ match step.action with
    | .assign target values => engine.Assigns target values here assigned acted.vars
    | _ => assigned = []

/-- A step stores under its names only, and under all of them if its action has a value. -/
theorem StoredBy.names {stored : Named Value} (h : engine.StoredBy step here acted stored) :
    (∀ name ∈ stored.names, name ∈ step.storedNames)
      ∧ ((∃ v, acted.result = .ok (.continue v)) → stored.names = step.storedNames) := by
  obtain ⟨assigned, rfl, hassigned⟩ := h
  have hnames : Named.names assigned = match step.action with
      | .assign _ values => Named.names values
      | _ => [] := by
    split at hassigned
    · exact hassigned.names_eq
    · rw [hassigned]
      rfl
  have hown : (∃ v, acted.result = .ok (.continue v)) →
      (step.own acted).names = step.returns.toList := by
    rintro ⟨v, hv⟩
    unfold Step.own
    rw [hv]
    cases step.returns <;> rfl
  have hle : ∀ name ∈ (step.own acted).names, name ∈ step.returns.toList := by
    intro name hn
    unfold Step.own at hn
    split at hn
    · rename_i hr
      rw [hr]
      exact hn
    · cases hn
  rw [Step.storedNames, ← hnames, Named.names, List.map_append]
  refine ⟨fun name hn => List.mem_append.mpr ((List.mem_append.mp hn).imp_right (hle name)),
    fun hv => congrArg _ (hown hv)⟩

/-- A step that has ended has carried out its action, whether or not a time limit has passed
meanwhile. -/
theorem exists_carryOut_of_reaches
    (h : (engine.executeStep step index here).Reaches t (.inl o)) :
    ∃ u acted, (engine.carryOut step here).Reaches u (.inl acted) ∧ o = step.outcome acted := by
  rw [engine.executeStep_eq] at h
  obtain ⟨u, _, rfl, hu⟩ := Process.reaches_act.mp h
  obtain ⟨v, hv, -⟩ | ⟨t₁, t₂, acted, rfl, h₁, h₂⟩ := Process.reaches_andThen hu
  · cases hv
  obtain ⟨t₃, _, rfl, h₃⟩ := Process.reaches_act.mp h₂
  refine ⟨t₁, acted, h₁, ?_⟩
  unfold Step.outcome
  split at h₃
  · rename_i hforgiven
    rw [if_pos hforgiven]
    exact Sum.inl.inj (Process.reaches_done.mp h₃).2
  · rename_i hkept
    rw [if_neg hkept]
    exact Sum.inl.inj (Process.reaches_done.mp h₃).2

/-- **What a step has stored last under a name is what the name stands for** behind it: for the
variable of the step, and for all others if the step stores them in the current scope. -/
theorem exists_storedBy (h : (engine.carryOut step here).Reaches t (.inl acted)) :
    ∃ stored, engine.StoredBy step here acted stored ∧ ∀ name v,
      step.returns = some name ∨ (∀ values, step.action = .assign .globals values →
        here.frames = []) →
      stored.reverse.lookup name = some v →
      (step.outcome acted).vars.get? name = some v := by
  have hother : (∀ target values, step.action ≠ .assign target values) →
      engine.StoredBy step here acted (step.own acted) := by
    intro hno
    refine ⟨[], rfl, ?_⟩
    split
    · rename_i ha
      exact absurd ha (hno _ _)
    · rfl
  have hown : ∀ name, (step.outcome acted).vars.get? name
      = ((step.own acted).reverse.lookup name).or (acted.vars.get? name) := fun name => by
    rw [step.vars_outcome, Variables.get?_bindAll]
  cases ha : step.action with
  | assign target values =>
    have hassign : (Runner.assignFrom engine target .null values here).Reaches t (.inl acted) := by
      unfold carryOut at h
      rw [ha] at h
      exact h
    obtain ⟨assigned, hs, w, hw⟩ := assigns_of_reaches hassign
    refine ⟨assigned ++ step.own acted, ⟨assigned, rfl, by rw [ha]; exact hs⟩,
      fun name v hin hv => ?_⟩
    rw [hown]
    rw [List.reverse_append, List.lookup_append] at hv
    obtain hr | htop := hin
    · have hself : (step.own acted).reverse.lookup name = some w := by
        unfold Step.own
        rw [hw, hr]
        exact List.lookup_cons_self
      rw [hself, Option.some_or] at hv ⊢
      exact hv
    · rw [hs.eq_bindAll fun ht => htop values (by rw [ht]), Variables.get?_bindAll,
        ← Option.or_assoc, hv, Option.some_or]
  | _ =>
    have hno : ∀ target values, step.action ≠ .assign target values := fun _ _ he =>
      nomatch ha.symm.trans he
    refine ⟨step.own acted, hother hno, fun name v _ hv => ?_⟩
    rw [hown, hv, Option.some_or]

/-- **Whether a variable is read back.** The variables hold its value under the name that it is
stored under. If that is an identifier, the name in braces is resolved to exactly that value; if it
is not, every text is resolved as if the variable were not there. -/
structure ReadsBack (engine : Engine σ) (vars : Variables) (written stored : String) (v : Value) :
    Prop where
  held : vars.get? stored = some v
  read : Path.isIdentifier stored.toList = true →
    Step.variableName written = stored
      ∧ (engine.scope vars).resolveText (Template.braced (Step.variableName written)) = .ok v
  unread : Path.isIdentifier stored.toList = false → ∀ text,
    (engine.scope vars).resolveText text = (engine.scope (vars.unbind stored)).resolveText text

/-- **Variables are read back if their names are identifiers.** Let a step that was read from a
record come to its end. It stores values under the names that are written in it and under no other,
and under all of them if its action has a value. The value that it stores last under a name is read
back in braces behind the step, exactly as it is, if the name is an identifier. Otherwise the
variable is there, but no text reads it. This holds of the variable of the step, and of those in an
assignment to the current scope; so it holds of global ones outside of calls. -/
theorem executeStep_reads_back (hread : Step.read (.record fields) = .ok step)
    (h : (engine.executeStep step index here).Reaches t (.inl o)) :
    ∃ u acted stored, (engine.carryOut step here).Reaches u (.inl acted)
      ∧ engine.StoredBy step here acted stored
      ∧ (∀ name ∈ stored.names, ∃ written, Step.Naming fields step.action written name)
      ∧ ∀ written name, Step.Naming fields step.action written name →
        ((∃ v, acted.result = .ok (.continue v)) → name ∈ stored.names)
          ∧ ∀ v, step.returns = some name ∨ (∀ values, step.action = .assign .globals values →
              here.frames = []) →
            stored.reverse.lookup name = some v → engine.ReadsBack o.vars written name v := by
  obtain ⟨u, acted, hacted, rfl⟩ := exists_carryOut_of_reaches h
  obtain ⟨stored, hstored, hheld⟩ := exists_storedBy hacted
  refine ⟨u, acted, stored, hacted, hstored, fun name hn => ?_, fun written name hname => ⟨?_, ?_⟩⟩
  · exact (Step.mem_storedNames_iff hread).mp (hstored.names.1 name hn)
  · intro hv
    rw [hstored.names.2 hv]
    exact (Step.mem_storedNames_iff hread).mpr ⟨written, hname⟩
  · intro v hin hv
    have hget := hheld name v hin hv
    refine ⟨hget, fun hn => ?_, fun hn => Variables.resolveText_unbind hn⟩
    have he := hname.variableName_eq hn
    rw [he]
    exact ⟨rfl, Variables.resolveText_braced_of_get? hn hget⟩

/-- A `let` in a keyword call, with the name of its variable in braces: a global variable of that
name is hidden. -/
theorem executeStep_reads_back_let :
    let engine : Engine Unit :=
      ⟨.default, .standard ⟨0, "", "", fun _ => none⟩, ⟨0, "", "", fun _ => none⟩⟩
    let fields : Named Value := [("let", .text "\x7b\x7b x \x7d\x7d"), ("value", .bool true)]
    let here : Variables := ⟨[("x", .text "hidden")], [[]]⟩
    let after : Variables := ⟨[("x", .text "hidden")], [[("x", .bool true)]]⟩
    ∃ step t, Step.read (.record fields) = .ok step
      ∧ (engine.executeStep step 1 here).Reaches t (.inl (.yield (.bool true) after))
      ∧ ∃ u acted stored, (engine.carryOut step here).Reaches u (.inl acted)
        ∧ engine.StoredBy step here acted stored
        ∧ (∀ name ∈ stored.names, ∃ written, Step.Naming fields step.action written name)
        ∧ ∀ written name, Step.Naming fields step.action written name →
          ((∃ v, acted.result = .ok (.continue v)) → name ∈ stored.names)
            ∧ ∀ v, step.returns = some name ∨ (∀ values, step.action = .assign .globals values →
                here.frames = []) →
              stored.reverse.lookup name = some v → engine.ReadsBack after written name v := by
  intro engine fields here after
  let step : Step := .mk (.assign .locals [("x", .bool true)]) none false none (.record fields)
  let w : World Unit := .fresh ⟨[], []⟩ ()
  have hread : Step.read (.record fields) = .ok step := by with_unfolding_all rfl
  have hrun : (engine.executeStep step 1 here).Reaches _ (.inl (.yield (.bool true) after)) :=
    .act w (.act w (.done _))
  exact ⟨step, _, hread, hrun, Engine.executeStep_reads_back hread hrun⟩

/-- **A name in braces is not read back** from the record of an assignment: the variable is stored
under the name with its braces, and between the braces there is the name of another one. -/
theorem unread_braces :
    let engine : Engine Unit :=
      ⟨.default, .standard ⟨0, "", "", fun _ => none⟩, ⟨0, "", "", fun _ => none⟩⟩
    let written := "\x7b\x7bx\x7d\x7d"
    let fields : Named Value := [("set", .record [(written, .bool true)])]
    ∃ step t o, Step.read (.record fields) = .ok step
      ∧ (engine.executeStep step 1 .empty).Reaches t (.inl o)
      ∧ o.result = .ok (.continue (.bool true))
      ∧ Step.variableName written = "x" ∧ o.vars.get? written = some (.bool true)
      ∧ (engine.scope o.vars).resolveText (Template.braced (Step.variableName written))
        = .ok (.text written) := by
  intro engine written fields
  let step : Step := .mk (.assign .globals [(written, .bool true)]) none false none (.record fields)
  let w : World Unit := .fresh ⟨[], []⟩ ()
  have hread : Step.read (.record fields) = .ok step := by with_unfolding_all rfl
  have hrun : (engine.executeStep step 1 .empty).Reaches _
      (.inl (.yield (.bool true) ⟨[(written, .bool true)], []⟩)) :=
    .act w (.act w (.done _))
  have hx : Path.isIdentifier "x".toList = true := by decide
  refine ⟨step, _, _, hread, hrun, rfl, by decide, rfl, ?_⟩
  rw [show Step.variableName written = "x" by decide,
    Scope.resolveText_braced_of_isIdentifier _ hx, Scope.lookup?, Path.parse?_of_isIdentifier hx]
  rfl

end Engine

end Playbook
