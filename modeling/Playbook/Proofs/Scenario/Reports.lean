import Playbook.Proofs.Scenario.Agenda

/-!
# What reports tell of runs

A scenario is run in one of three ways, and each of them fills the report in its own way. A list of
steps or the passes for rows that do not go on after a failure end with an error; steps that go on
collect their failures, which tell the steps; and passes that go on leave a summary, from which the
failures are taken, which tell the rows. Put side by side, the report has the failures of all runs
in the order of the runs, and nothing else (`Report.Tells`), whichever way the scenario was run
(`Scenario.tells_of_comes`).
-/

namespace Playbook

variable {σ : Type}

/-- The failure of a task, if it has one. -/
def Outcome.failure? (o : Outcome) : Option Failure :=
  match o.result with
  | .ok _ => none
  | .error f => some f

/-! ## What reports tell of runs -/

/-- **The failure of a run as the report of a scenario shows it**, by whether the scenario has data
and whether it goes on after failures. Runs are counted from zero, and so are rows; steps are
counted from one. -/
def ReportedFailure.ofRun (data goesOn : Bool) (index : Nat) (f : Failure) : ReportedFailure :=
  match data, goesOn with
  | false, false => .ofFailure f
  | false, true => .ofFailure (.inStep (index + 1) f)
  | true, false => .ofFailure (.inRow index f)
  | true, true => ⟨"row " ++ toString index ++ ": " ++ f.message, "RowError"⟩

/-- The failures of runs as the report shows them, the first run having a given position. -/
def ReportedFailure.ofRuns (data goesOn : Bool) (index : Nat) (os : List Outcome) :
    List ReportedFailure :=
  (os.zipIdx index).filterMap fun x => x.1.failure?.map (ofRun data goesOn x.2)

/-- How the passes for rows have come out, the first one having a given position. -/
def RowSummary.ofRuns (index : Nat) (os : List Outcome) : RowSummary :=
  (os.zipIdx index).map fun x => ⟨x.2, x.1.result.map Flow.value⟩

namespace ReportedFailure

variable {data goesOn : Bool} {index : Nat}

@[simp] theorem ofRuns_nil : ofRuns data goesOn index [] = [] := rfl

@[simp] theorem ofRuns_cons (o : Outcome) (os : List Outcome) :
    ofRuns data goesOn index (o :: os)
      = (o.failure?.map (ofRun data goesOn index)).toList ++ ofRuns data goesOn (index + 1) os := by
  unfold ofRuns
  rw [List.zipIdx_cons, List.filterMap_cons]
  cases o.failure? with
  | none => rfl
  | some f => rfl

/-- There is nothing to be shown of runs that do not fail. -/
theorem ofRuns_eq_nil_iff (data goesOn : Bool) (index : Nat) {os : List Outcome} :
    ofRuns data goesOn index os = [] ↔ ∀ o ∈ os, o.failure? = none := by
  induction os generalizing index with
  | nil => simp
  | cons o os ih => simp [ih, Option.toList_eq_nil_iff]

end ReportedFailure

/-- The failed rows of a summary are those whose passes have failed. -/
theorem RowSummary.filterMap_ofRuns (index : Nat) (os : List Outcome) :
    (RowSummary.ofRuns index os).filterMap ReportedFailure.ofRow?
      = ReportedFailure.ofRuns true true index os := by
  unfold RowSummary.ofRuns ReportedFailure.ofRuns
  rw [List.filterMap_map]
  congr 1
  funext x
  obtain ⟨⟨_ | _, _, _⟩, _⟩ := x <;> rfl

theorem RowSummary.isOk_ofRuns (index : Nat) (os : List Outcome) :
    (∀ r ∈ RowSummary.ofRuns index os, r.result.isOk = true) ↔ ∀ o ∈ os, o.failure? = none := by
  have hone : ∀ o : Outcome, (o.result.map Flow.value).isOk = true ↔ o.failure? = none := by
    rintro ⟨_ | _, _, _⟩ <;> simp [Outcome.failure?, Except.map, Except.isOk, Except.toBool]
  induction os generalizing index with
  | nil => exact iff_of_true nofun nofun
  | cons o os ih =>
    show (∀ r ∈ (⟨index, o.result.map Flow.value⟩ : RowOutcome) :: ofRuns (index + 1) os, _) ↔ _
    rw [List.forall_mem_cons, List.forall_mem_cons]
    exact and_congr (hone o) (ih (index + 1))

namespace Rows

variable {keepGoing : Bool} {index : Nat}

/-- **What the passes for rows have come to**, by the outcomes of their steps. -/
def Ended (keepGoing : Bool) (index count : Nat) (os : List Outcome) :
    Except Failure RowSummary → Prop
  | .ok summary => summary = .ofRuns index os ∧ os.length = count
    ∧ (keepGoing = false → ∀ o ∈ os, o.failure? = none)
  | .error f => keepGoing = false
    ∧ ReportedFailure.ofRuns true false index os = [.ofFailure f]

/-- A pass in front that does not end the others. -/
theorem Ended.cons {count : Nat} {os : List Outcome} {x : Except Failure RowSummary}
    (h : Ended keepGoing (index + 1) count os x) {o : Outcome}
    (hgo : keepGoing = false → o.failure? = none) :
    Ended keepGoing index (count + 1) (o :: os)
      (x.map (⟨index, o.result.map Flow.value⟩ :: ·)) := by
  cases x with
  | ok summary =>
    obtain ⟨rfl, hlength, hok⟩ := h
    exact ⟨rfl, congrArg (· + 1) hlength, fun hk => List.forall_mem_cons.mpr ⟨hgo hk, hok hk⟩⟩
  | error f =>
    obtain ⟨hk, hf⟩ := h
    refine ⟨hk, ?_⟩
    rw [ReportedFailure.ofRuns_cons, hgo hk]
    exact hf

theorem ended_of_comes {steps : Runner σ} {count : Nat} {vars : Variables} {rows : List Value}
    {session session' : Session σ} {os : List Outcome}
    {x : Except Failure RowSummary × Variables}
    (h : (agenda steps keepGoing count index vars rows).Comes session os x session') :
    Ended keepGoing index rows.length os x.1 := by
  induction rows generalizing index vars session os x with
  | nil =>
    cases h
    exact ⟨rfl, rfl, fun _ => nofun⟩
  | cons row rest ih =>
    cases h with
    | @run _ _ _ _ o os _ _ _ _ _ h =>
      obtain ⟨f | flow, there, attempts⟩ := o
      · cases keepGoing with
        | false =>
          cases h
          exact ⟨rfl, rfl⟩
        | true =>
          obtain ⟨x, rfl, h'⟩ := h.of_map
          exact (ih h').cons nofun
      · obtain ⟨x, rfl, h'⟩ := h.of_map
        exact (ih h').cons fun _ => rfl

end Rows

namespace Scenario

variable {engine : Engine σ}

/-- **Steps that go on after failures** leave the failures in the order of the steps. -/
theorem of_comes_tolerant {steps : List Step} {index : Nat} {ran ran' : Ran}
    {session session' : Session σ} {os : List Outcome}
    (h : (tolerant engine (index + 1) ran steps).Comes session os ran' session') :
    ran'.error = ran.error ∧ ran'.rows = ran.rows
      ∧ ran'.failures = ran.failures.reverse ++ ReportedFailure.ofRuns false true index os := by
  induction steps generalizing index ran session os with
  | nil =>
    cases h
    simp
  | cons step rest ih =>
    unfold tolerant at h
    cases h with
    | @run _ _ _ _ o os _ _ _ _ _ h =>
      obtain ⟨f | ⟨v⟩ | v, there, attempts⟩ := o
      · obtain ⟨he, hr, hf⟩ := ih h
        refine ⟨he, hr, ?_⟩
        rw [hf, ReportedFailure.ofRuns_cons, List.reverse_cons, List.append_assoc]
        rfl
      · obtain ⟨he, hr, hf⟩ := ih h
        exact ⟨he, hr, hf⟩
      · cases h
        simp [Outcome.failure?]

/-- The report of a scenario that has come to its end in a session. -/
def Ran.report (ran : Ran) (name : String) (session : Session σ) : Report :=
  ⟨name, ran.value, ran.error, ran.failures, session.world.results,
    session.world.metrics.summaries, ran.rows, ran.vars.globals, session.now⟩

end Scenario

/-- A run succeeds if there is neither an error nor a failure in its report. -/
theorem Report.success_eq_true_iff (report : Report) :
    report.success = true ↔ report.error = none ∧ report.failures = [] := by
  rw [Report.success, Bool.and_eq_true, Option.isNone_iff_eq_none, List.isEmpty_iff]

/-- **What a report tells of the runs of a scenario**, by their outcomes: which of them have failed,
and, if passes for data rows have come to their end, how each of them has come out. -/
structure Report.Tells (report : Report) (rows : Option (List Value)) (goesOn : Bool)
    (os : List Outcome) : Prop where
  failures : report.error.toList ++ report.failures
    = ReportedFailure.ofRuns rows.isSome goesOn 0 os
  rows_iff : ∀ summary, report.rows = some summary ↔ report.error = none
    ∧ ∃ items, rows = some items ∧ summary = .ofRuns 0 os ∧ os.length = items.length

namespace Report.Tells

variable {report : Report} {rows : Option (List Value)} {goesOn : Bool} {os : List Outcome}

/-- **A run succeeds if nothing in it has failed.** -/
theorem success_iff (h : report.Tells rows goesOn os) :
    report.success = true ↔ ∀ o ∈ os, o.failure? = none := by
  rw [← ReportedFailure.ofRuns_eq_nil_iff rows.isSome goesOn 0, ← h.failures,
    List.append_eq_nil_iff, Option.toList_eq_nil_iff, Report.success_eq_true_iff]

/-- Passes that have come to their end have succeeded if every row has passed. -/
theorem success_iff_passed (h : report.Tells rows goesOn os) {summary : RowSummary}
    (hs : report.rows = some summary) :
    report.success = true ↔ ∀ r ∈ summary, r.result.isOk = true := by
  obtain ⟨-, items, -, rfl, -⟩ := (h.rows_iff summary).mp hs
  rw [h.success_iff, RowSummary.isOk_ofRuns]

end Report.Tells

namespace Scenario

/-- **The report tells of the runs**, whichever way the scenario is run. -/
theorem tells_of_comes {s : Scenario} {rows : Option (List Value)} {vars : Variables}
    {session session' : Session σ} {os : List Outcome} {ran : Ran}
    (h : (s.agenda engine rows vars).Comes session os ran session') :
    (ran.report s.name session').Tells rows s.continueOnError os := by
  unfold agenda at h
  generalize s.continueOnError = goesOn at h
  cases rows with
  | some items =>
    obtain ⟨⟨x, there⟩, rfl, h'⟩ := h.of_map
    have hended := Rows.ended_of_comes h'
    cases x with
    | ok summary =>
      obtain ⟨rfl, hlength, hok⟩ := hended
      refine ⟨?_, fun summary => ?_⟩
      · show (RowSummary.ofRuns 0 os).filterMap ReportedFailure.ofRow? = _
        rw [RowSummary.filterMap_ofRuns]
        cases goesOn with
        | true => rfl
        | false =>
          rw [(ReportedFailure.ofRuns_eq_nil_iff true true 0).mpr (hok rfl)]
          exact ((ReportedFailure.ofRuns_eq_nil_iff true false 0).mpr (hok rfl)).symm
      · show some (RowSummary.ofRuns 0 os) = some summary ↔ none = none ∧ _
        simp [hlength, eq_comm]
    | error f =>
      obtain ⟨rfl, hf⟩ := hended
      exact ⟨hf.symm, fun summary => iff_of_false nofun fun h => nomatch h.1⟩
  | none =>
    have hnone : ∀ summary, ran.rows = none → (ran.rows = some summary ↔ ran.error = none
        ∧ ∃ items : List Value, none = some items ∧ summary = .ofRuns 0 os
          ∧ os.length = items.length) := fun summary hr => by simp [hr]
    cases goesOn with
    | true =>
      obtain ⟨he, hr, hf⟩ := of_comes_tolerant h
      refine ⟨?_, fun summary => hnone summary hr⟩
      show ran.error.toList ++ ran.failures = _
      rw [he, hf]
      rfl
    | false =>
      cases h with
      | @run _ _ _ _ o os _ _ _ _ _ h =>
        cases h
        refine ⟨?_, fun summary => hnone summary ?_⟩
        · obtain ⟨_ | _, _, _⟩ := o <;> rfl
        · obtain ⟨_ | _, _, _⟩ := o <;> rfl

end Scenario

end Playbook
