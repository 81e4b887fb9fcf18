import Playbook.Report

/-!
# Reports as values

What a report and its parts look like when they are written as JSON. The run as a whole has the time
on its clock; steps and rows are not timed, and zero stands where their duration belongs.
-/

namespace Playbook

/-- How something came out: whether it succeeded, and its value or the wording of its failure. -/
def StepRecord.resultFields (result : Except Failure Value) : List (String × Value) :=
  match result with
  | .ok v => [("success", .bool true), ("value", v)]
  | .error f => [("success", .bool false), ("error", .text f.message)]

/-- An entry of the log as a value. -/
def StepRecord.toValue (r : StepRecord) : Value :=
  .record <|
    [("index", .nat r.index), ("depth", .nat r.depth), ("kind", .text r.kind),
      ("label", .text r.label)]
    ++ resultFields r.outcome ++ [("elapsed_ms", .nat 0)]

/-- An event as a value. -/
def StepEvent.toValue : StepEvent → Value
  | started index depth label =>
    .record [("phase", .text "started"), ("index", .nat index), ("depth", .nat depth),
      ("label", .text label)]
  | finished index depth label success =>
    .record [("phase", .text "finished"), ("index", .nat index), ("depth", .nat depth),
      ("label", .text label), ("success", .bool success), ("elapsed_ms", .nat 0)]

/-- The summary of a metric as a value. -/
def MetricSummary.toValue (s : MetricSummary) : Value :=
  .record [("count", .nat s.count), ("min", .float s.min), ("max", .float s.max),
    ("mean", .float s.mean), ("total", .float s.total)]

/-- How a pass came out, as a value. -/
def RowOutcome.toValue (r : RowOutcome) : Value :=
  .record ([("index", .nat r.index)] ++ StepRecord.resultFields r.result
    ++ [("elapsed_ms", .nat 0)])

/-- How all passes came out, as a value. -/
def RowSummary.toValue (s : RowSummary) : Value :=
  .record [("total", .nat s.total), ("passed", .nat s.passed), ("failed", .nat s.failed),
    ("rows", .list (s.map RowOutcome.toValue))]

/-- A failure in a report as a value. -/
def ReportedFailure.toValue (f : ReportedFailure) : Value :=
  .record [("message", .text f.message), ("kind", .text f.kind)]

/-- A report as a value. -/
def Report.toValue (r : Report) : Value :=
  .record <|
    [("name", .text r.name), ("success", .bool r.success), ("value", r.value)]
    ++ (r.error.map fun e => ("error", e.toValue)).toList
    ++ (if r.failures.isEmpty then [] else [("failures", .list (r.failures.map (·.toValue)))])
    ++ [("steps", .list (r.steps.map StepRecord.toValue)),
      ("metrics", .record (r.metrics.map fun m => (m.1, m.2.toValue)))]
    ++ (r.rows.map fun s => ("rows", s.toValue)).toList
    ++ [("variables", .record r.vars), ("elapsedMs", .nat r.elapsed)]

end Playbook
