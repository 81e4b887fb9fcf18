import Playbook.Value

/-!
# Metrics

Samples that measurements record under names, and their summaries.
-/

namespace Playbook

/-- The samples of each metric, in the order in which they were recorded. -/
abbrev Metrics := Named (List Float)

/-- The summary of the samples of a metric. -/
structure MetricSummary where
  count : Nat
  min : Float
  max : Float
  mean : Float
  total : Float

namespace Metrics

/-- Records a sample. -/
def record (name : String) (sample : Float) (metrics : Metrics) : Metrics :=
  metrics.put name ((metrics.lookup name).getD [] ++ [sample])

/-- The samples of a metric. -/
def samples (name : String) (metrics : Metrics) : List Float :=
  (metrics.lookup name).getD []

/-- The lesser of two numbers, the second one of two that are equal. Something that is not a number
does not count. -/
def least (a b : Float) : Float :=
  if a.isNaN || b ≤ a then b else a

/-- The greater of two numbers, the second one of two that are equal. Something that is not a number
does not count. -/
def greatest (a b : Float) : Float :=
  if a.isNaN || a ≤ b then b else a

/-- The summary of a list of samples; none if there is no sample. -/
def summarize? (samples : List Float) : Option MetricSummary :=
  if samples.isEmpty then none
  else
    let total := samples.foldl (· + ·) (-0.0)
    some
      { count := samples.length
        min := samples.foldl least (1 / 0)
        max := samples.foldl greatest (-1 / 0)
        mean := total / Float.ofNat samples.length
        total := total }

/-- The summaries of all metrics, in the order of their names. -/
def summaries (metrics : Metrics) : Named MetricSummary :=
  Named.sorted (metrics.filterMap fun (name, samples) =>
    (summarize? samples).map fun s => (name, s))

end Metrics

end Playbook
