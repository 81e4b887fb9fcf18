import Playbook.Failure
import Playbook.Keyword
import Playbook.Metrics
import Playbook.Process

/-!
# The world of a run

What all steps of a run share, also those that run at the same time: the keywords, the log of
finished steps, the events that an observer sees, the metrics, and the state of the handlers. The
variables do not belong to it. All that is done to the world is one of the deeds of `Deed`.
-/

namespace Playbook

/-- An entry of the log: a step that has ended. -/
structure StepRecord where
  /-- The step's position in its list, counted from one. -/
  index : Nat
  /-- How many keyword calls were under way. -/
  depth : Nat
  kind : String
  label : String
  outcome : Except Failure Value

/-- What an observer is told. -/
inductive StepEvent where
  | started (index depth : Nat) (label : String)
  | finished (index depth : Nat) (label : String) (success : Bool)
deriving DecidableEq, Repr

/-- What all steps of a run share. -/
structure World (σ : Type) where
  registry : Registry
  /-- The steps that have ended, the latest first. -/
  log : List StepRecord
  /-- The events so far, the latest first. -/
  events : List StepEvent
  metrics : Metrics
  /-- The state of the handlers and of all else outside: what is read off the stopwatch depends
  on it. -/
  own : σ

/-- What a task can do to the world. -/
inductive Deed (σ : Type) where
  /-- Looks up a keyword. -/
  | visit (name : String)
  /-- Begins a step at a position of its list, with so many keyword calls under way. -/
  | start (step : Step) (index depth : Nat)
  /-- Ends a step; `logged` says whether it goes into the log. -/
  | finish (step : Step) (index depth : Nat) (outcome : Except Failure Value) (logged : Bool)
  /-- Records a sample of a metric. -/
  | measure (name : String) (sample : Float)
  /-- Changes the state of the handlers. -/
  | own (update : σ → σ)
  /-- Looks at the stopwatch, which may change the state that it is read from. -/
  | look (turn : σ → σ)
  /-- Records what the stopwatch shows as a sample of a metric. -/
  | time (name : String) (reading : σ → Number) (turn : σ → σ)

namespace StepRecord

/-- Whether the step succeeded. -/
def success (record : StepRecord) : Bool :=
  record.outcome.isOk

end StepRecord

namespace World

variable {σ : Type}

/-- A world in which nothing has happened. -/
def fresh (registry : Registry) (own : σ) : World σ := ⟨registry, [], [], [], own⟩

/-- Tells the observer of an event. -/
def emit (event : StepEvent) (w : World σ) : World σ :=
  { w with events := event :: w.events }

/-- Adds an entry to the log. -/
def record (entry : StepRecord) (w : World σ) : World σ :=
  { w with log := entry :: w.log }

/-- Records a sample of a metric. -/
def measure (name : String) (sample : Float) (w : World σ) : World σ :=
  { w with metrics := w.metrics.record name sample }

/-- The world after a deed. -/
def perform : Deed σ → World σ → World σ
  | .visit name, w => { w with registry := w.registry.visit name }
  | .start step index depth, w => w.emit (.started index depth step.describe)
  | .finish step index depth outcome logged, w =>
    let entry := StepRecord.mk index depth step.action.kind step.describe outcome
    let w := w.emit (.finished index depth step.describe entry.success)
    if logged then w.record entry else w
  | .measure name sample, w => w.measure name sample
  | .own update, w => { w with own := update w.own }
  | .look turn, w => { w with own := turn w.own }
  | .time name reading turn, w =>
    { w.measure name (reading w.own).toFloat with own := turn w.own }

instance : Deeds (Deed σ) (World σ) := ⟨perform⟩

/-- The entries of the log in the order in which they were made. -/
def results (w : World σ) : List StepRecord :=
  w.log.reverse

/-- The events in the order in which they happened. -/
def history (w : World σ) : List StepEvent :=
  w.events.reverse

end World

end Playbook
