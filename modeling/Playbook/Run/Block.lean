import Playbook.Run.Loop

/-!
# Running blocks of concurrent operations

Each operation of a block begins with the variables of the list that the block stands in and keeps
what it changes to itself. An operation has a time limit. The value of a block is a summary of its
operations, or for a race the value of the winner.

A crash ends only the operation it happens in. Operations of a batch are tried again when they fail,
each time with the variables that the last try left.
-/

namespace Playbook

/-- How an operation of a block came out. -/
structure OperationResult where
  /-- The operation's position in its block, counted from zero. -/
  index : Nat
  result : Except Failure Value
  /-- How often the operation was tried. -/
  attempts : Nat
  /-- Whether the time was measured that the operation took; a crash leaves none. -/
  measured : Bool

/-- The wording of a crashed task. -/
def Crash.ofTask (task : Nat) (c : Crash) : String :=
  "task " ++ toString task ++ " panicked with message \"" ++ c.message ++ "\""

namespace OperationResult

/-- How an operation came out, by its settlement. -/
def ofSettlement (index : Nat) : Settlement Outcome Crash → OperationResult
  | .finished o => ⟨index, o.result.map Flow.value, o.attempts, true⟩
  | .crashed task c =>
    ⟨index, .error (.action (.failed ("operation task failed: " ++ c.ofTask task))), 1, false⟩

/-- How operations came out, by their settlements; positions in the block begin with `base`. -/
def ofSettled (base : Nat) (settled : Settled Outcome Crash) : List OperationResult :=
  settled.map fun s => ofSettlement (base + s.1) s.2

/-- An operation in a summary, with the time that it took. -/
def toValue (elapsed : UInt64) (r : OperationResult) : Value :=
  let (success, value, error) :=
    match r.result with
    | .ok v => (true, v, Value.null)
    | .error f => (false, .null, .text f.message)
  .record [
    ("index", .nat r.index),
    ("success", .bool success),
    ("value", value),
    ("error", error),
    ("attempts", .nat r.attempts),
    ("elapsedMs", .nat (if r.measured then elapsed.toNat else 0))]

/-- The summary of the operations of a block, with the times that they took by their positions. -/
def summary (elapsed : Nat → UInt64) (results : List OperationResult) : Value :=
  let succeeded := results.countP fun r => r.result.isOk
  .record [
    ("total", .nat results.length),
    ("succeeded", .nat succeeded),
    ("failed", .nat (results.length - succeeded)),
    ("results", .list (results.map fun r => r.toValue (elapsed r.index)))]

/-- The first operation that failed. -/
def firstFailure? : List OperationResult → Option (Nat × Failure)
  | [] => none
  | r :: rest =>
    match r.result with
    | .ok _ => firstFailure? rest
    | .error f => some (r.index, f)

end OperationResult

namespace Runner

variable {σ : Type}

/-- The outcome of an operation that was given a time limit, by its own outcome or by the variables
it had when it was cut off. Calls under way are left; `depth` is how many there were before. -/
def settleTimed (timeout depth : Nat) : Outcome ⊕ Variables → Outcome
  | .inl o => { o with result := o.result.map fun flow => .continue flow.value }
  | .inr vars => .fail (.timeout timeout) (vars.leaveTo depth)

/-- Runs an operation under a time limit. -/
def operation (timeout : Nat) (r : Runner σ) : Runner σ := fun vars =>
  .timed timeout (r vars) fun ending => .done (settleTimed timeout vars.depth ending)

/-- Ends with the summary of the operations of a block. The times that they took are read here,
where they are first told of. -/
def summarize (engine : Engine σ) (results : List OperationResult) : Runner σ := fun vars =>
  .act (.look engine.stopwatch.turn) fun w =>
    yield (OperationResult.summary (engine.stopwatch.operation w.own) results) vars

/-- What a block ends with, by how its operations came out. A block that fails fast fails with the
first failure in the order of the operations. -/
def conclude (engine : Engine σ) (failFast : Bool) (results : List OperationResult) : Runner σ :=
  match (if failFast then OperationResult.firstFailure? results else none) with
  | some (index, f) => fail (.inOperation index f)
  | none => summarize engine results

/-- Runs operations at the same time, a limited number at once. If the block fails fast, no
operation is started after one has failed. -/
def gathering (engine : Engine σ) (limit : Nat) (failFast : Bool) (operations : List (Runner σ)) :
    Runner σ := fun vars =>
  .gather limit (fun o => failFast && o.failed) (operations.map fun r => r vars) vars fun settled =>
    conclude engine failFast (OperationResult.ofSettled 0 settled) vars

/-- A block of operations with its settings. -/
def parallel (engine : Engine σ) (settings : BlockSettings) (operations : List (Runner σ)) :
    Runner σ :=
  let defaults := engine.settings.parallel
  gathering engine (settings.maxConcurrency.getD defaults.maxConcurrency)
    (settings.failFast.getD defaults.failFast)
    (operations.map (operation (settings.timeout.getD defaults.timeout)))

/-- A loop whose passes run at the same time, each with the loop's variables to itself. -/
def parallelForEach (engine : Engine σ) (settings : BlockSettings) (iteration : Iteration)
    (body : Runner σ) : Runner σ :=
  compute (elements engine iteration.source) fun items =>
    parallel engine settings (items.zipIdx.map fun (item, index) =>
      changing (bindPass iteration index item) body)

/-- The greatest number of operations that can be counted as running at the same time. -/
def mostAtOnce : Nat := twoTo 61 - 1

/-- Begins a block with its settings, or crashes if they allow more operations at the same time than
can be counted. -/
def countable (engine : Engine σ) (settings : BlockSettings) (block : Runner σ) : Runner σ :=
  compute (fun _ =>
    if settings.maxConcurrency.getD engine.settings.parallel.maxConcurrency ≤ mostAtOnce then .ok ()
    else .error (.crash .tooManyAtOnce)) fun _ => block

/-- The wording of a failed operation in a race. -/
def raceFailure (s : Nat × Settlement Outcome Crash) : String :=
  match s.2 with
  | .finished o =>
    match o.result with
    | .ok _ => ""
    | .error f => "operation " ++ toString s.1 ++ ": " ++ f.message
  | .crashed task c => c.ofTask task

/-- The value with which a settlement wins a race. -/
def winning? : Settlement Outcome Crash → Option Value
  | .finished o => o.result.toOption.map Flow.value
  | .crashed _ _ => none

/-- Runs all operations at the same time. The value is that of the first one to succeed. -/
def race (engine : Engine σ) (timeout : Option Nat) (operations : List (Runner σ)) :
    Runner σ := fun vars =>
  let timeout := timeout.getD engine.settings.raceTimeout
  .race (fun o => !o.failed) (operations.map fun r => operation timeout r vars) vars fun settled =>
    match settled.findSome? fun s => winning? s.2 with
    | some v => yield v vars
    | none => fail (.raceExhausted (settled.map raceFailure)) vars

/-- The longest pause between two tries. -/
def longestPause : Nat := twoTo 64 * 1000 - 1

/-- Tries an operation until it succeeds, `retries` times more at most. Each pause between two tries
is twice as long as the one before. -/
def retrying (timeout : Nat) (r : Runner σ) (attempt pause : Nat) : Nat → Runner σ
  | 0 => (operation timeout r).andThen fun o => .done { o with attempts := attempt }
  | retries + 1 => (operation timeout r).andThen fun o =>
    if o.failed then
      .sleep pause o.vars
        (retrying timeout r (attempt + 1) (min (2 * pause) longestPause) retries o.vars)
    else .done { o with attempts := attempt }

/-- A list cut into chunks of a size of at least one. -/
def chunks {α : Type} (size : Nat) (items : List α) : List (List α) :=
  if _h : items = [] then []
  else items.take (max size 1) :: chunks size (items.drop (max size 1))
termination_by items.length
decreasing_by
  have := List.length_pos_iff.2 _h
  simp only [List.length_drop]
  omega

/-- Runs chunks of operations, the operations of a chunk at the same time and the chunks one after
the other. `results` are those of the chunks before, the latest chunk first. -/
def chunksFrom (engine : Engine σ) (delay : Nat) (results : List (List OperationResult))
    (base : Nat) : List (List (Runner σ)) → Runner σ
  | [] => summarize engine results.reverse.flatten
  | chunk :: rest => fun vars =>
    let body : Task σ :=
      .gather chunk.length (fun _ => false) (chunk.map fun r => r vars) vars fun settled =>
        chunksFrom engine delay (OperationResult.ofSettled base settled :: results)
          (base + chunk.length) rest vars
    if results.isEmpty then body else .sleep delay vars body

/-- Runs operations in chunks, each operation with its retries. A batch never fails. -/
def batch (engine : Engine σ) (settings : BatchSettings) (operations : List (Runner σ)) :
    Runner σ :=
  let defaults := engine.settings.batch
  let timeout := engine.settings.parallel.timeout
  let retried := fun r =>
    retrying timeout r 1 (settings.retryDelay.getD defaults.retryDelay)
      (settings.maxRetries.getD defaults.maxRetries)
  chunksFrom engine (settings.delay.getD defaults.delay) [] 0
    (chunks (settings.size.getD defaults.size) (operations.map retried))

end Runner

end Playbook
