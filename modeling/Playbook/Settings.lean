/-!
# Settings

The limits of a run and the defaults of concurrent blocks. All times are in milliseconds.
-/

namespace Playbook

/-- The defaults of blocks of concurrent operations. -/
structure ParallelDefaults where
  maxConcurrency : Nat
  timeout : Nat
  failFast : Bool
deriving DecidableEq, Repr

/-- The defaults of batches. -/
structure BatchDefaults where
  size : Nat
  /-- The pause between chunks. -/
  delay : Nat
  maxRetries : Nat
  /-- The first pause before an operation is tried again; each further one is twice as long. -/
  retryDelay : Nat
deriving DecidableEq, Repr

/-- The limits of a run and the defaults of concurrent blocks. -/
structure Settings where
  /-- How deep keyword calls may be nested. -/
  maxKeywordDepth : Nat
  /-- How often a `while` loop may run unless it says otherwise. -/
  maxWhileIterations : Nat
  parallel : ParallelDefaults
  batch : BatchDefaults
  raceTimeout : Nat
  /-- Whether assignments and returns go into the log of results. -/
  recordControlSteps : Bool
deriving DecidableEq, Repr

/-- The settings where nothing else is said. -/
def Settings.default : Settings where
  maxKeywordDepth := 10
  maxWhileIterations := 10000
  parallel := ⟨5, 30000, true⟩
  batch := ⟨10, 0, 0, 100⟩
  raceTimeout := 30000
  recordControlSteps := false

end Playbook
