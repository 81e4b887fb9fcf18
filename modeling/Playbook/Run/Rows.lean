import Playbook.Session

/-!
# Data-driven runs

A list of steps is run once for each data row. During a pass the globals `row`, `rowIndex` and
`rowCount` hold the row, its position and the number of rows; behind each pass they are what they
were before it.
-/

namespace Playbook

/-- How the pass for a row came out. -/
structure RowOutcome where
  /-- The row's position, counted from zero. -/
  index : Nat
  result : Except Failure Value

/-- How the passes came out, one after the other. -/
abbrev RowSummary := List RowOutcome

namespace RowSummary

/-- How many rows there are. -/
def total (s : RowSummary) : Nat := s.length

/-- How many rows passed. -/
def passed (s : RowSummary) : Nat := s.countP fun r => r.result.isOk

/-- How many rows failed. -/
def failed (s : RowSummary) : Nat := s.countP fun r => !r.result.isOk

end RowSummary

namespace Rows

/-- The globals that belong to a pass. -/
def names : List String := ["row", "rowIndex", "rowCount"]

/-- The variables for the pass of a row. -/
def bindRow (index count : Nat) (row : Value) (vars : Variables) : Variables :=
  ((vars.setGlobal "row" row).setGlobal "rowIndex" (.nat index)).setGlobal "rowCount" (.nat count)

/-- Puts a global back to what it was. -/
def restoreGlobal (before : Variables) (name : String) (vars : Variables) : Variables :=
  match before.globals.lookup name with
  | some v => vars.setGlobal name v
  | none => vars.removeGlobal name

/-- Puts the globals of a pass back to what they were. -/
def restore (before vars : Variables) : Variables :=
  names.foldl (fun vars name => restoreGlobal before name vars) vars

variable {σ : Type}

/-- The pass for a row. -/
def pass (steps : Runner σ) (count index : Nat) (row : Value) : Runner σ := fun vars =>
  (steps (bindRow index count row vars)).andThen fun o =>
    .done { o with vars := restore vars o.vars }

/-- The passes for rows, the first of which has a given position. If a row fails, the passes end
with its failure or, if `keepGoing` says so, go on. The variables from behind the last pass are the
second part. -/
def playFrom (steps : Runner σ) (keepGoing : Bool) (count index : Nat) (vars : Variables) :
    List Value → Play σ (Except Failure RowSummary × Variables)
  | [] => pure (.ok [], vars)
  | row :: rest => do
    let o ← Play.run (pass steps count index row) vars
    match o.result, keepGoing with
    | .error f, false => pure (.error (.inRow index f), o.vars)
    | result, _ =>
      let (summary, vars) ← playFrom steps keepGoing count (index + 1) o.vars rest
      pure (summary.map (⟨index, result.map Flow.value⟩ :: ·), vars)

/-- The passes for all rows. -/
def play (steps : Runner σ) (keepGoing : Bool) (rows : List Value) (vars : Variables) :
    Play σ (Except Failure RowSummary × Variables) :=
  playFrom steps keepGoing rows.length 0 vars rows

end Rows

end Playbook
