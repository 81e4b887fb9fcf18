import Playbook.Main
import Playbook.Proofs.Document.Decoding
import Playbook.Proofs.Document.Numerals
import Playbook.Proofs.Document.Values
import Playbook.Proofs.Document.Written
import Playbook.Proofs.Expr.Boundness
import Playbook.Proofs.Expr.Comparisons
import Playbook.Proofs.Expr.Conditions
import Playbook.Proofs.Expr.Crash
import Playbook.Proofs.Expr.Depth
import Playbook.Proofs.Expr.Diagnostics
import Playbook.Proofs.Expr.Equality
import Playbook.Proofs.Expr.Grammar
import Playbook.Proofs.Expr.Integers
import Playbook.Proofs.Expr.Lexemes
import Playbook.Proofs.Expr.Placeholder
import Playbook.Proofs.Expr.Printing
import Playbook.Proofs.Expr.Rereading
import Playbook.Proofs.Expr.Trimming
import Playbook.Proofs.Expr.Visibility
import Playbook.Proofs.Keyword.Arguments
import Playbook.Proofs.Keyword.Registry
import Playbook.Proofs.Number.Nearest
import Playbook.Proofs.Number.Order
import Playbook.Proofs.Number.Rounding
import Playbook.Proofs.Number.Shortest
import Playbook.Proofs.Path.Grammar
import Playbook.Proofs.Process.Accident
import Playbook.Proofs.Process.Admission
import Playbook.Proofs.Process.Books
import Playbook.Proofs.Process.Busy
import Playbook.Proofs.Process.Change
import Playbook.Proofs.Process.Closed
import Playbook.Proofs.Process.Course
import Playbook.Proofs.Process.Crashing
import Playbook.Proofs.Process.Decided
import Playbook.Proofs.Process.Descent
import Playbook.Proofs.Process.Ends
import Playbook.Proofs.Process.Everywhere
import Playbook.Proofs.Process.Fate
import Playbook.Proofs.Process.Liveness
import Playbook.Proofs.Process.Load
import Playbook.Proofs.Process.Log
import Playbook.Proofs.Process.MainTask
import Playbook.Proofs.Process.Meets
import Playbook.Proofs.Process.Moment
import Playbook.Proofs.Process.Outcome
import Playbook.Proofs.Process.Reach
import Playbook.Proofs.Process.Resting
import Playbook.Proofs.Process.Result
import Playbook.Proofs.Process.Running
import Playbook.Proofs.Process.Runs
import Playbook.Proofs.Process.Schedule
import Playbook.Proofs.Process.Sequel
import Playbook.Proofs.Process.Settled
import Playbook.Proofs.Process.Solo
import Playbook.Proofs.Process.Tally
import Playbook.Proofs.Process.Trace
import Playbook.Proofs.Process.Wake
import Playbook.Proofs.Process.Watch
import Playbook.Proofs.Run.Accidents
import Playbook.Proofs.Run.Aggregation
import Playbook.Proofs.Run.Assertion
import Playbook.Proofs.Run.Balance
import Playbook.Proofs.Run.Barriers
import Playbook.Proofs.Run.Blocks
import Playbook.Proofs.Run.Causes
import Playbook.Proofs.Run.Concurrency
import Playbook.Proofs.Run.Construct
import Playbook.Proofs.Run.Contexts
import Playbook.Proofs.Run.Depth
import Playbook.Proofs.Run.Determinism
import Playbook.Proofs.Run.Entry
import Playbook.Proofs.Run.Events
import Playbook.Proofs.Run.FailFast
import Playbook.Proofs.Run.Finally
import Playbook.Proofs.Run.Hiding
import Playbook.Proofs.Run.Independence
import Playbook.Proofs.Run.Isolation
import Playbook.Proofs.Run.Loops
import Playbook.Proofs.Run.Naming
import Playbook.Proofs.Run.Nesting
import Playbook.Proofs.Run.Numbering
import Playbook.Proofs.Run.Overflow
import Playbook.Proofs.Run.Race
import Playbook.Proofs.Run.Restoration
import Playbook.Proofs.Run.Results
import Playbook.Proofs.Run.Retrying
import Playbook.Proofs.Run.Returns
import Playbook.Proofs.Run.Rows
import Playbook.Proofs.Run.Samples
import Playbook.Proofs.Run.Settings
import Playbook.Proofs.Run.Structured
import Playbook.Proofs.Run.Termination
import Playbook.Proofs.Run.Tolerance
import Playbook.Proofs.Run.Unwinding
import Playbook.Proofs.Run.While
import Playbook.Proofs.Scenario.Agenda
import Playbook.Proofs.Scenario.Reload
import Playbook.Proofs.Scenario.Reports
import Playbook.Proofs.Scenario.Setup
import Playbook.Proofs.Settings.Reload
import Playbook.Proofs.Step.Priority
import Playbook.Proofs.Step.Reading
import Playbook.Proofs.Step.Spelling
import Playbook.Proofs.Template.Filling
import Playbook.Proofs.Template.Splitting
import Playbook.Proofs.Text.Search
import Playbook.Proofs.Value.Fields
import Playbook.Proofs.Value.Rendering
