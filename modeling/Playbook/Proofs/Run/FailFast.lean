import Playbook.Proofs.Process.Schedule
import Playbook.Session

/-!
# Which operations a block that fails fast starts

A block that fails fast is to start no further operation once one has failed.
An operation fails with an error, by its time limit, or by a crash. The first
two are results of the operation, and they stop the block; a crash leaves no
result, and though the block reports it as a failure, it stops nothing.

`Session.admission_of_failFast` says this exactly: as long as no operation has
*ended* with a failure, crashes included, a block starts whatever may run, and
from then on it starts nothing. That a crash makes room for another operation is
`Session.admission_after_crash`.
-/

namespace Playbook

/-- An operation has ended with a failure: with an error or at its time limit,
but not with a crash. -/
def Settlement.endedFailed : Settlement Outcome Crash → Bool
  | finished o => o.failed
  | crashed _ _ => false

namespace Gathering

variable {α : Type} {g : Gathering α Outcome Crash}

/-- Where failed operations stop a gathering, it is stopped by those that have
ended with a failure. -/
theorem stopsOn_of_failed (hg : ∀ o, g.stops o = o.failed)
    (s : Settlement Outcome Crash) : g.stopsOn s = s.endedFailed := by
  cases s with
  | finished o => exact hg o
  | crashed task c => rfl

/-- **What a gathering starts that failed operations stop**, after any
settlements in any order. -/
theorem admission_of_stops {limit : Nat} {stops : Outcome → Bool}
    {operations : List α}
    (hm : Moves (ofOperations limit stops operations) g)
    (hg : ∀ o, g.stops o = o.failed) :
    g.launch.1 = (if g.settled.any fun s => s.2.endedFailed then []
        else g.waiting.take g.free)
      ∧ ((g.settled.any fun s => s.2.endedFailed) = true →
          ∀ g', Moves g g' → g'.started = g.started) := by
  have hs : g.stopped = g.settled.any fun s => s.2.endedFailed := by
    rw [stopped_of_moves hm]
    exact congrArg (List.any g.settled) (funext fun s => stopsOn_of_failed hg s.2)
  refine ⟨?_, fun hf g' hm' => ?_⟩
  · rw [launch_fst, hs]
  · rw [← hs] at hf
    exact (started_of_moves hm' hf).1

end Gathering

variable {σ : Type}

/-- **A block that fails fast starts nothing once an operation has ended with a
failure.** Such a block, a loop with concurrent passes included, is a gathering
that failed operations stop. In every session and in every order of turns, such
a gathering starts as many of the waiting operations as may run, until one has
ended with an error or at its time limit; from then on it starts none. -/
theorem Session.admission_of_failFast (engine : Engine σ)
    (settings : BlockSettings)
    (hf : settings.failFast.getD engine.settings.parallel.failFast = true) :
    (∀ operations vars, ∃ limit ops next,
      Runner.parallel engine settings operations vars
        = .gather limit (fun o => o.failed) ops vars next)
    ∧ (∀ iteration body vars items,
      Runner.elements engine iteration.source vars = .ok items →
      ∃ limit ops next, Runner.parallelForEach engine settings iteration body vars
        = .gather limit (fun o => o.failed) ops vars next)
    ∧ ∀ P registry own session,
      Machine.Schedule P (Session.start (σ := σ) registry own) session →
      ∀ block ∈ session.blocks, ∀ g, block.state = .gathering g →
        (∀ o, g.stops o = o.failed) →
        g.launch.1 = (if g.settled.any fun s => s.2.endedFailed then []
            else g.waiting.take g.free)
          ∧ ((g.settled.any fun s => s.2.endedFailed) = true →
              ∀ g', Gathering.Moves g g' → g'.started = g.started) := by
  have hblock : ∀ operations vars, ∃ limit ops next,
      Runner.parallel engine settings operations vars
        = .gather limit (fun o => o.failed) ops vars next := by
    intro operations vars
    unfold Runner.parallel Runner.gathering
    rw [hf]
    exact ⟨_, _, _, rfl⟩
  refine ⟨hblock, fun iteration body vars items hi => ?_,
    fun P registry own session hs block hb g hg hstops => ?_⟩
  · unfold Runner.parallelForEach Runner.compute
    rw [hi]
    exact hblock _ vars
  · obtain ⟨limit, stops, operations, hm⟩ := Machine.moves_of_schedule hs hb hg
    exact Gathering.admission_of_stops hm hstops

/-- One operation at a time, and the first of two fails: when it has settled,
the block has nothing more to start. -/
theorem Session.admission_of_failFast_unknown_action :
    let ambient : Ambient := ⟨0, "", "", fun _ => none⟩
    let engine : Engine Unit := ⟨.default, .standard ambient, ambient⟩
    let settings : BlockSettings := ⟨some 1, some true, none⟩
    let first := Step.mk (.domain "transfer" .null []) none false none .null
    let second := Step.mk (.domain "log" (.text "second") []) none false none .null
    let block := Step.mk (.parallel [first, second] settings) none false none .null
    let session := (Machine.run 2 (engine.execute [block] .empty)
      (Session.start ⟨[], []⟩ ())).2
    (session.blocks.any fun b => match b.state with
        | .gathering g => g.settled.any fun s => s.2.endedFailed
        | .race _ => false) = true
      ∧ ∀ b ∈ session.blocks, ∀ g, b.state = .gathering g →
        (∀ o, g.stops o = o.failed) →
        (g.settled.any fun s => s.2.endedFailed) = true → g.launch.1 = [] := by
  intro ambient engine settings first second block session
  have h := Session.admission_of_failFast engine settings rfl
  refine ⟨?_, fun b hb g hg hstops hfailed => ?_⟩
  · subst session block second first settings engine ambient
    decide +kernel
  · have hs : Machine.Schedule (fun _ => True) (Session.start ⟨[], []⟩ ()) session :=
      Machine.schedule_run trivial 2 _
    rw [(h.2.2 _ _ _ session hs b hb g hg hstops).1, if_pos hfailed]

/-- **A crash makes room for another operation**: one operation at a time, and
the first of two crashes, since the least integer is divided by minus one. The
block reports it as a failure, and has still started the second one. -/
theorem Session.admission_after_crash :
    let ambient : Ambient := ⟨0, "", "", fun _ => none⟩
    let engine : Engine Unit := ⟨.default, .standard ambient, ambient⟩
    let divides := Step.mk
      (.domain "echo" (.text "\x7b\x7bsmall / -1\x7d\x7d") []) none false none .null
    let second := Step.mk (.domain "log" (.text "second") []) none false none .null
    let block := Step.mk (.parallel [divides, second] ⟨some 1, some true, none⟩)
      none false none .null
    let vars : Variables := ⟨[("small", .int (-9223372036854775808))], []⟩
    let session := (Machine.run 10 (engine.execute [block] vars)
      (Session.start ⟨[], []⟩ ())).2
    session.world.history = [.started 1 0 "parallel", .started 1 0 "echo",
      .started 1 0 "log", .finished 1 0 "log" true,
      .finished 1 0 "parallel" false] := by
  decide +kernel

end Playbook
