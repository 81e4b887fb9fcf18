import Playbook.Process.Block

/-!
# Processes

A process is what a task does: it acts on the world that all tasks share, it sleeps, and it runs
blocks of concurrent operations. It is a tree whose branches are chosen by the state of the world
and by the results of what the process waits for, so every run of it is finite.

* `σ` is the world, and `δ` are the deeds that change it (`Deeds`).
* `ν` is what a task has to itself, its variables. It is part of the tree; where a process waits,
  the tree says what it is there, so that whoever cuts the process off can go on from it.
* `ρ` is the result, and `κ` the kind of accident that ends a task without one.
-/

namespace Playbook

/-- Deeds and how they change a world. -/
class Deeds (δ σ : Type) where
  perform : δ → σ → σ

/-- A process. -/
inductive Process (δ σ ν ρ κ : Type) where
  | done (result : ρ)
  | crash (accident : κ)
  /-- Does something to the world and goes on, depending on the world from before. -/
  | act (deed : δ) (next : σ → Process δ σ ν ρ κ)
  /-- Waits for a time in milliseconds. -/
  | sleep (ms : Nat) (here : ν) (next : Process δ σ ν ρ κ)
  /-- Runs a process for a time at most, and goes on with its result or, if it was cut off, with
  what it had to itself. -/
  | timed (ms : Nat) (body : Process δ σ ν ρ κ) (next : ρ ⊕ ν → Process δ σ ν ρ κ)
  /-- Runs operations at the same time, a limited number at once, and goes on with their
  settlements. -/
  | gather (limit : Nat) (stops : ρ → Bool) (operations : List (Process δ σ ν ρ κ)) (here : ν)
    (next : Settled ρ κ → Process δ σ ν ρ κ)
  /-- Runs all operations at the same time up to the first that wins, and goes on with the
  settlements up to there. -/
  | race (wins : ρ → Bool) (operations : List (Process δ σ ν ρ κ)) (here : ν)
    (next : Settled ρ κ → Process δ σ ν ρ κ)

namespace Process

variable {δ σ ν ρ κ : Type}

/-- Goes on with the result of a process. -/
def andThen (p : Process δ σ ν ρ κ) (k : ρ → Process δ σ ν ρ κ) : Process δ σ ν ρ κ :=
  match p with
  | done r => k r
  | crash a => crash a
  | act deed next => act deed fun w => (next w).andThen k
  | sleep ms here next => sleep ms here (next.andThen k)
  | timed ms body next => timed ms body fun r => (next r).andThen k
  | gather limit stops operations here next =>
    gather limit stops operations here fun r => (next r).andThen k
  | race wins operations here next => race wins operations here fun r => (next r).andThen k
termination_by structural p

/-- Does something to the world and goes on. -/
def doing (deed : δ) (next : Process δ σ ν ρ κ) : Process δ σ ν ρ κ :=
  act deed fun _ => next

end Process

end Playbook
