/-!
# Blocks of concurrent operations

A block starts operations and waits for them. Here is the bookkeeping of a block, apart from what
the operations are and how they run: which operations may start, and when the block is over. The
order in which operations settle comes from outside, so what holds here holds for every order.

* A *gathering* starts operations in order, never more at once than its limit, and is over when all
  that were started have settled. A settlement can stop it, and then no further operation is
  started.
* A *race* starts all operations at once and is over with the first settlement that wins, or when
  all have settled.
-/

namespace Playbook

/-- How an operation ended. -/
inductive Settlement (ρ κ : Type) where
  | finished (result : ρ)
  /-- The task with the given number crashed. -/
  | crashed (task : Nat) (crash : κ)

/-- Settled operations with their positions in the block. -/
abbrev Settled (ρ κ : Type) := List (Nat × Settlement ρ κ)

/-- The state of a gathering whose operations are given by `α`. -/
structure Gathering (α ρ κ : Type) where
  /-- Which results stop the gathering. -/
  stops : ρ → Bool
  /-- The operations that have not been started, in order, with their positions. -/
  waiting : List (Nat × α)
  /-- How many more operations may run at the same time. -/
  free : Nat
  /-- Whether a settlement has stopped the gathering. -/
  stopped : Bool
  /-- The positions of the started operations, in the order in which they were started. -/
  started : List Nat
  /-- The operations that have settled, in the order in which they did. -/
  settled : Settled ρ κ

namespace Gathering

variable {α ρ κ : Type}

/-- A gathering that has not started anything. At least one operation may always run. -/
def ofOperations (limit : Nat) (stops : ρ → Bool) (operations : List α) : Gathering α ρ κ where
  stops := stops
  waiting := operations.zipIdx.map fun (a, i) => (i, a)
  free := max limit 1
  stopped := false
  started := []
  settled := []

/-- The operations that can be started now, those that go on waiting, and how many more may run.
After a stop none is started, and once one more could be, none goes on waiting. -/
def admissible (stopped : Bool) : Nat → List (Nat × α) → List (Nat × α) × List (Nat × α) × Nat
  | free, [] => ([], [], free)
  | 0, waiting => ([], waiting, 0)
  | free + 1, op :: waiting =>
    if stopped then ([], [], free + 1)
    else
      let (start, rest, left) := admissible stopped free waiting
      (op :: start, rest, left)

/-- The operations to be started now, and the gathering in which they have been. -/
def launch (g : Gathering α ρ κ) : List (Nat × α) × Gathering α ρ κ :=
  let (start, rest, left) := admissible g.stopped g.free g.waiting
  (start, { g with waiting := rest, free := left, started := g.started ++ start.map Prod.fst })

/-- Whether an operation has settled. -/
def hasSettled (g : Gathering α ρ κ) (index : Nat) : Bool :=
  g.settled.any fun s => s.1 == index

/-- The first started operation that has not settled. -/
def firstRunning? (g : Gathering α ρ κ) : Option Nat :=
  g.started.find? fun i => !g.hasSettled i

/-- Whether a settlement can be stopped by a result; a crash stops nothing. -/
def stopsOn (g : Gathering α ρ κ) : Settlement ρ κ → Bool
  | .finished r => g.stops r
  | .crashed _ _ => false

/-- The gathering after an operation has settled. -/
def settle (index : Nat) (s : Settlement ρ κ) (g : Gathering α ρ κ) : Gathering α ρ κ :=
  { g with
    free := g.free + 1
    stopped := g.stopped || g.stopsOn s
    settled := g.settled ++ [(index, s)] }

/-- Whether the settling of an operation gives the block something to do: while operations wait to
be started it always does, and afterwards only if it was the one that the block waits for. -/
def wakesOn (g : Gathering α ρ κ) (index : Nat) : Bool :=
  !g.waiting.isEmpty || g.firstRunning? == some index

/-- The settlements of all started operations in the order of their positions, once nothing is left
to wait for. -/
def result? (g : Gathering α ρ κ) : Option (Settled ρ κ) :=
  if g.waiting.isEmpty then
    g.started.mapM fun i => (g.settled.find? fun s => s.1 == i)
  else none

end Gathering

/-- The state of a race. -/
structure Race (ρ κ : Type) where
  /-- Which results win the race. -/
  wins : ρ → Bool
  /-- How many operations there are. -/
  total : Nat
  /-- The operations that have settled, in the order in which they did. -/
  settled : Settled ρ κ

namespace Race

variable {ρ κ : Type}

/-- Whether a settlement wins the race. -/
def winsWith (r : Race ρ κ) : Settlement ρ κ → Bool
  | .finished result => r.wins result
  | .crashed _ _ => false

/-- The race after an operation has settled. -/
def settle (index : Nat) (s : Settlement ρ κ) (r : Race ρ κ) : Race ρ κ :=
  { r with settled := r.settled ++ [(index, s)] }

/-- The settlements up to and including the first one that satisfies a condition. -/
def upTo (p : Settlement ρ κ → Bool) : Settled ρ κ → Settled ρ κ
  | [] => []
  | s :: rest => if p s.2 then [s] else s :: upTo p rest

/-- The settlements that decide the race, the winner last, once there is a winner or all have
settled. -/
def result? (r : Race ρ κ) : Option (Settled ρ κ) :=
  if r.settled.any fun s => r.winsWith s.2 then some (upTo r.winsWith r.settled)
  else if r.settled.length = r.total then some r.settled
  else none

end Race

end Playbook
