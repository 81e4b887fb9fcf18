import Playbook.Process

/-!
# Running processes

A machine runs tasks one at a time against a clock that stands still while any task can run. The
main task and the operations of blocks are tasks. A task runs until it waits or ends; then the next
one has its turn.

* Tasks that can run have their turns in the order in which they became able to. The main task waits
  until no other task can run, but goes first when the clock has moved.
* When no task can run, the clock moves to the earliest time that a task waits for. Tasks that wait
  for the same time become able to run in the order in which they began to wait.
* A task that is woken first goes on as far as it can, and only then is a deadline looked at that
  has passed. A time of zero has passed at once.
* A process that is cut off drops the block it waits for. The operations of a gathering that have
  been started run on by themselves; those of a race are stopped.
-/

namespace Playbook

/-- A time that a task waits for. -/
structure Alarm where
  /-- The time on the clock. -/
  due : Nat
  /-- The number of the alarm; alarms that are set later have greater numbers. -/
  serial : Nat
deriving DecidableEq, Repr

/-- A process that is waiting. -/
inductive Waiting (δ σ ν ρ κ : Type) where
  | asleep (alarm : Alarm) (here : ν) (next : Process δ σ ν ρ κ)
  /-- Waits for the block with the given number. -/
  | blocked (block : Nat) (here : ν) (next : Settled ρ κ → Process δ σ ν ρ κ)
  | timed (deadline : Alarm) (body : Waiting δ σ ν ρ κ) (next : ρ ⊕ ν → Process δ σ ν ρ κ)

/-- How far a process got in its turn. -/
inductive Progress (δ σ ν ρ κ : Type) where
  | done (result : ρ)
  | crashed (accident : κ)
  | waiting (w : Waiting δ σ ν ρ κ)

namespace Machine

/-- How far a task has come. -/
inductive TaskState (δ σ ν ρ κ : Type) where
  | fresh (p : Process δ σ ν ρ κ)
  | waiting (w : Waiting δ σ ν ρ κ)
  /-- To be forgotten at its next turn. -/
  | cancelled (before : TaskState δ σ ν ρ κ)

/-- A task: a process with its place among the others. -/
structure Task (δ σ ν ρ κ : Type) where
  id : Nat
  /-- The block that the task is an operation of, and its position there; none for the main task. -/
  parent : Option (Nat × Nat)
  state : TaskState δ σ ν ρ κ

/-- What a block is waiting for. -/
inductive BlockState (δ σ ν ρ κ : Type) where
  | gathering (g : Gathering (Process δ σ ν ρ κ) ρ κ)
  | race (r : Race ρ κ)

/-- A block with the task that waits for it. -/
structure Block (δ σ ν ρ κ : Type) where
  id : Nat
  owner : Nat
  state : BlockState δ σ ν ρ κ

end Machine

open Machine (Task Block)

/-- The tasks, the blocks they wait for, the clock and the world. -/
structure Machine (δ σ ν ρ κ : Type) where
  world : σ
  /-- The time on the clock in milliseconds. -/
  now : Nat
  /-- The number that the next task, block or alarm gets. -/
  serial : Nat
  tasks : List (Task δ σ ν ρ κ)
  blocks : List (Block δ σ ν ρ κ)
  /-- The tasks that can run, in the order of their turns. -/
  ready : List Nat
  /-- Whether the main task has its turn when no other task can run. -/
  mainReady : Bool

namespace Waiting

variable {δ σ ν ρ κ : Type}

/-- What a waiting process has to itself. -/
def here : Waiting δ σ ν ρ κ → ν
  | asleep _ here _ => here
  | blocked _ here _ => here
  | timed _ body _ => body.here

/-- The alarms that a process waits for. -/
def alarms : Waiting δ σ ν ρ κ → List Alarm
  | asleep alarm _ _ => [alarm]
  | blocked _ _ _ => []
  | timed deadline body _ => deadline :: body.alarms

/-- The blocks that a process waits for. -/
def blocks : Waiting δ σ ν ρ κ → List Nat
  | asleep _ _ _ => []
  | blocked block _ _ => [block]
  | timed _ body _ => body.blocks

end Waiting

namespace Machine

variable {δ σ ν ρ κ : Type}

/-- The process that a task waits in; none if it has not begun. -/
def TaskState.waiting? : TaskState δ σ ν ρ κ → Option (Waiting δ σ ν ρ κ)
  | fresh _ => none
  | waiting w => some w
  | cancelled before => before.waiting?

/-- The number of the main task. -/
def mainId : Nat := 0

/-- A machine without tasks. -/
def ofWorld (world : σ) : Machine δ σ ν ρ κ where
  world := world
  now := 0
  serial := 1
  tasks := []
  blocks := []
  ready := []
  mainReady := false

/-- Adds a process as the main task, which has the first turn. -/
def begin (p : Process δ σ ν ρ κ) (m : Machine δ σ ν ρ κ) : Machine δ σ ν ρ κ :=
  { m with
    tasks := ⟨mainId, none, .fresh p⟩ :: m.tasks
    ready := mainId :: m.ready
    mainReady := false }

/-- Gives a task its turn after those that can run already. -/
def wake (id : Nat) (m : Machine δ σ ν ρ κ) : Machine δ σ ν ρ κ :=
  if id = mainId then { m with mainReady := true }
  else if m.ready.contains id then m
  else { m with ready := m.ready ++ [id] }

/-- Adds a task for an operation of a block. -/
def spawn (block index : Nat) (p : Process δ σ ν ρ κ) (m : Machine δ σ ν ρ κ) :
    Machine δ σ ν ρ κ :=
  { m with
    serial := m.serial + 1
    tasks := m.tasks ++ [⟨m.serial, some (block, index), .fresh p⟩]
    ready := m.ready ++ [m.serial] }

/-- Adds tasks for operations of a block, in order. -/
def spawnAll (block : Nat) (operations : List (Nat × Process δ σ ν ρ κ))
    (m : Machine δ σ ν ρ κ) : Machine δ σ ν ρ κ :=
  operations.foldl (fun m op => m.spawn block op.1 op.2) m

/-- Puts the state of a block in place of the one before. -/
def putBlock (block : Block δ σ ν ρ κ) (m : Machine δ σ ν ρ κ) : Machine δ σ ν ρ κ :=
  { m with blocks := m.blocks.map fun b => if b.id = block.id then block else b }

/-- Forgets a block. -/
def removeBlock (id : Nat) (m : Machine δ σ ν ρ κ) : Machine δ σ ν ρ κ :=
  { m with blocks := m.blocks.filter fun b => b.id ≠ id }

/-- Marks the operations of a block to be dropped at their next turn, and gives them one. -/
def cancelOperations (block : Nat) (m : Machine δ σ ν ρ κ) : Machine δ σ ν ρ κ :=
  let isOperation := fun (t : Task δ σ ν ρ κ) => t.parent.any fun p => p.1 == block
  let ids := (m.tasks.filter isOperation).map Task.id
  let tasks := m.tasks.map fun t =>
    if isOperation t then { t with state := .cancelled t.state } else t
  ids.foldl (fun m id => m.wake id) { m with tasks := tasks }

/-- Drops a block. The operations of a race are cancelled, and those of a gathering run on. -/
def dropBlock (id : Nat) (m : Machine δ σ ν ρ κ) : Machine δ σ ν ρ κ :=
  match m.blocks.find? fun b => b.id == id with
  | some ⟨_, _, .race _⟩ => (m.removeBlock id).cancelOperations id
  | some ⟨_, _, .gathering _⟩ => m.removeBlock id
  | none => m

/-- Drops a waiting process. -/
def drop (w : Waiting δ σ ν ρ κ) (m : Machine δ σ ν ρ κ) : Machine δ σ ν ρ κ :=
  w.blocks.foldl (fun m id => m.dropBlock id) m

/-- Opens a block for a task: starts what can be started. The number of the block is the answer. -/
def openBlock (owner : Nat) (state : BlockState δ σ ν ρ κ)
    (start : List (Nat × Process δ σ ν ρ κ)) (m : Machine δ σ ν ρ κ) :
    Nat × Machine δ σ ν ρ κ :=
  let id := m.serial
  let m := { m with serial := id + 1, blocks := ⟨id, owner, state⟩ :: m.blocks }
  (id, m.spawnAll id start)

/-- Looks after a block in the turn of the task that waits for it: starts what can be started, and
closes the block if it is over. -/
def attend (id : Nat) (m : Machine δ σ ν ρ κ) : Option (Settled ρ κ) × Machine δ σ ν ρ κ :=
  match m.blocks.find? fun b => b.id == id with
  | none => (none, m)
  | some ⟨_, owner, .gathering g⟩ =>
    let (start, g) := g.launch
    match g.result? with
    | some r => (some r, m.removeBlock id)
    | none => (none, (m.putBlock ⟨id, owner, .gathering g⟩).spawnAll id start)
  | some ⟨_, _, .race r⟩ =>
    match r.result? with
    | some s => (some s, (m.removeBlock id).cancelOperations id)
    | none => (none, m)

/-- Tells a block that one of its operations has settled. -/
def settle (block index : Nat) (s : Settlement ρ κ) (m : Machine δ σ ν ρ κ) : Machine δ σ ν ρ κ :=
  match m.blocks.find? fun b => b.id == block with
  | none => m
  | some ⟨id, owner, .gathering g⟩ =>
    let m' := m.putBlock ⟨id, owner, .gathering (g.settle index s)⟩
    if g.wakesOn index then m'.wake owner else m'
  | some ⟨id, owner, .race r⟩ => (m.putBlock ⟨id, owner, .race (r.settle index s)⟩).wake owner

/-- Forgets a task. -/
def removeTask (id : Nat) (m : Machine δ σ ν ρ κ) : Machine δ σ ν ρ κ :=
  { m with tasks := m.tasks.filter fun t => t.id ≠ id }

/-- The end of a task: its block hears of it, and a main task's end is the answer. -/
def finish (task : Task δ σ ν ρ κ) (s : Settlement ρ κ) (m : Machine δ σ ν ρ κ) :
    Option (Settlement ρ κ) × Machine δ σ ν ρ κ :=
  let m := m.removeTask task.id
  match task.parent with
  | some (block, index) => (none, m.settle block index s)
  | none => (some s, m)

/-- What a task has come to in its turn. -/
def conclude (task : Task δ σ ν ρ κ) :
    Progress δ σ ν ρ κ × Machine δ σ ν ρ κ → Option (Settlement ρ κ) × Machine δ σ ν ρ κ
  | (.done r, m) => m.finish task (.finished r)
  | (.crashed a, m) => m.finish task (.crashed task.id a)
  | (.waiting w, m) =>
    (none, { m with
      tasks := m.tasks.map fun t => if t.id = task.id then { t with state := .waiting w } else t })

/-- The alarms that tasks wait for, with the tasks. -/
def alarms (m : Machine δ σ ν ρ κ) : List (Alarm × Nat) :=
  m.tasks.flatMap fun t =>
    match t.state with
    | .waiting w => w.alarms.map fun a => (a, t.id)
    | _ => []

/-- Moves the clock to the earliest time that a task waits for, and wakes the tasks that wait for
it. The answer is `none` if no task waits for a time. -/
def moveClock (m : Machine δ σ ν ρ κ) : Option (Machine δ σ ν ρ κ) :=
  let alarms := m.alarms
  match (alarms.map fun a => a.1.due).min? with
  | none => none
  | some now =>
    let due := (alarms.filter fun a => a.1.due ≤ now).mergeSort fun a b => a.1.serial ≤ b.1.serial
    let others := due.filter fun a => a.2 ≠ mainId
    let m := others.foldl (fun m a => m.wake a.2) { m with now := now }
    if due.any fun a => a.2 == mainId then some { m with ready := mainId :: m.ready } else some m

/-- The task that has the next turn, if any can run. -/
def next? (m : Machine δ σ ν ρ κ) : Option (Nat × Machine δ σ ν ρ κ) :=
  match m.ready with
  | id :: rest => some (id, { m with ready := rest })
  | [] => if m.mainReady then some (mainId, { m with mainReady := false }) else none

/-- How a run of the main task ended. -/
inductive Ending (ρ κ : Type) where
  | finished (result : ρ)
  | crashed (accident : κ)
  /-- The main task had not ended when the number of turns was used up. -/
  | unfinished

variable [Deeds δ σ]

/-- Runs a process as a task until it waits or ends. -/
def advance (id : Nat) : Process δ σ ν ρ κ → Machine δ σ ν ρ κ →
    Progress δ σ ν ρ κ × Machine δ σ ν ρ κ
  | .done r, m => (.done r, m)
  | .crash a, m => (.crashed a, m)
  | .act deed next, m =>
    advance id (next m.world) { m with world := Deeds.perform deed m.world }
  | .sleep ms here next, m =>
    if ms = 0 then advance id next m
    else
      (.waiting (.asleep ⟨m.now + ms, m.serial⟩ here next), { m with serial := m.serial + 1 })
  | .timed ms body next, m =>
    match advance id body m with
    | (.done r, m) => advance id (next (.inl r)) m
    | (.crashed a, m) => (.crashed a, m)
    | (.waiting w, m) =>
      if ms = 0 then advance id (next (.inr w.here)) (m.drop w)
      else
        (.waiting (.timed ⟨m.now + ms, m.serial⟩ w next), { m with serial := m.serial + 1 })
  | .gather limit stops operations here next, m =>
    let (start, g) := (Gathering.ofOperations limit stops operations).launch
    match g.result? with
    | some r => advance id (next r) m
    | none =>
      let (block, m) := m.openBlock id (.gathering g) start
      (.waiting (.blocked block here next), m)
  | .race wins operations here next, m =>
    let r : Race ρ κ := ⟨wins, operations.length, []⟩
    match r.result? with
    | some s => advance id (next s) m
    | none =>
      let (block, m) := m.openBlock id (.race r) (operations.zipIdx.map fun (p, i) => (i, p))
      (.waiting (.blocked block here next), m)

/-- Goes on with a waiting process until it waits again or ends. -/
def resume (id : Nat) : Waiting δ σ ν ρ κ → Machine δ σ ν ρ κ →
    Progress δ σ ν ρ κ × Machine δ σ ν ρ κ
  | .asleep alarm here next, m =>
    if alarm.due ≤ m.now then advance id next m else (.waiting (.asleep alarm here next), m)
  | .blocked block here next, m =>
    match m.attend block with
    | (some r, m) => advance id (next r) m
    | (none, m) => (.waiting (.blocked block here next), m)
  | .timed deadline body next, m =>
    match resume id body m with
    | (.done r, m) => advance id (next (.inl r)) m
    | (.crashed a, m) => (.crashed a, m)
    | (.waiting w, m) =>
      if deadline.due ≤ m.now then advance id (next (.inr w.here)) (m.drop w)
      else (.waiting (.timed deadline w next), m)

/-- Gives a task its turn. -/
def turn (id : Nat) (m : Machine δ σ ν ρ κ) : Option (Settlement ρ κ) × Machine δ σ ν ρ κ :=
  match m.tasks.find? fun t => t.id == id with
  | none => (none, m)
  | some task =>
    match task.state with
    | .fresh p => conclude task (advance id p m)
    | .waiting w => conclude task (resume id w m)
    | .cancelled before =>
      match before.waiting? with
      | some w => (none, (m.removeTask id).drop w)
      | none => (none, m.removeTask id)

/-- Takes turns until the main task has ended, at most a given number of them. -/
def runTurns : Nat → Machine δ σ ν ρ κ → Ending ρ κ × Machine δ σ ν ρ κ
  | 0, m => (.unfinished, m)
  | turns + 1, m =>
    match m.next? with
    | some (id, m) =>
      match m.turn id with
      | (some (.finished r), m) => (.finished r, m)
      | (some (.crashed _ a), m) => (.crashed a, m)
      | (none, m) => runTurns turns m
    | none =>
      match m.moveClock with
      | some m => runTurns turns m
      | none => (.unfinished, m)

/-- Runs a process as the main task. -/
def run (turns : Nat) (p : Process δ σ ν ρ κ) (m : Machine δ σ ν ρ κ) :
    Ending ρ κ × Machine δ σ ν ρ κ :=
  runTurns turns (m.begin p)

end Machine

end Playbook
