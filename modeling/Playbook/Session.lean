import Playbook.Process.Machine
import Playbook.Run.Dispatch

/-!
# Sessions

A session is a machine on which lists of steps are run one after the other. Operations that were cut
off from their block may still run when the next list begins.

A play is something that is done in a session, step by step, and that comes to an end unless a crash
or an endless run breaks it off.
-/

namespace Playbook

/-- The machine of a session. -/
abbrev Session (σ : Type) := Machine (Deed σ) (World σ) Variables Outcome Crash

/-- Why a play is broken off. -/
inductive Abort where
  | crash (c : Crash)
  /-- A run did not end within the turns that it is given. -/
  | endless

/-- Something that is done in a session. -/
abbrev Play (σ α : Type) := ExceptT Abort (StateM (Session σ)) α

namespace Session

variable {σ : Type}

/-- A session in which nothing has been run. -/
def start (registry : Registry) (own : σ) : Session σ :=
  Machine.ofWorld (.fresh registry own)

/-- How many turns a run is given: more than any machine will take. -/
def turnLimit : Nat := twoTo 60

end Session

namespace Play

variable {σ : Type}

/-- Runs a runner with given variables. -/
def run (r : Runner σ) (vars : Variables) : Play σ Outcome :=
  ExceptT.mk fun session =>
    match Machine.run Session.turnLimit (r vars) session with
    | (.finished o, session) => (.ok o, session)
    | (.crashed c, session) => (.error (.crash c), session)
    | (.unfinished, session) => (.error .endless, session)

/-- The world of the session. -/
def world : Play σ (World σ) := return (← get).world

/-- Changes the world of the session. -/
def modifyWorld (f : World σ → World σ) : Play σ Unit :=
  modify fun session => { session with world := f session.world }

/-- Goes on with something that was computed, unless it crashed. -/
def ofComputed {α : Type} : Except Crash α → Play σ α
  | .ok a => pure a
  | .error c => throw (.crash c)

end Play

end Playbook
