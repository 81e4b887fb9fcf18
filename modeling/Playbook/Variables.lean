import Playbook.Scope

/-!
# Variables

The variables of a running list of steps: the globals, and one frame for each keyword call that is
under way, the innermost first. Only the globals and the innermost frame can be seen, and a frame
hides globals of the same names.

Below the variables lie the built-in names: the time, a fresh identifier and the environment of the
process, as far as they are given by an `Ambient`. Wherever something is said of one scope, they
stand for the same at every look-up: two looks at the clock are two scopes.
-/

namespace Playbook

/-- What the built-in names stand for. It is given once for all look-ups that an engine makes, so
what is proved of a scope or of a run is proved for a clock that does not go on and for one
identifier in it. A time that was read may be kept in a variable. -/
structure Ambient where
  /-- The milliseconds since the beginning of 1970. -/
  now : Int
  /-- The time as a date and a time of day. -/
  timestamp : String
  /-- A fresh identifier. -/
  uuid : String
  /-- The variables of the process environment. -/
  environment : String → Option String

/-- The value of a built-in name. -/
def Ambient.builtin? (ambient : Ambient) (path : Path) : Option Value :=
  match path.root, path.segments with
  | "now", [] => some (.int ambient.now)
  | "timestamp", [] => some (.text ambient.timestamp)
  | "uuid", [] => some (.text ambient.uuid)
  | "env", [.key name] => (ambient.environment name).map .text
  | _, _ => none

/-- The variables of a running list of steps. -/
structure Variables where
  globals : Named Value
  /-- The variables of the keyword calls under way, the innermost call first. -/
  frames : List (Named Value)
deriving Inhabited

namespace Variables

/-- No variables, outside of all keyword calls. -/
def empty : Variables := ⟨[], []⟩

/-- The number of keyword calls under way. -/
def depth (vars : Variables) : Nat :=
  vars.frames.length

/-- Stores a global variable. -/
def setGlobal (name : String) (value : Value) (vars : Variables) : Variables :=
  { vars with globals := vars.globals.put name value }

/-- Forgets a global variable. -/
def removeGlobal (name : String) (vars : Variables) : Variables :=
  { vars with globals := vars.globals.remove name }

/-- Stores a variable of the innermost keyword call; outside of all calls, a global one. -/
def bind (name : String) (value : Value) (vars : Variables) : Variables :=
  match vars.frames with
  | frame :: outer => { vars with frames := frame.put name value :: outer }
  | [] => vars.setGlobal name value

/-- Forgets a variable of the innermost keyword call; outside of all calls, a global one. -/
def unbind (name : String) (vars : Variables) : Variables :=
  match vars.frames with
  | frame :: outer => { vars with frames := frame.remove name :: outer }
  | [] => vars.removeGlobal name

/-- The variables inside a keyword call that begins with the given ones. -/
def enter (bindings : Named Value) (vars : Variables) : Variables :=
  { vars with frames := bindings :: vars.frames }

/-- The variables after a keyword call: its own are gone. -/
def leave (inside : Variables) : Variables :=
  { inside with frames := inside.frames.tail }

/-- Leaves all keyword calls that are nested deeper than a given depth. -/
def leaveTo (depth : Nat) (vars : Variables) : Variables :=
  { vars with frames := vars.frames.drop (vars.frames.length - depth) }

/-- All that can be seen: the globals, overlaid with the innermost frame. -/
def visible (vars : Variables) : Named Value :=
  vars.globals.putAll (vars.frames.headD [])

/-- The value of the variable of a given name. -/
def get? (name : String) (vars : Variables) : Option Value :=
  match (vars.frames.headD []).lookup name with
  | some v => some v
  | none => vars.globals.lookup name

/-- The variables as a scope, above the built-in names. A variable hides the built-in name even
where the path leads to nothing in it. -/
def scope (ambient : Ambient) (vars : Variables) : Scope where
  find? path :=
    match vars.get? path.root with
    | some v => v.at? path.segments
    | none => ambient.builtin? path

end Variables

end Playbook
