import Playbook.Step

/-!
# Keywords

A keyword is a list of steps with parameters and a name. A registry holds the keywords that were
registered and those that were found in its libraries; a library is asked for a keyword when the
registry has none of that name.
-/

namespace Playbook

/-- A keyword. -/
structure Keyword where
  name : String
  params : List String
  steps : List Step
  /-- What a call yields when its steps end without a `return`. -/
  returns : Option String
  description : Option String

/-- What can be asked for a keyword by its name. -/
abbrev Library := String → Option Keyword

namespace Keyword

/-- The variables that a call begins with. A single argument that is a record gives each parameter
its field of that name; otherwise arguments go to parameters in order. A parameter without an
argument is `null`. -/
def bindArguments (keyword : Keyword) (args : List Value) : Named Value :=
  let unbound : Named Value := Named.putAll (keyword.params.map fun p => (p, Value.null)) []
  let bindings : List (String × Value) :=
    match args with
    | [.record fields] => keyword.params.filterMap fun p => (fields.lookup p).map fun v => (p, v)
    | args => keyword.params.zip args
  unbound.putAll bindings

end Keyword

/-- The keywords that are known, and the libraries that may know more. -/
structure Registry where
  keywords : Named Keyword
  libraries : List Library

namespace Registry

/-- A registry without keywords of its own. -/
def ofLibraries (libraries : List Library) : Registry := ⟨[], libraries⟩

/-- Registers a keyword under a name, in place of one that is there. A keyword without steps is
refused. -/
def register (name : String) (keyword : Keyword) (registry : Registry) : Option Registry :=
  if keyword.steps.isEmpty then none
  else some { registry with keywords := registry.keywords.put name { keyword with name := name } }

/-- The first keyword with steps that the libraries have under a name. -/
def fromLibraries (name : String) (libraries : List Library) : Option Keyword :=
  libraries.findSome? fun library =>
    (library name).bind fun keyword =>
      if keyword.steps.isEmpty then none else some { keyword with name := name }

/-- The keyword of a given name. -/
def find? (name : String) (registry : Registry) : Option Keyword :=
  registry.keywords.lookup name <|> fromLibraries name registry.libraries

/-- The registry after a keyword was looked up; what a library gave is kept. -/
def visit (name : String) (registry : Registry) : Registry :=
  match registry.keywords.lookup name with
  | some _ => registry
  | none =>
    match fromLibraries name registry.libraries with
    | some keyword => { registry with keywords := registry.keywords.put name keyword }
    | none => registry

end Registry

end Playbook
