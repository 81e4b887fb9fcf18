import Playbook.Path

/-!
# Scopes

A scope says what the variables are: it gives the value at a path. Expressions and templates are
evaluated in a scope, whatever it is made from.
-/

namespace Playbook

/-- What paths lead to. -/
structure Scope where
  /-- The value at a path, if there is one. -/
  find? : Path → Option Value

namespace Scope

/-- The value at a path given as text; none for a text that is not a path. -/
def lookup? (scope : Scope) (text : String) : Option Value :=
  (Path.parse? text).bind scope.find?

/-- The scope of a list of variables. -/
def ofVariables (vars : Named Value) : Scope where
  find? path := (vars.lookup path.root).bind fun v => v.at? path.segments

end Scope

end Playbook
