import Playbook.Number.Numeral
import Playbook.Step
import Playbook.Text.Blank

/-!
# Reading steps

A step is written as a record. The first of the construct keys that it has says what it does, in the
order `run`, `keyword`, `if`, `foreach`, `map`, `filter`, `while`, `repeat`, `parallel`, `try`,
`set`, `let`, `return`, `measure`; the order of the record's fields does not count. A record without
any of them is an action for the handlers if exactly one key is left besides the auxiliary and the
option keys.

Steps hold lists of steps. `Step.readWith` leaves those to a given reader, and `Step.readAt` ties
the knot down to a given depth, which the height of the record bounds.
-/

namespace Playbook

namespace Step

/-- Keys that say something about a step but not what it does. -/
def auxiliaryKeys : List String := ["returns", "assign", "continueOnError", "name", "description"]

/-- Keys that are handed on to the handlers. -/
def optionKeys : List String := ["from", "message", "timeout"]

/-- The name of a variable: blanks around it do not count, and neither do the braces of a
reference. -/
def variableName (s : String) : String :=
  let cs := Text.trim s.toList
  match (Text.dropLead Template.opening cs).bind (Text.dropTail Template.closing) with
  | some inner => String.ofList (Text.trim inner)
  | none => String.ofList cs

/-- A step that is not well written. -/
def flawed {α : Type} (flaw : Flaw) : Except Failure α :=
  .error (.invalidAction flaw)

/-- The fields of a construct that must be a record. -/
def recordOf (construct : String) (v : Value) : Except Failure (Named Value) :=
  match v with
  | .record fields => .ok fields
  | _ => flawed (.notRecord construct v)

/-- The field of a construct that must be there. -/
def required (construct key : String) (fields : Named Value) : Except Failure Value :=
  match fields.lookup key with
  | some v => .ok v
  | none => flawed (.missing construct key)

/-- The field under a key; `null` if there is none. -/
def fieldOrNull (key : String) (fields : Named Value) : Value :=
  (fields.lookup key).getD .null

/-- The string under a key, if there is one. -/
def textField (key : String) (fields : Named Value) : Option String :=
  (fields.lookup key).bind Value.text?

/-- The boolean under a key, if there is one. -/
def boolField (key : String) (fields : Named Value) : Option Bool :=
  (fields.lookup key).bind Value.bool?

/-- The count under a key, if there is one: an unsigned number of 64 bits or the text of one. -/
def countField (key : String) (fields : Named Value) : Except Failure (Option Nat) :=
  match fields.lookup key with
  | none => .ok none
  | some .null => .ok none
  | some v =>
    match v with
    | .number n =>
      match n.toNat? with
      | some k => .ok (some k)
      | none => flawed (.notCount key v)
    | .text s =>
      match Numeral.unsigned? (Text.trim s.toList) with
      | some k => .ok (some k)
      | none => flawed (.notCount key v)
    | _ => flawed (.notCount key v)

/-- The first of two settings that is given. Both must be well written. -/
def firstCount (key : String) (inner outer : Named Value) : Except Failure (Option Nat) := do
  let a ← countField key inner
  let b ← countField key outer
  return a <|> b

/-- The variables and the source of a loop. -/
def iterationOf (construct : String) (fields : Named Value) : Except Failure Iteration := do
  let source ← required construct "in" fields
  return ⟨(textField "item" fields).getD "item", textField "index" fields, source⟩

/-- The call of a keyword. A single argument need not be in a list. -/
def keywordCall (name : Value) (fields : Named Value) : Except Failure Action :=
  match name with
  | .text name =>
    match fields.lookup "args" <|> fields.lookup "params" with
    | none => .ok (.keyword name [])
    | some .null => .ok (.keyword name [])
    | some (.list items) => .ok (.keyword name items)
    | some v => .ok (.keyword name [v])
  | _ => flawed (.keywordNotName name)

/-- The values that an assignment stores: those of a record, or a single one under a name. -/
def assignments (target : Target) (spec : Value) (fields : Named Value) :
    Except Failure (List (String × Value)) :=
  match spec with
  | .record values => .ok values
  | .text name => (required target.word "value" fields).map fun v => [(variableName name, v)]
  | _ => flawed (.assignmentTarget target.word spec)

/-- An action for the handlers. -/
def domainAction (fields : Named Value) : Except Failure Action :=
  let isOption := fun (field : String × Value) => optionKeys.contains field.1
  let isCandidate := fun (field : String × Value) =>
    !auxiliaryKeys.contains field.1 && !optionKeys.contains field.1
  match fields.filter isCandidate with
  | [(name, params)] => .ok (.domain name params (fields.filter isOption))
  | _ => .error (.unknownAction (Named.names fields))

section

variable (steps : Value → Except Failure (List Step))

/-- A branch. The condition and the two lists stand either beside `if` or in a record under it. -/
def branch (condition : Value) (fields : Named Value) : Except Failure Action := do
  let nested? : Option (Named Value) :=
    condition.fields?.filter fun inner => (inner.lookup "condition").isSome
  let place := nested?.getD fields
  let c ← Condition.read (match nested? with
    | some inner => fieldOrNull "condition" inner
    | none => condition)
  let then_ ← steps (fieldOrNull "then" place)
  let else_ ← steps (fieldOrNull "else" place)
  return .ifElse c then_ else_

/-- A loop over elements. -/
def forEachLoop (spec : Value) : Except Failure Action := do
  let fields ← recordOf "foreach" spec
  let iteration ← iterationOf "foreach" fields
  let body ← steps (fieldOrNull "do" fields)
  return .forEach iteration body

/-- A loop that makes a list of the same length. -/
def mapLoop (spec : Value) : Except Failure Action := do
  let fields ← recordOf "map" spec
  let iteration ← iterationOf "map" fields
  let body ← steps (fieldOrNull "do" fields)
  return .map iteration body (fields.lookup "expression")

/-- A loop that keeps the elements of which a condition holds. -/
def filterLoop (spec : Value) : Except Failure Action := do
  let fields ← recordOf "filter" spec
  let condition ← required "filter" "condition" fields
  let iteration ← iterationOf "filter" fields
  let c ← Condition.read condition
  return .filter iteration c

/-- A loop that runs while a condition holds. -/
def whileLoop (spec : Value) : Except Failure Action := do
  let fields ← recordOf "while" spec
  let condition ← required "while" "condition" fields
  let c ← Condition.read condition
  let body ← steps (fieldOrNull "do" fields)
  let maxIterations ← countField "maxIterations" fields
  return .while_ c body maxIterations

/-- A loop that runs a number of times. -/
def repeatLoop (spec : Value) : Except Failure Action := do
  let fields ← recordOf "repeat" spec
  let times ← required "repeat" "times" fields
  let body ← steps (fieldOrNull "do" fields)
  return .repeat_ times body ((textField "index" fields).getD "index")
    ((textField "iteration" fields).getD "iteration")

/-- A race. Its operations stand either under `race` or under `actions` in a record there, and a
timeout in that record wins over one beside `race`. -/
def raceBlock (race : Value) (fields : Named Value) : Except Failure Action := do
  let inner := race.fields?.getD []
  let timeout ← countField "timeout" inner
  let operations ← steps (match race with
    | .record inner => fieldOrNull "actions" inner
    | _ => race)
  let outer ← countField "timeout" fields
  return .race operations (timeout <|> outer)

/-- A batch. Its settings stand beside its operations. -/
def batchBlock (batch : Value) (fields : Named Value) : Except Failure Action := do
  let place := batch.fields?.getD fields
  let operations ← steps (match batch with
    | .record inner => fieldOrNull "actions" inner
    | _ => batch)
  let size ← countField "size" place
  let delay ← countField "delay" place
  let maxRetries ← countField "maxRetries" place
  let retryDelay ← countField "retryDelay" place
  return .batch operations ⟨size, delay, maxRetries.map (· % twoTo 32), retryDelay⟩

/-- A loop whose passes run concurrently. Settings in its record win over those beside it. -/
def forEachBlock (forEach : Value) (fields : Named Value) : Except Failure Action := do
  let inner ← recordOf "parallel.forEach" forEach
  let iteration ← iterationOf "parallel.forEach" inner
  let body ← steps (fieldOrNull "do" inner)
  let maxConcurrency ← firstCount "maxConcurrency" inner fields
  let failFast := boolField "failFast" inner <|> boolField "failFast" fields
  let timeout ← firstCount "timeout" inner fields
  return .parallelForEach iteration body ⟨maxConcurrency, failFast, timeout⟩

/-- A block of concurrent operations in one of its four forms. -/
def parallelBlock (spec : Value) : Except Failure Action :=
  match spec with
  | .list _ => (steps spec).map fun operations => .parallel operations ⟨none, none, none⟩
  | .record fields =>
    match fields.lookup "race", fields.lookup "batch", fields.lookup "forEach",
      fields.lookup "actions" with
    | some race, _, _, _ => raceBlock steps race fields
    | none, some batch, _, _ => batchBlock steps batch fields
    | none, none, some forEach, _ => forEachBlock steps forEach fields
    | none, none, none, some actions => do
      let operations ← steps actions
      let maxConcurrency ← countField "maxConcurrency" fields
      let timeout ← countField "timeout" fields
      return .parallel operations ⟨maxConcurrency, boolField "failFast" fields, timeout⟩
    | none, none, none, none => flawed (.parallelWithoutForm (Named.names fields))
  | _ => flawed (.parallelNotBlock spec)

/-- A list of steps whose failures may be caught. -/
def tryBlock (body : Value) (fields : Named Value) : Except Failure Action := do
  let body ← steps body
  let catch_ ← (fields.lookup "catch").mapM steps
  let finally_ ← steps (fieldOrNull "finally" fields)
  return .try_ body catch_ finally_ ((textField "as" fields).getD "error")

/-- A measurement. It needs a sample or something to take the time of. -/
def measurement (spec : Value) : Except Failure Action := do
  let fields ← recordOf "measure" spec
  match textField "name" fields with
  | none => flawed (.missing "measure" "name")
  | some name =>
    let body ← steps (fieldOrNull "do" fields)
    match fields.lookup "value" with
    | none => if body.isEmpty then flawed (.measuresNothing name) else .ok (.measure name body none)
    | some sample => .ok (.measure name body (some sample))

/-- The construct keys in the order of their priority, each with the reader of what it
introduces. -/
def constructs (fields : Named Value) : List (String × (Value → Except Failure Action)) := [
  ("run", fun v => keywordCall v fields),
  ("keyword", fun v => keywordCall v fields),
  ("if", fun v => branch steps v fields),
  ("foreach", forEachLoop steps),
  ("map", mapLoop steps),
  ("filter", filterLoop),
  ("while", whileLoop steps),
  ("repeat", repeatLoop steps),
  ("parallel", parallelBlock steps),
  ("try", fun v => tryBlock steps v fields),
  ("set", fun v => (assignments .globals v fields).map (.assign .globals)),
  ("let", fun v => (assignments .locals v fields).map (.assign .locals)),
  ("return", fun v => .ok (.return_ v)),
  ("measure", measurement steps)]

/-- What the first construct key that is there introduces. -/
def firstConstruct (fields : Named Value) :
    List (String × (Value → Except Failure Action)) → Except Failure Action
  | [] => domainAction fields
  | (key, read) :: rest =>
    match fields.lookup key with
    | some v => read v
    | none => firstConstruct fields rest

/-- The variable that receives a step's value. -/
def returnsOf (fields : Named Value) : Except Failure (Option String) :=
  match fields.lookup "returns" <|> fields.lookup "assign" with
  | none => .ok none
  | some .null => .ok none
  | some (.text name) => .ok (some (variableName name))
  | some v => flawed (.returnsNotName v)

/-- Reads a step; `steps` reads the lists of steps in it. -/
def readWith (v : Value) : Except Failure Step :=
  match v with
  | .record fields =>
    match returnsOf fields with
    | .error e => .error e
    | .ok returns =>
      let label := (fields.lookup "name" <|> fields.lookup "description").bind Value.text?
      (firstConstruct fields (constructs steps fields)).map fun action =>
        .mk action returns ((boolField "continueOnError" fields).getD false) label v
  | _ => flawed (.stepNotRecord v)

end

/-- Reads a list of steps. A single step need not be in a list, and `null` is the empty list. -/
def listWith (read : Value → Except Failure Step) (v : Value) : Except Failure (List Step) :=
  match v with
  | .null => .ok []
  | .list items => items.mapM read
  | .record _ => (read v).map ([·])
  | _ => flawed (.stepsNotList v)

/-- Reads a step in which records are nested to a depth of at most the given number. -/
def readAt : Nat → Value → Except Failure Step
  | 0, v => flawed (.stepNotRecord v)
  | depth + 1, v => readWith (listWith (readAt depth)) v

/-- Reads a step. -/
def read (v : Value) : Except Failure Step :=
  readAt v.height v

/-- Reads a list of steps. -/
def readList (v : Value) : Except Failure (List Step) :=
  listWith read v

end Step

end Playbook
