import Playbook.Number.Double

/-!
# Values

The values that scenarios compute with are those of JSON. Two kinds of number are kept apart: an
integer between the least signed and the greatest unsigned number of 64 bits, and a finite double. A
record keeps its fields in the order in which they were written.

`Value.same` is equality of values: the order of fields does not count, and the two kinds of number
never agree. `Value.isTruthy` is the reading of a value as a boolean.
-/

namespace Playbook

/-- Things stored under names, in the order in which the names came up. -/
abbrev Named (α : Type) := List (String × α)

namespace Named

variable {α β : Type}

/-- The names, in order. -/
def names (fields : Named α) : List String :=
  fields.map Prod.fst

/-- Stores a thing under a name. A name that is there keeps its place; a new one goes to the end. -/
def put (key : String) (value : α) : Named α → Named α
  | [] => [(key, value)]
  | (k, v) :: rest => if k = key then (k, value) :: rest else (k, v) :: put key value rest

/-- Forgets what is stored under a name. -/
def remove (key : String) (fields : Named α) : Named α :=
  fields.filter fun field => field.1 ≠ key

/-- Stores a list of things one after the other. -/
def putAll (entries : List (String × α)) (fields : Named α) : Named α :=
  entries.foldl (fun acc entry => acc.put entry.1 entry.2) fields

/-- The things in the order of their names. -/
def sorted (fields : Named α) : Named α :=
  fields.mergeSort fun a b => a.1 ≤ b.1

@[simp] theorem lookup_put_self (key : String) (value : α) (fields : Named α) :
    (fields.put key value).lookup key = some value := by
  induction fields with
  | nil => simp [put]
  | cons field rest ih =>
    obtain ⟨k, v⟩ := field
    by_cases h : k = key
    · simp [put, h]
    · have h' : (key == k) = false := by simpa using Ne.symm h
      simp [put, h, h', List.lookup_cons, ih]

@[simp] theorem lookup_put_of_ne {key other : String} (h : other ≠ key) (value : α)
    (fields : Named α) : (fields.put key value).lookup other = fields.lookup other := by
  have h' : (other == key) = false := by simpa using h
  induction fields with
  | nil => simp [put, List.lookup_cons, h']
  | cons field rest ih =>
    obtain ⟨k, v⟩ := field
    by_cases hk : k = key
    · simp [put, List.lookup_cons, hk, h']
    · simp [put, hk, List.lookup_cons, ih]

end Named

/-- A number: an integer of 64 bits, signed or unsigned, or a finite double. -/
inductive Number where
  | int (n : Int) (range : Word.Fits n)
  | double (x : Float) (finite : x.isFinite = true)
deriving DecidableEq

namespace Number

/-- The number as a signed integer of 64 bits. -/
def toInt? : Number → Option Int
  | .int n _ => Word.signed? n
  | .double _ _ => none

/-- The number as an unsigned integer of 64 bits. -/
def toNat? : Number → Option Nat
  | .int n _ => if 0 ≤ n then some n.toNat else none
  | .double _ _ => none

/-- The number as a double, the nearest one to an integer. -/
def toFloat : Number → Float
  | .int n _ => Float.ofInt n
  | .double x _ => x

/-- Equality of numbers: of the same kind and the same value. -/
def same : Number → Number → Bool
  | .int m _, .int n _ => m == n
  | .double x _, .double y _ => x == y
  | _, _ => false

end Number

/-- A value. -/
inductive Value where
  | null
  | bool (b : Bool)
  | number (n : Number)
  | text (s : String)
  | list (items : List Value)
  | record (fields : List (String × Value))
deriving Inhabited

namespace Value

/-- An integer as a value; one that no 64-bit number can hold becomes `null`. -/
def int (n : Int) : Value :=
  if h : Word.Fits n then .number (.int n h) else .null

/-- A count as a value. -/
def nat (n : Nat) : Value :=
  int n

/-- A double as a value; one that is not finite becomes `null`. -/
def float (x : Float) : Value :=
  if h : x.isFinite = true then .number (.double x h) else .null

/-- An optional value; `null` if there is none. -/
def ofOption : Option Value → Value
  | some v => v
  | none => .null

mutual

/-- Equality of values, whatever the order of fields. -/
def same (v w : Value) : Bool :=
  match v, w with
  | .null, .null => true
  | .bool a, .bool b => a == b
  | .number a, .number b => a.same b
  | .text a, .text b => a == b
  | .list xs, .list ys => sameItems xs ys
  | .record fs, .record gs => fs.length == gs.length && sameFields fs gs
  | _, _ => false
termination_by structural v

/-- Whether two lists hold equal values in the same places. -/
def sameItems (xs ys : List Value) : Bool :=
  match xs, ys with
  | [], [] => true
  | x :: xs, y :: ys => same x y && sameItems xs ys
  | _, _ => false
termination_by structural xs

/-- Whether every field has an equal one of its name in `gs`. -/
def sameFields (fs gs : List (String × Value)) : Bool :=
  match fs with
  | [] => true
  | (k, v) :: fs =>
    (match gs.lookup k with
      | some w => same v w
      | none => false) && sameFields fs gs
termination_by structural fs

end

instance : BEq Value := ⟨same⟩

mutual

/-- How deep lists and records are nested in a value; zero for the other values. -/
def height (v : Value) : Nat :=
  match v with
  | .list items => heightItems items + 1
  | .record fields => heightFields fields + 1
  | _ => 0
termination_by structural v

/-- The greatest height among the items. -/
def heightItems (items : List Value) : Nat :=
  match items with
  | [] => 0
  | v :: rest => max (height v) (heightItems rest)
termination_by structural items

/-- The greatest height among the fields. -/
def heightFields (fields : List (String × Value)) : Nat :=
  match fields with
  | [] => 0
  | (_, v) :: rest => max (height v) (heightFields rest)
termination_by structural fields

end

/-- The field of a record under a name. -/
def field? (key : String) : Value → Option Value
  | .record fields => fields.lookup key
  | _ => none

/-- The items of a list. -/
def items? : Value → Option (List Value)
  | .list items => some items
  | _ => none

/-- The fields of a record. -/
def fields? : Value → Option (Named Value)
  | .record fields => some fields
  | _ => none

/-- The characters of a text value. -/
def text? : Value → Option String
  | .text s => some s
  | _ => none

/-- The truth of a boolean value. -/
def bool? : Value → Option Bool
  | .bool b => some b
  | _ => none

/-- A number as an unsigned integer of 64 bits. -/
def nat? : Value → Option Nat
  | .number n => n.toNat?
  | _ => none

/-- A number as a double. -/
def float? : Value → Option Float
  | .number n => some n.toFloat
  | _ => none

/-- A value read as a boolean: `false`, `null`, zero, the empty text, the text `false`, the empty
list and the empty record are false, and all else is true. -/
def isTruthy : Value → Bool
  | .null => false
  | .bool b => b
  | .number n => n.toFloat != 0
  | .text s => s != "" && s != "false"
  | .list items => !items.isEmpty
  | .record fields => !fields.isEmpty

/-- The kind of a value, as it is named in messages. -/
def kindName : Value → String
  | .null => "null"
  | .bool _ => "bool"
  | .number _ => "number"
  | .text _ => "string"
  | .list _ => "array"
  | .record _ => "object"

end Value

end Playbook
