import Playbook.Document
import Playbook.Number.Numeral
import Playbook.Text.Blank
import Playbook.Text.Quoted

/-!
# Documents in JSON

`Document.ofJson` reads a JSON text as far as it goes, and `Value.ofJson?` reads a text that must be
well formed to its end.

A number without fraction and exponent is an integer if 64 bits hold it, signed or unsigned; every
other number, `-0` included, is a double. Lists and records may be nested to a depth of 127.
-/

namespace Playbook

namespace Json

/-- The blanks of JSON. -/
def isBlank (c : Char) : Bool :=
  c == ' ' || c == '\n' || c == '\t' || c == '\r'

/-- The text without the blanks it begins with. -/
def skip (cs : List Char) : List Char :=
  cs.dropWhile isBlank

/-- The value of four hexadecimal digits. -/
def hex4? (a b c d : Char) : Option Nat := do
  let a ← Text.hexValue? a
  let b ← Text.hexValue? b
  let c ← Text.hexValue? c
  let d ← Text.hexValue? d
  return ((a * 16 + b) * 16 + c) * 16 + d

/-- The character that a letter behind a backslash stands for. -/
def escapedChar? (c : Char) : Option Char :=
  if c = '"' || c = '\\' || c = '/' then some c
  else if c = 'n' then some '\n'
  else if c = 't' then some '\t'
  else if c = 'r' then some '\r'
  else if c = 'b' then some (Char.ofNat 8)
  else if c = 'f' then some (Char.ofNat 12)
  else none

/-- Whether a code unit is the first half of a surrogate pair. -/
def isLead (n : Nat) : Bool := 0xD800 ≤ n && n < 0xDC00

/-- Whether a code unit is the second half of a surrogate pair. -/
def isTrail (n : Nat) : Bool := 0xDC00 ≤ n && n < 0xE000

/-- Reads a string behind its opening quote. `acc` has the characters so far, last first, or
`none` if half of a surrogate pair was among them. The answer is `none` if the string is not
well formed. -/
def stringTail (acc : Option (List Char)) : List Char → Option (Option String × List Char)
  | '"' :: rest => some (acc.map fun cs => String.ofList cs.reverse, rest)
  | '\\' :: 'u' :: a :: b :: c :: d :: '\\' :: 'u' :: a' :: b' :: c' :: d' :: rest =>
    match hex4? a b c d with
    | none => none
    | some n =>
      if isLead n then
        match hex4? a' b' c' d' with
        | some m =>
          if isTrail m then
            stringTail (acc.map (Char.ofNat (0x10000 + (n - 0xD800) * 1024 + (m - 0xDC00)) :: ·))
              rest
          else stringTail none ('\\' :: 'u' :: a' :: b' :: c' :: d' :: rest)
        | none => none
      else if isTrail n then stringTail none ('\\' :: 'u' :: a' :: b' :: c' :: d' :: rest)
      else
        stringTail (acc.map (Char.ofNat n :: ·)) ('\\' :: 'u' :: a' :: b' :: c' :: d' :: rest)
  | '\\' :: 'u' :: a :: b :: c :: d :: rest =>
    match hex4? a b c d with
    | none => none
    | some n =>
      if isLead n || isTrail n then stringTail none rest
      else stringTail (acc.map (Char.ofNat n :: ·)) rest
  | '\\' :: c :: rest =>
    match escapedChar? c with
    | some e => stringTail (acc.map (e :: ·)) rest
    | none => none
  | c :: rest => if c.toNat < 32 then none else stringTail (acc.map (c :: ·)) rest
  | [] => none

/-- The digits of a number that its significand can take in: adding a digit must not lead beyond the
unsigned numbers of 64 bits. The second part counts the digits that were left out. -/
def significand (acc : Nat) : List Char → Nat × Nat
  | [] => (acc, 0)
  | d :: ds =>
    let next := acc * 10 + (d.toNat - 48)
    if next < twoTo 64 then significand next ds else (acc, ds.length + 1)

/-- An unsigned number as it is written. -/
structure Numeral where
  /-- The digits before the point. -/
  whole : List Char
  /-- The digits behind the point, if there is one. -/
  fraction : Option (List Char)
  /-- The exponent, if there is one: whether it is negative, and its digits. -/
  exponent : Option (Bool × List Char)

/-- Splits a number off the text, without its sign. `none` if none is there or it is not well
formed: no digit may be missing, and a whole part of several digits does not begin with a zero. -/
def numeral? (cs : List Char) : Option (Numeral × List Char) :=
  let (whole, rest) := cs.span Char.isDigit
  if whole.isEmpty || (whole.length > 1 && whole.head? == some '0') then none
  else
    let afterFraction : Option (Option (List Char) × List Char) :=
      match rest with
      | '.' :: rest' =>
        let (fraction, rest'') := rest'.span Char.isDigit
        if fraction.isEmpty then none else some (some fraction, rest'')
      | _ => some (none, rest)
    match afterFraction with
    | none => none
    | some (fraction, rest) =>
      let exponentOf (negative : Bool) (cs : List Char) : Option (Numeral × List Char) :=
        let (digits, rest') := cs.span Char.isDigit
        if digits.isEmpty then none else some (⟨whole, fraction, some (negative, digits)⟩, rest')
      match rest with
      | 'e' :: '-' :: cs => exponentOf true cs
      | 'E' :: '-' :: cs => exponentOf true cs
      | 'e' :: '+' :: cs => exponentOf false cs
      | 'E' :: '+' :: cs => exponentOf false cs
      | 'e' :: cs => exponentOf false cs
      | 'E' :: cs => exponentOf false cs
      | _ => some (⟨whole, fraction, none⟩, rest)

/-- A double with a sign, as a number. -/
def signed (negative : Bool) (x : Float) : Option Number :=
  let y := if negative then -x else x
  if h : y.isFinite = true then some (.double y h) else none

/-- The number that a numeral stands for. `none` if it is beyond the range of doubles. An exponent
of more than 31 bits makes every number zero or too great. -/
def Numeral.value? (negative : Bool) (numeral : Numeral) : Option Number :=
  let (whole, wholeLeft) := significand 0 numeral.whole
  match numeral.fraction, numeral.exponent with
  | none, none =>
    let n : Int := if negative then -(whole : Int) else whole
    if wholeLeft = 0 ∧ ¬(negative ∧ whole = 0) then
      if h : Word.Fits n then some (.int n h) else signed negative (Float.ofNat whole)
    else (Double.ofSignificand whole wholeLeft).bind (signed negative)
  | fraction, exponent =>
    let digits := fraction.getD []
    let (m, fractionLeft) := significand whole digits
    let taken := digits.length - fractionLeft
    let shift : Int := (wholeLeft : Int) - (taken : Int)
    match exponent with
    | none => (Double.ofSignificand m shift).bind (signed negative)
    | some (down, ds) =>
      let e := Numeral.valueFrom 0 ds
      if e ≥ twoTo 31 then
        if m ≠ 0 ∧ !down then none else signed negative 0
      else
        let scale : Int := if down then shift - e else shift + e
        (Double.ofSignificand m scale).bind (signed negative)

/-- A node and the text behind it; no text is left behind a node with a fault in it. -/
abbrev Reading := Document × Option (List Char)

/-- A node that a given word stands for. -/
def keyword (word : String) (node : Document) (cs : List Char) : Reading :=
  match Text.dropLead word.toList cs with
  | some rest => (node, some rest)
  | none => (.broken, none)

open Document (broken)

mutual

/-- Reads one value. `depth` bounds how deep lists and records may be nested in it. -/
def value (fuel depth : Nat) (cs : List Char) : Reading :=
  match fuel with
  | 0 => (broken, none)
  | fuel + 1 =>
    match skip cs with
    | 'n' :: rest => keyword "ull" .null rest
    | 't' :: rest => keyword "rue" (.bool true) rest
    | 'f' :: rest => keyword "alse" (.bool false) rest
    | '"' :: rest =>
      match stringTail (some []) rest with
      | some (s, rest') => (.text s, some rest')
      | none => (broken, none)
    | '[' :: rest =>
      match depth with
      | 0 => (broken, none)
      | depth + 1 =>
        match skip rest with
        | ']' :: rest' => (.list [], some rest')
        | rest' =>
          let (nodes, left) := items fuel depth rest'
          (.list nodes, left)
    | '\x7b' :: rest =>
      match depth with
      | 0 => (broken, none)
      | depth + 1 =>
        match skip rest with
        | '\x7d' :: rest' => (.record [], some rest')
        | rest' =>
          let (nodes, left) := fields fuel depth rest'
          (.record nodes, left)
    | '-' :: rest =>
      match numeral? rest with
      | some (numeral, rest') => (.number (numeral.value? true), some rest')
      | none => (broken, none)
    | rest =>
      match numeral? rest with
      | some (numeral, rest') => (.number (numeral.value? false), some rest')
      | none => (broken, none)
termination_by structural fuel

/-- Reads the items of a list, of which there is at least one, up to the closing bracket. -/
def items (fuel depth : Nat) (cs : List Char) : List Document × Option (List Char) :=
  match fuel with
  | 0 => ([broken], none)
  | fuel + 1 =>
    match value fuel depth cs with
    | (node, none) => ([node], none)
    | (node, some rest) =>
      match skip rest with
      | ']' :: rest' => ([node], some rest')
      | ',' :: rest' =>
        let (nodes, left) := items fuel depth rest'
        (node :: nodes, left)
      | _ => ([node, broken], none)
termination_by structural fuel

/-- Reads the fields of a record, of which there is at least one, up to the closing brace. -/
def fields (fuel depth : Nat) (cs : List Char) :
    List (Option String × Document) × Option (List Char) :=
  match fuel with
  | 0 => ([(none, broken)], none)
  | fuel + 1 =>
    match skip cs with
    | '"' :: rest =>
      match stringTail (some []) rest with
      | none => ([(none, broken)], none)
      | some (key, rest') =>
        match skip rest' with
        | ':' :: rest'' =>
          match value fuel depth rest'' with
          | (node, none) => ([(key, node)], none)
          | (node, some left) =>
            match skip left with
            | '\x7d' :: left' => ([(key, node)], some left')
            | ',' :: left' =>
              let (nodes, end?) := fields fuel depth left'
              ((key, node) :: nodes, end?)
            | _ => ([(key, node), (none, broken)], none)
        | _ => ([(key, broken)], none)
    | _ => ([(none, broken)], none)
termination_by structural fuel

end

end Json

/-- The document that a JSON text holds, and whether nothing but blanks follows it. -/
def Document.ofJson (text : String) : Document × Bool :=
  let cs := text.toList
  match Json.value (2 * cs.length + 2) 127 cs with
  | (node, some rest) => (node, (Json.skip rest).isEmpty)
  | (node, none) => (node, false)

/-- The value of a JSON text; `none` if the text is not well formed to its end. -/
def Value.ofJson? (text : String) : Option Value :=
  match Document.ofJson text with
  | (node, true) => node.value?
  | (_, false) => none

end Playbook
