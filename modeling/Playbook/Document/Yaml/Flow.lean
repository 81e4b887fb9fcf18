import Playbook.Document.Yaml.Scalar

/-!
# Flow style in YAML

Lists in brackets and records in braces, written inside a line.
-/

namespace Playbook.Yaml

/-- The characters that end a plain scalar in flow style. -/
def endsFlow (c : Char) : Bool :=
  c == ',' || c == '[' || c == ']' || c == '\x7b' || c == '\x7d'

/-- Splits a plain scalar off a text in flow style. A colon ends it only before a blank or before
another character that ends it. -/
def flowPlain : List Char → List Char × List Char
  | [] => ([], [])
  | ':' :: rest =>
    match rest with
    | [] => ([], [':'])
    | d :: _ =>
      if isBlank d || endsFlow d then ([], ':' :: rest)
      else
        let (word, left) := flowPlain rest
        (':' :: word, left)
  | c :: rest =>
    if endsFlow c then ([], c :: rest)
    else
      let (word, left) := flowPlain rest
      (c :: word, left)

/-- Reads a plain scalar in flow style. -/
def flowScalar (cs : List Char) : Document × Option (List Char) :=
  let (word, rest) := flowPlain cs
  let word := strip word
  if canBePlain word then (plain word, some rest) else (.broken, none)

/-- The text of a key in flow style. -/
def flowKey (cs : List Char) : Option (String × List Char) :=
  match quoted? cs with
  | some r => r
  | none =>
    let (word, rest) := flowPlain cs
    let word := strip word
    if canBePlain word then some (String.ofList word, rest) else none

mutual

/-- Reads a value in flow style, and what follows it. -/
def flow (fuel : Nat) (cs : List Char) : Document × Option (List Char) :=
  match fuel with
  | 0 => (.broken, none)
  | fuel + 1 =>
    match skip cs with
    | '[' :: rest =>
      let (nodes, left) := flowItems fuel rest
      (.list nodes, left)
    | '\x7b' :: rest =>
      let (nodes, left) := flowFields fuel rest
      (.record nodes, left)
    | cs =>
      match quoted? cs with
      | some (some (s, rest)) => (.text (some s), some rest)
      | some none => (.broken, none)
      | none => flowScalar cs
termination_by structural fuel

/-- Reads items up to the closing bracket. -/
def flowItems (fuel : Nat) (cs : List Char) : List Document × Option (List Char) :=
  match fuel with
  | 0 => ([.broken], none)
  | fuel + 1 =>
    match skip cs with
    | ']' :: rest => ([], some rest)
    | cs =>
      match flow fuel cs with
      | (node, none) => ([node], none)
      | (node, some rest) =>
        match skip rest with
        | ']' :: rest => ([node], some rest)
        | ',' :: rest =>
          let (nodes, left) := flowItems fuel rest
          (node :: nodes, left)
        | _ => ([node, .broken], none)
termination_by structural fuel

/-- Reads fields up to the closing brace. -/
def flowFields (fuel : Nat) (cs : List Char) :
    List (Option String × Document) × Option (List Char) :=
  match fuel with
  | 0 => ([(none, .broken)], none)
  | fuel + 1 =>
    match skip cs with
    | '\x7d' :: rest => ([], some rest)
    | cs =>
      match flowKey cs with
      | none => ([(none, .broken)], none)
      | some (key, rest) =>
        let value : Document × Option (List Char) :=
          match skip rest with
          | ':' :: rest =>
            match skip rest with
            | ',' :: rest => (plain [], some (',' :: rest))
            | '\x7d' :: rest => (plain [], some ('\x7d' :: rest))
            | rest => flow fuel rest
          | rest => (plain [], some rest)
        match value with
        | (node, none) => ([(some key, node)], none)
        | (node, some rest) =>
          match skip rest with
          | '\x7d' :: rest => ([(some key, node)], some rest)
          | ',' :: rest =>
            let (nodes, left) := flowFields fuel rest
            ((some key, node) :: nodes, left)
          | _ => ([(some key, node), (none, .broken)], none)
termination_by structural fuel

end

/-- Reads a value that stands in a line by itself. A plain scalar must not have a key in it. -/
def inline (cs : List Char) : Document :=
  let cs := strip cs
  match cs with
  | '[' :: _ => whole (flow (2 * cs.length + 2) cs)
  | '\x7b' :: _ => whole (flow (2 * cs.length + 2) cs)
  | _ =>
    match quoted? cs with
    | some (some (s, rest)) => if (skip rest).isEmpty then .text (some s) else .broken
    | some none => .broken
    | none =>
      if canBePlain cs && !Text.occursIn [':', ' '] cs && cs.getLast? != some ':' then plain cs
      else .broken
where
  /-- A node with nothing but blanks behind it. -/
  whole : Document × Option (List Char) → Document
    | (node, some rest) => if (skip rest).isEmpty then node else .broken
    | (_, none) => .broken

end Playbook.Yaml
