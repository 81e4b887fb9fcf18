import Playbook.Document.Yaml.Flow
import Playbook.Document.Yaml.Line

/-!
# Documents in YAML

`Document.ofYaml` reads a text in the part of YAML that scenarios are written in: lists and records
in block style and in flow style, plain and quoted scalars, and comments. A text that is not well
formed has a broken node in its document; anchors, tags and block scalars are not read.
-/

namespace Playbook

namespace Yaml

/-- What stands behind the dash of a list item, with the number of characters in front of it. -/
def item? : List Char → Option (Nat × List Char)
  | ['-'] => some (1, [])
  | '-' :: c :: rest =>
    if isBlank c then
      let body := skip rest
      some (rest.length - body.length + 2, body)
    else none
  | _ => none

/-- Splits a line at the first colon that is followed by a blank or by the end of the line. -/
def atColon : List Char → Option (List Char × List Char)
  | [] => none
  | [':'] => some ([], [])
  | ':' :: c :: rest =>
    if isBlank c then some ([], skip rest)
    else (atColon (c :: rest)).map fun (k, v) => (':' :: k, v)
  | c :: rest => (atColon rest).map fun (k, v) => (c :: k, v)

/-- The key of a record's field and what stands behind its colon. -/
def field? (cs : List Char) : Option (String × List Char) :=
  match quoted? cs with
  | some (some (key, rest)) =>
    match skip rest with
    | [':'] => some (key, [])
    | ':' :: c :: rest => if isBlank c then some (key, skip rest) else none
    | _ => none
  | some none => none
  | none =>
    (atColon cs).bind fun (key, rest) =>
      if canBePlain key then some (String.ofList (strip key), rest) else none

/-- The lines that go on with a plain scalar, joined to it, and the lines behind them. -/
def continued (indent : Nat) (text : List Char) : List Line → List Char × List Line
  | [] => (text, [])
  | line :: rest =>
    if line.indent > indent then continued indent (text ++ ' ' :: line.text) rest
    else (text, line :: rest)

mutual

/-- Reads the node that begins with the first line, at that line's indentation, and the lines behind
it. -/
def block (fuel : Nat) (lines : List Line) : Document × List Line :=
  match fuel with
  | 0 => (.broken, [])
  | fuel + 1 =>
    match lines with
    | [] => (plain [], [])
    | line :: rest =>
      if (item? line.text).isSome then
        let (nodes, left) := blockItems fuel line.indent lines
        (.list nodes, left)
      else if (field? line.text).isSome then
        let (nodes, left) := blockFields fuel line.indent lines
        (.record nodes, left)
      else
        let (text, left) := continued line.indent line.text rest
        (inline text, left)
termination_by structural fuel

/-- Reads the items of a list at a given indentation. -/
def blockItems (fuel indent : Nat) (lines : List Line) : List Document × List Line :=
  match fuel with
  | 0 => ([.broken], [])
  | fuel + 1 =>
    match lines with
    | [] => ([], [])
    | line :: rest =>
      if line.indent < indent then ([], lines)
      else if line.indent > indent then ([.broken], [])
      else
        match item? line.text with
        | none => ([], lines)
        | some (_, []) =>
          match rest with
          | next :: _ =>
            if next.indent > indent then
              let (node, left) := block fuel rest
              let (nodes, left) := blockItems fuel indent left
              (node :: nodes, left)
            else
              let (nodes, left) := blockItems fuel indent rest
              (plain [] :: nodes, left)
          | [] => ([plain []], [])
        | some (offset, body) =>
          let (node, left) := block fuel (⟨indent + offset, body⟩ :: rest)
          let (nodes, left) := blockItems fuel indent left
          (node :: nodes, left)
termination_by structural fuel

/-- Reads the fields of a record at a given indentation. -/
def blockFields (fuel indent : Nat) (lines : List Line) :
    List (Option String × Document) × List Line :=
  match fuel with
  | 0 => ([(none, .broken)], [])
  | fuel + 1 =>
    match lines with
    | [] => ([], [])
    | line :: rest =>
      if line.indent < indent then ([], lines)
      else if line.indent > indent then ([(none, .broken)], [])
      else
        match field? line.text with
        | none => ([(none, .broken)], [])
        | some (key, []) =>
          let (node, left) :=
            match rest with
            | next :: _ =>
              if next.indent > indent then block fuel rest
              else if next.indent = indent && (item? next.text).isSome then
                let (nodes, left) := blockItems fuel indent rest
                (.list nodes, left)
              else (plain [], rest)
            | [] => (plain [], [])
          let (nodes, left) := blockFields fuel indent left
          ((some key, node) :: nodes, left)
        | some (key, body) =>
          let (text, left) := continued indent body rest
          let (nodes, left) := blockFields fuel indent left
          ((some key, inline text) :: nodes, left)
termination_by structural fuel

end

end Yaml

/-- The document that a YAML text holds. -/
def Document.ofYaml (text : String) : Document :=
  match Yaml.lines text with
  | none => .broken
  | some lines =>
    match Yaml.block (4 * lines.length + text.length + 2) lines with
    | (node, []) => node
    | (_, _ :: _) => .broken

end Playbook
