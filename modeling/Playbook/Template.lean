import Playbook.Text.Blank

/-!
# Templates

A template is a text with placeholders `{{ … }}`. Reading from left to right, every text splits into
plain pieces, placeholders that are closed by the first `}}` behind their `{{`, and at most one
unclosed tail.

Main statement: the pieces make up the text (`flatten_pieces`), so nothing is dropped, doubled or
moved.
-/

namespace Playbook.Template

/-- What opens a placeholder. -/
def opening : List Char := ['\x7b', '\x7b']

/-- What closes a placeholder. -/
def closing : List Char := ['\x7d', '\x7d']

/-- Whether a text has something that opens a placeholder. -/
def hasPlaceholders (text : String) : Bool :=
  Text.occursIn opening text.toList

/-- A piece of a template. -/
inductive Piece where
  /-- Characters that stand for themselves. -/
  | plain (cs : List Char)
  /-- The characters between the braces of a placeholder. -/
  | placeholder (inner : List Char)
  /-- The characters behind braces that are never closed. -/
  | unclosed (cs : List Char)
deriving DecidableEq, Repr

/-- A piece as it stands in the text. -/
def Piece.written : Piece → List Char
  | plain cs => cs
  | placeholder inner => opening ++ inner ++ closing
  | unclosed cs => opening ++ cs

/-- The pieces of a text. -/
def pieces (cs : List Char) : List Piece :=
  match _ho : Text.cutAt opening cs with
  | none => [.plain cs]
  | some (before, behind) =>
    match _hc : Text.cutAt closing behind with
    | none => [.plain before, .unclosed behind]
    | some (inner, rest) => .plain before :: .placeholder inner :: pieces rest
termination_by cs.length
decreasing_by
  have h₁ := congrArg List.length (Text.eq_of_cutAt _ho)
  have h₂ := congrArg List.length (Text.eq_of_cutAt _hc)
  simp only [opening, closing, List.length_append, List.length_cons, List.length_nil] at h₁ h₂
  omega

/-- **Splitting loses nothing**: the pieces, as they stand in the text, make up the text. -/
theorem flatten_pieces (cs : List Char) : (pieces cs).flatMap Piece.written = cs := by
  fun_induction pieces cs with
  | case1 cs h => simp [Piece.written]
  | case2 cs before behind ho hc =>
    simp [Piece.written, Text.eq_of_cutAt ho]
  | case3 cs before behind ho inner rest hc ih =>
    have h := Text.eq_of_cutAt ho
    rw [Text.eq_of_cutAt hc] at h
    simp [Piece.written, ih, h]

/-- The inside of a text that is a single placeholder and nothing else. -/
def single? (cs : List Char) : Option (List Char) :=
  match Text.dropLead opening cs with
  | none => none
  | some behind =>
    match Text.dropTail closing behind with
    | none => none
    | some inner =>
      if Text.occursIn opening inner || Text.occursIn closing inner then none else some inner

end Playbook.Template
