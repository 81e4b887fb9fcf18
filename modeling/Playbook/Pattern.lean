import Playbook.Text.Blank
import Playbook.Text.Case
import Playbook.Text.Word

/-!
# Patterns

A pattern is a regular expression with assertions about the place in the text. It has no look-around
and no references back, so whether it matches can be decided in a time proportional to the lengths
of the pattern and the text.

The meaning of a pattern is a relation between places of a text: from which place to which place it
can read. `Pattern.reach` computes the places that can be reached from a set of places, and a text
matches if any place can be reached from any place. A set of places is a list of booleans, one for
each place, from the one before the first character to the one behind the last.
-/

namespace Playbook

/-- A set of characters. -/
inductive CharClass where
  /-- All characters. -/
  | any
  /-- The characters between two, in order of their code points. -/
  | range (low high : Char)
  /-- The characters that differ in case only from one between two others. -/
  | foldedRange (low high : Char)
  | digit
  | space
  | word
  | complement (a : CharClass)
  | union (a b : CharClass)
  | inter (a b : CharClass)
deriving Repr, Inhabited

namespace CharClass

/-- The empty set. -/
def none : CharClass := complement any

/-- The characters of `a` that are not in `b`. -/
def diff (a b : CharClass) : CharClass := inter a (complement b)

/-- The characters that are in one of two sets and not in the other. -/
def symmDiff (a b : CharClass) : CharClass := union (diff a b) (diff b a)

/-- Whether some character between two others folds to the given one. -/
def foldsInto (low high target : Nat) : Bool :=
  (low ≤ target && target ≤ high && (Text.foldCase (Char.ofNat target)).toNat == target)
    || Text.caseRanges.any fun r =>
      let source := ((target : Int) - r.shift).toNat
      r.low ≤ source && source ≤ r.high && (source - r.low) % r.stride == 0
        && low ≤ source && source ≤ high

/-- Whether a character is in the set. -/
def contains : CharClass → Char → Bool
  | any, _ => true
  | range low high, c => low ≤ c && c ≤ high
  | foldedRange low high, c => foldsInto low.toNat high.toNat (Text.foldCase c).toNat
  | digit, c => Text.isDecimalDigit c
  | space, c => Text.isBlank c
  | word, c => Text.isWord c
  | complement a, c => !a.contains c
  | union a b, c => a.contains c || b.contains c
  | inter a b, c => a.contains c && b.contains c

end CharClass

/-- An assertion about a place in a text. -/
inductive Assertion where
  | textStart
  | textEnd
  | lineStart
  | lineEnd
  | wordBoundary
  | notWordBoundary
  | wordStart
  | wordEnd
deriving DecidableEq, Repr

/-- Whether an assertion holds between two characters; at the ends of the text one is missing. -/
def Assertion.holds (a : Assertion) (before after : Option Char) : Bool :=
  let isWord := fun (c : Option Char) => c.any Text.isWord
  match a with
  | textStart => before.isNone
  | textEnd => after.isNone
  | lineStart => before.all (· == '\n')
  | lineEnd => after.all (· == '\n')
  | wordBoundary => isWord before != isWord after
  | notWordBoundary => isWord before == isWord after
  | wordStart => !isWord before && isWord after
  | wordEnd => isWord before && !isWord after

/-- A pattern. -/
inductive Pattern where
  | empty
  | char (accepted : CharClass)
  | assert (a : Assertion)
  | seq (first second : Pattern)
  | alt (left right : Pattern)
  /-- At least `least` times and, unless there is no bound, at most `most` times. -/
  | repeated (p : Pattern) (least : Nat) (most : Option Nat)
deriving Repr, Inhabited

namespace Pattern

/-- A set of places of a text. -/
abbrev Places := List Bool

/-- The places in one set or the other. -/
def Places.union (s t : Places) : Places :=
  List.zipWith (· || ·) s t

/-- The characters before and behind each place. -/
def surroundings (text : List Char) : List (Option Char × Option Char) :=
  (none :: text.map some).zip (text.map some ++ [none])

/-- Applies a function a number of times. -/
def iterate (f : Places → Places) : Nat → Places → Places
  | 0, s => s
  | n + 1, s => iterate f n (f s)

/-- Adds what a function makes of a set, a number of times at most, until nothing is added. -/
def closure (f : Places → Places) : Nat → Places → Places
  | 0, s => s
  | n + 1, s =>
    let t := s.union (f s)
    if t = s then s else closure f n t

/-- The places that can be reached from a set of places by reading what the pattern matches. -/
def reach (text : List Char) : Pattern → Places → Places
  | empty, s => s
  | char accepted, s => false :: List.zipWith (fun here c => here && accepted.contains c) s text
  | assert a, s =>
    List.zipWith (fun here (before, after) => here && a.holds before after) s (surroundings text)
  | seq p q, s => reach text q (reach text p s)
  | alt p q, s => (reach text p s).union (reach text q s)
  | repeated p least none, s =>
    closure (reach text p) (text.length + 1) (iterate (reach text p) least s)
  | repeated p least (some most), s =>
    closure (reach text p) (most - least) (iterate (reach text p) least s)

/-- Whether the pattern matches somewhere in the text. -/
def occursIn (p : Pattern) (text : String) : Bool :=
  let cs := text.toList
  (reach cs p (List.replicate (cs.length + 1) true)).contains true

end Pattern

end Playbook
