import Playbook.Number.Numeral
import Playbook.Pattern
import Playbook.Text.Quoted

/-!
# Reading patterns

The written form of patterns. A pattern is alternatives of sequences of items, an item being a
character, a class, an assertion or a group, with a repetition behind it. `Pattern.parse?` gives
`none` for a text that is not a pattern; look-around and references back are not.

Flags change how what follows is read, up to the end of the group they stand in: `i` makes letters
match in either case, `m` makes `^` and `$` match at the ends of lines, `s` makes the point match a
line feed, and `x` skips blanks and comments.

**Where the reader ends.** Classes of Unicode by name, as in `\p{L}`, are not known: a text with one
is not a pattern. The flags `u`, `U` and `R` are accepted and change nothing. That is right for `U`,
which is about the length of a match only; but a pattern stays one about characters under `(?-u)`,
and lines end with a line feed only under `(?R)`. No pattern is too large. Whoever relies on one of
these relies on more than is said here.
-/

namespace Playbook.Pattern

/-- How a pattern is read. -/
structure Flags where
  anyCase : Bool
  multiline : Bool
  dotAll : Bool
  verbose : Bool

/-- The flags at the beginning of a pattern. -/
def Flags.initial : Flags := ⟨false, false, false, false⟩

/-- The blanks and comments between items are skipped if the flags say so. -/
def skipBlanks (flags : Flags) (inComment : Bool) : List Char → List Char
  | [] => []
  | c :: cs =>
    if !flags.verbose then c :: cs
    else if inComment then skipBlanks flags (c != '\n') cs
    else if Text.isBlank c then skipBlanks flags false cs
    else if c = '#' then skipBlanks flags true cs
    else c :: cs

/-- A single character, in either case if the flags say so. -/
def literal (flags : Flags) (c : Char) : CharClass :=
  if flags.anyCase then .foldedRange c c else .range c c

/-- The characters between two. -/
def between (flags : Flags) (low high : Char) : CharClass :=
  if flags.anyCase then .foldedRange low high else .range low high

/-- What a backslash and the characters behind it stand for. -/
inductive Escape where
  | literal (c : Char)
  | charClass (k : CharClass)
  | assertion (a : Assertion)

/-- The character with a given code point. -/
def charOf? (n : Nat) : Option Char :=
  if n < 0xD800 || (0xE000 ≤ n && n < 0x110000) then some (Char.ofNat n) else none

/-- The value of a list of hexadecimal digits. -/
def hexValue? (ds : List Char) : Option Nat :=
  if ds.isEmpty || ds.length > 8 then none
  else ds.foldlM (fun n d => (Text.hexValue? d).map (n * 16 + ·)) 0

/-- A code point written in hexadecimal digits: between braces, or with a fixed number of digits. -/
def hexChar? (count : Nat) : List Char → Option (Escape × List Char)
  | '\x7b' :: cs =>
    match cs.dropWhile (· != '\x7d') with
    | _ :: rest =>
      ((hexValue? (cs.takeWhile (· != '\x7d'))).bind charOf?).map fun c => (.literal c, rest)
    | [] => none
  | cs =>
    if cs.length < count then none
    else ((hexValue? (cs.take count)).bind charOf?).map fun c => (.literal c, cs.drop count)

/-- The boundary named between braces behind `\b`. -/
def boundaryNames : List (String × Assertion) :=
  [("\x7bstart\x7d", .wordStart), ("\x7bend\x7d", .wordEnd)]

/-- What stands behind a backslash. -/
def escape? : List Char → Option (Escape × List Char)
  | [] => none
  | c :: cs =>
    match c with
    | 'd' => some (.charClass .digit, cs)
    | 'D' => some (.charClass (.complement .digit), cs)
    | 's' => some (.charClass .space, cs)
    | 'S' => some (.charClass (.complement .space), cs)
    | 'w' => some (.charClass .word, cs)
    | 'W' => some (.charClass (.complement .word), cs)
    | 'x' => hexChar? 2 cs
    | 'u' => hexChar? 4 cs
    | 'U' => hexChar? 8 cs
    | 'a' => some (.literal (Char.ofNat 7), cs)
    | 'f' => some (.literal (Char.ofNat 12), cs)
    | 't' => some (.literal '\t', cs)
    | 'n' => some (.literal '\n', cs)
    | 'r' => some (.literal '\r', cs)
    | 'v' => some (.literal (Char.ofNat 11), cs)
    | 'A' => some (.assertion .textStart, cs)
    | 'z' => some (.assertion .textEnd, cs)
    | 'B' => some (.assertion .notWordBoundary, cs)
    | '<' => some (.assertion .wordStart, cs)
    | '>' => some (.assertion .wordEnd, cs)
    | 'b' =>
      let named := boundaryNames.findSome? fun (name, a) =>
        (Text.dropLead name.toList cs).map fun rest => (Escape.assertion a, rest)
      some (named.getD (.assertion .wordBoundary, cs))
    | c => if c.toNat < 128 && !c.isAlphanum then some (.literal c, cs) else none

/-- The named classes between `[:` and `:]`. -/
def namedClass? (flags : Flags) (name : String) : Option CharClass :=
  let r := between flags
  let lower := r 'a' 'z'
  let upper := r 'A' 'Z'
  let decimal := r '0' '9'
  match name with
  | "alnum" => some (.union decimal (.union upper lower))
  | "alpha" => some (.union upper lower)
  | "ascii" => some (r (Char.ofNat 0) (Char.ofNat 127))
  | "blank" => some (.union (r '\t' '\t') (r ' ' ' '))
  | "cntrl" =>
    some (.union (r (Char.ofNat 0) (Char.ofNat 31)) (r (Char.ofNat 127) (Char.ofNat 127)))
  | "digit" => some decimal
  | "graph" => some (r '!' '~')
  | "lower" => some lower
  | "print" => some (r ' ' '~')
  | "punct" =>
    some (.union (.union (r '!' '/') (r ':' '@')) (.union (r '[' (Char.ofNat 96)) (r '\x7b' '~')))
  | "space" => some (.union (r '\t' '\r') (r ' ' ' '))
  | "upper" => some upper
  | "word" => some (.union (.union decimal (r '_' '_')) (.union upper lower))
  | "xdigit" => some (.union decimal (.union (r 'A' 'F') (r 'a' 'f')))
  | _ => none

/-- A named class, behind its opening `[`. -/
def bracketName? (flags : Flags) : List Char → Option (CharClass × List Char)
  | ':' :: cs =>
    let (negated, cs) :=
      match cs with
      | '^' :: rest => (true, rest)
      | _ => (false, cs)
    let name := cs.takeWhile (· != ':')
    match cs.dropWhile (· != ':') with
    | ':' :: ']' :: rest =>
      (namedClass? flags (String.ofList name)).map fun k =>
        (if negated then .complement k else k, rest)
    | _ => none
  | _ => none

/-- An item of a class: a character or a class behind a backslash. -/
def classItem? : List Char → Option (Escape × List Char)
  | [] => none
  | '\\' :: cs => escape? cs
  | c :: cs => some (.literal c, cs)

/-- How two classes of a class are joined. -/
inductive ClassOp where
  | inter
  | diff
  | symmDiff

/-- Joins what has been read of a class to what is being read. -/
def joinClass (pending : Option (CharClass × ClassOp)) (current : CharClass) : CharClass :=
  match pending with
  | none => current
  | some (left, .inter) => .inter left current
  | some (left, .diff) => .diff left current
  | some (left, .symmDiff) => .symmDiff left current

/-- The hyphens that a class begins with stand for themselves, and so does a bracket that closes it
before anything else. -/
def classStart (flags : Flags) (current : CharClass) (fresh : Bool) :
    List Char → CharClass × List Char
  | '-' :: cs => classStart flags (.union current (literal flags '-')) false cs
  | ']' :: cs => if fresh then (.union current (literal flags ']'), cs) else (current, ']' :: cs)
  | cs => (current, cs)

/-- Whether a class begins with a caret, and what follows. -/
def caret : List Char → Bool × List Char
  | '^' :: cs => (true, cs)
  | cs => (false, cs)

/-- Reads a class behind its opening bracket, up to the closing one. `pending` is what stands before
the last operator and `current` what stands behind it. -/
def classTail (flags : Flags) (negated : Bool) :
    Nat → Option (CharClass × ClassOp) → CharClass → List Char → Option (CharClass × List Char)
  | 0, _, _, _ => none
  | fuel + 1, pending, current, cs =>
    match skipBlanks flags false cs with
    | [] => none
    | ']' :: rest =>
      let whole := joinClass pending current
      some (if negated then .complement whole else whole, rest)
    | '[' :: rest =>
      match bracketName? flags rest with
      | some (k, rest') => classTail flags negated fuel pending (.union current k) rest'
      | none =>
        let (inner, rest) := caret rest
        let (start, rest) := classStart flags .none true rest
        match classTail flags inner fuel none start rest with
        | some (k, rest') => classTail flags negated fuel pending (.union current k) rest'
        | none => none
    | '&' :: '&' :: rest =>
      classTail flags negated fuel (some (joinClass pending current, .inter)) .none rest
    | '-' :: '-' :: rest =>
      classTail flags negated fuel (some (joinClass pending current, .diff)) .none rest
    | '~' :: '~' :: rest =>
      classTail flags negated fuel (some (joinClass pending current, .symmDiff)) .none rest
    | cs =>
      match classItem? cs with
      | none => none
      | some (first, rest) =>
        let isRange :=
          match skipBlanks flags false rest with
          | '-' :: ']' :: _ => false
          | '-' :: '-' :: _ => false
          | '-' :: _ => true
          | _ => false
        if isRange then
          match classItem? (skipBlanks flags false ((skipBlanks flags false rest).drop 1)) with
          | some (second, rest') =>
            match first, second with
            | .literal low, .literal high =>
              if low ≤ high then
                classTail flags negated fuel pending (.union current (between flags low high)) rest'
              else none
            | _, _ => none
          | none => none
        else
          match first with
          | .literal c =>
            classTail flags negated fuel pending (.union current (literal flags c)) rest
          | .charClass k => classTail flags negated fuel pending (.union current k) rest
          | .assertion _ => none

/-- A count of a repetition, with blanks around it; it has at most 32 bits. -/
def count? (cs : List Char) : Option (Nat × List Char) :=
  let cs := cs.dropWhile Text.isBlank
  let ds := cs.takeWhile Char.isDigit
  let n := Numeral.valueFrom 0 ds
  if ds.isEmpty || n ≥ twoTo 32 then none
  else some (n, (cs.dropWhile Char.isDigit).dropWhile Text.isBlank)

/-- The counts of a repetition behind its opening brace. -/
def counts? (flags : Flags) (cs : List Char) : Option ((Nat × Option Nat) × List Char) :=
  match count? cs with
  | none => none
  | some (least, '\x7d' :: rest) => some ((least, some least), rest)
  | some (least, ',' :: rest) =>
    match skipBlanks flags false rest with
    | '\x7d' :: rest' => some ((least, none), rest')
    | rest' =>
      match count? rest' with
      | some (most, '\x7d' :: rest'') =>
        if least ≤ most then some ((least, some most), rest'') else none
      | _ => none
  | _ => none

/-- A question mark behind a repetition asks for short matches; it does not change what matches. -/
def dropLazy (flags : Flags) (cs : List Char) : List Char :=
  match skipBlanks flags false cs with
  | '?' :: rest => rest
  | _ => cs

/-- The repetition that a text begins with; `some none` if it begins with a malformed one. -/
def repetition? (flags : Flags) : List Char → Option (Option ((Nat × Option Nat) × List Char))
  | '*' :: cs => some (some ((0, none), dropLazy flags cs))
  | '+' :: cs => some (some ((1, none), dropLazy flags cs))
  | '?' :: cs => some (some ((0, some 1), dropLazy flags cs))
  | '\x7b' :: cs => some ((counts? flags cs).map fun (r, rest) => (r, dropLazy flags rest))
  | _ => none

/-- What a run of flag letters makes of the flags. `off` says whether a hyphen came before, and
`seen` has the letters so far. -/
def setFlags (off : Bool) (seen : List Char) (flags : Flags) : List Char → Option Flags
  | [] => if off && seen.head? == some '-' then none else some flags
  | '-' :: cs => if off then none else setFlags true ('-' :: seen) flags cs
  | c :: cs =>
    if seen.contains c then none
    else
      match c with
      | 'i' => setFlags off (c :: seen) { flags with anyCase := !off } cs
      | 'm' => setFlags off (c :: seen) { flags with multiline := !off } cs
      | 's' => setFlags off (c :: seen) { flags with dotAll := !off } cs
      | 'x' => setFlags off (c :: seen) { flags with verbose := !off } cs
      | 'U' => setFlags off (c :: seen) flags cs
      | 'u' => setFlags off (c :: seen) flags cs
      | 'R' => setFlags off (c :: seen) flags cs
      | _ => none

/-- How a group begins. -/
inductive GroupStart where
  /-- Flags for the rest of the enclosing group. -/
  | flags (f : Flags)
  /-- A group read with the given flags, perhaps with a name. -/
  | group (f : Flags) (name : Option String)

/-- Whether a text can be the name of a group. -/
def isGroupName : List Char → Bool
  | [] => false
  | c :: cs =>
    (c == '_' || (Text.isWord c && !Text.isDecimalDigit c))
      && cs.all fun c => Text.isWord c || c == '.' || c == '[' || c == ']'

/-- The name of a group up to the closing angle bracket. -/
def groupName? (flags : Flags) (cs : List Char) : Option (GroupStart × List Char) :=
  let name := cs.takeWhile (· != '>')
  match cs.dropWhile (· != '>') with
  | _ :: rest =>
    if isGroupName name then some (.group flags (some (String.ofList name)), rest) else none
  | [] => none

/-- How a group begins, behind its opening bracket. -/
def groupStart? (flags : Flags) : List Char → Option (GroupStart × List Char)
  | '?' :: 'P' :: '<' :: cs => groupName? flags cs
  | '?' :: '<' :: '=' :: _ => none
  | '?' :: '<' :: '!' :: _ => none
  | '?' :: '<' :: cs => groupName? flags cs
  | '?' :: cs =>
    let letters := cs.takeWhile fun c => c != ':' && c != ')'
    match setFlags false [] flags letters, cs.dropWhile fun c => c != ':' && c != ')' with
    | some flags', ':' :: rest => some (.group flags' none, rest)
    | some flags', ')' :: rest => if letters.isEmpty then none else some (.flags flags', rest)
    | _, _ => none
  | cs => some (.group flags none, cs)

/-- A sequence of items, of which some only set flags. -/
def sequence (items : List (Option Pattern)) : Pattern :=
  (items.filterMap id).foldr .seq .empty

/-- A single item that begins with the given character and is no group. -/
def item? (flags : Flags) : List Char → Option (Pattern × List Char)
  | [] => none
  | '.' :: cs =>
    some (.char (if flags.dotAll then .any else .complement (.range '\n' '\n')), cs)
  | '^' :: cs => some (.assert (if flags.multiline then .lineStart else .textStart), cs)
  | '$' :: cs => some (.assert (if flags.multiline then .lineEnd else .textEnd), cs)
  | '[' :: cs =>
    let (negated, cs) := caret cs
    let (start, rest) := classStart flags .none true cs
    (classTail flags negated (rest.length + 1) none start rest).map fun (k, rest') =>
      (.char k, rest')
  | '\\' :: cs =>
    (escape? cs).map fun (e, rest) =>
      match e with
      | .literal c => (.char (literal flags c), rest)
      | .charClass k => (.char k, rest)
      | .assertion a => (.assert a, rest)
  | c :: cs => some (.char (literal flags c), cs)

/-- The answer of reading a group: its pattern, the rest of the text, and the group names so far. -/
abbrev GroupRead := Pattern × List Char × List String

/-- Reads alternatives up to the end of the text or a closing bracket. `before` is the pattern of
the alternatives already read, if any, and `items` has the items of the current one, last first. -/
def alternatives :
    Nat → Flags → List String → Option Pattern → List (Option Pattern) → List Char →
      Option GroupRead
  | 0, _, _, _, _, _ => none
  | fuel + 1, flags, names, before, items, cs =>
    let current := fun (_ : Unit) =>
      let last := sequence items.reverse
      match before with
      | some p => .alt p last
      | none => last
    match skipBlanks flags false cs with
    | [] => some (current (), [], names)
    | ')' :: rest => some (current (), ')' :: rest, names)
    | '|' :: rest => alternatives fuel flags names (some (current ())) [] rest
    | '(' :: rest =>
      match groupStart? flags rest with
      | none => none
      | some (.flags flags', rest') => alternatives fuel flags' names before (none :: items) rest'
      | some (.group flags' name, rest') =>
        if name.any names.contains then none
        else
          match alternatives fuel flags' (name.toList ++ names) none [] rest' with
          | some (p, ')' :: rest'', names') =>
            alternatives fuel flags names' before (some p :: items) rest''
          | _ => none
    | cs =>
      match repetition? flags cs with
      | some (some ((least, most), rest)) =>
        match items with
        | some p :: others =>
          alternatives fuel flags names before (some (.repeated p least most) :: others) rest
        | _ => none
      | some none => none
      | none =>
        match item? flags cs with
        | some (p, rest) => alternatives fuel flags names before (some p :: items) rest
        | none => none

/-- Reads a pattern, as far as the reader knows the written form. -/
def parse? (text : String) : Option Pattern :=
  let cs := text.toList
  match alternatives (cs.length + 1) .initial [] none [] cs with
  | some (p, [], _) => some p
  | _ => none

end Playbook.Pattern
