import Playbook.Expr
import Playbook.Number.Numeral
import Playbook.Path
import Playbook.Text.Blank

/-!
# The tokens of an expression

A text is read from left to right: blanks are skipped, and at every other place the first kind of
token that fits is taken, tried in the order reference, string, number, word, bracket, operators.
Operators may stand in a row without blanks between them if all but the first are the signs `!` and
`-`.

`Lexer.tokens` gives the tokens of a text or the fault at the first place where no token fits.
-/

namespace Playbook.Lexer

/-- The characters that operators are made of. -/
def isOperatorChar (c : Char) : Bool :=
  "=!<>&|+-*/%~^".toList.contains c

/-- The characters that a word goes on with. -/
def isWordChar (c : Char) : Bool :=
  Path.isNameChar c || c == '.' || c == '[' || c == ']'

/-- A reference: the text from `{{` to the first `}}`, without the blanks around it. -/
def reference? : List Char → Option (Token × List Char)
  | '\x7b' :: '\x7b' :: cs =>
    (Text.cutAt ['\x7d', '\x7d'] cs).map fun (inner, rest) =>
      (.reference (String.ofList (Text.trim inner)), rest)
  | _ => none

/-- The rest of a string behind its opening quote: its characters and what follows the closing
quote. A backslash makes the next character stand for itself, but `\n` is a line feed and `\t` a
tab. -/
def stringTail (quote : Char) : List Char → Option (List Char × List Char)
  | [] => none
  | '\\' :: c :: rest =>
    let meant := if c = 'n' then '\n' else if c = 't' then '\t' else c
    (stringTail quote rest).map fun (s, behind) => (meant :: s, behind)
  | c :: rest =>
    if c = quote then some ([], rest)
    else if c = '\\' then none
    else (stringTail quote rest).map fun (s, behind) => (c :: s, behind)

/-- A string in single or double quotes. -/
def string? : List Char → Option (Token × List Char)
  | '\'' :: cs => (stringTail '\'' cs).map fun (s, rest) => (.text (String.ofList s), rest)
  | '"' :: cs => (stringTail '"' cs).map fun (s, rest) => (.text (String.ofList s), rest)
  | _ => none

/-- The digits of a number and its fraction. One of the two may be missing, and the point too if the
fraction is. -/
def mantissa (cs : List Char) : List Char × List Char :=
  let whole := cs.takeWhile Char.isDigit
  match cs.dropWhile Char.isDigit with
  | '.' :: rest =>
    let fraction := rest.takeWhile Char.isDigit
    if whole.isEmpty && fraction.isEmpty then ([], cs)
    else (whole ++ '.' :: fraction, rest.dropWhile Char.isDigit)
  | rest => (whole, rest)

/-- The sign that a text begins with, if it begins with one. -/
def signPart : List Char → List Char × List Char
  | '+' :: cs => (['+'], cs)
  | '-' :: cs => (['-'], cs)
  | cs => ([], cs)

/-- The exponent behind a mantissa; empty if the letter and the digits are not both there. -/
def exponent : List Char → List Char × List Char
  | e :: cs =>
    let digits := (signPart cs).2.takeWhile Char.isDigit
    if (e = 'e' || e = 'E') && !digits.isEmpty then
      (e :: ((signPart cs).1 ++ digits), (signPart cs).2.dropWhile Char.isDigit)
    else ([], e :: cs)
  | [] => ([], [])

/-- The value of a number's text: an integer if 64 bits hold it, else the nearest double. -/
def numberValue? (cs : List Char) : Option Value :=
  match Numeral.signed? cs with
  | some n => some (.int n)
  | none =>
    match Numeral.double? cs with
    | some x => if h : x.isFinite = true then some (.number (.double x h)) else none
    | none => none

/-- A number; none if it is beyond the range of doubles. -/
def number? (cs : List Char) : Option (Token × List Char) :=
  let (m, rest) := mantissa cs
  if m.isEmpty then none
  else
    let (e, rest) := exponent rest
    (numberValue? (m ++ e)).map fun v => (.literal v, rest)

/-- The token that a word stands for: a literal, an operator or a name. -/
def wordToken (word : String) : Token :=
  match word with
  | "true" => .literal (.bool true)
  | "false" => .literal (.bool false)
  | "null" => .literal .null
  | "and" => .op .and
  | "or" => .op .or
  | "not" => .op .not
  | "in" => .op (.compare .isIn)
  | "contains" => .op (.compare .contains)
  | "matches" => .op (.compare .matches)
  | _ => .name word

/-- A word: a letter, `_` or `$` and all the word characters that follow. -/
def word? : List Char → Option (Token × List Char)
  | c :: cs =>
    if Path.isNameStart c then
      some (wordToken (String.ofList (c :: cs.takeWhile isWordChar)), cs.dropWhile isWordChar)
    else none
  | [] => none

/-- A round bracket. -/
def bracket? : List Char → Option (Token × List Char)
  | '(' :: cs => some (.opening, cs)
  | ')' :: cs => some (.closing, cs)
  | _ => none

/-- The operator that a text begins with, the longest one that fits. -/
def operator? : List Char → Option (Operator × List Char)
  | '=' :: '=' :: cs => some (.compare .eq, cs)
  | '!' :: '=' :: cs => some (.compare .ne, cs)
  | '<' :: '=' :: cs => some (.compare .le, cs)
  | '>' :: '=' :: cs => some (.compare .ge, cs)
  | '&' :: '&' :: cs => some (.and, cs)
  | '|' :: '|' :: cs => some (.or, cs)
  | '=' :: '~' :: cs => some (.compare .matches, cs)
  | '<' :: cs => some (.compare .lt, cs)
  | '>' :: cs => some (.compare .gt, cs)
  | '!' :: cs => some (.not, cs)
  | '+' :: cs => some (.compute .add, cs)
  | '-' :: cs => some (.compute .sub, cs)
  | '*' :: cs => some (.compute .mul, cs)
  | '/' :: cs => some (.compute .div, cs)
  | '%' :: cs => some (.compute .rem, cs)
  | _ => none

/-- A row of signs, each of which applies to what follows it. -/
def signs? : List Char → Option (List Token)
  | [] => some []
  | '!' :: cs => (signs? cs).map (.op .not :: ·)
  | '-' :: cs => (signs? cs).map (.op (.compute .sub) :: ·)
  | _ => none

/-- The operators that a whole run of operator characters is made of. -/
def operatorRun? (run : List Char) : Option (List Token) :=
  match operator? run with
  | some (o, rest) => (signs? rest).map (.op o :: ·)
  | none => none

/-- The operators that a text begins with. -/
def operators? (cs : List Char) : Option (List Token × List Char) :=
  (operatorRun? (cs.takeWhile isOperatorChar)).map fun ts => (ts, cs.dropWhile isOperatorChar)

/-- A single token other than an operator. -/
def single? (cs : List Char) : Option (Token × List Char) :=
  reference? cs <|> string? cs <|> number? cs <|> word? cs <|> bracket? cs

/-- What a text begins with: a token or a run of operators. -/
def lexeme? (cs : List Char) : Option (List Token × List Char) :=
  match single? cs with
  | some (t, rest) => some ([t], rest)
  | none => operators? cs

/-- What is wrong at a place where no token fits, `position` characters behind the beginning. -/
def faultAt (position : Nat) : List Char → ParseFault
  | '\x7b' :: '\x7b' :: _ => .unexpectedEnd
  | c :: cs =>
    if c = '"' || c = '\'' then .unterminatedText
    else if isOperatorChar c then
      .unknownOperator (String.ofList ((c :: cs).takeWhile isOperatorChar))
    else .unexpectedChar c position
  | [] => .unexpectedEnd

/-! ## Every lexeme is shorter than the text it begins -/

theorem length_of_stringTail {quote : Char} {cs s rest : List Char}
    (h : stringTail quote cs = some (s, rest)) : rest.length < cs.length := by
  induction cs using stringTail.induct quote generalizing s with
  | case1 => simp [stringTail] at h
  | case2 c tail ih =>
    obtain ⟨⟨s', b⟩, hb, he⟩ := Option.map_eq_some_iff.1 h
    obtain ⟨-, rfl⟩ := Prod.mk.inj he
    have hlt := ih hb
    simp only [List.length_cons]
    exact Nat.lt_of_lt_of_le hlt (by omega)
  | case3 tail => simp_all [stringTail]
  | case4 tail _ hq => simp_all [stringTail]
  | case5 c tail hne hq hb ih =>
    simp only [stringTail, hq, hb, if_false] at h
    obtain ⟨⟨s', b⟩, hb, he⟩ := Option.map_eq_some_iff.1 h
    obtain ⟨-, rfl⟩ := Prod.mk.inj he
    have hlt := ih hb
    simp only [List.length_cons]
    exact Nat.lt_of_lt_of_le hlt (by omega)

theorem length_dropWhile_le (p : Char → Bool) (cs : List Char) :
    (cs.dropWhile p).length ≤ cs.length :=
  (List.dropWhile_suffix p (l := cs)).length_le

theorem length_of_reference? {cs : List Char} {t : Token} {rest : List Char}
    (h : reference? cs = some (t, rest)) : rest.length < cs.length := by
  unfold reference? at h
  split at h
  · obtain ⟨⟨inner, r⟩, hc, he⟩ := Option.map_eq_some_iff.1 h
    cases he
    have := congrArg List.length (Text.eq_of_cutAt hc)
    simp at this ⊢
    omega
  · simp at h

theorem length_of_string? {cs : List Char} {t : Token} {rest : List Char}
    (h : string? cs = some (t, rest)) : rest.length < cs.length := by
  unfold string? at h
  split at h
  · obtain ⟨⟨s, r⟩, hs, he⟩ := Option.map_eq_some_iff.1 h
    cases he
    have := length_of_stringTail hs
    simp only [List.length_cons]
    omega
  · obtain ⟨⟨s, r⟩, hs, he⟩ := Option.map_eq_some_iff.1 h
    cases he
    have := length_of_stringTail hs
    simp only [List.length_cons]
    omega
  · simp at h

/-- A mantissa and what follows it make up the text. -/
theorem mantissa_append (cs : List Char) : (mantissa cs).1 ++ (mantissa cs).2 = cs := by
  unfold mantissa
  dsimp only
  split
  · next rest hd =>
    split
    · simp
    · have h := List.takeWhile_append_dropWhile (p := Char.isDigit) (l := cs)
      rw [hd] at h
      simp only [List.append_assoc, List.cons_append, List.takeWhile_append_dropWhile]
      exact h
  · exact List.takeWhile_append_dropWhile

/-- A sign and what follows it make up the text. -/
theorem signPart_append (cs : List Char) : (signPart cs).1 ++ (signPart cs).2 = cs := by
  unfold signPart
  split <;> simp

/-- An exponent and what follows it make up the text. -/
theorem exponent_append (cs : List Char) : (exponent cs).1 ++ (exponent cs).2 = cs := by
  cases cs with
  | nil => rfl
  | cons e cs =>
    unfold exponent
    dsimp only
    split
    · simp [List.takeWhile_append_dropWhile, signPart_append]
    · simp

theorem length_of_number? {cs : List Char} {t : Token} {rest : List Char}
    (h : number? cs = some (t, rest)) : rest.length < cs.length := by
  unfold number? at h
  dsimp only at h
  split at h
  · simp at h
  · next hm =>
    obtain ⟨v, _, he⟩ := Option.map_eq_some_iff.1 h
    cases he
    have h₁ := congrArg List.length (mantissa_append cs)
    have h₂ := congrArg List.length (exponent_append (mantissa cs).2)
    have h₃ : 0 < (mantissa cs).1.length := by
      cases hc : (mantissa cs).1 with
      | nil => simp [hc] at hm
      | cons _ _ => simp
    simp only [List.length_append] at h₁ h₂
    omega

theorem length_of_word? {cs : List Char} {t : Token} {rest : List Char}
    (h : word? cs = some (t, rest)) : rest.length < cs.length := by
  unfold word? at h
  split at h
  · next c cs' =>
    split at h
    · simp only [Option.some.injEq, Prod.mk.injEq] at h
      rw [← h.2]
      have := length_dropWhile_le isWordChar cs'
      simp only [List.length_cons]
      omega
    · simp at h
  · simp at h

theorem length_of_bracket? {cs : List Char} {t : Token} {rest : List Char}
    (h : bracket? cs = some (t, rest)) : rest.length < cs.length := by
  unfold bracket? at h
  split at h <;> simp_all

theorem length_of_single? {cs : List Char} {t : Token} {rest : List Char}
    (h : single? cs = some (t, rest)) : rest.length < cs.length := by
  unfold single? at h
  simp only [Option.orElse_eq_orElse, Option.orElse_eq_or, Option.or_eq_some_iff] at h
  rcases h with h | ⟨-, h | ⟨-, h | ⟨-, h | ⟨-, h⟩⟩⟩⟩
  · exact length_of_reference? h
  · exact length_of_string? h
  · exact length_of_number? h
  · exact length_of_word? h
  · exact length_of_bracket? h

theorem length_of_operators? {cs : List Char} {ts : List Token} {rest : List Char}
    (h : operators? cs = some (ts, rest)) : rest.length < cs.length := by
  unfold operators? at h
  obtain ⟨ts', hr, he⟩ := Option.map_eq_some_iff.1 h
  cases he
  have hne : cs.takeWhile isOperatorChar ≠ [] := by
    intro hn
    simp [hn, operatorRun?, operator?] at hr
  have hlen := congrArg List.length
    (List.takeWhile_append_dropWhile (p := isOperatorChar) (l := cs))
  have hpos : 0 < (cs.takeWhile isOperatorChar).length := List.length_pos_iff.2 hne
  simp only [List.length_append] at hlen
  omega

theorem length_of_lexeme? {cs : List Char} {ts : List Token} {rest : List Char}
    (h : lexeme? cs = some (ts, rest)) : rest.length < cs.length := by
  unfold lexeme? at h
  split at h
  · next t r hs =>
    simp only [Option.some.injEq, Prod.mk.injEq] at h
    rw [← h.2]
    exact length_of_single? hs
  · exact length_of_operators? h

/-- The tokens of what is left of a text that has `total` characters. -/
def tokensOf (total : Nat) (cs : List Char) : Except ParseFault (List Token) :=
  match _hs : Text.trimStart cs with
  | [] => .ok []
  | c :: tail =>
    match _hl : lexeme? (c :: tail) with
    | some (ts, rest) => (tokensOf total rest).map (ts ++ ·)
    | none => .error (faultAt (total - (c :: tail).length) (c :: tail))
termination_by cs.length
decreasing_by
  have h₁ := length_of_lexeme? _hl
  have h₂ := Text.length_trimStart_le cs
  rw [_hs] at h₂
  omega

/-- The tokens of a text. -/
def tokens (source : String) : Except ParseFault (List Token) :=
  let cs := source.toList
  tokensOf cs.length cs

end Playbook.Lexer
