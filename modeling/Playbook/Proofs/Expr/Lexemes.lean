import Playbook.Proofs.Expr.Grammar

/-!
# Where lexemes end

The lexemes of a text are found one after the other, and each is as long as it can be. So
two texts that are put together keep their tokens unless a lexeme of the first goes on into
the second. It cannot where the second text begins with a character that neither words and
numbers nor operators go on with (`Lexer.isApart`): there a lexeme ends as it does at the end
of the text (`Lexer.lexeme?_append`), and the tokens of both texts make up those of the whole
(`Lexer.Scans.append`).

`Lexer.Scans` tells what the tokens of a text are without the order in which they are found;
that it tells what the lexer finds is `Lexer.tokens_eq_ok_iff`. Together with the grammar it
tells which texts are expressions (`Expr.parse_eq_ok_iff`).
-/

namespace Playbook

/-! ## Texts that are put together -/

namespace Text

/-- Where the beginning ends within a text, more text behind does not matter. -/
theorem dropLead_append {p cs : List Char} (h : p.length ≤ cs.length) (rest : List Char) :
    dropLead p (cs ++ rest) = (dropLead p cs).map (· ++ rest) := by
  induction p generalizing cs with
  | nil => rfl
  | cons a p ih =>
    cases cs with
    | nil => cases h
    | cons c cs =>
      show (if a = c then _ else _) = Option.map _ (if a = c then _ else _)
      split
      · exact ih (Nat.le_of_succ_le_succ h)
      · rfl

/-- A text is cut at the first place, whatever is behind it. -/
theorem cutAt_append {mark cs before behind : List Char}
    (h : cutAt mark cs = some (before, behind)) (rest : List Char) :
    cutAt mark (cs ++ rest) = some (before, behind ++ rest) := by
  induction cs generalizing before with
  | nil =>
    obtain ⟨hm, he⟩ := Option.ite_none_right_eq_some.mp h
    cases he
    rw [hm]
    cases rest <;> rfl
  | cons c cs ih =>
    have hlen : mark.length ≤ (c :: cs).length := by
      have hl := congrArg List.length (eq_of_cutAt h)
      rw [List.length_append, List.length_append] at hl
      omega
    rw [cutAt] at h
    rw [List.cons_append, cutAt, ← List.cons_append, dropLead_append hlen]
    cases hd : dropLead mark (c :: cs) with
    | some r =>
      rw [hd] at h
      cases h
      rfl
    | none =>
      rw [hd] at h
      obtain ⟨⟨b, r⟩, hb, he⟩ := Option.map_eq_some_iff.mp h
      cases he
      show (cutAt mark (cs ++ rest)).map _ = _
      rw [ih hb]
      rfl

end Text

namespace Lexer

/-- **A text stands apart** from what is in front of it: it does not begin with a character
that a word, a number or a row of operators goes on with. -/
def isApart : List Char → Bool
  | [] => true
  | c :: _ => !isWordChar c && !isOperatorChar c

section

variable {p : Char → Bool} {cs rest : List Char}

/-- Where a text does not go on with some characters, those in front of it are as many as
before. -/
theorem takeWhile_append_of_head (h : ∀ c us, rest = c :: us → p c = false) :
    (cs ++ rest).takeWhile p = cs.takeWhile p := by
  induction cs with
  | nil =>
    cases rest with
    | nil => rfl
    | cons c us => exact List.takeWhile_cons_of_neg (by rw [h c us rfl]; exact nofun)
  | cons c cs ih => rw [List.cons_append, List.takeWhile_cons, List.takeWhile_cons, ih]

theorem dropWhile_append_of_head (h : ∀ c us, rest = c :: us → p c = false) :
    (cs ++ rest).dropWhile p = cs.dropWhile p ++ rest := by
  have hboth := List.takeWhile_append_dropWhile (p := p) (l := cs ++ rest)
  rw [takeWhile_append_of_head h] at hboth
  refine List.append_cancel_left (hboth.trans ?_)
  rw [← List.append_assoc, List.takeWhile_append_dropWhile]

end

/-! ## Lexemes in front of other text -/

variable {c : Char} {cs rest : List Char}

/-- What a text that stands apart does not begin with. -/
theorem head_of_isApart (h : isApart rest = true) (us : List Char) (hr : rest = c :: us) :
    isWordChar c = false ∧ isOperatorChar c = false := by
  subst hr
  simpa [isApart] using h

theorem isDigit_of_isApart (h : isApart rest = true) (c : Char) (us : List Char)
    (hr : rest = c :: us) : c.isDigit = false := by
  have hw := (head_of_isApart h us hr).1
  simp only [isWordChar, Path.isNameChar, Char.isAlphanum, Bool.or_eq_false_iff] at hw
  exact hw.1.1.1.1.1.2

theorem mantissa_of_point {r : List Char} (h : cs.dropWhile Char.isDigit = '.' :: r) :
    mantissa cs
      = if (cs.takeWhile Char.isDigit).isEmpty && (r.takeWhile Char.isDigit).isEmpty
        then ([], cs)
        else (cs.takeWhile Char.isDigit ++ '.' :: r.takeWhile Char.isDigit,
          r.dropWhile Char.isDigit) := by
  unfold mantissa
  rw [h]
  rfl

theorem mantissa_of_no_point (h : ∀ r, cs.dropWhile Char.isDigit ≠ '.' :: r) :
    mantissa cs = (cs.takeWhile Char.isDigit, cs.dropWhile Char.isDigit) := by
  unfold mantissa
  split
  · rename_i hr
    exact (h _ hr).elim
  · rfl

/-- A mantissa ends where a text stands apart. -/
theorem mantissa_append_of_isApart (h : isApart rest = true) :
    mantissa (cs ++ rest) = ((mantissa cs).1, (mantissa cs).2 ++ rest) := by
  have hd := isDigit_of_isApart h
  by_cases hp : ∃ r, cs.dropWhile Char.isDigit = '.' :: r
  · obtain ⟨r, hr⟩ := hp
    have hr' : (cs ++ rest).dropWhile Char.isDigit = '.' :: (r ++ rest) := by
      rw [dropWhile_append_of_head hd, hr, List.cons_append]
    rw [mantissa_of_point hr, mantissa_of_point hr', takeWhile_append_of_head hd,
      takeWhile_append_of_head hd, dropWhile_append_of_head hd]
    split <;> rfl
  · have hn : ∀ r, cs.dropWhile Char.isDigit ≠ '.' :: r := fun r hr => hp ⟨r, hr⟩
    have hn' : ∀ r, (cs ++ rest).dropWhile Char.isDigit ≠ '.' :: r := by
      intro r hr
      rw [dropWhile_append_of_head hd] at hr
      cases hc : cs.dropWhile Char.isDigit with
      | nil =>
        rw [hc] at hr
        cases (head_of_isApart h _ hr).1
      | cons c us =>
        rw [hc] at hr
        cases hr
        exact hn us hc
    rw [mantissa_of_no_point hn, mantissa_of_no_point hn', takeWhile_append_of_head hd,
      dropWhile_append_of_head hd]

/-- A sign is the first character, if there is one. -/
theorem signPart_append_of_ne_nil (h : cs ≠ []) (rest : List Char) :
    signPart (cs ++ rest) = ((signPart cs).1, (signPart cs).2 ++ rest) := by
  cases cs with
  | nil => exact (h rfl).elim
  | cons c cs =>
    by_cases hsign : c = '+' ∨ c = '-'
    · obtain rfl | rfl := hsign <;> rfl
    · have hnone : ∀ us, signPart (c :: us) = ([], c :: us) := by
        intro us
        unfold signPart
        split <;> simp_all
      rw [List.cons_append, hnone, hnone, List.cons_append]

/-- An exponent ends there too. -/
theorem exponent_append_of_isApart (h : isApart rest = true) :
    exponent (cs ++ rest) = ((exponent cs).1, (exponent cs).2 ++ rest) := by
  have hd := isDigit_of_isApart h
  cases cs with
  | nil =>
    cases rest with
    | nil => rfl
    | cons c us =>
      have hletter : ¬ (c = 'e' ∨ c = 'E') := by
        rintro (rfl | rfl) <;> cases h
      show exponent (c :: us) = ([], c :: us)
      unfold exponent
      simp [hletter]
  | cons e cs =>
    have hsign : signPart (cs ++ rest) = ((signPart cs).1, (signPart cs).2 ++ rest) := by
      by_cases hcs : cs = []
      · subst hcs
        show signPart rest = ([], rest)
        unfold signPart
        split
        · cases h
        · cases h
        · rfl
      · exact signPart_append_of_ne_nil hcs rest
    rw [List.cons_append]
    unfold exponent
    dsimp only
    rw [hsign, takeWhile_append_of_head hd, dropWhile_append_of_head hd]
    split <;> rfl

/-- A number in front of a text that stands apart is the one that there is without the text. -/
theorem number?_append (h : isApart rest = true) :
    number? (cs ++ rest) = (number? cs).map fun (t, r) => (t, r ++ rest) := by
  unfold number?
  rw [mantissa_append_of_isApart h]
  dsimp only
  rw [exponent_append_of_isApart h]
  split
  · rfl
  · rw [Option.map_map]
    rfl

section

variable {quote : Char}

theorem stringTail_quote (hq : quote ≠ '\\') (cs : List Char) :
    stringTail quote (quote :: cs) = some ([], cs) := by
  rw [stringTail, if_pos rfl]
  exact fun _ _ h => (hq h).elim

theorem stringTail_plain (hq : c ≠ quote) (hb : c ≠ '\\') (cs : List Char) :
    stringTail quote (c :: cs)
      = (stringTail quote cs).map fun (s, behind) => (c :: s, behind) := by
  rw [stringTail, if_neg hq, if_neg hb]
  exact fun _ _ h => (hb h).elim

/-- A string ends with its closing quote, whatever is behind it. -/
theorem stringTail_append (hq : quote ≠ '\\') {cs s behind : List Char}
    (h : stringTail quote cs = some (s, behind)) (rest : List Char) :
    stringTail quote (cs ++ rest) = some (s, behind ++ rest) := by
  induction cs using stringTail.induct quote generalizing s with
  | case1 => cases h
  | case2 c tail ih =>
    obtain ⟨⟨s', b⟩, hb, he⟩ := Option.map_eq_some_iff.mp h
    cases he
    show (stringTail quote (tail ++ rest)).map _ = _
    rw [ih hb]
    rfl
  | case3 tail _ =>
    rw [stringTail_quote hq] at h
    cases h
    exact stringTail_quote hq _
  | case4 tail hne _ =>
    cases tail with
    | nil => simp [stringTail, hq.symm] at h
    | cons c tail => exact (hne c tail rfl rfl).elim
  | case5 c tail _ hc hb ih =>
    rw [stringTail_plain hc hb] at h
    obtain ⟨⟨s', b⟩, ht, he⟩ := Option.map_eq_some_iff.mp h
    cases he
    rw [List.cons_append, stringTail_plain hc hb, ih ht]
    rfl

end

/-! ## Which lexeme a text begins with

The first character tells the kind. -/

theorem reference?_eq_none (h : c ≠ '\x7b') : reference? (c :: cs) = none := by
  unfold reference?
  split
  · rename_i he
    cases he
    exact (h rfl).elim
  · rfl

theorem string?_eq_none (h : c ≠ '\'') (h' : c ≠ '"') : string? (c :: cs) = none := by
  unfold string?
  split
  · rename_i he
    cases he
    exact (h rfl).elim
  · rename_i he
    cases he
    exact (h' rfl).elim
  · rfl

theorem number?_eq_none (h : c.isDigit = false) (h' : c ≠ '.') : number? (c :: cs) = none := by
  have hd : (c :: cs).dropWhile Char.isDigit = c :: cs :=
    List.dropWhile_cons_of_neg (by rw [h]; exact nofun)
  have ht : (c :: cs).takeWhile Char.isDigit = [] :=
    List.takeWhile_cons_of_neg (by rw [h]; exact nofun)
  have hm : mantissa (c :: cs) = ([], c :: cs) := by
    rw [mantissa_of_no_point, hd, ht]
    intro r hr
    rw [hd] at hr
    cases hr
    exact h' rfl
  unfold number?
  rw [hm]
  rfl

theorem word?_eq_none (h : Path.isNameStart c = false) : word? (c :: cs) = none := by
  rw [word?, h]
  rfl

theorem bracket?_eq_none (h : c ≠ '(') (h' : c ≠ ')') : bracket? (c :: cs) = none := by
  unfold bracket?
  split
  · rename_i he
    cases he
    exact (h rfl).elim
  · rename_i he
    cases he
    exact (h' rfl).elim
  · rfl

/-- Where the characters are that a name begins with. -/
theorem val_of_isNameStart (h : Path.isNameStart c = true) :
    ('A'.val ≤ c.val ∧ c.val ≤ 'Z'.val) ∨ ('a'.val ≤ c.val ∧ c.val ≤ 'z'.val)
      ∨ c = '_' ∨ c = '$' := by
  unfold Path.isNameStart at h
  delta Char.isAlpha Char.isUpper Char.isLower at h
  simpa only [Bool.or_eq_true, Bool.and_eq_true, decide_eq_true_eq, beq_iff_eq, ge_iff_le,
    or_assoc] using h

theorem isDigit_of_isNameStart (h : Path.isNameStart c = true) : c.isDigit = false := by
  obtain h | h | rfl | rfl := val_of_isNameStart h
  · simp only [Char.isDigit, Bool.and_eq_false_iff, decide_eq_false_iff_not]
    grind
  · simp only [Char.isDigit, Bool.and_eq_false_iff, decide_eq_false_iff_not]
    grind
  · decide
  · decide

/-- Only a reference begins with a brace. -/
theorem single?_brace (cs : List Char) :
    single? ('\x7b' :: cs) = reference? ('\x7b' :: cs) := by
  unfold single?
  rw [string?_eq_none (by decide) (by decide), number?_eq_none (by decide) (by decide),
    word?_eq_none (by decide), bracket?_eq_none (by decide) (by decide)]
  cases reference? ('\x7b' :: cs) <;> rfl

/-- Only a string begins with a quote. -/
theorem single?_quote (h : c = '\'' ∨ c = '"') (cs : List Char) :
    single? (c :: cs) = string? (c :: cs) := by
  have hne : ∀ d : Char, d ≠ '\'' → d ≠ '"' → c ≠ d := by
    rintro d hd hd' rfl
    exact h.elim hd hd'
  have hclass : c.isDigit = false ∧ Path.isNameStart c = false := by
    obtain rfl | rfl := h <;> decide
  unfold single?
  rw [reference?_eq_none (hne _ (by decide) (by decide)),
    number?_eq_none hclass.1 (hne _ (by decide) (by decide)), word?_eq_none hclass.2,
    bracket?_eq_none (hne _ (by decide) (by decide)) (hne _ (by decide) (by decide))]
  cases string? (c :: cs) <;> rfl

/-- Only a number begins with a digit or a point. -/
theorem single?_digit (h : c.isDigit = true ∨ c = '.') (cs : List Char) :
    single? (c :: cs) = number? (c :: cs) := by
  have hne : ∀ d : Char, d.isDigit = false → d ≠ '.' → c ≠ d := by
    rintro d hd hdot rfl
    obtain h | h := h
    · rw [hd] at h
      cases h
    · exact hdot h
  have hstart : Path.isNameStart c = false := by
    obtain h | rfl := h
    · rw [Bool.eq_false_iff]
      intro hs
      rw [isDigit_of_isNameStart hs] at h
      cases h
    · decide
  unfold single?
  rw [reference?_eq_none (hne _ (by decide) (by decide)),
    string?_eq_none (hne _ (by decide) (by decide)) (hne _ (by decide) (by decide)),
    word?_eq_none hstart,
    bracket?_eq_none (hne _ (by decide) (by decide)) (hne _ (by decide) (by decide))]
  cases number? (c :: cs) <;> rfl

/-- Only a word begins with a letter, `_` or `$`. -/
theorem single?_nameStart (h : Path.isNameStart c = true) (cs : List Char) :
    single? (c :: cs) = word? (c :: cs) := by
  have hne : ∀ d : Char, Path.isNameStart d = false → c ≠ d := by
    rintro d hd rfl
    rw [hd] at h
    cases h
  unfold single?
  rw [reference?_eq_none (hne _ (by decide)),
    string?_eq_none (hne _ (by decide)) (hne _ (by decide)),
    number?_eq_none (isDigit_of_isNameStart h) (hne _ (by decide)),
    bracket?_eq_none (hne _ (by decide)) (hne _ (by decide))]
  cases word? (c :: cs) <;> rfl

/-- Nothing but a bracket begins with any other character. -/
theorem single?_other (hd : ¬ (c.isDigit = true ∨ c = '.')) (hs : ¬ Path.isNameStart c = true)
    (hb : c ≠ '\x7b') (hq : ¬ (c = '\'' ∨ c = '"')) (cs : List Char) :
    single? (c :: cs) = bracket? (c :: cs) := by
  rw [not_or] at hd hq
  unfold single?
  rw [reference?_eq_none hb, string?_eq_none hq.1 hq.2,
    number?_eq_none (Bool.eq_false_iff.mpr hd.1) hd.2, word?_eq_none (Bool.eq_false_iff.mpr hs)]
  cases bracket? (c :: cs) <;> rfl

/-- So is a word. -/
theorem word?_append (h : isApart rest = true) :
    word? (c :: (cs ++ rest)) = (word? (c :: cs)).map fun (t, r) => (t, r ++ rest) := by
  have hc : ∀ c us, rest = c :: us → isWordChar c = false :=
    fun c us hr => (head_of_isApart h us hr).1
  rw [word?, word?, takeWhile_append_of_head hc, dropWhile_append_of_head hc]
  split <;> rfl

/-- A bracket is found whatever is behind it. -/
theorem bracket?_append :
    bracket? (c :: (cs ++ rest)) = (bracket? (c :: cs)).map fun (t, r) => (t, r ++ rest) := by
  unfold bracket?
  split
  · rename_i he
    cases he
    rfl
  · rename_i he
    cases he
    rfl
  · rename_i ho hc
    split
    · rename_i he
      cases he
      exact (ho _ rfl).elim
    · rename_i he
      cases he
      exact (hc _ rfl).elim
    · rfl

theorem reference?_append {t : Token} {r : List Char} (hr : reference? cs = some (t, r))
    (rest : List Char) : reference? (cs ++ rest) = some (t, r ++ rest) := by
  unfold reference? at hr
  split at hr
  · obtain ⟨⟨inner, behind⟩, hc, he⟩ := Option.map_eq_some_iff.mp hr
    cases he
    rw [List.cons_append, List.cons_append, reference?, Text.cutAt_append hc]
    rfl
  · cases hr

theorem string?_append {t : Token} {r : List Char} (hs : string? cs = some (t, r))
    (rest : List Char) : string? (cs ++ rest) = some (t, r ++ rest) := by
  unfold string? at hs
  split at hs
  · obtain ⟨⟨s, behind⟩, ht, he⟩ := Option.map_eq_some_iff.mp hs
    cases he
    rw [List.cons_append, string?, stringTail_append (by decide) ht]
    rfl
  · obtain ⟨⟨s, behind⟩, ht, he⟩ := Option.map_eq_some_iff.mp hs
    cases he
    rw [List.cons_append, string?, stringTail_append (by decide) ht]
    rfl
  · cases hs

/-- Where a text begins with a single token, so does it with other text behind. -/
theorem single?_append {t : Token} {r : List Char} (hs : single? cs = some (t, r))
    (h : isApart rest = true) : single? (cs ++ rest) = some (t, r ++ rest) := by
  cases cs with
  | nil => cases hs
  | cons c cs =>
    rw [List.cons_append]
    by_cases hd : c.isDigit = true ∨ c = '.'
    · rw [single?_digit hd] at hs ⊢
      rw [← List.cons_append, number?_append h, hs]
      rfl
    by_cases hn : Path.isNameStart c = true
    · rw [single?_nameStart hn] at hs ⊢
      rw [word?_append h, hs]
      rfl
    by_cases hb : c = '\x7b'
    · subst hb
      rw [single?_brace] at hs ⊢
      exact reference?_append hs rest
    by_cases hq : c = '\'' ∨ c = '"'
    · rw [single?_quote hq] at hs ⊢
      exact string?_append hs rest
    · rw [single?_other hd hn hb hq] at hs ⊢
      rw [bracket?_append, hs]
      rfl

/-- A row of operators in front of a text that stands apart is the one without the text. -/
theorem operators?_append (h : isApart rest = true) :
    operators? (cs ++ rest) = (operators? cs).map fun (ts, r) => (ts, r ++ rest) := by
  have hc : ∀ c us, rest = c :: us → isOperatorChar c = false :=
    fun c us hr => (head_of_isApart h us hr).2
  rw [operators?, operators?, takeWhile_append_of_head hc, dropWhile_append_of_head hc,
    Option.map_map]
  rfl

/-- A row of operators begins with an operator character. -/
theorem isOperatorChar_of_operators? {ts : List Token} {r : List Char}
    (h : operators? (c :: cs) = some (ts, r)) : isOperatorChar c = true := by
  cases hc : isOperatorChar c with
  | true => rfl
  | false =>
    rw [operators?, List.takeWhile_cons_of_neg (by rw [hc]; exact nofun)] at h
    cases h

/-- What an operator character is not. -/
theorem not_of_isOperatorChar (h : isOperatorChar c = true) :
    ¬ (c.isDigit = true ∨ c = '.') ∧ ¬ Path.isNameStart c = true ∧ c ≠ '\x7b'
      ∧ ¬ (c = '\'' ∨ c = '"') ∧ c ≠ '(' ∧ c ≠ ')' := by
  have hall : ("=!<>&|+-*/%~^".toList.all fun c => decide (
      ¬ (c.isDigit = true ∨ c = '.') ∧ ¬ Path.isNameStart c = true ∧ c ≠ '\x7b'
        ∧ ¬ (c = '\'' ∨ c = '"') ∧ c ≠ '(' ∧ c ≠ ')')) = true := by decide
  exact of_decide_eq_true (List.all_eq_true.mp hall c (List.contains_iff_mem.mp h))

theorem single?_operator (h : isOperatorChar c = true) (cs : List Char) :
    single? (c :: cs) = none := by
  obtain ⟨hd, hn, hb, hq, ho, hc⟩ := not_of_isOperatorChar h
  rw [single?_other hd hn hb hq, bracket?_eq_none ho hc]

/-- **A lexeme ends where a text stands apart**, as it does at the end of the text. -/
theorem lexeme?_append {ts : List Token} {r : List Char} (hl : lexeme? cs = some (ts, r))
    (h : isApart rest = true) : lexeme? (cs ++ rest) = some (ts, r ++ rest) := by
  unfold lexeme? at hl
  split at hl
  · rename_i t behind hs
    cases hl
    rw [lexeme?, single?_append hs h]
  · cases cs with
    | nil => cases hl
    | cons c cs =>
      rw [lexeme?, List.cons_append, single?_operator (isOperatorChar_of_operators? hl),
        ← List.cons_append]
      rw [operators?_append h, hl]
      rfl

/-- Where the digits and the letters are. -/
theorem toNat_of_isDigit (h : c.isDigit = true ∨ Path.isNameStart c = true) :
    36 ≤ c.toNat ∧ c.toNat ≤ 122 := by
  have hn : c.val.toNat = c.toNat := rfl
  have h0 : '0'.val.toNat = 48 ∧ '9'.val.toNat = 57 := ⟨rfl, rfl⟩
  have hA : 'A'.val.toNat = 65 ∧ 'Z'.val.toNat = 90 := ⟨rfl, rfl⟩
  have ha : 'a'.val.toNat = 97 ∧ 'z'.val.toNat = 122 := ⟨rfl, rfl⟩
  have h := h.imp_right val_of_isNameStart
  simp only [Char.isDigit, Bool.and_eq_true, decide_eq_true_eq, ge_iff_le,
    UInt32.le_iff_toNat_le] at h
  obtain h | h | h | rfl | rfl := h
  · omega
  · omega
  · omega
  · decide
  · decide

/-- No lexeme begins with a blank. -/
theorem lexeme?_blank (h : Text.isBlank c = true) (cs : List Char) :
    lexeme? (c :: cs) = none := by
  have hne : ∀ d : Char, Text.isBlank d = false → c ≠ d := by
    rintro d hd rfl
    rw [hd] at h
    cases h
  have hclass : ¬ (c.isDigit = true ∨ Path.isNameStart c = true) := by
    intro hc
    have hn := toNat_of_isDigit hc
    simp only [Text.isBlank, Bool.or_eq_true, Bool.and_eq_true, decide_eq_true_eq,
      beq_iff_eq] at h
    omega
  have hdigit : ¬ (c.isDigit = true ∨ c = '.') :=
    not_or.mpr ⟨fun hd => hclass (.inl hd), hne _ (by decide)⟩
  have hstart : ¬ Path.isNameStart c = true := fun hs => hclass (.inr hs)
  have hop : ¬ isOperatorChar c = true := by
    intro ho
    have hall : ("=!<>&|+-*/%~^".toList.all fun c => !Text.isBlank c) = true := by decide
    have hblank := List.all_eq_true.mp hall c (List.contains_iff_mem.mp ho)
    rw [h] at hblank
    cases hblank
  have hquote : ¬ (c = '\'' ∨ c = '"') :=
    not_or.mpr ⟨hne _ (by decide), hne _ (by decide)⟩
  rw [lexeme?, single?_other hdigit hstart (hne _ (by decide)) hquote,
    bracket?_eq_none (hne _ (by decide)) (hne _ (by decide))]
  cases ho : operators? (c :: cs) with
  | none => rfl
  | some a => exact (hop (isOperatorChar_of_operators? ho)).elim

/-! ## A lexeme is what a text begins with -/

theorem suffix_of_stringTail {quote : Char} {s : List Char}
    (h : stringTail quote cs = some (s, rest)) : rest <:+ cs := by
  induction cs using stringTail.induct quote generalizing s with
  | case1 => cases h
  | case2 c tail ih =>
    obtain ⟨⟨s', b⟩, hb, he⟩ := Option.map_eq_some_iff.mp h
    cases he
    exact (ih hb).trans ⟨['\\', c], rfl⟩
  | case3 tail => simp_all [stringTail]
  | case4 tail _ hq => simp_all [stringTail]
  | case5 c tail hne hq hb ih =>
    rw [stringTail_plain hq hb] at h
    obtain ⟨⟨s', b⟩, hb, he⟩ := Option.map_eq_some_iff.mp h
    cases he
    exact (ih hb).trans (List.suffix_cons c tail)

theorem suffix_of_number? {t : Token} (h : number? cs = some (t, rest)) : rest <:+ cs := by
  unfold number? at h
  dsimp only at h
  split at h
  · cases h
  · obtain ⟨v, -, he⟩ := Option.map_eq_some_iff.mp h
    cases he
    have hm : (mantissa cs).2 <:+ cs := ⟨_, mantissa_append cs⟩
    exact List.IsSuffix.trans ⟨_, exponent_append _⟩ hm

theorem suffix_of_string? {t : Token} (h : string? cs = some (t, rest)) : rest <:+ cs := by
  unfold string? at h
  split at h
  · obtain ⟨⟨s, b⟩, hs, he⟩ := Option.map_eq_some_iff.mp h
    cases he
    exact (suffix_of_stringTail hs).trans (List.suffix_cons _ _)
  · obtain ⟨⟨s, b⟩, hs, he⟩ := Option.map_eq_some_iff.mp h
    cases he
    exact (suffix_of_stringTail hs).trans (List.suffix_cons _ _)
  · cases h

theorem suffix_of_reference? {t : Token} (h : reference? cs = some (t, rest)) : rest <:+ cs := by
  unfold reference? at h
  split at h
  · obtain ⟨⟨inner, b⟩, hc, he⟩ := Option.map_eq_some_iff.mp h
    cases he
    rw [Text.eq_of_cutAt hc]
    exact (List.suffix_append _ _).trans ((List.suffix_cons _ _).trans (List.suffix_cons _ _))
  · cases h

/-- **What follows a lexeme is an end of the text.** -/
theorem suffix_of_lexeme? {ts : List Token} (h : lexeme? cs = some (ts, rest)) : rest <:+ cs := by
  unfold lexeme? at h
  split at h
  · rename_i t' rest' hs
    cases h
    simp only [single?, Option.orElse_eq_orElse, Option.orElse_eq_or, Option.or_eq_some_iff] at hs
    obtain hr | ⟨-, hq | ⟨-, hn | ⟨-, hw | ⟨-, hb⟩⟩⟩⟩ := hs
    · exact suffix_of_reference? hr
    · exact suffix_of_string? hq
    · exact suffix_of_number? hn
    · cases cs with
      | nil => cases hw
      | cons c cs =>
        rw [word?] at hw
        split at hw
        · cases hw
          exact (List.dropWhile_suffix _).trans (List.suffix_cons _ _)
        · cases hw
    · unfold bracket? at hb
      split at hb
      · cases hb
        exact List.suffix_cons _ _
      · cases hb
        exact List.suffix_cons _ _
      · cases hb
  · obtain ⟨us, -, he⟩ := Option.map_eq_some_iff.mp h
    cases he
    exact List.dropWhile_suffix _

/-! ## The tokens of a text -/

/-- **What the tokens of a text are**: blanks stand between lexemes, and the tokens are those of
the lexemes. -/
inductive Scans : List Char → List Token → Prop
  | nil : Scans [] []
  | blank {c cs ts} (hc : Text.isBlank c = true) (h : Scans cs ts) : Scans (c :: cs) ts
  | lexeme {cs ts rest us} (hl : lexeme? cs = some (ts, rest)) (h : Scans rest us) :
    Scans cs (ts ++ us)

/-- **Texts that are put together keep their tokens** where the second stands apart. -/
theorem Scans.append {cs ds : List Char} {ts us : List Token} (h : Scans cs ts)
    (hd : Scans ds us) (ha : isApart ds = true) : Scans (cs ++ ds) (ts ++ us) := by
  induction h with
  | nil => exact hd
  | blank hc _ ih => exact .blank hc ih
  | lexeme hl _ ih =>
    rw [List.append_assoc]
    exact .lexeme (lexeme?_append hl ha) ih

theorem tokensOf_blank (hc : Text.isBlank c = true) (total : Nat) (cs : List Char) :
    tokensOf total (c :: cs) = tokensOf total cs := by
  have ht : Text.trimStart (c :: cs) = Text.trimStart cs := List.dropWhile_cons_of_pos hc
  rw [tokensOf, ht, ← tokensOf]

/-- A text that begins with a lexeme has its tokens and those of the rest. -/
theorem tokensOf_lexeme {ts : List Token} {rest : List Char}
    (hl : lexeme? cs = some (ts, rest)) (total : Nat) :
    tokensOf total cs = (tokensOf total rest).map (ts ++ ·) := by
  have ht : Text.trimStart cs = cs := by
    cases cs with
    | nil => rfl
    | cons c cs =>
      refine List.dropWhile_cons_of_neg fun hc => ?_
      rw [lexeme?_blank hc] at hl
      cases hl
  rw [tokensOf]
  split
  · rename_i hs
    rw [← ht, hs] at hl
    cases hl
  · rename_i c tail hs
    rw [← ht, hs] at hl
    split
    · rename_i hl'
      rw [hl] at hl'
      cases hl'
      rfl
    · rename_i hl'
      rw [hl] at hl'
      cases hl'

/-- **The lexer finds the tokens that a text has**, and reports a fault of every other text. -/
theorem tokensOf_eq_ok_iff {total : Nat} {ts : List Token} :
    tokensOf total cs = .ok ts ↔ Scans cs ts := by
  constructor
  · induction hn : cs.length using Nat.strongRecOn generalizing cs ts with
    | ind n ih =>
      intro h
      cases cs with
      | nil =>
        rw [tokensOf] at h
        cases h
        exact .nil
      | cons c cs =>
        cases hc : Text.isBlank c with
        | true =>
          rw [tokensOf_blank hc] at h
          exact .blank hc (ih cs.length (hn ▸ Nat.lt_succ_self _) rfl h)
        | false =>
          have ht : Text.trimStart (c :: cs) = c :: cs :=
            List.dropWhile_cons_of_neg (by rw [hc]; exact nofun)
          cases hl : lexeme? (c :: cs) with
          | none =>
            rw [tokensOf] at h
            split at h
            · rename_i hs
              rw [ht] at hs
              cases hs
            · rename_i hs
              rw [ht] at hs
              cases hs
              split at h
              · rename_i hl'
                rw [hl] at hl'
                cases hl'
              · cases h
          | some a =>
            obtain ⟨us, rest⟩ := a
            rw [tokensOf_lexeme hl] at h
            cases hr : tokensOf total rest with
            | error fault =>
              rw [hr] at h
              cases h
            | ok vs =>
              rw [hr] at h
              cases h
              exact .lexeme hl (ih rest.length (hn ▸ length_of_lexeme? hl) rfl hr)
  · intro h
    induction h with
    | nil =>
      rw [tokensOf]
      rfl
    | blank hc _ ih => rw [tokensOf_blank hc, ih]
    | lexeme hl _ ih =>
      rw [tokensOf_lexeme hl, ih]
      rfl

theorem tokens_eq_ok_iff {source : String} {ts : List Token} :
    tokens source = .ok ts ↔ Scans source.toList ts :=
  tokensOf_eq_ok_iff

end Lexer

/-- A text is a phrase with some tree if its tokens are. -/
def Phrase.Spelled (q : Phrase) (text : List Char) (e : Expr) : Prop :=
  ∃ ts, Lexer.Scans text ts ∧ q.Derives ts e

/-- **A text is read as a tree** if and only if it is a phrase with that tree. -/
theorem Expr.parse_eq_ok_iff {source : String} {e : Expr} :
    parse source = .ok e ↔ Phrase.disjunction.Spelled source.toList e := by
  constructor
  · intro h
    unfold parse at h
    split at h
    · cases h
    · rename_i ts hts
      split at h
      · cases h
      · rename_i hp
        cases h
        exact ⟨ts, Lexer.tokens_eq_ok_iff.mp hts, Parser.derives_of_parse hp⟩
  · rintro ⟨ts, hs, hd⟩
    rw [parse, Lexer.tokens_eq_ok_iff.mpr hs]
    dsimp only
    rw [Parser.parse_of_derives hd]

end Playbook
