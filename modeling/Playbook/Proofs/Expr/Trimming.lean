import Playbook.Proofs.Expr.Depth
import Playbook.Proofs.Text.Search

/-!
# The ends of an expression

A lexeme that is found in front of some more text is found without that text too, if it ends before
it. Two kinds of characters are never the last of a lexeme: a blank, and a closing brace unless
two of them close a reference. So blanks around an expression do not matter
(`Expr.parse_trimmed`, `Scope.isBound_trimmed`, `Scope.evaluate_trimmed`), and no expression
ends with a brace but one that has `}}` in it (`Expr.closing_infix_of_parse`).
-/

namespace Playbook

namespace Lexer

variable {c d : Char} {cs rest : List Char} {ts : List Token} {t : Token}

/-- A reference begins with its braces and has two that close it. -/
theorem eq_of_reference? (h : reference? cs = some (t, rest)) :
    ∃ inner, cs = Template.opening ++ inner ++ Template.closing ++ rest
      ∧ ¬ Template.closing <:+: inner ++ ['\x7d']
      ∧ t = .reference (String.ofList (Text.trim inner)) := by
  unfold reference? at h
  split at h
  · obtain ⟨⟨inner, b⟩, hc, he⟩ := Option.map_eq_some_iff.mp h
    cases he
    obtain ⟨rfl, hn⟩ := (Text.cutAt_eq_some_iff (by exact nofun)).mp hc
    exact ⟨inner, by simp [Template.opening, Template.closing], hn, rfl⟩
  · cases h

/-! ## A character behind all lexemes -/

/-- A character that no lexeme but a reference ends with: a blank or a closing brace. -/
def isLast (d : Char) : Bool :=
  Text.isBlank d || d == '\x7d'

/-- Where the characters are that a word goes on with. -/
theorem toNat_of_isWordChar (h : isWordChar c = true) : 36 ≤ c.toNat ∧ c.toNat ≤ 122 := by
  by_cases hc : c.isDigit = true ∨ Path.isNameStart c = true
  · exact toNat_of_isDigit hc
  · obtain ⟨hd, hs⟩ := not_or.mp hc
    have hrest : c = '.' ∨ c = '[' ∨ c = ']' := by
      simp only [isWordChar, Path.isNameChar, Char.isAlphanum, Path.isNameStart, Bool.or_eq_true,
        beq_iff_eq] at h hs
      tauto
    obtain rfl | rfl | rfl := hrest <;> decide

/-- Words and operators have no blanks in them. -/
theorem isApart_of_isBlank (h : Text.isBlank d = true) : isApart [d] = true := by
  have hword : isWordChar d = false := by
    rw [Bool.eq_false_iff]
    intro hw
    have hn := toNat_of_isWordChar hw
    simp only [Text.isBlank, Bool.or_eq_true, Bool.and_eq_true, decide_eq_true_eq,
      beq_iff_eq] at h
    omega
  have hop : isOperatorChar d = false := by
    rw [Bool.eq_false_iff]
    intro ho
    have hall : ("=!<>&|+-*/%~^".toList.all fun c => !Text.isBlank c) = true := by decide
    have hblank := List.all_eq_true.mp hall d (List.contains_iff_mem.mp ho)
    rw [h] at hblank
    cases hblank
  rw [isApart, hword, hop]
  rfl

/-- What such a character is not. -/
theorem not_of_isLast (h : isLast d = true) :
    isApart [d] = true ∧ d ≠ '\'' ∧ d ≠ '"' ∧ lexeme? [d] = none := by
  rw [isLast, Bool.or_eq_true, beq_iff_eq] at h
  obtain h | rfl := h
  · refine ⟨isApart_of_isBlank h, ?_, ?_, lexeme?_blank h []⟩
    · rintro rfl
      cases h
    · rintro rfl
      cases h
  · decide

/-! ## Where a text is shorter by its last character -/

/-- A string that is closed in front of the last character is closed without it. -/
theorem stringTail_append_singleton {quote : Char} {s : List Char} (hq : quote ≠ '\\')
    (hd : d ≠ quote) (h : stringTail quote (cs ++ [d]) = some (s, rest)) :
    ∃ r, rest = r ++ [d] ∧ stringTail quote cs = some (s, r) := by
  induction cs using stringTail.induct quote generalizing s with
  | case1 =>
    rw [List.nil_append, stringTail, if_neg hd] at h
    · split at h
      · cases h
      · cases h
    · intro c us _ hus
      cases hus
  | case2 c tail ih =>
    obtain ⟨⟨s', b⟩, hb, he⟩ := Option.map_eq_some_iff.mp h
    cases he
    obtain ⟨r, rfl, hr⟩ := ih hb
    refine ⟨r, rfl, ?_⟩
    show (stringTail quote tail).map _ = _
    rw [hr]
    rfl
  | case3 tail _ =>
    rw [List.cons_append, stringTail_quote hq] at h
    cases h
    exact ⟨tail, rfl, stringTail_quote hq tail⟩
  | case4 tail hne _ =>
    cases tail with
    | nil => cases h
    | cons c tail => exact (hne c tail rfl rfl).elim
  | case5 c tail _ hc hb ih =>
    rw [List.cons_append, stringTail_plain hc hb] at h
    obtain ⟨⟨s', b⟩, ht, he⟩ := Option.map_eq_some_iff.mp h
    cases he
    obtain ⟨r, rfl, hr⟩ := ih ht
    refine ⟨r, rfl, ?_⟩
    rw [stringTail_plain hc hb, hr]
    rfl

theorem string?_append_singleton (hc : c = '\'' ∨ c = '"') (hq : d ≠ '\'') (hq' : d ≠ '"')
    (h : string? (c :: (cs ++ [d])) = some (t, rest)) :
    ∃ r, rest = r ++ [d] ∧ string? (c :: cs) = some (t, r) := by
  have hstring : ∀ us, string? (c :: us)
      = (stringTail c us).map fun p => (.text (String.ofList p.1), p.2) := by
    obtain rfl | rfl := hc <;> exact fun _ => rfl
  have hends : c ≠ '\\' ∧ d ≠ c := by
    obtain rfl | rfl := hc
    · exact ⟨by decide, hq⟩
    · exact ⟨by decide, hq'⟩
  rw [hstring] at h ⊢
  obtain ⟨⟨s, b⟩, hs, he⟩ := Option.map_eq_some_iff.mp h
  cases he
  obtain ⟨r, rfl, hr⟩ := stringTail_append_singleton hends.1 hends.2 hs
  exact ⟨r, rfl, by rw [hr]; rfl⟩

/-- So is a reference, if its closing braces are in front of the last character. -/
theorem reference?_append_singleton (hc : d = '\x7d' → ¬ Template.closing <:+: cs ++ [d])
    (h : reference? (cs ++ [d]) = some (t, rest)) :
    ∃ r, rest = r ++ [d] ∧ reference? cs = some (t, r) := by
  obtain ⟨inner, he, hn, rfl⟩ := eq_of_reference? h
  obtain rfl | ⟨r, e, rfl⟩ := List.eq_nil_or_concat rest
  · -- The last character would be the second brace.
    have hlast : d = '\x7d' := by
      have hl := congrArg List.getLast? he
      rw [List.append_nil, List.getLast?_concat] at hl
      simpa [Template.closing] using hl
    exact (hc hlast (he ▸ ⟨Template.opening ++ inner, [], rfl⟩)).elim
  · rw [List.concat_eq_append] at he ⊢
    rw [← List.append_assoc] at he
    obtain ⟨rfl, hd⟩ := List.append_inj' he rfl
    refine ⟨r, by rw [hd], ?_⟩
    have hcut : Text.cutAt Template.closing (inner ++ Template.closing ++ r) = some (inner, r) :=
      (Text.cutAt_eq_some_iff (by decide)).mpr ⟨rfl, hn⟩
    rw [List.append_assoc Template.opening, List.append_assoc Template.opening]
    show (Text.cutAt Template.closing (inner ++ Template.closing ++ r)).map _ = _
    rw [hcut]
    rfl

/-- **A lexeme that ends in front of the last character** is found without that character. -/
theorem lexeme?_append_singleton (hd : isLast d = true)
    (hc : d = '\x7d' → ¬ Template.closing <:+: cs ++ [d])
    (h : lexeme? (cs ++ [d]) = some (ts, rest)) :
    ∃ r, rest = r ++ [d] ∧ lexeme? cs = some (ts, r) := by
  obtain ⟨hapart, hq, hq', hnone⟩ := not_of_isLast hd
  cases cs with
  | nil => rw [List.nil_append, hnone] at h; cases h
  | cons c cs =>
    rw [List.cons_append] at h
    have hmap : ∀ {α : Type} {a b : Option (α × List Char)} {x : α},
        a = b.map (fun (y, r) => (y, r ++ [d])) → a = some (x, rest) →
          ∃ r, rest = r ++ [d] ∧ b = some (x, r) := by
      rintro α a b x rfl hx
      obtain ⟨⟨y, r⟩, rfl, he⟩ := Option.map_eq_some_iff.mp hx
      cases he
      exact ⟨r, rfl, rfl⟩
    have hsingle : ∀ {t}, single? (c :: (cs ++ [d])) = some (t, rest) →
        ∃ r, rest = r ++ [d] ∧ single? (c :: cs) = some (t, r) := by
      intro t h
      by_cases hdigit : c.isDigit = true ∨ c = '.'
      · rw [single?_digit hdigit] at h ⊢
        refine hmap ?_ h
        rw [← List.cons_append]
        exact number?_append hapart
      by_cases hstart : Path.isNameStart c = true
      · rw [single?_nameStart hstart] at h ⊢
        exact hmap (word?_append hapart) h
      by_cases hb : c = '\x7b'
      · subst hb
        rw [single?_brace] at h ⊢
        exact reference?_append_singleton hc h
      by_cases hquote : c = '\'' ∨ c = '"'
      · rw [single?_quote hquote] at h ⊢
        exact string?_append_singleton hquote hq hq' h
      · rw [single?_other hdigit hstart hb hquote] at h ⊢
        exact hmap bracket?_append h
    unfold lexeme? at h
    split at h
    · rename_i t r hs
      cases h
      obtain ⟨r, rfl, hr⟩ := hsingle hs
      exact ⟨r, rfl, by rw [lexeme?, hr]⟩
    · have hop := isOperatorChar_of_operators? h
      rw [lexeme?, single?_operator hop]
      refine hmap ?_ h
      rw [← List.cons_append]
      exact operators?_append hapart

/-- **A last character that no lexeme ends with** is a blank, and the tokens are those of the text
in front of it. The induction is on the lexemes that are found. -/
theorem Scans.of_append_singleton (hd : isLast d = true)
    (hc : d = '\x7d' → ¬ Template.closing <:+: cs ++ [d]) (h : Scans (cs ++ [d]) ts) :
    Text.isBlank d = true ∧ Scans cs ts := by
  generalize hcs : cs ++ [d] = us at h
  induction h generalizing cs with
  | nil => cases (List.append_eq_nil_iff.mp hcs).2
  | blank hb h ih =>
    cases cs with
    | nil =>
      cases hcs
      exact ⟨hb, h⟩
    | cons c cs =>
      cases hcs
      obtain ⟨hdb, hs⟩ := ih (fun hd hi => hc hd (List.infix_cons hi)) rfl
      exact ⟨hdb, .blank hb hs⟩
  | lexeme hl h ih =>
    subst hcs
    obtain ⟨r, rfl, hr⟩ := lexeme?_append_singleton hd hc hl
    have hsuffix := suffix_of_lexeme? hl
    obtain ⟨hdb, hs⟩ := ih (fun hd hi => hc hd (hi.trans hsuffix.isInfix)) rfl
    exact ⟨hdb, .lexeme hr hs⟩

/-- Blanks behind a text do not matter. -/
theorem Scans.append_blanks_iff {tail : List Char} (ht : ∀ c ∈ tail, Text.isBlank c = true) :
    Scans (cs ++ tail) ts ↔ Scans cs ts := by
  induction tail generalizing cs with
  | nil => rw [List.append_nil]
  | cons d tail ih =>
    obtain ⟨hd, ht⟩ := List.forall_mem_cons.mp ht
    rw [List.append_cons, ih ht]
    constructor
    · refine fun h => (h.of_append_singleton ?_ ?_).2
      · rw [isLast, hd]
        rfl
      · rintro rfl
        cases hd
    · intro h
      rw [← List.append_nil ts]
      exact h.append (.blank hd .nil) (isApart_of_isBlank hd)

/-- Nor do those in front. -/
theorem Scans.blanks_append_iff {lead : List Char} (hl : ∀ c ∈ lead, Text.isBlank c = true) :
    Scans (lead ++ cs) ts ↔ Scans cs ts := by
  induction lead with
  | nil => rfl
  | cons c lead ih =>
    obtain ⟨hc, hl⟩ := List.forall_mem_cons.mp hl
    rw [← ih hl]
    constructor
    · intro h
      generalize hus : c :: lead ++ cs = us at h
      cases h with
      | nil => cases hus
      | blank _ h =>
        cases hus
        exact h
      | lexeme hx =>
        subst hus
        rw [List.cons_append, lexeme?_blank hc] at hx
        cases hx
    · exact .blank hc

/-- **A text has the tokens that it has without the blanks around it.** -/
theorem scans_trim : Scans (Text.trim cs) ts ↔ Scans cs ts := by
  obtain ⟨lead, tail, he, hl, ht⟩ := Text.exists_trim cs
  conv_rhs => rw [he, Scans.append_blanks_iff ht, Scans.blanks_append_iff hl]

end Lexer

/-! ## Trimmed expressions -/

variable {source : String} {e : Expr}

/-- **Blanks around an expression do not matter.** -/
theorem Expr.parse_trimmed : parse (Text.trimmed source) = .ok e ↔ parse source = .ok e := by
  rw [parse_eq_ok_iff, parse_eq_ok_iff, Text.trimmed, String.toList_ofList]
  exact exists_congr fun ts => and_congr_left fun _ => Lexer.scans_trim

/-- **An expression that ends with a brace** has two of them in a row. -/
theorem Expr.closing_infix_of_parse {cs : List Char} (hs : source.toList = cs ++ ['\x7d'])
    (h : parse source = .ok e) : Template.closing <:+: source.toList := by
  obtain ⟨ts, hscans, -⟩ := parse_eq_ok_iff.mp h
  rw [hs] at hscans ⊢
  by_contra hc
  exact nomatch (hscans.of_append_singleton rfl fun _ => hc).1

namespace Scope

variable (scope : Scope)

theorem isBound_trimmed : scope.isBound (Text.trimmed source) = scope.isBound source := by
  cases hp : Expr.parse source with
  | ok e => rw [scope.isBound_eq hp, scope.isBound_eq (Expr.parse_trimmed.mpr hp)]
  | error fault =>
    rw [(scope.evaluate_of_error hp).2]
    cases ht : Expr.parse (Text.trimmed source) with
    | ok e => exact nomatch hp.symm.trans (Expr.parse_trimmed.mp ht)
    | error fault' => exact (scope.evaluate_of_error ht).2

theorem evaluate_trimmed {e : Expr} (h : Expr.parse source = .ok e) :
    scope.evaluate (Text.trimmed source) = scope.evaluate source := by
  rw [scope.evaluate_eq h, scope.evaluate_eq (Expr.parse_trimmed.mpr h)]

end Scope

end Playbook
