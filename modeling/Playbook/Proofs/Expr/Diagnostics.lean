import Playbook.Proofs.Expr.Trimming

/-!
# Where a text is no row of tokens

The lexer goes from lexeme to lexeme and stops at the first place where no lexeme fits
(`Lexer.tokensOf_eq_error_iff`). What is in front of that place is made up of blanks and of whole
tokens, and it has the same tokens if the text ends there (`Lexer.ScansBefore.scans`). The
report tells what stands at the place and, if no token begins with it, how many characters
are in front of it (`Lexer.place_of_tokens_error`).

That the text can be cut at the place needs that a lexeme is told by its own characters
and the one behind it. What comes later may be missing (`Lexer.lexeme?_of_append`).
-/

namespace Playbook.Lexer

variable {p : Char → Bool} {c : Char} {cs r rest : List Char} {ts us : List Token} {t : Token}

/-! ## Lexemes of a text that ends early -/

/-- What is taken and what is left of a text that ends early, but not within what is taken. -/
theorem takeWhile_dropWhile_of_append (h : (cs ++ rest).dropWhile p = r ++ rest) :
    cs.takeWhile p = (cs ++ rest).takeWhile p ∧ cs.dropWhile p = r := by
  have hsplit := List.takeWhile_append_dropWhile (p := p) (l := cs ++ rest)
  rw [h, ← List.append_assoc] at hsplit
  have hall : ∀ x ∈ (cs ++ rest).takeWhile p, p x = true := fun x hx => List.mem_takeWhile_imp hx
  have hhead : ∀ x us, r = x :: us → p x = false := by
    rintro x us rfl
    have hnot := List.head?_dropWhile_not p (cs ++ rest)
    rw [h] at hnot
    simpa using hnot
  generalize (cs ++ rest).takeWhile p = whole at hsplit hall ⊢
  obtain rfl := List.append_cancel_right hsplit
  rw [takeWhile_append_of_head hhead, dropWhile_append_of_head hhead,
    List.takeWhile_eq_self_iff.mpr hall, List.dropWhile_eq_nil_iff.mpr hall]
  exact ⟨rfl, rfl⟩

theorem takeWhile_eq_nil_of_append (h : (cs ++ rest).takeWhile p = []) : cs.takeWhile p = [] := by
  cases cs with
  | nil => rfl
  | cons c cs =>
    rw [List.cons_append, List.takeWhile_cons] at h
    rw [List.takeWhile_cons]
    split at h
    · cases h
    · exact if_neg ‹_›

theorem mantissa_of_append (h : (mantissa (cs ++ rest)).2 = r ++ rest)
    (hm : (mantissa (cs ++ rest)).1 ≠ []) : mantissa cs = ((mantissa (cs ++ rest)).1, r) := by
  by_cases hp : ∃ u, (cs ++ rest).dropWhile Char.isDigit = '.' :: u
  · obtain ⟨u, hu⟩ := hp
    have hfull := mantissa_of_point hu
    split at hfull
    · rw [hfull] at hm
      exact (hm rfl).elim
    · rename_i hne
      rw [hfull] at h ⊢
      dsimp only at h ⊢
      -- The point is in the text that ends early, since its fraction is.
      obtain ⟨v, rfl⟩ : ∃ v, u = v ++ rest :=
        ⟨u.takeWhile Char.isDigit ++ r, by
          rw [List.append_assoc, ← h, List.takeWhile_append_dropWhile]⟩
      rw [← List.cons_append] at hu
      obtain ⟨hwhole, hpoint⟩ := takeWhile_dropWhile_of_append hu
      obtain ⟨hfraction, hr⟩ := takeWhile_dropWhile_of_append h
      rw [mantissa_of_point hpoint, hwhole, hfraction, hr, if_neg hne]
  · have hn : ∀ u, (cs ++ rest).dropWhile Char.isDigit ≠ '.' :: u := fun u hu => hp ⟨u, hu⟩
    rw [mantissa_of_no_point hn] at h ⊢
    obtain ⟨hwhole, hr⟩ := takeWhile_dropWhile_of_append h
    rw [mantissa_of_no_point, hwhole, hr]
    intro u hu
    dsimp only at h
    rw [← hr, hu] at h
    exact hn _ h

/-- What the digits behind the letter of an exponent decide. -/
theorem exponent_of_digits {e : Char} (he : e = 'e' ∨ e = 'E')
    (hd : (signPart cs).2.takeWhile Char.isDigit ≠ []) :
    exponent (e :: cs) = (e :: ((signPart cs).1 ++ (signPart cs).2.takeWhile Char.isDigit),
      (signPart cs).2.dropWhile Char.isDigit) :=
  if_pos <| by
    rw [Bool.and_eq_true, Bool.or_eq_true, decide_eq_true_eq, decide_eq_true_eq,
      Bool.not_eq_true', List.isEmpty_eq_false_iff]
    exact ⟨he, hd⟩

theorem exponent_of_no_digits {e : Char}
    (h : ¬ ((e = 'e' ∨ e = 'E') ∧ (signPart cs).2.takeWhile Char.isDigit ≠ [])) :
    exponent (e :: cs) = ([], e :: cs) :=
  if_neg <| by
    rw [Bool.and_eq_true, Bool.or_eq_true, decide_eq_true_eq, decide_eq_true_eq,
      Bool.not_eq_true', List.isEmpty_eq_false_iff]
    exact h

theorem exponent_of_append (h : (exponent (cs ++ rest)).2 = r ++ rest) :
    exponent cs = ((exponent (cs ++ rest)).1, r) := by
  have hboth := exponent_append (cs ++ rest)
  rw [h, ← List.append_assoc] at hboth
  have hboth := List.append_cancel_right hboth
  cases cs with
  | nil =>
    obtain ⟨he, rfl⟩ := List.append_eq_nil_iff.mp hboth
    rw [he]
    rfl
  | cons e cs =>
    rw [List.cons_append] at h hboth ⊢
    by_cases hd : (e = 'e' ∨ e = 'E') ∧ (signPart (cs ++ rest)).2.takeWhile Char.isDigit ≠ []
    · rw [exponent_of_digits hd.1 hd.2] at h hboth ⊢
      -- A digit of the exponent is in the text that ends early, and so is what is in front of it.
      have hcs : cs ≠ [] := by
        rintro rfl
        exact hd.2 (List.append_eq_nil_iff.mp
          (List.append_eq_nil_iff.mp (List.cons.inj hboth).2).1).2
      rw [signPart_append_of_ne_nil hcs] at h hd ⊢
      obtain ⟨hdigits, hr⟩ := takeWhile_dropWhile_of_append h
      rw [← hdigits] at hd ⊢
      rw [exponent_of_digits hd.1 hd.2, hr]
    · rw [exponent_of_no_digits hd] at hboth ⊢
      obtain rfl : r = e :: cs := hboth
      refine exponent_of_no_digits ?_
      rintro ⟨he, hne⟩
      refine hd ⟨he, fun hnil => hne ?_⟩
      cases cs with
      | nil => rfl
      | cons c cs =>
        rw [signPart_append_of_ne_nil (by exact nofun)] at hnil
        exact takeWhile_eq_nil_of_append hnil

theorem number?_of_append (h : number? (cs ++ rest) = some (t, r ++ rest)) :
    number? cs = some (t, r) := by
  unfold number? at h ⊢
  dsimp only at h ⊢
  split at h
  · cases h
  · rename_i hm
    obtain ⟨v, hv, he⟩ := Option.map_eq_some_iff.mp h
    obtain ⟨ht, hr⟩ := Prod.mk.inj he
    obtain ⟨u, hu⟩ : ∃ u, (mantissa (cs ++ rest)).2 = u ++ rest := by
      rw [← exponent_append (mantissa (cs ++ rest)).2, hr, ← List.append_assoc]
      exact ⟨_, rfl⟩
    rw [hu] at hr hv
    rw [mantissa_of_append hu (by simpa using hm), if_neg hm, exponent_of_append hr, hv, ← ht]
    rfl

theorem stringTail_of_append {quote : Char} (hq : quote ≠ '\\') {s : List Char}
    (h : stringTail quote (cs ++ rest) = some (s, r ++ rest)) :
    stringTail quote cs = some (s, r) := by
  -- The closing quote is in front of what follows the string.
  have hlength : ∀ {us s : List Char}, us.length ≤ rest.length →
      stringTail quote us ≠ some (s, r ++ rest) := by
    intro us s hus h
    have hlt := length_of_stringTail h
    rw [List.length_append] at hlt
    omega
  induction cs using stringTail.induct quote generalizing s with
  | case1 => exact (hlength le_rfl h).elim
  | case2 c tail ih =>
    obtain ⟨⟨s', b⟩, hb, he⟩ := Option.map_eq_some_iff.mp h
    cases he
    show (stringTail quote tail).map _ = _
    rw [ih hb]
    rfl
  | case3 tail _ =>
    rw [List.cons_append, stringTail_quote hq] at h
    obtain ⟨rfl, he⟩ := Prod.mk.inj (Option.some.inj h)
    rw [stringTail_quote hq, List.append_cancel_right he]
  | case4 tail hne _ =>
    cases tail with
    | nil =>
      cases rest with
      | nil => simp [stringTail, hq.symm] at h
      | cons c rest =>
        obtain ⟨⟨s', b⟩, hb, he⟩ := Option.map_eq_some_iff.mp h
        cases he
        exact (hlength (Nat.le_succ _) hb).elim
    | cons c tail => exact (hne c tail rfl rfl).elim
  | case5 c tail _ hc hb ih =>
    rw [List.cons_append, stringTail_plain hc hb] at h
    obtain ⟨⟨s', b⟩, ht, he⟩ := Option.map_eq_some_iff.mp h
    cases he
    rw [stringTail_plain hc hb, ih ht]
    rfl

theorem string?_of_append (h : string? (c :: (cs ++ rest)) = some (t, r ++ rest)) :
    string? (c :: cs) = some (t, r) := by
  unfold string? at h
  split at h
  · rename_i he
    cases he
    obtain ⟨⟨s, b⟩, hs, he⟩ := Option.map_eq_some_iff.mp h
    cases he
    rw [string?, stringTail_of_append (by decide) hs]
    rfl
  · rename_i he
    cases he
    obtain ⟨⟨s, b⟩, hs, he⟩ := Option.map_eq_some_iff.mp h
    cases he
    rw [string?, stringTail_of_append (by decide) hs]
    rfl
  · cases h

theorem reference?_of_append (h : reference? (cs ++ rest) = some (t, r ++ rest)) :
    reference? cs = some (t, r) := by
  obtain ⟨inner, he, hn, rfl⟩ := eq_of_reference? h
  rw [← List.append_assoc] at he
  obtain rfl := List.append_cancel_right he
  have hcut : Text.cutAt Template.closing (inner ++ Template.closing ++ r) = some (inner, r) :=
    (Text.cutAt_eq_some_iff (by decide)).mpr ⟨rfl, hn⟩
  rw [List.append_assoc Template.opening, List.append_assoc Template.opening]
  show (Text.cutAt Template.closing (inner ++ Template.closing ++ r)).map _ = _
  rw [hcut]
  rfl

theorem word?_of_append (h : word? (c :: (cs ++ rest)) = some (t, r ++ rest)) :
    word? (c :: cs) = some (t, r) := by
  rw [word?] at h ⊢
  split at h
  · rename_i hc
    obtain ⟨rfl, hr⟩ := Prod.mk.inj (Option.some.inj h)
    obtain ⟨hword, hrest⟩ := takeWhile_dropWhile_of_append hr
    rw [if_pos hc, hword, hrest]
  · cases h

theorem operators?_of_append (h : operators? (cs ++ rest) = some (ts, r ++ rest)) :
    operators? cs = some (ts, r) := by
  obtain ⟨us, hrun, he⟩ := Option.map_eq_some_iff.mp h
  obtain ⟨rfl, hr⟩ := Prod.mk.inj he
  obtain ⟨htake, hdrop⟩ := takeWhile_dropWhile_of_append hr
  rw [operators?, htake, hdrop, hrun]
  rfl

theorem single?_of_append (h : single? (c :: (cs ++ rest)) = some (t, r ++ rest)) :
    single? (c :: cs) = some (t, r) := by
  by_cases hd : c.isDigit = true ∨ c = '.'
  · rw [single?_digit hd] at h ⊢
    exact number?_of_append h
  by_cases hn : Path.isNameStart c = true
  · rw [single?_nameStart hn] at h ⊢
    exact word?_of_append h
  by_cases hb : c = '\x7b'
  · subst hb
    rw [single?_brace] at h ⊢
    exact reference?_of_append h
  by_cases hq : c = '\'' ∨ c = '"'
  · rw [single?_quote hq] at h ⊢
    exact string?_of_append h
  · rw [single?_other hd hn hb hq] at h ⊢
    rw [bracket?_append] at h
    obtain ⟨⟨t', r'⟩, hb, he⟩ := Option.map_eq_some_iff.mp h
    obtain ⟨rfl, hr⟩ := Prod.mk.inj he
    rw [hb, List.append_cancel_right hr]

/-- **A lexeme is found in a text that ends early**, if the text does not end within it. -/
theorem lexeme?_of_append (h : lexeme? (cs ++ rest) = some (ts, r ++ rest)) :
    lexeme? cs = some (ts, r) := by
  cases cs with
  | nil =>
    have hlt := length_of_lexeme? h
    rw [List.nil_append, List.length_append] at hlt
    omega
  | cons c cs =>
    unfold lexeme? at h
    split at h
    · rename_i t rest' hs
      obtain ⟨rfl, rfl⟩ := Prod.mk.inj (Option.some.inj h)
      rw [lexeme?, single?_of_append hs]
    · rw [lexeme?, single?_operator (isOperatorChar_of_operators? h)]
      exact operators?_of_append h

/-! ## The tokens in front of a place -/

/-- **What the tokens in front of a place are**: blanks stand between lexemes that are found with
all the rest of the text behind them. -/
inductive ScansBefore (rest : List Char) : List Char → List Token → Prop
  | nil : ScansBefore rest [] []
  | blank {c : Char} {cs : List Char} {ts : List Token} (hc : Text.isBlank c = true)
    (h : ScansBefore rest cs ts) : ScansBefore rest (c :: cs) ts
  | lexeme {cs r : List Char} {ts us : List Token}
    (hl : lexeme? (cs ++ rest) = some (ts, r ++ rest))
    (h : ScansBefore rest r us) : ScansBefore rest cs (ts ++ us)

/-- **They are the tokens of the text in front of the place** alone. So none of them needs what
stands there. -/
theorem ScansBefore.scans (h : ScansBefore rest cs ts) : Scans cs ts := by
  induction h with
  | nil => exact .nil
  | blank hc _ ih => exact .blank hc ih
  | lexeme hl _ ih => exact .lexeme (lexeme?_of_append hl) ih

/-- **A place where the lexer stops**: there are only tokens and blanks in front of it, and what
stands there is neither a blank nor the beginning of a lexeme. -/
structure StopsAt (cs before : List Char) (c : Char) (behind : List Char) : Prop where
  split : cs = before ++ c :: behind
  scans : ∃ ts, ScansBefore (c :: behind) before ts
  not_blank : Text.isBlank c = false
  nothing_fits : lexeme? (c :: behind) = none

variable {before before' behind behind' : List Char} {c' : Char}

/-- Between two places where the lexer stops there is no text. -/
theorem ScansBefore.eq_of_stopsAt (h : ScansBefore (c :: behind) before ts)
    (hc : Text.isBlank c = false) (hl : lexeme? (c :: behind) = none)
    (h' : StopsAt (before ++ c :: behind) before' c' behind') : before = before' := by
  obtain ⟨he, ⟨ts', hs'⟩, hc', hl'⟩ := h'
  induction h generalizing before' ts' with
  | nil =>
    cases hs' with
    | nil => rfl
    | blank hb =>
      cases he
      rw [hb] at hc
      cases hc
    | lexeme hlex =>
      rw [← he, List.nil_append, hl] at hlex
      cases hlex
  | @blank d cs ts hb _ ih =>
    cases hs' with
    | nil =>
      cases he
      rw [hb] at hc'
      cases hc'
    | blank hb' hs' =>
      obtain ⟨rfl, htail⟩ := List.cons.inj he
      exact congrArg _ (ih htail _ hs')
    | lexeme hlex =>
      rw [← he, List.cons_append, lexeme?_blank hb] at hlex
      cases hlex
  | @lexeme cs r ts us hlex _ ih =>
    cases hs' with
    | nil =>
      rw [he, List.nil_append, hl'] at hlex
      cases hlex
    | blank hb =>
      rw [he, List.cons_append, lexeme?_blank hb] at hlex
      cases hlex
    | lexeme hlex' hs' =>
      rw [← he, hlex] at hlex'
      obtain ⟨-, hr⟩ := Prod.mk.inj (Option.some.inj hlex')
      obtain rfl := ih hr _ hs'
      have hrest := List.append_cancel_left hr
      rw [hrest] at he
      exact List.append_cancel_right he

/-- **The lexer stops at one place of a text only.** -/
theorem StopsAt.unique (h : StopsAt cs before c behind) (h' : StopsAt cs before' c' behind') :
    before = before' ∧ c = c' ∧ behind = behind' := by
  obtain ⟨rfl, ⟨ts, hs⟩, hc, hl⟩ := h
  have he := hs.eq_of_stopsAt hc hl h'
  refine ⟨he, List.cons.inj ?_⟩
  exact List.append_cancel_left (h'.split.trans (by rw [he]))

variable {total : Nat} {fault : ParseFault}

/-- Where nothing fits, it is said what stands there. -/
theorem tokensOf_of_lexeme?_none (hc : Text.isBlank c = false) (hl : lexeme? (c :: cs) = none) :
    tokensOf total (c :: cs) = .error (faultAt (total - (c :: cs).length) (c :: cs)) := by
  have ht : Text.trimStart (c :: cs) = c :: cs :=
    List.dropWhile_cons_of_neg (by rw [hc]; exact nofun)
  rw [tokensOf]
  split
  · rename_i hs
    rw [ht] at hs
    cases hs
  · rename_i hs
    rw [ht] at hs
    cases hs
    split
    · rename_i hl'
      rw [hl] at hl'
      cases hl'
    · rfl

/-- **What is reported of a text whose tokens are not found** is told by the place where the lexer
stops. -/
theorem exists_stopsAt_of_tokensOf (h : tokensOf total cs = .error fault) :
    ∃ before c behind, StopsAt cs before c behind
      ∧ fault = faultAt (total - (c :: behind).length) (c :: behind) := by
  induction hn : cs.length using Nat.strongRecOn generalizing cs with
  | ind n ih =>
    cases cs with
    | nil =>
      rw [tokensOf] at h
      cases h
    | cons c cs =>
      cases hc : Text.isBlank c with
      | true =>
        rw [tokensOf_blank hc] at h
        obtain ⟨before, d, behind, ⟨rfl, ⟨ts, hs⟩, hd, hl⟩, hf⟩ :=
          ih cs.length (hn ▸ Nat.lt_succ_self _) h rfl
        exact ⟨c :: before, d, behind, ⟨rfl, ⟨ts, .blank hc hs⟩, hd, hl⟩, hf⟩
      | false =>
        cases hl : lexeme? (c :: cs) with
        | none =>
          rw [tokensOf_of_lexeme?_none hc hl] at h
          exact ⟨[], c, cs, ⟨rfl, ⟨[], .nil⟩, hc, hl⟩, (Except.error.inj h).symm⟩
        | some a =>
          obtain ⟨us, rest⟩ := a
          have hr : tokensOf total rest = .error fault := by
            rw [tokensOf_lexeme hl] at h
            cases hr : tokensOf total rest with
            | error => rwa [hr] at h
            | ok =>
              rw [hr] at h
              cases h
          obtain ⟨before, d, behind, ⟨rfl, ⟨ts, hs⟩, hd, hnone⟩, hf⟩ :=
            ih rest.length (hn ▸ length_of_lexeme? hl) hr rfl
          obtain ⟨piece, hp⟩ := suffix_of_lexeme? hl
          rw [← hp, ← List.append_assoc] at hl ⊢
          exact ⟨piece ++ before, d, behind, ⟨rfl, ⟨us ++ ts, .lexeme hl hs⟩, hd, hnone⟩, hf⟩

/-! ## What is said of a place -/

variable {n : Nat}

/-- What is said of a place where no reference begins. -/
theorem faultAt_cons (h : ¬ Template.opening <+: c :: cs) :
    faultAt n (c :: cs)
      = if c = '"' ∨ c = '\'' then .unterminatedText
        else if isOperatorChar c then
          .unknownOperator (String.ofList ((c :: cs).takeWhile isOperatorChar))
        else .unexpectedChar c n := by
  unfold faultAt
  split
  · rename_i tail he
    exact (h ⟨tail, he.symm⟩).elim
  · rename_i he
    cases he
    simp only [Bool.or_eq_true, decide_eq_true_eq]
  · cases ‹_ = []›

theorem faultAt_of_opening (h : Template.opening <+: c :: cs) :
    c = '\x7b' ∧ faultAt n (c :: cs) = .unexpectedEnd := by
  obtain ⟨tail, he⟩ := h
  cases he
  exact ⟨rfl, rfl⟩

theorem faultAt_eq_unexpectedEnd_iff :
    faultAt n (c :: cs) = .unexpectedEnd ↔ Template.opening <+: c :: cs := by
  refine ⟨fun h => ?_, fun h => (faultAt_of_opening h).2⟩
  by_contra hn
  rw [faultAt_cons hn] at h
  split at h
  · cases h
  · split at h <;> cases h

theorem faultAt_eq_unterminatedText_iff :
    faultAt n (c :: cs) = .unterminatedText ↔ c = '"' ∨ c = '\'' := by
  by_cases ho : Template.opening <+: c :: cs
  · obtain ⟨rfl, hf⟩ := faultAt_of_opening (n := n) ho
    rw [hf]
    exact ⟨nofun, fun h => absurd h (by decide)⟩
  · rw [faultAt_cons ho]
    refine ⟨fun h => ?_, fun h => if_pos h⟩
    by_contra hq
    rw [if_neg hq] at h
    split at h <;> cases h

/-- A row of operator characters is told of as a whole. -/
theorem faultAt_eq_unknownOperator_iff {run : String} :
    faultAt n (c :: cs) = .unknownOperator run
      ↔ isOperatorChar c = true ∧ run = String.ofList ((c :: cs).takeWhile isOperatorChar) := by
  by_cases ho : Template.opening <+: c :: cs
  · obtain ⟨rfl, hf⟩ := faultAt_of_opening (n := n) ho
    rw [hf]
    exact ⟨nofun, fun h => absurd h.1 (by decide)⟩
  · rw [faultAt_cons ho]
    constructor
    · intro h
      split at h
      · cases h
      · split at h
        · rename_i hc
          cases h
          exact ⟨hc, rfl⟩
        · cases h
    · rintro ⟨hc, rfl⟩
      obtain ⟨-, -, -, hq, -⟩ := not_of_isOperatorChar hc
      rw [if_neg (fun h => hq h.symm), if_pos hc]

/-- Of any other character it is said where it stands. -/
theorem faultAt_eq_unexpectedChar_iff {d : Char} {position : Nat} :
    faultAt n (c :: cs) = .unexpectedChar d position
      ↔ (¬ Template.opening <+: c :: cs ∧ ¬ (c = '"' ∨ c = '\'') ∧ isOperatorChar c = false)
        ∧ d = c ∧ position = n := by
  by_cases ho : Template.opening <+: c :: cs
  · rw [(faultAt_of_opening ho).2]
    exact ⟨nofun, fun h => (h.1.1 ho).elim⟩
  · rw [faultAt_cons ho]
    constructor
    · intro h
      split at h
      · cases h
      · rename_i hq
        split at h
        · cases h
        · rename_i hc
          cases h
          exact ⟨⟨ho, hq, Bool.eq_false_iff.mpr hc⟩, rfl, rfl⟩
    · rintro ⟨⟨-, hq, hc⟩, rfl, rfl⟩
      rw [if_neg hq, hc]
      rfl

/-- **A whole row of operator characters** in front of other text: all of them, and no fewer. -/
def IsRun (run rest : List Char) : Prop :=
  run ≠ [] ∧ (∀ d ∈ run, isOperatorChar d = true)
    ∧ ∀ d us, rest = d :: us → isOperatorChar d = false

theorem takeWhile_of_isRun (h : IsRun cs rest) : (cs ++ rest).takeWhile isOperatorChar = cs := by
  rw [takeWhile_append_of_head h.2.2, List.takeWhile_eq_self_iff.mpr h.2.1]

theorem exists_isRun_iff {run : String} :
    (isOperatorChar c = true ∧ run = String.ofList ((c :: cs).takeWhile isOperatorChar))
      ↔ ∃ rest, c :: cs = run.toList ++ rest ∧ IsRun run.toList rest := by
  constructor
  · rintro ⟨hc, rfl⟩
    rw [String.toList_ofList]
    refine ⟨_, List.takeWhile_append_dropWhile.symm, ?_, fun d hd => List.mem_takeWhile_imp hd, ?_⟩
    · rw [List.takeWhile_cons_of_pos hc]
      exact nofun
    · intro d us hd
      have hnot := List.head?_dropWhile_not isOperatorChar (c :: cs)
      rw [hd] at hnot
      simpa using hnot
  · rintro ⟨rest, he, hr⟩
    rw [he, takeWhile_of_isRun hr, String.ofList_toList]
    refine ⟨?_, rfl⟩
    obtain ⟨d, us, hd⟩ := List.exists_cons_of_ne_nil hr.1
    rw [hd] at he
    obtain ⟨rfl, -⟩ := List.cons.inj he
    exact hr.2.1 c (by rw [hd]; exact List.mem_cons_self)

/-- **What is reported of a text that is no row of tokens.** There is one place where the lexer
stops, which has only blanks and whole tokens in front of it, and they are the tokens of
the text that ends there. What stands at the place decides what is reported:

* two opening braces, that the text ends within a reference;
* a quote, that a string is not closed;
* an operator character, the whole row of them as an operator that there is not;
* any other character, this character and the number of characters in front of it. -/
theorem place_of_tokens_error {source : String} (h : tokens source = .error fault) :
    ∃ before c behind, StopsAt source.toList before c behind
      ∧ (∀ before' c' behind', StopsAt source.toList before' c' behind' → before' = before)
      ∧ (∃ ts, ScansBefore (c :: behind) before ts ∧ tokens (String.ofList before) = .ok ts)
      ∧ Expr.parse source = .error (.parse source fault)
      ∧ (fault = .unexpectedEnd ↔ Template.opening <+: c :: behind)
      ∧ (fault = .unterminatedText ↔ c = '"' ∨ c = '\'')
      ∧ (∀ run, fault = .unknownOperator run
        ↔ ∃ rest, c :: behind = run.toList ++ rest ∧ IsRun run.toList rest)
      ∧ ∀ d position, fault = .unexpectedChar d position
        ↔ (¬ Template.opening <+: c :: behind ∧ ¬ (c = '"' ∨ c = '\'') ∧ isOperatorChar c = false)
          ∧ position = before.length ∧ source.toList[position]? = some d := by
  obtain ⟨before, c, behind, hstop, hf⟩ := exists_stopsAt_of_tokensOf h
  obtain ⟨ts, hs⟩ := hstop.scans
  have hn : source.toList.length - (c :: behind).length = before.length := by
    rw [hstop.split, List.length_append, Nat.add_sub_cancel_right]
  have hget : source.toList[before.length]? = some c := by
    rw [hstop.split, List.getElem?_append_right le_rfl, Nat.sub_self]
    rfl
  rw [hn] at hf
  refine ⟨before, c, behind, hstop, fun _ _ _ h' => (hstop.unique h').1.symm, ⟨ts, hs, ?_⟩, ?_, ?_,
    ?_, fun run => ?_, fun d position => ?_⟩
  · rw [tokens_eq_ok_iff, String.toList_ofList]
    exact hs.scans
  · rw [Expr.parse, h]
  · rw [hf, faultAt_eq_unexpectedEnd_iff]
  · rw [hf, faultAt_eq_unterminatedText_iff]
  · rw [hf, faultAt_eq_unknownOperator_iff, exists_isRun_iff]
  · rw [hf, faultAt_eq_unexpectedChar_iff, and_congr_right_iff]
    rintro -
    constructor
    · rintro ⟨rfl, rfl⟩
      exact ⟨rfl, hget⟩
    · rintro ⟨rfl, hd⟩
      exact ⟨Option.some.inj (hd.symm.trans hget), rfl⟩

/-- The character that a report is about, and where it stands. -/
def unexpectedChar? {α : Type} : Except ParseFault α → Option (Char × Nat)
  | .error (.unexpectedChar d position) => some (d, position)
  | _ => none

theorem eq_of_unexpectedChar? {α : Type} {x : Except ParseFault α} {d : Char} {position : Nat}
    (h : unexpectedChar? x = some (d, position)) : x = .error (.unexpectedChar d position) := by
  unfold unexpectedChar? at h
  split at h
  · cases h
    rfl
  · cases h

/-- The signs `日本` take three bytes each and are two characters. -/
theorem place_of_tokens_error_section :
    tokens "'日本' == § != 1" = .error (.unexpectedChar '§' 8)
      ∧ ∃ before behind ts, StopsAt "'日本' == § != 1".toList before '§' behind
        ∧ before.length = 8 ∧ tokens (String.ofList before) = .ok ts := by
  have h : tokens "'日本' == § != 1" = .error (.unexpectedChar '§' 8) :=
    eq_of_unexpectedChar? (by decide +kernel)
  obtain ⟨before, c, behind, hstop, -, ⟨ts, -, hts⟩, -, -, -, -, hchar⟩ := place_of_tokens_error h
  obtain ⟨-, hn, hd⟩ := (hchar '§' 8).mp rfl
  have hc : c = '§' := by
    rw [hstop.split, hn, List.getElem?_append_right le_rfl, Nat.sub_self] at hd
    exact Option.some.inj hd
  exact ⟨h, before, behind, ts, hc ▸ hstop, hn.symm, hts⟩

end Playbook.Lexer
