import Playbook.Proofs.Expr.Printing
import Playbook.Proofs.Expr.Trimming
import Playbook.Proofs.Template.Splitting

/-!
# Lone placeholders

A text that is one placeholder and nothing else is read in three ways. As a string it becomes the
value of the placeholder, as a template the text of that value, and as an expression it is a
reference. This module tells when they agree.

* **String and template** (`Scope.display_resolveText`). The text of the value is what the template
  becomes, whatever the scope. There is one kind of text where it is not: a brace too many in front
  of the closing braces, as in `{{x}}}` (`Template.overclosed?`). The string takes that brace as
  part of the placeholder, which then stays as it is; the template closes the placeholder in front
  of it.
* **String and expression** (`Scope.resolveText_braced`). Both give the value of the text between
  the braces, if it is an expression that has one and if it has no further braces. Here the
  exceptions are the words for constants (`Lexer.constants`): they have the form of paths, and
  inside of braces both take them for variables of that name.
-/

namespace Playbook

open Template (opening closing)

namespace Template

variable {cs inner rest : List Char}

/-- The closing braces come into being with one more brace behind a text only if it ends with
one. -/
theorem closing_infix_append (h : closing <:+: cs ++ ['\x7d']) :
    closing <:+: cs ∨ ∃ us, cs = us ++ ['\x7d'] := by
  obtain h | h := List.infix_concat_iff.mp h
  · obtain ⟨us, hus⟩ := h
    refine .inr ⟨us, ?_⟩
    rw [closing, ← List.singleton_append, ← List.append_assoc] at hus
    exact (List.append_inj' hus rfl).1.symm
  · exact .inl h

/-- The text of a placeholder in front of plain text. -/
theorem fillWith_placeholder (scope : Scope) (i : Inner) {text : String}
    (ht : text.toList = (Piece.placeholder inner).written ++ rest)
    (hc : ¬ closing <:+: inner ++ ['\x7d']) (ho : ¬ opening <:+: rest) :
    fillWith scope i text
      = (pieceWith scope i (.placeholder inner)).map (· ++ String.ofList rest) := by
  rw [fillWith, ht, pieces_placeholder hc, pieces_plain ho]
  show (piecesWith scope i [.placeholder inner, .plain rest]).map ("" ++ ·) = _
  rw [piecesWith]
  cases pieceWith scope i (.placeholder inner) with
  | error => rfl
  | ok s =>
    show Except.ok ("" ++ (s ++ (String.ofList rest ++ ""))) = Except.ok (s ++ String.ofList rest)
    rw [String.append_empty, String.empty_append]

/-- The text inside a lone placeholder that has a brace too many in front of the braces that close
it, without that brace. -/
def overclosed? (text : String) : Option String :=
  ((single? text.toList).bind (Text.dropTail ['\x7d'])).map String.ofList

theorem overclosed?_eq_some_iff {text s : String} :
    overclosed? text = some s ↔ single? text.toList = some (s.toList ++ ['\x7d']) := by
  unfold overclosed?
  rw [Option.map_eq_some_iff]
  constructor
  · rintro ⟨us, hus, rfl⟩
    obtain ⟨inner, hs, ht⟩ := Option.bind_eq_some_iff.mp hus
    rw [String.toList_ofList, ← Text.dropTail_eq_some.mp ht, hs]
  · intro h
    refine ⟨s.toList, ?_, String.ofList_toList⟩
    rw [h, Option.bind_some, Text.dropTail_eq_some]

/-- A text in the braces of a placeholder. -/
def braced (text : String) : String :=
  String.ofList (Piece.placeholder text.toList).written

end Template

namespace Lexer

/-- The words that stand for constants. -/
def constants : List String := ["true", "false", "null"]

/-- Every other word is a name or an operator. -/
theorem wordToken_of_not_constant {word : String} (h : word ∉ constants) :
    wordToken word = .name word ∨ ∃ o, wordToken word = .op o := by
  unfold wordToken
  split
  all_goals first
    | exact (h (by decide)).elim
    | exact .inr ⟨_, rfl⟩
    | exact .inl rfl

end Lexer

namespace Scope

variable (scope : Scope) {text : String} {inner : List Char}

/-- The value of a lone placeholder is told by the text between its braces on its own. -/
theorem resolveText_single (h : Template.single? text.toList = some inner) :
    scope.resolveText text
      = (Template.placeholderWith scope scope.whole inner).map fun v => v.getD (.text text) := by
  have hlen : (Text.trim inner).length < text.length := by
    have hlt := Template.total_trim_lt .characters inner
    rwa [Text.Weight.total_characters, Text.Weight.total_characters,
      ← (Template.single?_eq_some_iff.mp h).1, String.length_toList] at hlt
  have hagree : ∀ s, Template.reread? inner = some s →
      (scope.inner (depthOf text)).AgreeAt scope.whole s := fun s hs =>
    scope.agree_whole (Nat.lt_succ_of_lt (by
      rwa [Template.eq_of_reread? hs, String.length_ofList]))
  rw [resolveText, h]
  dsimp only
  rw [Template.placeholderWith_congr hagree]
  split
  · rename_i hv
    rw [hv]
    rfl
  · rename_i hv
    rw [hv]
    rfl
  · rename_i hv
    rw [hv]
    rfl

/-- Its text is what a template has in its place. -/
theorem display_resolveText_single (h : Template.single? text.toList = some inner) :
    (scope.resolveText text).map Value.display
      = Template.pieceWith scope scope.whole (.placeholder inner) := by
  have htext : text = String.ofList (Template.Piece.placeholder inner).written := by
    rw [← (Template.single?_eq_some_iff.mp h).1, String.ofList_toList]
  rw [scope.resolveText_single h, Template.pieceWith]
  cases Template.placeholderWith scope scope.whole inner with
  | error c => rfl
  | ok v =>
    cases v with
    | none => exact congrArg Except.ok htext
    | some v => rfl

/-- No placeholder with a brace at its end is replaced: a text with it is neither a path nor an
expression. -/
theorem placeholderWith_brace {cs : List Char} (h : ¬ closing <:+: cs ++ ['\x7d']) :
    Template.placeholderWith scope scope.whole (cs ++ ['\x7d']) = .ok none := by
  have htrim : Text.trim (cs ++ ['\x7d']) = Text.trimStart cs ++ ['\x7d'] :=
    Text.trim_append_singleton rfl
  have hlist : (String.ofList (Text.trim (cs ++ ['\x7d']))).toList
      = Text.trimStart cs ++ ['\x7d'] := by rw [String.toList_ofList, htrim]
  have hpath : Path.isPath (String.ofList (Text.trim (cs ++ ['\x7d']))) = false := by
    rw [Bool.eq_false_iff]
    intro hp
    have hbrace := Path.isWordChar_of_isPath hp (by rw [String.toList_ofList, Text.trim_trim])
      '\x7d' (by rw [hlist]; exact List.mem_append_right _ (List.mem_singleton_self _))
    cases hbrace
  have hbound : scope.isBound (String.ofList (Text.trim (cs ++ ['\x7d']))) = false := by
    cases hparse : Expr.parse (String.ofList (Text.trim (cs ++ ['\x7d']))) with
    | error fault => exact (scope.evaluate_of_error hparse).2
    | ok e =>
      refine (h ?_).elim
      refine (Expr.closing_infix_of_parse hlist hparse).trans ?_
      rw [hlist]
      obtain ⟨lead, hlead⟩ := List.dropWhile_suffix Text.isBlank (l := cs)
      refine List.IsSuffix.isInfix ⟨lead, ?_⟩
      rw [← List.append_assoc]
      exact congrArg (· ++ ['\x7d']) hlead
  unfold Template.placeholderWith
  dsimp only
  rw [hpath, show scope.whole.isBound _ = _ from hbound]
  split <;> rfl

/-- **The text of a string's value is the text of the template**, but where a lone placeholder
has a brace too many at its end. Such a string stays as it is, whatever the scope; the template is
the placeholder without that brace, and the brace behind it. -/
theorem display_resolveText :
    (Template.overclosed? text = none →
      (scope.resolveText text).map Value.display = scope.fill text)
    ∧ ∀ s, Template.overclosed? text = some s →
      scope.resolveText text = .ok (.text text)
      ∧ scope.fill text = (scope.fill (Template.braced s)).map (· ++ "\x7d") := by
  constructor
  · intro hn
    cases hs : Template.single? text.toList with
    | none =>
      rw [resolveText, hs]
      show ((scope.fill text).map Value.text).map Value.display = _
      cases scope.fill text <;> rfl
    | some inner =>
      obtain ⟨htext, -, hc⟩ := Template.single?_eq_some_iff.mp hs
      have hc' : ¬ closing <:+: inner ++ ['\x7d'] := by
        intro hi
        obtain hi | ⟨us, rfl⟩ := Template.closing_infix_append hi
        · exact hc hi
        · rw [← String.toList_ofList (l := us), ← Template.overclosed?_eq_some_iff, hn] at hs
          cases hs
      rw [scope.display_resolveText_single hs, scope.fill_eq,
        Template.fillWith_placeholder scope scope.whole (by rw [List.append_nil]; exact htext) hc'
          (by decide)]
      cases Template.pieceWith scope scope.whole (.placeholder inner) with
      | error => rfl
      | ok t => exact congrArg Except.ok (String.append_empty).symm
  · intro s hs
    rw [Template.overclosed?_eq_some_iff] at hs
    obtain ⟨htext, ho, hc⟩ := Template.single?_eq_some_iff.mp hs
    have hover : text.toList = (Template.Piece.placeholder s.toList).written ++ ['\x7d'] := by
      rw [htext]
      simp [Template.Piece.written, closing]
    have hlone : (Template.braced s).toList
        = (Template.Piece.placeholder s.toList).written ++ [] := by
      rw [Template.braced, String.toList_ofList, List.append_nil]
    constructor
    · rw [scope.resolveText_single hs, scope.placeholderWith_brace hc]
      rfl
    · rw [scope.fill_eq, scope.fill_eq,
        Template.fillWith_placeholder scope scope.whole hover hc (by decide),
        Template.fillWith_placeholder scope scope.whole hlone hc (by decide)]
      cases Template.pieceWith scope scope.whole (.placeholder s.toList) with
      | error => rfl
      | ok t =>
        show Except.ok _ = Except.ok (t ++ "" ++ "\x7d")
        rw [String.append_empty]

/-- A lone placeholder, and one with a brace too many. -/
theorem display_resolveText_brace :
    let scope := ofVariables [("x", .number (.int 5 (by decide)))]
    let lone := "\x7b\x7bx\x7d\x7d"
    let surplus := "\x7b\x7bx\x7d\x7d\x7d"
    Template.overclosed? lone = none ∧ Template.overclosed? surplus = some "x"
      ∧ (scope.resolveText lone).map Value.display = scope.fill lone
      ∧ scope.resolveText surplus = .ok (.text surplus) := by
  intro scope lone surplus
  have hlone : Template.overclosed? lone = none := by decide
  have hsurplus : Template.overclosed? surplus = some "x" := by decide
  exact ⟨hlone, hsurplus, scope.display_resolveText.1 hlone,
    (scope.display_resolveText.2 _ hsurplus).1⟩

/-- There the text of the value is not that of the template. -/
theorem display_resolveText_ne_fill :
    let scope := ofVariables [("x", .number (.int 5 (by decide)))]
    let text := "\x7b\x7bx\x7d\x7d\x7d"
    (scope.resolveText text).map Value.display = .ok text ∧ scope.fill text = .ok "5\x7d" := by
  decide +kernel

/-! ## Braces around an expression -/

/-- A text in braces that are closed at its end is a reference to it. -/
theorem parse_braced_of_closed (hc : ¬ closing <:+: text.toList ++ ['\x7d']) :
    Expr.parse (Template.braced text) = .ok (.reference (Text.trimmed text)) := by
  have hcut : Text.cutAt closing (text.toList ++ closing) = some (text.toList, []) :=
    (Text.cutAt_eq_some_iff (by decide)).mpr ⟨(List.append_nil _).symm, hc⟩
  have hl : Lexer.lexeme? (Template.braced text).toList
      = some ([.reference (Text.trimmed text)], []) := by
    refine Lexer.lexeme?_of_single? ?_
    rw [Template.braced, String.toList_ofList, Template.Piece.written, List.append_assoc]
    show Lexer.single? ('\x7b' :: '\x7b' :: (text.toList ++ closing)) = _
    rw [Lexer.single?_brace]
    show (Text.cutAt closing (text.toList ++ closing)).map _ = _
    rw [hcut]
    rfl
  exact Expr.parse_eq_ok_iff.mpr ⟨_, .single hl, (Phrase.Derives.reference _).ofKind _⟩

/-- An expression in braces is a reference to it. -/
theorem parse_braced {e : Expr} (hc : ¬ closing <:+: text.toList)
    (he : Expr.parse text = .ok e) :
    Expr.parse (Template.braced text) = .ok (.reference (Text.trimmed text)) := by
  refine parse_braced_of_closed fun hi => ?_
  obtain hi | ⟨us, hus⟩ := Template.closing_infix_append hi
  · exact hc hi
  · exact hc (Expr.closing_infix_of_parse hus he)

/-- What a path is as an expression: a name, unless it is a word for a constant. -/
theorem parse_path {word : String} {e : Expr} (hp : Path.isPath word = true)
    (ht : Text.trim word.toList = word.toList) (he : Expr.parse word = .ok e)
    (hw : word ∉ Lexer.constants) : e = .name word := by
  obtain ⟨c, cs, hcs, hstart⟩ := Path.isNameStart_of_isPath hp ht
  have hchars := Path.isWordChar_of_isPath hp ht
  rw [hcs] at hchars
  have hl := Lexer.lexeme?_wordToken hstart (List.forall_mem_cons.mp hchars).2
  rw [← hcs, String.ofList_toList] at hl
  have htokens := Lexer.tokens_eq_ok_iff.mpr (Lexer.Scans.single hl)
  unfold Expr.parse at he
  rw [htokens] at he
  dsimp only at he
  obtain hname | ⟨o, ho⟩ := Lexer.wordToken_of_not_constant hw
  · rw [hname] at he
    cases he
    rfl
  · rw [ho] at he
    cases o with
    | compute op => cases op <;> cases he
    | compare op => cases op <;> cases he
    | _ => cases he

theorem eq_of_bool? {ε : Type} {x : Except ε Value} {b : Bool}
    (h : x.toOption.bind Value.bool? = some b) : x = .ok (.bool b) := by
  cases x with
  | error e => cases h
  | ok v =>
    cases v with
    | bool c =>
      cases h
      rfl
    | _ => cases h

theorem eq_of_text? {ε : Type} {x : Except ε Value} {s : String}
    (h : x.toOption.bind Value.text? = some s) : x = .ok (.text s) := by
  cases x with
  | error e => cases h
  | ok v =>
    cases v with
    | text t =>
      cases h
      rfl
    | _ => cases h

theorem eq_of_kindName_null {ε : Type} {x : Except ε Value}
    (h : x.toOption.map Value.kindName = some "null") : x = .ok .null := by
  cases x with
  | error e => cases h
  | ok v =>
    cases v with
    | null => rfl
    | _ => simp [Except.toOption, Value.kindName] at h

/-- **Braces do not change the value of an expression**, as a string or as an expression, if it has
a value and all its names and references lead to values. The words for constants are the exception:
in braces they are names of variables, and where there is no such variable the string stays as it is
and the expression is `null`. -/
theorem resolveText_braced {v : Value} (ho : ¬ opening <:+: text.toList)
    (hc : ¬ closing <:+: text.toList) (hb : scope.isBound text = true)
    (hv : scope.evaluate text = .ok v) :
    (Text.trimmed text ∉ Lexer.constants →
      scope.resolveText (Template.braced text) = .ok v
        ∧ scope.evaluate (Template.braced text) = .ok v)
    ∧ (Text.trimmed text ∈ Lexer.constants →
      scope.resolveText (Template.braced text)
          = .ok ((scope.lookup? (Text.trimmed text)).getD (.text (Template.braced text)))
        ∧ scope.evaluate (Template.braced text)
          = .ok ((scope.lookup? (Text.trimmed text)).getD .null)) := by
  obtain ⟨e, he⟩ : ∃ e, Expr.parse text = .ok e := by
    cases hp : Expr.parse text with
    | ok e => exact ⟨e, rfl⟩
    | error fault => exact nomatch hv.symm.trans (scope.evaluate_of_error hp).1
  have hsingle : Template.single? (Template.braced text).toList = some text.toList :=
    Template.single?_eq_some_iff.mpr ⟨String.toList_ofList, ho, hc⟩
  have htrim : Text.trim (Text.trimmed text).toList = (Text.trimmed text).toList := by
    rw [Text.trimmed, String.toList_ofList, Text.trim_trim]
  have he' := Expr.parse_trimmed.mpr he
  have hempty : Text.trimmed text ≠ "" := by
    intro h
    obtain ⟨ts, hs, hd⟩ := Expr.parse_eq_ok_iff.mp he'
    rw [h] at hs
    cases hs with
    | nil => exact hd.ne_nil rfl
    | lexeme hl => cases hl
  rw [scope.resolveText_single hsingle, scope.evaluate_eq (parse_braced hc he), Expr.evalWith]
  unfold Template.placeholderWith
  dsimp only
  rw [show String.ofList (Text.trim text.toList) = Text.trimmed text from rfl, if_neg hempty]
  by_cases hp : Path.isPath (Text.trimmed text) = true
  · rw [if_pos hp, if_pos hp]
    refine ⟨fun hw => ?_, fun _ => ⟨rfl, rfl⟩⟩
    obtain rfl := parse_path hp htrim he' hw
    rw [← scope.isBound_trimmed, scope.isBound_eq he'] at hb
    rw [← scope.evaluate_trimmed he, scope.evaluate_eq he'] at hv
    obtain ⟨w, hfind⟩ := Option.isSome_iff_exists.mp hb
    rw [Expr.evalWith, hfind] at hv
    cases hv
    rw [hfind, Option.getD_some, Option.getD_some]
    exact ⟨rfl, rfl⟩
  · have hw : Text.trimmed text ∉ Lexer.constants := by
      refine fun hw => hp ?_
      have hall : ∀ w ∈ Lexer.constants, Path.isPath w = true := by with_unfolding_all decide
      exact hall _ hw
    rw [if_neg hp, if_neg hp]
    refine ⟨fun _ => ?_, fun h => (hw h).elim⟩
    have hbound : scope.whole.isBound (Text.trimmed text) = true := by
      show scope.isBound (Text.trimmed text) = true
      rw [scope.isBound_trimmed, hb]
    have hvalue : scope.whole.value (Text.trimmed text) = .ok v := by
      show scope.evaluate (Text.trimmed text) = .ok v
      rw [scope.evaluate_trimmed he, hv]
    rw [if_pos hbound, hvalue]
    exact ⟨rfl, rfl⟩

/-- A comparison with blanks around it, and a constant. -/
theorem resolveText_braced_comparison :
    let scope := ofVariables [("x", .number (.int 5 (by decide)))]
    let text := " x > 4 "
    ¬ opening <:+: text.toList ∧ ¬ closing <:+: text.toList ∧ scope.isBound text = true
      ∧ scope.evaluate text = .ok (.bool true) ∧ Text.trimmed text ∉ Lexer.constants
      ∧ scope.resolveText (Template.braced text) = .ok (.bool true)
      ∧ scope.resolveText (Template.braced "true") = .ok (.text (Template.braced "true")) := by
  intro scope text
  have ho : ¬ opening <:+: text.toList := by decide +kernel
  have hc : ¬ closing <:+: text.toList := by decide +kernel
  have hb : scope.isBound text = true := by decide +kernel
  have hv : scope.evaluate text = .ok (.bool true) := eq_of_bool? (by decide +kernel)
  have hw : Text.trimmed text ∉ Lexer.constants := by decide +kernel
  have hword : scope.evaluate "true" = .ok (.bool true) := eq_of_bool? (by decide +kernel)
  have htrue := scope.resolveText_braced (by decide +kernel) (by decide +kernel) (by decide +kernel)
    hword
  have hlookup : scope.lookup? (Text.trimmed "true") = none := by
    rw [← Option.isNone_iff_eq_none]
    decide +kernel
  refine ⟨ho, hc, hb, hv, hw, ((scope.resolveText_braced ho hc hb hv).1 hw).1, ?_⟩
  rw [(htrue.2 (by decide +kernel)).1, hlookup]
  rfl

/-- A constant in braces is not that constant, neither as a string nor as an expression. -/
theorem resolveText_braced_ne_constant :
    let scope := ofVariables []
    scope.isBound "true" = true ∧ scope.evaluate "true" = .ok (.bool true)
      ∧ scope.resolveText (Template.braced "true") = .ok (.text (Template.braced "true"))
      ∧ scope.evaluate (Template.braced "true") = .ok .null := by
  intro scope
  with_unfolding_all exact ⟨by decide, eq_of_bool? (by decide), eq_of_text? (by decide),
    eq_of_kindName_null (by decide)⟩

end Scope

end Playbook
