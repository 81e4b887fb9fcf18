import Mathlib.Data.List.TakeWhile
import Playbook.Proofs.Expr.Lexemes

/-!
# Expressions as text

A tree is written with blanks around its operators and brackets around the operands that have
operators of their own (`Expr.written`). Reading undoes writing: the text of a tree is read
as that tree (`Expr.parse_written`), but for strings with `{{` in them, which are read as
templates (`Expr.asRead`).

A tree can be written if its leaves are what single tokens stand for (`Expr.isWritable`). Then
each leaf is one lexeme (`Expr.lexeme?_leaf`), each operator is one (`Operator.lexeme?_symbol`),
and because of the blanks and brackets between them none goes on into the next. So a text that
is put together from those of phrases is a phrase in its turn (`Phrase.Spelled.joined`).
-/

namespace Playbook

/-! ## Trees as text -/

/-- The words that do not stand for names. -/
def Lexer.reserved : List String :=
  ["true", "false", "null", "and", "or", "not", "in", "contains", "matches"]

/-- Whether a text is a word that stands for a name. -/
def Lexer.isFreeWord (word : String) : Bool :=
  match word.toList with
  | c :: cs => Path.isNameStart c && cs.all isWordChar && !reserved.contains word
  | [] => false

/-- Whether a value is a literal of the expression language: `null`, a truth value, an integer
of 64 bits without a minus sign, or a string. -/
def Value.isLiteral : Value → Bool
  | null => true
  | bool _ => true
  | number (.int n _) => 0 ≤ n && n < 9223372036854775808
  | text _ => true
  | _ => false

/-- An operator with blanks around it. -/
def Operator.spaced (o : Operator) : List Char :=
  ' ' :: (o.symbol.toList ++ [' '])

namespace Expr

/-- A character inside a string: a backslash stands in front of a backslash and of a quote. -/
def escaped (c : Char) : List Char :=
  if c = '\\' ∨ c = '\'' then ['\\', c] else [c]

/-- A string in single quotes. -/
def inQuotes (s : String) : List Char :=
  '\'' :: (s.toList.flatMap escaped ++ ['\''])

/-- Whether a tree has an operator at its top. -/
def isCompound : Expr → Bool
  | not _ => true
  | neg _ => true
  | and _ _ => true
  | or _ _ => true
  | compare _ _ _ => true
  | compute _ _ _ => true
  | _ => false

/-- The text of a tree as that of an operand: in brackets if the tree has an operator at its
top. -/
def enclosed (e : Expr) (text : List Char) : List Char :=
  if e.isCompound then '(' :: (text ++ [')']) else text

/-- **A tree as text.** -/
def written : Expr → List Char
  | literal (.text s) => inQuotes s
  | literal v => v.render.toList
  | template s => inQuotes s
  | name word => word.toList
  | reference inner => Template.opening ++ inner.toList ++ Template.closing
  | not e => Operator.not.spaced ++ e.enclosed e.written
  | neg e => (Operator.compute .sub).spaced ++ e.enclosed e.written
  | and l r => l.enclosed l.written ++ (Operator.and.spaced ++ r.enclosed r.written)
  | or l r => l.enclosed l.written ++ (Operator.or.spaced ++ r.enclosed r.written)
  | compare op l r =>
    l.enclosed l.written ++ ((Operator.compare op).spaced ++ r.enclosed r.written)
  | compute op l r =>
    l.enclosed l.written ++ ((Operator.compute op).spaced ++ r.enclosed r.written)

/-- Whether a tree can be written: its leaves are literals, strings, free words and paths
without blanks around them. -/
def isWritable : Expr → Bool
  | literal v => v.isLiteral
  | template s => Template.hasPlaceholders s
  | name word => Lexer.isFreeWord word
  | reference inner => Path.isPath inner && Text.trim inner.toList == inner.toList
  | not e => e.isWritable
  | neg e => e.isWritable
  | and l r => l.isWritable && r.isWritable
  | or l r => l.isWritable && r.isWritable
  | compare _ l r => l.isWritable && r.isWritable
  | compute _ l r => l.isWritable && r.isWritable

/-- The tree as which a tree is read when it has been written: a string with `{{` in it has
become a template. -/
def asRead : Expr → Expr
  | literal (.text s) => if Template.hasPlaceholders s then template s else literal (.text s)
  | not e => not e.asRead
  | neg e => neg e.asRead
  | and l r => and l.asRead r.asRead
  | or l r => or l.asRead r.asRead
  | compare op l r => compare op l.asRead r.asRead
  | compute op l r => compute op l.asRead r.asRead
  | e => e

/-- Whether no string of a tree has `{{` in it. -/
def isPlain : Expr → Bool
  | literal (.text s) => !Template.hasPlaceholders s
  | not e => e.isPlain
  | neg e => e.isPlain
  | and l r => l.isPlain && r.isPlain
  | or l r => l.isPlain && r.isPlain
  | compare _ l r => l.isPlain && r.isPlain
  | compute _ l r => l.isPlain && r.isPlain
  | _ => true

/-- A tree without `{{` in its strings is read as it is. -/
theorem asRead_of_isPlain {e : Expr} (h : e.isPlain = true) : e.asRead = e := by
  induction e with
  | literal v =>
    cases v with
    | text s =>
      have hs : Template.hasPlaceholders s = false := by simpa [isPlain] using h
      rw [asRead, hs]
      rfl
    | _ => rfl
  | template | name | reference => rfl
  | not e ih => rw [asRead, ih h]
  | neg e ih => rw [asRead, ih h]
  | and l r ihl ihr | or l r ihl ihr | compare op l r ihl ihr | compute op l r ihl ihr =>
    rw [isPlain, Bool.and_eq_true] at h
    rw [asRead, ihl h.1, ihr h.2]

end Expr

/-! ## The lexeme of each leaf and each operator -/

namespace Lexer

/-- A text that is one lexeme has its tokens. -/
theorem Scans.single {cs : List Char} {ts : List Token} (h : lexeme? cs = some (ts, [])) :
    Scans cs ts := by
  have hs := Scans.lexeme h .nil
  rwa [List.append_nil] at hs

theorem lexeme?_of_single? {cs rest : List Char} {t : Token} (h : single? cs = some (t, rest)) :
    lexeme? cs = some ([t], rest) := by
  rw [lexeme?, h]

/-- **A string is read back from its quotes.** -/
theorem stringTail_escaped (s rest : List Char) :
    stringTail '\'' (s.flatMap Expr.escaped ++ '\'' :: rest) = some (s, rest) := by
  induction s with
  | nil => exact stringTail_quote (by decide) rest
  | cons c s ih =>
    rw [List.flatMap_cons, List.append_assoc, Expr.escaped]
    split
    · rename_i hc
      -- neither of the two characters is a letter that means another one
      have hmeant : (if c = 'n' then '\n' else if c = 't' then '\t' else c) = c := by
        obtain rfl | rfl := hc <;> rfl
      show (stringTail '\'' (s.flatMap Expr.escaped ++ '\'' :: rest)).map _ = _
      rw [ih, Option.map_some, hmeant]
    · rename_i hc
      rw [not_or] at hc
      rw [List.singleton_append, stringTail_plain hc.2 hc.1, ih]
      rfl

theorem lexeme?_inQuotes (s : String) :
    lexeme? (Expr.inQuotes s) = some ([.text s], []) := by
  refine lexeme?_of_single? ?_
  rw [Expr.inQuotes, single?_quote (.inl rfl), string?, stringTail_escaped, Option.map_some]
  dsimp only
  rw [String.ofList_toList]

theorem all_isDigit_toDigits (n : Nat) : (Nat.toDigits 10 n).all Char.isDigit = true :=
  List.all_eq_true.mpr fun _ hc => Nat.isDigit_of_mem_toDigits (by decide) (by decide) hc

/-- Digits stand for the number that they are written for. -/
theorem valueFrom_toDigits (n : Nat) : Numeral.valueFrom 0 (Nat.toDigits 10 n) = n := by
  have hv := Nat.ofDigitChars_ten_toDigits (n := n)
  rw [Nat.ofDigitChars_eq_foldl] at hv
  simp only [Nat.mul_comm 10] at hv
  exact hv

theorem digits?_toDigits (n : Nat) : Numeral.digits? (Nat.toDigits 10 n) = some n := by
  have hne : (Nat.toDigits 10 n).isEmpty = false :=
    List.isEmpty_eq_false_iff.mpr Nat.toDigits_ne_nil
  rw [Numeral.digits?, hne, all_isDigit_toDigits]
  exact congrArg some (valueFrom_toDigits n)

/-- Digits have no sign in front. -/
theorem signed?_of_all_isDigit {cs : List Char} (h : cs.all Char.isDigit = true) :
    Numeral.signed? cs = (Numeral.digits? cs).bind fun n => Word.signed? n := by
  unfold Numeral.signed?
  split
  · cases h
  · cases h
  · rfl

theorem number?_toDigits {n : Nat} (hn : n < 9223372036854775808) (hf : Word.Fits n) :
    number? (Nat.toDigits 10 n) = some (.literal (.number (.int n hf)), []) := by
  have hall := all_isDigit_toDigits n
  have htake : (Nat.toDigits 10 n).takeWhile Char.isDigit = Nat.toDigits 10 n :=
    List.takeWhile_eq_self_iff.mpr (List.all_eq_true.mp hall)
  have hdrop : (Nat.toDigits 10 n).dropWhile Char.isDigit = [] :=
    List.dropWhile_eq_nil_iff.mpr (List.all_eq_true.mp hall)
  have hm : mantissa (Nat.toDigits 10 n) = (Nat.toDigits 10 n, []) := by
    rw [mantissa_of_no_point, htake, hdrop]
    rw [hdrop]
    exact nofun
  have hsigned : Numeral.signed? (Nat.toDigits 10 n) = some (n : Int) := by
    rw [signed?_of_all_isDigit hall, digits?_toDigits, Option.bind_some,
      Word.signed?_eq_some_iff]
    exact ⟨⟨by omega, by omega⟩, rfl⟩
  have hvalue : numberValue? (Nat.toDigits 10 n) = some (.number (.int n hf)) := by
    rw [numberValue?, hsigned]
    exact congrArg some (dif_pos hf)
  unfold number?
  rw [hm]
  dsimp only [exponent]
  rw [List.isEmpty_eq_false_iff.mpr Nat.toDigits_ne_nil, List.append_nil, hvalue]
  rfl

theorem lexeme?_toDigits {n : Nat} (hn : n < 9223372036854775808) (hf : Word.Fits n) :
    lexeme? (Nat.toDigits 10 n) = some ([.literal (.number (.int n hf))], []) := by
  have hnum := number?_toDigits hn hf
  have hall := List.all_eq_true.mp (all_isDigit_toDigits n)
  refine lexeme?_of_single? ?_
  cases hd : Nat.toDigits 10 n with
  | nil => exact (Nat.toDigits_ne_nil hd).elim
  | cons c cs =>
    rw [hd] at hnum hall
    rw [single?_digit (.inl (hall c List.mem_cons_self)), hnum]

theorem wordToken_of_not_reserved {word : String} (h : word ∉ reserved) :
    wordToken word = .name word := by
  unfold wordToken
  split
  all_goals first
    | rfl
    | exact (h (by decide)).elim

/-- A word is found whole. -/
theorem lexeme?_wordToken {c : Char} {cs : List Char} (hs : Path.isNameStart c = true)
    (hall : ∀ d ∈ cs, isWordChar d = true) :
    lexeme? (c :: cs) = some ([wordToken (String.ofList (c :: cs))], []) := by
  refine lexeme?_of_single? ?_
  rw [single?_nameStart hs, word?, if_pos hs, List.takeWhile_eq_self_iff.mpr hall,
    List.dropWhile_eq_nil_iff.mpr hall]

theorem lexeme?_word {word : String} (h : isFreeWord word = true) :
    lexeme? word.toList = some ([.name word], []) := by
  unfold isFreeWord at h
  cases hw : word.toList with
  | nil =>
    rw [hw] at h
    cases h
  | cons c cs =>
    rw [hw] at h
    simp only [Bool.and_eq_true, Bool.not_eq_true', List.contains_eq_mem,
      decide_eq_false_iff_not] at h
    obtain ⟨⟨hstart, hall⟩, hfree⟩ := h
    have hof : String.ofList (c :: cs) = word := by rw [← hw, String.ofList_toList]
    rw [lexeme?_wordToken hstart (List.all_eq_true.mp hall), hof,
      wordToken_of_not_reserved hfree]

end Lexer

namespace Path

open Lexer (isWordChar)

theorem isWordChar_of_isNameChar {c : Char} (h : isNameChar c = true) : isWordChar c = true := by
  rw [isWordChar, h]
  rfl

theorem isWordChar_of_isDigit {c : Char} (h : c.isDigit = true) : isWordChar c = true := by
  refine isWordChar_of_isNameChar ?_
  rw [isNameChar, Char.isAlphanum, h]
  simp

theorem isWordChar_of_isNameStart {c : Char} (h : isNameStart c = true) :
    isWordChar c = true := by
  refine isWordChar_of_isNameChar ?_
  rw [isNameStart, Bool.or_eq_true, Bool.or_eq_true] at h
  rw [isNameChar, Char.isAlphanum]
  obtain (h | h) | h := h <;> simp [h]

/-- What holds of both parts of a text holds of all its characters. -/
theorem forall_mem_of_parts {p : Char → Bool} {q : Char → Prop} {cs : List Char}
    (ht : ∀ c ∈ cs.takeWhile p, q c) (hd : ∀ c ∈ cs.dropWhile p, q c) : ∀ c ∈ cs, q c := by
  intro c hc
  rw [← List.takeWhile_append_dropWhile (p := p) (l := cs), List.mem_append] at hc
  exact hc.elim (ht c) (hd c)

/-- The segments of a path are written with word characters. -/
theorem isWordChar_of_segments? {cs : List Char} {segments : List Segment}
    (h : segments? cs = some segments) : ∀ c ∈ cs, isWordChar c = true := by
  induction cs using segments?.induct generalizing segments with
  | case1 => exact nofun
  | case2 rest =>
    rename_i hkey
    rw [segments?, if_pos rfl] at h
    dsimp only at h
    rw [if_pos hkey] at h
    cases h
  | case3 rest =>
    rename_i hkey ih
    rw [segments?, if_pos rfl] at h
    dsimp only at h
    rw [if_neg hkey] at h
    obtain ⟨behind, hbehind, -⟩ := Option.map_eq_some_iff.mp h
    simp only [Bool.or_eq_true, not_or, Bool.not_eq_true', Bool.not_eq_false] at hkey
    refine List.forall_mem_cons.mpr ⟨rfl, forall_mem_of_parts (fun c hc => ?_) (ih hbehind)⟩
    exact isWordChar_of_isNameChar (List.all_eq_true.mp hkey.2 c hc)
  | case4 rest behind hd n hn hdot ih =>
    rw [segments?, if_neg hdot, if_pos rfl] at h
    have hsome : ∃ segments, segments? behind = some segments := by
      split at h
      · rename_i hd'
        cases hd.symm.trans hd'
        rw [hn] at h
        obtain ⟨segments, hs, -⟩ := Option.map_eq_some_iff.mp h
        exact ⟨segments, hs⟩
      · cases h
    obtain ⟨segments, hs⟩ := hsome
    have hbehind : ∀ c ∈ rest.dropWhile Char.isDigit, isWordChar c = true := by
      rw [hd]
      exact List.forall_mem_cons.mpr ⟨rfl, ih hs⟩
    refine List.forall_mem_cons.mpr ⟨rfl, forall_mem_of_parts (fun c hc => ?_) hbehind⟩
    exact isWordChar_of_isDigit (List.mem_takeWhile_imp hc)
  | case5 rest behind hd hn hdot =>
    rw [segments?, if_neg hdot, if_pos rfl] at h
    split at h
    · rw [hn] at h
      cases h
    · cases h
  | case6 rest hd hdot =>
    rw [segments?, if_neg hdot, if_pos rfl] at h
    split at h
    · rename_i hd'
      exact (hd _ hd').elim
    · cases h
  | case7 c rest hdot hbracket =>
    rw [segments?, if_neg hdot, if_neg hbracket] at h
    cases h

/-- A path without blanks around it is written with word characters. -/
theorem isWordChar_of_isPath {path : String} (h : isPath path = true)
    (ht : Text.trim path.toList = path.toList) : ∀ c ∈ path.toList, isWordChar c = true := by
  rw [isPath, parse?, ofChars?, ht] at h
  split at h
  · rename_i hroot
    obtain ⟨p, hp⟩ := Option.isSome_iff_exists.mp h
    obtain ⟨segments, hs, -⟩ := Option.map_eq_some_iff.mp hp
    have hname : ∀ c ∈ path.toList.takeWhile inName, isWordChar c = true := by
      cases ht : path.toList.takeWhile inName with
      | nil => exact nofun
      | cons c cs =>
        rw [ht, isIdentifier, Bool.and_eq_true] at hroot
        refine List.forall_mem_cons.mpr ⟨isWordChar_of_isNameStart hroot.1, fun d hd => ?_⟩
        exact isWordChar_of_isNameChar (List.all_eq_true.mp hroot.2 d hd)
    exact forall_mem_of_parts hname (isWordChar_of_segments? hs)
  · cases h

/-- It begins as an identifier does. -/
theorem isNameStart_of_isPath {path : String} (h : isPath path = true)
    (ht : Text.trim path.toList = path.toList) :
    ∃ c cs, path.toList = c :: cs ∧ isNameStart c = true := by
  rw [isPath, parse?, ofChars?, ht] at h
  split at h
  · rename_i hroot
    cases hp : path.toList with
    | nil =>
      rw [hp] at hroot
      cases hroot
    | cons c cs =>
      rw [hp, List.takeWhile_cons] at hroot
      split at hroot
      · rw [isIdentifier, Bool.and_eq_true] at hroot
        exact ⟨c, cs, rfl, hroot.1⟩
      · cases hroot
  · cases h

end Path

/-- A text is cut at a mark behind characters that the mark does not begin with. -/
theorem Text.cutAt_of_forall_ne {d : Char} {mark cs : List Char} (h : ∀ c ∈ cs, c ≠ d)
    (rest : List Char) : cutAt (d :: mark) (cs ++ d :: (mark ++ rest)) = some (cs, rest) := by
  induction cs with
  | nil =>
    have hd : dropLead (d :: mark) (d :: (mark ++ rest)) = some rest :=
      dropLead_eq_some.mpr rfl
    rw [List.nil_append, cutAt, hd]
  | cons c cs ih =>
    rw [List.forall_mem_cons] at h
    have hd : dropLead (d :: mark) (c :: (cs ++ d :: (mark ++ rest))) = none :=
      if_neg h.1.symm
    rw [List.cons_append, cutAt, hd, ih h.2]
    rfl

namespace Lexer

theorem lexeme?_reference {inner : String} (hp : Path.isPath inner = true)
    (ht : Text.trim inner.toList = inner.toList) :
    lexeme? (Template.opening ++ inner.toList ++ Template.closing)
      = some ([.reference inner], []) := by
  have hne : ∀ c ∈ inner.toList, c ≠ '\x7d' := by
    rintro c hc rfl
    cases Path.isWordChar_of_isPath hp ht _ hc
  have hcut : Text.cutAt ['\x7d', '\x7d'] (inner.toList ++ Template.closing)
      = some (inner.toList, []) := Text.cutAt_of_forall_ne hne []
  refine lexeme?_of_single? ?_
  rw [List.append_assoc]
  show single? ('\x7b' :: '\x7b' :: (inner.toList ++ Template.closing)) = _
  rw [single?_brace, reference?, hcut, Option.map_some]
  dsimp only
  rw [ht, String.ofList_toList]

end Lexer

/-- **An operator is one lexeme.** -/
theorem Operator.lexeme?_symbol (o : Operator) :
    Lexer.lexeme? o.symbol.toList = some ([.op o], []) := by
  cases o with
  | compare op => cases op <;> rfl
  | compute op => cases op <;> rfl
  | _ => rfl

/-! ## Texts of phrases -/

namespace Phrase

open Lexer (Scans)

variable {q q₁ q₂ : Phrase} {cs ds : List Char} {e l r : Expr} {o : Operator}

/-- A text in brackets. -/
theorem Spelled.brackets (h : disjunction.Spelled cs e) :
    operand.Spelled ('(' :: (cs ++ [')'])) e := by
  obtain ⟨ts, hs, hd⟩ := h
  have hopening : Lexer.lexeme? ('(' :: (cs ++ [')'])) = some ([.opening], cs ++ [')']) := rfl
  have hclosing : Scans [')'] [.closing] := .single rfl
  exact ⟨_, .lexeme hopening (hs.append hclosing rfl), .brackets hd⟩

/-- The tokens of an operator and a text behind it. -/
theorem scans_spaced (o : Operator) {ts : List Token} (h : Scans cs ts) :
    Scans (o.spaced ++ cs) (.op o :: ts) := by
  have hblank : Scans (' ' :: cs) ts := .blank rfl h
  have hop := (Scans.single o.lexeme?_symbol).append hblank rfl
  rw [Operator.spaced, List.cons_append, List.append_assoc]
  exact .blank rfl hop

/-- An operator in front of a phrase. -/
theorem Spelled.prefixed (h : q.Spelled cs l)
    (hd : ∀ ts, q.Derives ts l → q₁.Derives (.op o :: ts) e) :
    q₁.Spelled (o.spaced ++ cs) e := by
  obtain ⟨ts, hs, hl⟩ := h
  exact ⟨_, scans_spaced o hs, hd ts hl⟩

/-- An operator between two phrases. -/
theorem Spelled.joined (hl : q₁.Spelled cs l) (hr : q₂.Spelled ds r)
    (hd : ∀ ts us, q₁.Derives ts l → q₂.Derives us r → q.Derives (ts ++ .op o :: us) e) :
    q.Spelled (cs ++ (o.spaced ++ ds)) e := by
  obtain ⟨ts, hts, htl⟩ := hl
  obtain ⟨us, hus, hur⟩ := hr
  exact ⟨_, hts.append (scans_spaced o hus) rfl, hd ts us htl hur⟩

end Phrase

/-! ## Reading what is written -/

namespace Expr

/-- **A leaf is one lexeme**, and its token is an operand with the leaf for its tree. -/
theorem lexeme?_leaf {e : Expr} (hc : e.isCompound = false) (hw : e.isWritable = true) :
    ∃ t, Lexer.lexeme? e.written = some ([t], []) ∧ Phrase.operand.Derives [t] e.asRead := by
  cases e with
  | literal v =>
    cases v with
    | null => exact ⟨_, rfl, .literal _⟩
    | bool b => exact ⟨.literal (.bool b), by cases b <;> rfl, .literal _⟩
    | number n =>
      cases n with
      | double => cases hw
      | int n hf =>
        rw [isWritable, Value.isLiteral, Bool.and_eq_true, decide_eq_true_eq,
          decide_eq_true_eq] at hw
        obtain ⟨n, rfl⟩ := Int.eq_ofNat_of_zero_le hw.1
        have hdigits : written (.literal (.number (.int n hf))) = Nat.toDigits 10 n := by
          have hn : ¬ (n : Int) < 0 := by omega
          show (Number.int n hf).render.toList = _
          rw [Number.render, if_neg hn, Int.natAbs_natCast, Nat.toString_eq_ofList_toDigits,
            String.toList_ofList]
        rw [hdigits]
        exact ⟨_, Lexer.lexeme?_toDigits (by omega) hf, .literal _⟩
    | text s =>
      refine ⟨.text s, Lexer.lexeme?_inQuotes s, ?_⟩
      exact Parser.textExpr_derives s
    | list => cases hw
    | record => cases hw
  | template s => exact ⟨.text s, Lexer.lexeme?_inQuotes s, .template hw⟩
  | name word => exact ⟨.name word, Lexer.lexeme?_word hw, .name word⟩
  | reference inner =>
    rw [isWritable, Bool.and_eq_true, beq_iff_eq] at hw
    exact ⟨.reference inner, Lexer.lexeme?_reference hw.1 hw.2, .reference inner⟩
  | _ => cases hc

/-- **As an operand, a tree is read back** if its own text is. -/
theorem operand_written {e : Expr} (hw : e.isWritable = true)
    (h : Phrase.disjunction.Spelled e.written e.asRead) :
    Phrase.operand.Spelled (e.enclosed e.written) e.asRead := by
  cases hc : e.isCompound with
  | true =>
    rw [enclosed, hc]
    exact h.brackets
  | false =>
    obtain ⟨t, hl, hd⟩ := lexeme?_leaf hc hw
    rw [enclosed, hc]
    exact ⟨_, .single hl, hd⟩

/-- **The text of a tree is read back**, by induction on the tree. -/
theorem spelled_written {e : Expr} (hw : e.isWritable = true) :
    Phrase.disjunction.Spelled e.written e.asRead := by
  have hleaf : ∀ e : Expr, e.isCompound = false → e.isWritable = true →
      Phrase.disjunction.Spelled e.written e.asRead := by
    intro e hc hw
    obtain ⟨t, hl, hd⟩ := lexeme?_leaf hc hw
    exact ⟨[t], .single hl, hd.ofKind _⟩
  induction e with
  | literal v => exact hleaf _ rfl hw
  | template s => exact hleaf _ rfl hw
  | name word => exact hleaf _ rfl hw
  | reference inner => exact hleaf _ rfl hw
  | not e ih =>
    refine (operand_written (e := e) hw (ih hw)).prefixed fun ts h => ?_
    exact .ofConjunction (.ofNegation (.not (h.ofKind _)))
  | neg e ih =>
    refine (operand_written (e := e) hw (ih hw)).prefixed fun ts h => ?_
    exact (Phrase.Derives.neg (h.ofKind _)).toDisjunction nofun
  | and l r ihl ihr =>
    have hw := Bool.and_eq_true_iff.mp hw
    refine (operand_written hw.1 (ihl hw.1)).joined (operand_written hw.2 (ihr hw.2))
      fun ts us hl hr => ?_
    exact .ofConjunction (.and (hl.ofKind _) (hr.ofKind _))
  | or l r ihl ihr =>
    have hw := Bool.and_eq_true_iff.mp hw
    refine (operand_written hw.1 (ihl hw.1)).joined (operand_written hw.2 (ihr hw.2))
      fun ts us hl hr => ?_
    exact .or (hl.ofKind _) (hr.ofKind _)
  | compare op l r ihl ihr =>
    have hw := Bool.and_eq_true_iff.mp hw
    refine (operand_written hw.1 (ihl hw.1)).joined (operand_written hw.2 (ihr hw.2))
      fun ts us hl hr => ?_
    exact (Phrase.Derives.compare (hl.ofKind _) (hr.ofKind _)).toDisjunction
      (hl.head_append_ne_op _ _)
  | compute op l r ihl ihr =>
    have hw := Bool.and_eq_true_iff.mp hw
    refine (operand_written hw.1 (ihl hw.1)).joined (operand_written hw.2 (ihr hw.2))
      fun ts us hl hr => ?_
    have hhead := hl.head_append_ne_op (.op (.compute op) :: us) .not
    cases op with
    | add | sub =>
      exact (Phrase.Derives.sum (by simp) (hl.ofKind _) (hr.ofKind _)).toDisjunction hhead
    | mul | div | rem =>
      exact (Phrase.Derives.product (by simp) (hl.ofKind _) (hr.ofKind _)).toDisjunction hhead

/-- **Parsing undoes printing.** The text of a tree is read as that tree, with templates for
the strings that have `{{` in them; if there are none, it is the very same tree. -/
theorem parse_written (e : Expr) (hw : e.isWritable = true) :
    parse (String.ofList e.written) = .ok e.asRead ∧ (e.isPlain = true → e.asRead = e) := by
  refine ⟨parse_eq_ok_iff.mpr ?_, asRead_of_isPlain⟩
  rw [String.toList_ofList]
  exact spelled_written hw

/-- A string with a quote in it, a path and three operators. -/
theorem parse_written_ready :
    let e : Expr := .and (.not (.name "ready"))
      (.compare .ne (.reference "row.total") (.literal (.text "it's")))
    let text := "( ! ready) && (\x7b\x7brow.total\x7d\x7d != 'it\\'s')"
    e.isWritable = true ∧ e.isPlain = true ∧ String.ofList e.written = text
      ∧ parse text = .ok e := by
  intro e text
  have hw : e.isWritable = true := by decide +kernel
  have hp : e.isPlain = true := by decide +kernel
  have ht : String.ofList e.written = text := by decide +kernel
  obtain ⟨hparse, hplain⟩ := parse_written e hw
  exact ⟨hw, hp, ht, ht ▸ hplain hp ▸ hparse⟩

end Expr

end Playbook
