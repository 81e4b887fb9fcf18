import Mathlib.Algebra.Group.Nat.Defs
import Playbook.Proofs.Expr.Printing
import Playbook.Proofs.Expr.Trimming
import Playbook.Proofs.Text.Search

/-!
# The grammar of paths

The reader of paths is a scanner with one loop inside another. What it accepts is a grammar of
three rules: a path is an identifier with segments behind it, and a segment is a key behind a point
(`Segment.Spelled.key`) or an index in brackets (`Segment.Spelled.index`). The scanner reads a text
as a path if and only if the text without the blanks around it is spelled so
(`Path.parse?_eq_some_iff`).

A name ends where a segment begins, because neither a point nor a bracket belongs to it. So the
names in a spelled text are found again, and a text is spelled in one way only.

A path has a text of its own, with its indices in decimal (`Path.print`). The paths that are read
back from their texts are the well-formed ones, and no other path is ever read (`Path.Valid`).
-/

namespace Playbook

/-! ## Names -/

namespace Path

theorem not_isBlank_of_isNameChar {c : Char} (h : isNameChar c = true) :
    Text.isBlank c = false := by
  rw [Bool.eq_false_iff]
  intro hb
  have hn := Lexer.toNat_of_isWordChar (isWordChar_of_isNameChar h)
  simp only [Text.isBlank, Bool.or_eq_true, Bool.and_eq_true, decide_eq_true_eq, beq_iff_eq] at hb
  omega

/-- The characters of a name go on up to the next segment. -/
theorem inName_of_isNameChar {c : Char} (h : isNameChar c = true) : inName c = true := by
  rw [inName, Bool.and_eq_true, bne_iff_ne, bne_iff_ne]
  constructor
  · rintro rfl
    cases h
  · rintro rfl
    cases h

theorem all_isNameChar_of_isIdentifier {cs : List Char} (h : isIdentifier cs = true) :
    ∀ c ∈ cs, isNameChar c = true := by
  cases cs with
  | nil => exact nofun
  | cons c cs =>
    rw [isIdentifier, Bool.and_eq_true] at h
    refine List.forall_mem_cons.mpr ⟨?_, List.all_eq_true.mp h.2⟩
    have hstart := h.1
    rw [isNameStart, Bool.or_eq_true, Bool.or_eq_true] at hstart
    rw [isNameChar, Char.isAlphanum]
    obtain (h | h) | h := hstart <;> simp [h]

theorem ne_nil_of_isIdentifier {cs : List Char} (h : isIdentifier cs = true) : cs ≠ [] := by
  rintro rfl
  cases h

end Path

/-! ## Spelling -/

/-- **A segment as text**: a key of one or more characters of identifiers behind a point, or one or
more digits in brackets, for an index of 64 bits. -/
inductive Segment.Spelled : List Char → Segment → Prop
  | key {name : List Char} (hne : name ≠ []) (hname : ∀ c ∈ name, Path.isNameChar c = true) :
      Spelled ('.' :: name) (.key (String.ofList name))
  | index {ds : List Char} (hne : ds ≠ []) (hds : ∀ d ∈ ds, d.isDigit = true)
      (hlt : Numeral.valueFrom 0 ds < 2 ^ 64) :
      Spelled ('[' :: (ds ++ [']'])) (.index (Numeral.valueFrom 0 ds))

/-- Segments as text: the texts of all of them, one behind the other. -/
inductive Segment.AllSpelled : List Char → List Segment → Prop
  | nil : AllSpelled [] []
  | cons {cs rest : List Char} {s : Segment} {segments : List Segment} (head : s.Spelled cs)
      (tail : AllSpelled rest segments) : AllSpelled (cs ++ rest) (s :: segments)

/-- **A path as text**: an identifier with segments behind it. -/
inductive Path.Spelled : List Char → Path → Prop
  | mk {root rest : List Char} {segments : List Segment} (hroot : isIdentifier root = true)
      (tail : Segment.AllSpelled rest segments) :
      Spelled (root ++ rest) ⟨String.ofList root, segments⟩

namespace Segment

/-- A segment begins with a character that no name has. -/
theorem Spelled.exists_cons {cs : List Char} {s : Segment} (h : s.Spelled cs) :
    ∃ c us, cs = c :: us ∧ Path.inName c = false := by
  cases h with
  | key => exact ⟨_, _, rfl, rfl⟩
  | index => exact ⟨_, _, rfl, rfl⟩

/-- There are no blanks in a segment. -/
theorem Spelled.not_isBlank {cs : List Char} {s : Segment} (h : s.Spelled cs) :
    ∀ c ∈ cs, Text.isBlank c = false := by
  cases h with
  | key _ hname =>
    exact List.forall_mem_cons.mpr
      ⟨by decide, fun c hc => Path.not_isBlank_of_isNameChar (hname c hc)⟩
  | index _ hds =>
    refine List.forall_mem_cons.mpr ⟨by decide, fun c hc => ?_⟩
    obtain hc | hc := List.mem_append.mp hc
    · exact Text.isBlank_of_isDigit (hds c hc)
    · rw [List.mem_singleton.mp hc]
      decide

theorem AllSpelled.not_isBlank {cs : List Char} {segments : List Segment}
    (h : AllSpelled cs segments) : ∀ c ∈ cs, Text.isBlank c = false := by
  induction h with
  | nil => exact nofun
  | cons head _ ih => exact List.forall_mem_append.mpr ⟨head.not_isBlank, ih⟩

/-- What begins with a segment, if with anything, is no longer part of a name. -/
theorem AllSpelled.takeWhile_inName {rest : List Char} {segments : List Segment}
    (h : AllSpelled rest segments) :
    rest.takeWhile Path.inName = [] ∧ rest.dropWhile Path.inName = rest := by
  cases h with
  | nil => exact ⟨rfl, rfl⟩
  | cons head _ =>
    obtain ⟨c, us, rfl, hc⟩ := head.exists_cons
    have hneg : ¬ Path.inName c = true := by
      rw [hc]
      exact Bool.false_ne_true
    exact ⟨List.takeWhile_cons_of_neg hneg, List.dropWhile_cons_of_neg hneg⟩

/-- **A name is found again** in front of segments. -/
theorem AllSpelled.name_append {name rest : List Char} {segments : List Segment}
    (h : AllSpelled rest segments) (hname : ∀ c ∈ name, Path.isNameChar c = true) :
    (name ++ rest).takeWhile Path.inName = name
      ∧ (name ++ rest).dropWhile Path.inName = rest := by
  have hin : ∀ c ∈ name, Path.inName c = true := fun c hc =>
    Path.inName_of_isNameChar (hname c hc)
  obtain ⟨htake, hdrop⟩ := h.takeWhile_inName
  constructor
  · rw [List.takeWhile_append_of_pos hin, htake, List.append_nil]
  · rw [List.dropWhile_append_of_pos hin, hdrop]

end Segment

namespace Numeral

/-- **An index of 64 bits** is written with one or more digits. -/
theorem index?_eq_some_iff {ds : List Char} {n : Nat} :
    index? ds = some n
      ↔ ds ≠ [] ∧ (∀ d ∈ ds, d.isDigit = true) ∧ n = valueFrom 0 ds ∧ n < 2 ^ 64 := by
  have hpow : twoTo 64 = 2 ^ 64 := by decide
  rw [index?, Option.filter_eq_some_iff, digits?, hpow, decide_eq_true_eq]
  by_cases hds : ds.isEmpty || !ds.all Char.isDigit
  · rw [if_pos hds]
    refine ⟨fun h => absurd h.1.symm (Option.some_ne_none n), fun h => ?_⟩
    rw [Bool.or_eq_true, List.isEmpty_iff, Bool.not_eq_true', List.all_eq_false] at hds
    obtain hnil | ⟨d, hd, hno⟩ := hds
    · exact absurd hnil h.1
    · exact absurd (h.2.1 d hd) hno
  · rw [if_neg hds, Option.some.injEq]
    rw [Bool.or_eq_true, not_or, List.isEmpty_iff, Bool.not_eq_true', Bool.not_eq_false,
      List.all_eq_true] at hds
    constructor
    · rintro ⟨rfl, hlt⟩
      exact ⟨hds.1, hds.2, rfl, hlt⟩
    · rintro ⟨-, -, rfl, hlt⟩
      exact ⟨rfl, hlt⟩

theorem index?_of_digits? {ds : List Char} {n : Nat} (h : digits? ds = some n) (hlt : n < 2 ^ 64) :
    index? ds = some n := by
  have hpow : twoTo 64 = 2 ^ 64 := by decide
  rw [index?, h, hpow]
  exact Option.filter_some_pos (decide_eq_true hlt)

/-- A number is read back from its decimal form. -/
theorem digits?_toString (n : Nat) : digits? (toString n).toList = some n :=
  (congrArg digits? Nat.toList_repr).trans (Lexer.digits?_toDigits n)

end Numeral

/-! ## Reading -/

namespace Path

/-- Digits are found again in front of a closing bracket. -/
theorem digits_append {ds rest : List Char} (hds : ∀ d ∈ ds, d.isDigit = true) :
    (ds ++ ']' :: rest).takeWhile Char.isDigit = ds
      ∧ (ds ++ ']' :: rest).dropWhile Char.isDigit = ']' :: rest := by
  constructor
  · rw [List.takeWhile_append_of_pos hds, List.takeWhile_cons_of_neg (by decide), List.append_nil]
  · rw [List.dropWhile_append_of_pos hds, List.dropWhile_cons_of_neg (by decide)]

/-- The reader of segments at a bracket with digits behind it. -/
theorem segments?_index {ds rest : List Char} (hds : ∀ d ∈ ds, d.isDigit = true) :
    segments? ('[' :: (ds ++ ']' :: rest))
      = (Numeral.index? ds).bind fun n => (segments? rest).map (.index n :: ·) := by
  obtain ⟨htake, hdrop⟩ := @digits_append ds rest hds
  rw [segments?, if_neg (by decide), if_pos rfl, htake]
  split
  · rename_i behind hr
    rw [hdrop] at hr
    cases hr
    cases Numeral.index? ds <;> rfl
  · rename_i hno
    exact absurd hdrop (hno rest)

/-- What is spelled with segments is read as those segments. -/
theorem segments?_of_allSpelled {cs : List Char} {segments : List Segment}
    (h : Segment.AllSpelled cs segments) : segments? cs = some segments := by
  induction h with
  | nil => rw [segments?]
  | cons head tail ih =>
    cases head with
    | @key name hne hname =>
      obtain ⟨htake, hdrop⟩ := tail.name_append hname
      have hok : ¬ (name.isEmpty || !name.all isNameChar) = true := by
        rw [List.isEmpty_eq_false_iff.mpr hne, List.all_eq_true.mpr hname]
        exact Bool.false_ne_true
      rw [List.cons_append, segments?, if_pos rfl, htake, hdrop]
      dsimp only
      rw [if_neg hok, ih, Option.map_some]
    | @index ds hne hds hlt =>
      rw [List.cons_append, List.append_assoc, List.singleton_append, segments?_index hds,
        Numeral.index?_eq_some_iff.mpr ⟨hne, hds, rfl, hlt⟩, Option.bind_some, ih, Option.map_some]

/-- What is read as segments is spelled with them. -/
theorem allSpelled_of_segments? {cs : List Char} {segments : List Segment}
    (h : segments? cs = some segments) : Segment.AllSpelled cs segments := by
  fun_induction segments? cs generalizing segments with
  | case1 =>
    cases h
    exact .nil
  | case2 => cases h
  | case3 rest key hok =>
    rename_i ih
    obtain ⟨behind, hbehind, rfl⟩ := Option.map_eq_some_iff.mp h
    rw [Bool.or_eq_true, not_or, List.isEmpty_iff, Bool.not_eq_true', Bool.not_eq_false,
      List.all_eq_true] at hok
    have hs := Segment.AllSpelled.cons (.key hok.1 hok.2) (ih hbehind)
    rwa [List.cons_append, List.takeWhile_append_dropWhile] at hs
  | case4 rest behind hr n hn _ ih =>
    obtain ⟨segments, hbehind, rfl⟩ := Option.map_eq_some_iff.mp h
    obtain ⟨hds, hdigits, rfl, hlt⟩ := Numeral.index?_eq_some_iff.mp hn
    have hs := Segment.AllSpelled.cons (.index hds hdigits hlt) (ih hbehind)
    rwa [List.cons_append, List.append_assoc, List.singleton_append, ← hr,
      List.takeWhile_append_dropWhile] at hs
  | case5 => cases h
  | case6 => cases h
  | case7 => cases h

/-- **The grammar of paths**: a text is read as a path if and only if it is spelled with it when the
blanks around it are taken away. -/
theorem parse?_eq_some_iff {text : String} {path : Path} :
    parse? text = some path ↔ path.Spelled (Text.trim text.toList) := by
  rw [parse?, ofChars?]
  generalize Text.trim text.toList = cs
  constructor
  · intro h
    split at h
    · rename_i hroot
      obtain ⟨segments, hsegments, rfl⟩ := Option.map_eq_some_iff.mp h
      have hs := Spelled.mk hroot (allSpelled_of_segments? hsegments)
      rwa [List.takeWhile_append_dropWhile] at hs
    · cases h
  · rintro ⟨hroot, tail⟩
    obtain ⟨htake, hdrop⟩ := tail.name_append (all_isNameChar_of_isIdentifier hroot)
    rw [htake, hdrop, if_pos hroot, segments?_of_allSpelled tail, Option.map_some]

/-- Taking away blanks does nothing to the text of a path. -/
theorem Spelled.trim {cs : List Char} {path : Path} (h : path.Spelled cs) :
    Text.trim cs = cs := by
  obtain ⟨hroot, tail⟩ := h
  have hall := all_isNameChar_of_isIdentifier hroot
  have hnone : ∀ c ∈ ([] : List Char), Text.isBlank c = true := nofun
  have htrim := Text.trim_of_blanks hnone hnone
    (List.append_ne_nil_of_left_ne_nil (ne_nil_of_isIdentifier hroot) _)
    (List.forall_mem_append.mpr ⟨fun c hc => not_isBlank_of_isNameChar (hall c hc),
      tail.not_isBlank⟩)
  rwa [List.nil_append, List.append_nil] at htrim

/-- What is spelled with a path is read as the path. -/
theorem Spelled.parse? {text : String} {path : Path} (h : path.Spelled text.toList) :
    parse? text = some path := by
  rw [parse?_eq_some_iff, h.trim]
  exact h

theorem spelled_of_isIdentifier {cs : List Char} (h : isIdentifier cs = true) :
    Spelled cs ⟨String.ofList cs, []⟩ := by
  have hs := Spelled.mk h .nil
  rwa [List.append_nil] at hs

/-- **An identifier is a path** to the variable of its name. -/
theorem parse?_of_isIdentifier {name : String} (h : isIdentifier name.toList = true) :
    parse? name = some ⟨name, []⟩ := by
  have hs := spelled_of_isIdentifier h
  rw [String.ofList_toList] at hs
  exact hs.parse?

end Path

/-! ## Printing -/

/-- A segment as text, with an index in decimal. -/
def Segment.print : Segment → List Char
  | key name => '.' :: name.toList
  | index n => '[' :: (Nat.toDigits 10 n ++ [']'])

/-- Whether a segment is well formed: its key has one or more characters of identifiers, its index
has 64 bits. -/
def Segment.Valid : Segment → Prop
  | key name => name.toList ≠ [] ∧ ∀ c ∈ name.toList, Path.isNameChar c = true
  | index n => n < 2 ^ 64

namespace Path

/-- **A path as text.** -/
def print (path : Path) : String :=
  String.ofList (path.root.toList ++ path.segments.flatMap Segment.print)

/-- Whether a path is well formed: its root is an identifier, and its segments are well formed. -/
structure Valid (path : Path) : Prop where
  root : isIdentifier path.root.toList = true
  segments : ∀ s ∈ path.segments, s.Valid

end Path

namespace Segment

theorem Valid.spelled {s : Segment} (h : s.Valid) : s.Spelled s.print := by
  cases s with
  | key name =>
    have hs := Spelled.key h.1 h.2
    rwa [String.ofList_toList] at hs
  | index n =>
    have hv := Lexer.valueFrom_toDigits n
    have hdigits := List.all_eq_true.mp (Lexer.all_isDigit_toDigits n)
    have hs := Spelled.index Nat.toDigits_ne_nil hdigits (by rw [hv]; exact h)
    rwa [hv] at hs

theorem Spelled.valid {cs : List Char} {s : Segment} (h : s.Spelled cs) : s.Valid := by
  cases h with
  | key hne hname =>
    rw [Valid, String.toList_ofList]
    exact ⟨hne, hname⟩
  | index _ _ hlt => exact hlt

theorem allSpelled_print {segments : List Segment} (h : ∀ s ∈ segments, s.Valid) :
    AllSpelled (segments.flatMap print) segments := by
  induction segments with
  | nil => exact .nil
  | cons s segments ih =>
    obtain ⟨hs, hrest⟩ := List.forall_mem_cons.mp h
    exact .cons hs.spelled (ih hrest)

theorem AllSpelled.valid {cs : List Char} {segments : List Segment}
    (h : AllSpelled cs segments) : ∀ s ∈ segments, s.Valid := by
  induction h with
  | nil => exact nofun
  | cons head _ ih => exact List.forall_mem_cons.mpr ⟨head.valid, ih⟩

end Segment

namespace Path

theorem Spelled.valid {cs : List Char} {path : Path} (h : path.Spelled cs) : path.Valid := by
  obtain ⟨hroot, tail⟩ := h
  exact ⟨by rwa [String.toList_ofList], tail.valid⟩

/-- The text of a well-formed path is spelled with it. -/
theorem Valid.spelled {path : Path} (h : path.Valid) : path.Spelled path.print.toList := by
  have hs := Spelled.mk h.root (Segment.allSpelled_print h.segments)
  rw [String.ofList_toList] at hs
  rwa [print, String.toList_ofList]

/-- Only well-formed paths are read. -/
theorem valid_of_parse? {text : String} {path : Path} (h : parse? text = some path) :
    path.Valid :=
  (parse?_eq_some_iff.mp h).valid

/-- **A path is read back from its text** if and only if it is well formed. -/
theorem parse?_print_iff {path : Path} : parse? path.print = some path ↔ path.Valid :=
  ⟨valid_of_parse?, fun h => h.spelled.parse?⟩

end Path

/-! ## Going down by a key that is a number -/

namespace Value

theorem at?_append (v : Value) (before behind : List Segment) :
    v.at? (before ++ behind) = (v.at? before).bind fun u => u.at? behind := by
  rw [at?, List.foldlM_append]
  rfl

/-- In a list, a key that is a number is an index. -/
theorem step?_numeral {items : List Value} {name : String} {n : Nat}
    (h : Numeral.index? name.toList = some n) :
    (list items).step? (.key name) = (list items).step? (.index n) := by
  rw [step?, step?, h, Option.bind_some]

/-- So it leads on to the same place. -/
theorem at?_numeral {v : Value} {before : List Segment} {items : List Value}
    (hv : v.at? before = some (list items)) {name : String} {n : Nat}
    (h : Numeral.index? name.toList = some n) (behind : List Segment) :
    v.at? (before ++ .key name :: behind) = v.at? (before ++ .index n :: behind) := by
  rw [at?_append, at?_append, hv, Option.bind_some, Option.bind_some, at?, at?, List.foldlM_cons,
    List.foldlM_cons, step?_numeral h]

end Value

/-- **Paths have exactly one grammar.** A text is read as a path if and only if, without the blanks
around it, it is an identifier with segments behind it, and those are the root and the segments of
the path. A path is read back from its own text if and only if it is well formed, and only
well-formed paths are read. Wherever a list is, a key with the decimal digits of a number of 64 bits
leads where the index leads: to the item at that place, or to nothing. -/
theorem Path.read_by_one_grammar :
    (∀ text path, parse? text = some path ↔ path.Spelled (Text.trim text.toList))
      ∧ (∀ path : Path, (parse? path.print = some path ↔ path.Valid)
          ∧ ∀ text, parse? text = some path → path.Valid)
      ∧ ∀ (v : Value) (before behind : List Segment) (items : List Value) (name : String) (n : Nat),
          v.at? before = some (.list items) →
          Numeral.digits? name.toList = some n ∨ name = toString n → n < 2 ^ 64 →
          v.at? (before ++ .key name :: behind) = v.at? (before ++ .index n :: behind)
            ∧ v.at? (before ++ [.key name]) = items[n]?
            ∧ v.at? (before ++ [.index n]) = items[n]? := by
  refine ⟨fun text path => parse?_eq_some_iff,
    fun path => ⟨parse?_print_iff, fun _ => valid_of_parse?⟩, ?_⟩
  intro v before behind items name n hv hname hlt
  have hindex : Numeral.index? name.toList = some n := by
    have hdigits : Numeral.digits? name.toList = some n := by
      obtain h | rfl := hname
      · exact h
      · exact Numeral.digits?_toString n
    exact Numeral.index?_of_digits? hdigits hlt
  have hat : v.at? (before ++ [.index n]) = items[n]? := by
    rw [Value.at?_append, hv, Option.bind_some]
    exact Option.bind_fun_some _
  exact ⟨Value.at?_numeral hv hindex behind, (Value.at?_numeral hv hindex []).trans hat, hat⟩

/-- Blanks around a path, a key with a leading zero, and an index beyond the list. -/
theorem Path.read_by_one_grammar_items :
    let items : List Value := [.null, .bool true]
    parse? " items.01[7] " = some ⟨"items", [.key "01", .index 7]⟩
      ∧ (Value.list items).at? [.key "01"] = some (.bool true)
      ∧ (Value.list items).at? [.key "7"] = none := by
  intro items
  obtain ⟨hread, -, hlist⟩ := Path.read_by_one_grammar
  have hkey : Segment.Spelled ".01".toList (.key "01") :=
    @Segment.Spelled.key "01".toList nofun (List.all_eq_true.mp (by decide))
  have hindex : Segment.Spelled "[7]".toList (.index 7) :=
    @Segment.Spelled.index "7".toList nofun (List.all_eq_true.mp (by decide)) (by decide)
  have hspelled : Spelled (Text.trim " items.01[7] ".toList) ⟨"items", [.key "01", .index 7]⟩ :=
    @Spelled.mk "items".toList _ _ (by decide) (.cons hkey (.cons hindex .nil))
  exact ⟨(hread _ _).mpr hspelled,
    (hlist (.list items) [] [] items "01" 1 rfl (.inl (by decide)) (by decide)).2.1,
    (hlist (.list items) [] [] items "7" 7 rfl (.inr (by decide)) (by decide)).2.1⟩

end Playbook
