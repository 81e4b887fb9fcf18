/-!
# Blank characters and trimming

The blanks are the twenty-five characters with the Unicode property `White_Space`. Names, paths,
placeholders and numbers written as text are read without the blanks around them.

Trimming is defined on lists of characters; `trimmed` is the same for strings.
-/

namespace Playbook.Text

/-- The characters with the Unicode property `White_Space`. -/
def isBlank (c : Char) : Bool :=
  let n := c.toNat
  (9 ≤ n && n ≤ 13) || n == 0x20 || n == 0x85 || n == 0xA0 || n == 0x1680
    || (0x2000 ≤ n && n ≤ 0x200A) || n == 0x2028 || n == 0x2029 || n == 0x202F
    || n == 0x205F || n == 0x3000

/-- The text without the blanks it begins with. -/
def trimStart (cs : List Char) : List Char :=
  cs.dropWhile isBlank

/-- The text without the blanks it ends with. -/
def trimEnd (cs : List Char) : List Char :=
  (cs.reverse.dropWhile isBlank).reverse

/-- The text without the blanks around it. -/
def trim (cs : List Char) : List Char :=
  trimEnd (trimStart cs)

/-- The string without the blanks around it. -/
def trimmed (s : String) : String :=
  String.ofList (trim s.toList)

/-- What is left of a text after a given beginning, if it begins so. -/
def dropLead : List Char → List Char → Option (List Char)
  | [], cs => some cs
  | _ :: _, [] => none
  | p :: ps, c :: cs => if p = c then dropLead ps cs else none

/-- What is left of a text before a given ending, if it ends so. -/
def dropTail (tail cs : List Char) : Option (List Char) :=
  (dropLead tail.reverse cs.reverse).map List.reverse

/-- Cuts a text at the first place where `mark` stands: what is before it and what is behind it.
`none` if the mark does not occur. -/
def cutAt (mark : List Char) : List Char → Option (List Char × List Char)
  | [] => if mark = [] then some ([], []) else none
  | c :: cs =>
    match dropLead mark (c :: cs) with
    | some rest => some ([], rest)
    | none => (cutAt mark cs).map fun (before, rest) => (c :: before, rest)

/-- Whether `part` stands somewhere in the text. -/
def occursIn (part whole : List Char) : Bool :=
  (cutAt part whole).isSome

@[simp] theorem trimStart_nil : trimStart [] = [] := rfl

@[simp] theorem trim_nil : trim [] = [] := rfl

theorem length_trimStart_le (cs : List Char) : (trimStart cs).length ≤ cs.length :=
  (List.dropWhile_sublist _).length_le

/-- What follows a given beginning completes it to the whole text. -/
theorem dropLead_eq_some {p cs rest : List Char} :
    dropLead p cs = some rest ↔ cs = p ++ rest := by
  induction p generalizing cs with
  | nil => simp [dropLead, eq_comm]
  | cons a p ih =>
    cases cs with
    | nil => simp [dropLead]
    | cons c cs =>
      by_cases h : a = c
      · simp [dropLead, h, ih]
      · simp [dropLead, h, Ne.symm h]

/-- The two parts of a cut and the mark between them make up the whole text. -/
theorem eq_of_cutAt {mark cs before rest : List Char} (h : cutAt mark cs = some (before, rest)) :
    cs = before ++ mark ++ rest := by
  induction cs generalizing before with
  | nil =>
    by_cases hm : mark = []
    · simp [cutAt, hm] at h
      simp [hm, h]
    · simp [cutAt, hm] at h
  | cons c cs ih =>
    unfold cutAt at h
    split at h
    · next rest' hd =>
      simp at h
      rw [dropLead_eq_some] at hd
      simp [← h.1, hd, h.2]
    · next hd =>
      obtain ⟨⟨b, r⟩, hb, he⟩ := Option.map_eq_some_iff.1 h
      simp at he
      obtain ⟨rfl, rfl⟩ := he
      rw [ih hb]
      simp

end Playbook.Text
