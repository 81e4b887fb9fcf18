import Playbook.Proofs.Text.Search
import Playbook.Template

/-!
# How a text splits

A template is read from left to right. Plain text goes on to the first opening braces, a placeholder
to the first closing braces behind them, and what is opened and never closed is the end of the text.
This says what the pieces of a text are (`Template.Splits`), and there is one way only to split a
text like this: the pieces that it is read in (`Template.splits_iff`).

That plain text goes on to the *first* opening braces is more than that it has none. The plain text
in front of a placeholder does not end with a brace either: in `{{{x}}` the placeholder begins with
the first brace, and not with the second.
-/

namespace Playbook.Template

/-- **The pieces that a text splits into**, from left to right. -/
inductive Splits : List Piece → List Char → Prop
  /-- Nothing is opened. -/
  | plain {cs : List Char} (h : ¬ opening <:+: cs) : Splits [.plain cs] cs
  /-- What is opened is never closed. -/
  | unclosed {before behind : List Char} (ho : ¬ opening <:+: before ++ ['\x7b'])
    (hc : ¬ closing <:+: behind) :
    Splits [.plain before, .unclosed behind] (before ++ opening ++ behind)
  /-- What is opened first is closed by the first closing braces. -/
  | placeholder {before inner rest : List Char} {ps : List Piece}
    (ho : ¬ opening <:+: before ++ ['\x7b']) (hc : ¬ closing <:+: inner ++ ['\x7d'])
    (h : Splits ps rest) :
    Splits (.plain before :: .placeholder inner :: ps)
      (before ++ opening ++ (inner ++ closing ++ rest))

variable {cs inner rest : List Char} {ps : List Piece}

/-- A text splits into the pieces that it is read in. -/
theorem splits_pieces (cs : List Char) : Splits (pieces cs) cs := by
  fun_induction pieces cs with
  | case1 cs ho => exact .plain ((Text.cutAt_eq_none_iff (by decide)).mp ho)
  | case2 cs before behind ho hc =>
    obtain ⟨rfl, hfirst⟩ := (Text.cutAt_eq_some_iff (by decide)).mp ho
    exact .unclosed hfirst ((Text.cutAt_eq_none_iff (by decide)).mp hc)
  | case3 cs before behind ho inner rest hc ih =>
    obtain ⟨rfl, hopen⟩ := (Text.cutAt_eq_some_iff (by decide)).mp ho
    obtain ⟨rfl, hclose⟩ := (Text.cutAt_eq_some_iff (by decide)).mp hc
    exact .placeholder hopen hclose ih

/-- The pieces of a text, told by where it is cut. -/
theorem pieces_eq (cs : List Char) : pieces cs = match Text.cutAt opening cs with
    | none => [.plain cs]
    | some (before, behind) => match Text.cutAt closing behind with
      | none => [.plain before, .unclosed behind]
      | some (inner, rest) => .plain before :: .placeholder inner :: pieces rest := by
  fun_cases pieces cs with
  | case1 ho => rw [ho]
  | case2 before behind ho hc => simp only [ho, hc]
  | case3 before behind ho inner rest hc => simp only [ho, hc]

/-- **A text splits in one way only**: each piece tells where the text is cut. -/
theorem Splits.eq_pieces (h : Splits ps cs) : ps = pieces cs := by
  induction h with
  | plain h =>
    rw [pieces_eq, (Text.cutAt_eq_none_iff (by decide)).mpr h]
  | @unclosed before behind ho hc =>
    have hopen : Text.cutAt opening (before ++ opening ++ behind) = some (before, behind) :=
      (Text.cutAt_eq_some_iff (by decide)).mpr ⟨rfl, ho⟩
    have hclose : Text.cutAt closing behind = none := (Text.cutAt_eq_none_iff (by decide)).mpr hc
    simp only [pieces_eq, hopen, hclose]
  | @placeholder before inner rest ps ho hc _ ih =>
    have hopen : Text.cutAt opening (before ++ opening ++ (inner ++ closing ++ rest))
        = some (before, inner ++ closing ++ rest) :=
      (Text.cutAt_eq_some_iff (by decide)).mpr ⟨rfl, ho⟩
    have hclose : Text.cutAt closing (inner ++ closing ++ rest) = some (inner, rest) :=
      (Text.cutAt_eq_some_iff (by decide)).mpr ⟨rfl, hc⟩
    rw [ih, pieces_eq (before ++ opening ++ (inner ++ closing ++ rest))]
    simp only [hopen, hclose]

theorem splits_iff : Splits ps cs ↔ ps = pieces cs :=
  ⟨Splits.eq_pieces, fun h => h ▸ splits_pieces cs⟩

/-- A text without opening braces is one piece. -/
theorem pieces_plain (h : ¬ opening <:+: cs) : pieces cs = [.plain cs] :=
  (Splits.plain h).eq_pieces.symm

/-- A placeholder that a text begins with is closed by the first two closing braces. -/
theorem pieces_placeholder (h : ¬ closing <:+: inner ++ ['\x7d']) (rest : List Char) :
    pieces ((Piece.placeholder inner).written ++ rest)
      = .plain [] :: .placeholder inner :: pieces rest := by
  refine (splits_iff.mp ?_).symm
  rw [Piece.written, List.append_assoc, List.append_assoc, ← List.append_assoc inner]
  exact .placeholder (by decide) h (splits_pieces rest)

/-- A text that is a single placeholder. -/
theorem single?_eq_some_iff : single? cs = some inner
    ↔ cs = (Piece.placeholder inner).written ∧ ¬ opening <:+: inner ∧ ¬ closing <:+: inner := by
  have ho : Text.occursIn opening inner = false ↔ ¬ opening <:+: inner :=
    Text.occursIn_eq_false_iff (by decide)
  have hc : Text.occursIn closing inner = false ↔ ¬ closing <:+: inner :=
    Text.occursIn_eq_false_iff (by decide)
  unfold single?
  constructor
  · intro h
    split at h
    · cases h
    · rename_i behind hbehind
      split at h
      · cases h
      · rename_i us hus
        obtain ⟨hn, he⟩ := Option.ite_none_left_eq_some.mp h
        cases he
        rw [Bool.or_eq_true, not_or, Bool.not_eq_true, Bool.not_eq_true, ho, hc] at hn
        refine ⟨?_, hn⟩
        rw [Text.dropLead_eq_some.mp hbehind, Text.dropTail_eq_some.mp hus]
        exact (List.append_assoc _ _ _).symm
  · rintro ⟨rfl, hno, hnc⟩
    have hlead : Text.dropLead opening (Piece.placeholder inner).written
        = some (inner ++ closing) := Text.dropLead_eq_some.mpr (List.append_assoc _ _ _)
    have htail : Text.dropTail closing (inner ++ closing) = some inner :=
      Text.dropTail_eq_some.mpr rfl
    rw [hlead]
    dsimp only
    rw [htail]
    dsimp only
    rw [ho.mpr hno, hc.mpr hnc]
    rfl

end Playbook.Template
