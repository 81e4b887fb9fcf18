import Playbook.Proofs.Expr.Depth
import Playbook.Proofs.Template.Splitting

/-!
# Templates filled in

A template is filled in piece by piece: what a placeholder shows stands in its place, and everything
else stays as it is, the placeholders without a value among it.

* **Nothing else happens to a text** (`Scope.fill_of_splits`). It splits in one way, its pieces are
  filled in where they stand, and what was put in is not looked at again. The one thing that can go
  wrong is an expression in a placeholder that crashes; the first of these ends it all.
* **Filling in twice is filling in once** (`Scope.fill_fill`), if no value that is shown has an
  opening brace. What is put in brings its neighbours together, and the point is that no opening
  braces come into being this way: the plain text in front of a placeholder does not end with a
  brace. So the placeholders of the filled text are those that have stayed, in the same order
  (`Template.Splits.exists_filled`). Closing braces in a value do no harm, for nothing is open where
  it is put in.
-/

namespace Playbook

open Template (opening closing)

namespace Template

/-- **A piece that is filled in**, given what the placeholders show. One without a value stays. -/
def Piece.filled (shown? : List Char → Option String) : Piece → List Char
  | placeholder inner =>
    match shown? inner with
    | some s => s.toList
    | none => (placeholder inner).written
  | piece => piece.written

variable {shown? : List Char → Option String} {cs ds lead inner : List Char} {ps : List Piece}

theorem Piece.filled_of_none (h : shown? inner = none) :
    (placeholder inner).filled shown? = (placeholder inner).written := by
  rw [filled, h]

/-- Pieces that show nothing make up the text that they stand in. -/
theorem flatMap_filled_of_none (h : ∀ inner, .placeholder inner ∈ ps → shown? inner = none) :
    ps.flatMap (Piece.filled shown?) = ps.flatMap Piece.written := by
  refine List.flatMap_congr fun piece hp => ?_
  cases piece with
  | plain | unclosed => rfl
  | placeholder inner => exact Piece.filled_of_none (h inner hp)

/-- A text without opening braces stays as it is, however the texts inside of others are
evaluated. -/
theorem fillWith_of_not_hasPlaceholders {text : String} (h : hasPlaceholders text = false)
    (scope : Scope) (i : Inner) : fillWith scope i text = .ok text := by
  rw [fillWith, pieces_plain ((Text.occursIn_eq_false_iff (by decide)).mp h)]
  show Except.ok (String.ofList text.toList ++ "") = _
  rw [String.append_empty, String.ofList_toList]

/-! ## No new placeholders -/

/-- Behind a text that opens nothing, not even with one more brace, nothing is opened that was not
before. -/
theorem not_opening_append (hl : ¬ opening <:+: lead ++ ['\x7b']) (hc : ¬ opening <:+: cs) :
    ¬ opening <:+: lead ++ cs := by
  induction lead with
  | nil => exact hc
  | cons c lead ih =>
    rw [List.cons_append, List.infix_cons_iff] at hl ⊢
    obtain ⟨hhere, hthere⟩ := not_or.mp hl
    refine not_or.mpr ⟨fun h => hhere ?_, ih hthere⟩
    -- Both braces are in front, or the second one is the brace behind.
    obtain ⟨rfl, hnext⟩ := List.cons_prefix_cons.mp h
    refine List.cons_prefix_cons.mpr ⟨rfl, ?_⟩
    cases lead with
    | nil => exact List.prefix_rfl
    | cons d lead =>
      obtain ⟨rfl, -⟩ := List.cons_prefix_cons.mp hnext
      exact List.cons_prefix_cons.mpr ⟨rfl, List.nil_prefix⟩

/-- A text without opening braces opens nothing with one more. -/
theorem not_opening_concat (h : '\x7b' ∉ cs) : ¬ opening <:+: cs ++ ['\x7b'] := by
  intro hi
  obtain ⟨us, hus⟩ | hi := List.infix_concat_iff.mp hi
  · rw [opening, ← List.singleton_append, ← List.append_assoc] at hus
    refine h ?_
    rw [← (List.append_inj' hus rfl).1]
    exact List.mem_append_right _ (List.mem_singleton_self _)
  · exact h (hi.subset List.mem_cons_self)

/-- **Filling in opens no placeholders.** The induction is on the pieces, with the text in front of
them that has been filled in so far and opens nothing. -/
theorem Splits.exists_filled (h : Splits ps cs)
    (hs : ∀ inner s, .placeholder inner ∈ ps → shown? inner = some s → '\x7b' ∉ s.toList)
    (hl : ¬ opening <:+: lead ++ ['\x7b']) :
    ∃ qs, Splits qs (lead ++ ps.flatMap (Piece.filled shown?))
      ∧ ∀ inner, .placeholder inner ∈ qs → .placeholder inner ∈ ps ∧ shown? inner = none := by
  induction h generalizing lead with
  | @plain cs h =>
    refine ⟨[.plain (lead ++ cs)], ?_, by simp⟩
    rw [List.flatMap_singleton]
    exact .plain (not_opening_append hl h)
  | @unclosed before behind ho hc =>
    refine ⟨[.plain (lead ++ before), .unclosed behind], ?_, by simp⟩
    have hopen := not_opening_append hl ho
    rw [← List.append_assoc] at hopen
    have hsplit := Splits.unclosed hopen hc
    simpa [Piece.filled, Piece.written] using hsplit
  | @placeholder before inner rest ps ho hc hrest ih =>
    have hs' : ∀ inner s, .placeholder inner ∈ ps → shown? inner = some s → '\x7b' ∉ s.toList :=
      fun inner s hp => hs inner s (List.mem_cons_of_mem _ (List.mem_cons_of_mem _ hp))
    have hopen := not_opening_append hl ho
    rw [← List.append_assoc] at hopen
    cases hv : shown? inner with
    | none =>
      have hempty : ¬ opening <:+: [] ++ ['\x7b'] := by decide
      obtain ⟨qs, hqs, hkept⟩ := ih hs' hempty
      refine ⟨.plain (lead ++ before) :: .placeholder inner :: qs, ?_, ?_⟩
      · have hsplit := Splits.placeholder hopen hc hqs
        simpa [Piece.filled, hv, Piece.written] using hsplit
      · intro inner' hp
        simp only [List.mem_cons, Piece.placeholder.injEq, reduceCtorEq, false_or] at hp
        obtain rfl | hp := hp
        · exact ⟨by simp, hv⟩
        · exact ⟨by simp [(hkept inner' hp).1], (hkept inner' hp).2⟩
    | some s =>
      have hclean : '\x7b' ∉ s.toList := hs inner s (by simp) hv
      have hlead := not_opening_append hopen (not_opening_concat hclean)
      rw [← List.append_assoc] at hlead
      obtain ⟨qs, hqs, hkept⟩ := ih hs' hlead
      refine ⟨qs, ?_, fun inner' hp => ⟨by simp [(hkept inner' hp).1], (hkept inner' hp).2⟩⟩
      simpa [Piece.filled, hv, Piece.written] using hqs

end Template

namespace Scope

variable (scope : Scope) {text : String} {ps : List Template.Piece}

/-- The value of a placeholder with the given inside; none if it stays. -/
def placeholder (cs : List Char) : Except Crash (Option Value) :=
  Template.placeholderWith scope scope.whole cs

/-- **What a placeholder shows**: the text of its value. -/
def shown? (cs : List Char) : Option String :=
  match scope.placeholder cs with
  | .ok v => v.map Value.display
  | .error _ => none

/-- A piece is filled in with what it shows. -/
theorem pieceWith_eq (piece : Template.Piece)
    (h : ∀ cs, piece = .placeholder cs → ∃ v, scope.placeholder cs = .ok v) :
    Template.pieceWith scope scope.whole piece
      = .ok (String.ofList (piece.filled scope.shown?)) := by
  cases piece with
  | plain | unclosed => rfl
  | placeholder cs =>
    obtain ⟨v, hv⟩ := h cs rfl
    have hwith : Template.placeholderWith scope scope.whole cs = .ok v := hv
    rw [Template.pieceWith, hwith, Template.Piece.filled, shown?, hv]
    cases v with
    | none => rfl
    | some v => exact congrArg Except.ok String.ofList_toList.symm

theorem piecesWith_eq (h : ∀ cs, .placeholder cs ∈ ps → ∃ v, scope.placeholder cs = .ok v) :
    Template.piecesWith scope scope.whole ps
      = .ok (String.ofList (ps.flatMap (Template.Piece.filled scope.shown?))) := by
  induction ps with
  | nil => rfl
  | cons piece ps ih =>
    have hpiece := scope.pieceWith_eq piece fun cs hcs => h cs (hcs ▸ List.mem_cons_self)
    rw [Template.piecesWith, hpiece, ih fun cs hcs => h cs (List.mem_cons_of_mem _ hcs),
      List.flatMap_cons, String.ofList_append]
    rfl

/-- **The first placeholder that crashes**, among the pieces of a text. -/
def FirstCrash (ps : List Template.Piece) (c : Crash) : Prop :=
  ∃ before cs behind, ps = before ++ .placeholder cs :: behind
    ∧ (∀ cs', .placeholder cs' ∈ before → ∃ v, scope.placeholder cs' = .ok v)
    ∧ scope.placeholder cs = .error c

/-- No placeholder crashes, or one of them is the first. -/
theorem forall_ok_or_firstCrash (ps : List Template.Piece) :
    (∀ cs, .placeholder cs ∈ ps → ∃ v, scope.placeholder cs = .ok v)
      ∨ ∃ c, scope.FirstCrash ps c := by
  induction ps with
  | nil => exact .inl nofun
  | cons piece ps ih =>
    have hpiece : (∀ cs, piece = .placeholder cs → ∃ v, scope.placeholder cs = .ok v)
        ∨ ∃ cs c, piece = .placeholder cs ∧ scope.placeholder cs = .error c := by
      cases piece with
      | plain | unclosed => exact .inl nofun
      | placeholder cs =>
        cases hv : scope.placeholder cs with
        | ok v => exact .inl fun cs' hcs' => ⟨v, by cases hcs'; exact hv⟩
        | error c => exact .inr ⟨cs, c, rfl, hv⟩
    obtain hpiece | ⟨cs, c, rfl, hc⟩ := hpiece
    · have hcons : ∀ {qs : List Template.Piece},
          (∀ cs, .placeholder cs ∈ qs → ∃ v, scope.placeholder cs = .ok v) →
          ∀ cs, .placeholder cs ∈ piece :: qs → ∃ v, scope.placeholder cs = .ok v :=
        fun hqs cs hcs => (List.mem_cons.mp hcs).elim (fun h => hpiece cs h.symm) (hqs cs)
      obtain hps | ⟨c, before, cs, behind, rfl, hbefore, hc⟩ := ih
      · exact .inl (hcons hps)
      · exact .inr ⟨c, piece :: before, cs, behind, rfl, hcons hbefore, hc⟩
    · exact .inr ⟨c, [], cs, ps, rfl, nofun, hc⟩

theorem piecesWith_of_firstCrash {c : Crash} (h : scope.FirstCrash ps c) :
    Template.piecesWith scope scope.whole ps = .error c := by
  obtain ⟨before, cs, behind, rfl, hbefore, hcrash⟩ := h
  induction before with
  | nil =>
    have hwith : Template.placeholderWith scope scope.whole cs = .error c := hcrash
    rw [List.nil_append, Template.piecesWith, Template.pieceWith, hwith]
  | cons piece before ih =>
    have hpiece := scope.pieceWith_eq piece fun cs hcs =>
      hbefore cs (hcs ▸ List.mem_cons_self)
    rw [List.cons_append, Template.piecesWith, hpiece,
      ih fun cs hcs => hbefore cs (List.mem_cons_of_mem _ hcs)]
    rfl

/-- **What a text becomes**: its pieces filled in, or the first crash. -/
theorem fill_cases (text : String) :
    ((∀ cs, .placeholder cs ∈ Template.pieces text.toList → ∃ v, scope.placeholder cs = .ok v)
      ∧ scope.fill text = .ok (String.ofList
        ((Template.pieces text.toList).flatMap (Template.Piece.filled scope.shown?))))
    ∨ ∃ c, scope.FirstCrash (Template.pieces text.toList) c ∧ scope.fill text = .error c := by
  rw [scope.fill_eq]
  exact (scope.forall_ok_or_firstCrash _).imp (fun h => ⟨h, scope.piecesWith_eq h⟩)
    fun ⟨c, h⟩ => ⟨c, h, scope.piecesWith_of_firstCrash h⟩

/-- A text none of whose placeholders has a value stays as it is. -/
theorem fill_of_none
    (h : ∀ cs, .placeholder cs ∈ Template.pieces text.toList → scope.placeholder cs = .ok none) :
    scope.fill text = .ok text := by
  have hnone : ∀ cs, .placeholder cs ∈ Template.pieces text.toList → scope.shown? cs = none :=
    fun cs hcs => by rw [shown?, h cs hcs]; rfl
  rw [scope.fill_eq, Template.fillWith, scope.piecesWith_eq fun cs hcs => ⟨none, h cs hcs⟩,
    Template.flatMap_filled_of_none hnone, Template.flatten_pieces, String.ofList_toList]

/-! ## Texts without placeholders -/

/-- A text without opening braces stays as it is. -/
theorem fill_of_not_hasPlaceholders (h : Template.hasPlaceholders text = false) :
    scope.fill text = .ok text :=
  Template.fillWith_of_not_hasPlaceholders h scope _

theorem resolveText_of_not_hasPlaceholders (h : Template.hasPlaceholders text = false) :
    scope.resolveText text = .ok (.text text) := by
  have hsingle : Template.single? text.toList = none := by
    cases hs : Template.single? text.toList with
    | none => rfl
    | some inner =>
      refine ((Text.occursIn_eq_false_iff (by decide)).mp h ?_).elim
      rw [(Template.single?_eq_some_iff.mp hs).1]
      exact ⟨[], inner ++ closing, rfl⟩
  rw [resolveText, hsingle]
  exact congrArg (Except.map Value.text) (scope.fill_of_not_hasPlaceholders h)

end Scope

/-- **A text stands in a value**, at any depth. -/
inductive Value.HasText (s : String) : Value → Prop
  | text : HasText s (.text s)
  | item {items : List Value} {v : Value} (hv : v ∈ items) (h : HasText s v) :
    HasText s (.list items)
  | field {fields : List (String × Value)} {key : String} {v : Value} (hv : (key, v) ∈ fields)
    (h : HasText s v) : HasText s (.record fields)

namespace Scope

variable (scope : Scope)

mutual

/-- **A value without opening braces in its texts stays as it is.** -/
theorem resolve_plain (v : Value) (h : ∀ s, v.HasText s → Template.hasPlaceholders s = false) :
    scope.resolve v = .ok v := by
  match v with
  | .text s => exact scope.resolveText_of_not_hasPlaceholders (h s .text)
  | .list items =>
    rw [resolve, resolveItems_plain items fun v hv s hs => h s (.item hv hs)]
    rfl
  | .record fields =>
    rw [resolve, resolveFields_plain fields fun _ v hv s hs => h s (.field hv hs)]
    rfl
  | .null | .bool _ | .number _ => rfl

theorem resolveItems_plain (items : List Value)
    (h : ∀ v ∈ items, ∀ s, v.HasText s → Template.hasPlaceholders s = false) :
    scope.resolveItems items = .ok items := by
  match items with
  | [] => rfl
  | v :: rest =>
    rw [resolveItems, resolve_plain v (h v List.mem_cons_self),
      resolveItems_plain rest fun w hw => h w (List.mem_cons_of_mem v hw)]
    rfl

theorem resolveFields_plain (fields : List (String × Value))
    (h : ∀ key v, (key, v) ∈ fields → ∀ s, v.HasText s → Template.hasPlaceholders s = false) :
    scope.resolveFields fields = .ok fields := by
  match fields with
  | [] => rfl
  | (key, v) :: rest =>
    rw [resolveFields, resolve_plain v (h key v List.mem_cons_self),
      resolveFields_plain rest fun key' w hw => h key' w (List.mem_cons_of_mem _ hw)]
    rfl

end

/-! ## Main statements -/

/-- **Filling in is one pass from left to right that loses nothing.** A text splits in one way; if
no placeholder crashes, it becomes its pieces, each placeholder replaced by what it shows if it has
a value, and all else as it stands. So a text stays as it is if none of its placeholders has a
value, and a value does if none of its texts has opening braces. A crash is that of the first
placeholder that crashes. -/
theorem fill_of_splits :
    (∀ text : String, ∃ ps, Template.Splits ps text.toList
      ∧ (∀ qs, Template.Splits qs text.toList → qs = ps)
      ∧ ((∀ cs, .placeholder cs ∈ ps → ∃ v, scope.placeholder cs = .ok v) →
        scope.fill text
          = .ok (String.ofList (ps.flatMap (Template.Piece.filled scope.shown?))))
      ∧ ((∀ cs, .placeholder cs ∈ ps → scope.placeholder cs = .ok none) →
        scope.fill text = .ok text)
      ∧ ∀ c, scope.FirstCrash ps c → scope.fill text = .error c)
    ∧ ∀ v : Value, (∀ s, v.HasText s → Template.hasPlaceholders s = false) →
      scope.resolve v = .ok v := by
  refine ⟨fun text => ⟨Template.pieces text.toList, Template.splits_pieces _,
    fun qs hqs => hqs.eq_pieces, ?_, scope.fill_of_none, ?_⟩, scope.resolve_plain⟩
  · rw [scope.fill_eq]
    exact scope.piecesWith_eq
  · intro c
    rw [scope.fill_eq]
    exact scope.piecesWith_of_firstCrash

/-- Braces in a row, a value with a placeholder in it, a placeholder without a value, and an end
that is not closed. -/
theorem fill_of_splits_mixed :
    let scope := ofVariables [("x", .int 5), ("y", .text "\x7b\x7bx\x7d\x7d")]
    let text := "\x7b\x7b\x7bx\x7d\x7d|\x7b\x7b x \x7d\x7d\x7b\x7by\x7d\x7d|"
      ++ "\x7b\x7bz\x7d\x7d\x7d\x7d|\x7b\x7b"
    let ps : List Template.Piece := [.plain [], .placeholder "\x7bx".toList, .plain "|".toList,
      .placeholder " x ".toList, .plain [], .placeholder "y".toList, .plain "|".toList,
      .placeholder "z".toList, .plain "\x7d\x7d|".toList, .unclosed []]
    Template.Splits ps text.toList
      ∧ (∀ cs, .placeholder cs ∈ ps → ∃ v, scope.placeholder cs = .ok v)
      ∧ scope.fill text = .ok
        "\x7b\x7b\x7bx\x7d\x7d|5\x7b\x7bx\x7d\x7d|\x7b\x7bz\x7d\x7d\x7d\x7d|\x7b\x7b"
      ∧ scope.resolve (.list [.text "\x7d\x7d", .null])
        = .ok (.list [.text "\x7d\x7d", .null]) := by
  intro scope text ps
  have hsplits : Template.Splits ps text.toList := Template.splits_iff.mpr (by decide +kernel)
  have hok : ∀ cs, .placeholder cs ∈ ps → ∃ v, scope.placeholder cs = .ok v := by
    have hall : (ps.all fun
      | .placeholder cs => (scope.placeholder cs).isOk
      | _ => true) = true := by decide +kernel
    intro cs hcs
    have hcs : (scope.placeholder cs).isOk = true := List.all_eq_true.mp hall _ hcs
    cases hv : scope.placeholder cs with
    | ok v => exact ⟨v, rfl⟩
    | error c =>
      rw [hv] at hcs
      cases hcs
  obtain ⟨qs, -, hunique, hfill, -, -⟩ := scope.fill_of_splits.1 text
  obtain rfl := hunique ps hsplits
  refine ⟨hsplits, hok, (hfill hok).trans (congrArg Except.ok (by decide +kernel)),
    scope.fill_of_splits.2 _ ?_⟩
  intro s hs
  cases hs with
  | item hv h =>
    obtain rfl | hv := List.mem_cons.mp hv
    · cases h
      decide
    · cases List.mem_singleton.mp hv
      cases h

/-- A crash in a placeholder leaves no text at all. -/
theorem fill_ne_ok_of_crash :
    let scope := ofVariables [("small", .int Word.least)]
    let text := "\x7b\x7bsmall / -1\x7d\x7d"
    Template.Splits [.plain [], .placeholder "small / -1".toList, .plain []] text.toList
      ∧ ∀ out, scope.fill text ≠ .ok out := by
  intro scope text
  have hcrash : scope.fill text = .error .quotientOverflow := by decide +kernel
  refine ⟨Template.splits_iff.mpr (by decide +kernel), fun out hout => ?_⟩
  exact nomatch hcrash.symm.trans hout

/-- **Filling in twice is filling in once**, if no value that is shown has an opening brace: the
second time only the placeholders are left that had no value the first time. -/
theorem fill_fill {text : String}
    (h : ∀ cs v, .placeholder cs ∈ Template.pieces text.toList →
      scope.placeholder cs = .ok (some v) → '\x7b' ∉ v.display.toList) :
    (scope.fill text).bind scope.fill = scope.fill text := by
  obtain ⟨hok, hfill⟩ | ⟨c, -, hfill⟩ := scope.fill_cases text
  · have hshown : ∀ cs s, .placeholder cs ∈ Template.pieces text.toList →
        scope.shown? cs = some s → '\x7b' ∉ s.toList := by
      intro cs s hcs hs
      obtain ⟨v, hv⟩ := hok cs hcs
      rw [shown?, hv] at hs
      obtain ⟨v, rfl, rfl⟩ := Option.map_eq_some_iff.mp hs
      exact h cs v hcs hv
    have hempty : ¬ Template.opening <:+: [] ++ ['\x7b'] := by decide
    obtain ⟨qs, hqs, hkept⟩ :=
      (Template.splits_pieces text.toList).exists_filled hshown hempty
    rw [hfill]
    refine scope.fill_of_none fun cs hcs => ?_
    rw [String.toList_ofList, ← List.nil_append (List.flatMap _ _), ← hqs.eq_pieces] at hcs
    obtain ⟨hmem, hnone⟩ := hkept cs hcs
    obtain ⟨v, hv⟩ := hok cs hmem
    rw [shown?, hv] at hnone
    rw [hv, Option.map_eq_none_iff.mp hnone]
  · rw [hfill]
    rfl

/-- Closing braces that are put in between a placeholder that stays and one that is not closed. -/
theorem fill_fill_closing_braces :
    let scope := ofVariables [("x", .text "\x7d\x7d")]
    let text := "\x7b\x7bz\x7d\x7d\x7b\x7bx\x7d\x7d\x7b\x7b"
    (∀ cs v, .placeholder cs ∈ Template.pieces text.toList →
        scope.placeholder cs = .ok (some v) → '\x7b' ∉ v.display.toList)
      ∧ scope.fill text = .ok "\x7b\x7bz\x7d\x7d\x7d\x7d\x7b\x7b"
      ∧ (scope.fill text).bind scope.fill = scope.fill text := by
  intro scope text
  have hclean : ∀ cs v, .placeholder cs ∈ Template.pieces text.toList →
      scope.placeholder cs = .ok (some v) → '\x7b' ∉ v.display.toList := by
    have hall : ((Template.pieces text.toList).all fun
      | .placeholder cs => !((scope.shown? cs).getD "").toList.contains '\x7b'
      | _ => true) = true := by decide +kernel
    intro cs v hcs hv
    have hcs : (!((scope.shown? cs).getD "").toList.contains '\x7b') = true :=
      List.all_eq_true.mp hall _ hcs
    rw [shown?, hv] at hcs
    simpa using hcs
  exact ⟨hclean, by decide +kernel, scope.fill_fill hclean⟩

end Scope

end Playbook
