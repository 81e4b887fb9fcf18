import Mathlib.Data.Option.Basic
import Playbook.Expr.Eval
import Playbook.Proofs.Expr.Lexemes

/-!
# Texts inside texts

The references of an expression and its strings with placeholders hold further texts, which
are evaluated in their turn, down to some depth. The depth never shows: a text is longer than
those that are read when it is evaluated (`Expr.length_of_mem_rereads`), and an evaluation does not
ask for any other text (`Expr.evalWith_congr`). So two depths agree on the texts that are
shorter than either (`Scope.inner_agree`), and what an expression evaluates to can be told
without a depth: it is the value of its tree, where the texts inside have the values that they have
on their own (`Scope.evaluate_eq`).
-/

namespace Playbook

/-! ## A text is longer than those inside it

The texts inside are shorter in characters, and in bytes as well. Both are counts in which every
character weighs something, and in which a character that is written with a backslash weighs no
more than what stands behind the backslash. -/

namespace Text

/-- What characters weigh. -/
structure Weight where
  of : Char → Nat
  pos : ∀ c, 0 < of c
  newline : of '\n' ≤ of 'n'
  tab : of '\t' ≤ of 't'

namespace Weight

/-- Every character counts once. -/
def characters : Weight where
  of _ := 1
  pos _ := Nat.one_pos
  newline := Nat.le_refl _
  tab := Nat.le_refl _

/-- Every character counts as many times as it has bytes. -/
def bytes : Weight where
  of := Char.utf8Size
  pos := Char.utf8Size_pos
  newline := by decide
  tab := by decide

/-- What a text weighs. -/
def total (w : Weight) : List Char → Nat
  | [] => 0
  | c :: cs => w.of c + total w cs

variable (w : Weight) {cs ds : List Char}

@[simp] theorem total_nil : w.total [] = 0 := rfl

@[simp] theorem total_cons (c : Char) (cs : List Char) : w.total (c :: cs) = w.of c + w.total cs :=
  rfl

@[simp] theorem total_append (cs ds : List Char) :
    w.total (cs ++ ds) = w.total cs + w.total ds := by
  induction cs with
  | nil => simp
  | cons c cs ih => simp [ih, Nat.add_assoc]

theorem total_le_of_sublist (h : cs.Sublist ds) : w.total cs ≤ w.total ds := by
  induction h with
  | slnil => exact Nat.le_refl _
  | cons c _ ih => exact Nat.le_add_left_of_le ih
  | cons_cons c _ ih => exact Nat.add_le_add_left ih _

theorem total_trim_le (cs : List Char) : w.total (trim cs) ≤ w.total cs := by
  have hend : (trim cs).Sublist (trimStart cs) := by
    have hs := (List.dropWhile_sublist isBlank (l := (trimStart cs).reverse)).reverse
    rwa [List.reverse_reverse] at hs
  exact w.total_le_of_sublist (hend.trans (List.dropWhile_sublist isBlank))

theorem total_characters (cs : List Char) : characters.total cs = cs.length := by
  induction cs with
  | nil => rfl
  | cons c cs ih => rw [total_cons, ih, List.length_cons, Nat.add_comm, characters]

theorem total_bytes (cs : List Char) : bytes.total cs = (String.ofList cs).utf8ByteSize := by
  induction cs with
  | nil => rfl
  | cons c cs ih =>
    rw [total_cons, ih, String.ofList_cons, String.utf8ByteSize_append,
      String.utf8ByteSize_singleton]
    rfl

end Weight

end Text

/-- The text that a token holds. -/
def Token.inner? : Token → Option String
  | text s => some s
  | reference inner => some inner
  | _ => none

/-- The texts in a tree that an evaluation can look into. -/
def Expr.inners : Expr → List String
  | template s => [s]
  | reference inner => [inner]
  | not e => e.inners
  | neg e => e.inners
  | and l r => l.inners ++ r.inners
  | or l r => l.inners ++ r.inners
  | compare _ l r => l.inners ++ r.inners
  | compute _ l r => l.inners ++ r.inners
  | _ => []

/-- The texts in a tree are those of its tokens. -/
theorem Phrase.Derives.inners {q : Phrase} {ts : List Token} {e : Expr} (h : q.Derives ts e) :
    ∀ s ∈ e.inners, s ∈ ts.filterMap Token.inner? := by
  have hjoin : ∀ {l r : List String} {ts us : List Token} {t : Token},
      (∀ s ∈ l, s ∈ ts.filterMap Token.inner?) → (∀ s ∈ r, s ∈ us.filterMap Token.inner?) →
      t.inner? = none → ∀ s ∈ l ++ r, s ∈ (ts ++ t :: us).filterMap Token.inner? := by
    intro l r ts us t hl hr ht s hs
    rw [List.filterMap_append, List.filterMap_cons, ht, List.mem_append]
    exact (List.mem_append.mp hs).imp (hl s) (hr s)
  induction h with
  | or _ _ ihl ihr | and _ _ ihl ihr | compare _ _ ihl ihr | sum _ _ _ ihl ihr
  | product _ _ _ ihl ihr => exact hjoin ihl ihr rfl
  | not _ ih | neg _ ih | notSigned _ ih => exact ih
  | ofConjunction _ ih | ofNegation _ ih | ofSum _ ih | ofProduct _ ih | ofSigned _ ih
  | ofOperand _ ih => exact ih
  | ofComparison _ _ ih => exact ih
  | literal | text | name => exact nofun
  | template => exact fun s hs => hs
  | reference => exact fun s hs => hs
  | brackets _ ih =>
    intro s hs
    rw [List.filterMap_cons, List.filterMap_append]
    exact List.mem_append_left _ (ih s hs)

namespace Lexer

variable (w : Text.Weight)

/-- A string and what is behind it together weigh less than what they are read from. -/
theorem total_add_of_stringTail {quote : Char} {cs s rest : List Char}
    (h : stringTail quote cs = some (s, rest)) : w.total s + w.total rest < w.total cs := by
  induction cs using stringTail.induct quote generalizing s with
  | case1 => cases h
  | case2 c tail ih =>
    obtain ⟨⟨s', b⟩, hb, he⟩ := Option.map_eq_some_iff.mp h
    cases he
    have hlt := ih hb
    have hmeant : w.of (if c = 'n' then '\n' else if c = 't' then '\t' else c) ≤ w.of c := by
      split
      · subst c
        exact w.newline
      · split
        · subst c
          exact w.tab
        · exact Nat.le_refl _
    simp only [Text.Weight.total_cons]
    omega
  | case3 tail =>
    have hpos := w.pos quote
    simp_all [stringTail]
  | case4 tail _ hq => simp_all [stringTail]
  | case5 c tail hne hq hb ih =>
    rw [stringTail_plain hq hb] at h
    obtain ⟨⟨s', b⟩, hb, he⟩ := Option.map_eq_some_iff.mp h
    cases he
    have hlt := ih hb
    simp only [Text.Weight.total_cons]
    omega

variable {cs rest : List Char} {ts : List Token} {t : Token} {s : String}

theorem total_of_string?_inner (h : string? cs = some (t, rest)) (ht : t.inner? = some s) :
    w.total s.toList < w.total cs := by
  unfold string? at h
  have hmap : ∀ {quote : Char} {cs' : List Char},
      ((stringTail quote cs').map fun x => (Token.text (String.ofList x.1), x.2))
        = some (t, rest) → w.total s.toList < w.total cs' := by
    intro quote cs' h
    obtain ⟨⟨s', b⟩, hs, he⟩ := Option.map_eq_some_iff.mp h
    cases he
    cases ht
    rw [String.toList_ofList]
    exact Nat.lt_of_le_of_lt (Nat.le_add_right _ _) (total_add_of_stringTail w hs)
  split at h
  · exact Nat.lt_add_left _ (hmap h)
  · exact Nat.lt_add_left _ (hmap h)
  · cases h

theorem total_of_reference?_inner (h : reference? cs = some (t, rest))
    (ht : t.inner? = some s) : w.total s.toList < w.total cs := by
  unfold reference? at h
  split at h
  · obtain ⟨⟨inner, b⟩, hc, he⟩ := Option.map_eq_some_iff.mp h
    cases he
    cases ht
    have htrim := w.total_trim_le inner
    have hpos := w.pos '\x7b'
    rw [String.toList_ofList, Text.eq_of_cutAt hc]
    simp only [Text.Weight.total_append, Text.Weight.total_cons]
    omega
  · cases h

/-- Numbers, words, brackets and operators hold no texts. -/
theorem inner?_of_number? (h : number? cs = some (t, rest)) : t.inner? = none := by
  unfold number? at h
  dsimp only at h
  split at h
  · cases h
  · obtain ⟨v, -, he⟩ := Option.map_eq_some_iff.mp h
    cases he
    rfl

theorem inner?_of_word? (h : word? cs = some (t, rest)) : t.inner? = none := by
  cases cs with
  | nil => cases h
  | cons c cs =>
    rw [word?] at h
    split at h
    · cases h
      unfold wordToken
      split <;> rfl
    · cases h

theorem inner?_of_bracket? (h : bracket? cs = some (t, rest)) : t.inner? = none := by
  unfold bracket? at h
  split at h
  · cases h
    rfl
  · cases h
    rfl
  · cases h

theorem inner?_of_signs? (h : signs? cs = some ts) : ∀ t ∈ ts, t.inner? = none := by
  induction cs using signs?.induct generalizing ts with
  | case1 =>
    cases h
    exact nofun
  | case2 cs ih =>
    obtain ⟨us, hus, rfl⟩ := Option.map_eq_some_iff.mp h
    exact List.forall_mem_cons.mpr ⟨rfl, ih hus⟩
  | case3 cs ih =>
    obtain ⟨us, hus, rfl⟩ := Option.map_eq_some_iff.mp h
    exact List.forall_mem_cons.mpr ⟨rfl, ih hus⟩
  | case4 cs => simp_all [signs?]

theorem inner?_of_operators? (h : operators? cs = some (ts, rest)) :
    ∀ t ∈ ts, t.inner? = none := by
  obtain ⟨us, hrun, he⟩ := Option.map_eq_some_iff.mp h
  cases he
  unfold operatorRun? at hrun
  split at hrun
  · obtain ⟨vs, hvs, rfl⟩ := Option.map_eq_some_iff.mp hrun
    exact List.forall_mem_cons.mpr ⟨rfl, inner?_of_signs? hvs⟩
  · cases hrun

/-- **The text that a token holds weighs less than the text it is read from.** -/
theorem total_of_lexeme?_inner (h : lexeme? cs = some (ts, rest)) :
    ∀ t ∈ ts, ∀ s, t.inner? = some s → w.total s.toList < w.total cs := by
  have hnone : ∀ {t : Token} {s : String}, t.inner? = none → t.inner? = some s →
      w.total s.toList < w.total cs := fun hn hs => nomatch hn.symm.trans hs
  intro t ht s hs
  unfold lexeme? at h
  split at h
  · rename_i t' rest' hsingle
    cases h
    cases List.mem_singleton.mp ht
    simp only [single?, Option.orElse_eq_some] at hsingle
    obtain hr | ⟨-, hq | ⟨-, hn | ⟨-, hw | ⟨-, hb⟩⟩⟩⟩ := hsingle
    · exact total_of_reference?_inner w hr hs
    · exact total_of_string?_inner w hq hs
    · exact hnone (inner?_of_number? hn) hs
    · exact hnone (inner?_of_word? hw) hs
    · exact hnone (inner?_of_bracket? hb) hs
  · exact hnone (inner?_of_operators? h t ht) hs

/-- So do the texts that the tokens of a text hold. -/
theorem Scans.total_inner (h : Scans cs ts) :
    ∀ t ∈ ts, ∀ s, t.inner? = some s → w.total s.toList < w.total cs := by
  induction h with
  | nil => exact nofun
  | @blank c cs ts _ _ ih =>
    intro t ht s hs
    exact Nat.lt_add_left _ (ih t ht s hs)
  | @lexeme cs ts rest us hl _ ih =>
    intro t ht s hs
    obtain ht | ht := List.mem_append.mp ht
    · exact total_of_lexeme?_inner w hl t ht s hs
    · exact Nat.lt_of_lt_of_le (ih t ht s hs) (w.total_le_of_sublist (suffix_of_lexeme? hl).sublist)

end Lexer

namespace Expr

/-- **An expression weighs more than the texts inside it.** -/
theorem total_of_mem_inners (w : Text.Weight) {source : String} {e : Expr}
    (h : parse source = .ok e) : ∀ s ∈ e.inners, w.total s.toList < w.total source.toList := by
  intro s hs
  obtain ⟨ts, hscans, hd⟩ := parse_eq_ok_iff.mp h
  obtain ⟨t, ht, hts⟩ := List.mem_filterMap.mp (hd.inners s hs)
  exact hscans.total_inner w t ht s hts

end Expr

/-- **A placeholder weighs more than the text inside it.** -/
theorem Template.total_trim_lt (w : Text.Weight) (inner : List Char) :
    w.total (Text.trim inner) < w.total (Piece.placeholder inner).written := by
  have htrim := w.total_trim_le inner
  have hpos := w.pos '\x7b'
  simp only [Piece.written, opening, closing, Text.Weight.total_append, Text.Weight.total_cons]
  omega

/-- So does a template that it stands in. -/
theorem Template.total_of_mem_pieces (w : Text.Weight) {cs inner : List Char}
    (h : .placeholder inner ∈ pieces cs) : w.total (Text.trim inner) < w.total cs := by
  have hsub : (Piece.placeholder inner).written.Sublist cs := by
    rw [← flatten_pieces cs]
    exact List.sublist_flatten_of_mem (List.mem_map_of_mem h)
  exact Nat.lt_of_lt_of_le (total_trim_lt w inner) (w.total_le_of_sublist hsub)

/-! ## An evaluation asks only for some of the texts inside -/

namespace Template

/-- The text that is read as an expression for a placeholder: none if it is empty or a path. -/
def reread? (cs : List Char) : Option String :=
  let text := String.ofList (Text.trim cs)
  if text = "" ∨ Path.isPath text = true then none else some text

/-- The texts that are read when a template is filled in. -/
def rereads (ps : List Piece) : List String :=
  ps.filterMap fun p =>
    match p with
    | .placeholder cs => reread? cs
    | _ => none

theorem eq_of_reread? {cs : List Char} {s : String} (h : reread? cs = some s) :
    s = String.ofList (Text.trim cs) := by
  unfold reread? at h
  dsimp only at h
  split at h
  · cases h
  · exact (Option.some.inj h).symm

theorem mem_rereads {ps : List Piece} {s : String} :
    s ∈ rereads ps ↔ ∃ cs, .placeholder cs ∈ ps ∧ reread? cs = some s := by
  unfold rereads
  rw [List.mem_filterMap]
  constructor
  · rintro ⟨p, hp, hs⟩
    cases p with
    | placeholder cs => exact ⟨cs, hp, hs⟩
    | _ => cases hs
  · rintro ⟨cs, hcs, hs⟩
    exact ⟨_, hcs, hs⟩

end Template

/-- The texts that are read when an expression is evaluated: those of its references that are not
paths, and those of the placeholders in its strings. -/
def Expr.rereads : Expr → List String
  | template text => Template.rereads (Template.pieces text.toList)
  | reference text => if Path.isPath text then [] else [text]
  | not e => e.rereads
  | neg e => e.rereads
  | and l r => l.rereads ++ r.rereads
  | or l r => l.rereads ++ r.rereads
  | compare _ l r => l.rereads ++ r.rereads
  | compute _ l r => l.rereads ++ r.rereads
  | _ => []

/-- Every one of them is inside a text of the tree, if it is not that text. -/
theorem Expr.exists_of_mem_rereads {e : Expr} {t : String} (h : t ∈ e.rereads) :
    ∃ s ∈ e.inners, t = s ∨ t ∈ Template.rereads (Template.pieces s.toList) := by
  induction e with
  | literal | name => cases h
  | template text => exact ⟨text, List.mem_singleton_self _, .inr h⟩
  | reference text =>
    rw [rereads] at h
    split at h
    · cases h
    · exact ⟨text, List.mem_singleton_self _, .inl (List.mem_singleton.mp h)⟩
  | not e ih => exact ih h
  | neg e ih => exact ih h
  | and l r ihl ihr | or l r ihl ihr | compare op l r ihl ihr | compute op l r ihl ihr =>
    obtain h | h := List.mem_append.mp h
    · obtain ⟨s, hs, ht⟩ := ihl h
      exact ⟨s, List.mem_append_left _ hs, ht⟩
    · obtain ⟨s, hs, ht⟩ := ihr h
      exact ⟨s, List.mem_append_right _ hs, ht⟩

/-- **An expression weighs more than every text that is read when it is evaluated.** -/
theorem Expr.total_of_mem_rereads (w : Text.Weight) {source : String} {e : Expr}
    (h : parse source = .ok e) {t : String} (ht : t ∈ e.rereads) :
    w.total t.toList < w.total source.toList := by
  obtain ⟨s, hs, hst⟩ := exists_of_mem_rereads ht
  have hlt := total_of_mem_inners w h s hs
  obtain rfl | hst := hst
  · exact hlt
  · obtain ⟨cs, hcs, hr⟩ := Template.mem_rereads.mp hst
    rw [Template.eq_of_reread? hr, String.toList_ofList]
    exact Nat.lt_trans (Template.total_of_mem_pieces w hcs) hlt

/-- **A template weighs more than every text that is read when it is filled in.** -/
theorem Template.total_of_mem_rereads (w : Text.Weight) {text t : String}
    (ht : t ∈ rereads (pieces text.toList)) : w.total t.toList < w.total text.toList := by
  obtain ⟨cs, hcs, hr⟩ := mem_rereads.mp ht
  rw [eq_of_reread? hr, String.toList_ofList]
  exact total_of_mem_pieces w hcs

/-- Two ways to evaluate texts agree on a text. -/
def Inner.AgreeAt (i j : Inner) (s : String) : Prop :=
  i.value s = j.value s ∧ i.isBound s = j.isBound s

namespace Template

variable {scope : Scope} {i j : Inner}

theorem placeholderWith_congr {cs : List Char} (h : ∀ s, reread? cs = some s → i.AgreeAt j s) :
    placeholderWith scope i cs = placeholderWith scope j cs := by
  unfold placeholderWith
  dsimp only
  split
  · rfl
  · rename_i hne
    split
    · rfl
    · rename_i hp
      have hr : reread? cs = some (String.ofList (Text.trim cs)) :=
        if_neg (not_or.mpr ⟨hne, hp⟩)
      rw [(h _ hr).1, (h _ hr).2]

theorem piecesWith_congr {ps : List Piece} (h : ∀ s ∈ rereads ps, i.AgreeAt j s) :
    piecesWith scope i ps = piecesWith scope j ps := by
  induction ps with
  | nil => rfl
  | cons p ps ih =>
    have hp : pieceWith scope i p = pieceWith scope j p := by
      cases p with
      | plain cs => rfl
      | unclosed cs => rfl
      | placeholder cs =>
        have hcs : ∀ s, reread? cs = some s → i.AgreeAt j s := fun s hs =>
          h s (mem_rereads.mpr ⟨cs, List.mem_cons_self, hs⟩)
        rw [pieceWith, pieceWith, placeholderWith_congr hcs]
    have hps : ∀ s ∈ rereads ps, i.AgreeAt j s := fun s hs => by
      obtain ⟨cs, hcs, hr⟩ := mem_rereads.mp hs
      exact h s (mem_rereads.mpr ⟨cs, List.mem_cons_of_mem _ hcs, hr⟩)
    rw [piecesWith, piecesWith, hp, ih hps]

theorem fillWith_congr {text : String}
    (h : ∀ s ∈ rereads (pieces text.toList), i.AgreeAt j s) :
    fillWith scope i text = fillWith scope j text :=
  piecesWith_congr h

end Template

namespace Expr

variable {scope : Scope} {i j : Inner} {e : Expr}

/-- **An evaluation asks for no other texts**, by induction on the tree. -/
theorem evalWith_congr (h : ∀ s ∈ e.rereads, i.AgreeAt j s) :
    e.evalWith scope i = e.evalWith scope j := by
  induction e with
  | literal | name => rfl
  | template text => rw [evalWith, evalWith, Template.fillWith_congr h]
  | reference text =>
    rw [evalWith, evalWith]
    split
    · rfl
    · rename_i hp
      exact (h text (by rw [rereads, if_neg hp]; exact List.mem_singleton_self _)).1
  | not e ih => rw [evalWith, evalWith, ih h]
  | neg e ih => rw [evalWith, evalWith, ih h]
  | and l r ihl ihr | or l r ihl ihr | compare op l r ihl ihr | compute op l r ihl ihr =>
    obtain ⟨hl, hr⟩ := List.forall_mem_append.mp h
    rw [evalWith, evalWith, ihl hl, ihr hr]

/-- Nor does the question whether its names lead to values. -/
theorem boundWith_congr (h : ∀ s ∈ e.rereads, i.AgreeAt j s) :
    e.boundWith scope i = e.boundWith scope j := by
  induction e with
  | literal | template | name => rfl
  | reference text =>
    rw [boundWith, boundWith]
    split
    · rfl
    · rename_i hp
      exact (h text (by rw [rereads, if_neg hp]; exact List.mem_singleton_self _)).2
  | not e ih => rw [boundWith, boundWith, ih h]
  | neg e ih => rw [boundWith, boundWith, ih h]
  | and l r ihl ihr | or l r ihl ihr | compare op l r ihl ihr | compute op l r ihl ihr =>
    obtain ⟨hl, hr⟩ := List.forall_mem_append.mp h
    rw [boundWith, boundWith, ihl hl, ihr hr]

end Expr

/-! ## The depth does not show -/

/-- **An expression is longer than the texts that are read when it is evaluated.** -/
theorem Expr.length_of_mem_rereads {source : String} {e : Expr} (h : parse source = .ok e)
    {t : String} (ht : t ∈ e.rereads) : t.length < source.length := by
  have hlt := total_of_mem_rereads .characters h ht
  rwa [Text.Weight.total_characters, Text.Weight.total_characters, String.length_toList,
    String.length_toList] at hlt

/-- So is a template. -/
theorem Template.length_of_mem_rereads {text t : String}
    (ht : t ∈ rereads (pieces text.toList)) : t.length < text.length := by
  have hlt := total_of_mem_rereads .characters ht
  rwa [Text.Weight.total_characters, Text.Weight.total_characters, String.length_toList,
    String.length_toList] at hlt

namespace Scope

variable (scope : Scope)

/-- **Depths agree on the texts that are shorter than either.** The induction is on the depth:
a text leaves only shorter ones to the depth below. -/
theorem inner_agree {d d' : Nat} {s : String} (hd : s.length < d) (hd' : s.length < d') :
    (scope.inner d).AgreeAt (scope.inner d') s := by
  induction d generalizing d' s with
  | zero => cases hd
  | succ d ih =>
    obtain ⟨d', rfl⟩ := Nat.exists_eq_add_of_le' (Nat.zero_lt_of_lt hd')
    unfold Inner.AgreeAt
    dsimp only [inner]
    cases hp : Expr.parse s with
    | error => exact ⟨rfl, rfl⟩
    | ok e =>
      have hagree : ∀ t ∈ e.rereads, (scope.inner d).AgreeAt (scope.inner d') t := fun t ht =>
        have hlt := Expr.length_of_mem_rereads hp ht
        ih (Nat.lt_of_lt_of_le hlt (Nat.le_of_lt_succ hd))
          (Nat.lt_of_lt_of_le hlt (Nat.le_of_lt_succ hd'))
      exact ⟨Expr.evalWith_congr hagree, Expr.boundWith_congr hagree⟩

/-- Texts evaluated on their own. -/
def whole : Inner where
  value := scope.evaluate
  isBound := scope.isBound

/-- Any depth agrees with the texts on their own as far as it goes. -/
theorem agree_whole {d : Nat} {s : String} (h : s.length < d) :
    (scope.inner d).AgreeAt scope.whole s :=
  scope.inner_agree h (Nat.lt_succ_self _)

/-- **The value of an expression is that of its tree**, where every text inside it has the
value that it has on its own. -/
theorem evaluate_eq {source : String} {e : Expr} (h : Expr.parse source = .ok e) :
    scope.evaluate source = e.evalWith scope scope.whole := by
  have hvalue : scope.evaluate source = e.evalWith scope (scope.inner source.length) := by
    unfold evaluate depthOf
    rw [inner]
    dsimp only
    rw [h]
  exact hvalue.trans (Expr.evalWith_congr fun _ ht =>
    scope.agree_whole (Expr.length_of_mem_rereads h ht))

/-- **Its names and references lead to values** if those of its tree do. -/
theorem isBound_eq {source : String} {e : Expr} (h : Expr.parse source = .ok e) :
    scope.isBound source = e.boundWith scope scope.whole := by
  have hbound : scope.isBound source = e.boundWith scope (scope.inner source.length) := by
    unfold isBound depthOf
    rw [inner]
    dsimp only
    rw [h]
  exact hbound.trans (Expr.boundWith_congr fun _ ht =>
    scope.agree_whole (Expr.length_of_mem_rereads h ht))

/-- A text that is no expression has neither. -/
theorem evaluate_of_error {source : String} {fault : ExprError}
    (h : Expr.parse source = .error fault) :
    scope.evaluate source = .error (.error fault) ∧ scope.isBound source = false := by
  unfold evaluate isBound depthOf
  rw [inner]
  dsimp only
  rw [h]
  exact ⟨rfl, rfl⟩

/-- The text of a template is made up of what its placeholders are on their own. -/
theorem fill_eq (text : String) : scope.fill text = Template.fillWith scope scope.whole text :=
  Template.fillWith_congr fun _ ht =>
    scope.agree_whole (Nat.lt_succ_of_lt (Template.length_of_mem_rereads ht))

end Scope

end Playbook
