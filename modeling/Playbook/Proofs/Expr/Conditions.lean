import Playbook.Condition
import Playbook.Proofs.Expr.Depth
import Playbook.Proofs.Expr.Printing

/-!
# Conditions as expressions

A condition can be written as one expression (`Condition.written`): its literals and expressions
in brackets, and its groups joined by `&&`, `||` and `!`. That expression holds where the
condition does, and where one of them stops with an error or a crash, the other stops with the
same (`Condition.test_written`).

So groups are nothing but operators. Both stop at the first operand that decides the outcome: a
group goes on as long as its operands have one truth value, and so does a row of operators, which
groups to the left (`Condition.settledBy_assoc`).
-/

namespace Playbook

/-! ## A condition as text -/

namespace Condition

/-- Operands with an operator between them, or a word if there are none. -/
def joined (o : Operator) (none : String) : List (List Char) → List Char
  | [] => none.toList
  | text :: texts => text ++ texts.flatMap (o.spaced ++ ·)

/-- Whether a condition is a group; as an operand it stands in brackets then. -/
def isGroup : Condition → Bool
  | all _ => true
  | any _ => true
  | not _ => true
  | _ => false

/-- The text of a condition as that of an operand. -/
def enclosed (c : Condition) (text : List Char) : List Char :=
  if c.isGroup then '(' :: (text ++ [')']) else text

mutual

/-- **A condition as the text of an expression.** -/
def written (c : Condition) : List Char :=
  match c with
  | .literal v => '(' :: (v.render.toList ++ [')'])
  | .expr text => '(' :: (text.toList ++ [')'])
  | .all items => joined .and "true" (operands items)
  | .any items => joined .or "false" (operands items)
  | .not c => '!' :: c.enclosed (written c)
termination_by structural c

/-- The texts of conditions as those of operands. -/
def operands (items : List Condition) : List (List Char) :=
  match items with
  | [] => []
  | c :: rest => c.enclosed (written c) :: operands rest
termination_by structural items

end

/-- **The conditions that are made of expressions and truth values**: the texts in them are
expressions. -/
inductive IsLogical : Condition → Prop
  | literal (b : Bool) : IsLogical (.literal (.bool b))
  | expr {text e} (h : Expr.parse text = .ok e) : IsLogical (.expr text)
  | all {items} (h : ∀ c ∈ items, IsLogical c) : IsLogical (.all items)
  | any {items} (h : ∀ c ∈ items, IsLogical c) : IsLogical (.any items)
  | not {c} (h : IsLogical c) : IsLogical (.not c)

end Condition

/-! ## The truth of a tree -/

/-- What `a` says, unless it says `go`: then it is what `b` says. -/
def Condition.settledBy (go : Bool) (a b : Evaluated Bool) : Evaluated Bool :=
  match a with
  | .ok t => if t = go then b else .ok t
  | .error stop => .error stop

/-- The truth of a tree. -/
def Expr.truth (scope : Scope) (e : Expr) : Evaluated Bool :=
  (e.evalWith scope scope.whole).map Value.isTruthy

namespace Expr

variable (scope : Scope) (e l r : Expr)

theorem truth_not : (not e).truth scope = (e.truth scope).map (!·) := by
  unfold truth
  rw [evalWith]
  cases e.evalWith scope scope.whole <;> rfl

theorem truth_and :
    (and l r).truth scope = Condition.settledBy true (l.truth scope) (r.truth scope) := by
  unfold truth
  rw [evalWith]
  cases l.evalWith scope scope.whole with
  | error stop => rfl
  | ok v =>
    show Except.map _ (if v.isTruthy then _ else _) = if v.isTruthy = true then _ else _
    split
    · cases r.evalWith scope scope.whole <;> rfl
    · rename_i hv
      exact congrArg Except.ok (Bool.eq_false_iff.mpr hv).symm

theorem truth_or :
    (or l r).truth scope = Condition.settledBy false (l.truth scope) (r.truth scope) := by
  unfold truth
  rw [evalWith]
  cases l.evalWith scope scope.whole with
  | error stop => rfl
  | ok v =>
    show Except.map _ (if v.isTruthy then _ else _) = if v.isTruthy = false then _ else _
    cases v.isTruthy with
    | true => rfl
    | false => cases r.evalWith scope scope.whole <;> rfl

end Expr

/-- The truth of an expression is that of its tree. -/
theorem Scope.test_eq (scope : Scope) {source : String} {e : Expr}
    (h : Expr.parse source = .ok e) : scope.test source = e.truth scope :=
  congrArg (Except.map Value.isTruthy) (scope.evaluate_eq h)

namespace Condition

theorem settledBy_assoc (go : Bool) (a b c : Evaluated Bool) :
    settledBy go (settledBy go a b) c = settledBy go a (settledBy go b c) := by
  unfold settledBy
  cases a with
  | error stop => rfl
  | ok t =>
    by_cases ht : t = go
    · simp only [if_pos ht]
    · simp only [if_neg ht]

theorem settledBy_ok (go : Bool) (a : Evaluated Bool) : settledBy go a (.ok go) = a := by
  unfold settledBy
  cases a with
  | error stop => rfl
  | ok t =>
    by_cases ht : t = go
    · rw [ht]
      exact if_pos rfl
    · exact if_neg ht

theorem evalAll_cons (scope : Scope) (c : Condition) (rest : List Condition) :
    evalAll scope (c :: rest) = settledBy true (eval scope c) (evalAll scope rest) := by
  rw [evalAll]
  unfold settledBy
  cases eval scope c with
  | error stop => rfl
  | ok t => cases t <;> rfl

theorem evalAny_cons (scope : Scope) (c : Condition) (rest : List Condition) :
    evalAny scope (c :: rest) = settledBy false (eval scope c) (evalAny scope rest) := by
  rw [evalAny]
  unfold settledBy
  cases eval scope c with
  | error stop => rfl
  | ok t => cases t <;> rfl

/-! ## Conditions and their texts agree -/

/-- A text is a phrase that holds where a condition does. -/
def Expresses (q : Phrase) (text : List Char) (holds : Scope → Evaluated Bool) : Prop :=
  ∃ e, q.Spelled text e ∧ ∀ scope, e.truth scope = holds scope

/-- **A row of operands expresses a group.** The induction is on the operands; the row so far is
`text`, and what it says is settled by the rest. -/
theorem expresses_row (rest : Scope → List Condition → Evaluated Bool) {o : Operator}
    {q : Phrase} {join : Expr → Expr → Expr} {go : Bool}
    (hjoin : ∀ ts us l r, q.Derives ts l → Phrase.operand.Derives us r →
      q.Derives (ts ++ .op o :: us) (join l r))
    (htruth : ∀ scope l r, (join l r).truth scope = settledBy go (l.truth scope) (r.truth scope))
    (hnil : ∀ scope, rest scope [] = .ok go)
    (hcons : ∀ scope c items,
      rest scope (c :: items) = settledBy go (eval scope c) (rest scope items))
    (items : List Condition) :
    ∀ text holds, Expresses q text holds →
      (∀ c ∈ items, Expresses .operand (c.enclosed c.written) (eval · c)) →
      Expresses q (text ++ (operands items).flatMap (o.spaced ++ ·))
        fun scope => settledBy go (holds scope) (rest scope items) := by
  induction items with
  | nil =>
    rintro text holds ⟨e, hs, he⟩ -
    refine ⟨e, by rwa [operands, List.flatMap_nil, List.append_nil], fun scope => ?_⟩
    show e.truth scope = settledBy go (holds scope) (rest scope [])
    rw [hnil, settledBy_ok, he]
  | cons c items ih =>
    rintro text holds ⟨l, hs, hl⟩ hitems
    obtain ⟨r, hr, hc⟩ := hitems c List.mem_cons_self
    have hmore : Expresses q (text ++ (o.spaced ++ c.enclosed c.written))
        fun scope => settledBy go (holds scope) (eval scope c) := by
      refine ⟨join l r, hs.joined hr fun ts us => hjoin ts us l r, fun scope => ?_⟩
      rw [htruth, hl, hc]
    have hall := ih _ _ hmore fun d hd => hitems d (List.mem_cons_of_mem _ hd)
    simp only [settledBy_assoc, ← hcons, List.append_assoc] at hall
    rwa [operands, List.flatMap_cons, List.append_assoc]

theorem Expresses.ofKind {text : List Char} {holds : Scope → Evaluated Bool}
    (h : Expresses .operand text holds) (q : Phrase) : Expresses q text holds := by
  obtain ⟨e, ⟨ts, hs, hd⟩, he⟩ := h
  exact ⟨e, ⟨ts, hs, hd.ofKind q⟩, he⟩

theorem Expresses.brackets {text : List Char} {holds : Scope → Evaluated Bool}
    (h : Expresses .disjunction text holds) :
    Expresses .operand ('(' :: (text ++ [')'])) holds := by
  obtain ⟨e, hs, he⟩ := h
  exact ⟨e, hs.brackets, he⟩

/-- A truth value expresses itself. -/
theorem expresses_bool (b : Bool) :
    Expresses .operand (Value.bool b).render.toList fun _ => .ok b := by
  have hl : Lexer.lexeme? (Value.bool b).render.toList = some ([.literal (.bool b)], []) := by
    cases b <;> rfl
  exact ⟨.literal (.bool b), ⟨_, .single hl, .literal _⟩, fun _ => rfl⟩

/-- So does an expression. -/
theorem expresses_expr {text : String} {e : Expr} (h : Expr.parse text = .ok e) :
    Expresses .disjunction text.toList (Scope.test · text) :=
  ⟨e, Expr.parse_eq_ok_iff.mp h, fun scope => (scope.test_eq h).symm⟩

theorem expresses_all {items : List Condition}
    (h : ∀ c ∈ items, Expresses .operand (c.enclosed c.written) (eval · c)) :
    Expresses .conjunction (written (.all items)) (eval · (.all items)) := by
  cases items with
  | nil => exact (expresses_bool true).ofKind _
  | cons c items =>
    have hrow := expresses_row evalAll (o := .and)
      (fun ts us l r hl hr => .and hl (hr.ofKind _)) Expr.truth_and (fun _ => rfl) evalAll_cons
      items _ _ ((h c List.mem_cons_self).ofKind .conjunction)
      fun d hd => h d (List.mem_cons_of_mem _ hd)
    simp only [← evalAll_cons] at hrow
    exact hrow

theorem expresses_any {items : List Condition}
    (h : ∀ c ∈ items, Expresses .operand (c.enclosed c.written) (eval · c)) :
    Expresses .disjunction (written (.any items)) (eval · (.any items)) := by
  cases items with
  | nil => exact (expresses_bool false).ofKind _
  | cons c items =>
    have hrow := expresses_row evalAny (o := .or)
      (fun ts us l r hl hr => .or hl (hr.ofKind _)) Expr.truth_or (fun _ => rfl) evalAny_cons
      items _ _ ((h c List.mem_cons_self).ofKind .disjunction)
      fun d hd => h d (List.mem_cons_of_mem _ hd)
    simp only [← evalAny_cons] at hrow
    exact hrow

theorem expresses_not {c : Condition}
    (h : Expresses .operand (c.enclosed c.written) (eval · c)) :
    Expresses .negation (written (.not c)) (eval · (.not c)) := by
  obtain ⟨e, ⟨ts, hs, hd⟩, he⟩ := h
  have hbang : Lexer.lexeme? ['!'] = some ([.op .not], []) := rfl
  -- what follows the `!` begins with a bracket
  have hapart : Lexer.isApart (c.enclosed c.written) = true := by
    cases c <;> rfl
  refine ⟨.not e, ⟨_, (Lexer.Scans.single hbang).append hs hapart, .not (hd.ofKind _)⟩, ?_⟩
  intro scope
  rw [Expr.truth_not, he]
  rfl

/-- **A condition is expressed by its text**, by induction on the condition. -/
theorem expresses_written {c : Condition} (h : c.IsLogical) :
    Expresses .disjunction c.written (eval · c) ∧
      Expresses .operand (c.enclosed c.written) (eval · c) := by
  have hleaf : ∀ {c : Condition}, Expresses .operand c.written (eval · c) → _ := fun h =>
    And.intro (h.ofKind .disjunction) h
  have hgroup : ∀ {c : Condition}, Expresses .disjunction c.written (eval · c) → _ := fun h =>
    And.intro h h.brackets
  induction h with
  | literal b => exact hleaf ((expresses_bool b).ofKind _).brackets
  | expr h => exact hleaf (expresses_expr h).brackets
  | all _ ih =>
    obtain ⟨e, ⟨ts, hs, hd⟩, he⟩ := expresses_all fun c hc => (ih c hc).2
    exact hgroup ⟨e, ⟨ts, hs, .ofConjunction hd⟩, he⟩
  | any _ ih => exact hgroup (expresses_any fun c hc => (ih c hc).2)
  | not _ ih =>
    obtain ⟨e, ⟨ts, hs, hd⟩, he⟩ := expresses_not ih.2
    exact hgroup ⟨e, ⟨ts, hs, .ofConjunction (.ofNegation hd)⟩, he⟩

/-- **Groups agree with operators.** A condition made of expressions and truth values can be
written as one expression: the text is an expression, and in every scope it has the truth value
that the condition has, or stops with the same error or crash. -/
theorem test_written {c : Condition} (h : c.IsLogical) :
    (∃ e, Expr.parse (String.ofList c.written) = .ok e)
      ∧ ∀ scope : Scope, scope.test (String.ofList c.written) = c.eval scope := by
  obtain ⟨⟨e, hs, he⟩, -⟩ := expresses_written h
  have hp : Expr.parse (String.ofList c.written) = .ok e := by
    rw [Expr.parse_eq_ok_iff, String.toList_ofList]
    exact hs
  exact ⟨⟨e, hp⟩, fun scope => (scope.test_eq hp).trans (he scope)⟩

/-- A comparison and an empty group. -/
theorem test_written_balance :
    let c : Condition := .all [.expr "balance >= 100", .not (.any [])]
    let text := "(balance >= 100) && (!(false))"
    c.IsLogical ∧ String.ofList c.written = text ∧ (∃ e, Expr.parse text = .ok e)
      ∧ ∀ scope : Scope, scope.test text = c.eval scope := by
  intro c text
  let e : Expr := .compare .ge (.name "balance") (.literal (.number (.int 100 (by decide))))
  have hw : e.isWritable = true := by decide +kernel
  have he : e.written = "balance >= 100".toList := by decide +kernel
  have hp : Expr.parse "balance >= 100" = .ok e :=
    Expr.parse_eq_ok_iff.mpr (he ▸ Expr.spelled_written hw)
  have hc : c.IsLogical := by
    refine .all fun d hd => ?_
    obtain rfl | hd := List.mem_cons.mp hd
    · exact .expr hp
    · rw [List.mem_singleton.mp hd]
      exact .not (.any nofun)
  have ht : String.ofList c.written = text := by decide +kernel
  obtain ⟨hparse, htest⟩ := test_written hc
  rw [ht] at hparse htest
  exact ⟨hc, ht, hparse, htest⟩

end Condition

end Playbook
