import Playbook.Proofs.Expr.Placeholder
import Playbook.Proofs.Template.Filling

/-!
# Expressions that are fully bound

A bare name without a variable stands for itself, and a reference without one is `null`. An
expression all of whose names and references lead to values does not fall back on either, and so
more variables do not change it: it is still fully bound, and it has the value or the error that it
had (`Scope.evaluate_of_isBound`).

Whether an expression is bound is not the question that its evaluation asks. The two go down the
tree separately, read the texts of references anew each, and evaluation leaves out what `and` and
`or` do not need. That both take the same texts for paths is what carries the induction
(`Expr.evalWith_extendedBy`).

Strings with placeholders are left out, for they are bound whatever they hold. It is not enough to
leave out those that are literals of the expression itself. A reference is read anew as an
expression, and a string in its text may have a placeholder too, if a backslash keeps the closing
braces apart (`Scope.evaluate_ne_of_string_inside`).
-/

namespace Playbook

/-! ## The parts of an expression -/

/-- What an operator of an expression is applied to. -/
def Expr.operands : Expr → List Expr
  | not e => [e]
  | neg e => [e]
  | and l r => [l, r]
  | or l r => [l, r]
  | compare _ l r => [l, r]
  | compute _ l r => [l, r]
  | _ => []

/-- **A part of an expression**, or of one that a reference in it holds, at any depth. -/
inductive Expr.Part (part : Expr) : Expr → Prop
  | refl : Part part part
  | operand {e operand : Expr} (ho : operand ∈ e.operands) (h : Part part operand) : Part part e
  | reference {text : String} {e : Expr} (hp : Path.isPath text = false)
    (he : Expr.parse text = .ok e) (h : Part part e) : Part part (.reference text)

/-- A string literal with a given text. -/
inductive Expr.IsText (s : String) : Expr → Prop
  | literal : IsText s (.literal (.text s))
  | template : IsText s (.template s)

/-- **No string literal of an expression has opening braces**, and none of an expression that is
read from a reference in it. -/
def Expr.PlainTexts (e : Expr) : Prop :=
  ∀ part s, Expr.Part part e → part.IsText s → Template.hasPlaceholders s = false

/-- The name of a variable in an expression: a bare name, or a reference that holds a path. -/
def Expr.Names (e : Expr) (word : String) : Prop :=
  Expr.Part (.name word) e ∨ Expr.Part (.reference word) e ∧ Path.isPath word = true

/-! ## More variables -/

/-- What a scope finds, the other one finds too. -/
def Scope.ExtendedBy (s t : Scope) : Prop :=
  ∀ path v, s.find? path = some v → t.find? path = some v

/-- Texts that are bound for one way of evaluation are bound for the other, and mean the same. -/
def Inner.ExtendedBy (i j : Inner) : Prop :=
  ∀ text, (∀ e, Expr.parse text = .ok e → e.PlainTexts) → i.isBound text = true →
    j.isBound text = true ∧ j.value text = i.value text

variable {s t : Scope} {i j : Inner}

theorem Scope.ExtendedBy.lookup? (h : s.ExtendedBy t) {text : String} {v : Value}
    (hv : s.lookup? text = some v) : t.lookup? text = some v := by
  obtain ⟨path, hp, hv⟩ := Option.bind_eq_some_iff.mp hv
  exact Option.bind_eq_some_iff.mpr ⟨path, hp, h path v hv⟩

theorem Scope.ofVariables_extendedBy {vars vars' : Named Value}
    (h : ∀ x v, vars.lookup x = some v → vars'.lookup x = some v) :
    (ofVariables vars).ExtendedBy (ofVariables vars') := by
  intro path v hv
  obtain ⟨root, hroot, hv⟩ := Option.bind_eq_some_iff.mp hv
  exact Option.bind_eq_some_iff.mpr ⟨root, h _ _ hroot, hv⟩

namespace Expr

theorem PlainTexts.operand {e operand : Expr} (h : e.PlainTexts) (ho : operand ∈ e.operands) :
    operand.PlainTexts :=
  fun part s hp => h part s (.operand ho hp)

theorem PlainTexts.of_operands {e : Expr} (hr : ∀ text, e ≠ .reference text)
    (hs : ∀ s, ¬ e.IsText s) (h : ∀ operand ∈ e.operands, operand.PlainTexts) : e.PlainTexts := by
  intro part s hp hpart
  cases hp with
  | refl => exact absurd hpart (hs s)
  | operand ho hp => exact h _ ho part s hp hpart
  | reference => exact absurd rfl (hr _)

theorem PlainTexts.reference {text : String} (h : ∀ e, Expr.parse text = .ok e → e.PlainTexts) :
    PlainTexts (.reference text) := by
  intro part s hp hpart
  cases hp with
  | refl => cases hpart
  | operand ho => cases ho
  | reference _ he hp => exact h _ he part s hp hpart

/-- **A bound tree keeps its value** where more is found, by induction on the tree. -/
theorem evalWith_extendedBy (h : s.ExtendedBy t) (hi : i.ExtendedBy j) {e : Expr}
    (ht : e.PlainTexts) (hb : e.boundWith s i = true) :
    e.boundWith t j = true ∧ e.evalWith t j = e.evalWith s i := by
  induction e with
  | literal => exact ⟨rfl, rfl⟩
  | template text =>
    have hplain : Template.hasPlaceholders text = false := ht _ text .refl .template
    refine ⟨rfl, ?_⟩
    rw [evalWith, evalWith, Template.fillWith_of_not_hasPlaceholders hplain,
      Template.fillWith_of_not_hasPlaceholders hplain]
  | name word =>
    obtain ⟨v, hv⟩ := Option.isSome_iff_exists.mp hb
    rw [boundWith, evalWith, evalWith, hv, h.lookup? hv]
    exact ⟨rfl, rfl⟩
  | reference text =>
    rw [boundWith] at hb
    rw [boundWith, evalWith, evalWith]
    cases hp : Path.isPath text with
    | true =>
      rw [if_pos hp] at hb
      obtain ⟨v, hv⟩ := Option.isSome_iff_exists.mp hb
      rw [hv, h.lookup? hv]
      exact ⟨rfl, rfl⟩
    | false =>
      rw [hp, if_neg Bool.false_ne_true] at hb
      exact hi text (fun e he part s hpart => ht part s (.reference hp he hpart)) hb
  | not e ih | neg e ih =>
    obtain ⟨hbound, hvalue⟩ := ih (ht.operand (List.mem_singleton_self _)) hb
    exact ⟨hbound, by rw [evalWith, evalWith, hvalue]⟩
  | and l r ihl ihr | or l r ihl ihr | compare op l r ihl ihr | compute op l r ihl ihr =>
    obtain ⟨hl, hr⟩ := Bool.and_eq_true_iff.mp hb
    obtain ⟨hboundl, hl⟩ := ihl (ht.operand List.mem_cons_self) hl
    obtain ⟨hboundr, hr⟩ := ihr (ht.operand (List.mem_cons_of_mem _ List.mem_cons_self)) hr
    exact ⟨Bool.and_eq_true_iff.mpr ⟨hboundl, hboundr⟩, by rw [evalWith, evalWith, hl, hr]⟩

/-- A bound expression has bound operands. -/
theorem boundWith_operand {e operand : Expr} (ho : operand ∈ e.operands)
    (hb : e.boundWith s i = true) : operand.boundWith s i = true := by
  cases e with
  | literal | template | name | reference => cases ho
  | not e | neg e =>
    cases List.mem_singleton.mp ho
    exact hb
  | and l r | or l r | compare op l r | compute op l r =>
    obtain ⟨hl, hr⟩ := Bool.and_eq_true_iff.mp hb
    obtain rfl | ho := List.mem_cons.mp ho
    · exact hl
    · cases List.mem_singleton.mp ho
      exact hr

/-- **Every part of a bound expression is bound.** -/
theorem Part.boundWith {part e : Expr} (hp : Part part e)
    (hb : e.boundWith s s.whole = true) : part.boundWith s s.whole = true := by
  induction hp with
  | refl => exact hb
  | @reference text e hp he _ ih =>
    rw [Expr.boundWith, if_neg (by rw [hp]; exact Bool.false_ne_true)] at hb
    exact ih ((s.isBound_eq he).symm.trans hb)
  | operand ho _ ih => exact ih (boundWith_operand ho hb)

/-- The names of variables in a bound expression lead to values. -/
theorem Names.exists_lookup? {e : Expr} {word : String} (h : e.Names word)
    (hb : e.boundWith s s.whole = true) : ∃ v, s.lookup? word = some v := by
  obtain hp | ⟨hp, hpath⟩ := h
  · exact Option.isSome_iff_exists.mp (hp.boundWith hb)
  · have hb := hp.boundWith hb
    rw [boundWith, if_pos hpath] at hb
    exact Option.isSome_iff_exists.mp hb

end Expr

namespace Scope

/-- With more variables, bound texts inside of texts mean the same, to any depth. -/
theorem ExtendedBy.inner (h : s.ExtendedBy t) (depth : Nat) :
    (s.inner depth).ExtendedBy (t.inner depth) := by
  induction depth with
  | zero => exact fun _ _ hb => nomatch hb
  | succ depth ih =>
    intro text ht hb
    dsimp only [Scope.inner] at hb ⊢
    cases he : Expr.parse text with
    | error => rw [he] at hb; cases hb
    | ok e =>
      rw [he] at hb
      exact Expr.evalWith_extendedBy h ih (ht e he) hb

/-- **A fully bound expression does not fall back on anything.** With more variables it is fully
bound too and has the same value or the same error, if none of its strings has placeholders; each
name of a variable in it leads to a value, and to the same one. -/
theorem evaluate_of_isBound {vars vars' : Named Value}
    (hvars : ∀ x v, vars.lookup x = some v → vars'.lookup x = some v) {source : String} {e : Expr}
    (he : Expr.parse source = .ok e) (ht : e.PlainTexts)
    (hb : (ofVariables vars).isBound source = true) :
    (ofVariables vars').isBound source = true
      ∧ (ofVariables vars').evaluate source = (ofVariables vars).evaluate source
      ∧ ∀ word, e.Names word → ∃ v, (ofVariables vars).lookup? word = some v
        ∧ (ofVariables vars').lookup? word = some v := by
  have hext := ofVariables_extendedBy hvars
  obtain ⟨hbound, hvalue⟩ := hext.inner (depthOf source) source
    (fun e' he' => by cases he.symm.trans he'; exact ht) hb
  refine ⟨hbound, hvalue, fun word hw => ?_⟩
  obtain ⟨v, hv⟩ := hw.exists_lookup? ((isBound_eq _ he).symm.trans hb)
  exact ⟨v, hv, hext.lookup? hv⟩

/-- A reference that holds an expression, and a variable more. -/
theorem evaluate_of_isBound_reference :
    let vars : Named Value := [("row", .record [("amount", .int 5)])]
    let vars' : Named Value := ("x", .int 1) :: vars
    let source := Template.braced "row.amount * 2"
    let e : Expr := .reference "row.amount * 2"
    (∀ x v, vars.lookup x = some v → vars'.lookup x = some v) ∧ Expr.parse source = .ok e
      ∧ e.PlainTexts ∧ (ofVariables vars).isBound source = true
      ∧ (ofVariables vars').isBound source = true
      ∧ (ofVariables vars').evaluate source = (ofVariables vars).evaluate source
      ∧ e.Names "row.amount" ∧ ∃ v, (ofVariables vars').lookup? "row.amount" = some v := by
  intro vars vars' source e
  let inside : Expr := .compute .mul (.name "row.amount") (.literal (.number (.int 2 (by decide))))
  have hvars : ∀ x v, vars.lookup x = some v → vars'.lookup x = some v := by
    intro x v hv
    have hx : (x == "x") = false := by
      rw [beq_eq_false_iff_ne]
      rintro rfl
      cases hv
    rw [List.lookup_cons, hx]
    exact hv
  have hwritten : String.ofList inside.written = "row.amount * 2" := by decide +kernel
  have hinside : Expr.parse "row.amount * 2" = .ok inside := by
    obtain ⟨hparse, hplain⟩ := Expr.parse_written inside (by decide +kernel)
    exact hwritten ▸ hplain (by decide +kernel) ▸ hparse
  have hpath : Path.isPath "row.amount * 2" = false := by decide +kernel
  have he : Expr.parse source = .ok e := by
    rw [parse_braced (by decide +kernel) hinside]
    exact congrArg (fun text => Except.ok (Expr.reference text)) (by decide +kernel)
  have hplain : inside.PlainTexts := by
    show Expr.PlainTexts (.compute .mul (.name "row.amount") (.literal (.number (.int 2 _))))
    refine .of_operands nofun nofun fun operand ho => ?_
    obtain rfl | ho := List.mem_cons.mp ho
    · exact .of_operands nofun nofun nofun
    · cases List.mem_singleton.mp ho
      exact .of_operands nofun nofun nofun
  have ht : e.PlainTexts := by
    refine .reference fun e' he' => ?_
    cases hinside.symm.trans he'
    exact hplain
  have hb : (ofVariables vars).isBound source = true := by decide +kernel
  have hname : e.Names "row.amount" :=
    .inl (.reference hpath hinside (.operand List.mem_cons_self .refl))
  obtain ⟨hbound, hvalue, hfound⟩ := evaluate_of_isBound hvars he ht hb
  obtain ⟨v, -, hv⟩ := hfound _ hname
  exact ⟨hvars, he, ht, hb, hbound, hvalue, hname, v, hv⟩

/-- **A string inside of a reference can have a placeholder too.** Here the braces in the string
are told apart from those around it by a backslash. The expression is the reference, and nothing in
it is a string literal. It is fully bound with and without the variable `y`, but the string that is
read from the reference has another value each. -/
theorem evaluate_ne_of_string_inside :
    let inside := "'\x7b\x7by\x7d\\\x7d'"
    let source := Template.braced (" " ++ inside ++ " ")
    let e : Expr := .reference inside
    let less := ofVariables []
    let more := ofVariables [("y", .int 1)]
    Expr.parse source = .ok e ∧ e.operands = [] ∧ (∀ s, ¬ e.IsText s)
      ∧ less.isBound source = true ∧ more.isBound source = true
      ∧ (less.evaluate source).toOption.bind Value.text? = some "\x7b\x7by\x7d\x7d"
      ∧ (more.evaluate source).toOption.bind Value.text? = some "1" := by
  intro inside source e less more
  have hclosed : ¬ Template.closing <:+: (" " ++ inside ++ " ").toList ++ ['\x7d'] := by
    decide +kernel
  have hparse : Expr.parse source = .ok e := by
    rw [parse_braced_of_closed hclosed]
    exact congrArg (fun text => Except.ok (Expr.reference text)) (by decide +kernel)
  have hliteral : ∀ text s, ¬ (Expr.reference text).IsText s := fun _ _ h => nomatch h
  refine ⟨hparse, rfl, hliteral inside, ?_⟩
  decide +kernel

end Scope

end Playbook
