import Playbook.Run.Dispatch

/-!
# What can crash

Expressions, templates and conditions crash in one way only: the least integer is
divided by minus one. So that is also the only crash of whatever a step computes before
it does something. What a step computes is broken off by a `Crash`, by a `Stop` or by a
`Halt`, each of which has crashes among other things; `OverflowsOnly` is about all three.
-/

namespace Playbook

variable {ε ε' α β : Type}

/-- **A computation that crashes by an overflow only**, where `crash` says what a crash
looks like among that which can break it off. -/
def OverflowsOnly (crash : Crash → ε) (x : Except ε α) : Prop :=
  ∀ c, x = .error (crash c) → c = .quotientOverflow

namespace OverflowsOnly

variable {crash : Crash → ε} {x : Except ε α}

theorem ok (a : α) : OverflowsOnly crash (.ok a) :=
  nofun

/-- What is broken off in the same way crashes in the same way. -/
theorem error (h : OverflowsOnly crash x) {e : ε} (hx : x = .error e) :
    OverflowsOnly crash (.error e : Except ε β) :=
  fun c hc => h c (hx.trans (congrArg Except.error (Except.error.inj hc)))

theorem map (h : OverflowsOnly crash x) (f : α → β) : OverflowsOnly crash (x.map f) := by
  cases x with
  | ok a => exact ok _
  | error e => exact h.error rfl

theorem bind (h : OverflowsOnly crash x) {f : α → Except ε β}
    (hf : ∀ a, OverflowsOnly crash (f a)) : OverflowsOnly crash (x.bind f) := by
  cases x with
  | ok a => exact hf a
  | error e => exact h.error rfl

/-- What is broken off is named in another way. -/
theorem mapError (h : OverflowsOnly crash x) {crash' : Crash → ε'} {f : ε → ε'}
    (hf : ∀ e c, f e = crash' c → e = crash c) : OverflowsOnly crash' (x.mapError f) := by
  intro c hc
  cases x with
  | ok a => cases hc
  | error e => exact h c (congrArg Except.error (hf e c (Except.error.inj hc)))

end OverflowsOnly

/-! ## Operators -/

theorem Comparison.overflowsOnly_apply (op : Comparison) (left right : Value) :
    OverflowsOnly .crash (op.apply left right) := by
  cases op with
  | «matches» =>
    unfold apply
    dsimp only
    split
    · exact .ok _
    · exact nofun
  | _ => exact .ok _

namespace Arithmetic

/-- **The one crash**: the least integer divided by minus one. -/
theorem overflowsOnly_integral? (op : Arithmetic) (a b : Int) :
    OverflowsOnly .crash (op.integral? a b) := by
  intro c hc
  cases op with
  | add | sub | mul => cases hc
  | div =>
    unfold integral? at hc
    dsimp only at hc
    split at hc
    · cases hc
    · split at hc
      · cases hc
        rfl
      · split at hc
        all_goals cases hc
  | rem =>
    unfold integral? at hc
    dsimp only at hc
    split at hc
    · cases hc
    · split at hc
      all_goals cases hc

theorem overflowsOnly_inexact (op : Arithmetic) (x y : Float) :
    OverflowsOnly .crash (op.inexact x y) := by
  cases op with
  | add | sub | mul => exact .ok _
  | div | rem =>
    unfold inexact
    dsimp only
    split
    · exact nofun
    · exact .ok _

theorem overflowsOnly_compute (op : Arithmetic) (a b : Operand) :
    OverflowsOnly .crash (op.compute a b) := by
  unfold compute
  split
  · rename_i m n
    split
    · exact .ok _
    · exact op.overflowsOnly_inexact _ _
    · rename_i hs
      exact (op.overflowsOnly_integral? m n).error hs
  · exact op.overflowsOnly_inexact _ _

theorem overflowsOnly_apply (op : Arithmetic) (left right : Value) :
    OverflowsOnly .crash (op.apply left right) := by
  unfold apply
  split
  · exact op.overflowsOnly_compute _ _
  · split
    · split
      · exact .ok _
      · exact .ok _
    · exact nofun

end Arithmetic

theorem Value.overflowsOnly_negated (v : Value) : OverflowsOnly .crash v.negated := by
  unfold negated
  split
  · split
    · exact .ok _
    · exact .ok _
  · exact .ok _
  · exact nofun

/-! ## Expressions and templates -/

/-- Texts inside of others that crash by an overflow only. -/
def Inner.OverflowsOnly (inner : Inner) : Prop :=
  ∀ text, Playbook.OverflowsOnly .crash (inner.value text)

variable {scope : Scope} {inner : Inner}

namespace Template

theorem overflowsOnly_placeholderWith (h : inner.OverflowsOnly) (cs : List Char) :
    OverflowsOnly id (placeholderWith scope inner cs) := by
  intro c hc
  unfold placeholderWith at hc
  dsimp only at hc
  split at hc
  · cases hc
  · split at hc
    · cases hc
    · split at hc
      · split at hc
        · cases hc
        · cases hc
        · rename_i hv
          cases hc
          exact h _ c hv
      · cases hc

theorem overflowsOnly_piecesWith (h : inner.OverflowsOnly) (pieces : List Piece) :
    OverflowsOnly id (piecesWith scope inner pieces) := by
  induction pieces with
  | nil => exact .ok _
  | cons piece rest ih =>
    have hp : OverflowsOnly id (pieceWith scope inner piece) := by
      unfold pieceWith
      split
      · rename_i cs
        split
        · exact .ok _
        · exact .ok _
        · rename_i hc
          exact (overflowsOnly_placeholderWith h cs).error hc
      · exact .ok _
    unfold piecesWith
    split
    · rename_i hc
      exact hp.error hc
    · exact ih.map _

theorem overflowsOnly_fillWith (h : inner.OverflowsOnly) (text : String) :
    OverflowsOnly id (fillWith scope inner text) :=
  overflowsOnly_piecesWith h _

end Template

/-- **An expression crashes by an overflow only**, if the texts inside of it do. -/
theorem Expr.overflowsOnly_evalWith (h : inner.OverflowsOnly) (e : Expr) :
    OverflowsOnly .crash (e.evalWith scope inner) := by
  induction e with
  | literal v => exact .ok _
  | template text =>
    unfold evalWith
    split
    · exact .ok _
    · rename_i c hc
      intro c' hc'
      cases hc'
      exact Template.overflowsOnly_fillWith h text c hc
  | name word => exact .ok _
  | reference text =>
    unfold evalWith
    split
    · exact .ok _
    · exact h text
  | not e ih => exact ih.map _
  | neg e ih => exact ih.bind Value.overflowsOnly_negated
  | and left right ihl ihr =>
    unfold evalWith
    split
    · rename_i hs
      exact ihl.error hs
    · split
      · exact ihr.map _
      · exact .ok _
  | or left right ihl ihr =>
    unfold evalWith
    split
    · rename_i hs
      exact ihl.error hs
    · split
      · exact .ok _
      · exact ihr.map _
  | compare op left right ihl ihr =>
    unfold evalWith
    split
    · rename_i hs
      exact ihl.error hs
    · split
      · rename_i hs
        exact ihr.error hs
      · exact (op.overflowsOnly_apply _ _).map _
  | compute op left right ihl ihr =>
    unfold evalWith
    split
    · rename_i hs
      exact ihl.error hs
    · split
      · rename_i hs
        exact ihr.error hs
      · exact op.overflowsOnly_apply _ _

namespace Scope

/-- Texts inside of texts, to any depth. -/
theorem overflowsOnly_inner (scope : Scope) (depth : Nat) :
    (scope.inner depth).OverflowsOnly := by
  induction depth with
  | zero => exact fun _ => .ok _
  | succ depth ih =>
    intro text
    unfold inner
    dsimp only
    split
    · exact nofun
    · exact Expr.overflowsOnly_evalWith ih _

theorem overflowsOnly_test (scope : Scope) (text : String) :
    OverflowsOnly .crash (scope.test text) :=
  (scope.overflowsOnly_inner _ text).map _

theorem overflowsOnly_resolveText (scope : Scope) (text : String) :
    OverflowsOnly id (scope.resolveText text) := by
  unfold resolveText
  split
  · rename_i cs _
    split
    · exact .ok _
    · exact .ok _
    · rename_i hc
      exact (Template.overflowsOnly_placeholderWith (scope.overflowsOnly_inner _) cs).error hc
  · exact (Template.overflowsOnly_fillWith (scope.overflowsOnly_inner _) text).map _

mutual

theorem overflowsOnly_resolve (scope : Scope) : (v : Value) →
    OverflowsOnly id (scope.resolve v)
  | .text s => scope.overflowsOnly_resolveText s
  | .list items => (overflowsOnly_resolveItems scope items).map _
  | .record fields => (overflowsOnly_resolveFields scope fields).map _
  | .null => .ok _
  | .bool _ => .ok _
  | .number _ => .ok _

theorem overflowsOnly_resolveItems (scope : Scope) : (items : List Value) →
    OverflowsOnly id (scope.resolveItems items)
  | [] => .ok _
  | v :: rest => by
    unfold resolveItems
    split
    · rename_i hc
      exact (overflowsOnly_resolve scope v).error hc
    · exact (overflowsOnly_resolveItems scope rest).map _

theorem overflowsOnly_resolveFields (scope : Scope) : (fields : List (String × Value)) →
    OverflowsOnly id (scope.resolveFields fields)
  | [] => .ok _
  | (k, v) :: rest => by
    unfold resolveFields
    split
    · rename_i hc
      exact (overflowsOnly_resolve scope v).error hc
    · exact (overflowsOnly_resolveFields scope rest).map _

end

theorem overflowsOnly_resolveReference (scope : Scope) (v : Value) :
    OverflowsOnly id (scope.resolveReference v) := by
  cases v with
  | text s => exact scope.overflowsOnly_resolveText s
  | _ => exact .ok _

end Scope

/-! ## Conditions -/

namespace Condition

mutual

theorem overflowsOnly_eval (scope : Scope) : (c : Condition) →
    OverflowsOnly .crash (c.eval scope)
  | .literal _ => .ok _
  | .expr text => scope.overflowsOnly_test text
  | .all items => overflowsOnly_evalAll scope items
  | .any items => overflowsOnly_evalAny scope items
  | .not c => (overflowsOnly_eval scope c).map _

theorem overflowsOnly_evalAll (scope : Scope) : (items : List Condition) →
    OverflowsOnly .crash (evalAll scope items)
  | [] => .ok _
  | c :: rest => by
    unfold evalAll
    split
    · exact overflowsOnly_evalAll scope rest
    · exact overflowsOnly_eval scope c

theorem overflowsOnly_evalAny (scope : Scope) : (items : List Condition) →
    OverflowsOnly .crash (evalAny scope items)
  | [] => .ok _
  | c :: rest => by
    unfold evalAny
    split
    · exact overflowsOnly_evalAny scope rest
    · exact overflowsOnly_eval scope c

end

end Condition

/-! ## What steps compute -/

/-- A crash as it ends a step. -/
theorem OverflowsOnly.halt {x : Except Crash α} (h : OverflowsOnly id x) :
    OverflowsOnly .crash (x.mapError Halt.crash) :=
  h.mapError fun _ _ he => Halt.crash.inj he

namespace Engine

variable {σ : Type} (engine : Engine σ)

theorem overflowsOnly_test (condition : Condition) (vars : Variables) :
    OverflowsOnly .crash (engine.test condition vars) := by
  refine (condition.overflowsOnly_eval _).mapError fun e c he => ?_
  cases e with
  | error => cases he
  | crash => rw [Halt.crash.inj he]

theorem overflowsOnly_resolve (v : Value) (vars : Variables) :
    OverflowsOnly .crash (engine.resolve v vars) :=
  (Scope.overflowsOnly_resolve _ v).halt

end Engine

namespace Runner

variable {σ : Type} (engine : Engine σ)

theorem overflowsOnly_elementsOf (v : Value) : OverflowsOnly .crash (elementsOf v) := by
  unfold elementsOf
  split
  · exact .ok _
  · exact .ok _
  · exact nofun

theorem overflowsOnly_elements (source : Value) (vars : Variables) :
    OverflowsOnly .crash (elements engine source vars) := by
  unfold elements
  dsimp only
  split
  · split
    · split
      · exact overflowsOnly_elementsOf _
      · exact nofun
    · exact (engine.overflowsOnly_resolve _ vars).bind overflowsOnly_elementsOf
  · exact (engine.overflowsOnly_resolve source vars).bind overflowsOnly_elementsOf

theorem overflowsOnly_timesOf (times : Value) (vars : Variables) :
    OverflowsOnly .crash (timesOf engine times vars) := by
  refine (Scope.overflowsOnly_resolveReference _ times).halt.bind fun v => ?_
  split
  · exact .ok _
  · intro c hc
    cases hc

theorem overflowsOnly_declaredValue (scope : Scope) (returns : Option String) :
    OverflowsOnly .crash (declaredValue scope returns) := by
  cases returns with
  | none => exact .ok _
  | some text =>
    unfold declaredValue
    dsimp only
    split
    · exact .ok _
    · exact (scope.overflowsOnly_resolveText text).halt

end Runner

end Playbook
