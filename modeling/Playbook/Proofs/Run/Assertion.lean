import Playbook.Proofs.Process.Reach
import Playbook.Run.Dispatch
import Playbook.Step.Reader

/-!
# Assertions and branches

The action `assert` and the conditions of branches and loops are evaluated
apart from each other. They agree on texts and on literals. A group, though,
that joins conditions by `and`, `or` or `not`, is a record, and an assertion
takes a record that is not empty for true, whatever is in it. Besides, all
texts among the parameters of an action are resolved before it is carried out,
and if one crashes there, so does the assertion, even where the branch would
not have looked at it.

`Engine.assert_iff` says when exactly the step succeeds, for all conditions.
-/

namespace Playbook

/-! ## Conditions as they are read -/

namespace Condition

/-- A text is read as an expression. -/
theorem eq_expr_of_read {s : String} {cond : Condition}
    (h : read (.text s) = .ok cond) : cond = .expr s := by
  cases h
  rfl

/-- A record is read as a condition only if it is a group, and then it is not
empty. -/
theorem isTruthy_of_read {fields : Named Value} {cond : Condition}
    (h : read (.record fields) = .ok cond) :
    (Value.record fields).isTruthy = true := by
  cases fields with
  | nil => cases h
  | cons field rest => rfl

end Condition

namespace Handler

/-- **An assertion and a branch agree** on conditions that are not groups. -/
theorem assertionHolds_eq_eval {scope : Scope} {v : Value} {cond : Condition}
    (h : Condition.read v = .ok cond) (hg : v.fields? = none) :
    assertionHolds scope v = cond.eval scope := by
  cases v with
  | text s =>
    rw [Condition.eq_expr_of_read h]
    rfl
  | record fields => cases hg
  | list items => cases h
  | null =>
    cases h
    rfl
  | bool b =>
    cases h
    rfl
  | number n =>
    cases h
    rfl

/-- **An assertion takes every group for true.** -/
theorem assertionHolds_group {scope : Scope} {fields : Named Value}
    {cond : Condition} (h : Condition.read (.record fields) = .ok cond) :
    assertionHolds scope (.record fields) = .ok true :=
  congrArg Except.ok (Condition.isTruthy_of_read h)

end Handler

/-! ## Steps that succeed -/

variable {σ : Type}

/-- A task succeeds: it can come to its end, and it never ends with a
failure. -/
def Task.Succeeds (p : Task σ) : Prop :=
  (∃ t o, p.Reaches t (.inl o)) ∧ ∀ t o, p.Reaches t (.inl o) → o.failed = false

theorem Task.succeeds_done {o : Outcome} :
    Task.Succeeds (σ := σ) (.done o) ↔ o.failed = false := by
  constructor
  · exact fun h => h.2 [] o (.done o)
  · refine fun h => ⟨⟨[], o, .done o⟩, fun t o' ht => ?_⟩
    obtain ⟨-, he⟩ := Process.reaches_done.mp ht
    rw [Sum.inl.inj he]
    exact h

theorem Task.not_succeeds_crash {c : Crash} :
    ¬ Task.Succeeds (σ := σ) (.crash c) := by
  rintro ⟨⟨t, o, h⟩, -⟩
  exact Process.reaches_crash h

theorem Task.not_succeeds_fail {f : Failure} {vars : Variables} :
    ¬ Task.Succeeds (σ := σ) (Runner.fail f vars) :=
  fun h => nomatch Task.succeeds_done.mp h

/-- A step that is not to go on after a failure ends as its action does, with
its variable bound. -/
theorem Runner.reaches_observed [Nonempty σ] {engine : Engine σ} {step : Step}
    {index : Nat} {r : Runner σ} {vars : Variables} {o : Outcome}
    (hc : step.continueOnError = false) :
    (∃ t, (observed engine step index r vars).Reaches t (.inl o))
      ↔ ∃ t b, (r vars).Reaches t (.inl b)
        ∧ o = { b with vars := bindReturns step.returns b } := by
  have hend : ∀ b : Outcome, (if b.failed && step.continueOnError
        then yield .null (bindReturns step.returns b)
        else .done { b with vars := bindReturns step.returns b } : Task σ)
      = .done { b with vars := bindReturns step.returns b } := by
    intro b
    rw [hc, Bool.and_false]
    rfl
  constructor
  · rintro ⟨t, h⟩
    obtain ⟨u, w, -, h⟩ := Process.reaches_act.mp h
    obtain ⟨v, hv, -⟩ | ⟨t₁, t₂, b, -, h₁, h₂⟩ := Process.reaches_andThen h
    · cases hv
    obtain ⟨u', w', -, h₂⟩ := Process.reaches_act.mp h₂
    rw [hend b] at h₂
    obtain ⟨-, he⟩ := Process.reaches_done.mp h₂
    exact ⟨t₁, b, h₁, Sum.inl.inj he⟩
  · rintro ⟨t, b, h, rfl⟩
    obtain ⟨own⟩ := ‹Nonempty σ›
    let w : World σ := .fresh ⟨[], []⟩ own
    let last : Deed σ := .finish step index vars.depth (b.result.map Flow.value)
      (!step.action.isControl || engine.settings.recordControlSteps)
    refine ⟨.start step index vars.depth :: (t ++ [last]),
      .act w (.andThen (.act w ?_) h)⟩
    rw [hend b]
    exact .done _

/-- **A step succeeds if and only if its action does.** -/
theorem Runner.succeeds_observed [Nonempty σ] {engine : Engine σ} {step : Step}
    {index : Nat} {r : Runner σ} {vars : Variables}
    (hc : step.continueOnError = false) :
    Task.Succeeds (observed engine step index r vars) ↔ Task.Succeeds (r vars) := by
  constructor
  · rintro ⟨⟨t, o, ht⟩, hall⟩
    obtain ⟨t', b, hb, -⟩ := (reaches_observed hc).mp ⟨t, ht⟩
    refine ⟨⟨t', b, hb⟩, fun t b hb => ?_⟩
    obtain ⟨u, hu⟩ := (reaches_observed hc).mpr ⟨t, b, hb, rfl⟩
    have hb' := hall u _ hu
    exact hb'
  · rintro ⟨⟨t, b, hb⟩, hall⟩
    obtain ⟨u, hu⟩ := (reaches_observed hc).mpr ⟨t, b, hb, rfl⟩
    refine ⟨⟨u, _, hu⟩, fun t o ht => ?_⟩
    obtain ⟨t', b', hb', rfl⟩ := (reaches_observed hc).mp ⟨t, ht⟩
    exact hall t' b' hb'

/-! ## The action `assert` -/

/-- The action `assert` is carried out as a standard action, and not by an
injected handler. -/
structure Engine.StandardAssert (engine : Engine σ) : Prop where
  supports : engine.handler.supports "assert" = true
  handle : ∀ (call : ActionCall) (vars : Variables), call.name = "assert" →
    engine.handler.handle call vars
      = Handler.checkAssertion (engine.scope vars) call

theorem Engine.standardAssert_standard (settings : Settings) (ambient : Ambient) :
    Engine.StandardAssert (σ := σ) ⟨settings, .standard ambient, ambient⟩ where
  supports := rfl
  handle call vars h := by
    obtain ⟨name, params, options, written⟩ := call
    subst h
    rfl

/-- Injected handlers are asked first, and if none of them knows `assert`, it is
the standard action. -/
theorem Engine.standardAssert_chain {handlers : List (Handler σ)}
    (h : ∀ handler ∈ handlers, handler.supports "assert" = false)
    (settings : Settings) (ambient : Ambient) :
    Engine.StandardAssert (σ := σ)
      ⟨settings, .chain (handlers ++ [.standard ambient]), ambient⟩ := by
  have hs := Engine.standardAssert_standard (σ := σ) settings ambient
  have hnone : handlers.find? (fun x : Handler σ => x.supports "assert") = none :=
    List.find?_eq_none.mpr fun x hx => by rw [h x hx]; exact Bool.false_ne_true
  refine ⟨?_, fun call vars hc => ?_⟩
  · show (handlers ++ [Handler.standard ambient]).any
      (fun x : Handler σ => x.supports "assert") = true
    rw [List.any_append]
    exact Bool.or_eq_true_iff.mpr (.inr rfl)
  · show (Handler.chain (handlers ++ [.standard ambient])).handle call vars = _
    unfold Handler.chain
    dsimp only
    rw [hc, List.find?_append, hnone]
    exact hs.handle call vars hc

namespace Runner

variable {engine : Engine σ}

/-- What an assertion comes to by itself. -/
theorem succeeds_checkAssertion {scope : Scope} {call : ActionCall} {c : Value}
    (hw : call.written = .record [("condition", c)]) (vars : Variables) :
    Task.Succeeds (σ := σ) ((Handler.checkAssertion scope call).task vars)
      ↔ Handler.assertionHolds scope c = .ok true := by
  have hlookup : ([("condition", c)] : Named Value).lookup "condition" = some c := rfl
  unfold Handler.checkAssertion
  rw [hw]
  dsimp only
  rw [hlookup]
  dsimp only [HOrElse.hOrElse, OrElse.orElse, Option.orElse]
  cases Handler.assertionHolds scope c with
  | ok holds =>
    cases holds with
    | true => exact ⟨fun _ => rfl, fun _ => Task.succeeds_done.mpr rfl⟩
    | false => exact ⟨fun h => (Task.not_succeeds_fail h).elim, nofun⟩
  | error e =>
    refine ⟨fun h => ?_, nofun⟩
    cases e with
    | error e => exact (Task.not_succeeds_fail h).elim
    | crash c => exact (Task.not_succeeds_crash h).elim

/-- The action resolves its parameters first. -/
theorem succeeds_perform_assert (h : engine.StandardAssert) (keys : List String)
    (c : Value) (vars : Variables) :
    Task.Succeeds
        (perform engine keys "assert" (.record [("condition", c)]) [] vars)
      ↔ (∃ v, engine.resolve c vars = .ok v)
        ∧ Handler.assertionHolds (engine.scope vars) c = .ok true := by
  have hresolve : engine.resolve (.record [("condition", c)]) vars
      = (engine.resolve c vars).map fun v => .record [("condition", v)] := by
    unfold Engine.resolve
    simp only [Scope.resolve, Scope.resolveFields]
    cases (engine.scope vars).resolve c with
    | ok v => rfl
    | error e => rfl
  unfold perform
  rw [if_pos h.supports]
  unfold compute
  dsimp only
  rw [hresolve]
  cases hr : engine.resolve c vars with
  | error e =>
    constructor
    · intro hs
      cases e with
      | failure f => exact (Task.not_succeeds_fail hs).elim
      | crash c => exact (Task.not_succeeds_crash hs).elim
    · rintro ⟨⟨v, hv⟩, -⟩
      cases hv
  | ok v =>
    show Task.Succeeds ((engine.handler.handle
        ⟨"assert", .record [("condition", v)], [], .record [("condition", c)]⟩
        vars).task vars) ↔ _
    rw [h.handle _ vars rfl]
    refine (succeeds_checkAssertion rfl vars).trans ?_
    exact ⟨fun ha => ⟨⟨v, rfl⟩, ha⟩, fun ha => ha.2⟩

end Runner

theorem eq_ok_of_toOption {ε α : Type} {x : Except ε α} {a : α} (h : x.toOption = some a) :
    x = .ok a := by
  cases x with
  | error e => cases h
  | ok b => exact congrArg _ (Option.some.inj h)

/-- **When an assertion succeeds**: its condition can be resolved, and it is a
group or a condition that holds. For texts and literals that is when a branch
with the condition takes its first list; a group is not evaluated at all. -/
theorem Engine.assert_iff [Nonempty σ] {engine : Engine σ}
    (h : engine.StandardAssert) {c : Value} {cond : Condition}
    (hc : Condition.read c = .ok cond) :
    ∃ step, Step.read (.record [("assert", .record [("condition", c)])]) = .ok step
      ∧ ∀ index vars, Task.Succeeds (engine.executeStep step index vars)
        ↔ (∃ v, engine.resolve c vars = .ok v)
          ∧ ((∃ fields, c = .record fields) ∨ engine.test cond vars = .ok true) := by
  have htest : ∀ vars, Handler.assertionHolds (engine.scope vars) c = .ok true
      ↔ (∃ fields, c = .record fields) ∨ engine.test cond vars = .ok true := by
    intro vars
    cases hg : c.fields? with
    | some fields =>
      have hr : c = .record fields := by
        cases c with
        | record fields' => exact congrArg Value.record (Option.some.inj hg)
        | _ => cases hg
      rw [hr] at hc
      rw [hr, Handler.assertionHolds_group hc]
      exact ⟨fun _ => .inl ⟨fields, rfl⟩, fun _ => rfl⟩
    | none =>
      rw [Handler.assertionHolds_eq_eval hc hg]
      have hr : ¬ ∃ fields, c = .record fields := by
        rintro ⟨fields, rfl⟩
        cases hg
      rw [or_iff_right hr]
      unfold Engine.test
      cases cond.eval (engine.scope vars) with
      | ok holds => exact ⟨fun he => by cases he; rfl, fun he => by cases he; rfl⟩
      | error e => exact ⟨nofun, nofun⟩
  refine ⟨.mk (.domain "assert" (.record [("condition", c)]) []) none false none
    (.record [("assert", .record [("condition", c)])]), ?_, fun index vars => ?_⟩
  · rfl
  · rw [← htest vars]
    refine (Runner.succeeds_observed rfl).trans ?_
    exact Runner.succeeds_perform_assert h _ c vars

/-- A literal, an expression that holds for one value of a variable and not for another one, and
a group, whose conditions do not matter. -/
theorem Engine.assert_iff_three :
    let ambient : Ambient := ⟨0, "", "", fun _ => none⟩
    let engine : Engine Unit := ⟨.default, .standard ambient, ambient⟩
    let asserts := fun c => Value.record [("assert", .record [("condition", c)])]
    let group := Value.record [("or", .list [.bool false, .text "n > 1"])]
    let one : Variables := ⟨[("n", .int 1)], []⟩
    let two : Variables := ⟨[("n", .int 2)], []⟩
    (∃ step, Step.read (asserts (.bool false)) = .ok step
        ∧ ¬ Task.Succeeds (engine.executeStep step 1 one))
      ∧ (∃ step, Step.read (asserts (.text "n > 1")) = .ok step
        ∧ ¬ Task.Succeeds (engine.executeStep step 1 one)
        ∧ Task.Succeeds (engine.executeStep step 1 two))
      ∧ ∃ step, Step.read (asserts group) = .ok step
        ∧ Task.Succeeds (engine.executeStep step 1 one) := by
  intro ambient engine asserts group one two
  have hstd : engine.StandardAssert := Engine.standardAssert_standard .default ambient
  have hvalue : ∀ x : Except Halt Value, x.isOk = true → ∃ v, x = .ok v
    | .ok v, _ => ⟨v, rfl⟩
  have hresolve : (engine.resolve (.text "n > 1") two).isOk = true
      ∧ (engine.resolve group one).isOk = true := by
    subst one two group asserts engine ambient
    decide +kernel
  have htest : (engine.test (.expr "n > 1") one).toOption = some false
      ∧ (engine.test (.expr "n > 1") two).toOption = some true := by
    subst one two group asserts engine ambient
    decide +kernel
  have hfails : engine.test (.expr "n > 1") one = .ok false := eq_ok_of_toOption htest.1
  have hholds : engine.test (.expr "n > 1") two = .ok true := eq_ok_of_toOption htest.2
  obtain ⟨literal, hl, hliteral⟩ := Engine.assert_iff hstd (c := .bool false) rfl
  obtain ⟨text, ht, htext⟩ := Engine.assert_iff hstd (c := .text "n > 1") rfl
  obtain ⟨any, ha, hany⟩ := Engine.assert_iff hstd (c := group) rfl
  refine ⟨⟨literal, hl, fun h => ?_⟩, ⟨text, ht, fun h => ?_,
    (htext 1 two).mpr ⟨hvalue _ hresolve.1, .inr hholds⟩⟩,
    any, ha, (hany 1 one).mpr ⟨hvalue _ hresolve.2, .inl ⟨_, rfl⟩⟩⟩
  · obtain ⟨-, ⟨fields, hr⟩ | hr⟩ := (hliteral 1 one).mp h
    · cases hr
    · cases hr
  · obtain ⟨-, ⟨fields, hr⟩ | hr⟩ := (htext 1 one).mp h
    · cases hr
    · cases hfails.symm.trans hr

/-- **An assertion of a group succeeds whatever its conditions say**: no branch
is taken on `and` of `false` alone, and its assertion succeeds. -/
theorem Engine.assert_succeeds_of_false_group :
    let ambient : Ambient := ⟨0, "", "", fun _ => none⟩
    let engine : Engine Unit := ⟨.default, .standard ambient, ambient⟩
    let c : Value := .record [("and", .list [.bool false])]
    ∃ cond step, Condition.read c = .ok cond
      ∧ Step.read (.record [("assert", .record [("condition", c)])]) = .ok step
      ∧ Task.Succeeds (engine.executeStep step 1 .empty)
      ∧ engine.test cond .empty = .ok false := by
  intro ambient engine c
  refine ⟨.all [.literal (.bool false)],
    .mk (.domain "assert" (.record [("condition", c)]) []) none false none
      (.record [("assert", .record [("condition", c)])]), rfl, rfl, ?_, rfl⟩
  refine (Runner.succeeds_observed rfl).mpr ?_
  exact (Runner.succeeds_perform_assert
    (Engine.standardAssert_standard .default ambient) _ c _).mpr ⟨⟨c, rfl⟩, rfl⟩

end Playbook
