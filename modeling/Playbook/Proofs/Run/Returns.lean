import Playbook.Proofs.Path.Grammar
import Playbook.Proofs.Run.Blocks
import Playbook.Proofs.Run.Entry

/-!
# Where the value of a step goes

A step carries out its action (`Engine.carryOut`), and what the action comes to decides what is
done with the step's variable. A value is stored there, and is found there by whoever looks next. A
failure and a `return` leave the variables as the action has left them.

A failure may be forgiven, and then the list goes on with a value all the same. That value is made
behind the place where values are stored, so it is not stored: the variable of the step keeps what
it had before (`Engine.stale_of_forgiven`). This is the only case in which the list goes on with a
value that the step's variable does not have (`Engine.executeStep_stores`).
-/

namespace Playbook

variable {σ : Type}

/-! ## Variables that are stored -/

namespace Variables

/-- A variable of the innermost keyword call hides the global one. -/
theorem get?_within (globals frame : Named Value) (outer : List (Named Value)) (name : String) :
    get? name ⟨globals, frame :: outer⟩ = (frame.lookup name).or (globals.lookup name) := by
  rw [get?, List.headD_cons]
  cases frame.lookup name <;> rfl

/-- What has been stored is found. -/
@[simp] theorem get?_bind_self (name : String) (v : Value) (vars : Variables) :
    (vars.bind name v).get? name = some v := by
  obtain ⟨globals, _ | ⟨frame, outer⟩⟩ := vars
  · show (globals.put name v).lookup name = some v
    exact Named.lookup_put_self name v globals
  · show get? name ⟨globals, frame.put name v :: outer⟩ = some v
    rw [get?_within, Named.lookup_put_self, Option.some_or]

/-- What has been stored under another name makes no difference. -/
theorem get?_bind_of_ne {name other : String} (h : other ≠ name) (v : Value) (vars : Variables) :
    (vars.bind name v).get? other = vars.get? other := by
  obtain ⟨globals, _ | ⟨frame, outer⟩⟩ := vars
  · exact Named.lookup_put_of_ne h v globals
  · show get? other ⟨globals, frame.put name v :: outer⟩ = _
    rw [get?_within, get?_within, Named.lookup_put_of_ne h]

/-- Stores some values one after the other. -/
def bindAll (bindings : List (String × Value)) (vars : Variables) : Variables :=
  bindings.foldl (fun vars binding => vars.bind binding.1 binding.2) vars

@[simp] theorem depth_bindAll (bindings : List (String × Value)) (vars : Variables) :
    (vars.bindAll bindings).depth = vars.depth := by
  induction bindings generalizing vars with
  | nil => rfl
  | cons binding rest ih => exact (ih _).trans (depth_bind ..)

/-- **The value that was stored last under a name is found.** -/
theorem get?_bindAll (bindings : List (String × Value)) (vars : Variables) (name : String) :
    (vars.bindAll bindings).get? name = (bindings.reverse.lookup name).or (vars.get? name) := by
  induction bindings generalizing vars with
  | nil => rfl
  | cons binding rest ih =>
    obtain ⟨key, v⟩ := binding
    show ((vars.bind key v).bindAll rest).get? name = _
    rw [ih, List.reverse_cons, List.lookup_append, Option.or_assoc]
    congr 1
    by_cases hk : name = key
    · subst hk
      rw [get?_bind_self, List.lookup_cons_self, Option.some_or]
    · have hno : (name == key) = false := beq_eq_false_iff_ne.mpr hk
      rw [get?_bind_of_ne hk, List.lookup_cons, hno]
      rfl

/-- An identifier leads to the variable of its name, if there is one. -/
theorem lookup?_scope_of_get? {ambient : Ambient} {vars : Variables} {name : String} {v : Value}
    (hn : Path.isIdentifier name.toList = true) (h : vars.get? name = some v) :
    (vars.scope ambient).lookup? name = some v := by
  rw [Scope.lookup?, Path.parse?_of_isIdentifier hn, Option.bind_some, scope]
  dsimp only
  rw [h]
  rfl

end Variables

/-! ## Steps and their actions -/

namespace Engine

/-- What the action of a step does, with nothing of what belongs to every step around it. -/
abbrev carryOut (engine : Engine σ) (step : Step) : Runner σ := fun here =>
  Action.runner engine (engine.callsAt here) step.keys step.action here

/-- **A step that has ended has carried out its action**: the step begins, its action comes to an
end, and the step ends with what is made of that. -/
theorem exists_carryOut_of_ended {engine : Engine σ} {step : Step} {index : Nat}
    {here : Variables} {t : List (Deed σ)} {o : Outcome}
    (h : (engine.executeStep step index here).Runs t (.done o)) :
    ∃ u acted, (engine.carryOut step here).Runs u (.done acted)
      ∧ t = .start step index here.depth :: (u ++ [.finish step index here.depth
          (acted.result.map Flow.value) (engine.logs step)])
      ∧ o = step.outcome acted := by
  rw [engine.executeStep_eq] at h
  obtain ⟨-, hno⟩ | ⟨_, _, -, -, hno⟩ | ⟨u, acted, ht, hacted, ho⟩ := Runner.runs_observed h
  · exact absurd ⟨o, rfl⟩ hno
  · exact absurd ⟨o, rfl⟩ hno
  · cases ho
    exact ⟨u, acted, hacted, ht, rfl⟩

end Engine

namespace Step

variable {step : Step} {acted : Outcome}

/-- A step passes on the value of its action, with the step's variable bound to it. -/
theorem outcome_of_value {v : Value} {name : String} (h : acted.result = .ok (.continue v))
    (hr : step.returns = some name) :
    (step.outcome acted).result = .ok (.continue v)
      ∧ (step.outcome acted).vars = acted.vars.bind name v := by
  have hf : acted.failed = false := by
    rw [Outcome.failed, h]
    rfl
  rw [outcome, hf, Bool.false_and, if_neg Bool.false_ne_true]
  refine ⟨h, ?_⟩
  show Runner.bindReturns step.returns acted = _
  unfold Runner.bindReturns
  rw [h, hr]

/-- Nothing is bound by a step whose action has no value. -/
theorem vars_outcome_of_ne (h : ∀ v, acted.result ≠ .ok (.continue v)) :
    (step.outcome acted).vars = acted.vars := by
  have hb : Runner.bindReturns step.returns acted = acted.vars := by
    unfold Runner.bindReturns
    split
    · rename_i v _ hv _
      exact absurd hv (h v)
    · rfl
  unfold outcome
  rw [hb]
  split
  · rfl
  · rfl

/-- A failure is passed on, or it is forgiven for `null`. -/
theorem result_outcome_of_failure {f : Failure} (h : acted.result = .error f) :
    (step.outcome acted).result
      = if step.continueOnError then .ok (.continue .null) else .error f := by
  have hf : acted.failed = true := by
    rw [Outcome.failed, h]
    rfl
  rw [outcome, hf, Bool.true_and]
  split
  · rfl
  · exact h

end Step

/-- **Where the value of a step goes.** Let a step with a variable come to its end. It has carried
out its action then. If the action has a value, the list goes on with that value, and the step's
variable is found to have it. If the action returns, the step returns, and the variables are those
that the action leaves. If the action fails, the variables are those that the action leaves too,
and the step fails, or the list goes on with `null` where failures are forgiven. -/
theorem Engine.executeStep_stores {engine : Engine σ} {step : Step} {index : Nat}
    {here : Variables} {t : List (Deed σ)} {o : Outcome}
    (h : (engine.executeStep step index here).Runs t (.done o)) {name : String}
    (hr : step.returns = some name) (hn : Path.isIdentifier name.toList = true) :
    ∃ u acted, (engine.carryOut step here).Runs u (.done acted)
      ∧ t = .start step index here.depth :: (u ++ [.finish step index here.depth
          (acted.result.map Flow.value) (engine.logs step)])
      ∧ match acted.result with
        | .ok (.continue v) => o.result = .ok (.continue v) ∧ o.vars = acted.vars.bind name v
            ∧ (engine.scope o.vars).lookup? name = some v
        | .ok (.return v) => o.result = .ok (.return v) ∧ o.vars = acted.vars
        | .error f => o.vars = acted.vars
            ∧ o.result
              = if step.continueOnError then .ok (.continue .null) else .error f := by
  obtain ⟨u, acted, hacted, ht, rfl⟩ := exists_carryOut_of_ended h
  refine ⟨u, acted, hacted, ht, ?_⟩
  split
  all_goals rename_i hres
  · obtain ⟨hresult, hvars⟩ := Step.outcome_of_value hres hr
    refine ⟨hresult, hvars, ?_⟩
    rw [hvars]
    exact Variables.lookup?_scope_of_get? hn (Variables.get?_bind_self ..)
  · have hno : ∀ v, acted.result ≠ .ok (.continue v) := fun v hv => by cases hres.symm.trans hv
    exact ⟨Step.outcome_return hres, Step.vars_outcome_of_ne hno⟩
  · have hno : ∀ v, acted.result ≠ .ok (.continue v) := fun v hv => by cases hres.symm.trans hv
    exact ⟨Step.vars_outcome_of_ne hno, Step.result_outcome_of_failure hres⟩

/-- A step that sets a variable and has one itself: both have the value in the end. -/
theorem Engine.executeStep_stores_assigned :
    let engine : Engine Unit :=
      ⟨.default, .standard ⟨0, "", "", fun _ => none⟩, ⟨0, "", "", fun _ => none⟩⟩
    let sets := Step.mk (.assign .globals [("x", .bool true)]) (some "r") true none .null
    let here : Variables := .empty
    let after : Variables := ⟨[("x", .bool true), ("r", .bool true)], []⟩
    ∃ t, (engine.executeStep sets 1 here).Runs t (.done (.yield (.bool true) after))
      ∧ sets.returns = some "r" ∧ Path.isIdentifier "r".toList = true
      ∧ ∃ u acted, (engine.carryOut sets here).Runs u (.done acted)
        ∧ t = .start sets 1 0 :: (u ++ [.finish sets 1 0 (acted.result.map Flow.value)
            (engine.logs sets)])
        ∧ match acted.result with
          | .ok (.continue v) => (Outcome.yield (.bool true) after).result = .ok (.continue v)
              ∧ after = acted.vars.bind "r" v ∧ (engine.scope after).lookup? "r" = some v
          | .ok (.return v) => (Outcome.yield (.bool true) after).result = .ok (.return v)
              ∧ after = acted.vars
          | .error f => after = acted.vars ∧ (Outcome.yield (.bool true) after).result
              = if sets.continueOnError then .ok (.continue .null) else .error f := by
  intro engine sets here after
  let w : World Unit := .fresh ⟨[], []⟩ ()
  have hn : Path.isIdentifier "r".toList = true := by decide
  have hrun : (engine.executeStep sets 1 here).Runs _ (.done (.yield (.bool true) after)) :=
    .act w (.act w .refl)
  exact ⟨_, hrun, rfl, hn, Engine.executeStep_stores hrun rfl hn⟩

/-- **A step that is forgiven leaves its variable as it was**: an action that no handler knows
fails, the list goes on with `null`, and the variable has its value from before. -/
theorem Engine.stale_of_forgiven :
    let engine : Engine Unit :=
      ⟨.default, .standard ⟨0, "", "", fun _ => none⟩, ⟨0, "", "", fun _ => none⟩⟩
    let fails := Step.mk (.domain "nosuch" .null []) (some "r") true none .null
    let here : Variables := ⟨[("r", .nat 1)], []⟩
    ∃ t o, (engine.executeStep fails 1 here).Runs t (.done o)
      ∧ o.result = .ok (.continue .null) ∧ (engine.scope o.vars).lookup? "r" = some (.nat 1)
      ∧ (engine.scope o.vars).lookup? "r" ≠ some .null := by
  intro engine fails here
  let w : World Unit := .fresh ⟨[], []⟩ ()
  have hrun : (engine.executeStep fails 1 here).Runs _ (.done (.yield .null here)) :=
    .act w (.act w .refl)
  have hr : (engine.scope here).lookup? "r" = some (.nat 1) :=
    Variables.lookup?_scope_of_get? (by decide) rfl
  refine ⟨_, _, hrun, rfl, hr, fun hnull => ?_⟩
  cases hr.symm.trans hnull

end Playbook
