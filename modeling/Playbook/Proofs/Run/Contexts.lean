import Playbook.Proofs.Expr.Visibility
import Playbook.Proofs.Process.Schedule
import Playbook.Proofs.Run.Construct

/-!
# Lists of steps lead from contexts to contexts

Globals and frames are lists, and of variables that are just given some name might stand in one of
them twice. What can be seen of such variables need not be what is found. In a `Variables.Context`
no name stands twice, and no list of steps leaves the contexts: begun with one, it has one wherever
it waits, and it ends with one (`Engine.distinct_execute`).

There is more to it than that each operation on variables keeps a context one. An operation that is
cut off leaves all calls that it was in at that moment, so its outcome depends on the variables that
it had in the middle of a step. This is why the property is about all places that a task can be at,
and not about the ends of tasks alone.
-/

namespace Playbook

variable {σ : Type}

/-- **Wherever a task can be**, no name stands twice among its variables. -/
abbrev Task.Distinct (p : Task σ) : Prop :=
  p.Obeys (fun _ => True) (Sum.elim (fun o => o.vars.Distinct) Variables.Distinct)

/-- A runner that makes such tasks of contexts. -/
abbrev Runner.Distinct (r : Runner σ) : Prop :=
  Holds Variables.Distinct (fun _ => Task.Distinct) r

namespace Task.Distinct

variable {engine : Engine σ}

theorem doing {deed : Deed σ} {p : Task σ} (h : p.Distinct) : Task.Distinct (.doing deed p) :=
  Process.obeys_act.mpr ⟨trivial, fun _ => h⟩

theorem andThen {p : Task σ} {k : Outcome → Task σ} (hp : p.Distinct)
    (hk : ∀ o, o.vars.Distinct → (k o).Distinct) : Task.Distinct (p.andThen k) := by
  refine Process.Obeys.andThen (hp.imp fun e he => ?_)
  cases e with
  | inl o => exact hk o he
  | inr vars => exact he

theorem sequential : Sequential (σ := σ) Variables.Distinct fun _ => Task.Distinct where
  bound name v h := h.bind name v
  bind _ _ _ hp := hp
  done _ h := Process.obeys_done.mpr h
  crash := Process.obeys_crash
  andThen := andThen
  sleep h hp := Process.obeys_sleep.mpr ⟨h, hp⟩

/-- An operation that is cut off leaves the calls it is in. -/
theorem operation {r : Runner σ} (timeout : Nat) (hr : r.Distinct) :
    Runner.Distinct (.operation timeout r) := by
  refine fun vars hv => Process.obeys_timed.mpr <| (hr vars hv).imp fun e he => ?_
  cases e with
  | inl o => exact Process.obeys_done.mpr he
  | inr v => exact ⟨he, Process.obeys_done.mpr (he.leaveTo vars.depth)⟩

theorem rules : Rules (σ := σ) Variables.Distinct (fun _ => Task.Distinct)
    fun _ => Task.Distinct where
  toSequential := sequential
  own h := Process.obeys_act.mpr ⟨trivial, h⟩
  look h := Process.obeys_act.mpr ⟨trivial, h⟩
  measure := ⟨doing, doing⟩
  gathering h _ hn := Process.obeys_gather.mpr ⟨h, fun _ _ _ _ => trivial, hn⟩
  racing h _ hn := Process.obeys_race.mpr ⟨h, fun _ _ _ _ => trivial, hn⟩
  operation := operation
  retrying timeout attempt pause retries hr :=
    sequential.retrying (operation timeout hr) attempt pause retries

theorem assignGlobals (values : List (String × Value)) (last : Value) :
    Runner.Distinct (.assignFrom engine .globals last values) := by
  induction values generalizing last with
  | nil => exact sequential.yield last
  | cons field rest ih =>
    exact sequential.compute fun v vars hv => ih v _ (hv.setGlobal field.1 v)

theorem observed (step : Step) (index : Nat) {r : Runner σ} (hr : r.Distinct) :
    Runner.Distinct (.observed engine step index r) := by
  refine fun vars hv => doing (andThen (hr vars hv) fun o ho => doing ?_)
  have hafter : (Runner.bindReturns step.returns o).Distinct := by
    unfold Runner.bindReturns
    split
    · exact ho.bind _ _
    · exact ho
  split
  · exact sequential.yield .null _ hafter
  · exact sequential.done _ hafter

/-- The steps of a call have a frame more, and the call leaves it. -/
theorem calling {keyword : Keyword} {name : String} {args : List Value} {steps : Runner σ}
    (hs : steps.Distinct) : Runner.Distinct (.calling engine keyword name args steps) := by
  refine fun vars hv => andThen (hs _ (hv.enter keyword args)) fun o ho => ?_
  unfold Runner.returning
  split
  · exact sequential.fail _ _ ho.leave
  · exact sequential.yield _ _ ho.leave
  · exact sequential.compute sequential.yield _ ho.leave

theorem constructs {call : Calls σ} (hcall : ∀ name args, (call name args).Distinct) :
    Constructs engine call (fun _ => Runner.Distinct) Runner.Distinct Action.Any :=
  rules.constructs hcall (fun _ _ _ hr => hr) (fun values => assignGlobals values .null)
    fun step index _ _ hr => observed step index hr

theorem invokeWithin (engine : Engine σ) (left : Nat) (name : String) (args : List Value) :
    (engine.invokeWithin left name args).Distinct := by
  induction left generalizing name args with
  | zero =>
    intro vars hv
    unfold Engine.invokeWithin
    refine Process.obeys_act.mpr ⟨trivial, fun w => ?_⟩
    split
    · exact sequential.fail _ vars hv
    · exact sequential.fail _ vars hv
  | succ left ih =>
    intro vars hv
    unfold Engine.invokeWithin
    refine Process.obeys_act.mpr ⟨trivial, fun w => ?_⟩
    split
    · exact sequential.fail _ vars hv
    · exact calling ((constructs ih).listRunner _) vars hv

end Task.Distinct

/-- **Every run of a list of steps leads from contexts to contexts**, whether it ends with a value,
by a `return` or with a failure, and wherever it waits on its way. -/
theorem Engine.distinct_execute (engine : Engine σ) (steps : List Step)
    (context : Variables.Context) :
    (∀ t o, (engine.execute steps context.toVariables).Reaches t (.inl o) →
      ∃ after : Variables.Context, o.vars = after.toVariables)
    ∧ ∀ t vars, (engine.execute steps context.toVariables).Reaches t (.inr vars) →
      ∃ inside : Variables.Context, vars = inside.toVariables := by
  have h : Task.Distinct (engine.execute steps context.toVariables) :=
    (Task.Distinct.constructs (Task.Distinct.invokeWithin engine _)).listRunner steps _
      context.distinct
  exact ⟨fun t o ho => ⟨⟨o.vars, h.places t _ ho⟩, rfl⟩,
    fun t vars hv => ⟨⟨vars, h.places t _ hv⟩, rfl⟩⟩

end Playbook
