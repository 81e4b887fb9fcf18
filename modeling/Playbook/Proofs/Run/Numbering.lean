import Playbook.Proofs.Process.Meets
import Playbook.Proofs.Process.Sequel
import Playbook.Proofs.Run.Finally
import Playbook.Session

/-!
# Lists number their steps

A list of steps numbers them from one on, and the lists inside of its steps number theirs by
themselves. So the number in a failure says which step of the list has failed: those before
it have been run to their ends, it has failed itself, and nothing has been done after it
(`Engine.Fault.Of`).

The numbers are all that changes when a list gets other steps before it. `Task.shift` is a
list that has got `n` steps before it: the deeds of its own steps and the failure that it ends
with have greater numbers, and all else is as it was. Two lists put together are the first,
and if that neither fails nor returns, then the second with as many steps before it as the
first one has (`Engine.execute_append`). A run of both is therefore a run of the first and then
one of the second in the session that is left (`Engine.run_execute_append`).
-/

namespace Playbook

variable {σ : Type}

/-! ## Steps before a list -/

/-- A failure that a list of steps has ended with, after it has got `n` steps before it. -/
def Failure.shift (n : Nat) : Failure → Failure
  | .inStep index f => .inStep (n + index) f
  | f => f

namespace Deed

/-- How many steps are under way after a deed, by how many have been before. -/
def nesting (open_ : Nat) : Deed σ → Nat
  | start _ _ _ => open_ + 1
  | finish _ _ _ _ _ => open_ - 1
  | _ => open_

/-- A deed of a list of steps, after the list has got `n` steps before it. The deed is one of
the list's own steps if it begins a step while no other is under way, or ends the only one
that is. -/
def shift (n open_ : Nat) : Deed σ → Deed σ
  | start step index depth => start step (if open_ = 0 then n + index else index) depth
  | finish step index depth result logged =>
    finish step (if open_ = 1 then n + index else index) depth result logged
  | deed => deed

theorem nesting_of_isAside {open_ : Nat} {d : Deed σ} (h : d.isAside = true) :
    d.nesting open_ = open_ := by
  cases d with
  | start | finish => cases h
  | visit | measure | own | look | time => rfl

theorem shift_of_isAside {n open_ : Nat} {d : Deed σ} (h : d.isAside = true) :
    d.shift n open_ = d := by
  cases d with
  | start | finish => cases h
  | visit | measure | own | look | time => rfl

end Deed

/-- **A list of steps that has got `n` steps before it**, where `open_` of its steps are
under way, one inside of the other. The operations of blocks are tasks of their own and
number their steps by themselves. -/
def Task.shift (n open_ : Nat) : Task σ → Task σ
  | .done o => .done (o.mapFailure (Failure.shift n))
  | .crash c => .crash c
  | .act deed next =>
    .act (deed.shift n open_) fun w => Task.shift n (deed.nesting open_) (next w)
  | .sleep ms here next => .sleep ms here (Task.shift n open_ next)
  | .timed ms body next => .timed ms body fun x => Task.shift n open_ (next x)
  | .gather limit stops operations here next =>
    .gather limit stops operations here fun s => Task.shift n open_ (next s)
  | .race wins operations here next =>
    .race wins operations here fun s => Task.shift n open_ (next s)

/-- With no steps before it a list is as it was. -/
theorem Failure.shift_zero (f : Failure) : f.shift 0 = f := by
  cases f with
  | inStep index f => exact congrArg (Failure.inStep · f) (Nat.zero_add index)
  | _ => rfl

theorem Deed.shift_zero (open_ : Nat) (d : Deed σ) : d.shift 0 open_ = d := by
  cases d with
  | start | finish =>
    simp only [shift, Nat.zero_add, ite_self]
  | visit | measure | own | look | time => rfl

theorem Task.shift_zero (open_ : Nat) : (p : Task σ) → Task.shift 0 open_ p = p
  | .done o => by
    obtain ⟨_ | _, vars, attempts⟩ := o
    · exact congrArg (fun f => Process.done (Outcome.mk (.error f) vars attempts))
        (Failure.shift_zero _)
    · rfl
  | .crash c => rfl
  | .act deed next => by
    unfold Task.shift
    rw [deed.shift_zero]
    exact congrArg _ (funext fun w => Task.shift_zero _ (next w))
  | .sleep ms here next => congrArg (Process.sleep ms here) (Task.shift_zero open_ next)
  | .timed ms body next =>
    congrArg (Process.timed ms body) (funext fun x => Task.shift_zero open_ (next x))
  | .gather limit stops operations here next =>
    congrArg (Process.gather limit stops operations here)
      (funext fun s => Task.shift_zero open_ (next s))
  | .race wins operations here next =>
    congrArg (Process.race wins operations here)
      (funext fun s => Task.shift_zero open_ (next s))

/-! ## What is done inside of a step -/

/-- **A task inside of a step**, where the steps of its own list have the depth `depth`: it
begins no step that it does not end, it ends at that depth, and when the list around it gets
`n` steps before it, that concerns only what follows the task. -/
def Task.Inner (n depth : Nat) (p : Task σ) : Prop :=
  ∀ (open_ : Nat) (k l : Outcome → Task σ),
    (∀ o : Outcome, o.vars.depth = depth → Task.shift n (open_ + 1) (k o) = l o) →
    Task.shift n (open_ + 1) (p.andThen k) = p.andThen l

namespace Task.Inner

variable {engine : Engine σ} {n depth : Nat}

theorem done {o : Outcome} (h : o.vars.depth = depth) : Task.Inner n depth (.done o : Task σ) :=
  fun _ _ _ hk => hk o h

theorem crash {c : Crash} : Task.Inner n depth (.crash c : Task σ) :=
  fun _ _ _ _ => rfl

/-- Something is done that is no bracket. -/
theorem act {deed : Deed σ} {next : World σ → Task σ} (hd : deed.isAside = true)
    (h : ∀ w, Task.Inner n depth (next w)) : Task.Inner n depth (.act deed next) := by
  intro open_ k l hk
  show Process.act (deed.shift n (open_ + 1)) _ = _
  rw [Deed.shift_of_isAside hd, Deed.nesting_of_isAside hd]
  exact congrArg _ (funext fun w => h w open_ k l hk)

theorem andThen {p : Task σ} {k : Outcome → Task σ} {depth' : Nat} (hp : Task.Inner n depth' p)
    (hk : ∀ o : Outcome, o.vars.depth = depth' → Task.Inner n depth (k o)) :
    Task.Inner n depth (p.andThen k) := by
  intro open_ k' l' h
  rw [Process.andThen_assoc, Process.andThen_assoc]
  exact hp open_ _ _ fun o ho => hk o ho open_ k' l' h

/-- **The rules for tasks inside of steps.** -/
theorem rules (n depth : Nat) : Rules (σ := σ) (fun vars => vars.depth = depth)
    (fun _ => Task.Inner n depth) fun _ _ => True where
  bound name v h := (Variables.depth_bind name v _).trans h
  bind _ _ _ h := h
  done _ h := .done h
  crash := .crash
  andThen := andThen
  measure := ⟨fun h => .act rfl fun _ => h, fun h => .act rfl fun _ => h⟩
  own h := .act rfl h
  look h := .act rfl h
  sleep _ h open_ k l hk := congrArg (Process.sleep _ _) (h open_ k l hk)
  gathering _ _ h open_ k l hk :=
    congrArg (Process.gather _ _ _ _) (funext fun s => h s open_ k l hk)
  racing _ _ h open_ k l hk :=
    congrArg (Process.race _ _ _) (funext fun s => h s open_ k l hk)
  operation _ _ _ _ := trivial
  retrying _ _ _ _ _ _ _ := trivial

theorem assignGlobals (values : List (String × Value)) (last : Value) :
    HoldsAt depth (Task.Inner n depth) (.assignFrom engine .globals last values) := by
  induction values generalizing last with
  | nil => exact (rules n depth).yield last
  | cons field rest ih => exact (rules n depth).compute fun v vars hv => ih v _ hv

/-- What a step ends with has the depth that its action ends at. -/
theorem outcome (step : Step) {o : Outcome} (h : o.vars.depth = depth) :
    Task.Inner n depth
      (if o.failed && step.continueOnError then
        Runner.yield .null (Runner.bindReturns step.returns o)
      else .done { o with vars := Runner.bindReturns step.returns o } : Task σ) := by
  have hd : (Runner.bindReturns step.returns o).depth = depth :=
    (Runner.depth_bindReturns step.returns o).trans h
  split
  · exact .done hd
  · exact .done hd

/-- **A step inside of a step is in brackets**, and its number is that of its own list. -/
theorem observed (step : Step) (index : Nat) {r : Runner σ}
    (hr : HoldsAt depth (Task.Inner n depth) r) :
    HoldsAt depth (Task.Inner n depth) (.observed engine step index r) := by
  intro vars hv open_ k l hk
  show Process.act (Deed.start step (if open_ + 1 = 0 then n + index else index) vars.depth) _ = _
  -- another step is under way, so this one is none of the list's own
  rw [if_neg (Nat.succ_ne_zero open_)]
  refine congrArg _ (funext fun _ => ?_)
  show Task.shift n (open_ + 1 + 1) (((r vars).andThen _).andThen k)
    = ((r vars).andThen _).andThen l
  rw [Process.andThen_assoc, Process.andThen_assoc]
  refine hr vars hv (open_ + 1) _ _ fun o ho => ?_
  show Process.act (Deed.finish step (if open_ + 1 + 1 = 1 then n + index else index) _ _ _) _ = _
  rw [if_neg (by omega)]
  exact congrArg _ (funext fun _ => outcome step ho open_ k l hk)

theorem calling (keyword : Keyword) (name : String) (args : List Value) {steps : Runner σ}
    (hs : HoldsAt (depth + 1) (Task.Inner n (depth + 1)) steps) :
    HoldsAt depth (Task.Inner n depth) (.calling engine keyword name args steps) := by
  intro vars hv
  refine (hs _ ?_).andThen fun o ho => ?_
  · exact (Variables.depth_enter ..).trans (congrArg (· + 1) hv)
  have hleave : o.vars.leave.depth = depth := by
    rw [Variables.depth_leave, ho, Nat.add_sub_cancel]
  unfold Runner.returning
  split
  · exact .done hleave
  · exact .done hleave
  · exact (rules n depth).compute (fun v => (rules n depth).yield v) _ hleave

/-- **All constructs and calls stay inside.** -/
theorem levels (engine : Engine σ) (n : Nat) :
    Levels engine (fun depth _ => HoldsAt depth (Task.Inner n depth)) (Task.Inner n) where
  visit h := .act rfl h
  refused f := (rules n _).fail f
  calling keyword name args _ hs := calling keyword name args hs
  constructs _ hcall := (rules n _).constructs hcall (fun _ _ _ hr => hr)
    (fun values => assignGlobals values .null) fun step index _ _ hr => observed step index hr

/-- What follows a task inside of a step is told by how it goes on at that depth. -/
theorem andThen_congr {p : Task σ} (hp : Task.Inner 0 depth p) {k l : Outcome → Task σ}
    (hk : ∀ o : Outcome, o.vars.depth = depth → k o = l o) : p.andThen k = p.andThen l := by
  rw [← Task.shift_zero 1 (p.andThen k)]
  exact hp 0 k l fun o ho => (Task.shift_zero 1 (k o)).trans (hk o ho)

end Task.Inner

namespace Engine

variable {engine : Engine σ}

theorem inner_action (engine : Engine σ) (n : Nat) (step : Step) {here : Variables} :
    HoldsAt here.depth (Task.Inner n here.depth)
      (Action.runner engine (engine.callsAt here) step.keys step.action) :=
  ((Task.Inner.levels engine n).constructs rfl
    ((Task.Inner.levels engine n).invokeWithin rfl)).actionRunner step.keys step.action
      (Action.all_any step.action)

theorem inner_executeStep (engine : Engine σ) (n : Nat) (step : Step) (index : Nat)
    {vars : Variables} : Task.Inner n vars.depth (engine.executeStep step index vars) :=
  ((Task.Inner.levels engine n).constructs rfl
    ((Task.Inner.levels engine n).invokeWithin rfl)).stepRunner step (Step.all_one_any step) index
      vars rfl

/-! ## The rest of a list -/

/-- **What a list of steps does from one of its steps on**, which has the number `index`; `last` is
the value of the step before it. -/
def executeFrom (engine : Engine σ) (index : Nat) (last : Value) (steps : List Step) : Runner σ :=
  fun vars =>
    Runner.inOrderFrom index last (Step.runners engine (engine.callsAt vars) steps) vars

/-- A list does what its first step does by itself, and then what its other steps do. A step leaves
as many calls under way as it has found, so that as many may be nested in the next one. -/
theorem executeFrom_cons (engine : Engine σ) (index : Nat) (last : Value) (step : Step)
    (rest : List Step) (vars : Variables) : engine.executeFrom index last (step :: rest) vars
      = (engine.executeStep step index vars).andThen fun o =>
        match o.result with
        | .ok (.continue v) => engine.executeFrom (index + 1) v rest o.vars
        | _ => .done (o.mapFailure (.inStep index)) := by
  refine (engine.inner_executeStep 0 step index).andThen_congr fun o ho => ?_
  have hcalls : engine.callsAt o.vars = engine.callsAt vars := by
    unfold callsAt callsLeft
    rw [ho]
  obtain ⟨_ | ⟨v⟩ | _, vars', attempts⟩ := o
  · rfl
  · exact congrArg (fun calls =>
      Runner.inOrderFrom (index + 1) v (Step.runners engine calls rest) vars') hcalls.symm
  · rfl

/-! ## Lists put together -/

/-- **A step of a list that has got steps before it** has a number that is greater, and what
is done inside of it is the same. -/
theorem shift_executeStep (n : Nat) (step : Step) (index : Nat) {vars : Variables}
    {k l : Outcome → Task σ} (hk : ∀ o, Task.shift n 0 (k o) = l o) :
    Task.shift n 0 ((engine.executeStep step index vars).andThen k)
      = (engine.executeStep step (n + index) vars).andThen l := by
  rw [engine.executeStep_eq, engine.executeStep_eq]
  show Process.act (Deed.start step (n + index) vars.depth) _
    = .act (Deed.start step (n + index) vars.depth) _
  refine congrArg _ (funext fun _ => ?_)
  show Task.shift n 1 ((Process.andThen _ _).andThen k) = (Process.andThen _ _).andThen l
  rw [Process.andThen_assoc, Process.andThen_assoc]
  refine inner_action engine n step vars rfl 0 _ _ fun o _ => ?_
  refine congrArg _ (funext fun _ => ?_)
  split
  · exact hk _
  · exact hk _

/-- **A list that has got `n` steps before it** numbers its steps from `n` on. -/
theorem shift_executeFrom (n : Nat) (steps : List Step) (index : Nat) (last : Value)
    (vars : Variables) : Task.shift n 0 (engine.executeFrom index last steps vars)
      = engine.executeFrom (n + index) last steps vars := by
  induction steps generalizing index last vars with
  | nil => rfl
  | cons step rest ih =>
    rw [executeFrom_cons, executeFrom_cons]
    refine shift_executeStep n step index fun o => ?_
    obtain ⟨_ | ⟨v⟩ | _, vars', attempts⟩ := o
    · rfl
    · exact ih (index + 1) v vars'
    · rfl

theorem executeFrom_append (engine : Engine σ) (a b : List Step) (index : Nat) (last : Value)
    (vars : Variables) : engine.executeFrom index last (a ++ b) vars
      = (engine.executeFrom index last a vars).andThen fun o =>
        match o.result with
        | .ok (.continue v) => engine.executeFrom (index + a.length) v b o.vars
        | _ => .done o := by
  induction a generalizing index last vars with
  | nil => rfl
  | cons step rest ih =>
    rw [List.cons_append, executeFrom_cons, executeFrom_cons, Process.andThen_assoc,
      List.length_cons, Nat.add_comm rest.length, ← Nat.add_assoc]
    refine congrArg _ (funext fun o => ?_)
    obtain ⟨_ | ⟨v⟩ | _, vars', attempts⟩ := o
    · rfl
    · exact ih (index + 1) v vars'
    · rfl

/-- **Two lists put together** are the first one and, if it neither fails nor returns, the
second one in the variables that the first has left, with as many steps before it. The second
has steps, since the value of a list without steps is `null`. -/
theorem execute_append (engine : Engine σ) (a : List Step) {b : List Step} (hb : b ≠ [])
    (vars : Variables) :
    engine.execute (a ++ b) vars = (engine.execute a vars).andThen fun o =>
      match o.result with
      | .ok (.continue _) => Task.shift a.length 0 (engine.execute b o.vars)
      | _ => .done o := by
  refine (engine.executeFrom_append a b 1 .null vars).trans (congrArg _ (funext fun o => ?_))
  obtain ⟨_ | ⟨v⟩ | _, vars', attempts⟩ := o
  · rfl
  · refine .trans ?_ (shift_executeFrom a.length b 1 .null vars').symm
    rw [Nat.add_comm]
    -- the value before it does not matter to a list that has steps
    cases b with
    | nil => exact absurd rfl hb
    | cons step rest => rfl
  · rfl

/-- **A run of two lists put together** is the run of the first one: its failure, its return and
its crash end both, in the session that it leaves. Otherwise the second list begins in that
session, in the variables that the first has left. -/
theorem run_execute_append (engine : Engine σ) (a : List Step) {b : List Step} (hb : b ≠ [])
    (vars : Variables) {session : Session σ} (hi : session.Idle) (turns : Nat) :
    match Machine.run turns (engine.execute a vars) session with
    | (.finished ⟨.ok (.continue _), there, _⟩, left) => ∃ more, more ≤ turns
      ∧ Machine.run turns (engine.execute (a ++ b) vars) session
        = Machine.run more (Task.shift a.length 0 (engine.execute b there)) left
    | (.unfinished, _) =>
      (Machine.run turns (engine.execute (a ++ b) vars) session).1 = .unfinished
    | x => Machine.run turns (engine.execute (a ++ b) vars) session = x := by
  rw [engine.execute_append a hb vars]
  have hc := Machine.run_andThen hi (engine.execute a vars) (fun o =>
    match o.result with
    | .ok (.continue _) => Task.shift a.length 0 (engine.execute b o.vars)
    | _ => .done o) turns
  generalize Machine.run turns (engine.execute a vars) session = x at hc ⊢
  obtain ⟨⟨_ | ⟨v⟩ | _, there, attempts⟩ | c | _, left⟩ := x
  · obtain ⟨hl, more, -, hy⟩ := hc
    exact hy.trans (Machine.run_done hl _ more)
  · obtain ⟨-, more, hlt, hy⟩ := hc
    exact ⟨more + 1, hlt, hy⟩
  · obtain ⟨hl, more, -, hy⟩ := hc
    exact hy.trans (Machine.run_done hl _ more)
  · exact hc
  · exact hc

end Engine

/-! ## Where a list fails -/

/-- A step that ends with a failure is none whose failure is forgiven. -/
theorem Step.result_of_outcome_error {step : Step} {o : Outcome} {f : Failure}
    (h : (step.outcome o).result = .error f) :
    step.continueOnError = false ∧ o.result = .error f := by
  unfold Step.outcome at h
  split at h
  · cases h
  · rename_i hif
    refine ⟨Bool.eq_false_iff.mpr fun hc => hif ?_, h⟩
    unfold Outcome.failed
    rw [show o.result = .error f from h, hc]
    rfl

namespace Engine

variable {engine : Engine σ}

/-- **Steps that are run to their ends**, one after the other and each in the variables that the
one before has left. The first has the number `index`. None of them fails, but for failures
that their steps are to be forgiven, and none returns. -/
inductive RunsThrough (engine : Engine σ) :
    Nat → List Step → Variables → List (Deed σ) → Variables → Prop
  | nil {index : Nat} {here : Variables} : RunsThrough engine index [] here [] here
  | cons {index : Nat} {step : Step} {rest : List Step} {here there : Variables}
      {t u : List (Deed σ)} {o : Outcome} {v : Value}
      (h : (engine.executeStep step index here).Runs t (.done o))
      (hv : o.result = .ok (.continue v))
      (hr : RunsThrough engine (index + 1) rest o.vars u there) :
      RunsThrough engine index (step :: rest) here (t ++ u) there

/-- Where a list of steps has failed. -/
structure Fault (σ : Type) where
  before : List Step
  /-- The step that has failed. -/
  step : Step
  after : List Step
  /-- The failure of the step. -/
  source : Failure
  /-- What the steps before have done. -/
  beforeDeeds : List (Deed σ)
  /-- The variables that they have left. -/
  here : Variables
  /-- What has been done inside of the step that has failed. -/
  inside : List (Deed σ)

/-- What is done from the beginning of the step that fails to its end: the step begins, and in the
end its failure is told to the observer and, if the step is logged, goes into the log. `index` is
the number of the step, and `depth` says how many keyword calls are under way. -/
def Fault.stepDeeds (engine : Engine σ) (index depth : Nat) (a : Fault σ) : List (Deed σ) :=
  .start a.step index depth ::
    (a.inside ++ [.finish a.step index depth (.error a.source) (engine.logs a.step)])

/-- **A list of steps fails at one of its steps.** The list begins with the variables `vars`,
does `t` and ends with the outcome `o`; its first step has the number `index`. The steps before
the one that fails are run to their ends. Then that step is run, and it ends with a failure that it
is not forgiven. Nothing is done after that. The list fails with the failure of the step and with
its number. -/
structure Fault.Of (engine : Engine σ) (index : Nat) (steps : List Step) (vars : Variables)
    (t : List (Deed σ)) (o : Outcome) (a : Fault σ) : Prop where
  steps : steps = a.before ++ a.step :: a.after
  passed : engine.RunsThrough index a.before vars a.beforeDeeds a.here
  raised : (engine.executeStep a.step (index + a.before.length) a.here).Runs
    (a.stepDeeds engine (index + a.before.length) vars.depth)
    (.done { o with result := .error a.source })
  unforgiven : a.step.continueOnError = false
  result : o.result = .error (.inStep (index + a.before.length) a.source)
  deeds : t = a.beforeDeeds ++ a.stepDeeds engine (index + a.before.length) vars.depth

/-- A step before that is run to its end. -/
theorem Fault.Of.cons {index : Nat} {step : Step} {rest : List Step} {vars : Variables}
    {t u : List (Deed σ)} {o o' : Outcome} {v : Value} {a : Fault σ}
    (h : (engine.executeStep step index vars).Runs t (.done o'))
    (hv : o'.result = .ok (.continue v)) (hd : o'.vars.depth = vars.depth)
    (ha : a.Of engine (index + 1) rest o'.vars u o) :
    Fault.Of engine index (step :: rest) vars (t ++ u) o
      { a with before := step :: a.before, beforeDeeds := t ++ a.beforeDeeds } := by
  have hn : index + (a.before.length + 1) = index + 1 + a.before.length := by omega
  refine ⟨congrArg (step :: ·) ha.steps, .cons h hv ha.passed, ?_, ha.unforgiven, ?_, ?_⟩
  · rw [List.length_cons, hn, ← hd]
    exact ha.raised
  · rw [List.length_cons, hn]
    exact ha.result
  · rw [List.length_cons, hn, ← hd, List.append_assoc]
    exact congrArg (t ++ ·) ha.deeds

theorem depth_executeStep {step : Step} {index : Nat} {vars : Variables} {t : List (Deed σ)}
    {o : Outcome} (h : (engine.executeStep step index vars).Runs t (.done o)) :
    o.vars.depth = vars.depth :=
  (((Tidy.levels engine).constructs rfl ((Tidy.levels engine).invokeWithin rfl)).stepRunner step
    (Step.all_one_any step) index vars rfl).depth h

/-- **A list that has failed has done so at one of its steps.** The induction is on its steps; those
before the one that fails are run to their ends. -/
theorem exists_fault {steps : List Step} {index : Nat} {last : Value} {vars : Variables}
    {t : List (Deed σ)} {o : Outcome}
    (h : (engine.executeFrom index last steps vars).Runs t (.done o)) (hf : o.failed = true) :
    ∃ a : Fault σ, a.Of engine index steps vars t o := by
  induction steps generalizing index last vars t with
  | nil =>
    obtain ⟨-, ho⟩ := Process.runs_done.mp h
    cases ho
    cases hf
  | cons step rest ih =>
    rw [executeFrom_cons] at h
    obtain ⟨q', hq, -, he⟩ | ⟨t₁, t₂, o₁, rfl, h₁, h₂⟩ := Process.runs_andThen h
    · exact absurd ⟨o, hq.symm⟩ (Process.not_ended_andThen he)
    have hd := depth_executeStep h₁
    have hstep := h₁
    rw [engine.executeStep_eq] at hstep
    obtain ⟨-, hno⟩ | ⟨_, _, -, -, hno⟩ | ⟨inside, b, rfl, -, hb⟩ := Runner.runs_observed hstep
    · exact absurd ⟨o₁, rfl⟩ hno
    · exact absurd ⟨o₁, rfl⟩ hno
    cases hb
    cases hr : (step.outcome b).result with
    | ok flow =>
      rw [hr] at h₂
      cases flow with
      | «continue» v =>
        -- the step has been run to its end, and the list fails behind it
        obtain ⟨a, ha⟩ := ih h₂
        exact ⟨_, ha.cons h₁ hr hd⟩
      | «return» v =>
        obtain ⟨-, ho⟩ := Process.runs_done.mp h₂
        cases ho
        unfold Outcome.failed Outcome.mapFailure at hf
        rw [hr] at hf
        cases hf
    | error source =>
      -- this is the step that fails
      rw [hr] at h₂
      obtain ⟨rfl, ho⟩ := Process.runs_done.mp h₂
      cases ho
      obtain ⟨hforgive, hb⟩ := Step.result_of_outcome_error hr
      rw [hb] at h₁
      refine ⟨⟨[], step, rest, source, [], vars, inside⟩, rfl, .nil, ?_, hforgive, ?_, ?_⟩
      · rw [← hr]
        exact h₁
      · unfold Outcome.mapFailure
        rw [hr]
        rfl
      · rw [hb, List.append_nil]
        rfl

/-- **A failure locates its step, and lists put together go on from one another.** A list that
has failed has done so at one of its steps, and its failure is that of the step with the step's
number in the list. And two lists put together are the first one and, unless it fails or
returns, the second one after it, whose steps have got other numbers and nothing else; so that a
run of both does what the runs do one after the other, in every session. -/
theorem execute_locates (engine : Engine σ) (vars : Variables) :
    (∀ steps t o, (engine.execute steps vars).Runs t (.done o) → o.failed = true →
      ∃ a : Fault σ, a.Of engine 1 steps vars t o)
    ∧ ∀ a b : List Step, b ≠ [] →
      (engine.execute (a ++ b) vars = (engine.execute a vars).andThen fun o =>
        match o.result with
        | .ok (.continue _) => Task.shift a.length 0 (engine.execute b o.vars)
        | _ => .done o)
      ∧ ∀ (session : Session σ) (turns : Nat), session.Idle →
        match Machine.run turns (engine.execute a vars) session with
        | (.finished ⟨.ok (.continue _), there, _⟩, left) => ∃ more, more ≤ turns
          ∧ Machine.run turns (engine.execute (a ++ b) vars) session
            = Machine.run more (Task.shift a.length 0 (engine.execute b there)) left
        | (.unfinished, _) =>
          (Machine.run turns (engine.execute (a ++ b) vars) session).1 = .unfinished
        | x => Machine.run turns (engine.execute (a ++ b) vars) session = x :=
  ⟨fun _ _ _ h hf => exists_fault h hf,
    fun a _ hb => ⟨engine.execute_append a hb vars,
      fun _ turns hi => engine.run_execute_append a hb vars hi turns⟩⟩

/-- A list whose second step fails, a loop that is to make no pass: the failure has the number
of the step. With another step before it the number is one greater. -/
theorem execute_locates_second_step :
    let engine : Engine Unit :=
      ⟨.default, .standard ⟨0, "", "", fun _ => none⟩, ⟨0, "", "", fun _ => none⟩⟩
    let sets := Step.mk (.assign .locals [("x", .bool false)]) none false none .null
    let loops := Step.mk (.while_ (.literal (.bool true)) [] (some 0)) none false none .null
    let here : Variables := Variables.empty.bind "x" (.bool false)
    let t : List (Deed Unit) := [.start sets 1 0, .finish sets 1 0 (.ok (.bool false)) false,
      .start loops 2 0, .finish loops 2 0 (.error (.loopLimit 0)) true]
    let session : Session Unit := Session.start ⟨[], []⟩ ()
    (∃ a : Fault Unit, a.Of engine 1 [sets, loops] .empty t
        ⟨.error (.inStep 2 (.loopLimit 0)), here, 1⟩
      ∧ a.before.length + 1 = 2 ∧ a.source = .loopLimit 0)
    ∧ ∃ more, more ≤ 5 ∧ Machine.run 5 (engine.execute ([sets] ++ [sets, loops]) .empty) session
      = Machine.run more (Task.shift 1 0 (engine.execute [sets, loops] here))
        (Machine.run 5 (engine.execute [sets] .empty) session).2 := by
  intro engine sets loops here t session
  let w : World Unit := .fresh ⟨[], []⟩ ()
  have h := execute_locates engine .empty
  constructor
  · have hrun : (engine.execute [sets, loops] .empty).Runs t
        (.done ⟨.error (.inStep 2 (.loopLimit 0)), here, 1⟩) :=
      .act w (.act w (.act w (.act w .refl)))
    obtain ⟨a, ha⟩ := h.1 _ _ _ hrun rfl
    have hfail := ha.result
    injection hfail with hfail
    injection hfail with hindex hsource
    exact ⟨a, ha, (Nat.add_comm a.before.length 1).trans hindex.symm, hsource.symm⟩
  · exact (h.2 [sets] [sets, loops] nofun).2 session 5 (Machine.idle_ofWorld _)

end Engine

end Playbook
