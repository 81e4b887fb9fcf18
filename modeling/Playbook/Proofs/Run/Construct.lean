import Playbook.Proofs.Expr.Crash

/-!
# What every construct keeps

The runner of a list of steps is built by recursion on the steps, one
construct on top of others. A property of runners therefore holds of every
list as soon as each construct keeps it: `Constructs` lists what has to be
shown, one field for each construct, and `Constructs.listRunner` is the
recursion, done once.

Two predicates go through the recursion. `P` is about steps and lists of
steps. `Q` is about the action of a step before anything is done about the
step itself, and it is told which action that is. The recursion can be kept
to lists without certain actions (`Step.All`).

Most constructs do nothing by themselves but to bind variables and to begin
one thing after another. What has to be shown of these is put in terms of tasks,
in three layers. For a property that goes on from the value of a task
(`Passing`), nothing has to be shown of branches and loops. If it also goes on
from every outcome (`Chained`), nothing has to be shown of lists and tries
either. `Sequential` are the properties that do not depend on crashes.
`Waits` are the rules for blocks of concurrent operations, whose summaries tell
measured times, and for actions. `Rules` are those for all nodes of a task. That a
sample is recorded is a rule by itself (`Unmeasured`), since a property may be about
samples.
-/

namespace Playbook

variable {σ : Type}

/-! ## Properties of tasks -/

/-- A runner makes good tasks, whatever the variables are that it may begin
with. -/
def Holds (I : Variables → Prop) (T : Variables → Task σ → Prop)
    (r : Runner σ) : Prop :=
  ∀ vars, I vars → T vars (r vars)

/-- **The rules for a property of tasks that goes on from a value.** `I` says
what variables a task may begin with, and `T` is the property of a task with the
variables that it begins with. -/
structure Passing (I : Variables → Prop) (T : Variables → Task σ → Prop) :
    Prop where
  bound : ∀ {vars : Variables} (name : String) (v : Value), I vars →
    I (vars.bind name v)
  bind : ∀ {vars : Variables} {p : Task σ} (name : String) (v : Value), I vars →
    T (vars.bind name v) p → T vars p
  yield : ∀ v : Value, Holds I T (.yield v)
  fail : ∀ f : Failure, Holds I T (.fail f)
  overflow : ∀ {vars : Variables}, T vars (.crash .quotientOverflow)
  onValue : ∀ {r : Runner σ} {k : Value → Runner σ}, Holds I T r →
    (∀ v, Holds I T (k v)) → Holds I T (r.onValue k)

/-- **Samples do not matter** to a property of tasks, be they given or measured. -/
structure Unmeasured (T : Variables → Task σ → Prop) : Prop where
  given : ∀ {vars : Variables} {name : String} {sample : Float} {p : Task σ}, T vars p →
    T vars (.doing (.measure name sample) p)
  timed : ∀ {vars : Variables} {name : String} {reading : σ → Number} {turn : σ → σ}
    {p : Task σ}, T vars p → T vars (.doing (.time name reading turn) p)

/-- Something is computed first: it fails, it crashes, or a task follows. -/
theorem Holds.compute {I : Variables → Prop} {T : Variables → Task σ → Prop} {α : Type}
    {f : Variables → Except Halt α} {k : α → Runner σ} (hfail : ∀ e, Holds I T (.fail e))
    (hk : ∀ a, Holds I T (k a))
    (hcrash : ∀ vars c, f vars = .error (.crash c) → T vars (.crash c)) :
    Holds I T (.compute f k) := by
  intro vars hv
  unfold Runner.compute
  cases he : f vars with
  | ok a => exact hk a vars hv
  | error e =>
    cases e with
    | failure f => exact hfail f vars hv
    | crash c => exact hcrash vars c he

/-- What ends with an outcome and goes on from every outcome goes on from a value. -/
theorem Holds.onValue_of_andThen {I : Variables → Prop} {T : Variables → Task σ → Prop}
    (hdone : ∀ o : Outcome, I o.vars → T o.vars (.done o))
    (handThen : ∀ {vars : Variables} {p : Task σ} {k : Outcome → Task σ}, T vars p →
      (∀ o, I o.vars → T o.vars (k o)) → T vars (p.andThen k))
    {r : Runner σ} {k : Value → Runner σ} (hr : Holds I T r)
    (hk : ∀ v, Holds I T (k v)) : Holds I T (r.onValue k) := by
  refine fun vars hv => handThen (hr vars hv) fun o ho => ?_
  split
  · exact hk _ _ ho
  · exact hdone o ho

/-- **The rules for a property of tasks that do one thing after another.** -/
structure Chained (I : Variables → Prop) (T : Variables → Task σ → Prop) : Prop
    extends Passing I T where
  done : ∀ (o : Outcome), I o.vars → T o.vars (.done o)
  andThen : ∀ {vars : Variables} {p : Task σ} {k : Outcome → Task σ}, T vars p →
    (∀ o, I o.vars → T o.vars (k o)) → T vars (p.andThen k)
  sleep : ∀ {vars : Variables} {ms : Nat} {p : Task σ}, I vars → T vars p →
    T vars (.sleep ms vars p)
  yield := fun v vars hv => done (.yield v vars) hv
  fail := fun f vars hv => done (.fail f vars) hv
  onValue := .onValue_of_andThen done andThen

/-- **The rules for a property that does not depend on crashes.** -/
structure Sequential (I : Variables → Prop) (T : Variables → Task σ → Prop) :
    Prop extends Chained I T where
  crash : ∀ {vars : Variables} {c : Crash}, T vars (.crash c)
  overflow := crash

/-- **The rules for blocks and for actions.** `O` is the property of an operation of a
block. -/
structure Waits (I : Variables → Prop) (T O : Variables → Task σ → Prop) : Prop
    extends Passing I T where
  crash : ∀ {vars : Variables} {c : Crash}, T vars (.crash c)
  sleep : ∀ {vars : Variables} {ms : Nat} {p : Task σ}, I vars → T vars p →
    T vars (.sleep ms vars p)
  own : ∀ {vars : Variables} {update : σ → σ} {next : World σ → Task σ},
    (∀ w, T vars (next w)) → T vars (.act (.own update) next)
  look : ∀ {vars : Variables} {turn : σ → σ} {next : World σ → Task σ},
    (∀ w, T vars (next w)) → T vars (.act (.look turn) next)
  gathering : ∀ {vars : Variables} {limit : Nat} {stops : Outcome → Bool}
    {operations : List (Task σ)} {next : Settled Outcome Crash → Task σ},
    I vars → (∀ op ∈ operations, O vars op) → (∀ s, T vars (next s)) →
    T vars (.gather limit stops operations vars next)
  racing : ∀ {vars : Variables} {wins : Outcome → Bool}
    {operations : List (Task σ)} {next : Settled Outcome Crash → Task σ},
    I vars → (∀ op ∈ operations, O vars op) → (∀ s, T vars (next s)) →
    T vars (.race wins operations vars next)
  operation : ∀ {r : Runner σ} (timeout : Nat), Holds I T r →
    Holds I O (.operation timeout r)
  retrying : ∀ {r : Runner σ} (timeout attempt pause retries : Nat),
    Holds I T r → Holds I O (.retrying timeout r attempt pause retries)

/-- **The rules for a property of tasks** that holds of all constructs if it holds
of their parts. -/
structure Rules (I : Variables → Prop) (T O : Variables → Task σ → Prop) : Prop
    extends Sequential I T, Waits I T O where
  measure : Unmeasured T

namespace Passing

variable {I : Variables → Prop} {T : Variables → Task σ → Prop}
  {engine : Engine σ}

/-- What is computed crashes by an overflow only. -/
theorem computing (h : Passing I T) {α : Type} {f : Variables → Except Halt α}
    {k : α → Runner σ} (hf : ∀ vars, OverflowsOnly .crash (f vars))
    (hk : ∀ a, Holds I T (k a)) : Holds I T (.compute f k) :=
  .compute h.fail hk fun vars c he => by
    rw [hf vars c he]
    exact h.overflow

/-- A runner that binds a variable first. -/
theorem binding (h : Passing I T) (name : String) (v : Value) {r : Runner σ}
    (hr : Holds I T r) : Holds I T (.changing (Variables.bind name v) r) :=
  fun _ hv => h.bind name v hv (hr _ (h.bound name v hv))

/-! ### Branches and loops -/

theorem branch (h : Passing I T) {condition : Condition} {r s : Runner σ}
    (hr : Holds I T r) (hs : Holds I T s) :
    Holds I T (.branch engine condition r s) :=
  h.computing (engine.overflowsOnly_test condition) fun holds => by
    cases holds with
    | true => exact hr
    | false => exact hs

/-- The variables of a pass are bound one after the other. -/
theorem bindPass (h : Passing I T) (iteration : Iteration) (index : Nat)
    (item : Value) {r : Runner σ} (hr : Holds I T r) :
    Holds I T (.changing (Runner.bindPass iteration index item) r) := by
  cases hi : iteration.index with
  | none =>
    have he : Runner.changing (Runner.bindPass iteration index item) r
        = .changing (Variables.bind iteration.item item) r := by
      funext vars
      unfold Runner.changing Runner.bindPass
      rw [hi]
    rw [he]
    exact h.binding _ _ hr
  | some name =>
    have he : Runner.changing (Runner.bindPass iteration index item) r
        = .changing (Variables.bind iteration.item item)
            (.changing (Variables.bind name (.nat index)) r) := by
      funext vars
      unfold Runner.changing Runner.bindPass
      rw [hi]
    rw [he]
    exact h.binding _ _ (h.binding _ _ hr)

theorem passes (h : Passing I T) {iteration : Iteration}
    {finish : List Value → Value}
    {pass : Value → (List Value → Runner σ) → Runner σ}
    (hp : ∀ item next, (∀ vs, Holds I T (next vs)) → Holds I T (pass item next))
    (items : List Value) (index : Nat) (made : List Value) :
    Holds I T (.passes iteration finish pass index made items) := by
  induction items generalizing index made with
  | nil => exact h.yield _
  | cons item rest ih =>
    exact h.bindPass iteration index item
      (hp item _ fun vs => ih (index + 1) (vs.reverse ++ made))

theorem forEach (h : Passing I T) {iteration : Iteration} {body : Runner σ}
    (hb : Holds I T body) : Holds I T (.forEach engine iteration body) :=
  h.computing (Runner.overflowsOnly_elements engine _) fun items =>
    h.passes (fun _ _ hn => h.onValue hb fun _ => hn []) items 0 []

theorem mapEach (h : Passing I T) {iteration : Iteration}
    {body : Option (Runner σ)} {expression : Option Value}
    (hb : ∀ r ∈ body, Holds I T r) :
    Holds I T (.mapEach engine iteration body expression) := by
  refine h.computing (Runner.overflowsOnly_elements engine _) fun items =>
    h.passes (fun item next hn => ?_) items 0 []
  cases expression with
  | some e => exact h.computing (engine.overflowsOnly_resolve e) fun v => hn [v]
  | none =>
    cases body with
    | some r => exact h.onValue (hb r rfl) fun v => hn [v]
    | none => exact hn [item]

theorem filterEach (h : Passing I T) {iteration : Iteration}
    {condition : Condition} :
    Holds I T (.filterEach engine iteration condition) :=
  h.computing (Runner.overflowsOnly_elements engine _) fun items =>
    h.passes (fun _ _ hn => h.computing (engine.overflowsOnly_test condition) fun _ => hn _)
      items 0 []

theorem whileFrom (h : Passing I T) {condition : Condition} {body : Runner σ}
    (hb : Holds I T body) (limit left : Nat) :
    Holds I T (.whileFrom engine condition body limit left) := by
  induction left with
  | zero =>
    refine h.computing (engine.overflowsOnly_test condition) fun holds => ?_
    split
    · exact h.fail _
    · exact h.yield _
  | succ left ih =>
    refine h.computing (engine.overflowsOnly_test condition) fun holds => ?_
    split
    · exact h.onValue hb fun _ => ih
    · exact h.yield _

theorem repeatFrom (h : Passing I T) {index iteration : String}
    {body : Runner σ} (hb : Holds I T body) (times left : Nat) :
    Holds I T (.repeatFrom index iteration body times left) := by
  induction left with
  | zero => exact h.yield _
  | succ left ih =>
    have hpass : Holds I T (body.onValue fun _ =>
        .repeatFrom index iteration body times left) := h.onValue hb fun _ => ih
    exact h.binding index (.nat (times - (left + 1)))
      (h.binding iteration (.nat (times - (left + 1) + 1)) hpass)

theorem repeatTimes (h : Passing I T) {times : Value}
    {index iteration : String} {body : Runner σ} (hb : Holds I T body) :
    Holds I T (.repeatTimes engine times index iteration body) :=
  h.computing (Runner.overflowsOnly_timesOf engine times) fun n => h.repeatFrom hb n n

/-! ### Assignments and samples -/

theorem assignLocals (h : Passing I T) (values : List (String × Value))
    (last : Value) : Holds I T (.assignFrom engine .locals last values) := by
  induction values generalizing last with
  | nil => exact h.yield last
  | cons field rest ih =>
    exact h.computing (engine.overflowsOnly_resolve field.2) fun v =>
      h.binding field.1 v (ih v)

theorem sampling (h : Passing I T)
    (hm : ∀ {vars : Variables} {name : String} {sample : Float} {p : Task σ}, T vars p →
      T vars (.doing (.measure name sample) p))
    (name : String) (v : Value) : Holds I T (.sampling engine name v) := by
  refine h.computing (engine.overflowsOnly_resolve v) fun v => ?_
  split
  · exact fun vars hv => hm (h.yield v vars hv)
  · exact h.fail _

end Passing

namespace Chained

variable {I : Variables → Prop} {T : Variables → Task σ → Prop}
  {engine : Engine σ}

theorem leave (h : Chained I T) (v : Value) : Holds I T (.leave v) :=
  fun vars hv => h.done ⟨.ok (.return v), vars, 1⟩ hv

theorem inOrderFrom (h : Chained I T) {rs : List (Nat → Runner σ)}
    (hr : ∀ r ∈ rs, ∀ i, Holds I T (r i)) (index : Nat) (last : Value) :
    Holds I T (.inOrderFrom index last rs) := by
  induction rs generalizing index last with
  | nil => exact h.yield last
  | cons r rest ih =>
    refine fun vars hv =>
      h.andThen (hr r List.mem_cons_self index vars hv) fun o ho => ?_
    split
    · exact ih (fun s hs => hr s (List.mem_cons_of_mem r hs)) _ _ _ ho
    · exact h.done (o.mapFailure (.inStep index)) ho

/-! ### Tries and measurements -/

theorem restoring (h : Chained I T) {r : Runner σ} (hr : Holds I T r)
    {o : Outcome} (ho : I o.vars) : T o.vars (Runner.restoring o r) := by
  refine h.andThen (hr o.vars ho) fun last hl => ?_
  split
  · exact h.done { o with vars := last.vars } hl
  · exact h.done last hl

theorem caught (h : Chained I T) {body : Runner σ} {c : Option (Runner σ)}
    (binding : String) (hb : Holds I T body) (hc : ∀ s ∈ c, Holds I T s) :
    Holds I T (.caught body c binding) := by
  refine fun vars hv => h.andThen (hb vars hv) fun o ho => ?_
  cases o.result with
  | ok flow => exact h.done o ho
  | error f =>
    cases c with
    | none => exact h.done o ho
    | some r => exact h.binding binding f.toValue (hc r rfl) o.vars ho

theorem catching (h : Chained I T) {body : Runner σ} {c f : Option (Runner σ)}
    (binding : String) (hb : Holds I T body) (hc : ∀ s ∈ c, Holds I T s)
    (hf : ∀ s ∈ f, Holds I T s) :
    Holds I T (.catching body c f binding) := by
  cases f with
  | none => exact h.caught binding hb hc
  | some r =>
    exact fun vars hv => h.andThen (h.caught binding hb hc vars hv) fun o ho =>
      h.restoring (hf r rfl) ho

/-- An operation that is tried again is waited for in between. -/
theorem retrying (h : Chained I T) {timeout : Nat} {r : Runner σ}
    (hr : Holds I T (.operation timeout r)) (attempt pause retries : Nat) :
    Holds I T (.retrying timeout r attempt pause retries) := by
  induction retries generalizing attempt pause with
  | zero =>
    exact fun vars hv => h.andThen (hr vars hv) fun o ho =>
      h.done { o with attempts := attempt } ho
  | succ retries ih =>
    refine fun vars hv => h.andThen (hr vars hv) fun o ho => ?_
    split
    · exact h.sleep ho (ih (attempt + 1) _ o.vars ho)
    · exact h.done { o with attempts := attempt } ho

/-- The time of a body is recorded once the body has ended. -/
theorem timing (h : Chained I T)
    (hm : ∀ {vars : Variables} {name : String} {reading : σ → Number} {turn : σ → σ}
      {p : Task σ}, T vars p → T vars (.doing (.time name reading turn) p))
    (name : String) {body : Runner σ} (hb : Holds I T body) :
    Holds I T (.timing engine name body) :=
  fun vars hv => h.andThen (hb vars hv) fun o ho => hm (h.done o ho)

end Chained

/-- What does not depend on crashes can be computed in any way. -/
theorem Sequential.compute {I : Variables → Prop} {T : Variables → Task σ → Prop}
    (h : Sequential I T) {α : Type} {f : Variables → Except Halt α} {k : α → Runner σ}
    (hk : ∀ a, Holds I T (k a)) : Holds I T (.compute f k) :=
  .compute h.fail hk fun _ _ _ => h.crash

/-- A block is begun or crashes. -/
theorem Sequential.countable {I : Variables → Prop} {T : Variables → Task σ → Prop}
    {engine : Engine σ} (h : Sequential I T) (settings : BlockSettings) {r : Runner σ}
    (hr : Holds I T r) : Holds I T (.countable engine settings r) :=
  h.compute fun _ => hr

theorem Runner.chunk_subset {α : Type} {size : Nat} {items chunk : List α}
    (h : chunk ∈ chunks size items) : chunk ⊆ items := by
  induction items using chunks.induct size with
  | case1 =>
    unfold chunks at h
    exact absurd h List.not_mem_nil
  | case2 items hne ih =>
    unfold chunks at h
    rw [dif_neg hne] at h
    obtain rfl | h := List.mem_cons.mp h
    · exact List.take_subset _ _
    · exact List.Subset.trans (ih h) (List.drop_subset _ _)

namespace Waits

variable {I : Variables → Prop} {T O : Variables → Task σ → Prop}
  {engine : Engine σ}

/-! ### Blocks and actions -/

theorem summarize (h : Waits I T O) (results : List OperationResult) :
    Holds I T (.summarize engine results) :=
  fun vars hv => h.look fun _ => h.yield _ vars hv

theorem conclude (h : Waits I T O) (failFast : Bool) (results : List OperationResult) :
    Holds I T (.conclude engine failFast results) := by
  unfold Runner.conclude
  split
  · exact h.fail _
  · exact h.summarize _

/-- A block is begun or crashes. -/
theorem countable (h : Waits I T O) (settings : BlockSettings) {r : Runner σ}
    (hr : Holds I T r) : Holds I T (.countable engine settings r) :=
  .compute h.fail (fun _ => hr) fun _ _ _ => h.crash

theorem parallel (h : Waits I T O) (settings : BlockSettings)
    {rs : List (Runner σ)} (hr : ∀ r ∈ rs, Holds I T r) :
    Holds I T (.parallel engine settings rs) := by
  refine fun vars hv => h.gathering hv (fun op hop => ?_) fun s => h.conclude _ _ vars hv
  obtain ⟨r, hm, rfl⟩ := List.mem_map.mp hop
  obtain ⟨r', hm', rfl⟩ := List.mem_map.mp hm
  exact h.operation _ (hr r' hm') vars hv

theorem parallelForEach (h : Waits I T O) (settings : BlockSettings)
    (iteration : Iteration) {body : Runner σ} (hb : Holds I T body) :
    Holds I T (.parallelForEach engine settings iteration body) :=
  h.computing (Runner.overflowsOnly_elements engine _) fun items =>
    h.parallel settings fun r hr => by
      obtain ⟨⟨item, index⟩, -, rfl⟩ := List.mem_map.mp hr
      exact h.bindPass iteration index item hb

theorem race (h : Waits I T O) (timeout : Option Nat) {rs : List (Runner σ)}
    (hr : ∀ r ∈ rs, Holds I T r) : Holds I T (.race engine timeout rs) := by
  refine fun vars hv => h.racing hv (fun op hop => ?_) fun s => ?_
  · obtain ⟨r, hm, rfl⟩ := List.mem_map.mp hop
    exact h.operation _ (hr r hm) vars hv
  · split
    · exact h.yield _ vars hv
    · exact h.fail _ vars hv

theorem chunksFrom (h : Waits I T O) (delay : Nat)
    {chunks : List (List (Runner σ))}
    (hr : ∀ chunk ∈ chunks, ∀ r ∈ chunk, Holds I O r)
    (results : List (List OperationResult)) (base : Nat) :
    Holds I T (.chunksFrom engine delay results base chunks) := by
  induction chunks generalizing results base with
  | nil => exact h.summarize _
  | cons chunk rest ih =>
    intro vars hv
    have hbody : T vars (.gather chunk.length (fun _ => false)
        (chunk.map fun r => r vars) vars fun settled =>
          Runner.chunksFrom engine delay (OperationResult.ofSettled base settled :: results)
            (base + chunk.length) rest vars) := by
      refine h.gathering hv (fun op hop => ?_) fun s => ?_
      · obtain ⟨r, hm, rfl⟩ := List.mem_map.mp hop
        exact hr chunk List.mem_cons_self r hm vars hv
      · exact ih (fun c hc => hr c (List.mem_cons_of_mem chunk hc)) _ _ vars hv
    unfold Runner.chunksFrom
    split
    · exact hbody
    · exact h.sleep hv hbody

theorem batch (h : Waits I T O) (settings : BatchSettings)
    {rs : List (Runner σ)} (hr : ∀ r ∈ rs, Holds I T r) :
    Holds I T (.batch engine settings rs) := by
  refine h.chunksFrom _ (fun chunk hc r hm => ?_) [] 0
  obtain ⟨r', hm', rfl⟩ := List.mem_map.mp (Runner.chunk_subset hc hm)
  exact h.retrying _ _ _ _ (hr r' hm')

/-- A handler sees the variables and cannot change them. -/
theorem task (h : Waits I T O) {vars : Variables} (hv : I vars) :
    (handling : Handling σ) → T vars (handling.task vars)
  | .answer (.ok v) => h.yield v vars hv
  | .answer (.error _) => h.fail _ vars hv
  | .crash _ => h.crash
  | .act _ next => h.own fun w => h.task hv (next w.own)
  | .sleep _ next => h.sleep hv (h.task hv next)

theorem perform (h : Waits I T O) (keys : List String) (name : String)
    (params : Value) (options : Named Value) :
    Holds I T (.perform engine keys name params options) := by
  unfold Runner.perform
  split
  · exact .compute h.fail (fun call vars hv => h.task hv _) fun _ _ _ => h.crash
  · exact h.fail _

end Waits

/-! ## All constructs -/

mutual

/-- An action and all actions inside of it satisfy a condition. -/
def Action.All (A : Action → Prop) (action : Action) : Prop :=
  A action ∧ match action with
  | .keyword _ _ => True
  | .ifElse _ then_ else_ => Step.All A then_ ∧ Step.All A else_
  | .forEach _ body => Step.All A body
  | .map _ body _ => Step.All A body
  | .filter _ _ => True
  | .while_ _ body _ => Step.All A body
  | .repeat_ _ body _ _ => Step.All A body
  | .parallel operations _ => Step.All A operations
  | .race operations _ => Step.All A operations
  | .batch operations _ => Step.All A operations
  | .parallelForEach _ body _ => Step.All A body
  | .try_ body catch_ finally_ _ =>
    Step.All A body
      ∧ (match catch_ with
        | none => True
        | some steps => Step.All A steps)
      ∧ Step.All A finally_
  | .assign _ _ => True
  | .return_ _ => True
  | .measure _ body _ => Step.All A body
  | .domain _ _ _ => True
termination_by structural action

/-- All actions of a step, at any depth of nesting, satisfy a condition. -/
def Step.AllOne (A : Action → Prop) (step : Step) : Prop :=
  match step with
  | .mk action _ _ _ _ => Action.All A action
termination_by structural step

/-- All actions of a list of steps, at any depth of nesting, satisfy a condition. -/
def Step.All (A : Action → Prop) (steps : List Step) : Prop :=
  match steps with
  | [] => True
  | step :: rest => Step.AllOne A step ∧ Step.All A rest
termination_by structural steps

end

/-- The condition that every action satisfies. -/
abbrev Action.Any (_ : Action) : Prop :=
  True

/-- What the operations of a block do: each is a list of one step. -/
abbrev Step.singles (engine : Engine σ) (call : Calls σ) (operations : List Step) :
    List (Runner σ) :=
  (Step.runners engine call operations).map fun r => .inOrder [r]

/-- **What has to be shown of each construct** for `P` to hold of all lists
of steps, given what keyword calls do. The lists may be restricted to those whose
actions satisfy `A`, which matters for keyword calls and blocks only. -/
structure Constructs (engine : Engine σ) (call : Calls σ)
    (Q : Action → Runner σ → Prop) (P : Runner σ → Prop)
    (A : Action → Prop) : Prop where
  keyword : ∀ name args, A (.keyword name args) → Q (.keyword name args)
    (.compute (fun vars => ((engine.scope vars).resolveItems args).mapError .crash)
      (call name))
  ifElse : ∀ condition then_ else_ r s, P r → P s →
    Q (.ifElse condition then_ else_) (.branch engine condition r s)
  forEach : ∀ iteration body r, P r →
    Q (.forEach iteration body) (.forEach engine iteration r)
  map : ∀ iteration body expression (r : Option (Runner σ)), (∀ s ∈ r, P s) →
    Q (.map iteration body expression) (.mapEach engine iteration r expression)
  filter : ∀ iteration condition,
    Q (.filter iteration condition) (.filterEach engine iteration condition)
  while_ : ∀ condition body maxIterations limit r, P r →
    Q (.while_ condition body maxIterations) (.whileHolds engine condition r limit)
  repeat_ : ∀ times body index iteration r, P r →
    Q (.repeat_ times body index iteration)
      (.repeatTimes engine times index iteration r)
  parallel : ∀ operations settings, A (.parallel operations settings) →
    (∀ r ∈ Step.singles engine call operations, P r) →
    Q (.parallel operations settings) (.countable engine settings
      (.parallel engine settings (Step.singles engine call operations)))
  race : ∀ operations timeout, A (.race operations timeout) →
    (∀ r ∈ Step.singles engine call operations, P r) →
    Q (.race operations timeout)
      (.race engine timeout (Step.singles engine call operations))
  batch : ∀ operations settings, A (.batch operations settings) →
    (∀ r ∈ Step.singles engine call operations, P r) →
    Q (.batch operations settings)
      (.batch engine settings (Step.singles engine call operations))
  parallelForEach : ∀ iteration body settings, A (.parallelForEach iteration body settings) →
    P (Step.listRunner engine call body) →
    Q (.parallelForEach iteration body settings)
      (.compute (Runner.elements engine iteration.source) fun _ =>
        .countable engine settings
          (.parallelForEach engine settings iteration (Step.listRunner engine call body)))
  try_ : ∀ body catch_ finally_ binding r (c f : Option (Runner σ)), P r →
    (∀ s ∈ c, P s) → (∀ s ∈ f, P s ∧ s = Step.listRunner engine call finally_) →
    Q (.try_ body catch_ finally_ binding) (.catching r c f binding)
  assign : ∀ target values,
    Q (.assign target values) (.assignFrom engine target .null values)
  return_ : ∀ v, Q (.return_ v) (.compute (engine.resolve v) .leave)
  sampling : ∀ name body v, Q (.measure name body (some v)) (.sampling engine name v)
  timing : ∀ name body r, P r → Q (.measure name body none) (.timing engine name r)
  domain : ∀ keys name params options,
    Q (.domain name params options) (.perform engine keys name params options)
  step : ∀ (step : Step) index r, r = Action.runner engine call step.keys step.action →
    Q step.action r → P (.observed engine step index r)
  list : ∀ rs : List (Nat → Runner σ), (∀ r ∈ rs, ∀ i, P (r i)) → P (.inOrder rs)

/-- **What remains to be shown of blocks and of actions.** -/
structure Remaining (engine : Engine σ) (call : Calls σ) (I : Variables → Prop)
    (T : Variables → Task σ → Prop) (A : Action → Prop) : Prop where
  parallel : ∀ operations settings, A (.parallel operations settings) →
    (∀ r ∈ Step.singles engine call operations, Holds I T r) →
    Holds I T (.countable engine settings
      (.parallel engine settings (Step.singles engine call operations)))
  race : ∀ operations timeout, A (.race operations timeout) →
    (∀ r ∈ Step.singles engine call operations, Holds I T r) →
    Holds I T (.race engine timeout (Step.singles engine call operations))
  batch : ∀ operations settings, A (.batch operations settings) →
    (∀ r ∈ Step.singles engine call operations, Holds I T r) →
    Holds I T (.batch engine settings (Step.singles engine call operations))
  parallelForEach : ∀ iteration body settings, A (.parallelForEach iteration body settings) →
    Holds I T (Step.listRunner engine call body) →
    Holds I T (.countable engine settings (.parallelForEach engine settings iteration
      (Step.listRunner engine call body)))
  perform : ∀ keys name params options,
    Holds I T (.perform engine keys name params options)

/-- **All constructs that go on from a value**, but for keyword calls, for assignments to
globals, for samples, for the constructs that look at other outcomes, and for what is done
around a step. -/
theorem Passing.constructs {engine : Engine σ} {call : Calls σ}
    {Q : Action → Runner σ → Prop} {I : Variables → Prop} {A : Action → Prop}
    {T : Variables → Task σ → Prop} (h : Passing I T)
    (hb : Remaining engine call I T A)
    (hcall : ∀ name args, A (.keyword name args) → ∀ values, Holds I T (call name values))
    (hplain : ∀ a r, (∀ values, a ≠ .assign .globals values) → (∀ v, a ≠ .return_ v) →
      Holds I T r → Q a r)
    (hsampling : ∀ name body v, Q (.measure name body (some v)) (.sampling engine name v))
    (hglobals : ∀ values,
      Q (.assign .globals values) (.assignFrom engine .globals .null values))
    (hreturn : ∀ v, Q (.return_ v) (.compute (engine.resolve v) .leave))
    (htry : ∀ body catch_ finally_ binding r (c f : Option (Runner σ)), Holds I T r →
      (∀ s ∈ c, Holds I T s) →
      (∀ s ∈ f, Holds I T s ∧ s = Step.listRunner engine call finally_) →
      Q (.try_ body catch_ finally_ binding) (.catching r c f binding))
    (htiming : ∀ name r, Holds I T r → Holds I T (.timing engine name r))
    (hstep : ∀ (step : Step) index r,
      r = Action.runner engine call step.keys step.action → Q step.action r →
      Holds I T (.observed engine step index r))
    (hlist : ∀ rs : List (Nat → Runner σ), (∀ r ∈ rs, ∀ i, Holds I T (r i)) →
      Holds I T (.inOrder rs)) :
    Constructs engine call Q (Holds I T) A where
  keyword name args ha := hplain _ _ nofun nofun <|
    h.computing (fun _ => (Scope.overflowsOnly_resolveItems _ args).halt)
      (hcall name args ha)
  ifElse _ _ _ _ _ hr hs := hplain _ _ nofun nofun (h.branch hr hs)
  forEach _ _ _ hr := hplain _ _ nofun nofun (h.forEach hr)
  map _ _ _ _ hr := hplain _ _ nofun nofun (h.mapEach hr)
  filter _ _ := hplain _ _ nofun nofun h.filterEach
  while_ _ _ _ limit _ hr := hplain _ _ nofun nofun (h.whileFrom hr limit limit)
  repeat_ _ _ _ _ _ hr := hplain _ _ nofun nofun (h.repeatTimes hr)
  parallel operations settings ha hr :=
    hplain _ _ nofun nofun (hb.parallel operations settings ha hr)
  race operations timeout ha hr :=
    hplain _ _ nofun nofun (hb.race operations timeout ha hr)
  batch operations settings ha hr :=
    hplain _ _ nofun nofun (hb.batch operations settings ha hr)
  parallelForEach iteration body settings ha hr := hplain _ _ nofun nofun <|
    h.computing (Runner.overflowsOnly_elements engine _) fun _ =>
      hb.parallelForEach iteration body settings ha hr
  try_ := htry
  assign target values := by
    cases target with
    | globals => exact hglobals values
    | locals => exact hplain _ _ nofun nofun (h.assignLocals values .null)
  return_ := hreturn
  sampling := hsampling
  timing name _ r hr := hplain _ _ nofun nofun (htiming name r hr)
  domain keys name params options :=
    hplain _ _ nofun nofun (hb.perform keys name params options)
  step := hstep
  list := hlist

/-- **All constructs that do one thing after another**, but for keyword calls, for samples, for
the assignments to globals and for what is done around a step. -/
theorem Chained.constructs_of_sampling {engine : Engine σ} {call : Calls σ}
    {Q : Action → Runner σ → Prop} {I : Variables → Prop} {A : Action → Prop}
    {T : Variables → Task σ → Prop} (h : Chained I T)
    (hb : Remaining engine call I T A)
    (hcall : ∀ name args, A (.keyword name args) → ∀ values, Holds I T (call name values))
    (hplain : ∀ a r, (∀ values, a ≠ .assign .globals values) → Holds I T r → Q a r)
    (htime : ∀ {vars : Variables} {name : String} {reading : σ → Number} {turn : σ → σ}
      {p : Task σ}, T vars p → T vars (.doing (.time name reading turn) p))
    (hsampling : ∀ name body v, Q (.measure name body (some v)) (.sampling engine name v))
    (hglobals : ∀ values,
      Q (.assign .globals values) (.assignFrom engine .globals .null values))
    (hstep : ∀ (step : Step) index r,
      r = Action.runner engine call step.keys step.action → Q step.action r →
      Holds I T (.observed engine step index r)) :
    Constructs engine call Q (Holds I T) A :=
  h.toPassing.constructs hb hcall (fun a r ha _ hr => hplain a r ha hr) hsampling hglobals
    (fun v => hplain _ _ nofun (h.computing (engine.overflowsOnly_resolve v) h.leave))
    (fun _ _ _ binding _ _ _ hr hc hf =>
      hplain _ _ nofun (h.catching binding hr hc fun s hs => (hf s hs).1))
    (fun name _ hr => h.timing htime name hr) hstep fun _ hr => h.inOrderFrom hr 1 .null

/-- **All constructs that do one thing after another**, where samples do not matter, but for
keyword calls, for the assignments to globals and for what is done around a step. -/
theorem Chained.constructs {engine : Engine σ} {call : Calls σ}
    {Q : Action → Runner σ → Prop} {I : Variables → Prop} {A : Action → Prop}
    {T : Variables → Task σ → Prop} (h : Chained I T) (hm : Unmeasured T)
    (hb : Remaining engine call I T A)
    (hcall : ∀ name args, A (.keyword name args) → ∀ values, Holds I T (call name values))
    (hplain : ∀ a r, (∀ values, a ≠ .assign .globals values) → Holds I T r → Q a r)
    (hglobals : ∀ values,
      Q (.assign .globals values) (.assignFrom engine .globals .null values))
    (hstep : ∀ (step : Step) index r,
      r = Action.runner engine call step.keys step.action → Q step.action r →
      Holds I T (.observed engine step index r)) :
    Constructs engine call Q (Holds I T) A :=
  h.constructs_of_sampling hb hcall hplain hm.timed
    (fun name _ v => hplain _ _ nofun (h.sampling hm.given name v)) hglobals hstep

theorem Waits.remaining {engine : Engine σ} {call : Calls σ} {I : Variables → Prop}
    {T O : Variables → Task σ → Prop} (h : Waits I T O) :
    Remaining engine call I T Action.Any where
  parallel _ settings _ hr := h.countable settings (h.parallel settings hr)
  race _ timeout _ hr := h.race timeout hr
  batch _ settings _ hr := h.batch settings hr
  parallelForEach iteration _ settings _ hr :=
    h.countable settings (h.parallelForEach settings iteration hr)
  perform keys name params options := h.perform keys name params options

/-- **All constructs by the rules for tasks**, but for keyword calls, for the
assignments to globals and for what is done around a step. -/
theorem Rules.constructs {engine : Engine σ} {call : Calls σ}
    {Q : Action → Runner σ → Prop} {I : Variables → Prop}
    {T O : Variables → Task σ → Prop} (h : Rules I T O)
    (hcall : ∀ name args, Holds I T (call name args))
    (hplain : ∀ a r, (∀ values, a ≠ .assign .globals values) → Holds I T r → Q a r)
    (hglobals : ∀ values,
      Q (.assign .globals values) (.assignFrom engine .globals .null values))
    (hstep : ∀ (step : Step) index r,
      r = Action.runner engine call step.keys step.action → Q step.action r →
      Holds I T (.observed engine step index r)) :
    Constructs engine call Q (Holds I T) Action.Any :=
  h.toChained.constructs h.measure h.toWaits.remaining (fun name _ _ => hcall name) hplain
    hglobals hstep

namespace Constructs

variable {engine : Engine σ} {call : Calls σ}
  {Q : Action → Runner σ → Prop} {P : Runner σ → Prop} {A : Action → Prop}

/-- A step by itself is a list. -/
theorem single (h : Constructs engine call Q P A) {r : Nat → Runner σ}
    (hr : ∀ i, P (r i)) : P (.inOrder [r]) :=
  h.list [r] fun _ hs i => by
    rw [List.mem_singleton.mp hs]
    exact hr i

theorem singles (h : Constructs engine call Q P A) {operations : List Step}
    (hr : ∀ r ∈ Step.runners engine call operations, ∀ i, P (r i)) :
    ∀ r ∈ Step.singles engine call operations, P r := by
  intro r hm
  obtain ⟨s, hs, rfl⟩ := List.mem_map.mp hm
  exact h.single (hr s hs)

/-- A list that is there. -/
theorem given (h : Constructs engine call Q P A) {rs : List (Nat → Runner σ)}
    (hr : ∀ r ∈ rs, ∀ i, P (r i)) :
    ∀ s ∈ some (Runner.inOrder rs), P s ∧ s = .inOrder rs := by
  intro s hs
  rw [← Option.some.inj hs]
  exact ⟨h.list rs hr, rfl⟩

mutual

theorem actionRunner (h : Constructs engine call Q P A) (keys : List String) :
    (a : Action) → a.All A → Q a (Action.runner engine call keys a)
  | .keyword name args, ha => h.keyword name args ha.1
  | .ifElse condition then_ else_, ha =>
    h.ifElse condition then_ else_ _ _ (h.list _ (h.stepRunners then_ ha.2.1))
      (h.list _ (h.stepRunners else_ ha.2.2))
  | .forEach iteration body, ha =>
    h.forEach iteration body _ (h.list _ (h.stepRunners body ha.2))
  | .map iteration [] expression, _ =>
    h.map iteration [] expression none nofun
  | .map iteration (first :: rest) expression, ha =>
    h.map iteration (first :: rest) expression (some _) fun s hs =>
      (h.given (h.stepRunners (first :: rest) ha.2) s hs).1
  | .filter iteration condition, _ => h.filter iteration condition
  | .while_ condition body maxIterations, ha =>
    h.while_ condition body maxIterations _ _ (h.list _ (h.stepRunners body ha.2))
  | .repeat_ times body index iteration, ha =>
    h.repeat_ times body index iteration _ (h.list _ (h.stepRunners body ha.2))
  | .parallel operations settings, ha =>
    h.parallel operations settings ha.1 (h.singles (h.stepRunners operations ha.2))
  | .race operations timeout, ha =>
    h.race operations timeout ha.1 (h.singles (h.stepRunners operations ha.2))
  | .batch operations settings, ha =>
    h.batch operations settings ha.1 (h.singles (h.stepRunners operations ha.2))
  | .parallelForEach iteration body settings, ha =>
    h.parallelForEach iteration body settings ha.1 (h.list _ (h.stepRunners body ha.2))
  | .try_ body none [] binding, ha =>
    h.try_ body none [] binding _ none none (h.list _ (h.stepRunners body ha.2.1))
      nofun nofun
  | .try_ body none (first :: rest) binding, ha =>
    h.try_ body none (first :: rest) binding _ none (some _)
      (h.list _ (h.stepRunners body ha.2.1)) nofun
      (h.given (h.stepRunners (first :: rest) ha.2.2.2))
  | .try_ body (some steps) [] binding, ha =>
    h.try_ body (some steps) [] binding _ (some _) none
      (h.list _ (h.stepRunners body ha.2.1))
      (fun s hs => (h.given (h.stepRunners steps ha.2.2.1) s hs).1) nofun
  | .try_ body (some steps) (first :: rest) binding, ha =>
    h.try_ body (some steps) (first :: rest) binding _ (some _) (some _)
      (h.list _ (h.stepRunners body ha.2.1))
      (fun s hs => (h.given (h.stepRunners steps ha.2.2.1) s hs).1)
      (h.given (h.stepRunners (first :: rest) ha.2.2.2))
  | .assign target values, _ => h.assign target values
  | .return_ v, _ => h.return_ v
  | .measure name body (some v), _ => h.sampling name body v
  | .measure name body none, ha =>
    h.timing name body _ (h.list _ (h.stepRunners body ha.2))
  | .domain name params options, _ => h.domain keys name params options

theorem stepRunner (h : Constructs engine call Q P A) :
    (s : Step) → s.AllOne A → ∀ i, P (Step.runner engine call s i)
  | .mk action returns continueOnError label source, ha => fun i =>
    h.step (.mk action returns continueOnError label source) i _ rfl
      (h.actionRunner _ action ha)

theorem stepRunners (h : Constructs engine call Q P A) :
    (steps : List Step) → Step.All A steps →
      ∀ r ∈ Step.runners engine call steps, ∀ i, P (r i)
  | [], _ => nofun
  | step :: rest, ha => fun r hr i => by
    obtain rfl | hr := List.mem_cons.mp hr
    · exact h.stepRunner step ha.1 i
    · exact h.stepRunners rest ha.2 r hr i

end

/-- **What every construct keeps holds of every list of steps** with certain actions
only. -/
theorem listRunner_of_all (h : Constructs engine call Q P A) {steps : List Step}
    (ha : Step.All A steps) : P (Step.listRunner engine call steps) :=
  h.list _ (h.stepRunners steps ha)

end Constructs

mutual

theorem Action.all_any : (a : Action) → a.All Action.Any
  | .keyword _ _ => ⟨trivial, trivial⟩
  | .ifElse _ then_ else_ => ⟨trivial, Step.all_any then_, Step.all_any else_⟩
  | .forEach _ body => ⟨trivial, Step.all_any body⟩
  | .map _ body _ => ⟨trivial, Step.all_any body⟩
  | .filter _ _ => ⟨trivial, trivial⟩
  | .while_ _ body _ => ⟨trivial, Step.all_any body⟩
  | .repeat_ _ body _ _ => ⟨trivial, Step.all_any body⟩
  | .parallel operations _ => ⟨trivial, Step.all_any operations⟩
  | .race operations _ => ⟨trivial, Step.all_any operations⟩
  | .batch operations _ => ⟨trivial, Step.all_any operations⟩
  | .parallelForEach _ body _ => ⟨trivial, Step.all_any body⟩
  | .try_ body none finally_ _ =>
    ⟨trivial, Step.all_any body, trivial, Step.all_any finally_⟩
  | .try_ body (some steps) finally_ _ =>
    ⟨trivial, Step.all_any body, Step.all_any steps, Step.all_any finally_⟩
  | .assign _ _ => ⟨trivial, trivial⟩
  | .return_ _ => ⟨trivial, trivial⟩
  | .measure _ body _ => ⟨trivial, Step.all_any body⟩
  | .domain _ _ _ => ⟨trivial, trivial⟩

theorem Step.all_one_any : (step : Step) → step.AllOne Action.Any
  | .mk action _ _ _ _ => Action.all_any action

theorem Step.all_any : (steps : List Step) → Step.All Action.Any steps
  | [] => trivial
  | step :: rest => ⟨Step.all_one_any step, Step.all_any rest⟩

end

/-- **What every construct keeps holds of every list of steps.** -/
theorem Constructs.listRunner {engine : Engine σ} {call : Calls σ}
    {Q : Action → Runner σ → Prop} {P : Runner σ → Prop}
    (h : Constructs engine call Q P Action.Any) (steps : List Step) :
    P (Step.listRunner engine call steps) :=
  h.listRunner_of_all (Step.all_any steps)

/-! ## Levels of calls -/

/-- A runner makes good tasks where `n` keyword calls are under way. -/
abbrev HoldsAt (n : Nat) (T : Task σ → Prop) (r : Runner σ) : Prop :=
  Holds (fun vars => vars.depth = n) (fun _ => T) r

/-- **What has to be shown of constructs and calls** for `T n` to hold of all tasks that
begin with `n` keyword calls under way. -/
structure Levels (engine : Engine σ) (Q : Nat → Action → Runner σ → Prop)
    (T : Nat → Task σ → Prop) : Prop where
  visit : ∀ {n name} {next : World σ → Task σ}, (∀ w, T n (next w)) →
    T n (.act (.visit name) next)
  refused : ∀ {n} (f : Failure), HoldsAt n (T n) (.fail f)
  calling : ∀ {n} (keyword : Keyword) (name : String) (args : List Value)
    {steps : Runner σ}, HoldsAt (n + 1) (T (n + 1)) steps →
    HoldsAt n (T n) (.calling engine keyword name args steps)
  constructs : ∀ {n left}, left = engine.settings.maxKeywordDepth - n →
    (∀ name args, HoldsAt n (T n) (engine.invokeWithin left name args)) →
    Constructs engine (engine.invokeWithin left) (Q n) (HoldsAt n (T n)) Action.Any

namespace Levels

variable {engine : Engine σ} {Q : Nat → Action → Runner σ → Prop}
  {T : Nat → Task σ → Prop}

/-- **Calls are good on every level.** The induction is on how many further calls may be
nested. -/
theorem invokeWithin (h : Levels engine Q T) {n left : Nat}
    (hleft : left = engine.settings.maxKeywordDepth - n) (name : String)
    (args : List Value) : HoldsAt n (T n) (engine.invokeWithin left name args) := by
  induction left generalizing n name args with
  | zero =>
    intro vars hv
    unfold Engine.invokeWithin
    refine h.visit fun w => ?_
    split
    · exact h.refused _ vars hv
    · exact h.refused _ vars hv
  | succ left ih =>
    intro vars hv
    have hleft' : left = engine.settings.maxKeywordDepth - (n + 1) := by omega
    unfold Engine.invokeWithin
    refine h.visit fun w => ?_
    split
    · exact h.refused _ vars hv
    · exact h.calling _ name args
        ((h.constructs hleft' (ih hleft')).listRunner _) vars hv

/-- **Lists of steps are good on every level.** -/
theorem listRunner (h : Levels engine Q T) {n left : Nat}
    (hleft : left = engine.settings.maxKeywordDepth - n) (steps : List Step) :
    HoldsAt n (T n) (Step.listRunner engine (engine.invokeWithin left) steps) :=
  (h.constructs hleft (h.invokeWithin hleft)).listRunner steps

theorem execute (h : Levels engine Q T) (steps : List Step) (vars : Variables) :
    T vars.depth (engine.execute steps vars) :=
  h.listRunner rfl steps vars rfl

theorem invoke (h : Levels engine Q T) (name : String) (args : List Value)
    (vars : Variables) : T vars.depth (engine.invoke name args vars) :=
  h.invokeWithin rfl name args vars rfl

end Levels

end Playbook
