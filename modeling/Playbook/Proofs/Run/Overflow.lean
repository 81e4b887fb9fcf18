import Playbook.Proofs.Process.Crashing
import Playbook.Proofs.Run.Concurrency
import Playbook.Proofs.Run.Termination

/-!
# How lists of steps crash

There are two ways for a list of steps to crash. An expression in it may divide the least integer
by minus one, and a block may allow more operations at the same time than can be counted. Whether a
block does so can be told from the steps and the settings alone (`Action.Countable`), and so the
second way is closed where it is known of all steps, those of the keywords included: a list of such
steps crashes by an overflow or not at all (`Engine.crashesOnly_execute`). This is shown by
recursion on the steps and, for the keywords, on the number of calls that may still be nested.
What happens in the operations of a block makes no difference, since they crash by themselves.
-/

namespace Playbook

variable {σ : Type}

/-- **A block that allows no more operations at the same time than can be counted.** Actions of
other kinds have no limit of their own. -/
def Action.Countable (settings : Settings) : Action → Prop
  | .parallel _ limits =>
    limits.maxConcurrency.getD settings.parallel.maxConcurrency ≤ Runner.mostAtOnce
  | .parallelForEach _ _ limits =>
    limits.maxConcurrency.getD settings.parallel.maxConcurrency ≤ Runner.mostAtOnce
  | _ => True

/-- A registry of keywords whose blocks can be counted. -/
def Registry.Countable (settings : Settings) (registry : Registry) : Prop :=
  ∀ name keyword, registry.find? name = some keyword →
    Step.All (Action.Countable settings) keyword.steps

/-- A task that crashes only as `K` says, where the keywords are those of a registry. -/
abbrev Task.CrashesOnly (registry : Registry) (K : Crash → Prop) (p : Task σ) : Prop :=
  Process.CrashesOnly (World.Knows registry) K p

/-- A runner that makes such tasks. -/
abbrev Runner.CrashesOnly (registry : Registry) (K : Crash → Prop) (r : Runner σ) : Prop :=
  Holds (fun _ => True) (fun _ => Task.CrashesOnly registry K) r

/-- What a solo runner crashes by. -/
theorem Runner.Solo.crashesOnly {registry : Registry} {K : Crash → Prop} {r : Runner σ}
    (h : r.Solo registry K) : r.CrashesOnly registry K :=
  fun vars hv => (h vars hv).crashesOnly

namespace Task.CrashesOnly

variable {registry : Registry} {K : Crash → Prop} {engine : Engine σ}

theorem doing {deed : Deed σ} {p : Task σ} (h : p.CrashesOnly registry K) :
    Task.CrashesOnly registry K (.doing deed p) :=
  .act fun _ _ => h

theorem chained (registry : Registry) (hK : K .quotientOverflow) :
    Chained (σ := σ) (fun _ => True) fun _ => Task.CrashesOnly registry K where
  bound _ _ _ := trivial
  bind _ _ _ h := h
  done o _ := .done o
  overflow := .crash hK
  andThen hp hk := hp.andThen fun o => hk o trivial
  sleep _ h := .sleep h

/-- A block that is known to be countable is begun. -/
theorem countable {limits : BlockSettings} {block : Runner σ}
    (hle : limits.maxConcurrency.getD engine.settings.parallel.maxConcurrency ≤ Runner.mostAtOnce)
    (h : block.CrashesOnly registry K) :
    Runner.CrashesOnly registry K (.countable engine limits block) := by
  intro vars hv
  rw [Runner.countable_eq, if_pos hle]
  exact h vars hv

/-- How a block ends does not crash. -/
theorem summarize (results : List OperationResult) :
    Runner.CrashesOnly registry K (.summarize engine results) :=
  fun _ _ => .act fun _ _ => .done _

theorem conclude (failFast : Bool) (results : List OperationResult) :
    Runner.CrashesOnly registry K (.conclude engine failFast results) := by
  unfold Runner.conclude
  split
  · exact fun _ _ => .done _
  · exact summarize _

theorem parallel (limits : BlockSettings) (operations : List (Runner σ)) :
    Runner.CrashesOnly registry K (.parallel engine limits operations) :=
  fun vars hv => .gather fun _ => conclude _ _ vars hv

theorem race (timeout : Option Nat) (operations : List (Runner σ)) :
    Runner.CrashesOnly registry K (.race engine timeout operations) := by
  refine fun vars _ => Process.CrashesOnly.race fun settled => ?_
  split
  · exact .done _
  · exact .done _

theorem chunksFrom (delay : Nat) (chunks : List (List (Runner σ)))
    (results : List (List OperationResult)) (base : Nat) :
    Runner.CrashesOnly registry K (.chunksFrom engine delay results base chunks) := by
  induction chunks generalizing results base with
  | nil => exact summarize _
  | cons chunk rest ih =>
    intro vars hv
    unfold Runner.chunksFrom
    split
    · exact .gather fun _ => ih _ _ vars hv
    · exact .sleep (.gather fun _ => ih _ _ vars hv)

/-- Blocks can be counted, and actions finish. -/
theorem remaining (hK : K .quotientOverflow) (h : engine.handler.CrashesOnly K)
    (call : Calls σ) :
    Remaining engine call (fun _ => True) (fun _ => Task.CrashesOnly registry K)
      (Action.Countable engine.settings) where
  parallel _ limits ha _ := countable ha (parallel limits _)
  race _ timeout _ _ := race timeout _
  batch _ _ _ _ := chunksFrom _ _ [] 0
  parallelForEach iteration _ limits ha _ := countable ha <|
    (chained registry hK).computing (Runner.overflowsOnly_elements engine iteration.source)
      fun _ => parallel limits _
  perform keys name params options := (Task.Solo.perform hK h keys name params options).crashesOnly

theorem observed (step : Step) (index : Nat) {r : Runner σ} (hr : r.CrashesOnly registry K) :
    Runner.CrashesOnly registry K (.observed engine step index r) := by
  refine fun vars hv => doing ((hr vars hv).andThen fun o => doing ?_)
  split
  · exact .done _
  · exact .done _

/-- **Steps whose blocks can be counted crash by an overflow only**, or as their actions do, if the
keywords that they call do so. -/
theorem constructs (hK : K .quotientOverflow) (h : engine.handler.CrashesOnly K)
    {call : Calls σ} (hcall : ∀ name args, (call name args).CrashesOnly registry K) :
    Constructs engine call (fun _ r => r.CrashesOnly registry K) (Runner.CrashesOnly registry K)
      (Action.Countable engine.settings) :=
  (chained registry hK).constructs ⟨fun h => h.doing, fun h => h.doing⟩ (remaining hK h call)
    (fun name _ _ => hcall name) (fun _ _ _ hr => hr)
    (fun values => (Task.Solo.assignGlobals hK values .null).crashesOnly)
    fun step index _ _ hr => observed step index hr

/-- **So do the calls of their keywords.** The induction is on how many further calls may be
nested, whatever keywords they are. -/
theorem invokeWithin (hK : K .quotientOverflow) (h : engine.handler.CrashesOnly K)
    (hk : registry.Countable engine.settings) (left : Nat) (name : String) (args : List Value) :
    Runner.CrashesOnly registry K (engine.invokeWithin left name args) := by
  induction left generalizing name args with
  | zero =>
    intro vars _
    unfold Engine.invokeWithin
    refine .act fun w _ => ?_
    split
    · exact .done _
    · exact .done _
  | succ left ih =>
    intro vars _
    unfold Engine.invokeWithin
    refine .act fun w hw => ?_
    split
    · exact .done _
    · rename_i keyword hf
      have hs := hk name keyword ((hw name).symm.trans hf)
      refine ((constructs hK h ih).listRunner_of_all hs _ trivial).andThen fun o => ?_
      exact (Task.Solo.returning hK keyword name o).crashesOnly

/-- Steps among calls that may be nested so many times more. -/
theorem constructsWithin (hK : K .quotientOverflow) (h : engine.handler.CrashesOnly K)
    (hk : registry.Countable engine.settings) (left : Nat) :
    Constructs engine (engine.invokeWithin left) (fun _ r => r.CrashesOnly registry K)
      (Runner.CrashesOnly registry K) (Action.Countable engine.settings) :=
  constructs hK h (invokeWithin hK h hk left)

end Task.CrashesOnly

/-- Every step of a list satisfies what all of them do. -/
theorem Step.allOne_of_mem {A : Action → Prop} {steps : List Step} (h : Step.All A steps)
    {step : Step} (hm : step ∈ steps) : step.AllOne A := by
  induction steps with
  | nil => cases hm
  | cons first rest ih =>
    obtain rfl | hm := List.mem_cons.mp hm
    · exact h.1
    · exact ih h.2 hm

namespace Engine

variable {engine : Engine σ} {registry : Registry}

/-- **A list of steps whose blocks can be counted** crashes by an overflow only, if its actions
finish. -/
theorem crashesOnly_execute (h : engine.handler.Finishes)
    (hk : registry.Countable engine.settings) {steps : List Step}
    (hs : Step.All (Action.Countable engine.settings) steps) (vars : Variables) :
    (engine.execute steps vars).CrashesOnly registry fun c => c = .quotientOverflow :=
  (Task.CrashesOnly.constructsWithin (K := fun c => c = .quotientOverflow) rfl h hk
    _).listRunner_of_all hs vars trivial

/-- So does a step by itself. -/
theorem crashesOnly_executeStep (h : engine.handler.Finishes)
    (hk : registry.Countable engine.settings) {step : Step}
    (hs : step.AllOne (Action.Countable engine.settings)) (index : Nat) (vars : Variables) :
    (engine.executeStep step index vars).CrashesOnly registry fun c => c = .quotientOverflow :=
  (Task.CrashesOnly.constructsWithin (K := fun c => c = .quotientOverflow) rfl h hk
    _).stepRunner step hs index vars trivial

end Engine

end Playbook
