import Playbook.Proofs.Process.MainRun
import Playbook.Proofs.Run.Determinism
import Playbook.Proofs.Run.Isolation

/-!
# Sequential runs end

A list of steps is sequential if no action in it is a block of concurrent operations,
and neither is one in the keywords that it calls. Keywords may call themselves and each
other, and conditions of loops may hold forever. Still such a list comes to an end
(`Session.exists_run_of_sequential`): what a loop runs over is settled when it begins, or
it has a limit of passes, and a call that is nested too deep is refused. So its process
does nothing but act on the world and sleep (`Process.Solo`), which is shown by recursion
on the steps and, for the keywords, on the number of calls that may still be nested.

It ends with an outcome or in the one crash that expressions have, provided that handlers
do not crash in other ways (`Handler.Finishes`).
-/

namespace Playbook

variable {σ : Type}

/-! ## Handlers that finish -/

/-- Whatever the states it finds, a handling crashes as `K` says or comes to an answer. -/
def Handling.CrashesOnly (K : Crash → Prop) : Handling σ → Prop
  | answer _ => True
  | crash c => K c
  | act _ next => ∀ state, (next state).CrashesOnly K
  | sleep _ next => next.CrashesOnly K

/-- A handler that crashes as `K` says or comes to an answer. -/
def Handler.CrashesOnly (K : Crash → Prop) (handler : Handler σ) : Prop :=
  ∀ call vars, (handler.handle call vars).CrashesOnly K

/-- **A handler that finishes every action that it is asked for**, if there is no
overflow. -/
def Handler.Finishes (handler : Handler σ) : Prop :=
  handler.CrashesOnly fun c => c = .quotientOverflow

/-- Nothing is said of a handler that may crash in any way. -/
theorem Handling.crashesOnly_any :
    (handling : Handling σ) → handling.CrashesOnly fun _ => True
  | answer _ => trivial
  | crash _ => trivial
  | act _ next => fun state => (next state).crashesOnly_any
  | sleep _ next => next.crashesOnly_any

namespace Handler

theorem overflowsOnly_assertionHolds (scope : Scope) (condition : Value) :
    OverflowsOnly .crash (assertionHolds scope condition) := by
  unfold assertionHolds
  split
  · exact scope.overflowsOnly_test _
  · exact .ok _

/-- The standard actions finish. -/
theorem finishes_standard (ambient : Ambient) : (standard (σ := σ) ambient).Finishes := by
  intro call vars
  unfold standard
  dsimp only
  split
  · unfold checkAssertion
    dsimp only
    split
    · trivial
    · split
      · trivial
      · trivial
      · trivial
      · rename_i c hc
        exact overflowsOnly_assertionHolds _ _ c hc
  · trivial
  · unfold pause
    dsimp only
    split
    all_goals trivial
  · unfold pause
    dsimp only
    split
    all_goals trivial
  · trivial
  · trivial

/-- Handlers one after the other finish. -/
theorem finishes_chain {handlers : List (Handler σ)} (h : ∀ x ∈ handlers, x.Finishes) :
    (chain handlers).Finishes := by
  intro call vars
  unfold chain
  dsimp only
  split
  · rename_i x hx
    exact h x (List.mem_of_find?_eq_some hx) call vars
  · trivial

end Handler

/-! ## Sequential steps -/

/-- An action that is no block and calls no keywords but those of the given names. -/
def Action.Sequential (names : String → Prop) : Action → Prop
  | .keyword name _ => names name
  | action => action.isBlock = false

/-- **Keywords that are sequential.** No action in a keyword of the given names is a block
or calls a keyword of another name. -/
def Registry.Sequential (names : String → Prop) (registry : Registry) : Prop :=
  ∀ name keyword, names name → registry.find? name = some keyword →
    Step.All (Action.Sequential names) keyword.steps

/-- A task that does nothing but act, sleep and end, where the keywords are those of a
registry. It does not look at the stopwatch, and if it crashes, then as `K` says. -/
abbrev Task.Solo (registry : Registry) (K : Crash → Prop) (p : Task σ) : Prop :=
  Process.Solo (fun deed => deed.isLook = false) (World.Knows registry) K p

/-- A runner that makes solo tasks. -/
abbrev Runner.Solo (registry : Registry) (K : Crash → Prop) (r : Runner σ) : Prop :=
  Holds (fun _ => True) (fun _ => Task.Solo registry K) r

namespace Task.Solo

variable {registry : Registry} {K : Crash → Prop} {engine : Engine σ}

theorem doing {deed : Deed σ} {p : Task σ} (hd : deed.isLook = false) (h : p.Solo registry K) :
    Task.Solo registry K (.doing deed p) :=
  .act hd fun _ _ => h

theorem chained (registry : Registry) (hK : K .quotientOverflow) :
    Chained (σ := σ) (fun _ => True) fun _ => Task.Solo registry K where
  bound _ _ _ := trivial
  bind _ _ _ h := h
  done o _ := .done o
  overflow := .crash hK
  andThen hp hk := hp.andThen fun o => hk o trivial
  sleep _ h := .sleep h

/-- What a handler does is solo. -/
theorem task (vars : Variables) : (handling : Handling σ) → handling.CrashesOnly K →
    (handling.task vars).Solo registry K
  | .answer (.ok _), _ => .done _
  | .answer (.error _), _ => .done _
  | .crash _, h => .crash h
  | .act _ next, h => .act rfl fun w _ => task vars (next w.own) (h w.own)
  | .sleep _ next, h => .sleep (task vars next h)

theorem perform (hK : K .quotientOverflow) (h : engine.handler.CrashesOnly K)
    (keys : List String) (name : String) (params : Value) (options : Named Value) :
    Runner.Solo registry K (.perform engine keys name params options) := by
  unfold Runner.perform
  split
  · refine (chained registry hK).computing (fun vars => ?_) fun call vars _ =>
      task vars _ (h call vars)
    refine (engine.overflowsOnly_resolve params vars).bind fun v => ?_
    exact (Scope.overflowsOnly_resolveFields _ options).halt.bind fun _ => .ok _
  · exact (chained registry hK).fail _

/-- There are no blocks, and actions finish. -/
theorem remaining (hK : K .quotientOverflow) (h : engine.handler.CrashesOnly K)
    (call : Calls σ) (names : String → Prop) :
    Remaining engine call (fun _ => True) (fun _ => Task.Solo registry K)
      (Action.Sequential names) where
  parallel _ _ ha := nomatch ha
  race _ _ ha := nomatch ha
  batch _ _ ha := nomatch ha
  parallelForEach _ _ _ ha := nomatch ha
  perform := perform hK h

theorem assignGlobals (hK : K .quotientOverflow) (values : List (String × Value))
    (last : Value) : Runner.Solo registry K (.assignFrom engine .globals last values) := by
  induction values generalizing last with
  | nil => exact (chained registry hK).yield last
  | cons field rest ih =>
    exact (chained registry hK).computing (engine.overflowsOnly_resolve field.2)
      fun v vars hv => ih v _ hv

theorem observed (step : Step) (index : Nat) {r : Runner σ} (hr : r.Solo registry K) :
    Runner.Solo registry K (.observed engine step index r) := by
  refine fun vars hv => doing rfl ((hr vars hv).andThen fun o => doing rfl ?_)
  split
  · exact .done _
  · exact .done _

/-- Whatever its steps come to, a call ends. -/
theorem returning (hK : K .quotientOverflow) (keyword : Keyword) (name : String)
    (o : Outcome) :
    Task.Solo (σ := σ) registry K (Runner.returning engine keyword name o) := by
  unfold Runner.returning
  split
  · exact .done _
  · exact .done _
  · exact (chained registry hK).computing
      (fun _ => Runner.overflowsOnly_declaredValue _ keyword.returns)
      (fun v => (chained registry hK).yield v) _ trivial

/-- **Sequential steps are solo**, if the keywords that they call are. -/
theorem constructs (hK : K .quotientOverflow) (h : engine.handler.CrashesOnly K)
    {call : Calls σ} {names : String → Prop}
    (hcall : ∀ name, names name → ∀ args, (call name args).Solo registry K) :
    Constructs engine call (fun _ r => r.Solo registry K) (Runner.Solo registry K)
      (Action.Sequential names) :=
  (chained registry hK).constructs ⟨fun h => h.doing rfl, fun h => h.doing rfl⟩
    (remaining hK h call names) (fun name _ ha => hcall name ha) (fun _ _ _ hr => hr)
    (fun values => assignGlobals hK values .null)
    fun step index _ _ hr => observed step index hr

/-- **Calls of sequential keywords are solo.** The induction is on how many further calls
may be nested, whatever keywords they are. -/
theorem invokeWithin (hK : K .quotientOverflow) (h : engine.handler.CrashesOnly K)
    {names : String → Prop} (hk : registry.Sequential names) (left : Nat) {name : String}
    (hn : names name) (args : List Value) :
    Runner.Solo registry K (engine.invokeWithin left name args) := by
  induction left generalizing name args with
  | zero =>
    intro vars hv
    unfold Engine.invokeWithin
    refine .act rfl fun w _ => ?_
    split
    · exact .done _
    · exact .done _
  | succ left ih =>
    intro vars hv
    unfold Engine.invokeWithin
    refine .act rfl fun w hw => ?_
    split
    · exact .done _
    · rename_i keyword hf
      have hs := hk name keyword hn ((hw name).symm.trans hf)
      have hsteps := (constructs hK h fun name hn args => ih hn args).listRunner_of_all hs
      exact (hsteps _ trivial).andThen fun o => returning hK keyword name o

end Task.Solo

/-- **A sequential list of steps is solo.** -/
theorem Engine.solo_execute {engine : Engine σ} {K : Crash → Prop}
    (hK : K .quotientOverflow) (h : engine.handler.CrashesOnly K)
    {registry : Registry} {names : String → Prop} (hk : registry.Sequential names)
    {steps : List Step} (hs : Step.All (Action.Sequential names) steps) (vars : Variables) :
    (engine.execute steps vars).Solo registry K :=
  (Task.Solo.constructs hK h fun _ hn args =>
    Task.Solo.invokeWithin hK h hk _ hn args).listRunner_of_all hs vars trivial

/-! ## Sessions -/

/-- The world after deeds that were done one after the other. -/
def World.performAll (deeds : List (Deed σ)) (w : World σ) : World σ :=
  deeds.foldl (fun w d => w.perform d) w

/-- A session in which a run can begin: nothing is under way in it, or it is one that runs have been
made in one after the other, and the last one is over. Operations that a run was cut off from may
still be under way then. -/
def Session.Ready (session : Session σ) : Prop :=
  session.tasks = []
    ∨ (∃ w, session.Played w) ∧ ∀ t ∈ session.tasks, t.id ≠ Machine.mainId

/-- **Every sequential run ends.** Let the handler finish every action, and let no action
of a list of steps and of the keywords that it calls be a block of concurrent operations.
Whatever else the steps are, whatever the settings, the variables and the world, and whatever
was run in the session before: the list comes to its end after finitely many turns, with an
outcome or in the crash of an overflow. It has done finitely many deeds then, and they are part
of what has happened to the world meanwhile. If nothing else is under way in the session, they
are all that has happened, and no task is left. -/
theorem Session.exists_run_of_sequential {engine : Engine σ} (h : engine.handler.Finishes)
    {names : String → Prop} {session : Session σ} (hi : session.Ready)
    (hk : session.world.registry.Sequential names) {steps : List Step}
    (hs : Step.All (Action.Sequential names) steps) (vars : Variables) :
    ∃ n deeds all ending session', (∀ turns, n ≤ turns →
        Machine.run turns (engine.execute steps vars) session = (ending, session'))
      ∧ deeds.Sublist all ∧ session'.world = session.world.performAll all
      ∧ (session.tasks = [] → all = deeds ∧ session'.tasks = [])
      ∧ ((∃ o, ending = .finished o ∧ (engine.execute steps vars).Runs deeds (.done o))
        ∨ ending = .crashed .quotientOverflow
          ∧ (engine.execute steps vars).Runs deeds (.crash .quotientOverflow)) := by
  have hsolo := engine.solo_execute (K := fun c => c = .quotientOverflow) rfl h hk hs vars
  have hW : ∀ (d : Deed σ) (w : World σ), w.Knows session.world.registry →
      (w.perform d).Knows session.world.registry := fun d w hw => hw.perform d
  have hof : ∀ {deeds ending}, Machine.Ending.Of (fun c => c = .quotientOverflow)
      (engine.execute steps vars) deeds ending →
      (∃ o, ending = .finished o ∧ (engine.execute steps vars).Runs deeds (.done o))
        ∨ ending = .crashed .quotientOverflow
          ∧ (engine.execute steps vars).Runs deeds (.crash .quotientOverflow) := by
    rintro deeds ending (he | ⟨c, rfl, rfl, hr⟩)
    · exact .inl he
    · exact .inr ⟨rfl, hr⟩
  by_cases ht : session.tasks = []
  · obtain ⟨n, deeds, ending, session', hrun, ht', hw, he⟩ :=
      Machine.exists_run_of_solo hsolo hW ht fun _ => rfl
    exact ⟨n, deeds, deeds, ending, session', hrun, .refl _, hw, fun _ => ⟨rfl, ht'⟩, hof he⟩
  · obtain ⟨⟨w, hplayed⟩, hmain⟩ := hi.resolve_left ht
    obtain ⟨n, deeds, all, ending, session', hrun, hpart, hw, he⟩ :=
      hplayed.tended.exists_run_of_solo hmain trivial hsolo (fun _ => rfl) hW
    exact ⟨n, deeds, all, ending, session', hrun, hpart, hw, fun ht' => absurd ht' ht, hof he⟩

/-- A keyword that calls itself in a loop whose condition always holds: calling it comes
to an end, with the standard actions. It does so in a fresh session, and in one in which a pause is
still under way that an earlier run was cut off from. -/
theorem Session.exists_run_of_sequential_endless_loop :
    let ambient : Ambient := ⟨0, "", "", fun _ => none⟩
    let engine : Engine Unit := ⟨.default, .standard ambient, ambient⟩
    let again := Step.mk (.keyword "k" []) none false none .null
    let loop := Step.mk (.while_ (.literal (.bool true)) [again] none) none false none .null
    let fresh := Session.start ⟨[("k", ⟨"k", [], [loop], none, none⟩)], []⟩ ()
    let inner := Runner.parallel engine ⟨none, none, none⟩ [fun vars =>
      .sleep 50 vars (.done (.yield .null vars))]
    let outer := Runner.parallel engine ⟨none, some false, some 10⟩ [inner]
    let later := (Machine.run 20 (outer .empty) fresh).2
    let ends := fun session : Session Unit =>
      ∃ n deeds all ending session', (∀ turns, n ≤ turns →
          Machine.run turns (engine.execute [again] .empty) session = (ending, session'))
        ∧ deeds.Sublist all ∧ session'.world = session.world.performAll all
        ∧ (session.tasks = [] → all = deeds ∧ session'.tasks = [])
        ∧ ((∃ o, ending = .finished o ∧ (engine.execute [again] .empty).Runs deeds (.done o))
          ∨ ending = .crashed .quotientOverflow
            ∧ (engine.execute [again] .empty).Runs deeds (.crash .quotientOverflow))
    ends fresh ∧ later.tasks.length = 1 ∧ ends later := by
  intro ambient engine again loop fresh inner outer later ends
  have hk : fresh.world.registry.Sequential fun name => name = "k" := by
    rintro name keyword rfl hf
    cases hf
    exact ⟨⟨rfl, ⟨rfl, trivial⟩, trivial⟩, trivial⟩
  have hs : Step.All (Action.Sequential fun name => name = "k") [again] :=
    ⟨⟨rfl, trivial⟩, trivial⟩
  have hfinishes : engine.handler.Finishes := Handler.finishes_standard ambient
  -- the earlier run has not changed the keywords
  have hempty : ∀ t ∈ fresh.tasks, t.id ≠ Machine.mainId := fun t ht => nomatch (ht : t ∈ [])
  have hknows : later.world.Knows fresh.world.registry :=
    Machine.world_run hempty (fun _ => rfl) (fun d w hw => hw.perform d) 20
  have hk' : later.world.registry.Sequential fun name => name = "k" :=
    fun name keyword hn hf => hk name keyword hn ((hknows name).symm.trans hf)
  have hleft : later.tasks.length = 1
      ∧ (later.tasks.all fun t => t.id != Machine.mainId) = true := by
    subst later outer inner fresh loop again engine ambient
    decide +kernel
  have hready : Session.Ready later := .inr ⟨⟨_, .run .start hempty 20 _⟩, fun t ht =>
    bne_iff_ne.mp (List.all_eq_true.mp hleft.2 t ht)⟩
  exact ⟨Session.exists_run_of_sequential hfinishes (.inl rfl) hk hs .empty, hleft.1,
    Session.exists_run_of_sequential hfinishes hready hk' hs .empty⟩

end Playbook
