import Playbook.Proofs.Run.Balance
import Playbook.Proofs.Run.Termination

/-!
# Events and log tell the same story

What a step does to the world in the beginning and in the end, an observer is told
by two events, and the end goes into the log unless it is one of a control step. So the
events of deeds in brackets are in brackets themselves (`StepEvent.Nested`), and
the entries of the log are those steps that ended (`Deed.ended?`), in the same order and
with the same data.

In a session in which nothing else is under way a sequential run does its deeds alone, so
that is also what the history and the log of the session grow by (`Session.log_of_history`).
An operation that an earlier run was cut off from may still be under way, though, and then its
steps are told of in between (`Session.log_with_late_steps`).

Which answers a handler comes to does not matter, and if it crashes, the run is none that has
ended. That it does not write into the log or tell the observer of anything is not an
assumption here either, but only because a `Handling` cannot express it.
-/

namespace Playbook

variable {σ : Type}

/-- A step that has ended. -/
structure StepEnd where
  step : Step
  index : Nat
  depth : Nat
  result : Except Failure Value

namespace StepEnd

/-- What is told of the step in the log. -/
def record (e : StepEnd) : StepRecord :=
  ⟨e.index, e.depth, e.step.action.kind, e.step.describe, e.result⟩

/-- What an observer is told of the end of the step, in the words of the log. -/
def event (e : StepEnd) : StepEvent :=
  .finished e.record.index e.record.depth e.record.label e.record.success

end StepEnd

namespace StepEvent

/-- Whether an event tells of the end of a step. -/
def isFinished : StepEvent → Bool
  | started _ _ _ => false
  | finished _ _ _ _ => true

/-- **Events in brackets.** Each step that has started is closed by one event with the same
position, depth and label, and the events in between are in brackets themselves. -/
inductive Nested : List StepEvent → Prop
  | nil : Nested []
  | step {index depth : Nat} {label : String} {success : Bool}
      {inner rest : List StepEvent} (hi : Nested inner) (hr : Nested rest) :
      Nested (.started index depth label ::
        (inner ++ .finished index depth label success :: rest))

end StepEvent

namespace Deed

/-- The event that a deed is. -/
def event? : Deed σ → Option StepEvent
  | start step index depth => some (.started index depth step.describe)
  | finish step index depth result _ => some (StepEnd.mk step index depth result).event
  | _ => none

/-- The step that ends with a deed. -/
def ended? : Deed σ → Option StepEnd
  | finish step index depth result _ => some ⟨step, index, depth, result⟩
  | _ => none

/-- Whether a deed is one of a task whose ends of steps are logged as the engine says. -/
def LogsAs (engine : Engine σ) : Deed σ → Prop
  | finish step _ _ _ logged => logged = engine.logs step
  | _ => True

theorem event?_of_isAside {d : Deed σ} (h : d.isAside = true) : d.event? = none := by
  cases d with
  | start | finish => cases h
  | visit | measure | own | look | time => rfl

/-- The events of ends of steps are those of the steps that ended. -/
theorem filter_isFinished (deeds : List (Deed σ)) :
    (deeds.filterMap event?).filter StepEvent.isFinished
      = (deeds.filterMap ended?).map StepEnd.event := by
  induction deeds with
  | nil => rfl
  | cons d rest ih =>
    cases d with
    | visit | start | measure | own | look | time => exact ih
    | finish => exact congrArg _ ih

end Deed

namespace Engine.Balanced

variable {engine : Engine σ} {deeds : List (Deed σ)}

/-- **The events of deeds in brackets are in brackets.** -/
theorem nested (h : engine.Balanced deeds) : StepEvent.Nested (deeds.filterMap Deed.event?) := by
  induction h with
  | nil => exact .nil
  | aside h _ ih =>
    rw [List.filterMap_cons_none (Deed.event?_of_isAside h)]
    exact ih
  | step _ _ iht ihu =>
    simp only [List.filterMap_cons, List.filterMap_append, Deed.event?]
    exact .step iht ihu

theorem logsAs (h : engine.Balanced deeds) : ∀ d ∈ deeds, d.LogsAs engine := by
  induction h with
  | nil => exact nofun
  | @aside d _ h _ ih =>
    refine List.forall_mem_cons.mpr ⟨?_, ih⟩
    cases d with
    | start | finish => cases h
    | visit | measure | own | look | time => trivial
  | step _ _ iht ihu =>
    exact List.forall_mem_cons.mpr ⟨trivial, List.forall_mem_append.mpr
      ⟨iht, List.forall_mem_cons.mpr ⟨rfl, ihu⟩⟩⟩

end Engine.Balanced

namespace World

/-- A deed is told to the observer if it is an event. -/
theorem history_perform (d : Deed σ) (w : World σ) :
    (w.perform d).history = w.history ++ d.event?.toList := by
  cases d with
  | visit | measure | own | look | time => exact (List.append_nil _).symm
  | start => exact List.reverse_cons
  | finish step index depth result logged =>
    cases logged with
    | true | false => exact List.reverse_cons

/-- The end of a step goes into the log if it is logged. -/
theorem results_perform {engine : Engine σ} {d : Deed σ} (h : d.LogsAs engine)
    (w : World σ) : (w.perform d).results = w.results
      ++ (d.ended?.toList.filter fun e => engine.logs e.step).map StepEnd.record := by
  cases d with
  | visit | measure | own | start | look | time => exact (List.append_nil _).symm
  | finish step index depth result logged =>
    cases h
    let e : StepEnd := ⟨step, index, depth, result⟩
    have hf : [e].filter (fun e => engine.logs e.step) = bif engine.logs step then [e] else [] :=
      List.filter_singleton
    show _ = _ ++ (List.filter (fun e => engine.logs e.step) [e]).map StepEnd.record
    rw [hf]
    cases engine.logs step with
    | true => exact List.reverse_cons
    | false => exact (List.append_nil _).symm

/-- The history grows by the events of the deeds. -/
theorem history_performAll (deeds : List (Deed σ)) (w : World σ) :
    (w.performAll deeds).history = w.history ++ deeds.filterMap Deed.event? := by
  induction deeds generalizing w with
  | nil => exact (List.append_nil _).symm
  | cons d rest ih =>
    have hstep : (w.performAll (d :: rest)).history
        = w.history ++ d.event?.toList ++ rest.filterMap Deed.event? := by
      rw [← history_perform]
      exact ih (w.perform d)
    rw [hstep, List.append_assoc]
    cases d with
    | visit | measure | own | start | finish | look | time => rfl

/-- The log grows by the steps that ended and that are logged. -/
theorem results_performAll {engine : Engine σ} {deeds : List (Deed σ)}
    (h : ∀ d ∈ deeds, d.LogsAs engine) (w : World σ) :
    (w.performAll deeds).results = w.results
      ++ ((deeds.filterMap Deed.ended?).filter fun e => engine.logs e.step).map
        StepEnd.record := by
  induction deeds generalizing w with
  | nil => exact (List.append_nil _).symm
  | cons d rest ih =>
    obtain ⟨hd, hrest⟩ := List.forall_mem_cons.mp h
    have hstep : (w.performAll (d :: rest)).results
        = w.results ++ ((d.ended?.toList ++ rest.filterMap Deed.ended?).filter
          fun e => engine.logs e.step).map StepEnd.record := by
      rw [List.filter_append, List.map_append, ← List.append_assoc, ← results_perform hd]
      exact ih hrest (w.perform d)
    rw [hstep]
    cases d with
    | visit | measure | own | start | finish | look | time => rfl

end World

/-- **Events and log tell the same story.** Let no action of a list of steps, and of the
keywords that it calls, be a block of concurrent operations, and let the list be run in a
session without tasks until it has ended, with whatever outcome. The history has grown by
the events of its deeds, and they are in brackets. The log has grown by an entry for each
step whose end is among these events, in their order and with the data of the event, except
that the entries of assignments and returns are left out unless the settings ask for
them.

The handler may do to its own state what it likes; there is no way for it to the log or to
the observer. -/
theorem Session.log_of_history {engine : Engine σ} {names : String → Prop}
    {session session' : Session σ} (ht : session.tasks = [])
    (hk : session.world.registry.Sequential names) {steps : List Step}
    (hs : Step.All (Action.Sequential names) steps) {vars : Variables} {turns : Nat}
    {o : Outcome}
    (h : Machine.run turns (engine.execute steps vars) session = (.finished o, session')) :
    ∃ deeds, (engine.execute steps vars).Runs deeds (.done o)
      ∧ session'.world.history = session.world.history ++ deeds.filterMap Deed.event?
      ∧ StepEvent.Nested (deeds.filterMap Deed.event?)
      ∧ (deeds.filterMap Deed.event?).filter StepEvent.isFinished
        = (deeds.filterMap Deed.ended?).map StepEnd.event
      ∧ session'.world.results = session.world.results
        ++ ((deeds.filterMap Deed.ended?).filter fun e =>
            !e.step.action.isControl || engine.settings.recordControlSteps).map
          StepEnd.record := by
  have hsolo := engine.solo_execute (K := fun _ => True) trivial
    (fun call vars => (engine.handler.handle call vars).crashesOnly_any) hk hs vars
  obtain ⟨n, deeds, ending, session'', hrun, -, hw, he⟩ :=
    Machine.exists_run_of_solo hsolo (fun d w hw => hw.perform d) ht fun _ => rfl
  -- further turns do not change a run that has ended
  have hmore : Machine.run (turns + n) (engine.execute steps vars) session
      = (.finished o, session') := Machine.runTurns_add h nofun n
  obtain ⟨rfl, rfl⟩ := Prod.mk.inj ((hrun _ (Nat.le_add_left n turns)).symm.trans hmore)
  obtain ⟨o', ho, hr⟩ | ⟨c, hc, -⟩ := he
  · cases ho
    have hb := (engine.tidy_execute steps vars).balanced hr
    refine ⟨deeds, hr, ?_, hb.nested, Deed.filter_isFinished deeds, ?_⟩
    · rw [hw]
      exact World.history_performAll deeds _
    · rw [hw]
      exact World.results_performAll hb.logsAs _
  · cases hc

/-- A keyword whose `return` is passed on through a `try`, called by a step that has a
variable for its value: the events of the call are in brackets, and its `return` is not
logged. -/
theorem Session.log_of_history_return :
    let ambient : Ambient := ⟨0, "", "", fun _ => none⟩
    let engine : Engine Unit := ⟨.default, .standard ambient, ambient⟩
    let leaves := Step.mk (.return_ (.bool true)) none false none .null
    let asks := Step.mk (.ifElse (.literal (.bool false)) [leaves] []) none false none .null
    let tries := Step.mk (.try_ [leaves] none [asks] "error") none false none .null
    let call := Step.mk (.keyword "k" []) (some "v") false none .null
    let session := Session.start ⟨[("k", ⟨"k", [], [tries, asks], none, none⟩)], []⟩ ()
    let run := Machine.run 10 (engine.execute [call] .empty) session
    ∃ o, run.1 = .finished o
      ∧ run.2.world.results.map StepRecord.kind = ["if", "try", "keyword"]
      ∧ ∃ deeds, (engine.execute [call] .empty).Runs deeds (.done o)
      ∧ run.2.world.history = session.world.history ++ deeds.filterMap Deed.event?
      ∧ StepEvent.Nested (deeds.filterMap Deed.event?)
      ∧ (deeds.filterMap Deed.event?).filter StepEvent.isFinished
        = (deeds.filterMap Deed.ended?).map StepEnd.event
      ∧ run.2.world.results = session.world.results
        ++ ((deeds.filterMap Deed.ended?).filter fun e =>
            !e.step.action.isControl || engine.settings.recordControlSteps).map
          StepEnd.record := by
  intro ambient engine leaves asks tries call session run
  have hasks : asks.AllOne (Action.Sequential fun name => name = "k") :=
    ⟨rfl, ⟨⟨rfl, trivial⟩, trivial⟩, trivial⟩
  have hk : session.world.registry.Sequential fun name => name = "k" := by
    rintro name keyword rfl hf
    cases hf
    exact ⟨⟨rfl, ⟨⟨rfl, trivial⟩, trivial⟩, trivial, hasks, trivial⟩, hasks, trivial⟩
  have hs : Step.All (Action.Sequential fun name => name = "k") [call] :=
    ⟨⟨rfl, trivial⟩, trivial⟩
  have hend : (match run.1 with
      | .finished _ => true
      | _ => false) = true := by
    subst run session call tries asks leaves engine ambient
    decide +kernel
  have hkinds : run.2.world.results.map StepRecord.kind = ["if", "try", "keyword"] := by
    subst run session call tries asks leaves engine ambient
    decide +kernel
  obtain ⟨o, ho⟩ : ∃ o, run.1 = .finished o := by
    split at hend
    · exact ⟨_, ‹_›⟩
    · cases hend
  exact ⟨o, ho, hkinds, Session.log_of_history rfl hk hs (Prod.ext ho rfl)⟩

/-- Half of the events in brackets are ends. -/
theorem StepEvent.Nested.length_eq {events : List StepEvent} (h : Nested events) :
    events.length = 2 * events.countP isFinished := by
  induction h with
  | nil => rfl
  | step _ _ ihi ihr =>
    simp only [List.length_cons, List.length_append, List.countP_cons, List.countP_append,
      isFinished, Bool.false_eq_true, if_true, if_false]
    omega

/-- **Where an operation is still under way that an earlier run was cut off from**, its steps
are told of in between. Here an earlier run has given up an operation that waits for a block
of its own. Then a pause by itself is run: the events while it is run are not in brackets, and
the log grows by four entries. -/
theorem Session.log_with_late_steps :
    let ambient : Ambient := ⟨0, "", "", fun _ => none⟩
    let engine : Engine Unit := ⟨.default, .standard ambient, ambient⟩
    let step := fun action => Step.mk action none false none .null
    let late := step (.ifElse (.literal (.bool true))
      [step (.domain "sleep" (.nat 50) []), step (.domain "log" (.text "late") [])] [])
    let outer := step (.parallel [step (.parallel [late] ⟨none, none, none⟩)]
      ⟨none, some false, some 10⟩)
    let pause := step (.domain "sleep" (.nat 100) [])
    let before := (Machine.run 100 (engine.execute [outer] .empty)
      (Session.start ⟨[], []⟩ ())).2
    let run := Machine.run 100 (engine.execute [pause] .empty) before
    let told := [.started 1 0 "sleep", .finished 1 0 "sleep" true, .started 2 0 "log",
      .finished 2 0 "log" true, .finished 1 0 "if" true, .finished 1 0 "sleep" true]
    before.world.registry.Sequential (fun _ => False)
      ∧ Step.All (Action.Sequential fun _ => False) [pause]
      ∧ run.1.value?.isSome = true
      ∧ run.2.world.history = before.world.history ++ told
      ∧ ¬ StepEvent.Nested told
      ∧ run.2.world.results.map StepRecord.kind
        = before.world.results.map StepRecord.kind ++ ["domain", "domain", "if", "domain"] := by
  intro ambient engine step late outer pause before run told
  have hrun : run.1.value?.isSome = true ∧ run.2.world.history = before.world.history ++ told
      ∧ run.2.world.results.map StepRecord.kind
        = before.world.results.map StepRecord.kind ++ ["domain", "domain", "if", "domain"] := by
    subst run before told pause outer late step engine ambient
    decide +kernel
  refine ⟨fun _ _ hname => hname.elim, ⟨⟨rfl, trivial⟩, trivial⟩, hrun.1, hrun.2.1,
    fun h => ?_, hrun.2.2⟩
  cases h.length_eq

end Playbook
