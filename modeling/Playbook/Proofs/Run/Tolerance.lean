import Playbook.Proofs.Process.Schedule
import Playbook.Proofs.Run.Numbering
import Playbook.Report

/-!
# Going on after a failure

A scenario that goes on after a failure is run step by step, and one that does not is run as one
list of steps. Up to the first failure the two are the same: a step that is run by itself goes on
where the one before has ended, and so does the next step of a list
(`Scenario.playTolerant_of_run`). Behind the failure the log, the events and the failures only grow
(`Scenario.lasts`).

So a scenario without data that has no failure has the same report either way, and one that fails
has a report that begins with what it comes to when it does not go on (`Scenario.play_tolerant`).
There is one way to lose that report. A later step may break the run off, since it crashes, and
what has been reported by then is lost (`Scenario.play_tolerant_lost`).
-/

namespace Playbook

variable {σ : Type}

namespace Play

variable {α β : Type}

/-- What is done behind something else that has come to an end. -/
theorem bind_of_ok {x : Play σ α} {f : α → Play σ β} {session session' : Session σ} {a : α}
    (h : x session = (.ok a, session')) : (x >>= f) session = f a session' :=
  congrArg (fun y : Except Abort α × Session σ => ExceptT.bindCont f y.1 y.2) h

/-- Nothing is done behind something that is broken off. -/
theorem bind_of_error {x : Play σ α} {f : α → Play σ β} {session session' : Session σ} {a : Abort}
    (h : x session = (.error a, session')) : (x >>= f) session = (.error a, session') :=
  congrArg (fun y : Except Abort α × Session σ => ExceptT.bindCont f y.1 y.2) h

/-- A run that ends within the turns that it is given. -/
theorem run_of_finished {r : Runner σ} {vars : Variables} {session session' : Session σ}
    {o : Outcome} {turns : Nat} (h : Machine.run turns (r vars) session = (.finished o, session'))
    (ht : turns ≤ Session.turnLimit) : Play.run r vars session = (.ok o, session') := by
  unfold Play.run ExceptT.mk
  dsimp only
  rw [Machine.run_of_le h ht]

theorem finished_of_run {r : Runner σ} {vars : Variables} {session session' : Session σ}
    {o : Outcome} (h : Play.run r vars session = (.ok o, session')) :
    Machine.run Session.turnLimit (r vars) session = (.finished o, session') := by
  unfold Play.run ExceptT.mk at h
  dsimp only at h
  generalize Machine.run Session.turnLimit (r vars) session = x at h ⊢
  obtain ⟨_ | _ | _, _⟩ := x
  · cases h
    rfl
  · cases h
  · cases h

end Play

/-! ## Sessions between lists of steps -/

/-- **A world after another**, with all that has been logged and told in that one. -/
structure World.Later (w w' : World σ) : Prop where
  results : w.results <+: w'.results
  history : w.history <+: w'.history

namespace World.Later

variable {w w' w'' : World σ}

theorem refl (w : World σ) : w.Later w :=
  ⟨List.prefix_refl _, List.prefix_refl _⟩

theorem trans (h : w.Later w') (h' : w'.Later w'') : w.Later w'' :=
  ⟨h.results.trans h'.results, h.history.trans h'.history⟩

theorem emit (event : StepEvent) (w : World σ) : w.Later (w.emit event) :=
  ⟨List.prefix_refl _, List.reverse_prefix.mpr (List.suffix_cons event w.events)⟩

theorem record (entry : StepRecord) (w : World σ) : w.Later (w.record entry) :=
  ⟨List.reverse_prefix.mpr (List.suffix_cons entry w.log), List.prefix_refl _⟩

/-- Nothing is forgotten by what is done. -/
theorem perform (deed : Deed σ) (w : World σ) : w.Later (w.perform deed) := by
  cases deed with
  | visit | measure | own | look | time => exact ⟨List.prefix_refl _, List.prefix_refl _⟩
  | start step index depth => exact emit _ w
  | finish step index depth outcome logged =>
    unfold World.perform
    dsimp only
    split
    · exact (emit _ w).trans (record _ _)
    · exact emit _ w

end World.Later

namespace Session

/-- **A session in which no list of steps is under way.** -/
structure Free (session : Session σ) : Prop where
  idle : session.Idle
  sound : session.Obeys (fun _ => True) (fun _ => True) fun _ => True

theorem free_start (registry : Registry) (own : σ) : (start registry own).Free :=
  ⟨Machine.idle_ofWorld _, Machine.obeys_ofWorld trivial⟩

/-- A session is free again after a run that has ended, and nothing is forgotten. -/
theorem Free.of_run {session session' : Session σ} (h : session.Free) {turns : Nat} {p : Task σ}
    {o : Outcome} (hr : Machine.run turns p session = (.finished o, session')) :
    session'.Free ∧ session.world.Later session'.world := by
  have hidle := Machine.run_andThen h.idle p .done turns
  rw [hr] at hidle
  have hobeys : session'.Obeys (fun _ => True) (fun _ => True) session.world.Later := by
    have hs := Machine.schedule_run (P := fun _ => True) trivial turns session (p := p)
    rw [hr] at hs
    exact .schedule (fun d w _ hw => hw.trans (World.Later.perform d w))
      (fun _ _ => ⟨fun _ _ => trivial, fun _ _ _ => trivial⟩)
      ⟨World.Later.refl _, h.sound.serial, h.sound.main, h.sound.tasks, h.sound.blocks⟩ hs
  exact ⟨⟨hidle.1, trivial, hobeys.serial, hobeys.main, hobeys.tasks, hobeys.blocks⟩, hobeys.world⟩

end Session

namespace Scenario

variable {engine : Engine σ}

/-! ## Up to the first failure -/

theorem playTolerant_cons (engine : Engine σ) (index : Nat) (ran : Ran) (step : Step)
    (rest : List Step) {session session' : Session σ} {o : Outcome}
    (h : Play.run (engine.executeStep step index) ran.vars session = (.ok o, session')) :
    playTolerant engine index ran (step :: rest) session = (match o.result with
      | .ok (.continue v) =>
        playTolerant engine (index + 1) { ran with value := v, vars := o.vars } rest
      | .ok (.return v) =>
        pure { ran with value := v, failures := ran.failures.reverse, vars := o.vars }
      | .error f => playTolerant engine (index + 1) { ran with
          failures := .ofFailure (.inStep index f) :: ran.failures, vars := o.vars } rest)
        session' := by
  refine (Play.bind_of_ok h).trans ?_
  obtain ⟨_ | _ | _, vars, attempts⟩ := o
  · rfl
  · rfl
  · rfl

/-- **What a list of steps comes to when it goes on after its first failure**, by what it comes to
when it does not. `ran` is how the steps before have come out. If the list ends with a value, it
makes no difference. If it ends with a failure, the steps behind go on in the session
that the failure has left, and it is among the failures. -/
theorem playTolerant_of_run {steps : List Step} {index turns : Nat} (ran : Ran)
    {session session' : Session σ} {o : Outcome} (h : session.Free)
    (ht : turns ≤ Session.turnLimit)
    (hr : Machine.run turns (engine.executeFrom index ran.value steps ran.vars) session
      = (.finished o, session')) :
    match o.result with
    | .ok flow => playTolerant engine index ran steps session
      = (.ok { ran with
          value := flow.value, failures := ran.failures.reverse, vars := o.vars }, session')
    | .error f => session'.Free ∧ ∃ before rest ran', steps = before ++ rest
      ∧ (∀ rest, playTolerant engine index ran (before ++ rest) session
        = playTolerant engine (index + before.length) ran' rest session')
      ∧ ran'.failures = .ofFailure f :: ran.failures := by
  induction steps generalizing index turns ran session with
  | nil =>
    obtain ⟨rfl, rfl⟩ := Machine.finished_of_run_done h.idle hr
    rfl
  | cons step rest ih =>
    rw [engine.executeFrom_cons] at hr
    obtain ⟨b, session₁, left, hb, hle, hrest⟩ := Machine.finished_of_run_andThen h.idle hr
    have hfree := (h.of_run hb).1
    have hstep := fun rest =>
      playTolerant_cons engine index ran step rest (Play.run_of_finished hb ht)
    obtain ⟨f | ⟨v⟩ | v, vars, attempts⟩ := b
    -- the list ends here, and the steps behind are still to be run
    · obtain ⟨rfl, rfl⟩ := Machine.finished_of_run_done hfree.idle hrest
      exact ⟨hfree, [step], rest, _, rfl, hstep, rfl⟩
    · have hbehind := ih { ran with value := v, vars := vars } hfree (Nat.le_trans hle ht) hrest
      split at hbehind
      · exact (hstep rest).trans hbehind
      · obtain ⟨hfree', before, rest, ran', rfl, he, hran⟩ := hbehind
        refine ⟨hfree', step :: before, rest, ran', rfl, fun rest => (hstep _).trans ?_, hran⟩
        rw [List.length_cons, Nat.add_comm before.length, ← Nat.add_assoc]
        exact he rest
    · obtain ⟨rfl, rfl⟩ := Machine.finished_of_run_done hfree.idle hrest
      exact hstep rest

/-! ## Behind a failure -/

/-- **Nothing is forgotten** by steps that are run one after the other: neither what has been logged
and told in `w`, before them, nor the failures in `ran`. -/
def ForgetsNothing (ran : Ran) (w : World σ) : Except Abort Ran × Session σ → Prop
  | (.ok ran', session') => w.Later session'.world ∧ ran.failures.reverse <+: ran'.failures
  | (.error _, _) => False

theorem ForgetsNothing.before {ran ran₁ : Ran} {w w₁ : World σ} {x : Except Abort Ran × Session σ}
    (h : ForgetsNothing ran₁ w₁ x) (hw : w.Later w₁)
    (hf : ran.failures.reverse <+: ran₁.failures.reverse) : ForgetsNothing ran w x := by
  obtain ⟨_ | ran', session'⟩ := x
  · exact h
  · exact ⟨hw.trans h.1, hf.trans h.2⟩

/-- **Steps that go on after a failure forget nothing**, or one of them breaks the run off. That one
does so whatever comes behind it, and the steps before it forget nothing. -/
def Lasts (engine : Engine σ) (index : Nat) (ran : Ran) (session : Session σ)
    (steps : List Step) : Prop :=
  ForgetsNothing ran session.world (playTolerant engine index ran steps session)
  ∨ ∃ before step after a session', steps = before ++ step :: after
    ∧ ForgetsNothing ran session.world (playTolerant engine index ran before session)
    ∧ ∀ after, playTolerant engine index ran (before ++ step :: after) session
      = (.error a, session')

/-- A step before the others, which has come to `ran₁`. -/
theorem Lasts.cons {index : Nat} {ran ran₁ : Ran} {session session₁ : Session σ} {step : Step}
    {rest : List Step} (h : Lasts engine (index + 1) ran₁ session₁ rest)
    (hlater : session.world.Later session₁.world)
    (hf : ran.failures.reverse <+: ran₁.failures.reverse)
    (hgo : ∀ rest, playTolerant engine index ran (step :: rest) session
      = playTolerant engine (index + 1) ran₁ rest session₁) :
    Lasts engine index ran session (step :: rest) := by
  obtain hkept | ⟨before, broken, after, a, session', rfl, hkept, hlost⟩ := h
  · refine .inl ?_
    rw [hgo]
    exact hkept.before hlater hf
  · refine .inr ⟨step :: before, broken, after, a, session', rfl, ?_, fun after => ?_⟩
    · rw [hgo]
      exact hkept.before hlater hf
    · exact (hgo _).trans (hlost after)

theorem lasts (steps : List Step) (index : Nat) (ran : Ran) {session : Session σ}
    (h : session.Free) : Lasts engine index ran session steps := by
  induction steps generalizing index ran session with
  | nil => exact .inl ⟨.refl _, List.prefix_refl _⟩
  | cons step rest ih =>
    generalize hx : Play.run (engine.executeStep step index) ran.vars session = x
    obtain ⟨a | b, session₁⟩ := x
    · exact .inr ⟨[], step, rest, a, session₁, rfl, ⟨.refl _, List.prefix_refl _⟩,
        fun _ => Play.bind_of_error hx⟩
    · obtain ⟨hfree, hlater⟩ := h.of_run (Play.finished_of_run hx)
      have hstep := fun rest => playTolerant_cons engine index ran step rest hx
      obtain ⟨f | ⟨v⟩ | v, vars, attempts⟩ := b
      · exact (ih _ _ hfree).cons hlater (List.reverse_prefix.mpr (List.suffix_cons _ _)) hstep
      · exact (ih _ { ran with value := v, vars := vars } hfree).cons hlater (List.prefix_refl _)
          hstep
      · refine .inl ?_
        rw [hstep]
        exact ⟨hlater, List.prefix_refl _⟩

/-! ## The two ways to run a scenario -/

variable {libraries : List Library} {files : Files} {base : Option String} {own : σ}

/-- The report of steps, by how they have come out. -/
def reported (name : String) : Except Abort Ran × Session σ →
    Except Abort (Except SetupError Report × List StepEvent)
  | (.error a, _) => .error a
  | (.ok ran, session) => .ok (.ok ⟨name, ran.value, ran.error, ran.failures,
      session.world.results, session.world.metrics.summaries, ran.rows, ran.vars.globals,
      session.now⟩, session.world.history)

/-- **A scenario without data that has a report gets to its steps**, in a session that is free, and
the report is made of how these come out. How they are run and which they are makes no
difference. -/
theorem exists_playSteps {s : Scenario} (hd : s.data = none) {goesOn : Bool} {report : Report}
    {events : List StepEvent}
    (h : { s with continueOnError := goesOn }.play engine libraries files base own
      = .ok (.ok report, events)) :
    ∃ vars session, session.Free ∧ ∀ goesOn steps,
      { s with continueOnError := goesOn, steps := steps }.play engine libraries files base own
        = reported s.name (playSteps engine
          { s with continueOnError := goesOn, steps := steps } none vars session) := by
  obtain ⟨name, description, settings, keywords, data, _, steps⟩ := s
  cases hd
  unfold play at h ⊢
  dsimp only at h ⊢
  -- the keywords and the variables do not depend on the steps
  generalize registerAll (.ofLibraries libraries) keywords = registered at h ⊢
  obtain _ | registry := registered
  · cases h
  dsimp only at h ⊢
  generalize setAll engine .empty settings = set at h ⊢
  obtain _ | vars := set
  · cases h
  refine ⟨vars, _, Session.free_start registry own, fun goesOn steps => ?_⟩
  dsimp only [Option.mapM_none, pure, Except.pure]
  generalize playSteps engine _ none vars (Session.start registry own) = x
  obtain ⟨_ | _, _⟩ := x
  · rfl
  · rfl

/-- A scenario that does not go on after a failure runs its steps as one list. -/
theorem playSteps_plain (engine : Engine σ) (s : Scenario) (vars : Variables)
    (session : Session σ) :
    playSteps engine { s with continueOnError := false } none vars session
      = match Play.run (engine.execute s.steps) vars session with
        | (.ok ⟨.ok flow, there, _⟩, session') =>
          (.ok ⟨flow.value, none, [], none, there⟩, session')
        | (.ok ⟨.error f, there, _⟩, session') =>
          (.ok ⟨.null, some (.ofFailure f), [], none, there⟩, session')
        | (.error a, session') => (.error a, session') := by
  generalize hx : Play.run (engine.execute s.steps) vars session = x
  obtain ⟨_ | ⟨_ | _, _, _⟩, _⟩ := x
  · exact Play.bind_of_error hx
  · exact Play.bind_of_ok hx
  · exact Play.bind_of_ok hx

/-- A scenario that goes on after a failure runs its steps one by one. -/
theorem playSteps_tolerant (engine : Engine σ) (s : Scenario) (vars : Variables) :
    playSteps engine { s with continueOnError := true } none vars
      = playTolerant engine 1 ⟨.null, none, [], none, vars⟩ s.steps :=
  rfl

/-- **What a scenario comes to that goes on after the failure `e`**, where `plain` is its report
when it does not: it has a report too, with a log that begins as that of the other, and this failure
is its first. -/
def GoesOn (plain : Report) (events : List StepEvent) (e : ReportedFailure) :
    Except Abort (Except SetupError Report × List StepEvent) → Prop
  | .ok (.ok report, events') => plain.steps <+: report.steps ∧ events <+: events'
    ∧ report.success = false ∧ report.failures.head? = some e
  | _ => False

theorem ForgetsNothing.goesOn {ran : Ran} {w : World σ} {x : Except Abort Ran × Session σ}
    (h : ForgetsNothing ran w x) {plain : Report} {e : ReportedFailure} (name : String)
    (hs : plain.steps = w.results) (hf : ran.failures = [e]) :
    GoesOn plain w.history e (reported name x) := by
  obtain ⟨_ | ran', session'⟩ := x
  · exact h
  · obtain ⟨hlater, later, hlater'⟩ := h
    rw [hf] at hlater'
    have hfirst : ran'.failures = e :: later := hlater'.symm
    refine ⟨hs ▸ hlater.results, hlater.history, ?_, ?_⟩
    · show (_ && ran'.failures.isEmpty) = false
      rw [hfirst]
      exact Bool.and_false _
    · show ran'.failures.head? = _
      rw [hfirst]
      rfl

/-- **Going on after a failure changes nothing before it.** Here is a scenario without data and its
report when it does not go on after a failure. If that report has no failure, the scenario has the
same report when it does go on. If it has one, the scenario goes on after that failure, unless one
of the later steps breaks the run off; and up to that step it goes on. -/
theorem play_tolerant (engine : Engine σ) (libraries : List Library) (files : Files)
    (base : Option String) (own : σ) {s : Scenario} (hd : s.data = none)
    {plain : Report} {events : List StepEvent}
    (h : { s with continueOnError := false }.play engine libraries files base own
      = .ok (.ok plain, events)) :
    (plain.error = none → plain.success = true ∧ plain.failures = []
      ∧ { s with continueOnError := true }.play engine libraries files base own
        = .ok (.ok plain, events))
    ∧ ∀ e, plain.error = some e →
      GoesOn plain events e
        ({ s with continueOnError := true }.play engine libraries files base own)
      ∨ ∃ before step after a, s.steps = before ++ step :: after
        ∧ GoesOn plain events e ({ s with continueOnError := true, steps := before }.play engine
          libraries files base own)
        ∧ ∀ after, { s with continueOnError := true, steps := before ++ step :: after }.play engine
          libraries files base own = .error a := by
  obtain ⟨vars, session, hfree, hplay⟩ := exists_playSteps hd h
  rw [hplay, playSteps_plain] at h
  generalize hrun : Play.run (engine.execute s.steps) vars session = x at h
  obtain ⟨a | o, session'⟩ := x
  · cases h
  have hsame := playTolerant_of_run ⟨.null, none, [], none, vars⟩ hfree (Nat.le_refl _)
    (Play.finished_of_run hrun)
  obtain ⟨f | flow, there, attempts⟩ := o
  · obtain ⟨hfree', early, late, ran', hsteps, hgo, hf⟩ := hsame
    cases h
    refine ⟨nofun, fun e he => ?_⟩
    cases he
    -- `early` are the steps up to the failure, and `late` are those behind it
    have hgo := fun rest => (hplay true (early ++ rest)).trans (congrArg _ (hgo rest))
    rw [hsteps]
    obtain hkept | ⟨before, step, after, a, session'', rfl, hkept, hlost⟩ :=
      lasts late (1 + early.length) ran' hfree'
    · refine .inl ?_
      rw [hgo]
      exact hkept.goesOn _ rfl hf
    · refine .inr ⟨early ++ before, step, after, a, ?_, ?_, fun after => ?_⟩
      · rw [List.append_assoc]
      · rw [hgo]
        exact hkept.goesOn _ rfl hf
      · rw [List.append_assoc, hgo, hlost]
        rfl
  · cases h
    refine ⟨fun _ => ⟨rfl, rfl, ?_⟩, nofun⟩
    rw [hplay, playSteps_tolerant, hsame]
    rfl

/-- The failure that ended a run, if it has a report. -/
def failure? : Except Abort (Except SetupError Report × List StepEvent) → Option ReportedFailure
  | .ok (.ok report, _) => report.error
  | _ => none

theorem exists_of_failure? {y : Except Abort (Except SetupError Report × List StepEvent)}
    (h : (failure? y).isSome = true) :
    ∃ report events e, y = .ok (.ok report, events) ∧ report.error = some e := by
  obtain _ | ⟨_ | report, events⟩ := y
  · cases h
  · cases h
  · obtain ⟨e, he⟩ := Option.isSome_iff_exists.mp h
    exact ⟨report, events, e, rfl, he⟩

/-- The crash that a run was broken off by. -/
def crash? : Except Abort (Except SetupError Report × List StepEvent) → Option Crash
  | .error (.crash c) => some c
  | _ => none

theorem exists_of_crash? {y : Except Abort (Except SetupError Report × List StepEvent)}
    (h : (crash? y).isSome = true) : ∃ c, y = .error (.crash c) := by
  obtain (c | _) | _ := y
  · exact ⟨c, rfl⟩
  · cases h
  · cases h

/-- A scenario of two steps, the first of which has no known action, goes on with the second. -/
theorem play_tolerant_unknown_action :
    let ambient : Ambient := ⟨0, "", "", fun _ => none⟩
    let engine : Engine Unit := ⟨.default, .standard ambient, ambient⟩
    let files : Files := ⟨fun _ => .error .notFound⟩
    let unknown := Step.mk (.domain "transfer" .null []) none false none .null
    let echoes := Step.mk (.domain "echo" (.text "second") []) none false none .null
    let s : Scenario := ⟨"s", none, [], [], none, true, [unknown, echoes]⟩
    ∃ plain events e, s.data = none
      ∧ { s with continueOnError := false }.play engine [] files none () = .ok (.ok plain, events)
      ∧ plain.error = some e
      ∧ GoesOn plain events e
        ({ s with continueOnError := true }.play engine [] files none ()) := by
  intro ambient engine files unknown echoes s
  have hplayed : ({ s with continueOnError := true }.play engine [] files none ()).isOk = true := by
    decide +kernel
  obtain ⟨plain, events, e, hplain, he⟩ := exists_of_failure?
    (y := { s with continueOnError := false }.play engine [] files none ()) (by decide +kernel)
  refine ⟨plain, events, e, rfl, hplain, he, ?_⟩
  obtain hgoes | ⟨before, step, after, a, hsteps, -, hlost⟩ :=
    (play_tolerant engine [] files none () rfl hplain).2 e he
  · exact hgoes
  · have h := hlost after
    rw [← hsteps] at h
    rw [h] at hplayed
    cases hplayed

/-- **A later step that crashes takes the report with it.** A step with no known action fails, and
the next one divides the least integer by minus one: the scenario has a report with that failure
when it does not go on, and no report when it does. -/
theorem play_tolerant_lost :
    let ambient : Ambient := ⟨0, "", "", fun _ => none⟩
    let engine : Engine Unit := ⟨.default, .standard ambient, ambient⟩
    let files : Files := ⟨fun _ => .error .notFound⟩
    let unknown := Step.mk (.domain "nosuch" (.int 1) []) none false none
      (.record [("nosuch", .int 1)])
    let divides := Step.mk (.domain "echo" (.text "\x7b\x7bsmall / -1\x7d\x7d") []) none false none
      (.record [("echo", .text "\x7b\x7bsmall / -1\x7d\x7d")])
    let s : Scenario :=
      ⟨"s", none, [("small", .int (-9223372036854775808))], [], none, true, [unknown, divides]⟩
    (∃ plain events e, { s with continueOnError := false }.play engine [] files none ()
        = .ok (.ok plain, events) ∧ plain.error = some e)
      ∧ ∃ c, { s with continueOnError := true }.play engine [] files none ()
        = .error (.crash c) := by
  intro ambient engine files unknown divides s
  refine ⟨exists_of_failure? (by decide +kernel), ?_⟩
  exact exists_of_crash? (by decide +kernel)

end Scenario

end Playbook
