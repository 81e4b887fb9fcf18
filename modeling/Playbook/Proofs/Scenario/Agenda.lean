import Playbook.Proofs.Run.Overflow
import Playbook.Proofs.Run.Rows

/-!
# Scenarios as agendas

A scenario is run as one list of steps, or step by step if it goes on after failures, or row by row
if it has data. In each case lists of steps are run one after the other in a session, and what the
runs before have come to decides which one is next, and with which variables. An agenda tells just
that (`Agenda`), and a scenario plays its agenda (`Scenario.playSteps_eq`).

In a session every run is given a great number of turns, but some number. An agenda can be played
with any number of turns for each run. The main statement here is `Agenda.exists_play`: with
sufficiently many turns it comes to its end, with the outcomes of its runs one after the other
(`Agenda.Comes`), or a run crashes, and more turns change nothing.
-/

namespace Playbook

variable {σ α β : Type}

/-- What a play goes on with behind a run, or why it is broken off. -/
def Machine.Ending.played : Machine.Ending Outcome Crash → Except Abort Outcome
  | finished o => .ok o
  | crashed c => .error (.crash c)
  | unfinished => .error .endless

namespace Play

/-- Runs a runner with given variables, within a number of turns. -/
def runWithin (turns : Nat) (r : Runner σ) (vars : Variables) : Play σ Outcome :=
  ExceptT.mk fun session =>
    let x := Machine.run turns (r vars) session
    (x.1.played, x.2)

theorem runWithin_of_eq {turns : Nat} {r : Runner σ} {vars : Variables}
    {session session' : Session σ} {e : Machine.Ending Outcome Crash}
    (h : Machine.run turns (r vars) session = (e, session')) :
    runWithin turns r vars session = (e.played, session') :=
  congrArg (fun x : Machine.Ending Outcome Crash × Session σ => (x.1.played, x.2)) h

theorem run_eq (r : Runner σ) (vars : Variables) :
    Play.run r vars = runWithin Session.turnLimit r vars := by
  funext session
  unfold Play.run runWithin ExceptT.mk
  dsimp only
  generalize Machine.run Session.turnLimit (r vars) session = x
  obtain ⟨_ | _ | _, _⟩ := x <;> rfl

end Play

/-- **Runs one after the other.** The outcome of each run decides what comes next. -/
inductive Agenda (σ α : Type) where
  | done (a : α)
  | run (r : Runner σ) (vars : Variables) (next : Outcome → Agenda σ α)

namespace Agenda

/-- Ends with what is made of the end of an agenda. -/
def map (f : α → β) : Agenda σ α → Agenda σ β
  | done a => .done (f a)
  | run r vars next => .run r vars fun o => (next o).map f

/-- Plays an agenda in a session, each run within a number of turns. -/
def play (turns : Nat) : Agenda σ α → Play σ α
  | done a => pure a
  | run r vars next => Play.runWithin turns r vars >>= fun o => (next o).play turns

theorem play_map (turns : Nat) (f : α → β) (agenda : Agenda σ α) :
    (agenda.map f).play turns = agenda.play turns >>= fun a => pure (f a) := by
  induction agenda with
  | done a => rw [map, play, play, pure_bind]
  | run r vars next ih =>
    rw [map, play, play, bind_assoc]
    exact congrArg (Play.runWithin turns r vars >>= ·) (funext ih)

/-- **What an agenda comes to** in a session, with the outcomes of its runs. -/
inductive Comes : Agenda σ α → Session σ → List Outcome → α → Session σ → Prop
  | done (a : α) (session : Session σ) : Comes (.done a) session [] a session
  | run {r : Runner σ} {vars : Variables} {next : Outcome → Agenda σ α} {n : Nat} {o : Outcome}
      {os : List Outcome} {a : α} {session session₁ session' : Session σ}
      (hr : ∀ turns, n ≤ turns → Machine.run turns (r vars) session = (.finished o, session₁))
      (h : Comes (next o) session₁ os a session') :
      Comes (.run r vars next) session (o :: os) a session'

theorem Comes.of_map {f : α → β} {agenda : Agenda σ α} {session session' : Session σ}
    {os : List Outcome} {b : β} (h : (agenda.map f).Comes session os b session') :
    ∃ a, b = f a ∧ agenda.Comes session os a session' := by
  induction agenda generalizing session os with
  | done a =>
    cases h
    exact ⟨a, rfl, .done a _⟩
  | run r vars next ih =>
    cases h with
    | run hr h =>
      obtain ⟨a, hb, ha⟩ := ih _ h
      exact ⟨a, hb, .run hr ha⟩

/-- A condition on the tasks of all runs. -/
def Runs (P : Task σ → Prop) : Agenda σ α → Prop
  | done _ => True
  | run r vars next => P (r vars) ∧ ∀ o, (next o).Runs P

theorem Runs.map {P : Task σ → Prop} (f : α → β) {agenda : Agenda σ α} (h : agenda.Runs P) :
    (agenda.map f).Runs P := by
  induction agenda with
  | done a => trivial
  | run r vars next ih => exact ⟨h.1, fun o => ih o (h.2 o)⟩

theorem runs_any (agenda : Agenda σ α) : agenda.Runs fun _ => True := by
  induction agenda with
  | done a => trivial
  | run r vars next ih => exact ⟨trivial, ih⟩

/-! ## Playing to the end -/

/-- **What becomes of an agenda in a session**: with sufficiently many turns for each of its runs it
comes to `y`, and with any other number it does so too, or a run does not end. -/
def Becomes (agenda : Agenda σ α) (session : Session σ) (y : Except Abort α × Session σ) : Prop :=
  (∃ n, ∀ turns, n ≤ turns → agenda.play turns session = y)
    ∧ ∀ turns, agenda.play turns session = y ∨ (agenda.play turns session).1 = .error .endless

section

variable {r : Runner σ} {vars : Variables} {next : Outcome → Agenda σ α}
  {session session' : Session σ} {n : Nat}

/-- A run that does not end is the last one. -/
theorem endless_of_unfinished {turns : Nat}
    (h : (Machine.run turns (r vars) session).1 = .unfinished) :
    ((Agenda.run r vars next).play turns session).1 = .error .endless := by
  have hrun := Play.runWithin_of_eq (Prod.ext h rfl)
  exact congrArg Prod.fst (Play.bind_of_error hrun)

/-- A run that crashes breaks an agenda off. -/
theorem Becomes.crash {c : Crash}
    (h : ∀ turns, n ≤ turns → Machine.run turns (r vars) session = (.crashed c, session')) :
    (Agenda.run r vars next).Becomes session (.error (.crash c), session') := by
  have hcrashed : ∀ turns, Machine.run turns (r vars) session = (.crashed c, session') →
      (Agenda.run r vars next).play turns session = (.error (.crash c), session') :=
    fun turns hrun => Play.bind_of_error (Play.runWithin_of_eq hrun)
  refine ⟨⟨n, fun turns hle => hcrashed turns (h turns hle)⟩, fun turns => ?_⟩
  exact (Machine.run_eq_or_unfinished (h n le_rfl) nofun turns).imp (hcrashed turns)
    endless_of_unfinished

/-- A run that ends is followed by the next one. -/
theorem Becomes.run {o : Outcome} {y : Except Abort α × Session σ}
    (h : ∀ turns, n ≤ turns → Machine.run turns (r vars) session = (.finished o, session'))
    (hy : (next o).Becomes session' y) : (Agenda.run r vars next).Becomes session y := by
  have hended : ∀ turns, Machine.run turns (r vars) session = (.finished o, session') →
      (Agenda.run r vars next).play turns session = (next o).play turns session' :=
    fun turns hrun => Play.bind_of_ok (Play.runWithin_of_eq hrun)
  obtain ⟨⟨n', hn'⟩, hany⟩ := hy
  refine ⟨⟨max n n', fun turns hle => ?_⟩, fun turns => ?_⟩
  · rw [hended turns (h turns (le_of_max_le_left hle))]
    exact hn' turns (le_of_max_le_right hle)
  · obtain hrun | hrun := Machine.run_eq_or_unfinished (h n le_rfl) nofun turns
    · rw [hended turns hrun]
      exact hany turns
    · exact .inr (endless_of_unfinished hrun)

end

/-- **Every agenda comes to its end or is broken off by a crash**, with sufficiently many turns for
each of its runs. The induction is on the agenda; a run may begin while operations that an earlier
run has left behind are still under way. -/
theorem exists_play {P : Task σ → Prop} {w : World σ} {W : World σ → Prop} {K : Crash → Prop}
    (hW : ∀ (d : Deed σ) (w : World σ), W w → W (w.perform d))
    (hP : ∀ p, P p → Process.CrashesOnly W K p) {agenda : Agenda σ α} (h : agenda.Runs P)
    {session : Session σ} (ht : session.Tended P w) (hi : session.Idle) (hw : W session.world) :
    ∃ y session', agenda.Becomes session (y, session')
      ∧ ((∃ a os, y = .ok a ∧ agenda.Comes session os a session')
        ∨ ∃ c, y = .error (.crash c) ∧ K c) := by
  induction agenda generalizing session with
  | done a =>
    exact ⟨.ok a, session, ⟨⟨0, fun _ _ => rfl⟩, fun _ => .inl rfl⟩,
      .inl ⟨a, [], rfl, .done a session⟩⟩
  | run r vars next ih =>
    obtain ⟨hp, hnext⟩ := h
    have hmain : ∀ t ∈ session.tasks, t.id ≠ Machine.mainId := by
      obtain ⟨operations, hs, ho⟩ := hi.tasks
      exact fun t hm => (ho t (List.nil_append operations ▸ hs ▸ hm)).2
    obtain ⟨n, e, session₁, he, hrun⟩ := ht.exists_run hmain hp
    have hlast : Machine.runTurns n (session.begin (r vars)) = (e, session₁) := hrun n le_rfl
    cases e with
    | unfinished => exact absurd rfl he
    | crashed c =>
      refine ⟨_, _, .crash hrun, .inr ⟨c, rfl, ?_⟩⟩
      exact ht.of_crashed_run hmain hw hW (hP _ hp) (congrArg Prod.fst hlast)
    | finished o =>
      have hidle := Machine.run_andThen hi (r vars) .done n
      rw [hrun n le_rfl] at hidle
      have hended := (ht.begin hp hmain).runTurns n
      rw [hlast] at hended
      have hworld := Machine.world_run (p := r vars) hmain hw hW n
      rw [hrun n le_rfl] at hworld
      obtain ⟨y, session', hy, hends⟩ := ih o (hnext o) hended hidle.1 hworld
      refine ⟨y, session', hy.run hrun, hends.imp_left ?_⟩
      rintro ⟨a, os, hy, ha⟩
      exact ⟨a, o :: os, hy, .run hrun ha⟩

end Agenda

/-! ## The agenda of a scenario -/

/-- The passes for rows. -/
def Rows.agenda (steps : Runner σ) (keepGoing : Bool) (count index : Nat) (vars : Variables) :
    List Value → Agenda σ (Except Failure RowSummary × Variables)
  | [] => .done (.ok [], vars)
  | row :: rest => .run (pass steps count index row) vars fun o =>
    match o.result, keepGoing with
    | .error f, false => .done (.error (.inRow index f), o.vars)
    | result, _ => (agenda steps keepGoing count (index + 1) o.vars rest).map fun x =>
      (x.1.map (⟨index, result.map Flow.value⟩ :: ·), x.2)

theorem Rows.runs_agenda {P : Task σ → Prop} {steps : Runner σ} {count : Nat}
    (h : ∀ index row vars, P (pass steps count index row vars)) (keepGoing : Bool) (index : Nat)
    (vars : Variables) (rows : List Value) :
    (agenda steps keepGoing count index vars rows).Runs P := by
  induction rows generalizing index vars with
  | nil => trivial
  | cons row rest ih =>
    refine ⟨h index row vars, fun o => ?_⟩
    dsimp only
    split
    · trivial
    · exact (ih _ _).map _

theorem Rows.playFrom_eq (steps : Runner σ) (keepGoing : Bool) (count index : Nat)
    (vars : Variables) (rows : List Value) : playFrom steps keepGoing count index vars rows
      = (agenda steps keepGoing count index vars rows).play Session.turnLimit := by
  induction rows generalizing index vars with
  | nil => rfl
  | cons row rest ih =>
    rw [playFrom, Play.run_eq, agenda, Agenda.play]
    refine congrArg (Play.runWithin Session.turnLimit _ vars >>= ·) (funext fun o => ?_)
    obtain ⟨_ | _, there, attempts⟩ := o <;> cases keepGoing <;>
      first | rfl | (dsimp only; rw [ih, Agenda.play_map])

namespace Scenario

/-- The steps one after the other, going on after failures. -/
def tolerant (engine : Engine σ) (index : Nat) (ran : Ran) : List Step → Agenda σ Ran
  | [] => .done { ran with failures := ran.failures.reverse }
  | step :: rest => .run (engine.executeStep step index) ran.vars fun o =>
    let ran := { ran with vars := o.vars }
    match o.result with
    | .ok (.continue v) => tolerant engine (index + 1) { ran with value := v } rest
    | .ok (.return v) => .done { ran with value := v, failures := ran.failures.reverse }
    | .error f =>
      let failure := ReportedFailure.ofFailure (.inStep index f)
      tolerant engine (index + 1) { ran with failures := failure :: ran.failures } rest

theorem runs_tolerant {P : Task σ → Prop} {engine : Engine σ} {steps : List Step}
    (h : ∀ step ∈ steps, ∀ index vars, P (engine.executeStep step index vars)) (index : Nat)
    (ran : Ran) : (tolerant engine index ran steps).Runs P := by
  induction steps generalizing index ran with
  | nil => trivial
  | cons step rest ih =>
    obtain ⟨hstep, hrest⟩ := List.forall_mem_cons.mp h
    refine ⟨hstep index ran.vars, fun o => ?_⟩
    dsimp only
    split
    · exact ih hrest _ _
    · trivial
    · exact ih hrest _ _

theorem playTolerant_eq (engine : Engine σ) (index : Nat) (ran : Ran) (steps : List Step) :
    playTolerant engine index ran steps
      = (tolerant engine index ran steps).play Session.turnLimit := by
  induction steps generalizing index ran with
  | nil => rfl
  | cons step rest ih =>
    rw [playTolerant, Play.run_eq, tolerant, Agenda.play]
    refine congrArg (Play.runWithin Session.turnLimit _ ran.vars >>= ·) (funext fun o => ?_)
    obtain ⟨_ | ⟨_ | _⟩, there, attempts⟩ := o
    · exact ih _ _
    · exact ih _ _
    · rfl

/-- How the passes for rows have come out. -/
def Ran.ofRows (x : Except Failure RowSummary × Variables) : Ran :=
  match x.1 with
  | .ok summary => ⟨.null, none, summary.filterMap ReportedFailure.ofRow?, some summary, x.2⟩
  | .error f => ⟨.null, some (.ofFailure f), [], none, x.2⟩

/-- How a list of steps has come out. -/
def Ran.ofOutcome (o : Outcome) : Ran :=
  match o.result with
  | .ok flow => ⟨flow.value, none, [], none, o.vars⟩
  | .error f => ⟨.null, some (.ofFailure f), [], none, o.vars⟩

/-- **The agenda of a scenario**, by its data rows. -/
def agenda (engine : Engine σ) (s : Scenario) (rows : Option (List Value)) (vars : Variables) :
    Agenda σ Ran :=
  match rows, s.continueOnError with
  | some rows, goesOn =>
    (Rows.agenda (engine.execute s.steps) goesOn rows.length 0 vars rows).map Ran.ofRows
  | none, true => tolerant engine 1 ⟨.null, none, [], none, vars⟩ s.steps
  | none, false => .run (engine.execute s.steps) vars fun o => .done (.ofOutcome o)

/-- **A scenario plays its agenda.** -/
theorem playSteps_eq (engine : Engine σ) (s : Scenario) (rows : Option (List Value))
    (vars : Variables) :
    playSteps engine s rows vars = (s.agenda engine rows vars).play Session.turnLimit := by
  unfold playSteps agenda
  cases rows with
  | some rows =>
    show Rows.playFrom _ _ _ 0 vars rows >>= _ = _
    rw [Agenda.play_map, Rows.playFrom_eq]
    refine congrArg (Agenda.play Session.turnLimit _ >>= ·) (funext fun x => ?_)
    obtain ⟨_ | _, there⟩ := x <;> rfl
  | none =>
    cases s.continueOnError with
    | true => exact playTolerant_eq engine 1 _ s.steps
    | false =>
      rw [Play.run_eq]
      refine congrArg (Play.runWithin Session.turnLimit _ vars >>= ·) (funext fun o => ?_)
      obtain ⟨_ | _, there, attempts⟩ := o <;> rfl

end Scenario

end Playbook
