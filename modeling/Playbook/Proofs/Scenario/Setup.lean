import Playbook.Proofs.Scenario.Reload
import Playbook.Proofs.Scenario.Reports

/-!
# Loaded scenarios set up

A scenario that has been loaded has steps, its keywords have steps, and the names of the keywords
stand once. So all of them are registered, and each stands for its own name, whatever it is called
inside and whatever the libraries have under that name (`Scenario.exists_registerAll`).
The variables can then be set unless an expression in them overflows, and the data may be missing.
If neither happens, the agenda of the scenario is played to its end, and there is a report, which
tells of all that has failed (`Scenario.sets_up_of_ofJson`).

There are two ways to lose the report in the middle of the run. One is an overflow. The other one
is a block that allows more operations at the same time than can be counted: such a scenario is
loaded, and it crashes at the block (`Scenario.no_report_of_limit_too_great`).
-/

namespace Playbook

variable {σ : Type}

/-- Nothing that is done to a world changes its keywords. -/
theorem World.Knows.performAll {registry : Registry} {w : World σ} (h : w.Knows registry)
    (deeds : List (Deed σ)) : (w.performAll deeds).Knows registry := by
  induction deeds generalizing w with
  | nil => exact h
  | cons deed rest ih => exact ih (h.perform deed)

namespace Scenario

/-! ## Keywords and variables -/

/-- **Keywords with steps are registered**, each under its own name, in front of what the registry
has had under that name. -/
theorem exists_registerAll (registry : Registry) {keywords : Named Keyword}
    (hs : ∀ k ∈ keywords, k.2.steps ≠ []) (hn : keywords.names.Nodup) :
    ∃ registered, registerAll registry keywords = .ok registered ∧ ∀ name,
      registered.find? name
        = ((keywords.lookup name).map fun k => { k with name := name }).or
          (registry.find? name) := by
  induction keywords generalizing registry with
  | nil => exact ⟨registry, rfl, fun _ => rfl⟩
  | cons k rest ih =>
    obtain ⟨name, keyword⟩ := k
    obtain ⟨hkeyword, hrest⟩ := List.forall_mem_cons.mp hs
    obtain ⟨hname, hn⟩ := List.nodup_cons.mp hn
    have hregister : registry.register name keyword = some { registry with
        keywords := registry.keywords.put name { keyword with name := name } } :=
      if_neg fun h => hkeyword (List.isEmpty_iff.mp h)
    obtain ⟨registered, hr, hfind⟩ := ih { registry with
      keywords := registry.keywords.put name { keyword with name := name } } hrest hn
    refine ⟨registered, ?_, fun other => ?_⟩
    · rw [registerAll, hregister]
      exact hr
    · rw [hfind, Registry.find?_put, List.lookup_cons]
      by_cases h : name = other
      · subst h
        rw [Named.lookup_eq_none.mpr hname]
        simp
      · rw [if_neg h, beq_false_of_ne (Ne.symm h)]

/-- The variables of a scenario cannot be set only if one of them overflows. -/
theorem overflowsOnly_setAll (engine : Engine σ) (vars : Variables) (values : Named Value) :
    OverflowsOnly id (setAll engine vars values) := by
  induction values generalizing vars with
  | nil => exact .ok vars
  | cons field rest ih =>
    unfold setAll
    split
    · exact ih _
    · rename_i hc
      exact (Scope.overflowsOnly_resolve _ field.2).error hc

/-- **What was loaded has keywords with steps**, whose names stand once. -/
theorem keywords_of_ofJson {text : String} {s : Scenario} (h : ofJson text = .ok s) :
    s.keywords.names.Nodup ∧ ∀ k ∈ s.keywords, k.2.steps ≠ [] := by
  obtain ⟨hread, hvalid⟩ := ofJson_eq_ok_iff.mp h
  obtain ⟨d, hd, hdecode⟩ := Decode.exists_of_ofJson hread
  obtain ⟨m, -, hsound⟩ := sound_of_decode hd hdecode
  refine ⟨hsound.names_keywords, fun k hk hsteps => ?_⟩
  unfold validate at hvalid
  split at hvalid
  · cases hvalid
  · split at hvalid
    · cases hvalid
    · rename_i hnone
      exact List.find?_eq_none.mp hnone k hk (List.isEmpty_iff.mpr hsteps)

/-! ## Runs -/

/-- **A scenario whose blocks can be counted**, those of all keywords included. -/
def Countable (s : Scenario) (settings : Settings) (registry : Registry) : Prop :=
  Step.All (Action.Countable settings) s.steps ∧ registry.Countable settings

/-- Runs a scenario in a new session as it is played, but with any number of turns for each run. -/
def playWithin (turns : Nat) (engine : Engine σ) (libraries : List Library) (files : Files)
    (base : Option String) (own : σ) (s : Scenario) :
    Except Abort (Except SetupError Report × List StepEvent) :=
  match registerAll (.ofLibraries libraries) s.keywords with
  | .error e => .ok (.error e, [])
  | .ok registry =>
    match setAll engine .empty s.vars with
    | .error c => .error (.crash c)
    | .ok vars =>
      match s.data.mapM fun d => d.load files base with
      | .error e => .ok (.error (.dataset e), [])
      | .ok rows =>
        reported s.name ((s.agenda engine rows vars).play turns (Session.start registry own))

/-- **How a scenario is played**: with the turns that a session gives. -/
theorem play_eq (engine : Engine σ) (libraries : List Library) (files : Files)
    (base : Option String) (own : σ) (s : Scenario) :
    s.play engine libraries files base own
      = s.playWithin Session.turnLimit engine libraries files base own := by
  unfold play playWithin
  generalize registerAll (.ofLibraries libraries) s.keywords = registered
  obtain _ | registry := registered
  · rfl
  dsimp only
  generalize setAll engine .empty s.vars = set
  obtain _ | vars := set
  · rfl
  dsimp only
  generalize s.data.mapM (fun d => d.load files base) = loaded
  obtain _ | rows := loaded
  · rfl
  dsimp only
  rw [playSteps_eq]
  generalize (s.agenda engine rows vars).play Session.turnLimit (Session.start registry own) = x
  obtain ⟨_ | _, _⟩ := x
  · rfl
  · rfl

/-- **The runs of a scenario whose blocks can be counted** crash by an overflow only. -/
theorem runs_agenda {engine : Engine σ} (hh : engine.handler.Finishes) {s : Scenario}
    {registry : Registry} (hc : s.Countable engine.settings registry)
    (rows : Option (List Value)) (vars : Variables) :
    (s.agenda engine rows vars).Runs
      fun p => Task.CrashesOnly registry (fun c => c = .quotientOverflow) p := by
  obtain ⟨hs, hk⟩ := hc
  have hlist := fun vars => Engine.crashesOnly_execute hh hk hs vars
  unfold agenda
  cases rows with
  | some rows =>
    refine (Rows.runs_agenda (fun index row vars => ?_) _ 0 vars rows).map _
    exact (hlist _).andThen fun o => .done _
  | none =>
    cases s.continueOnError with
    | true =>
      refine runs_tolerant (fun step hm index vars => ?_) 1 _
      exact Engine.crashesOnly_executeStep hh hk (Step.allOne_of_mem hs hm) index vars
    | false => exact ⟨hlist vars, fun _ => trivial⟩

/-- **What comes of a scenario that has set up**: with sufficiently many turns for each of its runs
it comes to its end or is broken off by a crash. -/
theorem exists_becomes {engine : Engine σ} (hh : engine.handler.Finishes) (s : Scenario)
    (registry : Registry) (own : σ) (rows : Option (List Value)) (vars : Variables) :
    ∃ y session', (s.agenda engine rows vars).Becomes (Session.start registry own) (y, session')
      ∧ ((∃ ran os, y = .ok ran
          ∧ (s.agenda engine rows vars).Comes (Session.start registry own) os ran session')
        ∨ ∃ c, y = .error (.crash c) ∧ (c = .quotientOverflow
          ∨ c = .tooManyAtOnce ∧ ¬ s.Countable engine.settings registry)) := by
  have hidle : (Session.start registry own).Idle := Machine.idle_ofWorld _
  by_cases hc : s.Countable engine.settings registry
  · obtain ⟨y, session', hy, hends⟩ := Agenda.exists_play (w := World.fresh registry own)
      (W := World.Knows registry) (fun d _ hw => hw.perform d) (fun _ hp => hp)
      (runs_agenda hh hc rows vars) (Machine.tended_ofWorld _ _) hidle fun _ => rfl
    exact ⟨y, session', hy, hends.imp_right fun ⟨c, hy, hover⟩ => ⟨c, hy, .inl hover⟩⟩
  · obtain ⟨y, session', hy, hends⟩ := Agenda.exists_play (w := World.fresh registry own)
      (W := fun _ => True) (K := fun _ => True) (fun _ _ _ => trivial)
      (fun p _ => p.crashesOnly_any) (s.agenda engine rows vars).runs_any
      (Machine.tended_ofWorld _ _) hidle trivial
    refine ⟨y, session', hy, hends.imp_right fun ⟨c, hy, _⟩ => ⟨c, hy, ?_⟩⟩
    cases c with
    | quotientOverflow => exact .inl rfl
    | tooManyAtOnce => exact .inr ⟨rfl, hc⟩

/-! ## Reports -/

theorem reported_of_error {name : String} {x : Except Abort Ran × Session σ} {a : Abort}
    (h : x.1 = .error a) : reported name x = .error a := by
  obtain ⟨y, session⟩ := x
  obtain rfl : y = .error a := h
  rfl

/-- **The report of a scenario whose agenda has come to its end.** It tells of all runs, and it is
a success if there is neither an error nor a failure; for data rows this means that all have
passed. -/
structure Reports (s : Scenario) (engine : Engine σ) (files : Files) (base : Option String)
    (registry : Registry) (own : σ) (report : Report) (events : List StepEvent) : Prop where
  tells : ∃ rows vars os ran session, s.data.mapM (fun d => d.load files base) = .ok rows
    ∧ setAll engine .empty s.vars = .ok vars
    ∧ (s.agenda engine rows vars).Comes (Session.start registry own) os ran session
    ∧ report = ran.report s.name session ∧ events = session.world.history
    ∧ report.Tells rows s.continueOnError os
    ∧ (report.success = true ↔ ∀ o ∈ os, o.failure? = none)
  success_iff : report.success = true ↔ report.error = none ∧ report.failures = []
  success_iff_passed : ∀ summary, report.rows = some summary →
    (report.success = true ↔ ∀ r ∈ summary, r.result.isOk = true)

theorem reports_of_comes {s : Scenario} {engine : Engine σ} {files : Files} {base : Option String}
    {registry : Registry} {own : σ} {rows : Option (List Value)} {vars : Variables}
    {os : List Outcome} {ran : Ran} {session : Session σ}
    (hrows : s.data.mapM (fun d => d.load files base) = .ok rows)
    (hvars : setAll engine .empty s.vars = .ok vars)
    (h : (s.agenda engine rows vars).Comes (Session.start registry own) os ran session) :
    s.Reports engine files base registry own (ran.report s.name session)
      session.world.history where
  tells := ⟨rows, vars, os, ran, session, hrows, hvars, h, rfl, rfl, tells_of_comes h,
    (tells_of_comes h).success_iff⟩
  success_iff := Report.success_eq_true_iff _
  success_iff_passed _ := (tells_of_comes h).success_iff_passed

/-- **How a scenario ends whose keywords are registered**: with a report unless its data cannot be
loaded, or by a crash, which is an overflow if its blocks can be counted. -/
def Ends (s : Scenario) (engine : Engine σ) (files : Files) (base : Option String)
    (registry : Registry) (own : σ) :
    Except Abort (Except SetupError Report × List StepEvent) → Prop
  | .ok (.ok report, events) => s.Reports engine files base registry own report events
  | .ok (.error e, _) =>
    ∃ d fault, s.data = some d ∧ d.load files base = .error fault ∧ e = .dataset fault
  | .error (.crash c) =>
    c = .quotientOverflow ∨ c = .tooManyAtOnce ∧ ¬ s.Countable engine.settings registry
  | .error .endless => False

/-- What cannot be done with a thing that may be there, cannot be done with one that is there. -/
theorem exists_of_mapM_error {ε α β : Type} {f : α → Except ε β} {a? : Option α} {e : ε}
    (h : a?.mapM f = .error e) : ∃ a, a? = some a ∧ f a = .error e := by
  cases a? with
  | none => cases h
  | some a =>
    refine ⟨a, rfl, ?_⟩
    rw [Option.mapM_some] at h
    cases hf : f a with
    | ok b =>
      rw [hf] at h
      cases h
    | error e' =>
      rw [hf] at h
      cases h
      rfl

/-- **What comes of a scenario whose keywords are registered**, with sufficiently many turns. -/
theorem exists_ends {engine : Engine σ} (hh : engine.handler.Finishes) {libraries : List Library}
    (files : Files) (base : Option String) (own : σ) {s : Scenario} {registry : Registry}
    (hr : registerAll (.ofLibraries libraries) s.keywords = .ok registry) :
    ∃ y, (∃ n, ∀ turns, n ≤ turns →
        s.playWithin turns engine libraries files base own = y)
      ∧ (∀ turns, s.playWithin turns engine libraries files base own = y
        ∨ s.playWithin turns engine libraries files base own = .error .endless)
      ∧ s.Ends engine files base registry own y := by
  unfold playWithin
  rw [hr]
  dsimp only
  cases hvars : setAll engine .empty s.vars with
  | error c =>
    refine ⟨_, ⟨0, fun _ _ => rfl⟩, fun _ => .inl rfl, ?_⟩
    exact .inl (overflowsOnly_setAll engine .empty s.vars c hvars)
  | ok vars =>
    cases hrows : s.data.mapM fun d => d.load files base with
    | error fault =>
      refine ⟨_, ⟨0, fun _ _ => rfl⟩, fun _ => .inl rfl, ?_⟩
      obtain ⟨d, hd, hload⟩ := exists_of_mapM_error hrows
      exact ⟨d, fault, hd, hload, rfl⟩
    | ok rows =>
      obtain ⟨y, session', ⟨⟨n, hn⟩, hany⟩, hends⟩ := exists_becomes hh s registry own rows vars
      refine ⟨reported s.name (y, session'), ⟨n, fun turns hle => ?_⟩, fun turns => ?_, ?_⟩
      · exact congrArg (reported s.name) (hn turns hle)
      · refine (hany turns).imp (congrArg (reported s.name)) fun hendless => ?_
        exact reported_of_error hendless
      · obtain ⟨ran, os, rfl, hcomes⟩ | ⟨c, rfl, hc⟩ := hends
        · exact reports_of_comes hrows hvars hcomes
        · exact hc

/-- **A loaded scenario sets up.** All of its keywords are registered, and each of them stands for
its own name from then on, whatever it is called inside and whatever the libraries have under that
name. With sufficiently many turns the scenario ends: with a report, unless its data cannot be
loaded, an integer overflows, or a block allows more operations at the same time than can be
counted. -/
theorem sets_up_of_ofJson (engine : Engine σ) (hh : engine.handler.Finishes)
    (libraries : List Library) (files : Files) (base : Option String) (own : σ) {text : String}
    {s : Scenario} (h : ofJson text = .ok s) :
    ∃ registry, registerAll (.ofLibraries libraries) s.keywords = .ok registry
      ∧ (∀ name keyword, (name, keyword) ∈ s.keywords → ∀ deeds,
        ((World.fresh registry own).performAll deeds).registry.find? name
          = some { keyword with name := name })
      ∧ s.play engine libraries files base own
        = s.playWithin Session.turnLimit engine libraries files base own
      ∧ ∃ y, (∃ n, ∀ turns, n ≤ turns →
          s.playWithin turns engine libraries files base own = y)
        ∧ (∀ turns, s.playWithin turns engine libraries files base own = y
          ∨ s.playWithin turns engine libraries files base own = .error .endless)
        ∧ s.Ends engine files base registry own y := by
  obtain ⟨hnodup, hsteps⟩ := keywords_of_ofJson h
  obtain ⟨registry, hr, hfind⟩ := exists_registerAll (.ofLibraries libraries) hsteps hnodup
  refine ⟨registry, hr, fun name keyword hmem deeds => ?_,
    play_eq engine libraries files base own s, exists_ends hh files base own hr⟩
  have hknows : (World.fresh registry own).Knows registry := fun _ => rfl
  rw [hknows.performAll deeds name, hfind, Named.lookup_of_mem hnodup hmem]
  rfl

/-- Whether a run succeeded, if it has a report. -/
def success? : Except Abort (Except SetupError Report × List StepEvent) → Option Bool
  | .ok (.ok report, _) => some report.success
  | _ => none

theorem exists_of_success? {y : Except Abort (Except SetupError Report × List StepEvent)}
    {b : Bool} (h : success? y = some b) :
    ∃ report events, y = .ok (.ok report, events) ∧ report.success = b := by
  obtain _ | ⟨_ | report, events⟩ := y
  · cases h
  · cases h
  · exact ⟨report, events, rfl, Option.some.inj h⟩

/-- Two rows are tested by a keyword that is called by its key. It has another name inside, and a
library has a keyword for every name. The second row fails, and the report is no success. -/
theorem sets_up_of_ofJson_rows :
    let ambient : Ambient := ⟨0, "", "", fun _ => none⟩
    let engine : Engine Unit := ⟨.default, .standard ambient, ambient⟩
    let files : Files := ⟨fun _ => .error .notFound⟩
    let passes : Step := .mk (.domain "echo" .null []) none false none .null
    let library : Library := fun name => some ⟨name, [], [passes], none, none⟩
    let text := "\x7b\"name\":\"s\",\"keywords\":\x7b"
      ++ "\"k\":\x7b\"name\":\"other\",\"steps\":[\x7b\"assert\":\"row\"\x7d]\x7d\x7d,"
      ++ "\"data\":\x7b\"rows\":[true,false]\x7d,"
      ++ "\"continueOnError\":true,\"steps\":[\x7b\"run\":\"k\"\x7d]\x7d"
    ∃ s keyword registry report events, ofJson text = .ok s
      ∧ s.keywords = [("k", keyword)] ∧ keyword.name = "other"
      ∧ registerAll (.ofLibraries [library]) s.keywords = .ok registry
      ∧ (World.fresh registry ()).registry.find? "k" = some { keyword with name := "k" }
      ∧ s.play engine [library] files none () = .ok (.ok report, events)
      ∧ s.Reports engine files none registry () report events ∧ report.success = false := by
  intro ambient engine files passes library text
  have hloaded : ((ofJson text).toOption.any fun s =>
      decide (s.keywords.map (fun k => (k.1, k.2.name)) = [("k", "other")])
        && decide (success? (s.play engine [library] files none ()) = some false)) = true := by
    decide +kernel
  obtain ⟨s, hs, hdone⟩ := exists_ok_of_any hloaded
  obtain ⟨hnames, hfails⟩ := (Bool.and_eq_true _ _).mp hdone
  obtain ⟨⟨_, keyword⟩, hkeywords, hname⟩ := List.map_eq_singleton_iff.mp (of_decide_eq_true hnames)
  obtain ⟨rfl, hname⟩ := Prod.mk.inj hname
  obtain ⟨report, events, hreport, hsuccess⟩ := exists_of_success? (of_decide_eq_true hfails)
  obtain ⟨registry, hr, hfind, hplay, y, -, hany, hends⟩ :=
    sets_up_of_ofJson engine (Handler.finishes_standard ambient) [library] files none () hs
  obtain rfl : y = .ok (.ok report, events) := by
    obtain h | h := hany Session.turnLimit
    · rw [← h, ← hplay, hreport]
    · rw [hreport, h] at hplay
      cases hplay
  refine ⟨s, keyword, registry, report, events, hs, hkeywords, hname, hr, ?_, hreport, hends,
    hsuccess⟩
  exact hfind "k" keyword (hkeywords ▸ List.mem_singleton_self _) []

/-- **A block can take the report with it.** This scenario is loaded, and it has no data; it allows
one more operation at the same time than can be counted, and there is no report. -/
theorem no_report_of_limit_too_great :
    let ambient : Ambient := ⟨0, "", "", fun _ => none⟩
    let engine : Engine Unit := ⟨.default, .standard ambient, ambient⟩
    let files : Files := ⟨fun _ => .error .notFound⟩
    let text := "\x7b\"name\":\"s\",\"steps\":[\x7b\"parallel\":"
      ++ "\x7b\"actions\":[\x7b\"log\":\"a\"\x7d],"
      ++ "\"maxConcurrency\":2305843009213693952\x7d\x7d]\x7d"
    ∃ s, ofJson text = .ok s ∧ s.data = none
      ∧ s.play engine [] files none () = .error (.crash .tooManyAtOnce) := by
  intro ambient engine files text
  have hloaded : ((ofJson text).toOption.any fun s => s.data.isNone
      && decide (crash? (s.play engine [] files none ()) = some .tooManyAtOnce)) = true := by
    decide +kernel
  obtain ⟨s, hs, hdone⟩ := exists_ok_of_any hloaded
  obtain ⟨hdata, hcrashed⟩ := (Bool.and_eq_true _ _).mp hdone
  have hcrash := of_decide_eq_true hcrashed
  obtain ⟨c, hc⟩ := exists_of_crash? (Option.isSome_of_eq_some hcrash)
  rw [hc] at hcrash
  obtain rfl : c = .tooManyAtOnce := Option.some.inj hcrash
  exact ⟨s, hs, Option.isNone_iff_eq_none.mp hdata, hc⟩

end Scenario

end Playbook
