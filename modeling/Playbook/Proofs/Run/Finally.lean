import Playbook.Proofs.Run.Isolation
import Playbook.Proofs.Run.Nesting

/-!
# What a `try` does

A step with a `try` does what `Engine.Attempt.Of` says: its body comes first, then the `catch`
list if it is to be run, and then the `finally` list, once. The step ends behind that, and its
outcome is told by those of the three lists.

The tasks of a session are the lists of steps that are run and the operations of all blocks. In
each of them every step that begins is entered (`Session.entered_of_begunWith`), so that it is
enough to look at one step by itself. What a task does in a session is a run of its process, so
all this holds of every session and in every order of turns (`Session.finally_of_start`).
-/

namespace Playbook

variable {σ : Type}

namespace Engine

/-! ## The tasks of a session -/

/-- Every step that begins is entered, with no more said of what is around it. -/
abbrev Entered (engine : Engine σ) (p : Task σ) : Prop :=
  engine.Enters (fun _ _ _ => True) p

/-- The steps of an operation are entered with its time limit around them. -/
theorem Enters.timed {engine : Engine σ} {ms : Nat} {body : Task σ}
    {next : Outcome ⊕ Variables → Task σ} (hb : engine.Entered body)
    (hn : ∀ x, ∃ o, next x = .done o) : engine.Entered (.timed ms body next) := by
  intro t step index depth u q ht
  generalize hs : t ++ .start step index depth :: u = s at ht
  cases ht with
  | refl => exact absurd hs (List.append_ne_nil_of_right_ne_nil t (List.cons_ne_nil _ _))
  | limited h =>
    subst hs
    obtain ⟨C, here, h, -⟩ := hb t step index depth u _ h
    exact ⟨_, here, ⟨h.context.timed ms next, h.level, .limited h.before, .limited h.after⟩,
      trivial⟩
  | @inTime _ _ _ _ r _ _ h hr =>
    obtain ⟨o, ho⟩ := hn (.inl r)
    have hr' := hr
    rw [ho] at hr'
    obtain ⟨rfl, -⟩ := Process.runs_done.mp hr'
    rw [List.append_nil] at hs
    subst hs
    obtain ⟨C, here, h, -⟩ := hb t step index depth u _ h
    have hafter : (Process.timed ms _ next).Runs _ q := .inTime h.after hr
    rw [List.append_nil] at hafter
    exact ⟨_, here, ⟨h.context.timed ms next, h.level, .limited h.before, hafter⟩, trivial⟩

/-- An operation is tidy, as long as it is not cut off. -/
theorem Tidy.operation {engine : Engine σ} {n : Nat} {r : Runner σ} (timeout : Nat)
    (hr : HoldsAt n (engine.Tidy n) r) : HoldsAt n (engine.Tidy n) (.operation timeout r) := by
  intro vars hv t q ht
  cases ht with
  | refl => exact ⟨nofun, nofun⟩
  | limited h => exact ⟨(hr vars hv _ _ h).1, nofun⟩
  | @inTime _ _ _ _ r' _ _ h hn =>
    obtain ⟨rfl, rfl⟩ := Process.runs_done.mp hn
    have hdepth : r'.vars.depth = n := (hr vars hv).depth h
    rw [List.append_nil]
    refine ⟨(hr vars hv _ _ h).1, fun o ho => ⟨(hr vars hv).balanced h, ?_⟩⟩
    cases ho
    exact hdepth

/-- **The rules for tasks that are tidy and enter their steps.** -/
theorem chained_entered (engine : Engine σ) (n : Nat) :
    Chained (fun vars => vars.depth = n) fun _ p => engine.Tidy n p ∧ engine.Entered p where
  bound := (Tidy.rules engine n).bound
  bind _ _ _ h := h
  done o ho := ⟨.done ho, .done⟩
  overflow := ⟨.crash, .crash⟩
  andThen hp hk := ⟨hp.1.andThen fun o ho => (hk o ho).1, .andThen hp.2 (fun _ => trivial)
    fun v o ho => ⟨(hk o (hp.1.depth ho)).2, fun _ => trivial⟩⟩
  sleep hv h := ⟨(Tidy.rules engine n).sleep hv h.1, .of_next fun _ _ ht => by
    cases ht with
    | refl => exact .inl rfl
    | slept ht => exact .inr ⟨_, h.2, ht, .slept⟩⟩

/-- The lists of steps with given variables. -/
theorem chained_listRunner (engine : Engine σ) (vars : Variables) (steps : List Step) :
    HoldsAt vars.depth (fun p => engine.Tidy vars.depth p ∧ engine.Entered p)
      (Step.listRunner engine (engine.callsAt vars) steps) :=
  fun vars' hv =>
    have h := (Proper.levels engine).listRunner rfl steps vars' hv
    ⟨h.tidy, h.enters.mono fun _ => trivial⟩

/-- An operation, by its runner. -/
theorem chained_operation {engine : Engine σ} {n : Nat} {r : Runner σ} (timeout : Nat)
    (hr : HoldsAt n (fun p => engine.Tidy n p ∧ engine.Entered p) r) :
    HoldsAt n (fun p => engine.Tidy n p ∧ engine.Entered p) (.operation timeout r) :=
  fun vars hv => ⟨Tidy.operation timeout (fun vars hv => (hr vars hv).1) vars hv,
    .timed (hr vars hv).2 fun _ => ⟨_, rfl⟩⟩

/-- What an operation of a block does enters its steps. -/
theorem Forks.entered {engine : Engine σ} {vars : Variables} {runners : List (Runner σ)}
    (h : engine.Forks vars runners) : ∀ r ∈ runners, engine.Entered (r vars) := by
  intro r hr
  cases h with
  | operations timeout operations =>
    obtain ⟨_, hm, rfl⟩ := List.mem_map.mp hr
    obtain ⟨step, -, rfl⟩ := List.mem_map.mp hm
    exact (chained_operation timeout (chained_listRunner engine vars [step]) vars rfl).2
  | passes timeout iteration items body =>
    obtain ⟨_, hm, rfl⟩ := List.mem_map.mp hr
    obtain ⟨⟨item, index⟩, -, rfl⟩ := List.mem_map.mp hm
    have hpass := (chained_entered engine vars.depth).bindPass iteration index item
      (chained_listRunner engine vars body)
    exact (chained_operation timeout hpass vars rfl).2
  | tries settings operations =>
    obtain ⟨_, hm, rfl⟩ := List.mem_map.mp hr
    obtain ⟨step, -, rfl⟩ := List.mem_map.mp hm
    have hlist := chained_listRunner engine vars [step]
    exact ((chained_entered engine vars.depth).retrying (chained_operation _ hlist) _ _ _
      vars rfl).2

end Engine

/-- **In every task of a session the steps that begin are entered.** -/
theorem Session.entered_of_begunWith {engine : Engine σ} {registry : Registry} {own : σ}
    {b : Moment (Deed σ) (World σ) Variables Outcome Crash}
    (h : Moment.Later engine.Lists ⟨.idle, Session.start registry own, []⟩ b) {id : Nat}
    {p : Task σ} (hp : Event.BegunWith engine.Lists b.past id p) : engine.Entered p := by
  obtain ⟨-, steps, vars, rfl⟩ | ⟨c, i, hs⟩ := hp
  · exact (engine.proper_execute steps vars).enters.mono fun _ => trivial
  · obtain ⟨u, n, ho, hop⟩ := (Moment.Later.orderly h).booked.started_opened c i id p hs
    obtain ⟨vars, runners, next, -, hops, hi⟩ := (Session.block_of_opened h ho).isolates
    rw [hops, List.getElem?_map] at hop
    obtain ⟨r, hr, rfl⟩ := Option.map_eq_some_iff.mp hop
    exact hi.forks.entered r (List.mem_of_getElem? hr)

/-! ## The runs of a `try` -/

namespace Runner

variable {body r : Runner σ} {c f : Option (Runner σ)} {binding : String} {vars : Variables}
  {t : List (Deed σ)} {b o : Outcome}

/-- A body, and what is run if it fails. -/
theorem runs_caught (h : (caught body c binding vars).Runs t (.done b)) :
    ∃ t₁ t₂ o, t = t₁ ++ t₂ ∧ (body vars).Runs t₁ (.done o)
      ∧ ((∃ f s, o.result = .error f ∧ c = some s
          ∧ (s (o.vars.bind binding f.toValue)).Runs t₂ (.done b))
        ∨ ((∀ f, o.result = .error f → c = none) ∧ t₂ = [] ∧ b = o)) := by
  obtain ⟨q', hq, -, he⟩ | ⟨t₁, t₂, o, rfl, h₁, h₂⟩ := Process.runs_andThen h
  · exact absurd ⟨b, hq.symm⟩ (Process.not_ended_andThen he)
  refine ⟨t₁, t₂, o, rfl, h₁, ?_⟩
  split at h₂
  · rename_i f s hf
    exact .inl ⟨f, s, hf, rfl, h₂⟩
  · rename_i hno
    obtain ⟨rfl, hb⟩ := Process.runs_done.mp h₂
    cases hb
    exact .inr ⟨fun f hf => Option.eq_none_iff_forall_ne_some.mpr fun s => hno f s hf, rfl, rfl⟩

/-- What is run in the end, and what comes of it. -/
theorem runs_restoring (h : (restoring o r).Runs t (.done b)) :
    ∃ last, (r o.vars).Runs t (.done last)
      ∧ (∀ v, last.result = .ok (.continue v) → b = { o with vars := last.vars })
      ∧ ((∀ v, last.result ≠ .ok (.continue v)) → b = last) := by
  obtain ⟨q', hq, -, he⟩ | ⟨t₁, t₂, last, rfl, h₁, h₂⟩ := Process.runs_andThen h
  · exact absurd ⟨b, hq.symm⟩ (Process.not_ended_andThen he)
  split at h₂
  · rename_i v hv
    obtain ⟨rfl, hb⟩ := Process.runs_done.mp h₂
    cases hb
    rw [List.append_nil]
    exact ⟨last, h₁, fun _ _ => rfl, fun hno => absurd hv (hno v)⟩
  · rename_i hno
    obtain ⟨rfl, hb⟩ := Process.runs_done.mp h₂
    cases hb
    rw [List.append_nil]
    exact ⟨b, h₁, fun v hv => absurd hv (hno v), fun _ => rfl⟩

end Runner

namespace Engine

/-- What a `try` does in a run: the deeds and the outcomes of its body, of its `catch` list
and of its `finally` list, and its own outcome. A list that is not run does nothing. -/
structure Attempt (σ : Type) where
  bodyDeeds : List (Deed σ)
  catchDeeds : List (Deed σ)
  finallyDeeds : List (Deed σ)
  /-- What the body comes to. -/
  tried : Outcome
  /-- What the `catch` list comes to, or the body if that list is not run. -/
  caught : Outcome
  /-- What the `finally` list comes to. -/
  last : Outcome
  outcome : Outcome

/-- **A run of a `try`** that begins with the variables `here`. The `catch` list is run if the
body has failed and there is such a list, with what is known of the failure bound to a
variable. The `finally` list is run in any case. It overrides the outcome from before if
it fails or returns. -/
structure Attempt.Of (engine : Engine σ) (body : List Step) (catch_ : Option (List Step))
    (finally_ : List Step) (binding : String) (here : Variables) (a : Attempt σ) : Prop where
  body_runs : (engine.execute body here).Runs a.bodyDeeds (.done a.tried)
  catch_runs : ∀ f steps, a.tried.result = .error f → catch_ = some steps →
    (engine.execute steps (a.tried.vars.bind binding (.record
      [("message", .text f.rootCause.message), ("kind", .text f.kind),
        ("trace", .text f.message)]))).Runs a.catchDeeds (.done a.caught)
  catch_spared : (∀ f, a.tried.result = .error f → catch_ = none) →
    a.catchDeeds = [] ∧ a.caught = a.tried
  finally_runs : (engine.execute finally_ a.caught.vars).Runs a.finallyDeeds (.done a.last)
  kept : ∀ v, a.last.result = .ok (.continue v) →
    a.outcome = { a.caught with vars := a.last.vars }
  overridden : (∀ v, a.last.result ≠ .ok (.continue v)) → a.outcome = a.last

/-- No failure of a body is lost, unless it may be caught or is overridden. -/
theorem Attempt.Of.failed {engine : Engine σ} {body : List Step} {catch_ : Option (List Step)}
    {finally_ : List Step} {binding : String} {here : Variables} {a : Attempt σ}
    (h : a.Of engine body catch_ finally_ binding here) {f : Failure}
    (hf : a.tried.result = .error f) (hc : catch_ = none) {v : Value}
    (hl : a.last.result = .ok (.continue v)) : a.outcome.result = .error f := by
  obtain ⟨-, hcaught⟩ := h.catch_spared fun _ _ => hc
  rw [h.kept v hl, hcaught]
  exact hf

/-- What a `try` does, by its lists. -/
theorem runner_try {engine : Engine σ} {call : Calls σ} {keys : List String}
    {body : List Step} {catch_ : Option (List Step)} {finally_ : List Step} {binding : String} :
    Action.runner engine call keys (.try_ body catch_ finally_ binding)
      = .catching (Step.listRunner engine call body) (catch_.map (Step.listRunner engine call))
        (if finally_.isEmpty then none else some (Step.listRunner engine call finally_))
        binding := by
  cases catch_ with
  | none | some =>
    cases finally_ with
    | nil | cons => rfl

/-- A list of steps at a place in a call is run like any other list there. -/
theorem listRunner_eq_execute {engine : Engine σ} {here vars : Variables}
    (h : vars.depth = here.depth) (steps : List Step) :
    Step.listRunner engine (engine.callsAt here) steps vars = engine.execute steps vars := by
  unfold execute callsAt callsLeft
  rw [h]

/-- A run of a body with its `catch` list. -/
theorem exists_caught {engine : Engine σ} {body : List Step} {catch_ : Option (List Step)}
    {binding : String} {here : Variables} {t : List (Deed σ)} {b : Outcome}
    (h : (Runner.caught (Step.listRunner engine (engine.callsAt here) body)
      (catch_.map (Step.listRunner engine (engine.callsAt here))) binding here).Runs t (.done b)) :
    ∃ t₁ t₂ tried, t = t₁ ++ t₂ ∧ (engine.execute body here).Runs t₁ (.done tried)
      ∧ (∀ f steps, tried.result = .error f → catch_ = some steps →
        (engine.execute steps (tried.vars.bind binding f.toValue)).Runs t₂ (.done b))
      ∧ ((∀ f, tried.result = .error f → catch_ = none) → t₂ = [] ∧ b = tried)
      ∧ b.vars.depth = here.depth := by
  obtain ⟨t₁, t₂, tried, rfl, h₁, h₂⟩ := Runner.runs_caught h
  have hd : tried.vars.depth = here.depth := (engine.tidy_execute body here).depth h₁
  refine ⟨t₁, t₂, tried, rfl, h₁, ?_⟩
  obtain ⟨f, s, hf, hs, h₂⟩ | ⟨hno, rfl, rfl⟩ := h₂
  · obtain ⟨steps, rfl, rfl⟩ := Option.map_eq_some_iff.mp hs
    have hbind : (tried.vars.bind binding f.toValue).depth = here.depth :=
      (Variables.depth_bind ..).trans hd
    rw [listRunner_eq_execute hbind] at h₂
    refine ⟨fun f' steps' hf' hs' => ?_, fun hno => ?_,
      ((engine.tidy_execute steps _).depth h₂).trans hbind⟩
    · cases hf.symm.trans hf'
      cases hs'
      exact h₂
    · cases hno f hf
  · refine ⟨fun f steps hf hs => ?_, fun _ => ⟨rfl, rfl⟩, hd⟩
    rw [hs] at hno
    cases hno f hf

/-- **A run of the action of a `try`.** -/
theorem exists_attempt {engine : Engine σ} {keys : List String} {body : List Step}
    {catch_ : Option (List Step)} {finally_ : List Step} {binding : String}
    {here : Variables} {t : List (Deed σ)} {b : Outcome}
    (h : (Action.runner engine (engine.callsAt here) keys
      (.try_ body catch_ finally_ binding) here).Runs t (.done b)) :
    ∃ a : Attempt σ, a.Of engine body catch_ finally_ binding here ∧ a.outcome = b
      ∧ t = a.bodyDeeds ++ a.catchDeeds ++ a.finallyDeeds := by
  rw [runner_try] at h
  cases finally_ with
  | nil =>
    obtain ⟨t₁, t₂, tried, rfl, h₁, hc, hno, -⟩ := exists_caught h
    refine ⟨⟨t₁, t₂, [], tried, b, .yield .null b.vars, b⟩, ⟨h₁, hc, hno, .refl,
      fun _ _ => rfl, fun hv => absurd rfl (hv .null)⟩, rfl, (List.append_nil _).symm⟩
  | cons first rest =>
    obtain ⟨q', hq, -, he⟩ | ⟨t', t₃, caught, rfl, h, hlast⟩ := Process.runs_andThen h
    · exact absurd ⟨b, hq.symm⟩ (Process.not_ended_andThen he)
    obtain ⟨t₁, t₂, tried, rfl, h₁, hc, hno, hd⟩ := exists_caught h
    obtain ⟨last, hlast, hkept, hover⟩ := Runner.runs_restoring hlast
    rw [listRunner_eq_execute hd] at hlast
    exact ⟨⟨t₁, t₂, t₃, tried, caught, last, b⟩, ⟨h₁, hc, hno, hlast, hkept, hover⟩, rfl, rfl⟩

/-- **A step with a `try` in a task.** The task is that step when it begins, with something
around it. Then come the deeds of its lists and the end of the step. What is around it goes on
with the outcome. -/
theorem exists_attempt_of_start {engine : Engine σ} {p : Task σ} (hp : engine.Entered p)
    {t u : List (Deed σ)} {step : Step} {index depth : Nat} {o : Outcome}
    (h : p.Runs (t ++ .start step index depth :: u) (.done o)) {body : List Step}
    {catch_ : Option (List Step)} {finally_ : List Step} {binding : String}
    (ha : step.action = .try_ body catch_ finally_ binding) :
    ∃ C here, ∃ a : Attempt σ, ∃ rest,
      Process.Context C ∧ here.depth = depth
        ∧ p.Runs t (C (engine.executeStep step index here))
      ∧ a.Of engine body catch_ finally_ binding here
      ∧ u = a.bodyDeeds ++ a.catchDeeds ++ a.finallyDeeds
        ++ .finish step index depth (a.outcome.result.map Flow.value) (engine.logs step) :: rest
      ∧ (C (.done (step.outcome a.outcome))).Runs rest (.done o) := by
  obtain ⟨C, here, he, -⟩ := hp t step index depth u _ h
  obtain ⟨q', hq, -, hno⟩ | ⟨t₁, rest, b, hu, h₁, hrest⟩ := he.context.runs_inv he.after
  · exact absurd (he.context.ended ⟨o, hq.symm⟩) hno
  obtain ⟨-, hno⟩ | ⟨_, _, -, -, hno⟩ | ⟨w, b', rfl, hb, hq⟩ :=
    Runner.runs_observed (engine.executeStep_eq step index here ▸ h₁)
  · exact absurd ⟨b, rfl⟩ hno
  · exact absurd ⟨b, rfl⟩ hno
  obtain ⟨-, rfl⟩ := List.cons.inj hu
  cases hq
  rw [ha] at hb
  obtain ⟨a, hof, rfl, rfl⟩ := exists_attempt hb
  refine ⟨C, here, a, rest, he.context, he.level, he.before, hof, ?_, hrest⟩
  rw [he.level]
  exact List.append_assoc _ [_] rest

end Engine

/-- **A `finally` list is always run.** Let a task of a session come to its end with an outcome,
and let no time limit have passed for it, whatever the order of turns and whatever else goes on.
If it has begun a step with a `try`, then it was that step there, with something around it.
First the body was run, then the `catch` list, if the body had failed and there was one, and
then the `finally` list, once. Then the step ended, with the outcome that comes of these three.
What was around it went on with that outcome, and the task with all that came after. A failure
of the body was the failure of the step, unless there was a `catch` list or the `finally` list
failed or returned. -/
theorem Session.finally_of_start {engine : Engine σ} {registry : Registry} {own : σ}
    {b : Moment (Deed σ) (World σ) Variables Outcome Crash}
    (h : Moment.Later engine.Lists ⟨.idle, Session.start registry own, []⟩ b)
    {old new : List (Event (Deed σ) (World σ) Variables Outcome Crash)} {id : Nat} {o : Outcome}
    (he : b.past = old ++ .ended id (.finished o) :: new)
    (hin : ∀ v, .timedOut id v ∉ old) {t u : List (Deed σ)} {step : Step} {index depth : Nat}
    (hd : Event.doneBy id old = t ++ .start step index depth :: u) {body : List Step}
    {catch_ : Option (List Step)} {finally_ : List Step} {binding : String}
    (ha : step.action = .try_ body catch_ finally_ binding) :
    ∃ p C here, ∃ a : Engine.Attempt σ, ∃ rest,
      Event.BegunWith engine.Lists old id p ∧ Process.Context C ∧ here.depth = depth
        ∧ p.Runs t (C (engine.executeStep step index here))
      ∧ a.Of engine body catch_ finally_ binding here
      ∧ u = a.bodyDeeds ++ a.catchDeeds ++ a.finallyDeeds
        ++ .finish step index depth (a.outcome.result.map Flow.value) (engine.logs step) :: rest
      ∧ (C (.done (step.outcome a.outcome))).Runs rest (.done o)
      ∧ ∀ f v, a.tried.result = .error f → catch_ = none →
        a.last.result = .ok (.continue v) → a.outcome.result = .error f := by
  obtain ⟨p, hp, hr⟩ := Moment.Later.runs_of_ended h he hin
  rw [hd] at hr
  have hentered : engine.Entered p :=
    Session.entered_of_begunWith h (hp.mono (he ▸ List.subset_append_left _ _))
  obtain ⟨C, here, a, rest, hC, hlevel, hbefore, hof, hu, hrest⟩ :=
    Engine.exists_attempt_of_start hentered hr ha
  exact ⟨p, C, here, a, rest, hp, hC, hlevel, hbefore, hof, hu, hrest,
    fun f v hf hc hl => hof.failed hf hc hl⟩

/-- A body that fails, with a `catch` list and with a `finally` list that returns: the `try`
returns in the end. -/
theorem Session.finally_of_start_return :
    let engine : Engine Unit :=
      ⟨.default, .standard ⟨0, "", "", fun _ => none⟩, ⟨0, "", "", fun _ => none⟩⟩
    let fails := Step.mk (.while_ (.literal (.bool true)) [] (some 0)) none false none .null
    let sets := Step.mk (.assign .globals [("x", .bool true)]) none false none .null
    let leaves := Step.mk (.return_ (.bool false)) none false none .null
    let tries := Step.mk (.try_ [fails] (some [sets]) [leaves] "e") none false none .null
    ∃ b old u o, Moment.Later engine.Lists ⟨.idle, Session.start ⟨[], []⟩ (), []⟩ b
      ∧ b.past = old ++ [.ended 0 (.finished o)] ∧ (∀ v, .timedOut 0 v ∉ old)
      ∧ Event.doneBy 0 old = .start tries 1 0 :: u
      ∧ ∃ p C here, ∃ a : Engine.Attempt Unit, ∃ rest,
        Event.BegunWith engine.Lists old 0 p ∧ Process.Context C ∧ here.depth = 0
          ∧ p.Runs [] (C (engine.executeStep tries 1 here))
        ∧ a.Of engine [fails] (some [sets]) [leaves] "e" here
        ∧ u = a.bodyDeeds ++ a.catchDeeds ++ a.finallyDeeds
          ++ .finish tries 1 0 (a.outcome.result.map Flow.value) (engine.logs tries) :: rest
        ∧ (C (.done (tries.outcome a.outcome))).Runs rest (.done o)
        ∧ ∀ f v, a.tried.result = .error f → some [sets] = none →
          a.last.result = .ok (.continue v) → a.outcome.result = .error f := by
  intro engine fails sets leaves tries
  have hbegin : Moment.Next engine.Lists ⟨.idle, Session.start ⟨[], []⟩ (), []⟩ _ :=
    .begin ⟨[tries], .empty, rfl⟩ nofun
  have hfirst := Relation.ReflTransGen.tail (.single hbegin)
    (.move (.first (t := ⟨0, none, .fresh _⟩) rfl rfl))
  have h := ((((((((hfirst.tail .act).tail .act).tail .act).tail .act).tail .act).tail
    .act).tail .act).tail .act).tail .finish
  have hin (deeds : List (Deed Unit))
      (v : Waiting (Deed Unit) (World Unit) Variables Outcome Crash) :
      .timedOut 0 v ∉ deeds.map (Event.did 0) := fun hm => by
    obtain ⟨_, -, he⟩ := List.mem_map.mp hm
    cases he
  obtain ⟨b, old, u, o, h, he, hin, hd⟩ : ∃ b old u o,
      Moment.Later engine.Lists ⟨.idle, Session.start ⟨[], []⟩ (), []⟩ b
        ∧ b.past = old ++ [.ended 0 (.finished o)] ∧ (∀ v, .timedOut 0 v ∉ old)
        ∧ Event.doneBy 0 old = .start tries 1 0 :: u :=
    ⟨_, [_, _, _, _, _, _, _, _].map (Event.did 0), _, _, h, rfl, hin _, rfl⟩
  exact ⟨b, old, u, o, h, he, hin, hd, Session.finally_of_start h he hin (t := []) hd rfl⟩

end Playbook
