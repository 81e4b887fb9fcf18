import Playbook.Proofs.Process.Runs
import Playbook.Proofs.Run.Depth

/-!
# Steps that are begun are ended

What a task does up to its end are deeds in brackets: each step that is begun is ended,
and the steps that are begun in between are ended before it (`Engine.Balanced`). That
holds whatever a step comes to, and whether it has further steps in it or not. The
brackets of a list of steps have the depth of the list, and those inside of a keyword
call are deeper.

A task is tidy if all this holds of its runs (`Engine.Tidy`). Every construct is tidy if
its lists are, so all lists of steps are (`Engine.tidy_execute`).
-/

namespace Playbook

variable {σ : Type}

namespace Deed

/-- Whether a deed neither begins nor ends a step. -/
def isAside : Deed σ → Bool
  | start _ _ _ => false
  | finish _ _ _ _ _ => false
  | _ => true

/-- If a deed begins a step, the step does so at a depth of at least `n`. -/
def StartsFrom (n : Nat) : Deed σ → Prop
  | start _ _ depth => n ≤ depth
  | _ => True

theorem StartsFrom.mono {m n : Nat} {d : Deed σ} (h : d.StartsFrom n) (hmn : m ≤ n) :
    d.StartsFrom m := by
  cases d with
  | start => exact Nat.le_trans hmn h
  | _ => trivial

theorem startsFrom_of_isAside {n : Nat} {d : Deed σ} (h : d.isAside = true) :
    d.StartsFrom n := by
  cases d with
  | start => cases h
  | _ => trivial

end Deed

/-- Whether the end of a step goes into the log. -/
def Engine.logs (engine : Engine σ) (step : Step) : Bool :=
  !step.action.isControl || engine.settings.recordControlSteps

/-- **Deeds in brackets.** Each step that is begun is ended at the same position and the
same depth, and what is done in between is in brackets itself. -/
inductive Engine.Balanced (engine : Engine σ) : List (Deed σ) → Prop
  | nil : Balanced engine []
  | aside {deed : Deed σ} {t : List (Deed σ)} (h : deed.isAside = true)
      (ht : Balanced engine t) : Balanced engine (deed :: t)
  | step {step : Step} {index depth : Nat} {result : Except Failure Value}
      {t u : List (Deed σ)} (ht : Balanced engine t) (hu : Balanced engine u) :
      Balanced engine (.start step index depth ::
        (t ++ .finish step index depth result (engine.logs step) :: u))

theorem Engine.Balanced.append {engine : Engine σ} {t u : List (Deed σ)}
    (ht : engine.Balanced t) (hu : engine.Balanced u) : engine.Balanced (t ++ u) := by
  induction ht with
  | nil => exact hu
  | aside h _ ih => exact .aside h ih
  | step ht _ _ ih =>
    rw [List.cons_append, List.append_assoc]
    exact .step ht ih

/-! ## Runs of steps and calls -/

/-- What a step ends with, by the outcome of its action. -/
def Step.outcome (step : Step) (o : Outcome) : Outcome :=
  if o.failed && step.continueOnError then .yield .null (Runner.bindReturns step.returns o)
  else { o with vars := Runner.bindReturns step.returns o }

@[simp] theorem Step.depth_outcome (step : Step) (o : Outcome) :
    (step.outcome o).vars.depth = o.vars.depth := by
  unfold outcome
  split
  · exact Runner.depth_bindReturns step.returns o
  · exact Runner.depth_bindReturns step.returns o

/-- A step that returns ends with that. -/
theorem Step.outcome_return {step : Step} {o : Outcome} {v : Value}
    (h : o.result = .ok (.return v)) : (step.outcome o).result = .ok (.return v) := by
  have hf : o.failed = false := by
    unfold Outcome.failed
    rw [h]
    rfl
  unfold outcome
  rw [hf, if_neg (by simp)]
  exact h

/-- A step that ends with a return does so by its action. -/
theorem Step.result_of_outcome_return {step : Step} {o : Outcome} {v : Value}
    (h : (step.outcome o).result = .ok (.return v)) : o.result = .ok (.return v) := by
  unfold outcome at h
  split at h
  · cases h
  · exact h

namespace Runner

variable {engine : Engine σ} {vars : Variables} {t : List (Deed σ)} {q : Task σ}

/-- The end of a step, behind its action. -/
abbrev ending (engine : Engine σ) (step : Step) (index depth : Nat) (o : Outcome) : Task σ :=
  .doing (.finish step index depth (o.result.map Flow.value) (engine.logs step)) <|
    if o.failed && step.continueOnError then yield .null (bindReturns step.returns o)
    else .done { o with vars := bindReturns step.returns o }

/-- **The end of a step** is one deed. -/
theorem runs_ending {step : Step} {index depth : Nat} {o : Outcome}
    (h : (ending engine step index depth o).Runs t q) :
    (t = [] ∧ ¬ q.Ended)
      ∨ t = [.finish step index depth (o.result.map Flow.value) (engine.logs step)]
        ∧ q = .done (step.outcome o) := by
  obtain ⟨rfl, rfl⟩ | ⟨u, _, rfl, hu⟩ := Process.runs_act.mp h
  · exact .inl ⟨rfl, nofun⟩
  unfold Step.outcome
  split at hu
  all_goals
    rename_i hif
    obtain ⟨rfl, rfl⟩ := Process.runs_done.mp hu
  · rw [if_pos hif]
    exact .inr ⟨rfl, rfl⟩
  · rw [if_neg hif]
    exact .inr ⟨rfl, rfl⟩

/-- **A run of a step**: it has not begun, its action is under way, or it is at its
end. -/
theorem runs_observed {step : Step} {index : Nat} {r : Runner σ}
    (h : (observed engine step index r vars).Runs t q) :
    (t = [] ∧ ¬ q.Ended)
      ∨ (∃ u q', t = .start step index vars.depth :: u ∧ (r vars).Runs u q' ∧ ¬ q.Ended)
      ∨ ∃ u o, t = .start step index vars.depth :: (u ++
          [.finish step index vars.depth (o.result.map Flow.value) (engine.logs step)])
        ∧ (r vars).Runs u (.done o) ∧ q = .done (step.outcome o) := by
  obtain ⟨rfl, rfl⟩ | ⟨u, _, rfl, hu⟩ := Process.runs_act.mp h
  · exact .inl ⟨rfl, nofun⟩
  obtain ⟨q', rfl, h₁, he⟩ | ⟨t₁, t₂, o, rfl, h₁, h₂⟩ := Process.runs_andThen hu
  · exact .inr (.inl ⟨u, q', rfl, h₁, Process.not_ended_andThen he⟩)
  obtain ⟨rfl, he⟩ | ⟨rfl, rfl⟩ := runs_ending h₂
  · rw [List.append_nil]
    exact .inr (.inl ⟨t₁, _, rfl, h₁, he⟩)
  · exact .inr (.inr ⟨t₁, o, rfl, h₁, rfl⟩)

/-- What a call ends with, by the outcome of its steps: it fails, or it yields a value.
A return has become the value of the call. -/
structure Answers (o o' : Outcome) : Prop where
  vars : o'.vars = o.vars.leave
  ne_return : ∀ v, o'.result ≠ .ok (.return v)
  of_return : ∀ v, o.result = .ok (.return v) → o'.result = .ok (.continue v)

/-- **The end of a call** does nothing. -/
theorem runs_returning {keyword : Keyword} {name : String} {o : Outcome}
    (h : (returning engine keyword name o).Runs t q) :
    t = [] ∧ ((∃ o', q = .done o' ∧ Answers o o') ∨ ∃ c, q = .crash c) := by
  unfold returning at h
  split at h
  · rename_i f hf
    obtain ⟨rfl, rfl⟩ := Process.runs_done.mp h
    exact ⟨rfl, .inl ⟨_, rfl, rfl, nofun, fun v hv => by rw [hf] at hv; cases hv⟩⟩
  · rename_i v hv
    obtain ⟨rfl, rfl⟩ := Process.runs_done.mp h
    refine ⟨rfl, .inl ⟨_, rfl, rfl, nofun, fun w hw => ?_⟩⟩
    rw [hv] at hw
    cases hw
    rfl
  · rename_i v hv
    have hno : ∀ w, o.result ≠ .ok (.return w) := fun w hw => by
      rw [hv] at hw
      cases hw
    unfold compute at h
    split at h
    · obtain ⟨rfl, rfl⟩ := Process.runs_done.mp h
      exact ⟨rfl, .inl ⟨_, rfl, rfl, nofun, fun w hw => absurd hw (hno w)⟩⟩
    · obtain ⟨rfl, rfl⟩ := Process.runs_done.mp h
      exact ⟨rfl, .inl ⟨_, rfl, rfl, nofun, fun w hw => absurd hw (hno w)⟩⟩
    · obtain ⟨rfl, rfl⟩ := Process.runs_crash.mp h
      exact ⟨rfl, .inr ⟨_, rfl⟩⟩

/-- **A run of a call**: its steps are under way, or they have ended and the call has. -/
theorem runs_calling {keyword : Keyword} {name : String} {args : List Value}
    {steps : Runner σ} (h : (calling engine keyword name args steps vars).Runs t q) :
    (∃ q', (steps (vars.enter (keyword.bindArguments args))).Runs t q' ∧ ¬ q.Ended)
      ∨ ∃ o o', (steps (vars.enter (keyword.bindArguments args))).Runs t (.done o)
        ∧ q = .done o' ∧ Answers o o' := by
  obtain ⟨q', rfl, h₁, he⟩ | ⟨t₁, t₂, o, rfl, h₁, h₂⟩ := Process.runs_andThen h
  · exact .inl ⟨q', h₁, Process.not_ended_andThen he⟩
  · obtain ⟨rfl, ⟨o', rfl, ho⟩ | ⟨c, rfl⟩⟩ := runs_returning h₂
    · rw [List.append_nil]
      exact .inr ⟨o, o', h₁, rfl, ho⟩
    · rw [List.append_nil]
      exact .inl ⟨_, h₁, nofun⟩

end Runner

/-! ## Tidy tasks -/

/-- **A task that begins and ends steps as it should**, where the steps of its own list
have the depth `n`. -/
def Engine.Tidy (engine : Engine σ) (n : Nat) (p : Task σ) : Prop :=
  ∀ t q, p.Runs t q → (∀ d ∈ t, d.StartsFrom n)
    ∧ ∀ o, q = .done o → engine.Balanced t ∧ o.vars.depth = n

/-- A runner that makes tidy tasks. -/
abbrev Runner.Tidy (engine : Engine σ) (n : Nat) (r : Runner σ) : Prop :=
  Holds (fun vars => vars.depth = n) (fun _ => engine.Tidy n) r

namespace Engine.Tidy

variable {engine : Engine σ} {n : Nat}

theorem balanced {p : Task σ} {t : List (Deed σ)} {o : Outcome} (h : engine.Tidy n p)
    (ht : p.Runs t (.done o)) : engine.Balanced t :=
  ((h t _ ht).2 o rfl).1

theorem depth {p : Task σ} {t : List (Deed σ)} {o : Outcome} (h : engine.Tidy n p)
    (ht : p.Runs t (.done o)) : o.vars.depth = n :=
  ((h t _ ht).2 o rfl).2

theorem done {o : Outcome} (h : o.vars.depth = n) : engine.Tidy n (.done o) := by
  intro t q ht
  obtain ⟨rfl, rfl⟩ := Process.runs_done.mp ht
  refine ⟨nofun, fun o' ho => ?_⟩
  cases ho
  exact ⟨.nil, h⟩

theorem crash {c : Crash} : engine.Tidy n (.crash c : Task σ) := by
  intro t q ht
  obtain ⟨rfl, rfl⟩ := Process.runs_crash.mp ht
  exact ⟨nofun, nofun⟩

/-- Something is done that is no bracket. -/
theorem act {deed : Deed σ} {next : World σ → Task σ} (hd : deed.isAside = true)
    (h : ∀ w, engine.Tidy n (next w)) : engine.Tidy n (.act deed next) := by
  intro t q ht
  obtain ⟨rfl, rfl⟩ | ⟨u, w, rfl, hu⟩ := Process.runs_act.mp ht
  · exact ⟨nofun, nofun⟩
  · obtain ⟨hs, he⟩ := h w u q hu
    exact ⟨List.forall_mem_cons.mpr ⟨Deed.startsFrom_of_isAside hd, hs⟩,
      fun o ho => ⟨.aside hd (he o ho).1, (he o ho).2⟩⟩

theorem andThen {p : Task σ} {k : Outcome → Task σ} (hp : engine.Tidy n p)
    (hk : ∀ o, o.vars.depth = n → engine.Tidy n (k o)) : engine.Tidy n (p.andThen k) := by
  intro t q ht
  obtain ⟨q', rfl, h₁, he⟩ | ⟨t₁, t₂, o', rfl, h₁, h₂⟩ := Process.runs_andThen ht
  · exact ⟨(hp t q' h₁).1, fun o ho => absurd ⟨o, ho⟩ (Process.not_ended_andThen he)⟩
  · obtain ⟨hs, he⟩ := hk o' (hp.depth h₁) t₂ q h₂
    exact ⟨List.forall_mem_append.mpr ⟨(hp t₁ _ h₁).1, hs⟩,
      fun o ho => ⟨(hp.balanced h₁).append (he o ho).1, (he o ho).2⟩⟩

/-- A task that waits is tidy if it goes on so. -/
theorem of_next {p : Task σ} (hp : ¬ p.Ended)
    (h : ∀ t q, p.Runs t q →
      (t = [] ∧ q = p) ∨ ∃ next, engine.Tidy n next ∧ next.Runs t q) :
    engine.Tidy n p := by
  intro t q ht
  obtain ⟨rfl, rfl⟩ | ⟨next, hn, ht⟩ := h t q ht
  · exact ⟨nofun, fun o ho => absurd ⟨o, ho⟩ hp⟩
  · exact hn t q ht

/-- **The rules for tidy tasks.** Nothing has to be known of the operations of a block,
since what they do is done by tasks of their own. -/
theorem rules (engine : Engine σ) (n : Nat) : Rules (fun vars => vars.depth = n)
    (fun _ => engine.Tidy n) fun _ _ => True where
  bound name v h := (Variables.depth_bind name v _).trans h
  bind _ _ _ h := h
  done _ h := .done h
  crash := .crash
  andThen := andThen
  measure := ⟨fun h => .act rfl fun _ => h, fun h => .act rfl fun _ => h⟩
  own h := .act rfl h
  look h := .act rfl h
  sleep _ h := .of_next nofun fun _ _ ht => by
    cases ht with
    | refl => exact .inl ⟨rfl, rfl⟩
    | slept ht => exact .inr ⟨_, h, ht⟩
  gathering _ _ h := .of_next nofun fun _ _ ht => by
    cases ht with
    | refl => exact .inl ⟨rfl, rfl⟩
    | gathered s ht => exact .inr ⟨_, h s, ht⟩
  racing _ _ h := .of_next nofun fun _ _ ht => by
    cases ht with
    | refl => exact .inl ⟨rfl, rfl⟩
    | raced s ht => exact .inr ⟨_, h s, ht⟩
  operation _ _ _ _ := trivial
  retrying _ _ _ _ _ _ _ := trivial

theorem assignGlobals (values : List (String × Value)) (last : Value) :
    Runner.Tidy engine n (.assignFrom engine .globals last values) := by
  induction values generalizing last with
  | nil => exact (rules engine n).yield last
  | cons field rest ih => exact (rules engine n).compute fun v vars hv => ih v _ hv

/-- **A step is in brackets.** -/
theorem observed (step : Step) (index : Nat) {r : Runner σ} (hr : r.Tidy engine n) :
    Runner.Tidy engine n (.observed engine step index r) := by
  intro vars hv t q ht
  have hstart : (Deed.start (σ := σ) step index vars.depth).StartsFrom n := Nat.le_of_eq hv.symm
  obtain ⟨rfl, he⟩ | ⟨u, q', rfl, h₁, he⟩ | ⟨u, o, rfl, h₁, rfl⟩ := Runner.runs_observed ht
  · exact ⟨nofun, fun o ho => absurd ⟨o, ho⟩ he⟩
  · exact ⟨List.forall_mem_cons.mpr ⟨hstart, (hr vars hv u q' h₁).1⟩,
      fun o ho => absurd ⟨o, ho⟩ he⟩
  · refine ⟨List.forall_mem_cons.mpr ⟨hstart, List.forall_mem_append.mpr
      ⟨(hr vars hv u _ h₁).1, List.forall_mem_cons.mpr ⟨trivial, nofun⟩⟩⟩, fun o' ho => ?_⟩
    cases ho
    exact ⟨.step ((hr vars hv).balanced h₁) .nil,
      (step.depth_outcome o).trans ((hr vars hv).depth h₁)⟩

/-- The steps of a call are deeper than the call. -/
theorem starts_of_calling {keyword : Keyword} {name : String} {args : List Value}
    {steps : Runner σ} (hs : steps.Tidy engine (n + 1)) {vars : Variables}
    (hv : vars.depth = n) {t : List (Deed σ)} {q : Task σ}
    (h : (Runner.calling engine keyword name args steps vars).Runs t q) :
    ∀ d ∈ t, d.StartsFrom (n + 1) := by
  have hin : (vars.enter (keyword.bindArguments args)).depth = n + 1 := by
    rw [Variables.depth_enter, hv]
  obtain ⟨q', h₁, -⟩ | ⟨o, o', h₁, -, -⟩ := Runner.runs_calling h
  · exact (hs _ hin t q' h₁).1
  · exact (hs _ hin t _ h₁).1

theorem calling (keyword : Keyword) (name : String) (args : List Value) {steps : Runner σ}
    (hs : steps.Tidy engine (n + 1)) :
    Runner.Tidy engine n (.calling engine keyword name args steps) := by
  intro vars hv t q h
  have hin : (vars.enter (keyword.bindArguments args)).depth = n + 1 := by
    rw [Variables.depth_enter, hv]
  refine ⟨fun d hd => (starts_of_calling hs hv h d hd).mono (Nat.le_succ n), fun o' ho' => ?_⟩
  obtain ⟨q', h₁, he⟩ | ⟨o, o'', h₁, rfl, ha⟩ := Runner.runs_calling h
  · exact absurd ⟨o', ho'⟩ he
  · cases ho'
    refine ⟨(hs _ hin).balanced h₁, ?_⟩
    rw [ha.vars, Variables.depth_leave, (hs _ hin).depth h₁, Nat.add_sub_cancel]

/-- **All constructs and calls are tidy.** -/
theorem levels (engine : Engine σ) :
    Levels engine (fun n _ => Runner.Tidy engine n) (Engine.Tidy engine) where
  visit h := .act rfl h
  refused f := (rules engine _).fail f
  calling keyword name args _ hs := calling keyword name args hs
  constructs _ hcall := (rules engine _).constructs hcall (fun _ _ _ hr => hr)
    (fun values => assignGlobals values .null) fun step index _ _ hr => observed step index hr

end Engine.Tidy

/-- **Every list of steps is tidy.** -/
theorem Engine.tidy_execute (engine : Engine σ) (steps : List Step) (vars : Variables) :
    engine.Tidy vars.depth (engine.execute steps vars) :=
  (Tidy.levels engine).execute steps vars

end Playbook
