import Playbook.Proofs.Process.Course
import Playbook.Proofs.Run.Balance

/-!
# Steps inside of steps

When a step begins in the run of a task, the task is that step with something around it:
the continuations of the lists, loops, tries and calls that it stands in (`Engine.Entry`).
What is around it decides what is done with its outcome.

Inside of one call that is known in more detail. A `return` gets out of all that is around
it, but for the `finally` lists on its way (`Engine.Frames`). They belong to steps that have
begun and have not ended (`Engine.Opened`).
-/

namespace Playbook

variable {σ : Type}

/-- Whether a deed begins a step. -/
def Deed.isStart : Deed σ → Bool
  | start _ _ _ => true
  | _ => false

/-- The list of steps that an action is to run in the end in any case, if it has one. -/
def Action.finallies : Action → List (List Step)
  | .try_ _ _ finally_ _ => [finally_]
  | _ => []

/-- What a step does, by its action. -/
theorem Engine.executeStep_eq (engine : Engine σ) (step : Step) (index : Nat)
    (vars : Variables) : engine.executeStep step index vars = Runner.observed engine step index
      (Action.runner engine (engine.invokeWithin (engine.callsLeft vars)) step.keys step.action)
      vars := by
  obtain ⟨action, returns, continueOnError, label, source⟩ := step
  rfl

namespace Engine

/-! ## Entries -/

/-- **A step that is entered** in the run of a task, after the deeds `t` and before the deeds
`u`: the task is the step then, with something around it. -/
structure Entry (engine : Engine σ) (p : Task σ) (t : List (Deed σ)) (step : Step)
    (index depth : Nat) (u : List (Deed σ)) (q : Task σ) (C : Task σ → Task σ)
    (here : Variables) : Prop where
  context : Process.Context C
  level : here.depth = depth
  before : p.Runs t (C (engine.executeStep step index here))
  after : (C (engine.executeStep step index here)).Runs (.start step index depth :: u) q

/-- **Every step that begins is entered.** `O` is about what is around it, by its depth and
the deeds before it. -/
def Enters (engine : Engine σ) (O : Nat → List (Deed σ) → (Task σ → Task σ) → Prop)
    (p : Task σ) : Prop :=
  ∀ t step index depth u q, p.Runs (t ++ .start step index depth :: u) q →
    ∃ C here, engine.Entry p t step index depth u q C here ∧ O depth t C

namespace Entry

variable {engine : Engine σ} {p q q' : Task σ} {t u v : List (Deed σ)} {step : Step}
  {index depth : Nat} {C : Task σ → Task σ} {here : Variables} {k : Outcome → Task σ}

/-- Something follows the task. -/
theorem andThen (h : engine.Entry p t step index depth u q' C here)
    (hq : (q'.andThen k).Runs v q) : engine.Entry (p.andThen k) t step index depth (u ++ v) q
      (fun x => (C x).andThen k) here where
  context := h.context.andThen k
  level := h.level
  before := h.before.before k
  after := (h.after.before k).trans hq

/-- Something leads to the task. -/
theorem later {p' : Task σ} (h : engine.Entry p t step index depth u q C here)
    (hp : ∀ {s r}, p.Runs s r → p'.Runs (v ++ s) r) :
    engine.Entry p' (v ++ t) step index depth u q C here where
  context := h.context
  level := h.level
  before := hp h.before
  after := h.after

end Entry

namespace Enters

variable {engine : Engine σ} {O O' : Nat → List (Deed σ) → (Task σ → Task σ) → Prop}
  {p : Task σ}

theorem mono (h : engine.Enters O p) (hO : ∀ {depth t C}, O depth t C → O' depth t C) :
    engine.Enters O' p := by
  intro t step index depth u q ht
  obtain ⟨C, here, h, ho⟩ := h t step index depth u q ht
  exact ⟨C, here, h, hO ho⟩

/-- A task that begins no step. -/
theorem of_forall (h : ∀ t q, p.Runs t q → ∀ d ∈ t, d.isStart = false) :
    engine.Enters O p := by
  intro t step index depth u q ht
  have hd := h _ q ht (.start step index depth) (List.mem_append_right t List.mem_cons_self)
  cases hd

theorem done {o : Outcome} : engine.Enters O (.done o : Task σ) :=
  of_forall fun t q ht => by
    obtain ⟨rfl, -⟩ := Process.runs_done.mp ht
    exact nofun

theorem crash {c : Crash} : engine.Enters O (.crash c : Task σ) :=
  of_forall fun t q ht => by
    obtain ⟨rfl, -⟩ := Process.runs_crash.mp ht
    exact nofun

/-- Something is done that is no bracket. -/
theorem act {deed : Deed σ} {next : World σ → Task σ} (hd : deed.isAside = true)
    (hO : ∀ {depth t C}, O depth t C → O depth (deed :: t) C)
    (h : ∀ w, engine.Enters O (next w)) : engine.Enters O (.act deed next) := by
  intro t step index depth u q ht
  obtain ⟨he, -⟩ | ⟨v, w, he, hv⟩ := Process.runs_act.mp ht
  · exact absurd he (List.append_ne_nil_of_right_ne_nil t (List.cons_ne_nil _ _))
  · cases t with
    | nil =>
      obtain ⟨rfl, -⟩ := List.cons.inj he
      cases hd
    | cons d t =>
      obtain ⟨rfl, rfl⟩ := List.cons.inj he
      obtain ⟨C, here, h, ho⟩ := h w t step index depth u q hv
      exact ⟨C, here, h.later (v := [d]) fun hr => .act w hr, hO ho⟩

/-- A task that waits enters what it goes on with. -/
theorem of_next (h : ∀ t q, p.Runs t q → t = [] ∨ ∃ next, engine.Enters O next
    ∧ next.Runs t q ∧ ∀ {s r}, next.Runs s r → p.Runs s r) : engine.Enters O p := by
  intro t step index depth u q ht
  obtain he | ⟨next, hn, hr, hp⟩ := h _ q ht
  · exact absurd he (List.append_ne_nil_of_right_ne_nil t (List.cons_ne_nil _ _))
  · obtain ⟨C, here, h, ho⟩ := hn t step index depth u q hr
    exact ⟨C, here, h.later (v := []) hp, ho⟩

/-- **One task after another.** A step of the first is entered with the second around it,
and one of the second after all of the first. -/
theorem andThen {k : Outcome → Task σ} (hp : engine.Enters O p)
    (hO : ∀ {depth t C}, O depth t C → O' depth t fun x => (C x).andThen k)
    (hk : ∀ v o, p.Runs v (.done o) → engine.Enters O' (k o)
      ∧ ∀ {depth t C}, O' depth t C → O' depth (v ++ t) C) :
    engine.Enters O' (p.andThen k) := by
  intro t step index depth u q h
  obtain ⟨q', rfl, h₁, -⟩ | ⟨t₁, t₂, o, he, h₁, h₂⟩ := Process.runs_andThen h
  · obtain ⟨C, here, h, ho⟩ := hp t step index depth u q' h₁
    have h' := h.andThen (k := k) .refl
    rw [List.append_nil] at h'
    exact ⟨_, here, h', hO ho⟩
  · obtain ⟨v, rfl, rfl⟩ | ⟨v, rfl, rfl⟩ := append_eq_append_cons he
    · obtain ⟨C, here, h, ho⟩ := hp t step index depth v _ h₁
      exact ⟨_, here, h.andThen h₂, hO ho⟩
    · obtain ⟨hk, hO'⟩ := hk t₁ o h₁
      obtain ⟨C, here, h, ho⟩ := hk v step index depth u q h₂
      exact ⟨C, here, h.later h₁.andThen, hO' ho⟩

end Enters

/-! ## The surroundings in one call -/

/-- **The steps that have begun and not ended**, the innermost first. -/
inductive Opened (engine : Engine σ) : List (Deed σ) → List Step → Prop
  | nil : Opened engine [] []
  | closed {t u : List (Deed σ)} {open_ : List Step} (ht : engine.Balanced t)
      (hu : Opened engine u open_) : Opened engine (t ++ u) open_
  | start {step : Step} {index depth : Nat} {u : List (Deed σ)} {open_ : List Step}
      (hu : Opened engine u open_) :
      Opened engine (.start step index depth :: u) (open_ ++ [step])

end Engine

/-- **What passes returns on**: behind a task that returns it begins no step, and it ends
with that return. -/
def Runner.Passes (k : Outcome → Task σ) : Prop :=
  ∀ o v, o.result = .ok (.return v) → ∀ t q, (k o).Runs t q →
    (∀ d ∈ t, d.isStart = false) ∧ ∀ o', q = .done o' → o' = o

theorem Runner.Passes.of_done {k : Outcome → Task σ}
    (h : ∀ o v, o.result = .ok (.return v) → k o = .done o) : Passes k := by
  intro o v ho t q hr
  rw [h o v ho] at hr
  obtain ⟨rfl, rfl⟩ := Process.runs_done.mp hr
  exact ⟨nofun, fun o' he => by cases he; rfl⟩

namespace Engine

/-- **What is around a task inside of one call**, where `n` calls are under way, and the
`finally` lists in it that are still to run, the innermost first. All else passes returns
on. -/
inductive Frames (engine : Engine σ) (n : Nat) : List (List Step) → (Task σ → Task σ) → Prop
  | here : Frames engine n [] fun x => x
  | passing {fs C} {k : Outcome → Task σ} (h : Frames engine n fs C) (hk : Runner.Passes k) :
      Frames engine n fs fun x => (C x).andThen k
  | restoring {fs C} {r : Runner σ} (h : Frames engine n fs C) (finally_ : List Step)
      (hr : ∀ vars : Variables, vars.depth = n → r vars = engine.execute finally_ vars) :
      Frames engine n (fs ++ [finally_]) fun x => (C x).andThen fun o => Runner.restoring o r

/-- **What is known of the surroundings of a step** that is entered where `n` calls are under
way. If the step is one of the innermost call, the `finally` lists that are still to run are
those of open steps, but for `G`, which belong to the step that the task is inside of. -/
structure Own (engine : Engine σ) (n : Nat) (G : List (List Step)) (depth : Nat)
    (t : List (Deed σ)) (C : Task σ → Task σ) : Prop where
  le : n ≤ depth
  frames : depth = n → ∃ open_ fs, engine.Opened t open_ ∧ engine.Frames n fs C
    ∧ fs.Sublist (open_.flatMap (fun step => step.action.finallies) ++ G)

namespace Own

variable {engine : Engine σ} {n depth : Nat} {G G' : List (List Step)}
  {t u : List (Deed σ)} {C : Task σ → Task σ} {k : Outcome → Task σ}

theorem mono (h : engine.Own n G depth t C) (hG : G.Sublist G') :
    engine.Own n G' depth t C where
  le := h.le
  frames hd := by
    obtain ⟨open_, fs, ho, hf, hs⟩ := h.frames hd
    exact ⟨open_, fs, ho, hf, hs.trans (hG.append_left _)⟩

theorem passing (hk : Runner.Passes k) (h : engine.Own n G depth t C) :
    engine.Own n G depth t fun x => (C x).andThen k where
  le := h.le
  frames hd := by
    obtain ⟨open_, fs, ho, hf, hs⟩ := h.frames hd
    exact ⟨open_, fs, ho, hf.passing hk, hs⟩

theorem restoring {finally_ : List Step} {r : Runner σ}
    (hr : ∀ vars : Variables, vars.depth = n → r vars = engine.execute finally_ vars)
    (h : engine.Own n [] depth t C) :
    engine.Own n [finally_] depth t fun x => (C x).andThen fun o => Runner.restoring o r where
  le := h.le
  frames hd := by
    obtain ⟨open_, fs, ho, hf, hs⟩ := h.frames hd
    rw [List.append_nil] at hs
    exact ⟨open_, fs ++ [finally_], ho, hf.restoring finally_ hr, hs.append_right [finally_]⟩

theorem later (hu : engine.Balanced u) (h : engine.Own n G depth t C) :
    engine.Own n G depth (u ++ t) C where
  le := h.le
  frames hd := by
    obtain ⟨open_, fs, ho, hf, hs⟩ := h.frames hd
    exact ⟨open_, fs, .closed hu ho, hf, hs⟩

/-- The task is inside of a step. -/
theorem inside {step : Step} {index m : Nat}
    (h : engine.Own n step.action.finallies depth t C) :
    engine.Own n [] depth (.start step index m :: t) C where
  le := h.le
  frames hd := by
    obtain ⟨open_, fs, ho, hf, hs⟩ := h.frames hd
    refine ⟨open_ ++ [step], fs, .start ho, hf, ?_⟩
    rw [List.flatMap_append, List.flatMap_singleton, List.append_nil]
    exact hs

/-- A step inside of a call is none of the caller's. -/
theorem outside (h : engine.Own (n + 1) G depth t C) {C' : Task σ → Task σ} :
    engine.Own n [] depth t C' where
  le := Nat.le_of_succ_le h.le
  frames hd := by
    have hlt := h.le
    omega

end Own

end Engine

end Playbook
