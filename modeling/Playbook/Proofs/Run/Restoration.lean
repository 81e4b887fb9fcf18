import Playbook.Proofs.Process.Schedule
import Playbook.Proofs.Run.Construct
import Playbook.Session

/-!
# Keyword calls restore the variables

A keyword call has variables of its own, and what its steps bind goes there:
the `returns` of a step, a `let`, the variables of a loop, a caught failure.
So the call leaves all frames of its caller as they were, and of the globals
it changes only those that one of its `set` steps writes. Operations of
concurrent blocks work on copies and change nothing at all.

The steps of a call run with at least one frame, the call's own. `Kept` says
what a run of them does to the variables: the outer frames stay, and a global
stays unless a `set` step of the run wrote it. Each construct keeps this
(`constructs_keep`), and the main statement is `Engine.restores_invoke`. It is
about all that a call can reach, and so about every run of it in a session,
whatever else goes on there (`Session.frames_of_run_invoke`).
-/

namespace Playbook

variable {σ : Type}

/-- **A `set` step that wrote a name has ended**: it has not failed, and the name
is among those that it writes. The steps of operations of concurrent blocks do
not count where they are not deeds of the run. -/
def Deed.Sets (name : String) : Deed σ → Prop
  | .finish step _ _ (.ok _) _ =>
    ∃ values, step.action = .assign .globals values ∧ name ∈ Named.names values
  | _ => False

/-- **What a run inside of a call keeps**: it is still in the call, the outer
frames are as they were, and so are the globals that no `set` step of the run
wrote. -/
structure Kept (t : List (Deed σ)) (before after : Variables) : Prop where
  inside : after.frames ≠ []
  outer : after.frames.tail = before.frames.tail
  global : ∀ n, (∀ d ∈ t, ¬ d.Sets n) →
    after.globals.lookup n = before.globals.lookup n
  globals : (∀ d ∈ t, ∀ n, ¬ d.Sets n) → after.globals = before.globals

namespace Kept

variable {t u : List (Deed σ)} {a b c : Variables}

theorem refl (h : a.frames ≠ []) : Kept t a a :=
  ⟨h, rfl, fun _ _ => rfl, fun _ => rfl⟩

theorem trans (h₁ : Kept t a b) (h₂ : Kept u b c) : Kept (t ++ u) a c where
  inside := h₂.inside
  outer := h₂.outer.trans h₁.outer
  global n ht :=
    (h₂.global n fun d hd => ht d (List.mem_append_right t hd)).trans
      (h₁.global n fun d hd => ht d (List.mem_append_left u hd))
  globals ht :=
    (h₂.globals fun d hd => ht d (List.mem_append_right t hd)).trans
      (h₁.globals fun d hd => ht d (List.mem_append_left u hd))

theorem cons (d : Deed σ) (h : Kept t a b) : Kept (d :: t) a b where
  inside := h.inside
  outer := h.outer
  global n ht := h.global n fun d hd => ht d (List.mem_cons_of_mem _ hd)
  globals ht := h.globals fun d hd => ht d (List.mem_cons_of_mem _ hd)

/-- Inside of a call a name is bound among the variables of the call. -/
theorem bind (h : a.frames ≠ []) (name : String) (v : Value) :
    Kept t a (a.bind name v) := by
  obtain ⟨frame, outer, hf⟩ := List.exists_cons_of_ne_nil h
  have hb : a.bind name v = { a with frames := frame.put name v :: outer } := by
    rw [Variables.bind, hf]
  rw [hb]
  exact ⟨List.cons_ne_nil _ _, by rw [hf]; rfl, fun _ _ => rfl, fun _ => rfl⟩

theorem bindReturns {o : Outcome} (h : o.vars.frames ≠ [])
    (returns : Option String) : Kept t o.vars (Runner.bindReturns returns o) := by
  unfold Runner.bindReturns
  split
  · exact bind h _ _
  · exact refl h

end Kept

/-! ## Tasks that keep the variables -/

/-- All that a task ends with keeps the variables that it began with. -/
def KeepsFrom (before : Variables) (p : Task σ) : Prop :=
  ∀ t o, p.Reaches t (.inl o) → Kept t before o.vars

/-- A runner inside of a call keeps the variables it finds. -/
abbrev Keeps (r : Runner σ) : Prop :=
  Holds (fun vars => vars.frames ≠ []) KeepsFrom r

/-- Anything that is done before keeps the variables. -/
theorem KeepsFrom.act {before : Variables} {deed : Deed σ}
    {next : World σ → Task σ} (h : ∀ w, KeepsFrom before (next w)) :
    KeepsFrom before (.act deed next) := by
  intro t o hr
  obtain ⟨u, w, rfl, hn⟩ := Process.reaches_act.mp hr
  exact (h w u o hn).cons deed

/-- **The rules for keeping variables.** Whatever the operations of a block come
to, it goes on with the variables from before it. -/
theorem rules_keepsFrom : Rules (σ := σ) (fun vars => vars.frames ≠ []) KeepsFrom
    fun _ _ => True where
  bound name v h := (Kept.bind (σ := σ) (t := []) h name v).inside
  bind name v h hp t o ht := (Kept.bind (t := []) h name v).trans (hp t o ht)
  done o h t o' ht := by
    obtain ⟨rfl, he⟩ := Process.reaches_done.mp ht
    rw [Sum.inl.inj he]
    exact .refl h
  crash _ _ ht := (Process.reaches_crash ht).elim
  andThen hp hk t o ht := by
    obtain ⟨v, hv, -⟩ | ⟨t₁, t₂, b, rfl, h₁, h₂⟩ := Process.reaches_andThen ht
    · cases hv
    · have hb := hp t₁ b h₁
      exact hb.trans (hk b hb.inside t₂ o h₂)
  own h := .act h
  look h := .act h
  measure := ⟨fun h => .act fun _ => h, fun h => .act fun _ => h⟩
  sleep _ h t o ht := by
    cases ht with
    | slept hn => exact h t o hn
  gathering _ _ h t o ht := by
    cases ht with
    | gathered s hn => exact h s t o hn
  racing _ _ h t o ht := by
    cases ht with
    | raced s hn => exact h s t o hn
  operation _ _ _ _ := trivial
  retrying _ _ _ _ _ _ _ := trivial

/-! ## Assignments to globals -/

/-- What an assignment to globals comes to: it does not fail, and it changes
nothing but the globals that it names. -/
structure Assigned (names : List String) (before : Variables) (o : Outcome) :
    Prop where
  succeeded : o.failed = false
  frames : o.vars.frames = before.frames
  global : ∀ n, n ∉ names → o.vars.globals.lookup n = before.globals.lookup n
  globals : names = [] → o.vars.globals = before.globals

/-- Values are resolved without a failure, if they do not crash. -/
theorem Engine.resolve_ne_failure {engine : Engine σ} {v : Value}
    {vars : Variables} {f : Failure} :
    engine.resolve v vars ≠ .error (.failure f) := by
  unfold Engine.resolve
  cases (engine.scope vars).resolve v with
  | ok v => exact nofun
  | error c => exact nofun

theorem assigned_of_reaches {engine : Engine σ} {values : List (String × Value)}
    {last : Value} {vars : Variables} {t : List (Deed σ)} {o : Outcome}
    (h : (Runner.assignFrom engine .globals last values vars).Reaches t (.inl o)) :
    Assigned (Named.names values) vars o := by
  induction values generalizing last vars with
  | nil =>
    obtain ⟨-, ho⟩ := Process.reaches_done.mp h
    rw [Sum.inl.inj ho]
    exact ⟨rfl, rfl, fun _ _ => rfl, fun _ => rfl⟩
  | cons field rest ih =>
    obtain ⟨name, v⟩ := field
    unfold Runner.assignFrom Runner.compute at h
    cases hv : engine.resolve v vars with
    | ok v =>
      rw [hv] at h
      have hr := ih h
      refine ⟨hr.succeeded, hr.frames, fun n hn => ?_, nofun⟩
      obtain ⟨hne, hrest⟩ := not_or.mp fun hm => hn (List.mem_cons.mpr hm)
      exact (hr.global n hrest).trans
        (Named.lookup_put_of_ne hne v vars.globals)
    | error e =>
      rw [hv] at h
      cases e with
      | failure f => exact absurd hv Engine.resolve_ne_failure
      | crash c => exact (Process.reaches_crash h).elim

/-! ## Steps -/

/-- What the action of a step keeps. An assignment to globals is told apart: what
it writes is seen only when its step has ended. -/
def KeepsAction : Action → Runner σ → Prop
  | .assign .globals values, r => ∀ vars t o, (r vars).Reaches t (.inl o) →
    Assigned (Named.names values) vars o
  | _, r => Keeps r

theorem KeepsAction.of_keeps {a : Action} {r : Runner σ}
    (ha : ∀ values, a ≠ .assign .globals values) (hr : Keeps r) :
    KeepsAction a r := by
  unfold KeepsAction
  split
  · exact absurd rfl (ha _)
  · exact hr

/-- The end of an assignment to globals counts for what it has written. -/
theorem Assigned.kept {step : Step} {values : List (String × Value)}
    {before : Variables} {o : Outcome} (h : Assigned (Named.names values) before o)
    (ha : step.action = .assign .globals values) (hb : before.frames ≠ [])
    (t : List (Deed σ)) (index depth : Nat) (logged : Bool) :
    Kept (t ++ [.finish step index depth (o.result.map Flow.value) logged])
      before o.vars := by
  have hset : ∀ n ∈ Named.names values, (Deed.finish (σ := σ) step index depth
      (o.result.map Flow.value) logged).Sets n := by
    intro n hn
    have hf := h.succeeded
    cases hres : o.result with
    | ok flow => exact ⟨values, ha, hn⟩
    | error f =>
      rw [Outcome.failed, hres] at hf
      cases hf
  have hlast : Deed.finish (σ := σ) step index depth (o.result.map Flow.value) logged
      ∈ t ++ [.finish step index depth (o.result.map Flow.value) logged] :=
    List.mem_append_right t List.mem_cons_self
  refine ⟨?_, ?_, fun n ht => ?_, fun ht => ?_⟩
  · rw [h.frames]
    exact hb
  · rw [h.frames]
  · exact h.global n fun hn => ht _ hlast (hset n hn)
  · refine h.globals (List.eq_nil_iff_forall_not_mem.mpr fun n hn => ?_)
    exact ht _ hlast n (hset n hn)

/-- **A step keeps the variables if its action does**, since the end of an
assignment to globals is among the deeds of the run. -/
theorem keeps_observed {engine : Engine σ} (step : Step) (index : Nat)
    {r : Runner σ} (hr : KeepsAction step.action r) :
    Keeps (.observed engine step index r) := by
  intro vars h
  refine .act fun _ t o ht => ?_
  obtain ⟨v, hv, -⟩ | ⟨t₁, t₂, b, rfl, h₁, h₂⟩ := Process.reaches_andThen ht
  · cases hv
  obtain ⟨u, w, rfl, hu⟩ := Process.reaches_act.mp h₂
  have ho : u = [] ∧ o.vars = Runner.bindReturns step.returns b := by
    split at hu
    all_goals
      obtain ⟨ht, ho⟩ := Process.reaches_done.mp hu
      rw [Sum.inl.inj ho]
      exact ⟨ht, rfl⟩
  rw [ho.1, ho.2]
  have hb : ∀ logged, Kept (t₁ ++ [.finish step index vars.depth
      (b.result.map Flow.value) logged]) vars b.vars := by
    intro logged
    unfold KeepsAction at hr
    split at hr
    · rename_i values _ ha
      exact (hr vars t₁ b h₁).kept ha h t₁ index vars.depth logged
    · have hk := hr vars h t₁ b h₁
      exact hk.trans (.refl hk.inside)
  have hlogged := hb (!step.action.isControl || engine.settings.recordControlSteps)
  have hreturns : Kept (σ := σ) [] b.vars (Runner.bindReturns step.returns b) :=
    .bindReturns hlogged.inside step.returns
  have hlast := hlogged.trans hreturns
  rw [List.append_nil] at hlast
  exact hlast

/-! ## Calls -/

/-- **What a keyword call restores**: all frames, and the globals that no
`set` step of its run wrote. -/
structure Restored (t : List (Deed σ)) (before after : Variables) : Prop where
  frames : after.frames = before.frames
  global : ∀ n, (∀ d ∈ t, ¬ d.Sets n) →
    after.globals.lookup n = before.globals.lookup n
  globals : (∀ d ∈ t, ∀ n, ¬ d.Sets n) → after.globals = before.globals

/-- A call leaves its own frame behind. -/
theorem Kept.restored {t : List (Deed σ)} {before inside : Variables}
    {bindings : Named Value}
    (h : Kept t (before.enter bindings) inside) :
    Restored t before inside.leave :=
  ⟨h.outer, h.global, h.globals⟩

/-- A runner that restores the variables it finds. -/
def Restores (r : Runner σ) : Prop :=
  ∀ vars t o, (r vars).Reaches t (.inl o) → Restored t vars o.vars

/-- Whatever a call ends with, it ends with the variables it leaves. -/
theorem vars_of_reaches_returning {engine : Engine σ} {keyword : Keyword}
    {name : String} {o o' : Outcome} {t : List (Deed σ)}
    (h : (Runner.returning engine keyword name o).Reaches t (.inl o')) :
    t = [] ∧ o'.vars = o.vars.leave := by
  unfold Runner.returning at h
  split at h
  · obtain ⟨ht, ho⟩ := Process.reaches_done.mp h
    rw [Sum.inl.inj ho]
    exact ⟨ht, rfl⟩
  · obtain ⟨ht, ho⟩ := Process.reaches_done.mp h
    rw [Sum.inl.inj ho]
    exact ⟨ht, rfl⟩
  · unfold Runner.compute at h
    split at h
    · obtain ⟨ht, ho⟩ := Process.reaches_done.mp h
      rw [Sum.inl.inj ho]
      exact ⟨ht, rfl⟩
    · obtain ⟨ht, ho⟩ := Process.reaches_done.mp h
      rw [Sum.inl.inj ho]
      exact ⟨ht, rfl⟩
    · exact (Process.reaches_crash h).elim

theorem restores_calling {engine : Engine σ} {keyword : Keyword} {name : String}
    {args : List Value} {steps : Runner σ} (hs : Keeps steps) :
    Restores (.calling engine keyword name args steps) := by
  intro vars t o h
  obtain ⟨v, hv, -⟩ | ⟨t₁, t₂, b, rfl, h₁, h₂⟩ := Process.reaches_andThen h
  · cases hv
  obtain ⟨rfl, ho⟩ := vars_of_reaches_returning h₂
  rw [ho, List.append_nil]
  exact (hs _ (List.cons_ne_nil _ _) t₁ b h₁).restored

/-- A call inside of a call keeps the variables of the outer one. -/
theorem Restores.keeps {r : Runner σ} (h : Restores r) : Keeps r := by
  intro vars hv t o ht
  have hr : Restored t vars o.vars := h vars t o ht
  refine ⟨?_, ?_, hr.global, hr.globals⟩
  · rw [hr.frames]
    exact hv
  · rw [hr.frames]

/-- **Every construct keeps the variables**, if keyword calls restore them. -/
theorem constructs_keep {engine : Engine σ} {call : Calls σ}
    (hc : ∀ name args, Restores (call name args)) :
    Constructs engine call KeepsAction Keeps Action.Any :=
  rules_keepsFrom.constructs (fun name args => (hc name args).keeps)
    (fun _ _ ha hr => .of_keeps ha hr)
    (fun _ _ _ _ h => assigned_of_reaches h)
    fun step index _ _ hr => keeps_observed step index hr

/-- A deed that sets nothing can be done before all is restored. -/
theorem Restored.cons {t : List (Deed σ)} {before after : Variables} (d : Deed σ)
    (h : Restored t before after) : Restored (d :: t) before after where
  frames := h.frames
  global n ht := h.global n fun e he => ht e (List.mem_cons_of_mem d he)
  globals ht := h.globals fun e he => ht e (List.mem_cons_of_mem d he)

/-- **Keyword calls restore the variables**, however many further calls may
be nested. -/
theorem restores_invokeWithin (engine : Engine σ) (left : Nat) (name : String)
    (args : List Value) : Restores (engine.invokeWithin left name args) := by
  -- a failing call has not touched anything
  have hfail : ∀ f : Failure, Restores (σ := σ) (.fail f) := by
    intro f vars t o h
    obtain ⟨-, ho⟩ := Process.reaches_done.mp h
    rw [Sum.inl.inj ho]
    exact ⟨rfl, fun _ _ => rfl, fun _ => rfl⟩
  induction left generalizing name args with
  | zero =>
    intro vars t o h
    unfold Engine.invokeWithin at h
    obtain ⟨u, w, rfl, hn⟩ := Process.reaches_act.mp h
    refine Restored.cons _ ?_
    split at hn
    · exact hfail _ vars u o hn
    · exact hfail _ vars u o hn
  | succ left ih =>
    intro vars t o h
    unfold Engine.invokeWithin at h
    obtain ⟨u, w, rfl, hn⟩ := Process.reaches_act.mp h
    refine Restored.cons _ ?_
    split at hn
    · exact hfail _ vars u o hn
    · exact restores_calling ((constructs_keep ih).listRunner _) vars u o hn

/-- A call that is run in a session leaves the frames as they were; operations
that are left from earlier runs make no difference. -/
theorem Session.frames_of_run_invoke {engine : Engine σ} {name : String}
    {args : List Value} {vars : Variables} {P : Task σ → Prop} {w : World σ}
    {session session' : Session σ} {turns : Nat} {o : Outcome}
    (hs : Machine.Schedule P (.ofWorld w) session)
    (hmain : ∀ task ∈ session.tasks, task.id ≠ Machine.mainId)
    (h : Machine.run turns (engine.invoke name args vars) session
      = (.finished o, session')) :
    o.vars.frames = vars.frames := by
  obtain ⟨t, ht⟩ := Machine.reaches_of_run hs hmain h
  exact (restores_invokeWithin engine (engine.callsLeft vars) name args vars t o ht).frames

/-- **A keyword call restores the variables of its caller**, whether it ends
with a value, by a `return` or with a failure. All frames are as they were,
and a global differs only if a `set` step of the call wrote it; the deeds `t`
of the call's own run do not have those of operations in concurrent blocks.
A call that executes no `set` step leaves everything as it was. -/
theorem Engine.restores_invoke (engine : Engine σ) (name : String)
    (args : List Value) (vars : Variables) (t : List (Deed σ)) (o : Outcome)
    (h : (engine.invoke name args vars).Reaches t (.inl o)) :
    o.vars.frames = vars.frames ∧ o.vars.depth = vars.depth
      ∧ (∀ n, o.vars.globals.lookup n ≠ vars.globals.lookup n →
          ∃ d ∈ t, d.Sets n)
      ∧ ((∀ d ∈ t, ∀ n, ¬ d.Sets n) → o.vars = vars) := by
  have hr : Restored t vars o.vars :=
    restores_invokeWithin engine (engine.callsLeft vars) name args vars t o h
  refine ⟨hr.frames, congrArg List.length hr.frames, fun n hn => ?_, fun ht => ?_⟩
  · refine Classical.byContradiction fun hs => hn (hr.global n fun d hd hset => ?_)
    exact hs ⟨d, hd, hset⟩
  · have hg := hr.globals ht
    have hf := hr.frames
    calc o.vars = ⟨o.vars.globals, o.vars.frames⟩ := rfl
      _ = vars := by rw [hg, hf]

/-- A keyword `k` that sets the global `x` and binds a variable `y` of its
own, called where `y` is a variable of the caller: `x` changes, `y` stays. -/
theorem Engine.restores_invoke_set_and_let :
    let engine : Engine Unit :=
      ⟨.default, .standard ⟨0, "", "", fun _ => none⟩, ⟨0, "", "", fun _ => none⟩⟩
    let one := Step.mk (.assign .globals [("x", .bool true)]) none false none .null
    let two := Step.mk (.assign .locals [("y", .bool true)]) none false none .null
    let vars : Variables := ⟨[("x", .null)], [[("y", .null)]]⟩
    let t : List (Deed Unit) := [.visit "k", .start one 1 2,
      .finish one 1 2 (.ok (.bool true)) false, .start two 2 2,
      .finish two 2 2 (.ok (.bool true)) false]
    let o : Outcome := .yield .null ⟨[("x", .bool true)], [[("y", .null)]]⟩
    (engine.invoke "k" [] vars).Reaches t (.inl o)
      ∧ o.vars.frames = vars.frames
      ∧ ∃ d ∈ t, d.Sets "x" := by
  intro engine one two vars t o
  let w : World Unit := .fresh ⟨[("k", ⟨"k", [], [one, two], none, none⟩)], []⟩ ()
  have h : (engine.invoke "k" [] vars).Reaches t (.inl o) := by
    show (engine.invokeWithin 9 "k" [] vars).Reaches t (.inl o)
    unfold Engine.invokeWithin
    exact .act w (.act w (.act w (.act w (.act w (.done o)))))
  have hr := Engine.restores_invoke engine "k" [] vars t o h
  refine ⟨h, hr.1, hr.2.2.1 "x" ?_⟩
  show some (Value.bool true) ≠ some Value.null
  intro he
  cases he

end Playbook
