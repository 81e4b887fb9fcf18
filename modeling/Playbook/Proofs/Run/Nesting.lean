import Playbook.Proofs.Run.Entry

/-!
# Every construct is proper

A task is proper if steps begin and end in it in brackets, if each step that begins is
entered with known surroundings, and if it ends with a return only when a return step of its
own call has been executed (`Engine.Proper`). All lists of steps are proper
(`Engine.proper_execute`): most constructs pass returns on as they are, a `try` runs its
`finally` list first, and a call makes a value of them.
-/

namespace Playbook

variable {σ : Type}

/-! ## Returns -/

/-- A return step has been executed at the depth `n`, and `v` is what it returned. -/
def Returned (n : Nat) (v : Value) (t : List (Deed σ)) : Prop :=
  ∃ step e index logged, step.action = .return_ e
    ∧ .finish step index n (.ok v) logged ∈ t

theorem Returned.mono {n : Nat} {v : Value} {t u : List (Deed σ)} (h : Returned n v t)
    (hs : t ⊆ u) : Returned n v u := by
  obtain ⟨step, e, index, logged, ha, hm⟩ := h
  exact ⟨step, e, index, logged, ha, hs hm⟩

/-- **If a task ends with a return, a return step of its own call has been executed**, or
the task is the action of one. -/
def Task.Leaves (n : Nat) (own : Prop) (p : Task σ) : Prop :=
  ∀ t o v, p.Runs t (.done o) → o.result = .ok (.return v) → own ∨ Returned n v t

namespace Task.Leaves

variable {n : Nat} {own : Prop} {p : Task σ}

theorem mono {own' : Prop} (h : Task.Leaves n own p) (ho : own → own') :
    Task.Leaves n own' p :=
  fun t o v hr hv => (h t o v hr hv).imp ho id

theorem done {o : Outcome} (h : ∀ v, o.result ≠ .ok (.return v)) :
    Task.Leaves n own (.done o : Task σ) := by
  intro t o' v hr hv
  obtain ⟨-, he⟩ := Process.runs_done.mp hr
  cases he
  exact absurd hv (h v)

theorem crash {c : Crash} : Task.Leaves n own (.crash c : Task σ) := by
  intro t o v hr
  obtain ⟨-, he⟩ := Process.runs_crash.mp hr
  cases he

/-- A task that goes on with others. -/
theorem of_next (h : ∀ t o, p.Runs t (.done o) → ∃ u next, Task.Leaves n own next
    ∧ next.Runs u (.done o) ∧ u ⊆ t) : Task.Leaves n own p := by
  intro t o v hr hv
  obtain ⟨u, next, hn, hr, hu⟩ := h t o hr
  exact (hn u o v hr hv).imp id fun hr => hr.mono hu

theorem act {deed : Deed σ} {next : World σ → Task σ} (h : ∀ w, (next w).Leaves n own) :
    Task.Leaves n own (.act deed next) :=
  .of_next fun _ _ hr => by
    cases hr with
    | act w hr => exact ⟨_, _, h w, hr, List.subset_cons_self _ _⟩

end Task.Leaves

/-! ## All constructs -/

/-- **A task in which steps begin and returns are passed on as they should be.** The steps
of its own call have the depth `n`. -/
structure Engine.Proper (engine : Engine σ) (n : Nat) (G : List (List Step)) (own : Prop)
    (p : Task σ) : Prop where
  tidy : engine.Tidy n p
  enters : engine.Enters (engine.Own n G) p
  leaves : p.Leaves n own

namespace Engine.Proper

variable {engine : Engine σ} {n : Nat} {G G' : List (List Step)} {own : Prop} {p : Task σ}

theorem mono {own' : Prop} (h : engine.Proper n G own p) (hG : G.Sublist G')
    (ho : own → own') : engine.Proper n G' own' p :=
  ⟨h.tidy, h.enters.mono fun hO => hO.mono hG, h.leaves.mono ho⟩

theorem done {o : Outcome} (h : o.vars.depth = n) (ho : ∀ v, o.result ≠ .ok (.return v)) :
    engine.Proper n G own (.done o) :=
  ⟨.done h, .done, .done ho⟩

theorem crash {c : Crash} : engine.Proper n G own (.crash c) :=
  ⟨.crash, .crash, .crash⟩

theorem act {deed : Deed σ} {next : World σ → Task σ} (hd : deed.isAside = true)
    (h : ∀ w, engine.Proper n G own (next w)) : engine.Proper n G own (.act deed next) :=
  ⟨.act hd fun w => (h w).tidy,
    .act hd (fun hO => hO.later (u := [deed]) (.aside hd .nil)) fun w => (h w).enters,
    .act fun w => (h w).leaves⟩

/-- A task that waits is proper if it goes on so. -/
theorem of_next (hp : ¬ p.Ended) (h : ∀ t q, p.Runs t q → (t = [] ∧ q = p)
      ∨ ∃ next, engine.Proper n G own next ∧ next.Runs t q
        ∧ ∀ {s r}, next.Runs s r → p.Runs s r) : engine.Proper n G own p where
  tidy := .of_next hp fun t q ht =>
    (h t q ht).imp id fun ⟨next, hn, hr, _⟩ => ⟨next, hn.tidy, hr⟩
  enters := .of_next fun t q ht =>
    (h t q ht).imp And.left fun ⟨next, hn, hr, hp⟩ => ⟨next, hn.enters, hr, hp⟩
  leaves := .of_next fun t o ht => by
    obtain ⟨-, he⟩ | ⟨next, hn, hr, -⟩ := h t _ ht
    · exact absurd ⟨o, he.symm⟩ hp
    · exact ⟨t, next, hn.leaves, hr, List.Subset.refl t⟩

/-- **What passes returns on** has to be proper behind other outcomes only. -/
theorem passing {k : Outcome → Task σ} (hp : engine.Proper n G own p)
    (hk : Runner.Passes k) (ht : engine.Tidy n (p.andThen k))
    (h : ∀ o, o.vars.depth = n → (∀ v, o.result ≠ .ok (.return v)) →
      engine.Proper n G own (k o)) : engine.Proper n G own (p.andThen k) where
  tidy := ht
  enters := .andThen hp.enters (fun hO => hO.passing hk) fun v o ho => by
    refine ⟨?_, fun hO => hO.later (hp.tidy.balanced ho)⟩
    by_cases hw : ∃ w, o.result = .ok (.return w)
    · obtain ⟨w, hw⟩ := hw
      exact .of_forall fun t q hr => (hk o w hw t q hr).1
    · exact (h o (hp.tidy.depth ho) fun w hr => hw ⟨w, hr⟩).enters
  leaves t o v hr hv := by
    obtain ⟨q', hq, -, he⟩ | ⟨t₁, t₂, o₁, rfl, h₁, h₂⟩ := Process.runs_andThen hr
    · exact absurd ⟨o, hq.symm⟩ (Process.not_ended_andThen he)
    · by_cases hw : ∃ w, o₁.result = .ok (.return w)
      · obtain ⟨w, hw⟩ := hw
        obtain rfl := (hk o₁ w hw t₂ _ h₂).2 o rfl
        exact (hp.leaves t₁ _ v h₁ hv).imp id fun hr => hr.mono (List.subset_append_left _ _)
      · have hn := h o₁ (hp.tidy.depth h₁) fun w hr => hw ⟨w, hr⟩
        exact (hn.leaves t₂ o v h₂ hv).imp id fun hr =>
          hr.mono (List.subset_append_right _ _)

/-- **The rules for proper tasks.** Nothing has to be known of the operations of a block. -/
theorem passes (engine : Engine σ) (n : Nat) : Passing (fun vars => vars.depth = n)
    fun _ => engine.Proper n [] False where
  bound := (Tidy.rules engine n).bound
  bind _ _ _ h := h
  yield _ _ hv := .done hv nofun
  fail _ _ hv := .done hv nofun
  overflow := .crash
  onValue {r k} hr hk vars hv := by
    refine (hr vars hv).passing (.of_done fun o v ho => ?_) ?_ fun o ho hno => ?_
    · rw [ho]
    · exact (Tidy.rules engine n).onValue (fun vars hv => (hr vars hv).tidy)
        (fun v vars hv => (hk v vars hv).tidy) vars hv
    · split
      · exact hk _ o.vars ho
      · exact .done ho hno

theorem waits (engine : Engine σ) (n : Nat) : Waits (fun vars => vars.depth = n)
    (fun _ => engine.Proper n [] False) fun _ _ => True where
  toPassing := passes engine n
  crash := .crash
  own h := .act rfl h
  look h := .act rfl h
  sleep _ h := .of_next nofun fun _ _ ht => by
    cases ht with
    | refl => exact .inl ⟨rfl, rfl⟩
    | slept ht => exact .inr ⟨_, h, ht, .slept⟩
  gathering _ _ h := .of_next nofun fun _ _ ht => by
    cases ht with
    | refl => exact .inl ⟨rfl, rfl⟩
    | gathered s ht => exact .inr ⟨_, h s, ht, .gathered s⟩
  racing _ _ h := .of_next nofun fun _ _ ht => by
    cases ht with
    | refl => exact .inl ⟨rfl, rfl⟩
    | raced s ht => exact .inr ⟨_, h s, ht, .raced s⟩
  operation _ _ _ _ := trivial
  retrying _ _ _ _ _ _ _ := trivial

theorem assignGlobals (values : List (String × Value)) (last : Value) :
    HoldsAt n (engine.Proper n [] False) (.assignFrom engine .globals last values) := by
  induction values generalizing last with
  | nil => exact (passes engine n).yield last
  | cons field rest ih =>
    exact (passes engine n).computing (engine.overflowsOnly_resolve field.2)
      fun v vars hv => ih v _ hv

theorem inOrderFrom {rs : List (Nat → Runner σ)}
    (hr : ∀ r ∈ rs, ∀ i, HoldsAt n (engine.Proper n [] False) (r i)) (index : Nat) (last : Value) :
    HoldsAt n (engine.Proper n [] False) (.inOrderFrom index last rs) := by
  induction rs generalizing index last with
  | nil => exact (passes engine n).yield last
  | cons r rest ih =>
    have ih := ih fun s hs => hr s (List.mem_cons_of_mem r hs)
    have hr := hr r List.mem_cons_self index
    intro vars hv
    refine (hr vars hv).passing (.of_done fun o v ho => ?_) ?_ fun o ho hno => ?_
    · obtain ⟨result, vars, attempts⟩ := o
      cases ho
      rfl
    · refine (hr vars hv).tidy.andThen fun o ho => ?_
      split
      · exact (ih _ _ _ ho).tidy
      · exact .done ho
    · split
      · exact ih _ _ _ ho
      · rename_i hv
        refine .done ho fun v hr => ?_
        obtain ⟨f | flow, vars, attempts⟩ := o
        · cases hr
        · exact hno v hr

theorem timing (name : String) {r : Runner σ}
    (hr : HoldsAt n (engine.Proper n [] False) r) :
    HoldsAt n (engine.Proper n [] False) (.timing engine name r) := by
  intro vars hv
  have hk : ∀ o : Outcome, o.vars.depth = n →
      engine.Tidy n (.doing (.time name engine.stopwatch.body engine.stopwatch.turn) (.done o)) :=
    fun o ho => .act rfl fun _ => .done ho
  refine (hr vars hv).passing (fun o v ho t q ht => ?_) ((hr vars hv).tidy.andThen hk)
    fun o ho hno => .act rfl fun _ => .done ho hno
  obtain ⟨rfl, rfl⟩ | ⟨u, _, rfl, hu⟩ := Process.runs_act.mp ht
  · exact ⟨nofun, nofun⟩
  · obtain ⟨rfl, rfl⟩ := Process.runs_done.mp hu
    exact ⟨List.forall_mem_cons.mpr ⟨rfl, nofun⟩, fun o' he => by cases he; rfl⟩

/-! ### Tries -/

/-- What follows a body does nothing about a return. -/
theorem caught {body : Runner σ} {c : Option (Runner σ)} (binding : String)
    (hb : HoldsAt n (engine.Proper n [] False) body)
    (hc : ∀ s ∈ c, HoldsAt n (engine.Proper n [] False) s) :
    HoldsAt n (engine.Proper n [] False) (.caught body c binding) := by
  have htidy := (Tidy.rules engine n).caught binding (fun vars hv => (hb vars hv).tidy)
    fun s hs vars hv => (hc s hs vars hv).tidy
  intro vars hv
  refine (hb vars hv).passing (.of_done fun o v ho => ?_) (htidy vars hv)
    fun o ho hno => ?_
  · rw [ho]
  · split
    · rename_i f s hf
      exact hc s rfl _ ((passes engine n).bound binding f.toValue ho)
    · exact .done ho hno

/-- **What a `finally` list follows returns if one of the two does.** -/
theorem restoring {r : Runner σ} {finally_ : List Step}
    (hp : engine.Proper n [] False p)
    (hr : HoldsAt n (engine.Proper n [] False) r)
    (heq : ∀ vars : Variables, vars.depth = n → r vars = engine.execute finally_ vars) :
    engine.Proper n [finally_] False (p.andThen fun o => Runner.restoring o r) where
  tidy := hp.tidy.andThen fun o ho =>
    (Tidy.rules engine n).restoring (fun vars hv => (hr vars hv).tidy) ho
  enters := by
    refine .andThen hp.enters (fun hO => hO.restoring heq) fun v o ho =>
      ⟨?_, fun hO => hO.later (hp.tidy.balanced ho)⟩
    have hr := hr o.vars (hp.tidy.depth ho)
    refine .andThen hr.enters (fun hO => (hO.passing ?_).mono (List.nil_sublist _))
      fun v last hl => ⟨?_, fun hO => hO.later (hr.tidy.balanced hl)⟩
    · exact .of_done fun last v hl => by rw [hl]
    split
    · exact .done
    · exact .done
  leaves t o v h hv := by
    obtain ⟨q', hq, -, he⟩ | ⟨t₁, t₂, o₁, rfl, h₁, h₂⟩ := Process.runs_andThen h
    · exact absurd ⟨o, hq.symm⟩ (Process.not_ended_andThen he)
    obtain ⟨q', hq, -, he⟩ | ⟨u₁, u₂, last, rfl, hl, h₂⟩ := Process.runs_andThen h₂
    · exact absurd ⟨o, hq.symm⟩ (Process.not_ended_andThen he)
    split at h₂
    · -- the list before has returned
      obtain ⟨rfl, ho⟩ := Process.runs_done.mp h₂
      cases ho
      exact (hp.leaves t₁ o₁ v h₁ hv).imp id fun hr => hr.mono (List.subset_append_left _ _)
    · obtain ⟨rfl, ho⟩ := Process.runs_done.mp h₂
      cases ho
      have hret := hr _ (hp.tidy.depth h₁) |>.leaves u₁ o v hl hv
      exact hret.imp id fun hr => hr.mono fun d hd =>
        List.mem_append_right _ (List.mem_append_left _ hd)

theorem catching {body : Runner σ} {c f : Option (Runner σ)} {finally_ : List Step}
    (binding : String)
    (hb : HoldsAt n (engine.Proper n [] False) body)
    (hc : ∀ s ∈ c, HoldsAt n (engine.Proper n [] False) s)
    (hf : ∀ s ∈ f, HoldsAt n (engine.Proper n [] False) s
      ∧ ∀ vars : Variables, vars.depth = n → s vars = engine.execute finally_ vars) :
    HoldsAt n (engine.Proper n [finally_] False) (.catching body c f binding) := by
  intro vars hv
  have hcaught := caught binding hb hc vars hv
  cases f with
  | none => exact hcaught.mono (List.nil_sublist _) id
  | some s =>
    obtain ⟨hs, heq⟩ := hf s rfl
    exact hcaught.restoring hs heq

/-! ### Steps and calls -/

/-- No step begins in the end of one. -/
theorem isStart_of_runs_ending {step : Step} {index depth : Nat} {o : Outcome}
    {t : List (Deed σ)} {q : Task σ}
    (h : (Runner.ending engine step index depth o).Runs t q) : ∀ d ∈ t, d.isStart = false := by
  obtain ⟨rfl, -⟩ | ⟨rfl, -⟩ := Runner.runs_ending h
  · exact nofun
  · exact List.forall_mem_singleton.mpr rfl

/-- The end of a step passes a return on. -/
theorem passes_ending (step : Step) (index depth : Nat) :
    Runner.Passes (Runner.ending engine step index depth) := by
  intro o v ho t q ht
  refine ⟨isStart_of_runs_ending ht, fun o' hq => ?_⟩
  obtain ⟨-, he⟩ | ⟨-, he⟩ := Runner.runs_ending ht
  · exact absurd ⟨o', hq⟩ he
  · cases he.symm.trans hq
    obtain ⟨result, vars, attempts⟩ := o
    cases ho
    rfl

/-- **A step is entered when it begins**, and what is entered inside of it has the end of the
step around it. A return step returns by its action. -/
theorem observed {step : Step} {index : Nat} {r : Runner σ}
    (hr : HoldsAt n (engine.Proper n step.action.finallies (∃ e, step.action = .return_ e)) r)
    (heq : ∀ vars : Variables, vars.depth = n →
      Runner.observed engine step index r vars = engine.executeStep step index vars) :
    HoldsAt n (engine.Proper n [] False) (.observed engine step index r) := by
  intro vars hv
  have htidy := Tidy.observed step index (fun vars hv => (hr vars hv).tidy) vars hv
  refine ⟨htidy, fun t step' index' depth u q ht => ?_, fun t o v ht ho => .inr ?_⟩
  · obtain ⟨he, -⟩ | ⟨_, w, he, hw⟩ := Process.runs_act.mp ht
    · exact absurd he (List.append_ne_nil_of_right_ne_nil t (List.cons_ne_nil _ _))
    cases t with
    | nil =>
      cases he
      refine ⟨fun x => x, vars, ⟨.here, rfl, ?_, ?_⟩, Nat.le_of_eq hv.symm,
        fun _ => ⟨[], [], .nil, .here, List.nil_sublist _⟩⟩
      · rw [heq vars hv]
        exact .refl
      · rw [← heq vars hv]
        exact ht
    | cons d t =>
      obtain ⟨rfl, rfl⟩ := List.cons.inj he
      have hend : engine.Enters (engine.Own n step.action.finallies)
          ((r vars).andThen (Runner.ending engine step index vars.depth)) :=
        .andThen (hr vars hv).enters (fun hO => hO.passing (passes_ending step index vars.depth))
          fun v o ho => ⟨.of_forall fun t q h => isStart_of_runs_ending h,
            fun hO => hO.later ((hr vars hv).tidy.balanced ho)⟩
      obtain ⟨C, here, h, ho⟩ := hend t step' index' depth u q hw
      exact ⟨C, here, h.later (v := [_]) fun hr => .act w hr, ho.inside⟩
  · obtain ⟨rfl, he⟩ | ⟨u, q', rfl, h₁, he⟩ | ⟨u, b, rfl, h₁, he⟩ := Runner.runs_observed ht
    · exact absurd ⟨o, rfl⟩ he
    · exact absurd ⟨o, rfl⟩ he
    · cases he
      have hb := Step.result_of_outcome_return ho
      obtain ⟨e, ha⟩ | hret := (hr vars hv).leaves u b v h₁ hb
      · refine ⟨step, e, index, engine.logs step, ha, ?_⟩
        rw [hb, ← hv]
        exact List.mem_cons_of_mem _ (List.mem_append_right u List.mem_cons_self)
      · exact hret.mono fun d hd => List.mem_cons_of_mem _ (List.mem_append_left _ hd)

/-- The steps of a call are none of the caller's. -/
theorem calling (keyword : Keyword) (name : String) (args : List Value) {steps : Runner σ}
    (hs : HoldsAt (n + 1) (engine.Proper (n + 1) [] False) steps) :
    HoldsAt n (engine.Proper n [] False) (.calling engine keyword name args steps) := by
  intro vars hv
  have hin : (vars.enter (keyword.bindArguments args)).depth = n + 1 := by
    rw [Variables.depth_enter, hv]
  have htidy : HoldsAt (n + 1) (engine.Tidy (n + 1)) steps := fun vars hv => (hs vars hv).tidy
  refine ⟨Tidy.calling keyword name args htidy vars hv, ?_, fun t o v ht ho => ?_⟩
  · refine .andThen (hs _ hin).enters (fun hO => hO.outside) fun v o ho => ⟨?_, fun hO =>
      hO.later ((hs _ hin).tidy.balanced ho)⟩
    refine .of_forall fun t q hr => ?_
    obtain ⟨rfl, -⟩ := Runner.runs_returning hr
    exact nofun
  · obtain ⟨q', -, he⟩ | ⟨b, o', -, he, ha⟩ := Runner.runs_calling ht
    · exact absurd ⟨o, rfl⟩ he
    · cases he
      exact absurd ho (ha.ne_return v)

/-- The action of a return step may return by itself. -/
theorem returning (e : Value) :
    HoldsAt n (engine.Proper n [] (∃ e', Action.return_ e = .return_ e'))
      (.compute (engine.resolve e) .leave) := by
  refine .compute (fun f vars hv => .done hv nofun) (fun v vars hv => ?_) fun _ _ _ => .crash
  exact ⟨(Tidy.rules engine n).done ⟨.ok (.return v), vars, 1⟩ hv, .done,
    fun _ _ _ _ _ => .inl ⟨e, rfl⟩⟩

/-- **All constructs and calls are proper.** -/
theorem levels (engine : Engine σ) : Levels engine
    (fun n a => HoldsAt n (engine.Proper n a.finallies (∃ e, a = .return_ e)))
    fun n => engine.Proper n [] False where
  visit h := .act rfl h
  refused f := (passes engine _).fail f
  calling keyword name args _ hs := calling keyword name args hs
  constructs {n left} hleft hcall := by
    have hexec : ∀ steps (vars : Variables), vars.depth = n →
        Step.listRunner engine (engine.invokeWithin left) steps vars
          = engine.execute steps vars := by
      rintro steps vars rfl
      rw [hleft]
      rfl
    refine (passes engine n).constructs (waits engine n).remaining (fun name _ _ => hcall name)
      (fun a r _ _ hr vars hv => (hr vars hv).mono (List.nil_sublist _) False.elim)
      (fun name _ v vars hv => ((passes engine n).sampling (fun h => .act rfl fun _ => h) name v
        vars hv).mono (List.nil_sublist _) False.elim)
      (fun values vars hv => (assignGlobals values .null vars hv).mono (List.Sublist.refl _)
        False.elim) (fun e vars hv => ?_)
      (fun body c finally_ binding r c' f hr hc hf vars hv => ?_)
      (fun name r hr => timing name hr) (fun step index r he hr => observed hr fun vars hv => ?_)
      fun rs hr => inOrderFrom hr 1 .null
    · exact returning e vars hv
    · have h := catching binding hr hc (fun s hs => ⟨(hf s hs).1, fun vars hv => by
        rw [(hf s hs).2]
        exact hexec finally_ vars hv⟩) vars hv
      exact h.mono (List.Sublist.refl _) False.elim
    · subst he hv hleft
      exact (engine.executeStep_eq step index vars).symm

end Engine.Proper

/-- **Every list of steps is proper.** -/
theorem Engine.proper_execute (engine : Engine σ) (steps : List Step) (vars : Variables) :
    engine.Proper vars.depth [] False (engine.execute steps vars) :=
  (Proper.levels engine).execute steps vars

end Playbook
