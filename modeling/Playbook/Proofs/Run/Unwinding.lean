import Playbook.Proofs.Run.Nesting

/-!
# A return unwinds to its call

When a return step has been executed in a keyword call, the rest of the call is unwound: no
further step of it begins but those of the `finally` lists of steps that are open then
(`Engine.Unwinds`), as long as none of these fails. If each of them goes through, the call
yields the value that was returned, and if one of them returns in its turn, it yields that
value (`Engine.pending`). What the keyword declares to return does not matter.

The caller sees a value or a failure and never the return (`Engine.return_unwinds`).
-/

namespace Playbook

variable {σ : Type}

namespace Engine

/-- The value that is being returned behind `finally` lists that have come to given
results. -/
def pending (v : Value) : List (Except Failure Flow) → Value
  | [] => v
  | .ok (.return w) :: rest => pending w rest
  | _ :: rest => pending v rest

theorem pending_append (v : Value) (ends ends' : List (Except Failure Flow)) :
    pending v (ends ++ ends') = pending (pending v ends) ends' := by
  fun_induction pending v ends with
  | case1 => rfl
  | case2 v w rest ih => exact ih
  | case3 v r rest hr ih =>
    rw [List.cons_append, pending]
    · exact ih
    · exact hr

/-- **A call is unwound through `finally` lists**, the innermost first, by the deeds of a
run: between the lists no step begins, and each list is run where `depth` calls are under
way. `ends` are the results of those lists that have ended. If one of them has failed, nothing
is said of what follows. -/
inductive Unwinds (engine : Engine σ) (depth : Nat) :
    List (List Step) → List (Except Failure Flow) → List (Deed σ) → Prop
  | rest (fs : List (List Step)) : Unwinds engine depth fs [] []
  | aside {fs ends t} {deed : Deed σ} (h : deed.isStart = false)
      (ht : Unwinds engine depth fs ends t) : Unwinds engine depth fs ends (deed :: t)
  | within {f fs} {here : Variables} {t : List (Deed σ)} {q : Task σ} (hd : here.depth = depth)
      (h : (engine.execute f here).Runs t q) (hq : ¬ q.Ended) :
      Unwinds engine depth (f :: fs) [] t
  | ran {f fs ends t} {here : Variables} {u : List (Deed σ)} {o : Outcome}
      (hd : here.depth = depth) (h : (engine.execute f here).Runs u (.done o))
      (ho : o.failed = false) (ht : Unwinds engine depth fs ends t) :
      Unwinds engine depth (f :: fs) (o.result :: ends) (u ++ t)
  | failed {f fs t} {here : Variables} {u : List (Deed σ)} {o : Outcome}
      (hd : here.depth = depth) (h : (engine.execute f here).Runs u (.done o))
      (ho : o.failed = true) : Unwinds engine depth (f :: fs) [o.result] (u ++ t)

namespace Unwinds

variable {engine : Engine σ} {depth : Nat} {fs fs' : List (List Step)}
  {ends ends' : List (Except Failure Flow)} {t u : List (Deed σ)}

/-- Deeds that begin no steps. -/
theorem of_forall (h : ∀ d ∈ t, d.isStart = false) : engine.Unwinds depth fs [] t := by
  induction t with
  | nil => exact .rest fs
  | cons d rest ih =>
    obtain ⟨hd, hrest⟩ := List.forall_mem_cons.mp h
    exact .aside hd (ih hrest)

/-- More lists may follow. -/
theorem more (h : engine.Unwinds depth fs ends t) (fs' : List (List Step)) :
    engine.Unwinds depth (fs ++ fs') ends t := by
  induction h with
  | rest fs => exact .rest _
  | aside h _ ih => exact .aside h ih
  | within hd h hq => exact .within hd h hq
  | ran hd h ho _ ih => exact .ran hd h ho ih
  | failed hd h ho => exact .failed hd h ho

/-- Anything may follow a failure. -/
theorem of_failed (h : engine.Unwinds depth fs ends t) {f : Failure} (hf : .error f ∈ ends)
    (u : List (Deed σ)) : engine.Unwinds depth fs ends (t ++ u) := by
  induction h with
  | rest | within => cases hf
  | aside h _ ih => exact .aside h (ih hf)
  | @ran _ _ _ _ _ _ o hd h ho _ ih =>
    obtain hf | hf := List.mem_cons.mp hf
    · unfold Outcome.failed at ho
      rw [← hf] at ho
      cases ho
    · rw [List.append_assoc]
      exact .ran hd h ho (ih hf)
  | failed hd h ho =>
    rw [List.append_assoc]
    exact .failed hd h ho

/-- Further lists are run when all have been. -/
theorem append (h : engine.Unwinds depth fs ends t) (hno : ∀ f, .error f ∉ ends)
    (hlen : ends.length = fs.length) (h' : engine.Unwinds depth fs' ends' u) :
    engine.Unwinds depth (fs ++ fs') (ends ++ ends') (t ++ u) := by
  induction h with
  | rest fs =>
    obtain rfl := List.eq_nil_of_length_eq_zero hlen.symm
    exact h'
  | aside h _ ih => exact .aside h (ih hno hlen)
  | within => cases hlen
  | ran hd h ho _ ih =>
    rw [List.append_assoc]
    exact .ran hd h ho (ih (fun f hf => hno f (List.mem_cons_of_mem _ hf))
      (Nat.succ.inj hlen))
  | @failed _ _ _ _ _ o hd h ho =>
    unfold Outcome.failed at ho
    cases hr : o.result with
    | ok flow =>
      rw [hr] at ho
      cases ho
    | error f =>
      rw [hr] at hno
      exact absurd List.mem_cons_self (hno f)

end Unwinds

/-- How far a return has got: it is on its way out, or one of the `finally` lists has
failed. -/
def Unwound (n : Nat) (v : Value) (fs : List (List Step))
    (ends : List (Except Failure Flow)) (o : Outcome) : Prop :=
  (∃ f, .error f ∈ ends)
    ∨ (∀ f, .error f ∉ ends) ∧ ends.length = fs.length ∧ o.vars.depth = n
      ∧ o.result = .ok (.return (pending v ends))

/-- A `finally` list that is reached is under way, or it has ended. -/
theorem unwinds_restoring {engine : Engine σ} {n : Nat} {finally_ : List Step} {r : Runner σ}
    (hr : ∀ vars : Variables, vars.depth = n → r vars = engine.execute finally_ vars)
    {o : Outcome} {v : Value} (ho : o.result = .ok (.return v)) (hd : o.vars.depth = n)
    {t : List (Deed σ)} {q : Task σ} (h : (Runner.restoring o r).Runs t q) :
    ∃ ends, engine.Unwinds n [finally_] ends t
      ∧ ∀ o', q = .done o' → Unwound n v [finally_] ends o' := by
  obtain ⟨q', rfl, h₁, he⟩ | ⟨t₁, t₂, last, rfl, h₁, h₂⟩ := Process.runs_andThen h
  · rw [hr o.vars hd] at h₁
    exact ⟨[], .within hd h₁ he, fun o' hq =>
      absurd ⟨o', hq⟩ (Process.not_ended_andThen he)⟩
  rw [hr o.vars hd] at h₁
  have hdepth : last.vars.depth = n := ((engine.tidy_execute finally_ _).depth h₁).trans hd
  have hran : last.failed = false → engine.Unwinds n [finally_] [last.result] (t₁ ++ []) :=
    fun hl => .ran hd h₁ hl (.rest [])
  obtain ⟨result, vars, attempts⟩ := last
  cases result with
  | error f =>
    obtain ⟨rfl, -⟩ := Process.runs_done.mp h₂
    exact ⟨[.error f], .failed hd h₁ rfl, fun _ _ => .inl ⟨f, List.mem_cons_self⟩⟩
  | ok flow =>
    have hno : ∀ f : Failure, Except.error f ∉ [Except.ok (ε := Failure) flow] := fun f hf => by
      cases List.mem_singleton.mp hf
    obtain w | w := flow
    · obtain ⟨rfl, rfl⟩ := Process.runs_done.mp h₂
      refine ⟨_, hran rfl, fun o' hq => .inr ⟨hno, rfl, ?_⟩⟩
      cases hq
      exact ⟨hdepth, ho⟩
    · obtain ⟨rfl, rfl⟩ := Process.runs_done.mp h₂
      refine ⟨_, hran rfl, fun o' hq => .inr ⟨hno, rfl, ?_⟩⟩
      cases hq
      exact ⟨hdepth, rfl⟩

/-- **A return unwinds through what is around it in its call.** The induction is on the
frames, from the innermost on. -/
theorem Frames.unwinds {engine : Engine σ} {n : Nat} {fs : List (List Step)}
    {C : Task σ → Task σ} (hC : engine.Frames n fs C) {o : Outcome} {v : Value}
    (ho : o.result = .ok (.return v)) (hd : o.vars.depth = n) {t : List (Deed σ)}
    {q : Task σ} (h : (C (.done o)).Runs t q) :
    ∃ ends, engine.Unwinds n fs ends t ∧ ∀ o', q = .done o' → Unwound n v fs ends o' := by
  induction hC generalizing t q with
  | here =>
    obtain ⟨rfl, rfl⟩ := Process.runs_done.mp h
    refine ⟨[], .rest [], fun o' hq => .inr ⟨nofun, rfl, ?_⟩⟩
    cases hq
    exact ⟨hd, ho⟩
  | passing _ hk ih =>
    obtain ⟨q', rfl, h₁, he⟩ | ⟨t₁, t₂, o₁, rfl, h₁, h₂⟩ := Process.runs_andThen h
    · obtain ⟨ends, hu, -⟩ := ih h₁
      exact ⟨ends, hu, fun o' hq => absurd ⟨o', hq⟩ (Process.not_ended_andThen he)⟩
    · obtain ⟨ends, hu, hend⟩ := ih h₁
      obtain ⟨f, hf⟩ | ⟨hno, hlen, hd₁, hv⟩ := hend o₁ rfl
      · exact ⟨ends, hu.of_failed hf t₂, fun _ _ => .inl ⟨f, hf⟩⟩
      · obtain ⟨hs, hlast⟩ := hk o₁ _ hv t₂ q h₂
        have happ := hu.append hno hlen (Unwinds.of_forall hs : engine.Unwinds n [] [] t₂)
        rw [List.append_nil, List.append_nil] at happ
        refine ⟨ends, happ, fun o' hq => .inr ?_⟩
        rw [hlast o' hq]
        exact ⟨hno, hlen, hd₁, hv⟩
  | @restoring fs _ r _ finally_ hr ih =>
    obtain ⟨q', rfl, h₁, he⟩ | ⟨t₁, t₂, o₁, rfl, h₁, h₂⟩ := Process.runs_andThen h
    · obtain ⟨ends, hu, -⟩ := ih h₁
      exact ⟨ends, hu.more [finally_], fun o' hq =>
        absurd ⟨o', hq⟩ (Process.not_ended_andThen he)⟩
    · obtain ⟨ends, hu, hend⟩ := ih h₁
      obtain ⟨f, hf⟩ | ⟨hno, hlen, hd₁, hv⟩ := hend o₁ rfl
      · exact ⟨ends, (hu.more [finally_]).of_failed hf t₂, fun _ _ => .inl ⟨f, hf⟩⟩
      · obtain ⟨ends', hu', hend'⟩ := unwinds_restoring hr hv hd₁ h₂
        refine ⟨ends ++ ends', hu.append hno hlen hu', fun o' hq => ?_⟩
        obtain ⟨f, hf⟩ | ⟨hno', hlen', hd', hv'⟩ := hend' o' hq
        · exact .inl ⟨f, List.mem_append_right _ hf⟩
        · refine .inr ⟨fun f hf => ?_, ?_, hd', ?_⟩
          · exact (List.mem_append.mp hf).elim (hno f) (hno' f)
          · rw [List.length_append, List.length_append, hlen, hlen']
          · rw [pending_append]
            exact hv'

/-! ## Return steps -/

/-- The action of a return step does nothing to the world. -/
theorem runs_return {engine : Engine σ} {call : Calls σ} {keys : List String} {e : Value}
    {vars : Variables} {t : List (Deed σ)} {q : Task σ}
    (h : (Action.runner engine call keys (.return_ e) vars).Runs t q) :
    t = [] ∧ ∀ o w, q = .done o → o.result.map Flow.value = .ok w →
      o.result = .ok (.return w) ∧ o.vars = vars := by
  change (Runner.compute (engine.resolve e) .leave vars).Runs t q at h
  unfold Runner.compute at h
  split at h
  · obtain ⟨rfl, rfl⟩ := Process.runs_done.mp h
    refine ⟨rfl, fun o w hq hw => ?_⟩
    cases hq
    cases hw
    exact ⟨rfl, rfl⟩
  · obtain ⟨rfl, rfl⟩ := Process.runs_done.mp h
    refine ⟨rfl, fun o w hq hw => ?_⟩
    cases hq
    cases hw
  · obtain ⟨rfl, rfl⟩ := Process.runs_crash.mp h
    exact ⟨rfl, nofun⟩

/-- **A return step that has been executed** leaves what is around it with the return. -/
theorem Entry.returned {engine : Engine σ} {p q : Task σ} {t u : List (Deed σ)} {ret : Step}
    {e v : Value} {index depth : Nat} {logged : Bool} {C : Task σ → Task σ}
    {here : Variables} (ha : ret.action = .return_ e)
    (h : engine.Entry p t ret index depth (.finish ret index depth (.ok v) logged :: u) q
      C here) :
    ∃ o : Outcome, o.result = .ok (.return v) ∧ o.vars.depth = depth
      ∧ (C (.done o)).Runs u q := by
  have hafter := h.after
  rw [engine.executeStep_eq, ha] at hafter
  obtain ⟨q', -, h₁, hno⟩ | ⟨t₁, t₂, r, hu, h₁, h₂⟩ := h.context.runs_inv hafter
  · obtain ⟨he, -⟩ | ⟨w, _, he, hw, -⟩ | ⟨_, b, -, -, rfl⟩ := Runner.runs_observed h₁
    · cases he
    · obtain ⟨rfl, -⟩ := runs_return hw
      cases he
    · exact absurd ⟨_, rfl⟩ hno
  · obtain ⟨-, hno⟩ | ⟨_, _, -, -, hno⟩ | ⟨w, b, rfl, hw, hr⟩ := Runner.runs_observed h₁
    · exact absurd ⟨r, rfl⟩ hno
    · exact absurd ⟨r, rfl⟩ hno
    · cases hr
      obtain ⟨rfl, hb⟩ := runs_return hw
      obtain ⟨-, hu⟩ := List.cons.inj hu
      obtain ⟨hf, rfl⟩ := List.cons.inj hu
      have hv : b.result.map Flow.value = .ok v := by
        injection hf with _ _ _ hv
        exact hv.symm
      obtain ⟨hret, hvars⟩ := hb b v rfl hv
      refine ⟨ret.outcome b, Step.outcome_return hret, ?_, h₂⟩
      rw [Step.depth_outcome, hvars, h.level]

/-! ## Calls and lists -/

/-- **A run of a call**: it is refused, its steps are under way, or they have ended and the
call has. -/
theorem runs_invoke {engine : Engine σ} {name : String} {args : List Value} {vars : Variables}
    {t : List (Deed σ)} {q : Task σ} (h : (engine.invoke name args vars).Runs t q) :
    (t ⊆ [.visit name] ∧ ∀ o, q = .done o → o.failed = true)
      ∨ ∃ u, t = .visit name :: u ∧ ∃ steps inner, inner.depth = vars.depth + 1
        ∧ ((∃ q', (engine.execute steps inner).Runs u q' ∧ ¬ q.Ended)
          ∨ ∃ o o', (engine.execute steps inner).Runs u (.done o) ∧ q = .done o'
            ∧ Runner.Answers o o') := by
  unfold invoke at h
  generalize hleft : engine.callsLeft vars = left at h
  unfold invokeWithin at h
  obtain ⟨rfl, rfl⟩ | ⟨u, w, rfl, hu⟩ := Process.runs_act.mp h
  · refine .inl ⟨List.nil_subset _, fun o ho => ?_⟩
    cases ho
  have hrefused : ∀ f, (Runner.fail f vars : Task σ).Runs u q →
      Deed.visit name :: u ⊆ [.visit name] ∧ ∀ o, q = .done o → o.failed = true := by
    intro f hr
    obtain ⟨rfl, rfl⟩ := Process.runs_done.mp hr
    refine ⟨List.Subset.refl _, fun o ho => ?_⟩
    cases ho
    rfl
  split at hu
  · exact .inl (hrefused _ hu)
  · rename_i keyword hk
    split at hu
    · exact .inl (hrefused _ hu)
    · rename_i left
      have hin : (vars.enter (keyword.bindArguments args)).depth = vars.depth + 1 :=
        Variables.depth_enter ..
      have hexec : Step.listRunner engine (engine.invokeWithin left) keyword.steps
          (vars.enter (keyword.bindArguments args))
            = engine.execute keyword.steps (vars.enter (keyword.bindArguments args)) := by
        unfold execute
        have hl : engine.callsLeft (vars.enter (keyword.bindArguments args)) = left := by
          unfold callsLeft at hleft ⊢
          omega
        rw [hl]
      have hcall := Runner.runs_calling hu
      rw [hexec] at hcall
      exact .inr ⟨u, rfl, keyword.steps, _, hin, hcall⟩

/-- A step that has ended has begun. -/
theorem start_mem_of_step {engine : Engine σ} {call : Calls σ} {step : Step} {index : Nat}
    {vars : Variables} {t : List (Deed σ)} {o : Outcome}
    (h : (Step.runner engine call step index vars).Runs t (.done o)) :
    .start step index vars.depth ∈ t := by
  obtain ⟨action, returns, continueOnError, label, source⟩ := step
  obtain ⟨-, hno⟩ | ⟨_, _, -, -, hno⟩ | ⟨u, b, rfl, -, -⟩ := Runner.runs_observed h
  · exact absurd ⟨o, rfl⟩ hno
  · exact absurd ⟨o, rfl⟩ hno
  · exact List.mem_cons_self

/-- In a list of steps that ends with a value, each step has begun. -/
theorem start_mem_of_inOrder {engine : Engine σ} {call : Calls σ} {n : Nat}
    {steps : List Step} {o : Outcome} {v : Value}
    (hr : ∀ r ∈ Step.runners engine call steps, ∀ i, HoldsAt n (engine.Tidy n) (r i))
    (ho : o.result = .ok (.continue v)) {index : Nat} {last : Value} {vars : Variables}
    (hv : vars.depth = n) {t : List (Deed σ)}
    (h : (Runner.inOrderFrom index last (Step.runners engine call steps) vars).Runs t (.done o))
    {k : Nat} {step : Step} (hk : steps[k]? = some step) :
    .start step (index + k) n ∈ t := by
  induction steps generalizing index last vars t k with
  | nil => cases hk
  | cons first rest ih =>
    have hfirst := hr _ List.mem_cons_self index
    obtain ⟨q', hq, -, he⟩ | ⟨t₁, t₂, o₁, rfl, h₁, h₂⟩ := Process.runs_andThen h
    · exact absurd ⟨o, hq.symm⟩ (Process.not_ended_andThen he)
    cases k with
    | zero =>
      cases hk
      have hmem := start_mem_of_step h₁
      rw [hv] at hmem
      exact List.mem_append_left t₂ hmem
    | succ k =>
      split at h₂
      · have hmem := ih (fun r hm => hr r (List.mem_cons_of_mem _ hm))
          ((hfirst vars hv).depth h₁) h₂ hk
        rw [Nat.add_right_comm] at hmem
        exact List.mem_append_right t₁ hmem
      · rename_i hno
        obtain ⟨-, he⟩ := Process.runs_done.mp h₂
        cases he
        obtain ⟨f | flow, vars, attempts⟩ := o₁
        · cases ho
        · exact absurd ho (hno v)

/-- Nothing is skipped in a list of steps that ends with a value. -/
theorem start_mem_of_continue {engine : Engine σ} {steps : List Step} {vars : Variables}
    {t : List (Deed σ)} {o : Outcome} {v : Value}
    (h : (engine.execute steps vars).Runs t (.done o)) (ho : o.result = .ok (.continue v))
    {k : Nat} {step : Step} (hk : steps[k]? = some step) :
    .start step (k + 1) vars.depth ∈ t := by
  have hcons := (Tidy.levels engine).constructs (n := vars.depth) rfl
    ((Tidy.levels engine).invokeWithin rfl)
  rw [Nat.add_comm]
  exact start_mem_of_inOrder (hcons.stepRunners steps (Step.all_any steps)) ho rfl h hk

/-- The steps of a call are unwound behind a return step of their own. -/
theorem unwinds_of_return {engine : Engine σ} {steps : List Step} {vars : Variables}
    {t u : List (Deed σ)} {q : Task σ} {ret : Step} {e v : Value} {index n : Nat}
    {logged : Bool} (ha : ret.action = .return_ e) (hn : vars.depth = n)
    (h : (engine.execute steps vars).Runs
      (t ++ .start ret index n :: .finish ret index n (.ok v) logged :: u) q) :
    ∃ open_ fs ends, engine.Opened t open_
      ∧ fs.Sublist (open_.flatMap fun step => step.action.finallies)
      ∧ engine.Unwinds n fs ends u ∧ ∀ o, q = .done o → Unwound n v fs ends o := by
  obtain ⟨C, here, hentry, hown⟩ := (engine.proper_execute steps vars).enters _ _ _ _ _ _ h
  obtain ⟨open_, fs, hopen, hframes, hs⟩ := hown.frames hn.symm
  rw [List.append_nil] at hs
  rw [hn] at hframes
  obtain ⟨o, ho, hd, hr⟩ := hentry.returned ha
  obtain ⟨ends, hu, hend⟩ := hframes.unwinds ho hd hr
  exact ⟨open_, fs, ends, hopen, hs, hu, hend⟩

/-- If no list returns, the value stays as it is. -/
theorem pending_of_continue {v : Value} {ends : List (Except Failure Flow)}
    (h : ∀ r ∈ ends, ∃ w, r = .ok (.continue w)) : pending v ends = v := by
  induction ends with
  | nil => rfl
  | cons r rest ih =>
    obtain ⟨⟨w, rfl⟩, hrest⟩ := List.forall_mem_cons.mp h
    exact ih hrest

/-- **A return unwinds to its call.** Once a return step of a call has been executed, and
not one of a call inside of it, no further step of the call begins but those of the `finally`
lists of the steps that are open then, as long as none of these fails. If the call ends
and none of them has failed, then all have been run, and the call yields the value of the
return, or that of the last of them to return. So if each of them ends with a value, the
call yields that of the return, whatever the keyword declares. A call never ends with a
return. And a list of steps ends with one only if a return step of its own call has been
executed, with the same value; if it ends with a value of its own, all of its steps have
begun. -/
theorem return_unwinds (engine : Engine σ) (vars : Variables) :
    (∀ name args t ret e index v logged u q, ret.action = .return_ e →
      (engine.invoke name args vars).Runs (t ++ .start ret index (vars.depth + 1) ::
        .finish ret index (vars.depth + 1) (.ok v) logged :: u) q →
      ∃ open_ fs ends, engine.Opened t open_
        ∧ fs.Sublist (open_.flatMap fun step => step.action.finallies)
        ∧ engine.Unwinds (vars.depth + 1) fs ends u
        ∧ ∀ o, q = .done o →
          ((∀ f, .error f ∉ ends) →
            ends.length = fs.length ∧ o.result = .ok (.continue (pending v ends)))
          ∧ ((∀ r ∈ ends, ∃ w, r = .ok (.continue w)) → o.result = .ok (.continue v)))
    ∧ (∀ name args t o v, (engine.invoke name args vars).Runs t (.done o) →
        o.result ≠ .ok (.return v))
    ∧ ∀ steps t o v, (engine.execute steps vars).Runs t (.done o) →
      (o.result = .ok (.return v) → Returned vars.depth v t)
      ∧ (o.result = .ok (.continue v) → ∀ k step, steps[k]? = some step →
        .start step (k + 1) vars.depth ∈ t) := by
  refine ⟨fun name args t ret e index v logged u q ha h => ?_,
    fun name args t o v h hv => ?_, fun steps t o v h => ⟨fun hv => ?_,
    fun hv k step hk => start_mem_of_continue h hv hk⟩⟩
  · obtain ⟨hs, -⟩ | ⟨w, hw, steps, inner, hin, hrun⟩ := runs_invoke h
    · have hm := hs (List.mem_append_right t List.mem_cons_self)
      cases List.mem_singleton.mp hm
    cases t with
    | nil => cases hw
    | cons d t =>
      obtain ⟨rfl, rfl⟩ := List.cons.inj hw
      obtain ⟨q', hr, he⟩ | ⟨o, o', hr, rfl, hans⟩ := hrun
      · obtain ⟨open_, fs, ends, hopen, hs, hu, -⟩ := unwinds_of_return ha hin hr
        exact ⟨open_, fs, ends, .closed (t := [_]) (.aside rfl .nil) hopen, hs, hu,
          fun o ho => absurd ⟨o, ho⟩ he⟩
      · obtain ⟨open_, fs, ends, hopen, hs, hu, hend⟩ := unwinds_of_return ha hin hr
        have hvalue : (∀ f, .error f ∉ ends) →
            ends.length = fs.length ∧ o'.result = .ok (.continue (pending v ends)) := by
          intro hno
          obtain ⟨f, hf⟩ | ⟨-, hlen, -, hv⟩ := hend o rfl
          · exact absurd hf (hno f)
          · exact ⟨hlen, hans.of_return _ hv⟩
        refine ⟨open_, fs, ends, .closed (t := [_]) (.aside rfl .nil) hopen, hs, hu,
          fun o'' ho => ?_⟩
        cases ho
        refine ⟨hvalue, fun hc => ?_⟩
        have hno : ∀ f, .error f ∉ ends := fun f hf => by
          obtain ⟨w, hw⟩ := hc _ hf
          cases hw
        rw [(hvalue hno).2, pending_of_continue hc]
  · obtain ⟨-, hf⟩ | ⟨u, -, _, _, -, ⟨q', -, he⟩ | ⟨o₁, o', -, hq, hans⟩⟩ := runs_invoke h
    · have ho := hf o rfl
      unfold Outcome.failed at ho
      rw [hv] at ho
      cases ho
    · exact absurd ⟨o, rfl⟩ he
    · cases hq
      exact hans.ne_return v hv
  · exact ((engine.proper_execute steps vars).leaves t o v h hv).resolve_left id

/-- A return inside of a branch in a `try` that has a `catch` list and a `finally` list, with
a step behind: only the `finally` list is run, and the call yields the value of the return. -/
theorem return_unwinds_branch_in_try :
    let engine : Engine Unit :=
      ⟨.default, .standard ⟨0, "", "", fun _ => none⟩, ⟨0, "", "", fun _ => none⟩⟩
    let leaves := Step.mk (.return_ (.bool true)) none false none .null
    let sets := Step.mk (.assign .locals [("x", .bool false)]) none false none .null
    let asks := Step.mk (.ifElse (.literal (.bool true)) [leaves] []) none false none .null
    let tries := Step.mk (.try_ [asks] (some [leaves]) [sets] "e") none false none .null
    let t : List (Deed Unit) := [.visit "k", .start tries 1 1, .start asks 1 1]
    let u : List (Deed Unit) := [.finish asks 1 1 (.ok (.bool true)) true, .start sets 1 1,
      .finish sets 1 1 (.ok (.bool false)) false, .finish tries 1 1 (.ok (.bool true)) true]
    let o : Outcome := .yield (.bool true) .empty
    (engine.invoke "k" [] .empty).Runs
        (t ++ .start leaves 1 1 :: .finish leaves 1 1 (.ok (.bool true)) false :: u) (.done o)
      ∧ ∃ open_ fs ends, engine.Opened t open_
        ∧ fs.Sublist (open_.flatMap fun step => step.action.finallies)
        ∧ engine.Unwinds 1 fs ends u
        ∧ ((∀ f, .error f ∉ ends) →
            ends.length = fs.length ∧ o.result = .ok (.continue (pending (.bool true) ends)))
        ∧ ((∀ r ∈ ends, ∃ w, r = .ok (.continue w)) →
            o.result = .ok (.continue (.bool true))) := by
  intro engine leaves sets asks tries t u o
  let w : World Unit := .fresh ⟨[("k", ⟨"k", [], [tries, sets], some "x", none⟩)], []⟩ ()
  have h : (engine.invoke "k" [] .empty).Runs (t ++ .start leaves 1 1 ::
      .finish leaves 1 1 (.ok (.bool true)) false :: u) (.done o) := by
    show (engine.invokeWithin 10 "k" [] .empty).Runs _ (.done o)
    unfold invokeWithin
    exact .act w (.act w (.act w (.act w (.act w (.act w (.act w (.act w (.act w .refl))))))))
  obtain ⟨open_, fs, ends, hopen, hs, hu, hend⟩ :=
    (return_unwinds engine .empty).1 "k" [] t leaves (.bool true) 1 (.bool true) false u _ rfl h
  exact ⟨h, open_, fs, ends, hopen, hs, hu, hend o rfl⟩

/-- If the `finally` list fails, the failure may be caught, so that a step begins that is in
no `finally` list of an open step. -/
theorem return_unwinds_not_after_failure :
    let engine : Engine Unit :=
      ⟨.default, .standard ⟨0, "", "", fun _ => none⟩, ⟨0, "", "", fun _ => none⟩⟩
    let leaves := Step.mk (.return_ (.bool true)) none false none .null
    let fails := Step.mk (.while_ (.literal (.bool true)) [] (some 0)) none false none .null
    let after := Step.mk (.assign .locals [("after", .bool true)]) none false none .null
    let inner := Step.mk (.try_ [leaves] none [fails] "error") none false none .null
    let outer := Step.mk (.try_ [inner] (some [after]) [] "error") none false none .null
    let t : List (Deed Unit) := [.visit "k", .start outer 1 1, .start inner 1 1]
    let u : List (Deed Unit) := [.start fails 1 1,
      .finish fails 1 1 (.error (.loopLimit 0)) true,
      .finish inner 1 1 (.error (.inStep 1 (.loopLimit 0))) true, .start after 1 1,
      .finish after 1 1 (.ok (.bool true)) false, .finish outer 1 1 (.ok (.bool true)) true]
    (engine.invoke "k" [] .empty).Runs
        (t ++ .start leaves 1 1 :: .finish leaves 1 1 (.ok (.bool true)) false :: u)
        (.done (.yield .null .empty))
      ∧ engine.Opened t [inner, outer]
      ∧ .start after 1 1 ∈ u
      ∧ ∀ f ∈ [inner, outer].flatMap fun step => step.action.finallies, after ∉ f := by
  intro engine leaves fails after inner outer t u
  let w : World Unit := .fresh ⟨[("k", ⟨"k", [], [outer], none, none⟩)], []⟩ ()
  refine ⟨?_, .closed (t := [_]) (.aside rfl .nil) (.start (.start .nil)), ?_, ?_⟩
  · show (engine.invokeWithin 10 "k" [] .empty).Runs _ (.done (.yield .null .empty))
    unfold invokeWithin
    exact .act w (.act w (.act w (.act w (.act w (.act w (.act w (.act w (.act w (.act w
      (.act w .refl))))))))))
  · exact List.mem_cons_of_mem _ (List.mem_cons_of_mem _ (List.mem_cons_of_mem _
      List.mem_cons_self))
  · have hlists : [inner, outer].flatMap (fun step => step.action.finallies) = [[fails], []] :=
      rfl
    rw [hlists]
    refine List.forall_mem_cons.mpr ⟨fun h => ?_,
      List.forall_mem_cons.mpr ⟨List.not_mem_nil, List.forall_mem_nil _⟩⟩
    have he : after.action = fails.action := congrArg Step.action (List.mem_singleton.mp h)
    cases he

end Engine

end Playbook
