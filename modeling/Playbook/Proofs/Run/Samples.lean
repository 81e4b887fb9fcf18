import Playbook.Proofs.Number.Rounding
import Playbook.Proofs.Process.Everywhere
import Playbook.Proofs.Run.Blocks
import Playbook.Proofs.Run.Entry
import Playbook.Proofs.Run.Restoration
import Playbook.Proofs.Run.Termination

/-!
# Samples of metrics

A `measure` step with a value records a sample: the value itself, if it is a number, or the
number that it denotes, if it is a text (`Value.Measures`). Any other value makes the step fail,
and then the metrics stay as they are (`Engine.executeStep_of_not_measures`). Where the value is not
computed to an end, nothing is recorded either (`Engine.executeStep_of_no_value`).

Numbers are finite, and so are the times that are sampled where there is no value. But a text may be
one of the words for infinity and for what is not a number, or a decimal beyond the range of
doubles, and such a sample is recorded too. There is no other way to one. A step ends right behind
its sample, and it ends with the value, so that the text is told of (`Deed.Denotes`). That holds
everywhere in all lists of steps (`Engine.backed_execute`), and so in every state of a session: a
sample that is not finite is one that a step has ended with a text for (`Session.samples_measured`).
-/

namespace Playbook

variable {σ : Type}

/-! ## What values measure -/

/-- **The sample that a value stands for**: a number stands for itself, and a text for the number
that it denotes. -/
inductive Value.Measures : Value → Float → Prop
  | number (n : Number) : Measures (.number n) n.toFloat
  | text {s : String} {x : Float} (h : Numeral.double? (Text.trim s.toList) = some x) :
      Measures (.text s) x

theorem Runner.sample?_eq_some_iff {v : Value} {x : Float} :
    sample? v = some x ↔ v.Measures x := by
  constructor
  · intro h
    cases v with
    | number n =>
      cases h
      exact .number n
    | text s => exact .text h
    | null | bool | list | record => cases h
  · rintro (_ | h)
    · rfl
    · exact h

/-- **Numbers are finite.** -/
theorem Number.isFinite_toFloat : (n : Number) → n.toFloat.isFinite = true
  | .int _ range => Double.isFinite_ofInt range
  | .double _ finite => finite

/-! ## What deeds record -/

theorem World.performAll_nil (w : World σ) : w.performAll [] = w := rfl

theorem World.performAll_cons (d : Deed σ) (deeds : List (Deed σ)) (w : World σ) :
    w.performAll (d :: deeds) = (w.perform d).performAll deeds := rfl

/-- The metrics after a deed: only a sample changes them. -/
theorem World.metrics_perform (d : Deed σ) (w : World σ) :
    (w.perform d).metrics
      = match d with
        | .measure name x => w.metrics.record name x
        | .time name reading _ => w.metrics.record name (reading w.own).toFloat
        | _ => w.metrics := by
  cases d with
  | finish step index depth outcome logged =>
    unfold World.perform
    cases logged <;> rfl
  | visit | start | measure | own | look | time => rfl

/-- A sample of a metric is one from before or the one that is recorded. -/
theorem Metrics.mem_samples_record {name other : String} {x y : Float} {metrics : Metrics}
    (h : y ∈ (metrics.record other x).samples name) :
    y ∈ metrics.samples name ∨ other = name ∧ y = x := by
  unfold samples record at h
  by_cases hn : name = other
  · rw [hn, Named.lookup_put_self] at h
    rw [hn]
    exact (List.mem_append.mp h).imp id fun h => ⟨rfl, List.mem_singleton.mp h⟩
  · rw [Named.lookup_put_of_ne hn] at h
    exact .inl h

/-- **Samples are recorded by deeds**, and those that are times are finite. -/
theorem World.mem_samples_performAll {name : String} {x : Float} {deeds : List (Deed σ)}
    {w : World σ} (h : x ∈ (w.performAll deeds).metrics.samples name) :
    x ∈ w.metrics.samples name ∨ .measure name x ∈ deeds ∨ x.isFinite = true := by
  induction deeds generalizing w with
  | nil => exact .inl h
  | cons d rest ih =>
    rw [performAll_cons] at h
    obtain h | h | h := ih h
    · rw [World.metrics_perform] at h
      cases d with
      | measure other y =>
        obtain h | ⟨rfl, rfl⟩ := Metrics.mem_samples_record h
        · exact .inl h
        · exact .inr (.inl List.mem_cons_self)
      | time other reading turn =>
        obtain h | ⟨rfl, rfl⟩ := Metrics.mem_samples_record h
        · exact .inl h
        · exact .inr (.inr (reading w.own).isFinite_toFloat)
      | visit | start | finish | own | look => exact .inl h
    · exact .inr (.inl (List.mem_cons_of_mem d h))
    · exact .inr (.inr h)

/-! ## Steps that sample -/

/-- A task that does some deeds, whatever the world is, and ends. -/
def Task.script (deeds : List (Deed σ)) (o : Outcome) : Task σ :=
  deeds.foldr (fun d p => .doing d p) (.done o)

theorem Task.script_andThen (deeds : List (Deed σ)) (o : Outcome) (k : Outcome → Task σ) :
    (script deeds o).andThen k = deeds.foldr (fun d p => .doing d p) (k o) := by
  induction deeds with
  | nil => rfl
  | cons d rest ih => exact congrArg (Process.doing d) ih

/-- The end of a step is one deed. -/
theorem Runner.ending_eq (engine : Engine σ) (step : Step) (index depth : Nat) (o : Outcome) :
    ending engine step index depth o
      = Task.script [.finish step index depth (o.result.map Flow.value) (engine.logs step)]
          (step.outcome o) := by
  unfold ending Step.outcome
  split <;> rfl

namespace Engine

variable {engine : Engine σ} {step : Step} {vars : Variables}

/-- **A step whose action only does some deeds** does them between its start and its end. -/
theorem executeStep_of_script (deeds : List (Deed σ)) {o : Outcome} (index : Nat)
    (h : Action.runner engine (engine.callsAt vars) step.keys step.action vars
      = Task.script deeds o) :
    engine.executeStep step index vars = Task.script (.start step index vars.depth :: (deeds ++
      [.finish step index vars.depth (o.result.map Flow.value) (engine.logs step)]))
        (step.outcome o) := by
  rw [engine.executeStep_eq]
  show Process.doing _ ((Action.runner engine (engine.callsAt vars) step.keys step.action
    vars).andThen (Runner.ending engine step index vars.depth)) = _
  rw [h, Task.script_andThen, Runner.ending_eq]
  exact congrArg (Process.doing _) List.foldr_append.symm

variable {name : String} {body : List Step} {e v : Value}

theorem runner_sampling (ha : step.action = .measure name body (some e)) :
    Action.runner engine (engine.callsAt vars) step.keys step.action
      = .sampling engine name e := by
  rw [ha]
  rfl

/-- **A value that stands for a sample** is recorded, and the step ends with it. -/
theorem executeStep_of_measures (ha : step.action = .measure name body (some e)) (index : Nat)
    (hv : engine.resolve e vars = .ok v) {x : Float} (hx : v.Measures x) :
    engine.executeStep step index vars
      = Task.script [.start step index vars.depth, .measure name x,
          .finish step index vars.depth (.ok v) (engine.logs step)]
          (step.outcome ⟨.ok (.continue v), vars, 1⟩) := by
  refine executeStep_of_script [.measure name x] index ?_
  rw [runner_sampling ha]
  unfold Runner.sampling Runner.compute
  rw [hv]
  dsimp only
  rw [Runner.sample?_eq_some_iff.mpr hx]
  rfl

/-- **A value that stands for no sample** makes the step fail, and nothing is recorded. -/
theorem executeStep_of_not_measures (ha : step.action = .measure name body (some e))
    (index : Nat) (hv : engine.resolve e vars = .ok v) (hx : ∀ x, ¬ v.Measures x) :
    engine.executeStep step index vars
      = Task.script [.start step index vars.depth, .finish step index vars.depth
          (.error (.invalidAction (.sampleNotNumber name v))) (engine.logs step)]
          (step.outcome ⟨.error (.invalidAction (.sampleNotNumber name v)), vars, 1⟩) := by
  refine executeStep_of_script [] index ?_
  have hnone : Runner.sample? v = none :=
    Option.eq_none_iff_forall_ne_some.mpr fun x h => hx x (Runner.sample?_eq_some_iff.mp h)
  rw [runner_sampling ha]
  unfold Runner.sampling Runner.compute
  rw [hv]
  dsimp only
  rw [hnone]
  rfl

/-- **Where there is no value** there is an accident, and the step comes to no end. -/
theorem executeStep_of_no_value (ha : step.action = .measure name body (some e)) (index : Nat)
    {halt : Halt} (hv : engine.resolve e vars = .error halt) :
    ∃ c, halt = .crash c
      ∧ engine.executeStep step index vars = .doing (.start step index vars.depth) (.crash c) := by
  cases halt with
  | failure f => exact absurd hv resolve_ne_failure
  | crash c =>
    refine ⟨c, rfl, ?_⟩
    rw [engine.executeStep_eq, runner_sampling ha]
    unfold Runner.observed Runner.sampling Runner.compute
    rw [hv]
    rfl

end Engine

/-! ## Samples that are not finite -/

/-- **A `measure` step ends with a text** that denotes a sample of its metric. -/
inductive Deed.Denotes (name : String) (x : Float) : Deed σ → Prop
  | mk {step : Step} {body : List Step} {e : Value} {index depth : Nat} {s : String}
      {logged : Bool} (ha : step.action = .measure name body (some e))
      (hs : Value.Measures (.text s) x) :
      Denotes name x (.finish step index depth (.ok (.text s)) logged)

/-- **A sample that is not finite is backed**: what follows it is that the step ends with a text
that denotes it. -/
def Deed.Backed (deed : Deed σ) (next : World σ → Task σ) : Prop :=
  ∀ name x, deed = .measure name x → x.isFinite = true
    ∨ ∃ d next', d.Denotes name x ∧ next = fun _ => .act d next'

theorem Deed.Backed.andThen {deed : Deed σ} {next : World σ → Task σ} {k : Outcome → Task σ}
    (h : deed.Backed next) : deed.Backed fun w => (next w).andThen k := by
  intro name x hd
  obtain hx | ⟨d, next', hd', rfl⟩ := h name x hd
  · exact .inl hx
  · exact .inr ⟨d, _, hd', rfl⟩

/-- **A task in which all samples are backed that are not finite**, also those of operations. -/
abbrev Task.Backed (p : Task σ) : Prop :=
  p.Everywhere Deed.Backed

/-- A runner of such tasks. -/
abbrev Runner.Backed (r : Runner σ) : Prop :=
  Holds (fun _ => True) (fun _ => Task.Backed) r

namespace Task.Backed

variable {engine : Engine σ} {p : Task σ}

theorem andThen {k : Outcome → Task σ} (hp : p.Backed) (hk : ∀ o, (k o).Backed) :
    Task.Backed (p.andThen k) :=
  Process.Everywhere.andThen (fun _ _ h => h.andThen) hp hk

/-- Something else is done than a sample recorded. -/
theorem doing {deed : Deed σ} (hd : ∀ name x, deed ≠ .measure name x) (h : p.Backed) :
    Task.Backed (.doing deed p) :=
  .act (fun name x he => absurd he (hd name x)) fun _ => h

theorem sequential : Sequential (σ := σ) (fun _ => True) fun _ => Task.Backed where
  bound _ _ _ := trivial
  bind _ _ _ h := h
  done _ _ := .done
  crash := .crash
  andThen hp hk := hp.andThen fun o => hk o trivial
  sleep _ h := .sleep h

theorem operation {r : Runner σ} (timeout : Nat) (hr : r.Backed) :
    Runner.Backed (.operation timeout r) :=
  fun vars hv => .timed (hr vars hv) fun _ => .done

theorem waits : Waits (σ := σ) (fun _ => True) (fun _ => Task.Backed) fun _ => Task.Backed where
  toPassing := sequential.toPassing
  crash := .crash
  sleep _ h := .sleep h
  own h := .act nofun h
  look h := .act nofun h
  gathering _ hop hn := .gather hop hn
  racing _ hop hn := .race hop hn
  operation timeout hr := operation timeout hr
  retrying timeout attempt pause retries hr :=
    sequential.retrying (operation timeout hr) attempt pause retries

theorem assignGlobals (values : List (String × Value)) (last : Value) :
    Runner.Backed (.assignFrom engine .globals last values) := by
  induction values generalizing last with
  | nil => exact sequential.yield last
  | cons field rest ih => exact sequential.compute fun v vars hv => ih v _ hv

/-! ### Steps -/

theorem ending (step : Step) (index depth : Nat) (o : Outcome) :
    Task.Backed (Runner.ending engine step index depth o) := by
  rw [Runner.ending_eq]
  exact .doing nofun .done

theorem observed (step : Step) (index : Nat) {r : Runner σ} (hr : r.Backed) :
    Runner.Backed (.observed engine step index r) :=
  fun vars hv => .doing nofun ((hr vars hv).andThen (ending step index vars.depth))

/-- **A step that samples** ends right behind its sample. If that is not finite, the value is a
text, since numbers are. -/
theorem observed_sampling {step : Step} {name : String} {body : List Step} {e : Value}
    (ha : step.action = .measure name body (some e)) (index : Nat) :
    Runner.Backed (.observed engine step index (.sampling engine name e)) := by
  intro vars _
  refine .doing nofun ?_
  unfold Runner.sampling Runner.compute
  cases engine.resolve e vars with
  | error halt =>
    cases halt with
    | failure f => exact ending step index vars.depth _
    | crash c => exact .crash
  | ok v =>
    dsimp only
    cases hx : Runner.sample? v with
    | none => exact ending step index vars.depth _
    | some x =>
      refine .act (fun name' x' he => ?_) fun _ => ending step index vars.depth _
      cases he
      cases Runner.sample?_eq_some_iff.mp hx with
      | number n => exact .inl n.isFinite_toFloat
      | text hs => exact .inr ⟨_, _, .mk ha (.text hs), rfl⟩

/-! ### Constructs and calls -/

/-- A runner of an action is backed, or the action samples. -/
inductive Acts (engine : Engine σ) : Action → Runner σ → Prop
  | backed {a r} (h : r.Backed) : Acts engine a r
  | sampling {name body e} : Acts engine (.measure name body (some e)) (.sampling engine name e)

theorem constructs {call : Calls σ} (hcall : ∀ name args, (call name args).Backed) :
    Constructs engine call (Acts engine) Runner.Backed Action.Any :=
  sequential.constructs_of_sampling waits.remaining (fun name _ _ => hcall name)
    (fun _ _ _ hr => .backed hr)
    (fun hp => .doing nofun hp)
    (fun _ _ _ => .sampling) (fun values => .backed (assignGlobals values .null))
    fun step index r _ hr => by
      generalize ha : step.action = a at hr
      cases hr with
      | backed h => exact observed step index h
      | sampling => exact observed_sampling ha index

theorem calling {keyword : Keyword} {name : String} {args : List Value} {steps : Runner σ}
    (hs : steps.Backed) : Runner.Backed (.calling engine keyword name args steps) := by
  intro vars hv
  refine (hs _ trivial).andThen fun o => ?_
  unfold Runner.returning
  split
  · exact .done
  · exact .done
  · exact sequential.compute (fun v => sequential.yield v) _ trivial

/-- **Keyword calls are backed**, by induction on how many may be nested. -/
theorem invokeWithin (left : Nat) (name : String) (args : List Value) :
    Runner.Backed (engine.invokeWithin left name args) := by
  induction left generalizing name args with
  | zero =>
    intro vars _
    unfold Engine.invokeWithin
    refine .act (fun _ _ he => by cases he) fun w => ?_
    split
    · exact .done
    · exact .done
  | succ left ih =>
    intro vars hv
    unfold Engine.invokeWithin
    refine .act (fun _ _ he => by cases he) fun w => ?_
    split
    · exact .done
    · exact calling ((constructs ih).listRunner _) vars hv

end Task.Backed

/-- **In every list of steps** all samples are backed that are not finite. -/
theorem Engine.backed_execute (engine : Engine σ) (steps : List Step) (vars : Variables) :
    (engine.execute steps vars).Everywhere Deed.Backed :=
  (Task.Backed.constructs (Task.Backed.invokeWithin _)).listRunner steps vars trivial

/-! ## Sessions -/

namespace Session

variable {engine : Engine σ} {registry : Registry} {own : σ}
  {b : Moment (Deed σ) (World σ) Variables Outcome Crash} {name : String} {x : Float}

/-- The samples in the metrics of a session that are not finite are those that tasks were given
and have recorded. -/
theorem did_of_mem_samples
    (h : Moment.Later engine.Lists ⟨.idle, Session.start registry own, []⟩ b)
    (hx : x ∈ b.machine.world.metrics.samples name) (hn : ¬ x.isFinite = true) :
    ∃ task, .did task (.measure name x) ∈ b.past := by
  obtain ⟨es, hes, hw⟩ := Moment.Later.world h
  have hfold : b.machine.world
      = (World.fresh registry own).performAll (Event.deeds es) := hw
  rw [hfold] at hx
  obtain hx | hx | hx := World.mem_samples_performAll hx
  · cases hx
  · obtain ⟨e, hm, he⟩ := List.mem_filterMap.mp hx
    cases e with
    | did task deed =>
      cases he
      exact ⟨task, hes ▸ hm⟩
    | opened | started | yielded | timedOut | stopped | ended => cases he
  · exact absurd hx hn

/-- **Behind a sample that is not finite** a step has ended with the text of it, unless that is
what its task is about to do. -/
theorem denotes_of_did
    (h : Moment.Later engine.Lists ⟨.idle, Session.start registry own, []⟩ b) {id : Nat}
    (hd : .did id (.measure name x) ∈ b.past) (hx : ¬ x.isFinite = true) :
    ∃ task d, d.Denotes name x ∧ (.did task.id d ∈ b.past
      ∨ ∃ next limits, b.stage = .going task (.act d next) limits) := by
  obtain ⟨before, after, task, next, limits, hbefore, hafter, hs, hs'⟩ :=
    Moment.Later.exists_act_of_did h rfl hd
  have hbacked := Moment.Later.everywhere (A := Deed.Backed) hbefore
    (fun p ⟨steps, vars, hp⟩ => hp ▸ engine.backed_execute steps vars) hs
  cases hbacked with
  | act hdeed =>
    obtain hfinite | ⟨d, next', hdenotes, rfl⟩ := hdeed name x rfl
    · exact absurd hfinite hx
    · refine ⟨task, d, hdenotes, ?_⟩
      obtain hgoing | hdone := Moment.Later.of_act hs' hafter
      · exact .inr ⟨next', limits, hgoing⟩
      · exact .inl hdone

/-- **Samples are real measurements**, but for what texts denote. Let a step be to sample the value
that `e` resolves to.

If the value is a number, or a text that denotes one, that number is recorded, and nothing else
is changed in the metrics. It is finite unless the value is a text. If the value is anything else,
the step fails, since its action is invalid, and the metrics stay as they are. If there is no value,
that is an accident, which ends the task before anything is recorded.

In every state of a session, in any order of turns, each sample of each metric is finite, or it is
denoted by a text that a `measure` step of that metric has ended with, or is just about to end
with. -/
theorem samples_measured (engine : Engine σ) :
    (∀ step name body e, step.action = .measure name body (some e) →
      ∀ index vars,
      (∀ v, engine.resolve e vars = .ok v →
        (∀ x, v.Measures x → ∃ deeds,
          deeds = [.start step index vars.depth, .measure name x,
              .finish step index vars.depth (.ok v) (engine.logs step)]
            ∧ engine.executeStep step index vars
              = Task.script deeds (step.outcome ⟨.ok (.continue v), vars, 1⟩)
            ∧ (∀ w : World σ, (w.performAll deeds).metrics = w.metrics.record name x)
            ∧ (x.isFinite = true ∨ ∃ s, v = .text s))
        ∧ ((∀ x, ¬ v.Measures x) → ∃ f deeds,
          f = .invalidAction (.sampleNotNumber name v)
            ∧ deeds = [.start step index vars.depth,
              .finish step index vars.depth (.error f) (engine.logs step)]
            ∧ engine.executeStep step index vars
              = Task.script deeds (step.outcome ⟨.error f, vars, 1⟩)
            ∧ ∀ w : World σ, (w.performAll deeds).metrics = w.metrics))
      ∧ ∀ halt, engine.resolve e vars = .error halt → ∃ c, halt = .crash c
        ∧ engine.executeStep step index vars = .doing (.start step index vars.depth) (.crash c))
    ∧ ∀ registry own b,
        Moment.Later engine.Lists ⟨.idle, Session.start registry own, []⟩ b →
        ∀ name, ∀ x ∈ b.machine.world.metrics.samples name, x.isFinite = true
          ∨ ∃ task d, Deed.Denotes name x d ∧ (.did task.id d ∈ b.past
            ∨ ∃ next limits, b.stage = .going task (.act d next) limits) := by
  constructor
  · intro step name body e ha index vars
    refine ⟨fun v hv => ⟨?_, ?_⟩, fun halt hv => Engine.executeStep_of_no_value ha index hv⟩
    · intro x hx
      refine ⟨_, rfl, Engine.executeStep_of_measures ha index hv hx, fun w => ?_, ?_⟩
      · simp only [World.performAll_cons, World.performAll_nil, World.metrics_perform]
      · cases hx with
        | number n => exact .inl n.isFinite_toFloat
        | text => exact .inr ⟨_, rfl⟩
    · intro hx
      refine ⟨_, _, rfl, rfl, Engine.executeStep_of_not_measures ha index hv hx, fun w => ?_⟩
      simp only [World.performAll_cons, World.performAll_nil, World.metrics_perform]
  · intro registry own b h name x hx
    by_cases hfinite : x.isFinite = true
    · exact .inl hfinite
    · obtain ⟨id, hd⟩ := did_of_mem_samples h hx hfinite
      exact .inr (denotes_of_did h hd hfinite)

/-- A number that is sampled, a truth value that cannot be, and a quotient that does not exist. -/
theorem samples_measured_three :
    let engine : Engine Unit :=
      ⟨.default, .standard ⟨0, "", "", fun _ => none⟩, ⟨0, "", "", fun _ => none⟩⟩
    let three : Value := .int 3
    let counts := Step.mk (.measure "m" [] (some three)) none false none .null
    let asks := Step.mk (.measure "m" [] (some (.bool true))) none false none .null
    let quotient : Value := .text "\x7b\x7bsmall / -1\x7d\x7d"
    let divides := Step.mk (.measure "m" [] (some quotient)) none false none .null
    let vars : Variables := ⟨[("small", .int (-9223372036854775808))], []⟩
    (∃ deeds : List (Deed Unit),
      deeds = [.start counts 1 0, .measure "m" (Float.ofInt 3),
          .finish counts 1 0 (.ok three) (engine.logs counts)]
        ∧ engine.executeStep counts 1 .empty
          = Task.script deeds (counts.outcome ⟨.ok (.continue three), .empty, 1⟩)
        ∧ (∀ w : World Unit, (w.performAll deeds).metrics = w.metrics.record "m" (Float.ofInt 3))
        ∧ ((Float.ofInt 3).isFinite = true ∨ ∃ s, three = .text s))
      ∧ (∃ (f : Failure) (deeds : List (Deed Unit)),
        f = .invalidAction (.sampleNotNumber "m" (.bool true))
          ∧ deeds = [.start asks 1 0, .finish asks 1 0 (.error f) (engine.logs asks)]
          ∧ engine.executeStep asks 1 .empty
            = Task.script deeds (asks.outcome ⟨.error f, .empty, 1⟩)
          ∧ ∀ w : World Unit, (w.performAll deeds).metrics = w.metrics)
      ∧ (∃ c, engine.executeStep divides 1 vars = .doing (.start divides 1 0) (.crash c))
      ∧ ∃ b, Moment.Later engine.Lists ⟨.idle, Session.start ⟨[], []⟩ (), []⟩ b
        ∧ ∃ x ∈ b.machine.world.metrics.samples "m", x.isFinite = true
          ∨ ∃ task d, Deed.Denotes "m" x d ∧ (.did task.id d ∈ b.past
            ∨ ∃ next limits, b.stage = .going task (.act d next) limits) := by
  intro engine three counts asks quotient divides vars
  obtain ⟨past, h, -⟩ := Moment.later_run (P := engine.Lists) (p := engine.execute [counts] .empty)
    ⟨[counts], .empty, rfl⟩ 10 (m := Session.start ⟨[], []⟩ ()) nofun []
  have hany : ((Machine.run 10 (engine.execute [counts] .empty)
      (Session.start ⟨[], []⟩ ())).2.world.metrics.samples "m").isEmpty = false := by
    subst engine counts three
    decide +kernel
  obtain ⟨x, hx⟩ := List.isEmpty_eq_false_iff_exists_mem.mp hany
  have hthree : engine.resolve three .empty = .ok three := rfl
  have htrue : engine.resolve (.bool true) .empty = .ok (.bool true) := rfl
  obtain ⟨halt, hhalt⟩ : ∃ halt, engine.resolve quotient vars = .error halt := by
    have hnone : (engine.resolve quotient vars).toOption.isNone = true := by
      subst engine quotient vars
      decide +kernel
    cases hr : engine.resolve quotient vars with
    | error halt => exact ⟨halt, rfl⟩
    | ok v =>
      rw [hr] at hnone
      cases hnone
  obtain ⟨hstep, hsamples⟩ := samples_measured engine
  obtain ⟨c, -, hcrash⟩ := (hstep divides "m" [] quotient rfl 1 vars).2 halt hhalt
  exact ⟨((hstep counts "m" [] three rfl 1 .empty).1 three hthree).1 _
      (.number (.int 3 (by decide))),
    ((hstep asks "m" [] (.bool true) rfl 1 .empty).1 (.bool true) htrue).2 nofun,
    ⟨c, hcrash⟩, _, h, x, hx, hsamples _ _ _ h "m" x hx⟩

/-- **A word is sampled that stands for no finite number**: a session comes to an end with an
infinite sample in its metrics, and the step that has recorded it has succeeded. -/
theorem infinite_sample :
    let engine : Engine Unit :=
      ⟨.default, .standard ⟨0, "", "", fun _ => none⟩, ⟨0, "", "", fun _ => none⟩⟩
    let step := Step.mk (.measure "m" [] (some (.text "inf"))) none false none .null
    ∃ b, Moment.Later engine.Lists ⟨.idle, Session.start ⟨[], []⟩ (), []⟩ b
      ∧ b.stage = .idle
      ∧ b.machine = (Machine.run 10 (engine.execute [step] .empty) (Session.start ⟨[], []⟩ ())).2
      ∧ b.machine.world.results.map StepRecord.success = [true]
      ∧ ∃ x ∈ b.machine.world.metrics.samples "m", x.isFinite = false := by
  intro engine step
  obtain ⟨past, h, -⟩ := Moment.later_run (P := engine.Lists) (p := engine.execute [step] .empty)
    ⟨[step], .empty, rfl⟩ 10 (m := Session.start ⟨[], []⟩ ()) nofun []
  have hany : ((Machine.run 10 (engine.execute [step] .empty)
      (Session.start ⟨[], []⟩ ())).2.world.metrics.samples "m").any (fun x => !x.isFinite)
        = true := by
    subst engine step
    decide +kernel
  have hsuccess : (Machine.run 10 (engine.execute [step] .empty)
      (Session.start ⟨[], []⟩ ())).2.world.results.map StepRecord.success = [true] := by
    subst engine step
    decide +kernel
  obtain ⟨x, hx, hinf⟩ := List.any_eq_true.mp hany
  exact ⟨_, h, rfl, rfl, hsuccess, x, hx, Bool.not_eq_true' x.isFinite |>.mp hinf⟩

end Session

end Playbook
