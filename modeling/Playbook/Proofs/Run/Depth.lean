import Playbook.Proofs.Process.Schedule
import Playbook.Proofs.Run.Construct
import Playbook.Session

/-!
# Keyword calls are nested to a limit

How deep a step is nested is the number of frames of its variables: a keyword
call puts one on top, and each operation of a concurrent block begins with a
copy of all of them. So the number of further calls that may be nested is
known wherever a step runs, and a call is refused at the limit.

A runner stays on a *level* if it begins and ends with a given number of calls
under way and, while it waits, has at least that many (`Level`). Each
construct stays on the level of its lists (`constructs_level`), and the steps
of a call are one level up. On the machine nothing exceeds the limit therefore,
whatever the order of turns: that is the first part of
`Engine.depth_le_maxKeywordDepth`. Its other part says what exactly a call
does at the limit and below it.
-/

namespace Playbook

variable {σ : Type}

/-- How many keyword calls were under way. -/
def StepEvent.depth : StepEvent → Nat
  | started _ depth _ => depth
  | finished _ depth _ _ => depth

/-- A deed that begins or ends a step does so within a limit of depth. -/
def Deed.Within (limit : Nat) : Deed σ → Prop
  | start _ _ depth => depth ≤ limit
  | finish _ _ depth _ _ => depth ≤ limit
  | _ => True

/-- All that was observed and all that was logged is within a limit of
depth. -/
structure World.Within (limit : Nat) (w : World σ) : Prop where
  events : ∀ e ∈ w.events, e.depth ≤ limit
  log : ∀ r ∈ w.log, r.depth ≤ limit

theorem World.within_fresh (limit : Nat) (registry : Registry) (own : σ) :
    (World.fresh registry own).Within limit :=
  ⟨nofun, nofun⟩

/-- The world only ever tells of what was done. -/
theorem World.Within.perform {limit : Nat} :
    ∀ (d : Deed σ) (w : World σ), d.Within limit → w.Within limit →
      (Deeds.perform d w : World σ).Within limit
  | .visit _, _, _, hw => ⟨hw.events, hw.log⟩
  | .start _ _ _, _, hd, hw => ⟨List.forall_mem_cons.mpr ⟨hd, hw.events⟩, hw.log⟩
  | .finish step index depth outcome logged, w, hd, hw => by
    have he := List.forall_mem_cons (p := fun e : StepEvent => e.depth ≤ limit)
      (a := .finished index depth step.describe outcome.isOk) |>.mpr ⟨hd, hw.events⟩
    cases logged with
    | true => exact ⟨he, List.forall_mem_cons.mpr ⟨hd, hw.log⟩⟩
    | false => exact ⟨he, hw.log⟩
  | .measure _ _, _, _, hw => ⟨hw.events, hw.log⟩
  | .own _, _, _, hw => ⟨hw.events, hw.log⟩
  | .look _, _, _, hw => ⟨hw.events, hw.log⟩
  | .time _ _ _, _, _, hw => ⟨hw.events, hw.log⟩

/-! ## Depths of variables -/

namespace Variables

@[simp] theorem depth_bind (name : String) (v : Value) (vars : Variables) :
    (vars.bind name v).depth = vars.depth := by
  unfold bind
  split
  · rename_i frame outer hf
    show outer.length + 1 = vars.frames.length
    rw [hf, List.length_cons]
  · rfl

@[simp] theorem depth_enter (bindings : Named Value) (vars : Variables) :
    (vars.enter bindings).depth = vars.depth + 1 :=
  rfl

@[simp] theorem depth_leave (vars : Variables) :
    vars.leave.depth = vars.depth - 1 :=
  List.length_tail

/-- Whoever is nested deep enough gets back to a depth. -/
theorem depth_leaveTo {n : Nat} {vars : Variables} (h : n ≤ vars.depth) :
    (vars.leaveTo n).depth = n := by
  show (vars.frames.drop (vars.frames.length - n)).length = n
  rw [List.length_drop]
  exact Nat.sub_sub_self h

end Variables

@[simp] theorem Runner.depth_bindReturns (returns : Option String) (o : Outcome) :
    (bindReturns returns o).depth = o.vars.depth := by
  unfold bindReturns
  split
  · exact Variables.depth_bind _ _ _
  · rfl

/-! ## Levels -/

/-- A place on a level: a task ends there with as many calls under way as it
began with, and while it waits there are at least as many. -/
def AtLevel (n : Nat) : Outcome ⊕ Variables → Prop
  | .inl o => o.vars.depth = n
  | .inr vars => n ≤ vars.depth

theorem AtLevel.here {n : Nat} {vars : Variables} (h : vars.depth = n) :
    AtLevel n (.inr vars) :=
  Nat.le_of_eq h.symm

/-- A task that begins on a level stays there, and whatever is begun or ended on
the way is within the limit. -/
abbrev Stays (limit n : Nat) (p : Task σ) : Prop :=
  p.Obeys (Deed.Within limit) (AtLevel n)

/-- A runner that begins on a level stays there. -/
abbrev Level (limit n : Nat) (r : Runner σ) : Prop :=
  Holds (fun vars => vars.depth = n) (fun _ => Stays limit n) r

/-- One task after another, where the second begins with the depth that the
first ends with. -/
theorem Stays.andThen {limit n : Nat} {p : Task σ} {k : Outcome → Task σ}
    (hp : Stays limit n p) (hk : ∀ o, o.vars.depth = n → Stays limit n (k o)) :
    Stays limit n (p.andThen k) := by
  refine Process.Obeys.andThen (hp.imp fun e he => ?_)
  cases e with
  | inl o => exact hk o he
  | inr vars => exact he

/-- An operation that is cut off inside of further calls leaves them. -/
theorem Level.operation {limit n : Nat} {r : Runner σ} (timeout : Nat)
    (hr : Level limit n r) : Level limit n (.operation timeout r) := by
  refine fun vars h => Process.obeys_timed.mpr <| (hr vars h).imp fun e he => ?_
  cases e with
  | inl o => exact Process.obeys_done.mpr he
  | inr v =>
    -- cut off at `v`, which is on this level or inside of further calls
    refine ⟨he, Process.obeys_done.mpr ?_⟩
    show (v.leaveTo vars.depth).depth = n
    rw [h]
    exact Variables.depth_leaveTo he

/-- A try begins with what the one before left, which is on the same level. -/
theorem Level.retrying {limit n : Nat} {r : Runner σ} (timeout : Nat)
    (hr : Level limit n r) (attempt pause retries : Nat) :
    Level limit n (.retrying timeout r attempt pause retries) := by
  induction retries generalizing attempt pause with
  | zero =>
    exact fun vars h => Stays.andThen (hr.operation timeout vars h) fun o ho =>
      Process.obeys_done.mpr ho
  | succ retries ih =>
    refine fun vars h => Stays.andThen (hr.operation timeout vars h) fun o ho => ?_
    split
    · exact Process.obeys_sleep.mpr ⟨.here ho, ih _ _ _ ho⟩
    · exact Process.obeys_done.mpr ho

/-- **The rules for staying on a level.** Operations begin on the level of their
block. -/
theorem rules_stays (limit n : Nat) : Rules (σ := σ) (fun vars => vars.depth = n)
    (fun _ => Stays limit n) fun _ p => ∀ d, p.Performs d → d.Within limit where
  bound name v h := (Variables.depth_bind name v _).trans h
  bind _ _ _ hp := hp
  done _ h := Process.obeys_done.mpr h
  crash := Process.obeys_crash
  andThen := Stays.andThen
  own h := Process.obeys_act.mpr ⟨trivial, h⟩
  look h := Process.obeys_act.mpr ⟨trivial, h⟩
  measure :=
    ⟨fun h => Process.obeys_act.mpr ⟨trivial, fun _ => h⟩,
      fun h => Process.obeys_act.mpr ⟨trivial, fun _ => h⟩⟩
  sleep h hp := Process.obeys_sleep.mpr ⟨.here h, hp⟩
  gathering h hop hn := Process.obeys_gather.mpr ⟨.here h, hop, hn⟩
  racing h hop hn := Process.obeys_race.mpr ⟨.here h, hop, hn⟩
  operation timeout hr vars h := (Level.operation timeout hr vars h).deeds
  retrying timeout attempt pause retries hr vars h :=
    (Level.retrying timeout hr attempt pause retries vars h).deeds

namespace Level

variable {limit n : Nat} {engine : Engine σ}

theorem assignGlobals (values : List (String × Value)) (last : Value) :
    Level limit n (.assignFrom engine .globals last values) := by
  induction values generalizing last with
  | nil => exact (rules_stays limit n).yield last
  | cons field rest ih =>
    exact (rules_stays limit n).compute fun v vars h => ih v _ h

/-- **A step is begun and ended on the level of its list.** -/
theorem observed (hn : n ≤ limit) (step : Step) (index : Nat) {r : Runner σ}
    (hr : Level limit n r) : Level limit n (.observed engine step index r) := by
  intro vars h
  have hd : vars.depth ≤ limit := by
    rw [h]
    exact hn
  refine Process.obeys_act.mpr ⟨hd, fun _ => Stays.andThen (hr vars h) fun o ho => ?_⟩
  refine Process.obeys_act.mpr ⟨hd, fun _ => ?_⟩
  have hafter : (Runner.bindReturns step.returns o).depth = n :=
    (Runner.depth_bindReturns step.returns o).trans ho
  split
  · exact Process.obeys_done.mpr hafter
  · exact Process.obeys_done.mpr hafter

/-- Whatever a call ends with, it is one level down again. -/
theorem returning {keyword : Keyword} {name : String} {o : Outcome}
    (h : o.vars.depth = n + 1) :
    Stays (σ := σ) limit n (Runner.returning engine keyword name o) := by
  have hl : o.vars.leave.depth = n := by
    rw [Variables.depth_leave, h, Nat.add_sub_cancel]
  have hrules := rules_stays (σ := σ) limit n
  unfold Runner.returning
  split
  · exact hrules.fail _ _ hl
  · exact hrules.yield _ _ hl
  · exact hrules.compute hrules.yield _ hl

/-- **The steps of a call are one level up.** -/
theorem calling {keyword : Keyword} {name : String} {args : List Value}
    {steps : Runner σ} (hs : Level limit (n + 1) steps) :
    Level limit n (.calling engine keyword name args steps) := by
  intro vars h
  have hi : (vars.enter (keyword.bindArguments args)).depth = n + 1 := by
    rw [Variables.depth_enter, h]
  refine Process.Obeys.andThen ((hs _ hi).imp fun e he => ?_)
  cases e with
  | inl o => exact returning he
  | inr v => exact Nat.le_of_succ_le he

end Level

/-- **Every construct stays on its level**, if keyword calls do. -/
theorem constructs_level {engine : Engine σ} {call : Calls σ} {limit n : Nat}
    (hn : n ≤ limit) (hc : ∀ name args, Level limit n (call name args)) :
    Constructs engine call (fun _ => Level limit n) (Level limit n) Action.Any :=
  (rules_stays limit n).constructs hc (fun _ _ _ hr => hr)
    (fun values => Level.assignGlobals values .null)
    fun step index _ _ hr => Level.observed hn step index hr

/-- **Calls stay on their level** if as many further ones may be nested as fit
below the limit. -/
theorem level_invokeWithin {engine : Engine σ} {limit left n : Nat}
    (h : n + left ≤ limit) (name : String) (args : List Value) :
    Level limit n (engine.invokeWithin left name args) := by
  induction left generalizing n name args with
  | zero =>
    intro vars hv
    unfold Engine.invokeWithin
    refine Process.obeys_act.mpr ⟨trivial, fun w => ?_⟩
    split
    · exact (rules_stays limit n).fail _ vars hv
    · exact (rules_stays limit n).fail _ vars hv
  | succ left ih =>
    intro vars hv
    unfold Engine.invokeWithin
    refine Process.obeys_act.mpr ⟨trivial, fun w => ?_⟩
    have hup : n + 1 + left ≤ limit := by omega
    split
    · exact (rules_stays limit n).fail _ vars hv
    · exact Level.calling
        ((constructs_level (by omega) (ih hup)).listRunner _) vars hv

/-- A list of steps that begins within the limit stays within it. -/
theorem Engine.obeys_execute (engine : Engine σ) (steps : List Step)
    {vars : Variables} (h : vars.depth ≤ engine.settings.maxKeywordDepth) :
    (engine.execute steps vars).Obeys
      (Deed.Within engine.settings.maxKeywordDepth) (AtLevel vars.depth) := by
  have hleft : vars.depth + engine.callsLeft vars ≤ engine.settings.maxKeywordDepth :=
    Nat.le_of_eq (Nat.add_sub_cancel' h)
  exact (constructs_level h fun name args =>
    level_invokeWithin hleft name args).listRunner steps vars rfl

/-! ## Calls at the limit and below it -/

/-- **What a keyword call does**: it looks the keyword up and is refused at the
limit; below it, it runs the steps of the keyword one level deeper. -/
theorem Engine.invoke_eq (engine : Engine σ) (name : String) (args : List Value)
    (vars : Variables) :
    engine.invoke name args vars = .act (.visit name) fun w =>
      match w.registry.find? name with
      | none => Runner.fail (.unknownKeyword name) vars
      | some keyword =>
        if engine.settings.maxKeywordDepth ≤ vars.depth then
          Runner.fail (.recursionLimit name engine.settings.maxKeywordDepth) vars
        else (engine.execute keyword.steps
          (vars.enter (keyword.bindArguments args))).andThen
            (Runner.returning engine keyword name) := by
  unfold invoke invokeWithin
  congr 1
  funext w
  cases w.registry.find? name with
  | none => rfl
  | some keyword =>
    dsimp only
    cases hleft : engine.callsLeft vars with
    | zero => rw [if_pos (Nat.sub_eq_zero_iff_le.mp hleft)]
    | succ left =>
      -- what is left inside of this call is what its steps are given
      have hlt : ¬ engine.settings.maxKeywordDepth ≤ vars.depth := fun h => by
        rw [callsLeft, Nat.sub_eq_zero_of_le h] at hleft
        cases hleft
      have hin : engine.callsLeft (vars.enter (keyword.bindArguments args)) = left := by
        show engine.settings.maxKeywordDepth - (vars.depth + 1) = left
        rw [← Nat.sub_sub]
        exact congrArg Nat.pred hleft
      rw [if_neg hlt]
      unfold execute
      rw [hin]
      rfl

/-- What a keyword declares as its value can crash but not fail. -/
theorem Runner.declaredValue_ne_failure {scope : Scope} {f : Failure} :
    ∀ {returns : Option String}, declaredValue scope returns ≠ .error (.failure f)
  | none, h => by cases h
  | some text, h => by
    unfold declaredValue at h
    dsimp only at h
    split at h
    · cases h
    · cases hr : scope.resolveText text with
      | ok v => rw [hr] at h; cases h
      | error c => rw [hr] at h; cases h

/-- A call that runs its steps does not end by being refused itself. -/
theorem Runner.andThen_returning_ne_fail {engine : Engine σ} {keyword : Keyword}
    {name : String} {p : Task σ} {n limit} {vars : Variables} :
    p.andThen (returning engine keyword name)
      ≠ .done (.fail (.recursionLimit n limit) vars) := by
  intro h
  cases p with
  | done o =>
    unfold Process.andThen returning at h
    split at h
    · cases h
    · cases h
    · unfold compute at h
      split at h
      · cases h
      · rename_i hd
        exact declaredValue_ne_failure hd
      · cases h
  | _ => cases h

/-- **Keyword calls are nested to the limit and no deeper.** For every session
in which lists of steps are begun outside of all calls, and in every order of
turns, all steps that were observed or logged are within the limit; nothing
else can be begun or ended by such a list. A call of a keyword that is there
fails before any of its steps if and only if as many calls are under way as
the limit says, and otherwise runs its steps one level deeper. -/
theorem Engine.depth_le_maxKeywordDepth (engine : Engine σ) :
    (∀ registry own session,
      Machine.Schedule
        (fun p => ∃ steps vars, vars.frames = [] ∧ p = engine.execute steps vars)
        (Session.start registry own) session →
      (∀ e ∈ session.world.events, e.depth ≤ engine.settings.maxKeywordDepth)
        ∧ ∀ r ∈ session.world.log, r.depth ≤ engine.settings.maxKeywordDepth)
    ∧ (∀ steps vars, vars.frames = [] → ∀ d, (engine.execute steps vars).Performs d →
      d.Within engine.settings.maxKeywordDepth)
    ∧ ∀ name args vars, ∃ next, engine.invoke name args vars = .act (.visit name) next
      ∧ ∀ w keyword, w.registry.find? name = some keyword →
        (next w = Runner.fail
            (.recursionLimit name engine.settings.maxKeywordDepth) vars
          ↔ engine.settings.maxKeywordDepth ≤ vars.depth)
        ∧ (vars.depth < engine.settings.maxKeywordDepth →
          next w = (engine.execute keyword.steps
              (vars.enter (keyword.bindArguments args))).andThen
                (Runner.returning engine keyword name)
            ∧ (vars.enter (keyword.bindArguments args)).depth = vars.depth + 1) := by
  have houtside : ∀ steps vars, vars.frames = [] →
      (engine.execute steps vars).Obeys
        (Deed.Within engine.settings.maxKeywordDepth) (AtLevel vars.depth) := by
    intro steps vars hv
    refine engine.obeys_execute steps ?_
    show vars.frames.length ≤ engine.settings.maxKeywordDepth
    rw [hv]
    exact Nat.zero_le _
  refine ⟨fun registry own session hs => ?_, fun steps vars hv => ?_,
    fun name args vars => ⟨_, engine.invoke_eq name args vars, fun w keyword hk => ?_⟩⟩
  · have hw : session.Obeys (Deed.Within engine.settings.maxKeywordDepth)
        (fun _ => True) (World.Within engine.settings.maxKeywordDepth) := by
      refine Machine.Obeys.schedule World.Within.perform (fun p hp => ?_)
        (Machine.obeys_ofWorld (World.within_fresh _ registry own)) hs
      obtain ⟨steps, vars, hv, rfl⟩ := hp
      exact (houtside steps vars hv).imp fun _ _ => trivial
    exact ⟨hw.world.events, hw.world.log⟩
  · exact (houtside steps vars hv).deeds
  · rw [hk]
    dsimp only
    refine ⟨⟨fun h => ?_, fun h => if_pos h⟩, fun h => ⟨if_neg (Nat.not_le.mpr h), rfl⟩⟩
    refine Classical.byContradiction fun hlt => ?_
    rw [if_neg hlt] at h
    exact Runner.andThen_returning_ne_fail h

/-- A keyword that calls itself, where one call may be under way: two steps are
begun, the second of them inside of the call, and its own call is refused. -/
theorem Engine.depth_le_maxKeywordDepth_self_call :
    let ambient : Ambient := ⟨0, "", "", fun _ => none⟩
    let engine : Engine Unit :=
      ⟨{ Settings.default with maxKeywordDepth := 1 }, .standard ambient, ambient⟩
    let again := Step.mk (.keyword "k" []) none false none .null
    let keyword : Keyword := ⟨"k", [], [again], none, none⟩
    let registry : Registry := ⟨[("k", keyword)], []⟩
    let session := (Machine.run 1 (engine.execute [again] .empty)
      (Session.start registry ())).2
    session.world.events.length = 4
      ∧ (∀ e ∈ session.world.events, e.depth ≤ 1)
      ∧ ∃ next, engine.invoke "k" [] (Variables.empty.enter [])
          = .act (.visit "k") next
        ∧ next (.fresh registry ())
          = Runner.fail (.recursionLimit "k" 1) (Variables.empty.enter []) := by
  intro ambient engine again keyword registry session
  have h := Engine.depth_le_maxKeywordDepth engine
  have hs : Machine.Schedule
      (fun p => ∃ steps vars, vars.frames = [] ∧ p = engine.execute steps vars)
      (Session.start registry ()) session :=
    Machine.schedule_run ⟨[again], .empty, rfl, rfl⟩ 1 _
  obtain ⟨next, hi, hn⟩ := h.2.2 "k" [] (Variables.empty.enter [])
  refine ⟨?_, (h.1 registry () session hs).1, next, hi, ?_⟩
  · subst session registry keyword again engine ambient
    decide +kernel
  · exact (hn (.fresh registry ()) keyword rfl).1.mpr (Nat.le_refl 1)

end Playbook
