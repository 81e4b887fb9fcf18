import Playbook.Proofs.Keyword.Registry
import Playbook.Proofs.Process.Decided
import Playbook.Proofs.Run.Blocks
import Playbook.Proofs.Run.Results

/-!
# Steps come to one outcome

What a list of steps comes to by itself does not depend on when its tasks have their
turns, nor on what other tasks do to the world in between. All that a task looks at in
the world are the keywords, which no deed changes (`World.Knows`), the state of the
handlers, which is left out of account where a handler answers by the action and the
variables only (`Handler.Steady`), and the stopwatch.

The stopwatch is looked at when a block sums up its operations, and what it shows can be
read from the summary. So with a steady handler a list of steps has one outcome, if its
races are decided and no time is told that may be another one at another time
(`Engine.determined_execute`). The recursion goes over all constructs; in a block of
concurrent operations each operation has one outcome, and a block that fails fast fails
with the first failure in the order of the operations, wherever it stopped.
-/

namespace Playbook

variable {σ : Type}

/-! ## The world that tasks look at -/

/-- A world with the keywords of a registry. -/
def World.Knows (registry : Registry) (w : World σ) : Prop :=
  ∀ name, w.registry.find? name = registry.find? name

/-- **No deed changes a keyword.** -/
theorem World.Knows.perform {registry : Registry} {w : World σ} (h : w.Knows registry)
    (deed : Deed σ) : (w.perform deed).Knows registry := by
  intro name
  cases deed with
  | visit other => exact (Registry.find?_visit other name w.registry).trans (h name)
  | finish step index depth outcome logged =>
    unfold World.perform
    dsimp only
    split
    · exact h name
    · exact h name
  | start | measure | own | look | time => exact h name

/-- **What a handling can answer**, whatever states it finds on its way. -/
inductive Handling.Answers : Handling σ → Except ActionError Value → Prop
  | answer (result : Except ActionError Value) : Answers (.answer result) result
  | act {update : σ → σ} {next : σ → Handling σ} {result} (state : σ)
    (h : Answers (next state) result) : Answers (.act update next) result
  | sleep {ms next result} (h : Answers next result) : Answers (.sleep ms next) result

/-- **A handler that answers by the action and the variables only.** It may have a
state and let time pass, but its answer is the same whatever the states it finds. -/
def Handler.Steady (handler : Handler σ) : Prop :=
  ∀ call vars result result', (handler.handle call vars).Answers result →
    (handler.handle call vars).Answers result' → result = result'

namespace Handling

/-- A task ends with what its handling answers. -/
theorem comes_task {W : World σ → Prop} {vars : Variables} {o : Outcome} :
    (handling : Handling σ) → (handling.task vars).Comes W o →
      ∃ result, handling.Answers result ∧ o = match result with
        | .ok v => .yield v vars
        | .error e => .fail (.action e) vars
  | .answer (.ok v), h => ⟨.ok v, .answer _, Process.comes_done.mp h⟩
  | .answer (.error e), h => ⟨.error e, .answer _, Process.comes_done.mp h⟩
  | .crash _, h => (Process.comes_crash h).elim
  | .act _ next, h => by
    obtain ⟨w, -, h⟩ := Process.comes_act.mp h
    obtain ⟨result, ha, ho⟩ := comes_task (next w.own) h
    exact ⟨result, .act w.own ha, ho⟩
  | .sleep _ next, h => by
    obtain ⟨result, ha, ho⟩ := comes_task next (Process.comes_sleep.mp h)
    exact ⟨result, .sleep ha, ho⟩

end Handling

namespace Handler

/-- Handlings that look at no state have one answer. -/
theorem steady_of_cases {handler : Handler σ}
    (h : ∀ call vars, (∃ result, handler.handle call vars = .answer result)
      ∨ (∃ c, handler.handle call vars = .crash c)
      ∨ ∃ ms result, handler.handle call vars = .sleep ms (.answer result)) :
    handler.Steady := by
  intro call vars result result' hr hr'
  obtain ⟨r, he⟩ | ⟨c, he⟩ | ⟨ms, r, he⟩ := h call vars
  · rw [he] at hr hr'
    cases hr
    cases hr'
    rfl
  · rw [he] at hr
    cases hr
  · rw [he] at hr hr'
    cases hr with
    | sleep hr =>
      cases hr' with
      | sleep hr' =>
        cases hr
        cases hr'
        rfl

/-- **The standard actions are steady.** -/
theorem steady_standard (ambient : Ambient) : (standard (σ := σ) ambient).Steady := by
  refine steady_of_cases fun call vars => ?_
  have hassert : (∃ result, (checkAssertion (vars.scope ambient) call : Handling σ)
        = .answer result)
      ∨ ∃ c, (checkAssertion (vars.scope ambient) call : Handling σ) = .crash c := by
    unfold checkAssertion
    dsimp only
    split
    · exact .inl ⟨_, rfl⟩
    · split
      · exact .inl ⟨_, rfl⟩
      · exact .inl ⟨_, rfl⟩
      · exact .inl ⟨_, rfl⟩
      · exact .inr ⟨_, rfl⟩
  have hpause : (∃ result, (pause call : Handling σ) = .answer result)
      ∨ ∃ ms result, (pause call : Handling σ) = .sleep ms (.answer result) := by
    unfold pause
    dsimp only
    split
    · exact .inr ⟨_, _, rfl⟩
    · exact .inl ⟨_, rfl⟩
  unfold standard
  dsimp only
  split
  · exact hassert.imp_right .inl
  · exact .inl ⟨_, rfl⟩
  · exact hpause.imp_right .inr
  · exact hpause.imp_right .inr
  · exact .inl ⟨_, rfl⟩
  · exact .inl ⟨_, rfl⟩

/-- Steady handlers one after the other are a steady handler. -/
theorem steady_chain {handlers : List (Handler σ)} (h : ∀ x ∈ handlers, x.Steady) :
    (chain handlers).Steady := by
  intro call vars result result' hr hr'
  unfold chain at hr hr'
  dsimp only at hr hr'
  split at hr
  · rename_i x hx
    rw [hx] at hr'
    exact h x (List.mem_of_find?_eq_some hx) call vars _ _ hr hr'
  · rename_i hx
    rw [hx] at hr'
    cases hr
    cases hr'
    rfl

end Handler

/-! ## Times that are told -/

/-- **A stopwatch that always shows the same** times of operations. -/
def Stopwatch.Steady (stopwatch : Stopwatch σ) : Prop :=
  ∀ s s', stopwatch.operation s = stopwatch.operation s'

/-- **A deed that tells a time**: a look at a stopwatch that does not always show the same. -/
def Engine.TellsTime (engine : Engine σ) (deed : Deed σ) : Prop :=
  deed.isLook = true ∧ ¬ engine.stopwatch.Steady

theorem Engine.not_tellsTime {engine : Engine σ} {deed : Deed σ} (h : deed.isLook = false) :
    ¬ engine.TellsTime deed := by
  rintro ⟨hl, -⟩
  rw [h] at hl
  cases hl

/-! ## Results of blocks -/

/-- The value of a race is that of the operation that has won it. -/
theorem Runner.findSome?_winning (s : Settled Outcome Crash) :
    (s.findSome? fun e => winning? e.2)
      = (Race.winner? (fun o => !o.failed) s).bind fun o => o.result.toOption.map Flow.value := by
  induction s with
  | nil => rfl
  | cons e rest ih =>
    obtain ⟨i, s⟩ := e
    unfold Race.winner?
    rw [List.findSome?_cons, List.findSome?_cons]
    cases s with
    | crashed => exact ih
    | finished o =>
      obtain ⟨result, vars, attempts⟩ := o
      cases result with
      | ok flow => rfl
      | error f => exact ih

/-! ## Tasks with one outcome -/

/-- **A task has one outcome** if its races are decided and it tells no times. -/
def Task.Sure (engine : Engine σ) (W : World σ → Prop) (p : Task σ) : Prop :=
  p.Decided engine.TellsTime W → p.Determined W

namespace Task.Sure

variable {engine : Engine σ} {W : World σ → Prop}

/-- A task that looks at nothing in the world. -/
theorem doing {deed : Deed σ} {p : Task σ} (h : p.Sure engine W) :
    Task.Sure engine W (.doing deed p) := by
  intro hd o o' ho ho'
  obtain ⟨w, hw, ho⟩ := Process.comes_act.mp ho
  obtain ⟨_, -, ho'⟩ := Process.comes_act.mp ho'
  exact h (hd.acted hw) o o' ho ho'

theorem andThen {p : Task σ} {k : Outcome → Task σ} (hp : p.Sure engine W)
    (hk : ∀ o, (k o).Sure engine W) :
    Task.Sure engine W (p.andThen k) := by
  intro hd
  obtain ⟨hdp, hdk⟩ := Process.decided_andThen hd
  exact (hp hdp).andThen fun o ho => hk o (hdk o ho)

theorem sequential (engine : Engine σ) (W : World σ → Prop) :
    Sequential (fun _ => True) fun _ (p : Task σ) => p.Sure engine W where
  bound _ _ _ := trivial
  bind _ _ _ h := h
  done o _ _ := Process.determined_done o
  crash _ _ _ hr _ := (Process.comes_crash hr).elim
  andThen hp hk := andThen hp fun o => hk o trivial
  sleep _ h hd o o' ho ho' :=
    h hd.slept o o' (Process.comes_sleep.mp ho) (Process.comes_sleep.mp ho')

/-- A runner whose tasks have one outcome. -/
abbrev Runs (engine : Engine σ) (W : World σ → Prop) (r : Runner σ) : Prop :=
  Holds (fun _ => True) (fun _ p => Task.Sure engine W p) r

theorem operation {r : Runner σ} (timeout : Nat) (hr : Runs engine W r) :
    Runs engine W (.operation timeout r) := by
  intro vars hv hd o o' ho ho'
  obtain ⟨b, hb, ho⟩ := Process.comes_timed.mp ho
  obtain ⟨b', hb', ho'⟩ := Process.comes_timed.mp ho'
  cases hr vars hv hd.body b b' hb hb'
  exact Process.determined_done _ o o' ho ho'

/-- Operations have one outcome each. -/
theorem determined_of_mem {rs : List (Runner σ)} (hr : ∀ r ∈ rs, Runs engine W r) {vars : Variables}
    (hd : ∀ op ∈ rs.map fun r => r vars, op.Decided engine.TellsTime W) :
    ∀ op ∈ rs.map fun r => r vars, op.Determined W := by
  intro op hop
  obtain ⟨r, hm, rfl⟩ := List.mem_map.mp hop
  exact hr r hm vars trivial (hd _ hop)

/-- A summary is the same if the stopwatch always shows the same. -/
theorem summarize (results : List OperationResult) :
    Runs engine W (.summarize engine results) := by
  intro vars _ hd o o' ho ho'
  have hsteady : engine.stopwatch.Steady := not_not.mp fun h => hd.not_deed ⟨rfl, h⟩
  obtain ⟨w, -, ho⟩ := Process.comes_act.mp ho
  obtain ⟨w', -, ho'⟩ := Process.comes_act.mp ho'
  rw [hsteady w'.own w.own] at ho'
  exact Process.determined_done _ o o' ho ho'

theorem conclude (failFast : Bool) (results : List OperationResult) :
    Runs engine W (.conclude engine failFast results) := by
  unfold Runner.conclude
  split
  · exact (sequential engine W).fail _
  · exact summarize _

/-- **A block of operations has one outcome.** Where it fails fast it may have started
more or fewer of them, but its first failure is the same. -/
theorem parallel (settings : BlockSettings) {rs : List (Runner σ)}
    (hr : ∀ r ∈ rs, Runs engine W r) : Runs engine W (.parallel engine settings rs) := by
  intro vars _ hd o o' ho ho'
  obtain ⟨s, hs, ho⟩ := Process.comes_gather.mp ho
  obtain ⟨s', hs', ho'⟩ := Process.comes_gather.mp ho'
  have hops := determined_of_mem (fun r hm => by
    obtain ⟨r', hm', rfl⟩ := List.mem_map.mp hm
    exact operation _ (hr r' hm')) hd.operation
  have same : s = s' → o = o' := by
    rintro rfl
    exact conclude _ _ vars trivial (hd.gathered hs) o o' ho ho'
  obtain ⟨results, results', rfl, rfl, rfl | ⟨common, ⟨b, hb, hstop⟩, hp, hp'⟩⟩ :=
    Process.yields_gather hops hs hs'
  · exact same rfl
  · obtain ⟨hfast, hfailed⟩ := Bool.and_eq_true_iff.mp hstop
    obtain ⟨f, hf, he⟩ := OperationResult.firstFailure?_of_prefix hp ⟨b, hb, hfailed⟩
    obtain ⟨f', hf', he'⟩ := OperationResult.firstFailure?_of_prefix hp' ⟨b, hb, hfailed⟩
    cases hf.symm.trans hf'
    unfold Runner.conclude at ho ho'
    rw [hfast, if_pos rfl, he] at ho
    rw [hfast, if_pos rfl, he'] at ho'
    exact Process.determined_done _ o o' ho ho'

/-- A race has one outcome if it is decided. -/
theorem race (timeout : Option Nat) (rs : List (Runner σ)) :
    Runs engine W (.race engine timeout rs) := by
  intro vars _ hd o o' ho ho'
  obtain ⟨s, hs, ho⟩ := Process.comes_race.mp ho
  obtain ⟨s', hs', ho'⟩ := Process.comes_race.mp ho'
  have halike : Race.Alike (fun o => !o.failed) s s' := by
    cases hd with
    | race h _ => exact h s s' hs hs'
  obtain rfl | ⟨r, hw, hw'⟩ := halike
  · split at ho
    · rename_i hv
      rw [hv] at ho'
      exact Process.determined_done _ o o' ho ho'
    · rename_i hv
      rw [hv] at ho'
      exact Process.determined_done _ o o' ho ho'
  · -- both are won with the value of `r`
    have hr : ∃ v, r.result.toOption.map Flow.value = some v := by
      have hwins := Race.wins_of_winner? hw
      unfold Outcome.failed at hwins
      cases hr : r.result with
      | ok flow => exact ⟨_, rfl⟩
      | error f =>
        rw [hr] at hwins
        cases hwins
    obtain ⟨v, hv⟩ := hr
    rw [Runner.findSome?_winning, hw, Option.bind_some, hv] at ho
    rw [Runner.findSome?_winning, hw', Option.bind_some, hv] at ho'
    exact Process.determined_done _ o o' ho ho'

theorem chunksFrom (delay : Nat) {chunks : List (List (Runner σ))}
    (hr : ∀ chunk ∈ chunks, ∀ r ∈ chunk, Runs engine W r)
    (results : List (List OperationResult)) (base : Nat) :
    Runs engine W (.chunksFrom engine delay results base chunks) := by
  induction chunks generalizing results base with
  | nil => exact summarize _
  | cons chunk rest ih =>
    intro vars _
    have hbody : Task.Sure engine W (.gather chunk.length (fun _ => false)
        (chunk.map fun r => r vars) vars fun settled =>
          Runner.chunksFrom engine delay (OperationResult.ofSettled base settled :: results)
            (base + chunk.length) rest vars) := by
      intro hd o o' ho ho'
      obtain ⟨s, hs, ho⟩ := Process.comes_gather.mp ho
      obtain ⟨s', hs', ho'⟩ := Process.comes_gather.mp ho'
      cases Process.yields_gather_unstopped
        (determined_of_mem (hr chunk List.mem_cons_self) hd.operation) hs hs'
      exact ih (fun c hc => hr c (List.mem_cons_of_mem chunk hc)) _ _ vars trivial
        (hd.gathered hs) o o' ho ho'
    unfold Runner.chunksFrom
    split
    · exact hbody
    · exact (sequential engine W).sleep trivial hbody

theorem perform (h : engine.handler.Steady) (keys : List String) (name : String)
    (params : Value) (options : Named Value) :
    Runs engine W (.perform engine keys name params options) := by
  unfold Runner.perform
  split
  · refine (sequential engine W).compute fun call vars _ _ o o' ho ho' => ?_
    obtain ⟨result, ha, rfl⟩ := Handling.comes_task _ ho
    obtain ⟨result', ha', rfl⟩ := Handling.comes_task _ ho'
    rw [h call vars result result' ha ha']
  · exact (sequential engine W).fail _

/-- **What remains of the constructs**: their blocks and actions have one outcome. -/
theorem remaining (h : engine.handler.Steady) (call : Calls σ) :
    Remaining engine call (fun _ => True) (fun _ p => Task.Sure engine W p) Action.Any where
  parallel _ settings _ hr :=
    (sequential engine W).countable settings (parallel settings hr)
  race _ timeout _ _ := race timeout _
  batch operations settings _ hr := by
    refine chunksFrom _ (fun chunk hc r hm => ?_) [] 0
    obtain ⟨r', hm', rfl⟩ := List.mem_map.mp (Runner.chunk_subset hc hm)
    exact (sequential engine W).retrying (operation _ (hr r' hm')) _ _ _
  parallelForEach iteration _ settings _ hb :=
    (sequential engine W).countable settings <|
      (sequential engine W).compute fun items => parallel settings fun r hr => by
        obtain ⟨⟨item, index⟩, -, rfl⟩ := List.mem_map.mp hr
        exact (sequential engine W).bindPass iteration index item hb
  perform keys name params options := perform h keys name params options

theorem assignGlobals (values : List (String × Value)) (last : Value) :
    Runs engine W (.assignFrom engine .globals last values) := by
  induction values generalizing last with
  | nil => exact (sequential engine W).yield last
  | cons field rest ih => exact (sequential engine W).compute fun v vars hv => ih v _ hv

theorem observed (step : Step) (index : Nat) {r : Runner σ} (hr : Runs engine W r) :
    Runs engine W (.observed engine step index r) := by
  intro vars hv
  refine doing (andThen (hr vars hv) fun o => doing ?_)
  split
  · exact (sequential engine W).yield .null _ trivial
  · exact (sequential engine W).done _ trivial

theorem constructs (h : engine.handler.Steady) {call : Calls σ}
    (hcall : ∀ name args, Runs engine W (call name args)) :
    Constructs engine call (fun _ => Runs engine W) (Runs engine W) Action.Any :=
  (sequential engine W).constructs ⟨fun h => h.doing, fun h => h.doing⟩ (remaining h call)
    (fun name _ _ => hcall name) (fun _ _ _ hr => hr)
    (fun values => assignGlobals values .null) fun step index _ _ hr => observed step index hr

theorem calling {keyword : Keyword} {name : String} {args : List Value} {steps : Runner σ}
    (hs : Runs engine W steps) : Runs engine W (.calling engine keyword name args steps) := by
  intro vars hv
  refine andThen (hs _ trivial) fun o => ?_
  unfold Runner.returning
  split
  · exact (sequential engine W).fail _ _ trivial
  · exact (sequential engine W).yield _ _ trivial
  · exact (sequential engine W).compute (fun v => (sequential engine W).yield v) _ trivial

/-- **Keyword calls have one outcome**: a name has the same keyword in every world that
the registry's keywords are known in. -/
theorem invokeWithin (h : engine.handler.Steady) (registry : Registry) (left : Nat)
    (name : String) (args : List Value) :
    Runs engine (World.Knows registry) (engine.invokeWithin left name args) := by
  induction left generalizing name args with
  | zero =>
    intro vars _ hd o o' ho ho'
    unfold Engine.invokeWithin at hd ho ho'
    obtain ⟨w, hw, ho⟩ := Process.comes_act.mp ho
    obtain ⟨w', hw', ho'⟩ := Process.comes_act.mp ho'
    dsimp only at ho ho'
    rw [hw name] at ho
    rw [hw' name] at ho'
    split at ho
    · rename_i hf
      rw [hf] at ho'
      exact Process.determined_done _ o o' ho ho'
    · rename_i hf
      rw [hf] at ho'
      exact Process.determined_done _ o o' ho ho'
  | succ left ih =>
    intro vars _ hd o o' ho ho'
    unfold Engine.invokeWithin at hd ho ho'
    obtain ⟨w, hw, ho⟩ := Process.comes_act.mp ho
    obtain ⟨w', hw', ho'⟩ := Process.comes_act.mp ho'
    have hdec := hd.acted hw
    dsimp only at ho ho' hdec
    rw [hw name] at ho hdec
    rw [hw' name] at ho'
    split at ho
    · rename_i hf
      rw [hf] at ho'
      exact Process.determined_done _ o o' ho ho'
    · rename_i keyword hf
      rw [hf] at ho' hdec
      exact calling ((constructs h ih).listRunner keyword.steps) vars trivial hdec o o' ho ho'

end Task.Sure

/-- **A list of steps has one outcome**, whatever other tasks do to the world, if its
races are decided and it tells no times. -/
theorem Engine.determined_execute {engine : Engine σ} (h : engine.handler.Steady)
    (registry : Registry) (steps : List Step) (vars : Variables)
    (hd : (engine.execute steps vars).Decided engine.TellsTime (World.Knows registry)) :
    (engine.execute steps vars).Determined (World.Knows registry) :=
  (Task.Sure.constructs h (Task.Sure.invokeWithin h registry _)).listRunner steps vars trivial hd

end Playbook
