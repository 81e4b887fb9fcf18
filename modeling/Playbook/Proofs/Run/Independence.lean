import Playbook.Proofs.Process.Result
import Playbook.Proofs.Run.Determinism
import Playbook.Proofs.Run.Termination

/-!
# Operations come out as they do alone

The operations of a block share the keywords, the log and the state of the handlers, and
a limit says how many of them run at once. None of it shows in their results: what a
block records of an operation is what the steps of the operation come to alone, with the
variables that it was begun with. So it does not depend on the limit, on the order in
which operations settle, or on the size of the chunks of a batch.

This is about blocks that run all their operations, each one once (`Engine.Records`),
and about blocks in which no time limit passes and nothing crashes (`Event.Calm`). What
steps come to alone is told by `Process.Comes`. Even with a steady handler two things can
leave it open: which operation wins a race, and which times a block that stands in the
steps tells of in its summary. Where neither does, it is the outcome of any run of the
steps by themselves (`Session.recorded_alone`). Where one does, what is recorded is one of
several outcomes, and a run of the steps by themselves can come to another one
(`Session.recorded_unlike_alone`).
-/

namespace Playbook

variable {σ : Type}

/-- **Nothing is disturbed inside of a block**, at any depth of nesting: no time limit
passes, and no operation crashes. -/
structure Event.Calm {δ σ ν ρ κ : Type} (block : Nat) (past : List (Event δ σ ν ρ κ)) :
    Prop where
  inTime : ∀ t w, Inside past block t → .timedOut t w ∉ past
  safe : ∀ t t' a, Inside past block t → .ended t (.crashed t' a) ∉ past

theorem Event.Calm.undisturbed {δ σ ν ρ κ : Type} {block : Nat}
    {past : List (Event δ σ ν ρ κ)} (h : Calm block past) :
    Undisturbed (Inside past block) (Within past block) past where
  opened _ _ _ ho hu := by
    obtain ⟨c, i, p, hc, hs⟩ := hu
    exact .nested hc hs ho
  started c i _ p hs hc := ⟨c, i, p, hc, hs⟩
  inTime := h.inTime
  safe := h.safe

/-! ## What blocks record -/

/-- What a block is to record. -/
structure Recording (σ : Type) where
  /-- The position of its first operation; a chunk of a batch has others before it. -/
  base : Nat
  /-- How many operations it has. -/
  count : Nat
  /-- What the operations do by their positions: lists of steps, with the variables that
  they begin with. -/
  alone : List (List Step × Variables)
  /-- What follows the block, by what it has recorded. -/
  next : List OperationResult → Task σ

/-- **The blocks that run all their operations, each one once**: blocks and concurrent
loops that do not fail fast, and the chunks of batches without further tries. -/
inductive Engine.Records (engine : Engine σ) : Task σ → Recording σ → Prop
  | parallel (settings : BlockSettings) (operations : List Step) (vars : Variables)
      (k : Outcome → Task σ)
      (hf : settings.failFast.getD engine.settings.parallel.failFast = false) :
    Records engine
      ((Runner.parallel engine settings (engine.singles vars operations) vars).andThen k)
      ⟨0, operations.length, operations.map fun step => ([step], vars), fun results =>
        (Runner.summarize engine results vars).andThen k⟩
  | parallelForEach (settings : BlockSettings) (iteration : Iteration) (items : List Value)
      (body : List Step) (vars : Variables) (k : Outcome → Task σ)
      (hf : settings.failFast.getD engine.settings.parallel.failFast = false) :
    Records engine ((Runner.parallel engine settings
        (engine.passes vars iteration items body) vars).andThen k)
      ⟨0, items.length, items.zipIdx.map fun (item, index) =>
        (body, Runner.bindPass iteration index item vars), fun results =>
          (Runner.summarize engine results vars).andThen k⟩
  | batch (settings : BatchSettings) (results : List (List OperationResult))
      (before : List (List Step)) (operations : List Step) (rest : List (List Step))
      (vars : Variables) (k : Outcome → Task σ)
      (all : List Step) (h : Runner.chunks (settings.size.getD engine.settings.batch.size) all
        = before ++ operations :: rest)
      (hr : settings.maxRetries.getD engine.settings.batch.maxRetries = 0) :
    Records engine ((engine.chunk settings results before operations rest vars).andThen k)
      ⟨before.flatten.length, operations.length, all.map fun step => ([step], vars),
        fun recorded => (Runner.chunksFrom engine
          (settings.delay.getD engine.settings.batch.delay) (recorded :: results)
          (before.flatten.length + (engine.tries settings vars operations).length)
          (rest.map (engine.tries settings vars)) vars).andThen k⟩

/-- A pass begins as deep as its loop. -/
@[simp] theorem Runner.depth_bindPass (iteration : Iteration) (index : Nat) (item : Value)
    (vars : Variables) : (bindPass iteration index item vars).depth = vars.depth := by
  unfold bindPass
  split
  · rw [Variables.depth_bind, Variables.depth_bind]
  · rw [Variables.depth_bind]

/-- What an operation of a block comes to under its time limit, its steps come to. -/
theorem Runner.of_comes_operation {W : World σ → Prop} {timeout : Nat} {r : Runner σ}
    {vars : Variables} {o : Outcome} (h : (operation timeout r vars).Comes W o) :
    ∃ o', (r vars).Comes W o' ∧ o.result.map Flow.value = o'.result.map Flow.value := by
  obtain ⟨o', ho', h⟩ := Process.comes_timed.mp h
  refine ⟨o', ho', ?_⟩
  rw [Process.comes_done.mp h]
  show (o'.result.map fun flow => Flow.continue flow.value).map Flow.value = _
  cases o'.result with
  | ok flow => rfl
  | error f => rfl

/-- The same of an operation of a batch that is tried once. -/
theorem Runner.of_comes_retrying {W : World σ → Prop} {timeout attempt pause : Nat}
    {r : Runner σ} {vars : Variables} {o : Outcome}
    (h : (retrying timeout r attempt pause 0 vars).Comes W o) :
    ∃ o', (r vars).Comes W o' ∧ o.result.map Flow.value = o'.result.map Flow.value := by
  obtain ⟨b, hb, h⟩ := Process.comes_andThen.mp h
  obtain ⟨o', ho', he⟩ := of_comes_operation hb
  exact ⟨o', ho', by rw [Process.comes_done.mp h]; exact he⟩

/-- A block that does not fail fast is a gathering that nothing stops, and it ends with
the summary of its operations. -/
theorem Runner.parallel_eq {engine : Engine σ} {settings : BlockSettings}
    (hf : settings.failFast.getD engine.settings.parallel.failFast = false)
    (rs : List (Runner σ)) (vars : Variables) (k : Outcome → Task σ) :
    (parallel engine settings rs vars).andThen k
      = .gather (settings.maxConcurrency.getD engine.settings.parallel.maxConcurrency)
          (fun _ => false)
          ((rs.map (operation (settings.timeout.getD engine.settings.parallel.timeout))).map
            fun r => r vars) vars fun s =>
          (summarize engine (OperationResult.ofSettled 0 s) vars).andThen k := by
  rw [parallel_andThen, hf]
  rfl

/-- **What a block that records its operations is like**: a gathering that nothing
stops, where each operation comes to what its steps come to alone. -/
theorem Engine.Records.gathers {engine : Engine σ} {n : Task σ} {rec : Recording σ}
    (h : engine.Records n rec) :
    ∃ limit operations vars next,
      n = .gather limit (fun _ => false) operations vars next
      ∧ (∀ s, next s = rec.next (OperationResult.ofSettled rec.base s))
      ∧ operations.length = rec.count
      ∧ ∀ (i : Nat) op, operations[i]? = some op → ∃ steps vars,
        rec.alone[rec.base + i]? = some (steps, vars)
          ∧ ∀ W o, op.Comes W o → ∃ o', (engine.execute steps vars).Comes W o'
            ∧ o.result.map Flow.value = o'.result.map Flow.value := by
  cases h with
  | parallel settings operations vars k hf =>
    rw [Runner.parallel_eq hf]
    refine ⟨_, _, _, _, rfl, fun _ => rfl, by simp, fun i op hop => ?_⟩
    rw [List.map_map, List.map_map, List.getElem?_map] at hop
    obtain ⟨step, hs, rfl⟩ := Option.map_eq_some_iff.mp hop
    refine ⟨[step], vars, ?_, fun W o ho => Runner.of_comes_operation ho⟩
    rw [Nat.zero_add, List.getElem?_map, hs]
    rfl
  | parallelForEach settings iteration items body vars k hf =>
    rw [Runner.parallel_eq hf]
    refine ⟨_, _, _, _, rfl, fun _ => rfl, by simp, fun i op hop => ?_⟩
    rw [List.map_map, List.map_map, List.getElem?_map] at hop
    obtain ⟨⟨item, index⟩, hs, rfl⟩ := Option.map_eq_some_iff.mp hop
    refine ⟨body, Runner.bindPass iteration index item vars, ?_, fun W o ho => ?_⟩
    · rw [Nat.zero_add, List.getElem?_map, hs]
      rfl
    · obtain ⟨o', ho', he⟩ := Runner.of_comes_operation ho
      refine ⟨o', ?_, he⟩
      unfold Engine.execute Engine.callsLeft
      rw [Runner.depth_bindPass]
      exact ho'
  | batch settings results before operations rest vars k all h hr =>
    refine ⟨_, _, _, _, rfl, fun _ => rfl, by simp, fun i op hop => ?_⟩
    rw [List.map_map, List.map_map, List.getElem?_map] at hop
    obtain ⟨step, hs, rfl⟩ := Option.map_eq_some_iff.mp hop
    refine ⟨[step], vars, ?_, fun W o ho => ?_⟩
    · -- the chunks put together are the operations of the batch
      have hall := Runner.flatten_chunks (settings.size.getD engine.settings.batch.size) all
      rw [h, List.flatten_append, List.flatten_cons] at hall
      rw [List.getElem?_map, ← hall, List.getElem?_append_right (Nat.le_add_right _ _),
        Nat.add_sub_cancel_left,
        List.getElem?_append_left (List.getElem?_eq_some_iff.mp hs).1, hs]
      rfl
    · have ho : (engine.trying settings (Step.listRunner engine (engine.callsAt vars) [step])
          vars).Comes W o := ho
      unfold Engine.trying at ho
      rw [hr] at ho
      obtain ⟨o', ho', he⟩ := Runner.of_comes_retrying ho
      exact ⟨o', ho', he⟩

/-- **The outcome of any run by itself is what a process comes to**, if nothing in it
was disturbed. -/
theorem Moment.Later.comes_of_ended {δ σ ν ρ κ : Type} [Deeds δ σ] {W : σ → Prop}
    {p : Process δ σ ν ρ κ} {w : σ} {a : Moment δ σ ν ρ κ}
    (h : Later (· = p) ⟨.idle, .ofWorld w, []⟩ a) (hw : W w)
    (hW : ∀ (d : δ) (w : σ), W w → W (Deeds.perform d w))
    (hu : Event.Undisturbed (fun _ => True) (fun _ => True) a.past) {r : ρ}
    (he : .ended Machine.mainId (.finished r) ∈ a.past) : p.Comes W r := by
  obtain ⟨c, i, q, hs, -⟩ | ⟨-, q, rfl, hq⟩ := (h.coming hw hW hu).2.ended _ r he trivial
  · exact absurd rfl ((Later.orderly h).numbered.ne_main hs)
  · exact hq

/-- **Sequential steps leave nothing open**: there is no race in them, and no block that
tells of times. -/
theorem Engine.decided_execute {engine : Engine σ} {registry : Registry}
    {names : String → Prop} (hk : registry.Sequential names) {steps : List Step}
    (hs : Step.All (Action.Sequential names) steps) (vars : Variables) :
    (engine.execute steps vars).Decided engine.TellsTime (World.Knows registry) :=
  (Engine.solo_execute (K := fun _ => True) trivial
    (fun _ _ => Handling.crashesOnly_any _) hk hs vars).decided fun _ hd =>
      Engine.not_tellsTime hd

/-! ## Runs that nothing disturbs -/

section

variable {δ σ ν ρ κ : Type}

/-- Whether an event disturbs a task. -/
def Event.disturbs : Event δ σ ν ρ κ → Bool
  | timedOut _ _ => true
  | ended _ (.crashed _ _) => true
  | _ => false

variable {past : List (Event δ σ ν ρ κ)}

/-- Where no event disturbs any task, none in particular is disturbed. -/
theorem Event.not_mem_of_all (h : (past.all fun e => !e.disturbs) = true) {e : Event δ σ ν ρ κ}
    (he : e.disturbs = true) : e ∉ past := by
  intro hm
  have hn := List.all_eq_true.mp h e hm
  rw [he] at hn
  cases hn

/-- Then nothing is disturbed inside of a block. -/
theorem Event.Calm.of_all (h : (past.all fun e => !e.disturbs) = true) (block : Nat) :
    Calm block past where
  inTime _ _ _ := not_mem_of_all h rfl
  safe _ _ _ _ := not_mem_of_all h rfl

/-- Nor is anything elsewhere. -/
theorem Event.Undisturbed.of_all (h : (past.all fun e => !e.disturbs) = true) :
    Undisturbed (fun _ => True) (fun _ => True) past where
  opened _ _ _ _ _ := trivial
  started _ _ _ _ _ _ := trivial
  inTime _ _ _ := not_mem_of_all h rfl
  safe _ _ _ _ := not_mem_of_all h rfl

variable [Deeds δ σ] {deed deed' : δ} {r : ρ} {p : Process δ σ ν ρ κ}

/-- A process of two deeds ends by itself. -/
theorem Moment.ends_alone (w : σ) (hp : p = .act deed fun _ => .act deed' fun _ => .done r) :
    ∃ a : Moment δ σ ν ρ κ, Later (· = p) ⟨.idle, .ofWorld w, []⟩ a
      ∧ .ended Machine.mainId (.finished r) ∈ a.past
      ∧ (a.past.all fun e => !e.disturbs) = true := by
  have hbegin : Next (· = p) ⟨.idle, .ofWorld w, []⟩ _ := .begin rfl nofun
  rw [hp] at hbegin ⊢
  exact ⟨_, ((((Relation.ReflTransGen.single hbegin).tail
    (.move (.first (t := ⟨0, none, .fresh _⟩) rfl rfl))).tail .act).tail .act).tail .finish,
    List.mem_append_right _ List.mem_cons_self, rfl⟩

/-- An operation of two deeds ends in its first turn. -/
theorem Moment.later_of_acts {P : Process δ σ ν ρ κ → Prop} {m : Machine δ σ ν ρ κ}
    (task : Machine.Task δ σ ν ρ κ) {ms : Nat} {result : ρ} {follow : ρ ⊕ ν → Process δ σ ν ρ κ}
    (hp : p = .act deed fun _ => .act deed' fun _ => .done r)
    (ht : m.tasks.find? (fun t => t.id == task.id) = some task)
    (hs : task.state = .fresh (.timed ms p follow)) (hfollow : follow (.inl r) = .done result) :
    Later P ⟨.idle, m, past⟩
      ⟨.idle, (Machine.finish task (.finished result)
          { m with world := Deeds.perform deed' (Deeds.perform deed m.world) }).2,
        past ++ [.did task.id deed] ++ [.did task.id deed']
          ++ [.ended task.id (.finished result)]⟩ := by
  rw [hp] at hs
  have hfirst : Next P ⟨.idle, m, past⟩ ⟨_, m, past⟩ := .move (.first ht hs)
  have hends := ((((Relation.ReflTransGen.single hfirst).tail (.move .limit)).tail .act).tail
    .act).tail (.move .inTime)
  rw [Limit.next, hfollow] at hends
  exact hends.tail .finish

/-- A gathering of two operations of two deeds each, one of them at a time, yields. -/
theorem Moment.yields_of_acts (w : σ) {p' : Process δ σ ν ρ κ} {last last' : δ} {r' : ρ}
    (hp : p = .act deed fun _ => .act deed' fun _ => .done r)
    (hp' : p' = .act last fun _ => .act last' fun _ => .done r')
    {ms : Nat} {result result' : ρ} {follow : ρ ⊕ ν → Process δ σ ν ρ κ} {here : ν}
    {next : Settled ρ κ → Process δ σ ν ρ κ} (main : Process δ σ ν ρ κ)
    (hmain : main = .gather 1 (fun _ => false) [.timed ms p follow, .timed ms p' follow] here next)
    (hfollow : follow (.inl r) = .done result) (hfollow' : follow (.inl r') = .done result') :
    ∃ b s, Later (· = main) ⟨.idle, .ofWorld w, []⟩ b ∧ .opened 0 1 main ∈ b.past
      ∧ .yielded 0 1 s ∈ b.past ∧ s = [(0, .finished result), (1, .finished result')]
      ∧ (b.past.all fun e => !e.disturbs) = true := by
  have hbegin : Next (· = main) ⟨.idle, .ofWorld w, []⟩ _ := .begin rfl nofun
  rw [hmain] at hbegin ⊢
  have hopens := (((Relation.ReflTransGen.single hbegin).tail
    (.move (.first (t := ⟨0, none, .fresh _⟩) rfl rfl))).tail
      (.opens (.gather rfl rfl))).tail .pause
  have hattends := (((hopens.trans
    (later_of_acts ⟨2, some (1, 0), .fresh _⟩ hp rfl rfl hfollow)).tail
      (.move (.wake (t := ⟨0, none, .waiting _⟩) rfl rfl))).tail (.attend rfl)).tail .pause
  have hyields := ((hattends.trans
    (later_of_acts ⟨3, some (1, 1), .fresh _⟩ hp' rfl rfl hfollow')).tail
      (.move (.wake (t := ⟨0, none, .waiting _⟩) rfl rfl))).tail (.yield rfl)
  refine ⟨_, _, hyields, ?_, List.mem_append_right _ List.mem_cons_self, rfl, rfl⟩
  -- eight times something has happened since the block was opened
  iterate 8 refine List.mem_append_left _ ?_
  exact List.mem_cons_self

end

/-! ## The result of an operation -/

/-- **What a block records of an operation is what its steps come to alone.** The
handler answers by the action and the variables only, and nothing is disturbed inside of
the block. Then in every session and in every order of turns, when a block has yielded
that runs all its operations, it goes on with one result for each of them, in order. The
result at a position is one that the steps of the operation come to by themselves, with
the variables that they were begun with; for a pass of a concurrent loop these have the
variables of the loop. If moreover the races in the steps are decided and no time is told
in them that may be another one at another time, as is so where there is no block at all
(`Engine.decided_execute`), it is the outcome of every run of these steps alone, in any
world with the same keywords. -/
theorem Session.recorded_alone {engine : Engine σ} (hh : engine.handler.Steady)
    {P : Task σ → Prop} (registry : Registry) (own : σ)
    {b : Moment (Deed σ) (World σ) Variables Outcome Crash}
    (hb : Moment.Later P ⟨.idle, Session.start registry own, []⟩ b)
    {u u' c : Nat} {n : Task σ} {rec : Recording σ} {s : Settled Outcome Crash}
    (ho : .opened u c n ∈ b.past) (hn : engine.Records n rec)
    (hy : .yielded u' c s ∈ b.past) (hc : Event.Calm c b.past) :
    let results := OperationResult.ofSettled rec.base s
    (∃ vars next, n.block? = some (vars, next) ∧ next s = rec.next results)
    ∧ results.map (fun r => r.index) = List.range' rec.base rec.count
    ∧ ∀ r ∈ results, ∃ steps vars, rec.alone[r.index]? = some (steps, vars)
      ∧ (∃ o, (engine.execute steps vars).Comes (World.Knows registry) o
        ∧ r.result = o.result.map Flow.value)
      ∧ ((engine.execute steps vars).Decided engine.TellsTime (World.Knows registry) →
        ∀ w (a : Moment (Deed σ) (World σ) Variables Outcome Crash) o, w.Knows registry →
          Moment.Later (· = engine.execute steps vars) ⟨.idle, .ofWorld w, []⟩ a →
          Event.Undisturbed (fun _ => True) (fun _ => True) a.past →
          .ended Machine.mainId (.finished o) ∈ a.past →
          r.result = o.result.map Flow.value) := by
  intro results
  have hW : ∀ (d : Deed σ) (w : World σ), w.Knows registry → (w.perform d).Knows registry :=
    fun d w hw => hw.perform d
  -- in a calm block the tasks come to what their processes come to
  obtain ⟨u'', n', ho', hyields⟩ := (hb.coming (fun _ => rfl) hW hc.undisturbed).2.yielded
    u' c s hy .self
  obtain ⟨-, rfl⟩ := (Moment.Later.orderly hb).booked.opened_inj _ _ _ _ _ ho' ho
  obtain ⟨limit, operations, vars, next, rfl, hnext, hcount, hops⟩ := hn.gathers
  obtain ⟨outcomes, hlen, hcomes, hend, rfl⟩ := hyields
  have hlen : outcomes.length = rec.count := by
    obtain hall | ⟨_, -, hstop⟩ := hend
    · rw [hall, hcount]
    · cases hstop
  refine ⟨⟨vars, next, rfl, hnext _⟩, ?_, fun r hr => ?_⟩
  · show (OperationResult.ofSettled _ _).map _ = _
    rw [OperationResult.ofSettled_numbered, List.map_map, ← hlen, List.range'_eq_map_range,
      List.range_eq_range', ← List.zipIdx_map_snd, List.map_map]
    rfl
  · have hr : r ∈ OperationResult.ofSettled _ _ := hr
    rw [OperationResult.ofSettled_numbered] at hr
    obtain ⟨⟨o, i⟩, hm, rfl⟩ := List.mem_map.mp hr
    have hi := List.mem_zipIdx_iff_getElem?.mp hm
    have hop := List.getElem?_eq_getElem (l := operations) (i := i) <| by
      rw [hcount, ← hlen]
      exact (List.getElem?_eq_some_iff.mp hi).1
    obtain ⟨steps, vars', halone, hsame⟩ := hops i _ hop
    obtain ⟨o', ho', he⟩ := hsame _ o (hcomes i _ o hop hi)
    refine ⟨steps, vars', halone, ⟨o', ho', he⟩, fun hd w a o'' hw ha hu hend => ?_⟩
    have hdet := Engine.determined_execute hh registry steps vars' hd
    -- the run alone has the only outcome that there is
    rw [← hdet o' o'' ho' (ha.comes_of_ended hw hW hu hend)]
    exact he

/-- A block with an operation that sets a variable and one that nobody knows how to carry out, one
at a time: it records a value and a failure, and either is what every run of the step alone comes
to. -/
theorem Session.recorded_alone_two :
    let ambient : Ambient := ⟨0, "", "", fun _ => none⟩
    let engine : Engine Unit := ⟨.default, .standard ambient, ambient⟩
    let sets := Step.mk (.assign .globals [("x", .bool true)]) none false none .null
    let fails := Step.mk (.domain "nosuch" .null []) none false none .null
    let block := (Runner.parallel engine ⟨some 1, some false, none⟩
      (engine.singles .empty [sets, fails]) .empty).andThen .done
    let alone := fun step a o => Moment.Later (· = engine.execute [step] .empty)
        ⟨.idle, Session.start ⟨[], []⟩ (), []⟩ a
      ∧ .ended Machine.mainId (.finished o) ∈ a.past
    engine.handler.Steady
    ∧ ∃ b s, Moment.Later (· = block) ⟨.idle, Session.start ⟨[], []⟩ (), []⟩ b
      ∧ .opened 0 1 block ∈ b.past ∧ .yielded 0 1 s ∈ b.past ∧ Event.Calm 1 b.past
      ∧ (∀ step ∈ [sets, fails],
        (engine.execute [step] .empty).Decided engine.TellsTime (World.Knows ⟨[], []⟩))
      ∧ (OperationResult.ofSettled 0 s).map (fun r => (r.index, r.result.isOk))
        = [(0, true), (1, false)]
      ∧ ∀ r ∈ OperationResult.ofSettled 0 s, ∃ step a o, [sets, fails][r.index]? = some step
        ∧ alone step a o ∧ r.result = o.result.map Flow.value := by
  intro ambient engine sets fails block alone
  have hsteady : engine.handler.Steady := Handler.steady_standard ambient
  obtain ⟨deed, deed', o, hsets, hvalue⟩ : ∃ deed deed' o,
      (engine.execute [sets] .empty = .act deed fun _ => .act deed' fun _ => .done o)
        ∧ o.result = .ok (.continue (.bool true)) := ⟨_, _, _, rfl, rfl⟩
  obtain ⟨last, last', o', f, hfails, hfailure⟩ : ∃ last last' o' f,
      (engine.execute [fails] .empty = .act last fun _ => .act last' fun _ => .done o')
        ∧ o'.result = .error f := ⟨_, _, _, _, rfl, rfl⟩
  obtain ⟨b, s, hb, ho, hy, hs, hcalm⟩ := Moment.yields_of_acts (World.fresh ⟨[], []⟩ ())
    hsets hfails block rfl rfl rfl
  have hc : Event.Calm 1 b.past := .of_all hcalm 1
  have hd : ∀ step ∈ [sets, fails],
      (engine.execute [step] .empty).Decided engine.TellsTime (World.Knows ⟨[], []⟩) := by
    intro step hstep
    have hs : Step.All (Action.Sequential fun _ => False) [step] := by
      obtain rfl | hstep := List.mem_cons.mp hstep
      · exact ⟨⟨rfl, trivial⟩, trivial⟩
      · rw [List.mem_singleton.mp hstep]
        exact ⟨⟨rfl, trivial⟩, trivial⟩
    exact Engine.decided_execute (fun _ _ hname => hname.elim) hs .empty
  have halone : ∀ step ∈ [sets, fails], ∃ a o, alone step a o
      ∧ Event.Undisturbed (fun _ => True) (fun _ => True) a.past := by
    intro step hstep
    obtain rfl | hstep := List.mem_cons.mp hstep
    · obtain ⟨a, ha, hended, hcalm⟩ := Moment.ends_alone (World.fresh ⟨[], []⟩ ()) hsets
      exact ⟨a, o, ⟨ha, hended⟩, .of_all hcalm⟩
    · obtain rfl := List.mem_singleton.mp hstep
      obtain ⟨a, ha, hended, hcalm⟩ := Moment.ends_alone (World.fresh ⟨[], []⟩ ()) hfails
      exact ⟨a, o', ⟨ha, hended⟩, .of_all hcalm⟩
  obtain ⟨-, -, h⟩ := Session.recorded_alone hsteady ⟨[], []⟩ () hb ho
    (.parallel ⟨some 1, some false, none⟩ [sets, fails] .empty .done rfl) hy hc
  refine ⟨hsteady, b, s, hb, ho, hy, hc, hd, ?_, fun r hr => ?_⟩
  · rw [hs]
    show [(0, ((o.result.map _).map Flow.value).isOk), (1, ((o'.result.map _).map _).isOk)] = _
    rw [hvalue, hfailure]
    rfl
  · obtain ⟨steps, vars, hsteps, -, hsame⟩ := h r hr
    rw [List.getElem?_map] at hsteps
    obtain ⟨step, hstep, hpair⟩ := Option.map_eq_some_iff.mp hsteps
    cases hpair
    have hm : step ∈ [sets, fails] := List.mem_of_getElem? hstep
    obtain ⟨a, o, ⟨ha, hended⟩, hu⟩ := halone step hm
    exact ⟨step, a, o, hstep, ⟨ha, hended⟩, hsame (hd step hm) _ a o (fun _ => rfl) ha hu hended⟩

/-! ## Where something is left open -/

/-- A handler that answers with the parameters. The action `slow` takes its time when it is
asked for first, and any other action takes half of that. -/
def Handler.warming : Handler Nat where
  supports _ := true
  handle call _ :=
    if call.name = "slow" then
      .act (· + 1) fun calls =>
        if calls = 0 then .sleep 10 (.value call.params) else .value call.params
    else .sleep 5 (.value call.params)

theorem Handler.steady_warming : warming.Steady := by
  have hanswer : ∀ call vars result, (warming.handle call vars).Answers result →
      result = .ok call.params := by
    intro call vars result h
    unfold warming at h
    dsimp only at h
    split at h
    · cases h with
      | act calls h =>
        dsimp only at h
        split at h
        · cases h with
          | sleep h =>
            cases h
            rfl
        · cases h
          rfl
    · cases h with
      | sleep h =>
        cases h
        rfl
  intro call vars result result' h h'
  rw [hanswer call vars result h, hanswer call vars result' h']

/-- A stopwatch that goes on with each look. -/
@[reducible] def Stopwatch.counting : Stopwatch Nat where
  operation looks _ := .ofNat looks
  body := Stopwatch.still.body
  turn looks := looks + 1

/-- **What is recorded of an operation need not be what every run of its steps comes to.**
The blocks do not fail fast, no time limit passes, and nothing crashes.

* A race is between an action that takes its time once and another one. The operation
  before it has asked for the former already; so that wins the race, and alone it does not.
* Two operations are blocks themselves. The times that they tell of are looked at one after
  the other, and the second one tells of another time than it does alone.
* The pass of a concurrent loop has the variable of the loop, which the variables around the
  loop do not have. -/
theorem Session.recorded_unlike_alone :
    let ambient : Ambient := ⟨0, "", "", fun _ => none⟩
    let engine : Engine Nat :=
      { settings := .default, handler := .warming, ambient := ambient, stopwatch := .counting }
    let step := fun action => Step.mk action none false none .null
    let asks := fun name text => step (.domain name (.text text) [])
    let limits : BlockSettings := ⟨none, some false, none⟩
    let alone := fun steps => (Machine.run 100 (engine.execute steps .empty)
      (Session.start ⟨[], []⟩ 0)).1.value?
    let recorded := fun block i => (alone [step block]).bind fun v =>
      v.at? [.key "results", .index i, .key "value"]
    let elapsed := fun v : Value =>
      (v.at? [.key "results", .index 0, .key "elapsedMs"]).bind Value.nat?
    let race := step (.race [asks "slow" "first", asks "other" "second"] none)
    let nested := step (.parallel [step (.assign .globals [("x", .bool true)])] limits)
    let pass := asks "other" "\x7b\x7bn\x7d\x7d"
    engine.handler.Steady
      ∧ (recorded (.parallel [asks "slow" "", race] limits) 1).map Value.display = some "first"
      ∧ (alone [race]).map Value.display = some "second"
      ∧ (recorded (.parallel [nested, nested] limits) 1).bind elapsed = some 1
      ∧ (alone [nested]).bind elapsed = some 0
      ∧ (recorded (.parallelForEach ⟨"n", none, .list [.int 10]⟩ [pass] limits) 0).map
          Value.display = some "10"
      ∧ (alone [pass]).map Value.display = some "\x7b\x7bn\x7d\x7d" := by
  refine ⟨Handler.steady_warming, ?_⟩
  decide +kernel

end Playbook
