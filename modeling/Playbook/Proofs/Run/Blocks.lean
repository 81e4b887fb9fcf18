import Playbook.Proofs.Process.Meets
import Playbook.Proofs.Run.Depth

/-!
# The blocks of a session

Whatever steps are run in a session, the blocks that are opened are those of the
constructs: the operations of `parallel`, the passes of a concurrent loop, the
operations of `race`, and the chunks of `batch`. `Engine.Block` lists them, each with
the variables that it begins with and with what follows it.

That there are no others is shown by the recursion over all constructs
(`Engine.block_of_meets`), and so of all blocks that are opened in a session, in any
order of turns (`Session.block_of_opened`).
-/

namespace Playbook

variable {σ : Type}

namespace Engine

/-- What keyword calls do in a list of steps that has given variables. -/
abbrev callsAt (engine : Engine σ) (vars : Variables) : Calls σ :=
  engine.invokeWithin (engine.callsLeft vars)

/-- What the operations of a block do. -/
abbrev singles (engine : Engine σ) (vars : Variables) (operations : List Step) :
    List (Runner σ) :=
  operations.map fun step => Step.listRunner engine (engine.callsAt vars) [step]

/-- What the passes of a concurrent loop do. -/
abbrev passes (engine : Engine σ) (vars : Variables) (iteration : Iteration)
    (items : List Value) (body : List Step) : List (Runner σ) :=
  items.zipIdx.map fun (item, index) =>
    .changing (Runner.bindPass iteration index item)
      (Step.listRunner engine (engine.callsAt vars) body)

/-- An operation of a batch with its tries. -/
abbrev trying (engine : Engine σ) (settings : BatchSettings) (r : Runner σ) : Runner σ :=
  .retrying engine.settings.parallel.timeout r 1
    (settings.retryDelay.getD engine.settings.batch.retryDelay)
    (settings.maxRetries.getD engine.settings.batch.maxRetries)

/-- What the operations of a batch do. -/
abbrev tries (engine : Engine σ) (settings : BatchSettings) (vars : Variables)
    (operations : List Step) : List (Runner σ) :=
  (engine.singles vars operations).map (engine.trying settings)

/-- A chunk of a batch. The chunks before have come out with `results`. -/
def chunk (engine : Engine σ) (settings : BatchSettings)
    (results : List (List OperationResult)) (before : List (List Step))
    (operations : List Step) (rest : List (List Step)) (vars : Variables) : Task σ :=
  .gather (engine.tries settings vars operations).length (fun _ => false)
    ((engine.tries settings vars operations).map fun r => r vars) vars fun settled =>
      Runner.chunksFrom engine (settings.delay.getD engine.settings.batch.delay)
        (OperationResult.ofSettled before.flatten.length settled :: results)
        (before.flatten.length + (engine.tries settings vars operations).length)
        (rest.map (engine.tries settings vars)) vars

/-- **The blocks of a session**, with the variables that they begin with and with what
follows them. -/
inductive Block (engine : Engine σ) : Task σ → Prop
  | parallel (settings : BlockSettings) (operations : List Step) (vars : Variables)
      (k : Outcome → Task σ) :
    Block engine
      ((Runner.parallel engine settings (engine.singles vars operations) vars).andThen k)
  | parallelForEach (settings : BlockSettings) (iteration : Iteration)
      (items : List Value) (body : List Step) (vars : Variables) (k : Outcome → Task σ) :
    Block engine ((Runner.parallel engine settings
      (engine.passes vars iteration items body) vars).andThen k)
  | race (timeout : Option Nat) (operations : List Step) (vars : Variables)
      (k : Outcome → Task σ) :
    Block engine
      ((Runner.race engine timeout (engine.singles vars operations) vars).andThen k)
  | batch (settings : BatchSettings) (results : List (List OperationResult))
      (before : List (List Step)) (operations : List Step) (rest : List (List Step))
      (vars : Variables) (k : Outcome → Task σ)
      (all : List Step) (h : Runner.chunks (settings.size.getD engine.settings.batch.size) all
        = before ++ operations :: rest) :
    Block engine ((engine.chunk settings results before operations rest vars).andThen k)

/-- What follows a block may be followed by more. -/
theorem Block.andThen {engine : Engine σ} {n : Task σ} (h : engine.Block n)
    (k : Outcome → Task σ) : engine.Block (n.andThen k) := by
  cases h with
  | parallel settings operations vars k' =>
    rw [Process.andThen_assoc]
    exact .parallel settings operations vars _
  | parallelForEach settings iteration items body vars k' =>
    rw [Process.andThen_assoc]
    exact .parallelForEach settings iteration items body vars _
  | race timeout operations vars k' =>
    rw [Process.andThen_assoc]
    exact .race timeout operations vars _
  | batch settings results before operations rest vars k' all h =>
    rw [Process.andThen_assoc]
    exact .batch settings results before operations rest vars _ all h

end Engine

/-! ## The operations of a block of steps -/

theorem Step.singles_eq {engine : Engine σ} {call : Calls σ} (operations : List Step) :
    Step.singles engine call operations
      = operations.map fun step => Step.listRunner engine call [step] := by
  induction operations with
  | nil => rfl
  | cons step rest ih =>
    show Step.listRunner engine call [step] :: Step.singles engine call rest = _
    rw [ih]
    rfl

/-- Chunks of mapped items are mapped chunks. -/
theorem Runner.chunks_map {α β : Type} (f : α → β) (size : Nat) (items : List α) :
    chunks size (items.map f) = (chunks size items).map (List.map f) := by
  induction items using chunks.induct size with
  | case1 =>
    unfold chunks
    rfl
  | case2 items hne ih =>
    have hmap : items.map f ≠ [] := fun h => hne (List.map_eq_nil_iff.mp h)
    rw [chunks, dif_neg hmap, chunks.eq_def size items, dif_neg hne, List.map_cons,
      List.map_take, ← List.map_drop, ih]

/-- Chunks put together again are the items. -/
theorem Runner.flatten_chunks {α : Type} (size : Nat) (items : List α) :
    (chunks size items).flatten = items := by
  induction items using chunks.induct size with
  | case1 =>
    unfold chunks
    rfl
  | case2 items hne ih =>
    rw [chunks, dif_neg hne, List.flatten_cons, ih, List.take_append_drop]

theorem Engine.chunks_tries (engine : Engine σ) (settings : BatchSettings)
    (vars : Variables) (size : Nat) (operations : List Step) :
    Runner.chunks size (engine.tries settings vars operations)
      = (Runner.chunks size operations).map (engine.tries settings vars) := by
  rw [tries, singles, Runner.chunks_map, Runner.chunks_map, List.map_map]
  rfl

/-! ## The ends of blocks -/

/-- Whether a deed is a look at the stopwatch of which a value can tell. -/
def Deed.isLook : Deed σ → Bool
  | look _ => true
  | _ => false

/-- Summing results up opens no blocks. -/
theorem Runner.not_meets_summarize (engine : Engine σ) (results : List OperationResult)
    (vars : Variables) {n : Task σ} : ¬ (summarize engine results vars).Meets n := by
  intro h
  cases h with
  | acted w h => exact Process.meets_done h

theorem Runner.not_meets_conclude (engine : Engine σ) (failFast : Bool)
    (results : List OperationResult) (vars : Variables) {n : Task σ} :
    ¬ (conclude engine failFast results vars).Meets n := by
  unfold conclude
  generalize (if failFast then OperationResult.firstFailure? results else none) = failure
  cases failure with
  | some f => exact Process.meets_done
  | none => exact not_meets_summarize engine results vars

/-- A race ends with the variables that it began with. -/
theorem Runner.race_eq (engine : Engine σ) (timeout : Option Nat) (rs : List (Runner σ))
    (vars : Variables) :
    ∃ next, race engine timeout rs vars = .race (fun o => !o.failed)
        ((rs.map (operation (timeout.getD engine.settings.raceTimeout))).map fun r => r vars)
        vars next
      ∧ ∀ s, ∃ o : Outcome, o.vars = vars ∧ next s = .done o := by
  rw [List.map_map]
  refine ⟨_, rfl, fun s => ?_⟩
  split
  · exact ⟨_, rfl, rfl⟩
  · exact ⟨_, rfl, rfl⟩

/-- A handler opens no blocks. -/
theorem Handling.not_meets_task {vars : Variables} (handling : Handling σ) {n : Task σ} :
    ¬ (handling.task vars).Meets n := by
  induction handling with
  | answer result =>
    cases result with
    | ok v => exact Process.meets_done
    | error e => exact Process.meets_done
  | crash c => exact Process.meets_crash
  | act update next ih =>
    intro h
    cases h with
    | acted w h => exact ih w.own h
  | sleep ms next ih =>
    intro h
    cases h with
    | slept h => exact ih h

/-! ## Tasks with no other blocks -/

/-- **A task that stays on its level and comes to no blocks but those of the
constructs.** -/
def Engine.Regular (engine : Engine σ) (limit n : Nat) (p : Task σ) : Prop :=
  Stays limit n p ∧ ∀ m, p.Meets m → engine.Block m

namespace Engine.Regular

variable {engine : Engine σ} {limit n : Nat}

/-- **The rules for regular tasks** that do one thing after another. -/
theorem sequential (engine : Engine σ) (limit n : Nat) :
    Sequential (σ := σ) (fun vars => vars.depth = n) fun _ => engine.Regular limit n where
  bound := (rules_stays (σ := σ) limit n).bound
  bind _ _ _ hp := hp
  done o ho := ⟨(rules_stays limit n).done o ho, nofun⟩
  crash := ⟨Process.obeys_crash, nofun⟩
  andThen {vars p k} hp hk := by
    refine ⟨Stays.andThen hp.1 fun o ho => (hk o ho).1, fun m hm => ?_⟩
    obtain ⟨m', hm', rfl | rfl⟩ | ⟨t, o, ho, hm⟩ := Process.meets_andThen hm
    · exact hp.2 m hm'
    · exact (hp.2 m' hm').andThen k
    · exact (hk o (hp.1.places t _ ho)).2 m hm
  sleep hv hp := by
    refine ⟨(rules_stays limit n).sleep hv hp.1, fun m hm => ?_⟩
    cases hm with
    | slept hm => exact hp.2 m hm

theorem doing {deed : Deed σ} (hd : deed.Within limit) {p : Task σ}
    (hp : engine.Regular limit n p) : engine.Regular limit n (.doing deed p) := by
  refine ⟨Process.obeys_act.mpr ⟨hd, fun _ => hp.1⟩, fun m hm => ?_⟩
  cases hm with
  | acted _ hm => exact hp.2 m hm

/-- An operation comes to the blocks of its runner. -/
theorem operation {r : Runner σ} (timeout : Nat)
    (hr : Holds (fun vars => vars.depth = n) (fun _ => engine.Regular limit n) r) :
    Holds (fun vars => vars.depth = n) (fun _ => engine.Regular limit n)
      (.operation timeout r) := by
  refine fun vars hv => ⟨Level.operation timeout (fun vars hv => (hr vars hv).1) vars hv,
    fun m hm => ?_⟩
  cases hm with
  | body hm => exact (hr vars hv).2 m hm
  | timed _ hm => exact (Process.meets_done hm).elim

/-! ### Blocks -/

/-- The blocks of a gathering: itself, and those of its operations. -/
theorem of_meets_gathering {limit' : Nat} {failFast : Bool} {rs : List (Runner σ)}
    {vars : Variables} {m : Task σ}
    (hm : (Runner.gathering engine limit' failFast rs vars).Meets m) :
    m = Runner.gathering engine limit' failFast rs vars ∨ ∃ r ∈ rs, (r vars).Meets m := by
  cases hm with
  | gather => exact .inl rfl
  | operation hop hm =>
    obtain ⟨r, hr, rfl⟩ := List.mem_map.mp hop
    exact .inr ⟨r, hr, hm⟩
  | gathered s hm => exact (Runner.not_meets_conclude engine failFast _ vars hm).elim

/-- A block of operations, if it is among the blocks of the constructs. -/
theorem parallel (settings : BlockSettings) {rs : List (Runner σ)}
    (hr : ∀ r ∈ rs, Holds (fun vars => vars.depth = n) (fun _ => engine.Regular limit n) r)
    (hb : ∀ vars : Variables, vars.depth = n →
      engine.Block (Runner.parallel engine settings rs vars)) :
    Holds (fun vars => vars.depth = n) (fun _ => engine.Regular limit n)
      (.parallel engine settings rs) := by
  refine fun vars hv => ⟨(rules_stays limit n).parallel settings
    (fun r hm vars hv => (hr r hm vars hv).1) vars hv, fun m hm => ?_⟩
  obtain rfl | ⟨r, hr', hm⟩ := of_meets_gathering hm
  · exact hb vars hv
  · obtain ⟨s, hs, rfl⟩ := List.mem_map.mp hr'
    exact (operation _ (hr s hs) vars hv).2 m hm

/-- The chunks of a batch from one on. -/
theorem meets_chunksFrom (settings : BatchSettings) {all : List Step} {vars : Variables}
    (hr : ∀ r ∈ engine.singles vars all,
      Holds (fun vars => vars.depth = n) (fun _ => engine.Regular limit n) r)
    (hv : vars.depth = n) (results : List (List OperationResult))
    (before chunks : List (List Step))
    (h : Runner.chunks (settings.size.getD engine.settings.batch.size) all = before ++ chunks)
    {m : Task σ}
    (hm : (Runner.chunksFrom engine (settings.delay.getD engine.settings.batch.delay) results
      before.flatten.length (chunks.map (engine.tries settings vars)) vars).Meets m) :
    engine.Block m := by
  induction chunks generalizing before results with
  | nil => exact (Runner.not_meets_summarize engine _ vars hm).elim
  | cons operations rest ih =>
    have hbody : (engine.chunk settings results before operations rest vars).Meets m →
        engine.Block m := by
      clear hm
      intro hm
      cases hm with
      | gather =>
        have hb := Block.batch settings results before operations rest vars .done all h
        rwa [Process.andThen_done] at hb
      | operation hop hm =>
        obtain ⟨_, hm', rfl⟩ := List.mem_map.mp hop
        obtain ⟨r, hr', rfl⟩ := List.mem_map.mp hm'
        refine ((sequential engine limit n).retrying (operation _ (hr r ?_)) _ _ _ vars hv).2 m hm
        -- the chunk is a part of the batch
        obtain ⟨step, hs, rfl⟩ := List.mem_map.mp hr'
        have hc : operations ∈ Runner.chunks
            (settings.size.getD engine.settings.batch.size) all := by
          rw [h]
          exact List.mem_append_right before List.mem_cons_self
        exact List.mem_map_of_mem (Runner.chunk_subset hc hs)
      | gathered s hm =>
        refine ih (OperationResult.ofSettled before.flatten.length s :: results)
          (before ++ [operations]) ?_ ?_
        · rw [h, List.append_assoc]
          rfl
        · have hlen : (before ++ [operations]).flatten.length
              = before.flatten.length + (engine.tries settings vars operations).length := by
            rw [List.flatten_append, List.length_append, List.flatten_singleton,
              List.length_map, List.length_map]
          rw [hlen]
          exact hm
    rw [List.map_cons] at hm
    unfold Runner.chunksFrom at hm
    dsimp only at hm
    split at hm
    · exact hbody hm
    · cases hm with
      | slept hm => exact hbody hm

/-- **What remains of the constructs**: their blocks are those that they are to have. -/
theorem remaining {left : Nat} (hleft : left = engine.settings.maxKeywordDepth - n) :
    Remaining engine (engine.invokeWithin left) (fun vars => vars.depth = n)
      (fun _ => engine.Regular limit n) Action.Any := by
  have hcall : ∀ vars : Variables, vars.depth = n →
      engine.invokeWithin left = engine.callsAt vars := by
    rintro vars rfl
    rw [hleft]
    rfl
  have hseq := sequential engine limit n
  refine ⟨fun operations settings _ hr => hseq.countable settings <|
      parallel settings hr fun vars hv => ?_,
    fun operations timeout _ hr vars hv => ⟨(rules_stays limit n).race timeout
      (fun r hm vars hv => (hr r hm vars hv).1) vars hv, fun m hm => ?_⟩,
    fun operations settings _ hr vars hv => ⟨(rules_stays limit n).batch settings
      (fun r hm vars hv => (hr r hm vars hv).1) vars hv, fun m hm => ?_⟩,
    fun iteration body settings _ hb => hseq.countable settings <|
      hseq.compute fun items => parallel settings (fun r hr => ?_) fun vars hv => ?_,
    fun keys name params options vars hv => ⟨(rules_stays limit n).perform keys name params
      options vars hv, fun m hm => ?_⟩⟩
  · rw [hcall vars hv, Step.singles_eq, ← Process.andThen_done (Runner.parallel _ _ _ _)]
    exact .parallel settings operations vars .done
  · obtain ⟨next, he, hnext⟩ := Runner.race_eq engine timeout
      (Step.singles engine (engine.invokeWithin left) operations) vars
    have hb : engine.Block (Runner.race engine timeout
        (Step.singles engine (engine.invokeWithin left) operations) vars) := by
      rw [hcall vars hv, Step.singles_eq, ← Process.andThen_done (Runner.race _ _ _ _)]
      exact .race timeout operations vars .done
    rw [he] at hm hb
    cases hm with
    | race => exact hb
    | competitor hop hm =>
      obtain ⟨_, hop', rfl⟩ := List.mem_map.mp hop
      obtain ⟨r, hr', rfl⟩ := List.mem_map.mp hop'
      exact (operation _ (hr r hr') vars hv).2 m hm
    | raced s hm =>
      obtain ⟨o, -, ho⟩ := hnext s
      rw [ho] at hm
      exact (Process.meets_done hm).elim
  · rw [hcall vars hv, Step.singles_eq] at hr hm
    refine meets_chunksFrom settings hr hv [] [] _ rfl ?_
    rw [← engine.chunks_tries settings vars]
    exact hm
  · obtain ⟨⟨item, index⟩, -, rfl⟩ := List.mem_map.mp hr
    exact hseq.bindPass iteration index item hb
  · rw [hcall vars hv, ← Process.andThen_done (Runner.parallel _ _ _ _)]
    exact .parallelForEach settings iteration items body vars .done
  · unfold Runner.perform at hm
    split at hm
    · unfold Runner.compute at hm
      split at hm
      · exact (Handling.not_meets_task _ hm).elim
      · exact (Process.meets_done hm).elim
      · exact (Process.meets_crash hm).elim
    · exact (Process.meets_done hm).elim

/-! ### Assignments, steps and calls -/

theorem assignGlobals (values : List (String × Value)) (last : Value) :
    Holds (fun vars => vars.depth = n) (fun _ => engine.Regular limit n)
      (.assignFrom engine .globals last values) := by
  induction values generalizing last with
  | nil => exact (sequential engine limit n).yield last
  | cons field rest ih =>
    exact (sequential engine limit n).compute fun v vars hv => ih v _ hv

theorem observed (hn : n ≤ limit) (step : Step) (index : Nat) {r : Runner σ}
    (hr : Holds (fun vars => vars.depth = n) (fun _ => engine.Regular limit n) r) :
    Holds (fun vars => vars.depth = n) (fun _ => engine.Regular limit n)
      (.observed engine step index r) := by
  refine fun vars hv => ⟨Level.observed hn step index (fun vars hv => (hr vars hv).1) vars hv,
    fun m hm => ?_⟩
  cases hm with
  | acted w hm =>
    obtain ⟨m', hm', rfl | rfl⟩ | ⟨t, o, -, hm⟩ := Process.meets_andThen hm
    · exact (hr vars hv).2 m hm'
    · exact ((hr vars hv).2 m' hm').andThen _
    · cases hm with
      | acted w hm =>
        split at hm
        · exact (Process.meets_done hm).elim
        · exact (Process.meets_done hm).elim

theorem calling {keyword : Keyword} {name : String} {args : List Value} {steps : Runner σ}
    (hs : Holds (fun vars => vars.depth = n + 1)
      (fun _ => engine.Regular limit (n + 1)) steps) :
    Holds (fun vars => vars.depth = n) (fun _ => engine.Regular limit n)
      (.calling engine keyword name args steps) := by
  refine fun vars hv => ⟨Level.calling (fun vars hv => (hs vars hv).1) vars hv, fun m hm => ?_⟩
  have hin : (vars.enter (keyword.bindArguments args)).depth = n + 1 := by
    rw [Variables.depth_enter, hv]
  obtain ⟨m', hm', rfl | rfl⟩ | ⟨t, o, -, hm⟩ := Process.meets_andThen hm
  · exact (hs _ hin).2 m hm'
  · exact ((hs _ hin).2 m' hm').andThen _
  · unfold Runner.returning at hm
    split at hm
    · exact (Process.meets_done hm).elim
    · exact (Process.meets_done hm).elim
    · unfold Runner.compute at hm
      split at hm
      · exact (Process.meets_done hm).elim
      · exact (Process.meets_done hm).elim
      · exact (Process.meets_crash hm).elim

/-- **Every construct is regular**, if keyword calls are. -/
theorem constructs {left : Nat} (hn : n ≤ limit)
    (hleft : left = engine.settings.maxKeywordDepth - n)
    (hc : ∀ name args, Holds (fun vars => vars.depth = n)
      (fun _ => engine.Regular limit n) (engine.invokeWithin left name args)) :
    Constructs engine (engine.invokeWithin left)
      (fun _ => Holds (fun vars => vars.depth = n) fun _ => engine.Regular limit n)
      (Holds (fun vars => vars.depth = n) fun _ => engine.Regular limit n) Action.Any :=
  (sequential engine limit n).constructs
    ⟨fun hp => doing (by trivial) hp, fun hp => doing (by trivial) hp⟩ (remaining hleft)
    (fun name _ _ => hc name) (fun _ _ _ hr => hr) (fun values => assignGlobals values .null)
    fun step index _ _ hr => observed hn step index hr

/-- **Calls are regular** if as many further ones may be nested as fit below the
limit. -/
theorem invokeWithin {left : Nat} (h : n + left ≤ limit)
    (hleft : left = engine.settings.maxKeywordDepth - n) (name : String)
    (args : List Value) :
    Holds (fun vars => vars.depth = n) (fun _ => engine.Regular limit n)
      (engine.invokeWithin left name args) := by
  induction left generalizing n name args with
  | zero =>
    refine fun vars hv => ⟨level_invokeWithin h name args vars hv, fun m hm => ?_⟩
    unfold Engine.invokeWithin at hm
    cases hm with
    | acted w hm =>
      dsimp only at hm
      split at hm
      · exact (Process.meets_done hm).elim
      · exact (Process.meets_done hm).elim
  | succ left ih =>
    refine fun vars hv => ⟨level_invokeWithin h name args vars hv, fun m hm => ?_⟩
    have hup : n + 1 + left ≤ limit := by omega
    have hleft' : left = engine.settings.maxKeywordDepth - (n + 1) := by omega
    unfold Engine.invokeWithin at hm
    cases hm with
    | acted w hm =>
      dsimp only at hm
      split at hm
      · exact (Process.meets_done hm).elim
      · exact (calling ((constructs (by omega) hleft' (ih hup hleft')).listRunner _) vars hv).2
          m hm

end Engine.Regular

/-- **A list of steps comes to no blocks but those of the constructs.** -/
theorem Engine.block_of_meets (engine : Engine σ) (steps : List Step) (vars : Variables)
    {m : Task σ} (hm : (engine.execute steps vars).Meets m) : engine.Block m := by
  have h : vars.depth + engine.callsLeft vars ≤ vars.depth + engine.callsLeft vars :=
    Nat.le_refl _
  exact ((Regular.constructs (Nat.le_add_right _ _) rfl
    (Regular.invokeWithin h rfl)).listRunner steps vars rfl).2 m hm

/-- The processes of a session: lists of steps with variables to begin with. -/
abbrev Engine.Lists (engine : Engine σ) (p : Task σ) : Prop :=
  ∃ steps vars, p = engine.execute steps vars

/-- **The blocks that are opened in a session are those of the constructs**, at all
moments and in any order of turns. -/
theorem Session.block_of_opened {engine : Engine σ} {registry : Registry} {own : σ}
    {b : Moment (Deed σ) (World σ) Variables Outcome Crash}
    (h : Moment.Later engine.Lists ⟨.idle, Session.start registry own, []⟩ b)
    {u c : Nat} {n : Task σ} (ho : .opened u c n ∈ b.past) : engine.Block n := by
  obtain ⟨p, ⟨steps, vars, rfl⟩, hm⟩ := Moment.Later.meets h u c n ho
  exact engine.block_of_meets steps vars hm

end Playbook
