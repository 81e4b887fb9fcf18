import Playbook.Proofs.Process.Meets
import Playbook.Proofs.Process.Settled
import Playbook.Proofs.Process.Wake
import Playbook.Proofs.Run.Concurrency
import Playbook.Proofs.Run.Results

/-!
# What a block makes of its operations

A block of operations ends with a summary of them, or with a failure if it fails fast.
Between an operation and the summary there is the task that runs it, the books of the
block, and the order in which tasks settle; an operation may crash, and a block that
fails fast may leave some unstarted. `Session.aggregation` says that nothing is lost on
the way: there is one result for each operation that was started, at its place, and it
tells how the task of that operation has ended (`Event.Reported`). What the block makes
of these results is `Outcome.Aggregates`.

A block ends only if its task comes to look after it. So it belongs to this that the
task is not forgotten, and that it goes on waiting only while operations are running.

A block whose limit is too great to be counted makes nothing of its operations
(`Session.no_summary_of_limit_too_great`).
-/

namespace Playbook

variable {σ : Type}

/-! ## What a block ends with -/

/-- **What becomes of the results of a block of `n` operations.** Without failing fast
they are summed up, and there are `n`. With it they are summed up if and only if there
are `n` and all of them are good; otherwise the block fails, with the failure of the
operation that comes first among those that have failed. -/
structure Engine.Aggregates (engine : Engine σ) (failFast : Bool) (n : Nat)
    (vars : Variables) (rs : List OperationResult) (p : Task σ) : Prop where
  collected : failFast = false → rs.length = n ∧ p = Runner.tallying engine rs vars
  succeeded : failFast = true →
    (p = Runner.tallying engine rs vars
      ↔ rs.length = n ∧ ∀ r ∈ rs, r.result.isOk = true)
  failed : failFast = true → ¬ (rs.length = n ∧ ∀ r ∈ rs, r.result.isOk = true) →
    ∃ r ∈ rs, ∃ f, r.result = .error f
      ∧ (∀ r' ∈ rs, r'.index < r.index → r'.result.isOk = true)
      ∧ p = .done (.fail (.inOperation r.index f) vars)

/-- **A block makes of its results what it is to make of them**, if they are in order and
all of them are there, or a failure that has stopped the block. -/
theorem Runner.conclude_aggregates (engine : Engine σ) (failFast : Bool) {n : Nat}
    {rs : List OperationResult} (hpos : rs.map OperationResult.index = List.range rs.length)
    (hall : rs.length = n ∨ failFast = true ∧ ∃ r ∈ rs, r.result.isOk = false)
    (vars : Variables) :
    engine.Aggregates failFast n vars rs (conclude engine failFast rs vars) := by
  have hsummary : summarize engine rs vars = tallying engine rs vars := by
    rw [summarize_eq_tallying]
  unfold conclude
  cases failFast with
  | false =>
    refine ⟨fun _ => ⟨?_, hsummary⟩, nofun, nofun⟩
    exact hall.resolve_right fun h => Bool.false_ne_true h.1
  | true =>
    cases hfirst : OperationResult.firstFailure? rs with
    | none =>
      have hgood := OperationResult.firstFailure?_eq_none.mp hfirst
      have hn : rs.length = n := hall.resolve_right fun ⟨_, r, hm, hbad⟩ =>
        Bool.false_ne_true (hbad.symm.trans (hgood r hm))
      exact ⟨nofun, fun _ => iff_of_true hsummary ⟨hn, hgood⟩,
        fun _ hne => absurd ⟨hn, hgood⟩ hne⟩
    | some failure =>
      obtain ⟨i, f⟩ := failure
      have hs : (rs.map OperationResult.index).Pairwise (· < ·) := by
        rw [hpos]
        exact List.pairwise_lt_range
      obtain ⟨r, hm, rfl, hf, hleast⟩ := OperationResult.least_of_firstFailure? hs hfirst
      have hbad : ¬ (rs.length = n ∧ ∀ r ∈ rs, r.result.isOk = true) := fun h => by
        have hok := h.2 r hm
        rw [hf] at hok
        cases hok
      exact ⟨nofun, fun _ => iff_of_false nofun hbad,
        fun _ _ => ⟨r, hm, f, hf, hleast, rfl⟩⟩

/-- The same for settlements: what stops a block that fails fast is a failure. -/
theorem Runner.conclude_ofSettled (engine : Engine σ) (failFast : Bool) {n : Nat}
    {settled : Settled Outcome Crash}
    (hpos : settled.map Prod.fst = List.range settled.length)
    (hall : settled.length = n
      ∨ ∃ e ∈ settled, ∃ x, e.2 = .finished x ∧ (failFast && x.failed) = true)
    (vars : Variables) :
    engine.Aggregates failFast n vars (OperationResult.ofSettled 0 settled)
      (conclude engine failFast (OperationResult.ofSettled 0 settled) vars) := by
  have hlen : (OperationResult.ofSettled 0 settled).length = settled.length := List.length_map _
  refine conclude_aggregates engine failFast ?_ (hall.imp hlen.trans ?_) vars
  · rw [OperationResult.map_index_ofSettled hpos, hlen, List.range_eq_range']
  · rintro ⟨e, he, x, hx, hstop⟩
    obtain ⟨hfast, hfailed⟩ := Bool.and_eq_true_iff.mp hstop
    refine ⟨hfast, _, OperationResult.mem_ofSettled.mpr ⟨e, he, rfl⟩, ?_⟩
    rw [hx, OperationResult.isOk_ofSettlement, hfailed]
    rfl

/-! ## What results report -/

/-- **A result reports an operation of a block**: the operation at its position was
started as a task, and the task has ended so and not otherwise. -/
def OperationResult.Reports (r : OperationResult)
    (past : List (Event (Deed σ) (World σ) Variables Outcome Crash)) (block : Nat)
    (operations : List (Task σ)) : Prop :=
  ∃ t p s, operations[r.index]? = some p ∧ .started block r.index t p ∈ past
    ∧ (∀ s', .ended t s' ∈ past ↔ s' = s) ∧ r = .ofSettlement r.index s

/-- **Results report a block**: one for each operation that was started, in order. -/
structure Event.Reported (past : List (Event (Deed σ) (World σ) Variables Outcome Crash))
    (block : Nat) (operations : List (Task σ)) (rs : List OperationResult) : Prop where
  positions : rs.map OperationResult.index = List.range rs.length
  begun : Event.begun block past = List.range rs.length
  each : ∀ r ∈ rs, r.Reports past block operations

namespace Moment

variable {P : Task σ → Prop} {registry : Registry} {own : σ}
  {a b : Moment (Deed σ) (World σ) Variables Outcome Crash}

/-- **What a gathering has yielded reports it.** -/
theorem Later.reported (h : Later P ⟨.idle, Session.start registry own, []⟩ b)
    {u c limit : Nat} {stops : Outcome → Bool} {operations : List (Task σ)}
    {here : Variables} {next : Settled Outcome Crash → Task σ}
    (ho : .opened u c (.gather limit stops operations here next) ∈ b.past) {u' : Nat}
    {s : Settled Outcome Crash} (hy : .yielded u' c s ∈ b.past) :
    Event.Reported b.past c operations (OperationResult.ofSettled 0 s) := by
  have hord := Later.orderly h
  have hheard := Later.heard h
  obtain ⟨hpos, hbegun, -⟩ := hord.closed.gathered hord.booked ho hy
  have hlen : (OperationResult.ofSettled 0 s).length = s.length := List.length_map _
  refine ⟨?_, hlen ▸ hbegun, fun r hr => ?_⟩
  · rw [OperationResult.map_index_ofSettled hpos, hlen, List.range_eq_range']
  · obtain ⟨e, he, rfl⟩ := OperationResult.mem_ofSettled.mp hr
    obtain ⟨t, p, hs, hend⟩ := hheard.yielded u' c s hy e he
    obtain ⟨u'', n, ho', hop⟩ := hord.booked.started_opened c e.1 t p hs
    obtain ⟨-, rfl⟩ := hord.booked.opened_inj _ _ _ _ _ ho' ho
    refine ⟨t, p, e.2, ?_, ?_, fun s' => ⟨fun h' => ?_, fun h' => h' ▸ hend⟩, ?_⟩
    · rwa [OperationResult.index_ofSettlement, Nat.zero_add]
    · rwa [OperationResult.index_ofSettlement, Nat.zero_add]
    · exact hheard.once t s' e.2 h' hend (hord.numbered.ne_main hs)
    · rw [OperationResult.index_ofSettlement]

end Moment

/-! ## Blocks of operations -/

/-- A loop with concurrent passes is a block with one operation for each pass. -/
theorem Action.runner_parallelForEach (engine : Engine σ) (settings : BlockSettings)
    (call : Calls σ) (keys : List String) (iteration : Iteration) (body : List Step)
    (vars : Variables) {items : List Value}
    (hi : Runner.elements engine iteration.source vars = .ok items) :
    Action.runner engine call keys (.parallelForEach iteration body settings) vars
      = Runner.countable engine settings (Runner.parallel engine settings
          (items.zipIdx.map fun (item, index) =>
            .changing (Runner.bindPass iteration index item)
              (Step.listRunner engine call body))) vars := by
  show Runner.compute (Runner.elements engine iteration.source) _ vars = _
  unfold Runner.compute
  rw [hi]
  dsimp only
  rw [Runner.countable_eq, Runner.countable_eq]
  unfold Runner.parallelForEach Runner.compute
  rw [hi]
  rfl

/-- **A block loses nothing of its operations.** A block of operations, a loop with
concurrent passes included, begins as a gathering if its limit can be counted. At every
moment of every session and in every order of turns:

* a task that comes to a block opens it, or goes on at once with what aggregates no
  results if there are no operations;
* a block that has been opened is waited for, or has yielded, or its task was cut off;
* a task that is woken for its block goes on waiting only while operations of it are
  running. Otherwise it goes on with what aggregates the results of the block, and these
  report the operations that were started, each once and in order: how the task of the
  operation has ended, with a value, an error, at its time limit or with a crash.

And in every run of a session, whoever waits for a block can run when none of its
operations is running. -/
theorem Session.aggregation (engine : Engine σ) (settings : BlockSettings) :
    let limit := settings.maxConcurrency.getD engine.settings.parallel.maxConcurrency
    let failFast := settings.failFast.getD engine.settings.parallel.failFast
    let timeout := settings.timeout.getD engine.settings.parallel.timeout
    (∀ call keys operations vars,
      Action.runner engine call keys (.parallel operations settings) vars
        = if limit ≤ Runner.mostAtOnce then
            Runner.parallel engine settings (Step.singles engine call operations) vars
          else .crash .tooManyAtOnce)
    ∧ (∀ call keys iteration body vars items,
      Runner.elements engine iteration.source vars = .ok items →
      Action.runner engine call keys (.parallelForEach iteration body settings) vars
        = if limit ≤ Runner.mostAtOnce then
            Runner.parallel engine settings (items.zipIdx.map fun (item, index) =>
              .changing (Runner.bindPass iteration index item)
                (Step.listRunner engine call body)) vars
          else .crash .tooManyAtOnce)
    ∧ (∀ P registry own (b : Moment (Deed σ) (World σ) Variables Outcome Crash),
      Moment.Later P ⟨.idle, Session.start registry own, []⟩ b → ∀ runners vars k,
      let block := (Runner.parallel engine settings runners vars).andThen k
      let operations := runners.map fun r => Runner.operation timeout r vars
      (∀ task limits b', b.stage = .going task block limits → Moment.Next P b b' →
        (∃ c next, b'.stage = .waiting task (.blocked c vars next) limits
          ∧ .opened task.id c block ∈ b'.past)
        ∨ runners = [] ∧ ∃ p, b'.stage = .going task (p.andThen k) limits
          ∧ engine.Aggregates failFast 0 vars [] p)
      ∧ ∀ u c, .opened u c block ∈ b.past →
        b.Fate u c
        ∧ ∀ task here next limits b', b.stage = .woken task (.blocked c here next) limits →
          Moment.Next P b b' →
          (b'.stage = .waiting task (.blocked c here next) limits ∧ 0 < b'.machine.count c)
          ∨ ∃ rs p, b'.stage = .going task (p.andThen k) limits
            ∧ Event.Reported b'.past c operations rs
            ∧ engine.Aggregates failFast runners.length vars rs p)
    ∧ ∀ registry own (session : Session σ), session.Played (World.fresh registry own) →
      ∀ t ∈ session.tasks, ∀ w, t.state.waiting? = some w → ∀ c ∈ w.blocks,
        session.count c = 0 → session.CanRun t.id := by
  intro limit failFast timeout
  refine ⟨fun call keys operations vars => Runner.countable_eq engine settings _ vars,
    fun call keys iteration body vars items hi => ?_,
    fun P registry own b hl runners vars k => ?_,
    fun registry own session hp t ht w hw c hc hcount => hp.canRun ht hw hc hcount⟩
  · rw [Action.runner_parallelForEach engine settings call keys iteration body vars hi,
      Runner.countable_eq]
  · intro block operations
    have hblock : block = .gather limit (fun o => failFast && o.failed) operations vars
        fun s =>
          (Runner.conclude engine failFast (OperationResult.ofSettled 0 s) vars).andThen k := by
      show (Runner.parallel engine settings runners vars).andThen k = _
      rw [Runner.parallel_andThen, List.map_map]
      rfl
    have hlen : operations.length = runners.length := List.length_map _
    refine ⟨fun task limits b' hs hn => ?_, fun u c ho =>
      ⟨(Moment.Later.fated hl).fate u c block ho, fun task here next limits b' hs hn => ?_⟩⟩
    · rw [hblock] at hs ⊢
      obtain ⟨hs', start, hpast⟩ | ⟨hnone, hs'⟩ := hn.comes hs rfl
      · exact .inl ⟨_, _, hs', hpast ▸ List.mem_append_right _ List.mem_cons_self⟩
      · have hagg := @Runner.conclude_ofSettled σ engine failFast 0 [] rfl (.inl rfl) vars
        exact .inr ⟨List.map_eq_nil_iff.mp hnone, _, hs', hagg⟩
    · obtain hwait | ⟨s, hs', hy⟩ := hl.look hs hn
      · exact .inl hwait
      · -- what the task waits to go on with is what follows the block
        obtain ⟨-, hnext⟩ := hl.block?_of_woken hs ho
        rw [hblock] at ho hnext
        cases hnext
        have hl' : Moment.Later P ⟨.idle, Session.start registry own, []⟩ b' := hl.tail hn
        obtain ⟨es, hpast⟩ := hn.past
        have ho' : .opened u c _ ∈ b'.past := hpast ▸ List.mem_append_left es ho
        have hord := Moment.Later.orderly hl'
        obtain ⟨hpos, -, hall⟩ := hord.closed.gathered hord.booked ho' hy
        have hagg := Runner.conclude_ofSettled engine failFast hpos hall vars
        exact .inr ⟨_, _, hs', hl'.reported ho' hy, hlen ▸ hagg⟩

/-- Three operations, two of them at once and the second one a failure, in a block that does not
fail fast: its task goes on with the tally of three results; and after three turns of such a block
the main task can run, as nothing it waits for is running. -/
theorem Session.aggregation_of_three :
    let ambient : Ambient := ⟨0, "", "", fun _ => none⟩
    let engine : Engine Unit := ⟨.default, .standard ambient, ambient⟩
    let settings : BlockSettings := ⟨some 2, some false, none⟩
    let runners : List (Runner Unit) :=
      [.yield (.text "a"), .fail (.expression .divisionByZero), .yield (.text "c")]
    let block := (Runner.parallel engine settings runners .empty).andThen .done
    let session := (Machine.run 3 block (Session.start ⟨[], []⟩ ())).2
    (∃ b b' task rs, Moment.Later (· = block) ⟨.idle, Session.start ⟨[], []⟩ (), []⟩ b
      ∧ Moment.Next (· = block) b b' ∧ .opened 0 1 block ∈ b.past
      ∧ b'.stage = .going task ((Runner.tallying engine rs .empty).andThen .done) []
      ∧ rs.map OperationResult.index = [0, 1, 2])
    ∧ ∃ t ∈ session.tasks, ∃ w, t.state.waiting? = some w ∧ 1 ∈ w.blocks
      ∧ session.count 1 = 0 ∧ session.CanRun t.id := by
  intro ambient engine settings runners block session
  obtain ⟨-, -, hblock, hwaits⟩ := Session.aggregation engine settings
  refine ⟨?_, ?_⟩
  · obtain ⟨-, b, b', -, task, s, -, -, -, -, -, hl, ho, hs, hn, hs', -⟩ :=
      Moment.yields_of_three (World.fresh ⟨[], []⟩ ()) rfl rfl rfl block rfl
    obtain ⟨hwait, -⟩ | ⟨rs, p, hgoing, hreported, hagg⟩ :=
      ((hblock _ _ _ b hl runners .empty .done).2 0 1 ho).2 task _ _ _ b' hs hn
    · rw [hwait] at hs'
      cases hs'
    · obtain ⟨hlen, rfl⟩ := hagg.collected rfl
      have hpos := hreported.positions
      rw [hlen] at hpos
      exact ⟨b, b', task, rs, hl, hn, ho, hgoing, hpos⟩
  · have hany : (session.tasks.any fun t => t.state.waiting?.any fun w => w.blocks.contains 1)
        = true := by
      subst session block runners settings engine ambient
      decide +kernel
    have hcount : session.count 1 = 0 := by
      subst session block runners settings engine ambient
      decide +kernel
    obtain ⟨t, ht, hw⟩ := List.any_eq_true.mp hany
    obtain ⟨w, hw, hc⟩ := (Option.any_eq_true ..).mp hw
    have hc : 1 ∈ w.blocks := List.contains_iff_mem.mp hc
    exact ⟨t, ht, w, hw, hc, hcount,
      hwaits _ _ session (.run .start nofun 3 block) t ht w hw 1 hc hcount⟩

/-- **A block makes no summary whose limit is too great to be counted**, though it does
not fail fast: the session crashes, and no step of it has a result. -/
theorem Session.no_summary_of_limit_too_great :
    let ambient : Ambient := ⟨0, "", "", fun _ => none⟩
    let engine : Engine Unit := ⟨.default, .standard ambient, ambient⟩
    let operation := Step.mk (.domain "log" (.text "a") []) none false none .null
    let block := Step.mk (.parallel [operation] ⟨some 2305843009213693952, some false, none⟩)
      none false none .null
    let run := Machine.run 10 (engine.execute [block] .empty) (Session.start ⟨[], []⟩ ())
    run.1 matches .crashed .tooManyAtOnce ∧ run.2.world.results.isEmpty = true := by
  decide +kernel

end Playbook
