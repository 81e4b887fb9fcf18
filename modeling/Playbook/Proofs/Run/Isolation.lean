import Playbook.Proofs.Run.Blocks

/-!
# Blocks leave the variables alone

Every operation of a concurrent block begins with the variables that the block was
begun with, and keeps what it changes to itself. So whatever the operations come to,
the block ends with the variables from before it, and while it is waited for they are
the same too; an operation is never begun with what another one has written.

The first part is about what a block comes to by itself (`Action.vars_of_reaches`).
The second is about sessions, where operations start and settle in any order: what an
operation is begun with is told by `Engine.Forks`. Both are in
`Session.block_isolated`.
-/

namespace Playbook

variable {σ : Type}

/-- The variables at a place: those that a task ends with or has while it waits. -/
def varsAt : Outcome ⊕ Variables → Variables
  | .inl o => o.vars
  | .inr vars => vars

/-- A task that does nothing by itself but to look at the stopwatch, and is at given
variables wherever it is. -/
def Task.StaysAt (vars : Variables) (p : Task σ) : Prop :=
  ∀ t e, p.Reaches t e → (∀ d ∈ t, d.isLook = true) ∧ varsAt e = vars

namespace Task.StaysAt

variable {vars : Variables}

theorem done {o : Outcome} (h : o.vars = vars) :
    Task.StaysAt (σ := σ) vars (.done o) := by
  intro t e he
  obtain ⟨rfl, rfl⟩ := Process.reaches_done.mp he
  exact ⟨nofun, h⟩

theorem crash {c : Crash} : Task.StaysAt (σ := σ) vars (.crash c) :=
  fun _ _ he => (Process.reaches_crash he).elim

theorem look {turn : σ → σ} {next : World σ → Task σ} (h : ∀ w, (next w).StaysAt vars) :
    Task.StaysAt vars (.act (.look turn) next) := by
  intro t e he
  obtain ⟨u, w, rfl, hnext⟩ := Process.reaches_act.mp he
  obtain ⟨hlooks, hvars⟩ := h w u e hnext
  exact ⟨List.forall_mem_cons.mpr ⟨rfl, hlooks⟩, hvars⟩

theorem sleep {ms : Nat} {p : Task σ} (h : p.StaysAt vars) :
    Task.StaysAt vars (.sleep ms vars p) := by
  intro t e he
  cases he with
  | asleep => exact ⟨nofun, rfl⟩
  | slept he => exact h t e he

theorem gather {limit : Nat} {stops : Outcome → Bool} {operations : List (Task σ)}
    {next : Settled Outcome Crash → Task σ} (h : ∀ s, (next s).StaysAt vars) :
    Task.StaysAt vars (.gather limit stops operations vars next) := by
  intro t e he
  cases he with
  | gathering => exact ⟨nofun, rfl⟩
  | gathered s he => exact h s t e he

theorem race {wins : Outcome → Bool} {operations : List (Task σ)}
    {next : Settled Outcome Crash → Task σ} (h : ∀ s, (next s).StaysAt vars) :
    Task.StaysAt vars (.race wins operations vars next) := by
  intro t e he
  cases he with
  | racing => exact ⟨nofun, rfl⟩
  | raced s he => exact h s t e he

theorem compute {α : Type} {f : Variables → Except Halt α} {k : α → Runner σ}
    (h : ∀ a, (k a vars).StaysAt vars) : Task.StaysAt vars (Runner.compute f k vars) := by
  unfold Runner.compute
  split
  · exact h _
  · exact .done rfl
  · exact .crash

/-! ### Blocks -/

/-- A block is begun or crashes. -/
theorem countable {engine : Engine σ} {settings : BlockSettings} {r : Runner σ}
    (h : (r vars).StaysAt vars) :
    Task.StaysAt vars (Runner.countable engine settings r vars) :=
  .compute fun _ => h

theorem summarize (engine : Engine σ) (results : List OperationResult) :
    Task.StaysAt vars (Runner.summarize engine results vars) :=
  .look fun _ => .done rfl

theorem conclude (engine : Engine σ) (failFast : Bool) (results : List OperationResult) :
    Task.StaysAt vars (Runner.conclude engine failFast results vars) := by
  unfold Runner.conclude
  generalize (if failFast then OperationResult.firstFailure? results else none) = failure
  cases failure with
  | some f => exact .done rfl
  | none => exact summarize engine _

theorem parallel (engine : Engine σ) (settings : BlockSettings) (rs : List (Runner σ)) :
    Task.StaysAt vars (Runner.parallel engine settings rs vars) :=
  .gather fun _ => .conclude _ _ _

theorem runnerRace (engine : Engine σ) (timeout : Option Nat) (rs : List (Runner σ)) :
    Task.StaysAt vars (Runner.race engine timeout rs vars) := by
  obtain ⟨next, he, hnext⟩ := Runner.race_eq engine timeout rs vars
  rw [he]
  refine .race fun s => ?_
  obtain ⟨o, ho, he⟩ := hnext s
  rw [he]
  exact .done ho

theorem chunksFrom (engine : Engine σ) (delay : Nat) (results : List (List OperationResult))
    (base : Nat) (chunks : List (List (Runner σ))) :
    Task.StaysAt vars (Runner.chunksFrom engine delay results base chunks vars) := by
  induction chunks generalizing results base with
  | nil => exact summarize engine _
  | cons chunk rest ih =>
    have hbody : Task.StaysAt vars (.gather chunk.length (fun _ => false)
        (chunk.map fun r => r vars) vars fun settled =>
          Runner.chunksFrom engine delay (OperationResult.ofSettled base settled :: results)
            (base + chunk.length) rest vars) := .gather fun s => ih _ _
    unfold Runner.chunksFrom
    split
    · exact hbody
    · exact hbody.sleep

end Task.StaysAt

/-- Whether an action is a block of concurrent operations. -/
def Action.isBlock : Action → Bool
  | .parallel _ _ => true
  | .race _ _ => true
  | .batch _ _ => true
  | .parallelForEach _ _ _ => true
  | _ => false

/-- **A block is at the variables from before it** wherever it is and however it ends,
whatever its operations come to. -/
theorem Action.vars_of_reaches {engine : Engine σ} {call : Calls σ} {keys : List String}
    {action : Action} (h : action.isBlock = true) (vars : Variables) :
    Task.StaysAt vars (Action.runner engine call keys action vars) := by
  cases action with
  | parallel operations settings =>
    show Task.StaysAt vars (Runner.countable engine settings _ vars)
    exact .countable (.parallel engine settings _)
  | race operations timeout => exact .runnerRace engine timeout _
  | batch operations settings => exact .chunksFrom _ _ _ _ _
  | parallelForEach iteration body settings =>
    show Task.StaysAt vars (Runner.compute (Runner.elements engine iteration.source) _ vars)
    refine .compute fun _ => .countable ?_
    exact .compute fun _ => .parallel engine settings _
  | _ => cases h

/-! ## The operations of a block -/

/-- **What the operations of a block do that has given variables**: each is a list of
steps that begins with them, under a time limit or with further tries. A pass of a loop
has its own element and position bound, and nothing else. -/
inductive Engine.Forks (engine : Engine σ) (vars : Variables) : List (Runner σ) → Prop
  | operations (timeout : Nat) (operations : List Step) :
    Forks engine vars ((engine.singles vars operations).map (.operation timeout))
  | passes (timeout : Nat) (iteration : Iteration) (items : List Value)
      (body : List Step) :
    Forks engine vars
      ((engine.passes vars iteration items body).map (.operation timeout))
  | tries (settings : BatchSettings) (operations : List Step) :
    Forks engine vars (engine.tries settings vars operations)

/-- A node at which a block is opened that has given variables: it starts forks of
them, and it goes on with them to what follows the block. -/
structure Engine.Isolates (engine : Engine σ) (vars : Variables)
    (runners : List (Runner σ)) (next : Settled Outcome Crash → Task σ) : Prop where
  forks : engine.Forks vars runners
  ends : ∃ (ending : Settled Outcome Crash → Task σ) (k : Outcome → Task σ),
    (∀ s, next s = (ending s).andThen k) ∧ ∀ s, (ending s).StaysAt vars

/-- **The blocks of a session are isolated.** -/
theorem Engine.Block.isolates {engine : Engine σ} {n : Task σ} (h : engine.Block n) :
    ∃ vars runners next, n.block? = some (vars, next)
      ∧ n.operations = runners.map (fun r => r vars) ∧ engine.Isolates vars runners next := by
  cases h with
  | parallel settings operations vars k =>
    exact ⟨vars, _, _, rfl, rfl, .operations _ operations, _, k, fun _ => rfl,
      fun _ => .conclude _ _ _⟩
  | parallelForEach settings iteration items body vars k =>
    exact ⟨vars, _, _, rfl, rfl, .passes _ iteration items body, _, k, fun _ => rfl,
      fun _ => .conclude _ _ _⟩
  | race timeout operations vars k =>
    obtain ⟨next, he, hnext⟩ := Runner.race_eq engine timeout
      (engine.singles vars operations) vars
    rw [he]
    refine ⟨vars, _, _, rfl, rfl, .operations _ operations, next, k, fun _ => rfl,
      fun s => ?_⟩
    obtain ⟨o, ho, he⟩ := hnext s
    rw [he]
    exact .done ho
  | batch settings results before operations rest vars k all h =>
    exact ⟨vars, _, _, rfl, rfl, .tries settings operations, _, k, fun _ => rfl,
      fun _ => .chunksFrom _ _ _ _ _⟩

/-- **Blocks and their operations keep out of each other's variables.** A block of any
kind is at the variables from before it wherever it is, and however it ends it leaves
them as they were, whatever its operations come to; by itself it does nothing but to
look at the stopwatch. In every session and in every order
of turns, a block that is opened has variables `vars`: what the task goes on with, when
the block is over, begins with them; its operations are forks of them; and each
operation that is started is begun with exactly them. -/
theorem Session.block_isolated (engine : Engine σ) :
    (∀ call keys action, action.isBlock = true → ∀ vars t e,
      (Action.runner engine call keys action vars).Reaches t e →
        (∀ d ∈ t, d.isLook = true) ∧ varsAt e = vars)
    ∧ ∀ registry own (b : Moment (Deed σ) (World σ) Variables Outcome Crash),
      Moment.Later engine.Lists ⟨.idle, Session.start registry own, []⟩ b →
      ∀ u c n, .opened u c n ∈ b.past → ∃ vars runners next,
        n.block? = some (vars, next) ∧ engine.Isolates vars runners next
          ∧ ∀ i t p, .started c i t p ∈ b.past → ∃ r, runners[i]? = some r ∧ p = r vars := by
  refine ⟨fun call keys action h vars => Action.vars_of_reaches h vars,
    fun registry own b h u c n ho => ?_⟩
  obtain ⟨vars, runners, next, hb, hops, hi⟩ := (Session.block_of_opened h ho).isolates
  refine ⟨vars, runners, next, hb, hi, fun i t p hs => ?_⟩
  have hbooked := (Moment.Later.orderly h).booked
  obtain ⟨u', n', ho', hop⟩ := hbooked.started_opened c i t p hs
  obtain ⟨-, rfl⟩ := hbooked.opened_inj _ _ _ _ _ ho' ho
  rw [hops, List.getElem?_map] at hop
  obtain ⟨r, hr, rfl⟩ := Option.map_eq_some_iff.mp hop
  exact ⟨r, hr, rfl⟩

/-- Two operations, where the first sets `x`: the second is begun where `x` is `null`
still, and so is what follows the block when the first has ended. -/
theorem Session.block_isolated_set_and_log :
    let ambient : Ambient := ⟨0, "", "", fun _ => none⟩
    let engine : Engine Unit := ⟨.default, .standard ambient, ambient⟩
    let sets := Step.mk (.assign .globals [("x", .bool true)]) none false none .null
    let logs := Step.mk (.domain "log" (.text "second") []) none false none .null
    let action : Action := .parallel [sets, logs] ⟨none, some false, none⟩
    let vars : Variables := ⟨[("x", .null)], []⟩
    (∃ b n p runners r, Moment.Later engine.Lists ⟨.idle, Session.start ⟨[], []⟩ (), []⟩ b
      ∧ .opened 0 1 n ∈ b.past ∧ .started 1 1 3 p ∈ b.past
      ∧ engine.Forks vars runners ∧ runners[1]? = some r ∧ p = r vars)
    ∧ ∃ t o, (Action.runner engine engine.invoke [] action vars).Reaches t (.inl o)
      ∧ o.vars = vars := by
  intro ambient engine sets logs action vars
  have h := Session.block_isolated engine
  constructor
  · have hbegin : Moment.Next engine.Lists ⟨.idle, Session.start ⟨[], []⟩ (), []⟩ _ :=
      .begin ⟨[.mk action none false none .null], vars, rfl⟩ nofun
    have hopens := Relation.ReflTransGen.tail (.tail (.tail (.single hbegin)
      (.move (.first (t := ⟨0, none, .fresh _⟩) rfl rfl))) .act) (.opens (.gather rfl rfl))
    obtain ⟨b, n, p, hl, ho, hs, hn⟩ : ∃ b n p,
        Moment.Later engine.Lists ⟨.idle, Session.start ⟨[], []⟩ (), []⟩ b
          ∧ .opened 0 1 n ∈ b.past ∧ .started 1 1 3 p ∈ b.past
          ∧ n.block?.map Prod.fst = some vars :=
      ⟨_, _, _, hopens, List.mem_cons_of_mem _ List.mem_cons_self,
        List.mem_cons_of_mem _ (List.mem_cons_of_mem _ (List.mem_cons_of_mem _
          List.mem_cons_self)), rfl⟩
    obtain ⟨vars', runners, next, hb, hi, hstarted⟩ := h.2 _ _ b hl 0 1 n ho
    obtain ⟨r, hr, hp⟩ := hstarted 1 3 p hs
    rw [hb] at hn
    have hv : vars' = vars := Option.some.inj hn
    rw [hv] at hi hp
    exact ⟨b, n, p, runners, r, hl, ho, hs, hi.forks, hr, hp⟩
  · let first : Outcome := ⟨.ok (.continue (.bool true)), ⟨[("x", .bool true)], []⟩, 1⟩
    let second : Outcome := ⟨.ok (.continue (.text "second")), vars, 1⟩
    have hr : (Action.runner engine engine.invoke [] action vars).Reaches [_] (.inl _) :=
      .gathered [(0, .finished first), (1, .finished second)]
        (.act (World.fresh ⟨[], []⟩ ()) (.done _))
    exact ⟨_, _, hr, (h.1 _ _ action rfl vars _ _ hr).2⟩

end Playbook
