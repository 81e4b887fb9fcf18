import Mathlib.Algebra.Group.Nat.Defs
import Playbook.Proofs.Process.Log
import Playbook.Proofs.Process.Settled
import Playbook.Proofs.Run.Blocks
import Playbook.Proofs.Run.Results

/-!
# Operations that are tried again

An operation of a batch is tried until it succeeds, and not more often than its limit
allows. What that comes to can be read off the log of the operation: the logs of its
tries, each on the variables that the last one left, with pauses in between that double
(`Retried`). `Runner.logs_retrying` says that the logs of such an operation are exactly
these. It is shown by induction on the tries that are left, with the number of those
that were made before as what the pause depends on.

How often an operation is tried does not need the recursion any more. It is told by the
place of the first try that succeeds, if that is within the limit, and by the limit
otherwise.

A batch runs such operations in chunks (`Engine.runner_batch`). `Session.operation_retried`
says it of sessions: what the task of an operation of a batch has done when it ends are the
deeds of a log like that, and what the batch hears of it is how the last try came out and
how many there were.
-/

namespace Playbook

variable {σ : Type}

/-- **A try of an operation**: what it has logged, and how it came out. -/
structure Try (σ : Type) where
  log : List (Mark (Deed σ))
  outcome : Outcome

namespace Try

/-- Whether a try has ended with a value. -/
def succeeded (t : Try σ) : Bool :=
  !t.outcome.failed

/-- The number of the first try that succeeds. It is one more than there are tries if
none does. -/
def firstSuccess (tries : List (Try σ)) : Nat :=
  tries.findIdx succeeded + 1

/-- Tries of an operation one after the other, each on the variables that the one before
has left. -/
inductive Successive (timeout : Nat) (r : Runner σ) : Variables → List (Try σ) → Prop
  | nil {vars} : Successive timeout r vars []
  | cons {vars t rest}
      (h : (Runner.operation timeout r vars).Logs t.log (.inl t.outcome))
      (hrest : Successive timeout r t.outcome.vars rest) :
    Successive timeout r vars (t :: rest)

theorem successive_cons {timeout : Nat} {r : Runner σ} {vars : Variables} {t : Try σ}
    {rest : List (Try σ)} :
    Successive timeout r vars (t :: rest)
      ↔ (Runner.operation timeout r vars).Logs t.log (.inl t.outcome)
        ∧ Successive timeout r t.outcome.vars rest := by
  constructor
  · rintro (_ | ⟨h, hrest⟩)
    exact ⟨h, hrest⟩
  · rintro ⟨h, hrest⟩
    exact .cons h hrest

/-- The pause behind a try, by the number of the try and the delay `d`: twice as long each
time, up to the longest pause. -/
def pauseAfter (d j : Nat) : Nat :=
  min (d * 2 ^ (j - 1)) Runner.longestPause

/-- The log of tries with the pauses in between. The first of them has the number `j`. -/
def logFrom (d : Nat) : Nat → List (Try σ) → List (Mark (Deed σ))
  | _, [] => []
  | _, [t] => t.log
  | j, t :: t' :: rest => t.log ++ .paused (pauseAfter d j) :: logFrom d (j + 1) (t' :: rest)

theorem pauseAfter_one {d : Nat} (h : d ≤ Runner.longestPause) : pauseAfter d 1 = d := by
  unfold pauseAfter
  rw [Nat.sub_self, Nat.pow_zero, Nat.mul_one, Nat.min_eq_left h]

/-- The pauses double. -/
theorem pauseAfter_succ (d n : Nat) :
    min (2 * pauseAfter d (n + 1)) Runner.longestPause = pauseAfter d (n + 2) := by
  have hpow : d * 2 ^ (n + 1) = 2 * (d * 2 ^ n) := by
    rw [Nat.pow_succ, ← Nat.mul_assoc, Nat.mul_comm]
  show min (2 * min (d * 2 ^ n) Runner.longestPause) Runner.longestPause
    = min (d * 2 ^ (n + 1)) Runner.longestPause
  omega

theorem firstSuccess_cons_of_failed {t : Try σ} (h : t.outcome.failed = true)
    (rest : List (Try σ)) : firstSuccess (t :: rest) = firstSuccess rest + 1 := by
  have ht : t.succeeded = false := by
    unfold succeeded
    rw [h]
    rfl
  unfold firstSuccess
  rw [List.findIdx_cons, ht]
  rfl

theorem firstSuccess_cons_of_not_failed {t : Try σ} (h : t.outcome.failed = false)
    (rest : List (Try σ)) : firstSuccess (t :: rest) = 1 := by
  have ht : t.succeeded = true := by
    unfold succeeded
    rw [h]
    rfl
  unfold firstSuccess
  rw [List.findIdx_cons, ht]
  rfl

end Try

open Try (Successive pauseAfter logFrom firstSuccess)

/-- **An operation that was tried again**, up to `m` times, behind `n` other tries, with
its log and with what came out of it. -/
structure Retried (timeout : Nat) (r : Runner σ) (d m n : Nat) (vars : Variables)
    (tries : List (Try σ)) (log : List (Mark (Deed σ))) (o : Outcome) : Prop where
  /-- One try after the other, each with the time limit and on what the last one left. -/
  successive : Successive timeout r vars tries
  /-- It is tried until a try succeeds, or to the limit. -/
  count : tries.length = min (firstSuccess tries) (m + 1)
  /-- What comes out is what came out of the last try, with the number of tries. -/
  last : ∃ t, tries.getLast? = some t ∧ o = { t.outcome with attempts := n + tries.length }
  /-- There is a pause behind each try but the last one. -/
  log : log = logFrom d (n + 1) tries

namespace Retried

variable {timeout d m n : Nat} {r : Runner σ} {vars : Variables} {tries rest : List (Try σ)}
  {t : Try σ} {log : List (Mark (Deed σ))} {o : Outcome}

/-- There is at least one try. -/
theorem not_nil : ¬ Retried timeout r d m n vars [] log o := by
  rintro ⟨-, -, ⟨t, ht, -⟩, -⟩
  cases ht

/-- **A try that is the last one** has succeeded, or there are none left. -/
theorem single (h : (Runner.operation timeout r vars).Logs t.log (.inl t.outcome))
    (hlast : t.outcome.failed = true → m = 0) :
    Retried timeout r d m n vars [t] t.log { t.outcome with attempts := n + 1 } := by
  refine ⟨.cons h .nil, ?_, ⟨t, rfl, rfl⟩, rfl⟩
  cases hf : t.outcome.failed with
  | false =>
    rw [Try.firstSuccess_cons_of_not_failed hf, Nat.min_eq_left (Nat.le_add_left 1 m)]
    rfl
  | true =>
    rw [hlast hf]
    exact (Nat.min_eq_right (Nat.le_add_left 1 _)).symm

/-- **A try that has failed** is behind the limit or is followed by others, one fewer than
it was allowed. -/
theorem cons (h : (Runner.operation timeout r vars).Logs t.log (.inl t.outcome))
    (hf : t.outcome.failed = true)
    (hrest : Retried timeout r d m (n + 1) t.outcome.vars rest log o) :
    Retried timeout r d (m + 1) n vars (t :: rest)
      (t.log ++ .paused (pauseAfter d (n + 1)) :: log) o := by
  obtain ⟨hs, hc, ⟨l, hl, ho⟩, hlog⟩ := hrest
  cases rest with
  | nil => cases hl
  | cons t' rest =>
    refine ⟨.cons h hs, ?_, ⟨l, ?_, ?_⟩, ?_⟩
    · rw [Try.firstSuccess_cons_of_failed hf, List.length_cons, hc, Nat.add_min_add_right]
    · rw [List.getLast?_cons_cons, hl]
    · rw [ho, Nat.add_right_comm]
      rfl
    · rw [hlog]
      rfl

/-- **The tries behind the first one**: none if it was the last, and otherwise those of an
operation that may be tried once less. -/
theorem cases_cons (h : Retried timeout r d m n vars (t :: rest) log o) :
    (Runner.operation timeout r vars).Logs t.log (.inl t.outcome)
      ∧ ((t.outcome.failed = true → m = 0) ∧ log = t.log
          ∧ o = { t.outcome with attempts := n + 1 }
        ∨ t.outcome.failed = true ∧ ∃ m' log', m = m' + 1
          ∧ log = t.log ++ .paused (pauseAfter d (n + 1)) :: log'
          ∧ Retried timeout r d m' (n + 1) t.outcome.vars rest log' o) := by
  obtain ⟨hs, hc, ⟨l, hl, ho⟩, hlog⟩ := h
  obtain ⟨h, hs⟩ := Try.successive_cons.mp hs
  refine ⟨h, ?_⟩
  cases rest with
  | nil =>
    cases hl
    refine .inl ⟨fun hf => ?_, hlog, ho⟩
    -- behind a failure the limit is what is left
    rw [Try.firstSuccess_cons_of_failed hf, Nat.add_min_add_right] at hc
    have hfirst : 0 < firstSuccess ([] : List (Try σ)) := Nat.succ_pos _
    have hzero : min (firstSuccess ([] : List (Try σ))) m = 0 := (Nat.succ.inj hc).symm
    omega
  | cons t' rest =>
    cases hf : t.outcome.failed with
    | false =>
      rw [Try.firstSuccess_cons_of_not_failed hf, List.length_cons, List.length_cons] at hc
      omega
    | true =>
      rw [Try.firstSuccess_cons_of_failed hf, Nat.add_min_add_right] at hc
      have hmin : (t' :: rest).length = min (firstSuccess (t' :: rest)) m := Nat.succ.inj hc
      cases m with
      | zero => cases hmin.trans (Nat.min_zero _)
      | succ m =>
        refine .inr ⟨rfl, m, _, rfl, hlog, hs, hmin, ⟨l, ?_, ?_⟩, rfl⟩
        · rw [← hl, List.getLast?_cons_cons]
        · rw [ho, Nat.add_right_comm]
          rfl

/-- The result says how many tries there were. -/
theorem attempts_eq (h : Retried timeout r d m n vars tries log o) :
    o.attempts = n + tries.length := by
  obtain ⟨t, -, rfl⟩ := h.last
  rfl

/-- **The value of the first try that succeeds** is the result, if it is within the limit. -/
theorem result_of_le (h : Retried timeout r d m n vars tries log o)
    (hle : firstSuccess tries ≤ m + 1) :
    ∃ t flow, tries[firstSuccess tries - 1]? = some t ∧ t.outcome.result = .ok flow
      ∧ o.result = .ok flow := by
  obtain ⟨-, hc, ⟨t, hlast, rfl⟩, -⟩ := h
  rw [Nat.min_eq_left hle] at hc
  rw [List.getLast?_eq_getElem?, hc] at hlast
  obtain ⟨hlt, ht⟩ := List.getElem?_eq_some_iff.mp hlast
  have hs : t.succeeded = true := ht ▸ List.findIdx_getElem (w := hlt)
  refine ⟨t, ?_⟩
  unfold Try.succeeded Outcome.failed at hs
  cases hr : t.outcome.result with
  | ok flow => exact ⟨flow, hlast, rfl, rfl⟩
  | error f =>
    rw [hr] at hs
    cases hs

/-- **The failure of the last try** is the result, if no try within the limit succeeds. -/
theorem result_of_lt (h : Retried timeout r d m n vars tries log o)
    (hlt : m + 1 < firstSuccess tries) :
    ∃ t f, tries.getLast? = some t ∧ t.outcome.result = .error f ∧ o.result = .error f := by
  obtain ⟨-, hc, ⟨t, hlast, rfl⟩, -⟩ := h
  rw [Nat.min_eq_right (Nat.le_of_lt hlt)] at hc
  have hget := hlast
  rw [List.getLast?_eq_getElem?, hc] at hget
  obtain ⟨hm, ht⟩ := List.getElem?_eq_some_iff.mp hget
  have hs : t.succeeded = false := ht ▸ List.not_of_lt_findIdx (Nat.lt_of_succ_lt_succ hlt)
  refine ⟨t, ?_⟩
  unfold Try.succeeded Outcome.failed at hs
  cases hr : t.outcome.result with
  | ok flow =>
    rw [hr] at hs
    cases hs
  | error f => exact ⟨f, hlast, rfl, rfl⟩

end Retried

/-! ## The logs of an operation that is tried again -/

/-- **An operation is tried in this way and in no other**: behind `n` tries. -/
theorem Runner.logs_retrying_from {timeout d m n : Nat} {r : Runner σ} {vars : Variables}
    {log : List (Mark (Deed σ))} {o : Outcome} :
    (retrying timeout r (n + 1) (pauseAfter d (n + 1)) m vars).Logs log (.inl o)
      ↔ ∃ tries, Retried timeout r d m n vars tries log o := by
  induction m generalizing n vars log with
  | zero =>
    show ((operation timeout r vars).andThen _).Logs log _ ↔ _
    rw [Process.logs_andThen]
    constructor
    · rintro ⟨log₁, log₂, s, rfl, h, hend⟩
      obtain ⟨rfl, he⟩ := Process.logs_done.mp hend
      cases he
      rw [List.append_nil]
      exact ⟨[⟨log₁, s⟩], .single h fun _ => rfl⟩
    · rintro ⟨_ | ⟨t, rest⟩, h⟩
      · exact (Retried.not_nil h).elim
      · obtain ⟨ht, ⟨-, rfl, rfl⟩ | ⟨-, m', -, hm, -⟩⟩ := h.cases_cons
        · exact ⟨t.log, [], t.outcome, (List.append_nil _).symm, ht, .done _⟩
        · cases hm
  | succ m ih =>
    show ((operation timeout r vars).andThen _).Logs log _ ↔ _
    rw [Process.logs_andThen]
    constructor
    · rintro ⟨log₁, log₂, s, rfl, h, hend⟩
      split at hend
      · rename_i hf
        rw [Try.pauseAfter_succ] at hend
        obtain ⟨log', rfl, hnext⟩ := Process.logs_sleep.mp hend
        obtain ⟨rest, hrest⟩ := ih.mp hnext
        exact ⟨⟨log₁, s⟩ :: rest, .cons (t := ⟨log₁, s⟩) h hf hrest⟩
      · rename_i hf
        obtain ⟨rfl, he⟩ := Process.logs_done.mp hend
        cases he
        rw [List.append_nil]
        exact ⟨[⟨log₁, s⟩], .single h fun hf' => (hf hf').elim⟩
    · rintro ⟨_ | ⟨t, rest⟩, h⟩
      · exact (Retried.not_nil h).elim
      · obtain ⟨ht, ⟨hlast, rfl, rfl⟩ | ⟨hf, m', log', hm, rfl, hrest⟩⟩ := h.cases_cons
        · refine ⟨t.log, [], t.outcome, (List.append_nil _).symm, ht, ?_⟩
          dsimp only
          rw [if_neg fun hf => Nat.succ_ne_zero m (hlast hf)]
          exact .done _
        · cases hm
          refine ⟨t.log, _, t.outcome, rfl, ht, ?_⟩
          rw [if_pos hf, Try.pauseAfter_succ]
          exact .slept (ih.mpr ⟨rest, hrest⟩)

/-- **The logs of an operation that is tried again** are those of its tries with pauses in
between that double. -/
theorem Runner.logs_retrying {timeout d m : Nat} {r : Runner σ} {vars : Variables}
    {log : List (Mark (Deed σ))} {o : Outcome} (hd : d ≤ longestPause) :
    (retrying timeout r 1 d m vars).Logs log (.inl o)
      ↔ ∃ tries, Retried timeout r d m 0 vars tries log o := by
  have h : (retrying timeout r (0 + 1) (pauseAfter d (0 + 1)) m vars).Logs log (.inl o)
      ↔ ∃ tries, Retried timeout r d m 0 vars tries log o := Runner.logs_retrying_from
  rwa [Nat.zero_add, Try.pauseAfter_one hd] at h

/-! ## Operations of batches -/

/-- **A batch is its chunks**, one after the other. -/
theorem Engine.runner_batch (engine : Engine σ) (settings : BatchSettings) (keys : List String)
    (vars : Variables) (operations : List Step) :
    Action.runner engine (engine.callsAt vars) keys (.batch operations settings) vars
      = Runner.chunksFrom engine (settings.delay.getD engine.settings.batch.delay) [] 0
          ((Runner.chunks (settings.size.getD engine.settings.batch.size) operations).map
            (engine.tries settings vars)) vars := by
  show Runner.batch engine settings (Step.singles engine (engine.callsAt vars) operations) vars = _
  rw [Step.singles_eq, ← engine.chunks_tries]
  rfl

/-- The operations of a batch that fits into one chunk begin at once. -/
theorem Engine.runner_batch_of_le (engine : Engine σ) (settings : BatchSettings)
    (keys : List String) (vars : Variables) {operations : List Step} (hne : operations ≠ [])
    (hle : operations.length ≤ settings.size.getD engine.settings.batch.size) :
    Action.runner engine (engine.callsAt vars) keys (.batch operations settings) vars
      = engine.chunk settings [] [] operations [] vars := by
  have hmax : operations.length ≤ max (settings.size.getD engine.settings.batch.size) 1 :=
    Nat.le_trans hle (Nat.le_max_left _ _)
  have hchunks : Runner.chunks (settings.size.getD engine.settings.batch.size) operations
      = [operations] := by
    rw [Runner.chunks, dif_neg hne, List.take_of_length_le hmax, List.drop_of_length_le hmax,
      Runner.chunks, dif_pos rfl]
  rw [engine.runner_batch, hchunks]
  rfl

/-- **The operations of a chunk are tries of its steps.** -/
theorem Engine.exists_trying_of_started (engine : Engine σ) {settings : BatchSettings}
    {results : List (List OperationResult)} {before rest : List (List Step)}
    {operations : List Step} {vars : Variables} {k : Outcome → Task σ}
    {b : Moment (Deed σ) (World σ) Variables Outcome Crash} (hb : b.Orderly) {u c i t : Nat}
    {p : Task σ} (ho : .opened u c ((engine.chunk settings results before operations rest
      vars).andThen k) ∈ b.past) (hs : .started c i t p ∈ b.past) :
    ∃ step, operations[i]? = some step ∧
      p = engine.trying settings (Step.listRunner engine (engine.callsAt vars) [step]) vars := by
  obtain ⟨u', n, ho', hop⟩ := hb.booked.started_opened c i t p hs
  obtain ⟨-, rfl⟩ := hb.booked.opened_inj _ _ _ _ _ ho' ho
  have hop : ((engine.tries settings vars operations).map fun r => r vars)[i]? = some p := hop
  rw [List.getElem?_map, List.getElem?_map, List.getElem?_map, Option.map_map, Option.map_map]
    at hop
  obtain ⟨step, hstep, rfl⟩ := Option.map_eq_some_iff.mp hop
  exact ⟨step, hstep, rfl⟩

/-- **The operations of a batch are tried again as they are to be.** An operation with a
limit of `m` further tries and a first delay of `d` is tried until a try succeeds, or
`m + 1` times; each try is made on the variables that the one before has left, and behind
the try `j` there is a pause of `d * 2 ^ (j - 1)`, or the longest one if that is shorter.
The result is the value of the first try that succeeds, or the failure of the last one if
none of them does.

This is so for the logs of such an operation by itself, where there is one for all tries
like these; and at every moment of every session and in every order of turns, for each
operation of a batch that has ended. Once its chunk is over, its result is reported, with
the number of its tries. -/
theorem Session.operation_retried (engine : Engine σ) :
    (∀ timeout d m r (vars : Variables) (log : List (Mark (Deed σ))) o,
      d ≤ Runner.longestPause →
      ((Runner.retrying timeout r 1 d m vars).Logs log (.inl o)
        ↔ ∃ tries, Retried timeout r d m 0 vars tries log o))
    ∧ ∀ registry own (b : Moment (Deed σ) (World σ) Variables Outcome Crash),
      Moment.Later engine.Lists ⟨.idle, Session.start registry own, []⟩ b →
      ∀ (u c : Nat) (settings : BatchSettings) results before operations rest vars k,
      .opened u c ((engine.chunk settings results before operations rest vars).andThen k)
        ∈ b.past →
      let d := settings.retryDelay.getD engine.settings.batch.retryDelay
      let m := settings.maxRetries.getD engine.settings.batch.maxRetries
      d ≤ Runner.longestPause → ∀ i t p, .started c i t p ∈ b.past →
      ∀ old o new, b.past = old ++ .ended t (.finished o) :: new →
      ∃ step tries log, operations[i]? = some step
        ∧ Retried engine.settings.parallel.timeout
          (Step.listRunner engine (engine.callsAt vars) [step]) d m 0 vars tries log o
        ∧ Mark.deeds log = Event.doneBy t old
        ∧ tries.length = min (firstSuccess tries) (m + 1)
        ∧ (firstSuccess tries ≤ m + 1 → ∃ try_ flow, tries[firstSuccess tries - 1]? = some try_
          ∧ try_.outcome.result = .ok flow ∧ o.result = .ok flow)
        ∧ (m + 1 < firstSuccess tries → ∃ try_ f, tries.getLast? = some try_
          ∧ try_.outcome.result = .error f ∧ o.result = .error f)
        ∧ ∀ u' s, .yielded u' c s ∈ b.past →
          (OperationResult.ofSettled before.flatten.length s)[i]?
            = some ⟨before.flatten.length + i, o.result.map Flow.value, tries.length, true⟩ := by
  refine ⟨fun timeout d m r vars log o => Runner.logs_retrying, ?_⟩
  intro registry own b h u c settings results before operations rest vars k ho d m hd i t p hs
    old o new he
  have hord := Moment.Later.orderly h
  obtain ⟨p', log, hp, hlog, hdeeds⟩ := Moment.Later.logs_of_ended h he
  cases hord.eq_of_begunWith hs (hp.mono (he ▸ List.subset_append_left _ _))
  obtain ⟨step, hstep, rfl⟩ := engine.exists_trying_of_started hord ho hs
  obtain ⟨tries, hr⟩ := (Runner.logs_retrying hd).mp hlog
  have hattempts : o.attempts = tries.length := hr.attempts_eq.trans (Nat.zero_add _)
  refine ⟨step, tries, log, hstep, hr, hdeeds, hr.count, hr.result_of_le, hr.result_of_lt,
    fun u' s hy => ?_⟩
  have hend : .ended t (.finished o) ∈ b.past :=
    he ▸ List.mem_append_right _ List.mem_cons_self
  rw [← hattempts]
  exact OperationResult.getElem?_ofSettled (Moment.Later.getElem?_of_yielded h ho hy hs hend)

/-- A batch of one step begins with the tries of that step. -/
theorem Session.later_trying (engine : Engine σ) (registry : Registry) (own : σ)
    (settings : BatchSettings) (step : Step)
    (hsize : 1 ≤ settings.size.getD engine.settings.batch.size) :
    let p := engine.trying settings (Step.listRunner engine (engine.callsAt .empty) [step]) .empty
    ∃ k m past, Moment.Later engine.Lists ⟨.idle, Session.start registry own, []⟩
        ⟨.going ⟨2, some (1, 0), .fresh p⟩ p [], m, past⟩
      ∧ .opened 0 1 ((engine.chunk settings [] [] [step] [] .empty).andThen k) ∈ past
      ∧ .started 1 0 2 p ∈ past := by
  intro p
  let batch := Step.mk (.batch [step] settings) none false none .null
  -- the batch opens its only chunk
  obtain ⟨deed, k, hp⟩ : ∃ deed k, engine.execute [batch] .empty
      = .act deed fun _ => (engine.chunk settings [] [] [step] [] .empty).andThen k := by
    have hchunk : Action.runner engine (engine.callsAt .empty) batch.keys (.batch [step] settings)
        .empty = engine.chunk settings [] [] [step] [] .empty :=
      engine.runner_batch_of_le settings _ _ nofun hsize
    have hrun : engine.execute [batch] .empty = .act (.start batch 1 0) fun _ =>
      ((Action.runner engine (engine.callsAt .empty) batch.keys (.batch [step] settings)
        .empty).andThen _).andThen _ := rfl
    rw [hchunk, Process.andThen_assoc] at hrun
    exact ⟨_, _, hrun⟩
  have hbegin : Moment.Next engine.Lists ⟨.idle, Session.start registry own, []⟩ _ :=
    .begin ⟨[batch], .empty, hp.symm⟩ nofun
  have hopens := Relation.ReflTransGen.tail (.tail (.tail (.single hbegin)
    (.move (.first (t := ⟨0, none, .fresh _⟩) rfl rfl))) .act) (.opens (.gather rfl rfl))
  have htask := (hopens.tail .pause).tail (.move (.first (t := ⟨2, some (1, 0), .fresh _⟩) rfl rfl))
  exact ⟨k, _, _, htask, List.mem_cons_of_mem _ List.mem_cons_self,
    List.mem_cons_of_mem _ (List.mem_cons_of_mem _ List.mem_cons_self)⟩

/-- An operation that fails each time and may be tried once more: it was tried twice when it
has ended, and its result says so. -/
theorem Session.operation_retried_twice :
    let ambient : Ambient := ⟨0, "", "", fun _ => none⟩
    let engine : Engine Unit := ⟨.default, .standard ambient, ambient⟩
    let fails := Step.mk (.while_ (.literal (.bool true)) [] (some 0)) none false none .null
    let settings : BatchSettings := ⟨none, none, some 1, some 0⟩
    ∃ b k p old o, Moment.Later engine.Lists ⟨.idle, Session.start ⟨[], []⟩ (), []⟩ b
      ∧ .opened 0 1 ((engine.chunk settings [] [] [fails] [] .empty).andThen k) ∈ b.past
      ∧ .started 1 0 2 p ∈ b.past ∧ b.past = old ++ [.ended 2 (.finished o)]
      ∧ o.attempts = 2
      ∧ ∃ tries log, Retried engine.settings.parallel.timeout
          (Step.listRunner engine (engine.callsAt .empty) [fails]) 0 1 0 .empty tries log o
        ∧ Mark.deeds log = Event.doneBy 2 old ∧ tries.length = 2 := by
  intro ambient engine fails settings
  obtain ⟨k, m, past, htask, ho, hs⟩ :=
    Session.later_trying engine ⟨[], []⟩ () settings fails (by decide)
  let p := engine.trying settings (Step.listRunner engine (engine.callsAt .empty) [fails]) .empty
  obtain ⟨b, old, o, hrest, he, ha⟩ : ∃ b old o,
      Moment.Later engine.Lists ⟨.going ⟨2, some (1, 0), .fresh p⟩ p [], m, past⟩ b
        ∧ b.past = old ++ [.ended 2 (.finished o)] ∧ o.attempts = 2 := by
    have hlimit : Moment.Later engine.Lists ⟨.going ⟨2, some (1, 0), .fresh p⟩ p [], m, past⟩ _ :=
      .single (.move .limit)
    have htry := ((hlimit.tail .act).tail .act).tail (.move .inTime)
    have hended := (((((htry.tail (.move .sleepZero)).tail (.move .limit)).tail .act).tail
      .act).tail (.move .inTime)).tail .finish
    exact ⟨_, _, _, hended, rfl, rfl⟩
  have hl := htask.trans hrest
  have hsub : past ⊆ b.past := Moment.Later.past_subset hrest
  obtain ⟨step, tries, log, hstep, hr, hdeeds, -⟩ := (Session.operation_retried engine).2 _ _ b hl
    0 1 settings [] [] [fails] [] .empty k (hsub ho) (Nat.zero_le _) 0 2 _ (hsub hs) old o [] he
  cases hstep
  exact ⟨b, k, _, old, o, hl, hsub ho, hsub hs, he, ha, tries, log, hr, hdeeds,
    (hr.attempts_eq.trans (Nat.zero_add _)).symm.trans ha⟩

end Playbook
