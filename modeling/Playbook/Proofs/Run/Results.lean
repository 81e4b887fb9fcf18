import Playbook.Proofs.Process.Outcome
import Playbook.Run.Block

/-!
# Results of operations

A block makes results of the settlements that it has yielded, and sums them up or finds
the first failure among them. Here is what holds of these results for themselves,
wherever the settlements come from: which position a result has and when it is a
failure, that the first failure is the one at the least position
(`OperationResult.least_of_firstFailure?`), and what a summary says
(`OperationResult.summary_eq_tally`).
-/

namespace Playbook

namespace OperationResult

/-! ## Results by their settlements -/

theorem index_ofSettlement (index : Nat) (s : Settlement Outcome Crash) :
    (ofSettlement index s).index = index := by
  cases s with
  | finished | crashed => rfl

theorem isOk_ofSettlement (index : Nat) (o : Outcome) :
    (ofSettlement index (.finished o)).result.isOk = !o.failed := by
  obtain ⟨f | flow, vars, attempts⟩ := o
  · rfl
  · rfl

/-- Each settlement gives a result. -/
theorem mem_ofSettled {base : Nat} {settled : Settled Outcome Crash} {r : OperationResult} :
    r ∈ ofSettled base settled ↔ ∃ e ∈ settled, r = ofSettlement (base + e.1) e.2 := by
  unfold ofSettled
  rw [List.mem_map]
  exact exists_congr fun e => and_congr_right fun _ => eq_comm

/-- The result of an operation that has ended, by its position. -/
theorem getElem?_ofSettled {base i : Nat} {settled : Settled Outcome Crash} {o : Outcome}
    (h : settled[i]? = some (i, .finished o)) :
    (ofSettled base settled)[i]?
      = some ⟨base + i, o.result.map Flow.value, o.attempts, true⟩ := by
  unfold ofSettled
  rw [List.getElem?_map, h]
  rfl

/-- The results of operations that have settled in order are in order. -/
theorem map_index_ofSettled {base : Nat} {settled : Settled Outcome Crash}
    (h : settled.map Prod.fst = List.range settled.length) :
    (ofSettled base settled).map index = List.range' base settled.length := by
  have hindex : (ofSettled base settled).map index
      = (settled.map Prod.fst).map fun i => base + i := by
    unfold ofSettled
    rw [List.map_map, List.map_map]
    exact List.map_congr_left fun e _ => index_ofSettlement _ _
  rw [hindex, h, List.range_eq_range', List.map_add_range', Nat.add_zero]

theorem ofSettled_append (base : Nat) (s s' : Settled Outcome Crash) :
    ofSettled base (s ++ s') = ofSettled base s ++ ofSettled base s' :=
  List.map_append

/-- The results of operations that have all ended. -/
theorem ofSettled_numbered (base : Nat) (outcomes : List Outcome) :
    ofSettled base (.finished (Gathering.numbered outcomes))
      = outcomes.zipIdx.map fun (o, i) =>
          ⟨base + i, o.result.map Flow.value, o.attempts, true⟩ := by
  unfold ofSettled Gathering.numbered
  rw [List.map_map, List.map_map]
  rfl

/-! ## The first failure -/

theorem firstFailure?_eq_none {rs : List OperationResult} :
    firstFailure? rs = none ↔ ∀ r ∈ rs, r.result.isOk = true := by
  induction rs with
  | nil => exact iff_of_true rfl nofun
  | cons r rest ih =>
    rw [List.forall_mem_cons]
    unfold firstFailure?
    split
    · rename_i v hr
      rw [ih, hr]
      exact (and_iff_right rfl).symm
    · rename_i f hr
      rw [hr]
      exact iff_of_false nofun fun h => Bool.false_ne_true h.1

/-- **The first failure is that of a result**, and all results before it are good. -/
theorem of_firstFailure? {rs : List OperationResult} {i : Nat} {f : Failure}
    (h : firstFailure? rs = some (i, f)) :
    ∃ before r after, rs = before ++ r :: after ∧ r.index = i ∧ r.result = .error f
      ∧ ∀ r' ∈ before, r'.result.isOk = true := by
  induction rs with
  | nil => cases h
  | cons r rest ih =>
    unfold firstFailure? at h
    split at h
    · rename_i v hr
      obtain ⟨before, r', after, rfl, hi, hf, hgood⟩ := ih h
      refine ⟨r :: before, r', after, rfl, hi, hf, List.forall_mem_cons.mpr ⟨?_, hgood⟩⟩
      rw [hr]
      rfl
    · rename_i hr
      cases h
      exact ⟨[], r, rest, rfl, rfl, hr, nofun⟩

/-- In order, the first failure is the one at the least position. -/
theorem least_of_firstFailure? {rs : List OperationResult}
    (hs : (rs.map index).Pairwise (· < ·)) {i : Nat} {f : Failure}
    (h : firstFailure? rs = some (i, f)) :
    ∃ r ∈ rs, r.index = i ∧ r.result = .error f
      ∧ ∀ r' ∈ rs, r'.index < i → r'.result.isOk = true := by
  obtain ⟨before, r, after, rfl, rfl, hf, hgood⟩ := of_firstFailure? h
  refine ⟨r, List.mem_append_right _ List.mem_cons_self, rfl, hf, fun r' hm hlt => ?_⟩
  have hafter := (List.pairwise_append.mp (List.pairwise_map.mp hs)).2.1
  obtain hm | hm := List.mem_append.mp hm
  · exact hgood r' hm
  · obtain rfl | hm := List.mem_cons.mp hm
    · exact absurd hlt (Nat.lt_irrefl _)
    · exact absurd hlt (Nat.lt_asymm (List.rel_of_pairwise_cons hafter hm))

/-- The first failure is among the first operations, if one of them failed. -/
theorem firstFailure?_append {rs : List OperationResult}
    (h : ∃ r ∈ rs, r.result.isOk = false) (rs' : List OperationResult) :
    ∃ f, firstFailure? rs = some f ∧ firstFailure? (rs ++ rs') = some f := by
  induction rs with
  | nil =>
    obtain ⟨_, hm, -⟩ := h
    cases hm
  | cons r rest ih =>
    rw [List.cons_append]
    unfold firstFailure?
    cases hr : r.result with
    | ok v =>
      refine ih ?_
      obtain ⟨r', hm, hf⟩ := h
      obtain rfl | hm := List.mem_cons.mp hm
      · rw [hr] at hf
        cases hf
      · exact ⟨r', hm, hf⟩
    | error f => exact ⟨_, rfl, rfl⟩

/-- Results that begin alike have the same first failure, if there is one where they
begin. -/
theorem firstFailure?_of_prefix {common results : List Outcome} (hp : common <+: results)
    (h : ∃ o ∈ common, o.failed = true) :
    ∃ f, firstFailure? (ofSettled 0 (.finished (Gathering.numbered common))) = some f
      ∧ firstFailure? (ofSettled 0 (.finished (Gathering.numbered results))) = some f := by
  obtain ⟨rest, rfl⟩ := hp
  have hsplit : ofSettled 0 (.finished (Gathering.numbered (common ++ rest)))
      = ofSettled 0 (.finished (Gathering.numbered common))
        ++ ofSettled 0 (.finished ((rest.zipIdx common.length).map fun (a, i) => (i, a))) := by
    rw [← ofSettled_append, ← List.map_append]
    unfold Gathering.numbered
    rw [List.zipIdx_append, List.map_append, Nat.zero_add]
  rw [hsplit]
  refine firstFailure?_append ?_ _
  obtain ⟨o, hm, hf⟩ := h
  obtain ⟨i, hi⟩ := List.getElem?_of_mem hm
  refine ⟨ofSettlement (0 + i) (.finished o), List.mem_map.mpr ⟨(i, .finished o), ?_, rfl⟩, ?_⟩
  · exact List.mem_map.mpr ⟨(i, o), List.mem_map.mpr
      ⟨(o, i), List.mem_zipIdx_iff_getElem?.mpr hi, rfl⟩, rfl⟩
  · rw [isOk_ofSettlement, hf]
    rfl

/-! ## Summaries -/

/-- **What a summary is to say**: how many results there are, how many of them are good
and how many are failures, and then each of them in order, with the time that it took. -/
def tally (elapsed : Nat → UInt64) (rs : List OperationResult) : Value :=
  .record [
    ("total", .nat rs.length),
    ("succeeded", .nat (rs.countP fun r => r.result.isOk)),
    ("failed", .nat (rs.countP fun r => !r.result.isOk)),
    ("results", .list (rs.map fun r => r.toValue (elapsed r.index)))]

/-- Each result is good or a failure. -/
theorem countP_add_countP (rs : List OperationResult) :
    rs.countP (fun r => r.result.isOk) + rs.countP (fun r => !r.result.isOk) = rs.length := by
  rw [List.length_eq_countP_add_countP fun r : OperationResult => r.result.isOk]
  refine congrArg _ (List.countP_congr fun r _ => ?_)
  cases r.result.isOk <;> simp

theorem summary_eq_tally (elapsed : Nat → UInt64) (rs : List OperationResult) :
    summary elapsed rs = tally elapsed rs := by
  unfold summary tally
  dsimp only
  rw [← countP_add_countP rs, Nat.add_sub_cancel_left]

end OperationResult

/-- **How a block ends that sums its results up**: it looks at the stopwatch once, and its value is
the tally of the results with the times that are shown. -/
def Runner.tallying {σ : Type} (engine : Engine σ) (rs : List OperationResult) : Runner σ :=
  fun vars => .act (.look engine.stopwatch.turn) fun w =>
    .done (.yield (OperationResult.tally (engine.stopwatch.operation w.own) rs) vars)

theorem Runner.summarize_eq_tallying {σ : Type} (engine : Engine σ)
    (rs : List OperationResult) : summarize engine rs = tallying engine rs := by
  unfold summarize tallying
  simp only [OperationResult.summary_eq_tally]
  rfl

/-- **A block of operations is a gathering**, with what follows behind what it ends
with. -/
theorem Runner.parallel_andThen {σ : Type} (engine : Engine σ) (settings : BlockSettings)
    (rs : List (Runner σ)) (vars : Variables) (k : Outcome → Task σ) :
    let failFast := settings.failFast.getD engine.settings.parallel.failFast
    (parallel engine settings rs vars).andThen k
      = .gather (settings.maxConcurrency.getD engine.settings.parallel.maxConcurrency)
          (fun o => failFast && o.failed)
          ((rs.map (operation (settings.timeout.getD engine.settings.parallel.timeout))).map
            fun r => r vars) vars fun s =>
          (conclude engine failFast (OperationResult.ofSettled 0 s) vars).andThen k :=
  rfl

/-- The value of a run that has ended without a failure. -/
def Machine.Ending.value? : Machine.Ending Outcome Crash → Option Value
  | .finished o => o.result.toOption.map Flow.value
  | .crashed _ => none
  | .unfinished => none

end Playbook
