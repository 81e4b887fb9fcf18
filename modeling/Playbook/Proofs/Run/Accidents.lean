import Playbook.Proofs.Process.Accident
import Playbook.Proofs.Run.Retrying

/-!
# Tries that crash

A try of an operation may end with a failure or a crash. Behind a failure the operation is
tried again, and its result tells how many tries there were. A crash is no failure: it
leaves the loop of the tries with the task that runs them. So the operation is not tried
again, whatever its limit is (`Interrupted`). What the batch makes of the crash is a result
that tells of one try, as if there had been none before.

`Runner.breaks_retrying` says that the logs of an operation up to a crash are exactly
those of some tries that have failed and then of one that crashes.
`Session.attempts_reported` says what is reported in each of the two cases, for all that
happens in sessions; the number of tries is right if the operation has ended without a
crash, or if the first try is the one that has crashed.
-/

namespace Playbook

variable {σ : Type}

open Try (Successive pauseAfter)

/-- **An operation that has crashed in one of its tries**, of which there are at most
`m + 1`, behind `n` other tries. The list holds the tries before that one. They have all
failed, and there is a pause behind each of them. -/
inductive Interrupted (timeout : Nat) (r : Runner σ) (d : Nat) (a : Crash) :
    Nat → Nat → Variables → List (Try σ) → List (Mark (Deed σ)) → Prop
  | now {m n : Nat} {vars : Variables} {log : List (Mark (Deed σ))}
      (h : (Runner.operation timeout r vars).Breaks a log) :
    Interrupted timeout r d a m n vars [] log
  | again {m n : Nat} {vars : Variables} {t : Try σ} {rest : List (Try σ)}
      {log : List (Mark (Deed σ))}
      (h : (Runner.operation timeout r vars).Logs t.log (.inl t.outcome))
      (hf : t.outcome.failed = true)
      (hrest : Interrupted timeout r d a m (n + 1) t.outcome.vars rest log) :
    Interrupted timeout r d a (m + 1) n vars (t :: rest)
      (t.log ++ .paused (pauseAfter d (n + 1)) :: log)

namespace Interrupted

variable {timeout d m n : Nat} {r : Runner σ} {vars : Variables} {tries : List (Try σ)}
  {log : List (Mark (Deed σ))} {a : Crash}

/-- The tries before the crash are made one after the other. -/
theorem successive (h : Interrupted timeout r d a m n vars tries log) :
    Successive timeout r vars tries := by
  induction h with
  | now => exact .nil
  | again h _ _ ih => exact .cons h ih

theorem failed (h : Interrupted timeout r d a m n vars tries log) :
    ∀ t ∈ tries, t.outcome.failed = true := by
  induction h with
  | now => exact nofun
  | again _ hf _ ih => exact List.forall_mem_cons.mpr ⟨hf, ih⟩

/-- With the one that crashes there are no more tries than the limit allows. -/
theorem length_le (h : Interrupted timeout r d a m n vars tries log) : tries.length ≤ m := by
  induction h with
  | now => exact Nat.zero_le _
  | again _ _ _ ih => exact Nat.succ_le_succ ih

end Interrupted

/-- **An operation crashes in this way and in no other**: behind `n` tries. -/
theorem Runner.breaks_retrying_from {timeout d m n : Nat} {r : Runner σ} {vars : Variables}
    {log : List (Mark (Deed σ))} {a : Crash} :
    (retrying timeout r (n + 1) (pauseAfter d (n + 1)) m vars).Breaks a log
      ↔ ∃ tries, Interrupted timeout r d a m n vars tries log := by
  induction m generalizing n vars log with
  | zero =>
    show ((operation timeout r vars).andThen _).Breaks a log ↔ _
    rw [Process.breaks_andThen]
    constructor
    · rintro (h | ⟨log₁, log₂, s, -, -, hend⟩)
      · exact ⟨[], .now h⟩
      · cases hend
    · rintro ⟨tries, h⟩
      cases h with
      | now h => exact .inl h
  | succ m ih =>
    show ((operation timeout r vars).andThen _).Breaks a log ↔ _
    rw [Process.breaks_andThen]
    constructor
    · rintro (h | ⟨log₁, log₂, s, rfl, h, hend⟩)
      · exact ⟨[], .now h⟩
      · split at hend
        · rename_i hf
          rw [Try.pauseAfter_succ] at hend
          obtain ⟨log', rfl, hnext⟩ := Process.breaks_sleep.mp hend
          obtain ⟨rest, hrest⟩ := ih.mp hnext
          exact ⟨⟨log₁, s⟩ :: rest, .again (t := ⟨log₁, s⟩) h hf hrest⟩
        · cases hend
    · rintro ⟨tries, h⟩
      cases h with
      | now h => exact .inl h
      | @again _ _ _ t rest log h hf hrest =>
        refine .inr ⟨t.log, _, t.outcome, rfl, h, ?_⟩
        rw [if_pos hf, Try.pauseAfter_succ]
        exact .slept (ih.mpr ⟨rest, hrest⟩)

/-- **The logs of an operation up to a crash** are those of tries that have failed, and of
one that crashes. -/
theorem Runner.breaks_retrying {timeout d m : Nat} {r : Runner σ} {vars : Variables}
    {log : List (Mark (Deed σ))} {a : Crash} (hd : d ≤ longestPause) :
    (retrying timeout r 1 d m vars).Breaks a log
      ↔ ∃ tries, Interrupted timeout r d a m 0 vars tries log := by
  have h : (retrying timeout r (0 + 1) (pauseAfter d (0 + 1)) m vars).Breaks a log
      ↔ ∃ tries, Interrupted timeout r d a m 0 vars tries log := Runner.breaks_retrying_from
  rwa [Nat.zero_add, Try.pauseAfter_one hd] at h

/-! ## What batches report -/

/-- The result of an operation that has crashed, by its position. -/
theorem OperationResult.getElem?_ofSettled_of_crashed {base i t : Nat}
    {settled : Settled Outcome Crash} {a : Crash} (h : settled[i]? = some (i, .crashed t a)) :
    (ofSettled base settled)[i]? = some ⟨base + i,
      .error (.action (.failed ("operation task failed: " ++ a.ofTask t))), 1, false⟩ := by
  unfold ofSettled
  rw [List.getElem?_map, h]
  rfl

/-- **How often an operation of a batch was tried, and what is reported.** Here is an
operation that has ended, with a limit of `m` further tries and a first delay of `d`. What
its task has done are the deeds of some tries, and it does nothing any more.

* If it has ended with an outcome, it was tried until a try had succeeded, or `m + 1` times,
  whether a try came to a failure or to the end of its time. The result that is reported is
  that of the last try, with the number of tries.
* If it has ended with a crash, it was tried until a try had crashed. The tries before it
  have failed, and there is none behind it, even if there were fewer than `m + 1`. The result
  that is reported is the failure that tells of the crash, with one try.

The logs that such an operation can have up to a crash are exactly those. -/
theorem Session.attempts_reported (engine : Engine σ) :
    (∀ timeout d m r (vars : Variables) (log : List (Mark (Deed σ))) a,
      d ≤ Runner.longestPause →
      ((Runner.retrying timeout r 1 d m vars).Breaks a log
        ↔ ∃ tries, Interrupted timeout r d a m 0 vars tries log))
    ∧ ∀ registry own (b : Moment (Deed σ) (World σ) Variables Outcome Crash),
      Moment.Later engine.Lists ⟨.idle, Session.start registry own, []⟩ b →
      ∀ (u c : Nat) (settings : BatchSettings) results before operations rest vars k,
      .opened u c ((engine.chunk settings results before operations rest vars).andThen k)
        ∈ b.past →
      let d := settings.retryDelay.getD engine.settings.batch.retryDelay
      let m := settings.maxRetries.getD engine.settings.batch.maxRetries
      d ≤ Runner.longestPause → ∀ i t p, .started c i t p ∈ b.past →
      ∀ old s new, b.past = old ++ .ended t s :: new →
      ∃ step tries log, operations[i]? = some step ∧ Mark.deeds log = Event.doneBy t old
        ∧ (∀ deed, .did t deed ∉ new)
        ∧ match s with
          | .finished o =>
            Retried engine.settings.parallel.timeout
              (Step.listRunner engine (engine.callsAt vars) [step]) d m 0 vars tries log o
            ∧ ∀ u' settled, .yielded u' c settled ∈ b.past →
              (OperationResult.ofSettled before.flatten.length settled)[i]?
                = some ⟨before.flatten.length + i, o.result.map Flow.value, tries.length, true⟩
          | .crashed t' a =>
            Interrupted engine.settings.parallel.timeout
              (Step.listRunner engine (engine.callsAt vars) [step]) d a m 0 vars tries log
            ∧ (∀ try_ ∈ tries, try_.outcome.failed = true) ∧ tries.length ≤ m
            ∧ ∀ u' settled, .yielded u' c settled ∈ b.past →
              (OperationResult.ofSettled before.flatten.length settled)[i]?
                = some ⟨before.flatten.length + i,
                  .error (.action (.failed ("operation task failed: " ++ a.ofTask t'))), 1,
                  false⟩ := by
  refine ⟨fun timeout d m r vars log a => Runner.breaks_retrying, ?_⟩
  intro registry own b h u c settings results before operations rest vars k ho d m hd i t p hs
    old s new he
  have hord := Moment.Later.orderly h
  obtain ⟨step, hstep, rfl⟩ := engine.exists_trying_of_started hord ho hs
  have hend : .ended t s ∈ b.past := he ▸ List.mem_append_right _ List.mem_cons_self
  have hyield : ∀ u' settled, .yielded u' c settled ∈ b.past → settled[i]? = some (i, s) :=
    fun u' settled hy => Moment.Later.getElem?_of_yielded h ho hy hs hend
  have hdid : ∀ deed, .did t deed ∉ new := by
    obtain ⟨x, x', -, -, hx, hn, hxb, -, hpast, -⟩ := Moment.Later.settlement?_of_ended h he
    refine Moment.Later.not_did_of_ended (hx.tail hn) hxb (s := s) ?_ (hord.numbered.ne_main hs) ?_
    · rw [hpast]
      exact List.mem_append_right _ List.mem_cons_self
    · rw [he, hpast, List.append_assoc]
      rfl
  have hsub : old ⊆ b.past := he ▸ List.subset_append_left _ _
  cases s with
  | finished o =>
    obtain ⟨p', log, hp, hlog, hdeeds⟩ := Moment.Later.logs_of_ended h he
    cases hord.eq_of_begunWith hs (hp.mono hsub)
    obtain ⟨tries, hr⟩ := (Runner.logs_retrying hd).mp hlog
    have hattempts : o.attempts = tries.length := hr.attempts_eq.trans (Nat.zero_add _)
    refine ⟨step, tries, log, hstep, hdeeds, hdid, hr, fun u' settled hy => ?_⟩
    rw [← hattempts]
    exact OperationResult.getElem?_ofSettled (hyield u' settled hy)
  | crashed t' a =>
    obtain ⟨p', log, hp, hlog, hdeeds⟩ := Moment.Later.breaks_of_crashed h he
    cases hord.eq_of_begunWith hs (hp.mono hsub)
    obtain ⟨tries, hi⟩ := (Runner.breaks_retrying hd).mp hlog
    exact ⟨step, tries, log, hstep, hdeeds, hdid, hi, hi.failed, hi.length_le,
      fun u' settled hy => OperationResult.getElem?_ofSettled_of_crashed (hyield u' settled hy)⟩

/-- An operation that crashes in its first try and may be tried once more. It ends with the
crash, and was tried once. -/
theorem Session.attempts_reported_too_many_at_once :
    let ambient : Ambient := ⟨0, "", "", fun _ => none⟩
    let engine : Engine Unit := ⟨.default, .standard ambient, ambient⟩
    let crashes := Step.mk (.parallel [] ⟨some 2305843009213693952, none, none⟩) none false none
      .null
    let settings : BatchSettings := ⟨none, none, some 1, some 0⟩
    ∃ b k p old, Moment.Later engine.Lists ⟨.idle, Session.start ⟨[], []⟩ (), []⟩ b
      ∧ .opened 0 1 ((engine.chunk settings [] [] [crashes] [] .empty).andThen k) ∈ b.past
      ∧ .started 1 0 2 p ∈ b.past
      ∧ b.past = old ++ [.ended 2 (.crashed 2 .tooManyAtOnce)]
      ∧ ∃ tries log, Interrupted engine.settings.parallel.timeout
          (Step.listRunner engine (engine.callsAt .empty) [crashes]) 0 .tooManyAtOnce 1 0 .empty
          tries log
        ∧ Mark.deeds log = Event.doneBy 2 old ∧ tries.length ≤ 1 := by
  intro ambient engine crashes settings
  obtain ⟨k, m, past, htask, ho, hs⟩ :=
    Session.later_trying engine ⟨[], []⟩ () settings crashes (by decide)
  let p := engine.trying settings (Step.listRunner engine (engine.callsAt .empty) [crashes]) .empty
  obtain ⟨b, old, hrest, he⟩ : ∃ b old,
      Moment.Later engine.Lists ⟨.going ⟨2, some (1, 0), .fresh p⟩ p [], m, past⟩ b
        ∧ b.past = old ++ [.ended 2 (.crashed 2 .tooManyAtOnce)] := by
    have hlimit : Moment.Later engine.Lists ⟨.going ⟨2, some (1, 0), .fresh p⟩ p [], m, past⟩ _ :=
      .single (.move .limit)
    have hended := ((hlimit.tail .act).tail (.move .crashOut)).tail .crash
    exact ⟨_, _, hended, rfl⟩
  have hl := htask.trans hrest
  have hsub : past ⊆ b.past := Moment.Later.past_subset hrest
  obtain ⟨step, tries, log, hstep, hdeeds, -, hi, -, hle, -⟩ :=
    (Session.attempts_reported engine).2 _ _ b hl 0 1 settings [] [] [crashes] [] .empty k
      (hsub ho) (Nat.zero_le _) 0 2 _ (hsub hs) old _ [] he
  cases hstep
  exact ⟨b, k, _, old, hl, hsub ho, hsub hs, he, tries, log, hi, hdeeds, hle⟩

/-- How often the first operation of a block was tried, by the summary that a run has ended
with. -/
def Machine.Ending.attempts? : Machine.Ending Outcome Crash → Option Nat
  | .finished o =>
    o.result.toOption.bind fun flow =>
      (flow.value.at? [.key "results", .index 0, .key "attempts"]).bind Value.nat?
  | .crashed _ => none
  | .unfinished => none

/-- **A batch that hears of a crash forgets the tries before it, and makes none behind it.**
The operation may be tried twice more. Its first try fails, and leaves a variable that
makes the second one divide the least integer by minus one: the step is begun twice, and the
result tells of one try. -/
theorem Session.one_attempt_of_crash :
    let ambient : Ambient := ⟨0, "", "", fun _ => none⟩
    let engine : Engine Unit := ⟨.default, .standard ambient, ambient⟩
    let divides := Step.mk (.domain "echo" (.text "\x7b\x7bsmall / -1\x7d\x7d") []) none false none
      (.record [("echo", .text "\x7b\x7bsmall / -1\x7d\x7d")])
    let sets := Step.mk (.assign .globals [("tried", .bool true)]) none false none .null
    let unknown := Step.mk (.domain "nosuch" .null []) none false none .null
    let operation := Step.mk (.ifElse (.expr "tried") [divides] [sets, unknown]) none false none
      .null
    let batch := Step.mk (.batch [operation] ⟨none, none, some 2, some 0⟩) none false none .null
    let vars := (Variables.empty.setGlobal "small" (.int (-9223372036854775808))).setGlobal "tried"
      (.bool false)
    let run := Machine.run 20 (engine.execute [batch] vars) (Session.start ⟨[], []⟩ ())
    run.2.world.history.count (.started 1 0 "if") = 2 ∧ run.1.attempts? = some 1 := by
  decide +kernel

end Playbook
