import Playbook.Proofs.Run.Loops
import Playbook.Proofs.Run.Numbering

/-!
# Loops with a condition

A loop with a condition has no plan: whether there is a pass is asked before each one, of the
variables that the pass before has left. What it has instead is a limit. At every moment it has made
some passes, each at variables at which the condition holds, and is at a next check or inside of a
next pass (`Loop.Standing`). The limit stands between the check and the pass, so a check more is
made than there can be passes.

The induction is on the passes that are left (`Loop.exists_standing`). `Engine.while_capped` says
from this what a loop comes to: it fails for its limit if the condition holds at one check more than
the limit says, and it ends with the number of its passes if the condition ceases to hold before.
-/

namespace Playbook

variable {σ : Type}

namespace Engine

/-- What is wrong with a condition is wrong with an expression. -/
theorem failure_of_test {engine : Engine σ} {condition : Condition} {vars : Variables} {f : Failure}
    (h : engine.test condition vars = .error (.failure f)) : ∃ e, f = .expression e := by
  unfold test at h
  cases hc : condition.eval (engine.scope vars) with
  | ok b =>
    rw [hc] at h
    cases h
  | error stop =>
    rw [hc] at h
    cases stop with
    | error e =>
      cases h
      exact ⟨e, rfl⟩
    | crash c => cases h

/-- A list of steps does not fail for the limit of a loop: it tells at which step it fails. -/
theorem result_execute_ne_loopLimit {engine : Engine σ} {steps : List Step} {vars : Variables}
    {t : List (Deed σ)} {o : Outcome} (h : (engine.execute steps vars).Runs t (.done o)) (n : Nat) :
    o.result ≠ .error (.loopLimit n) := by
  intro hr
  have hf : o.failed = true := by
    rw [Outcome.failed, hr]
    rfl
  have h : (engine.executeFrom 1 .null steps vars).Runs t (.done o) := h
  obtain ⟨a, ha⟩ := exists_fault h hf
  cases hr.symm.trans ha.result

end Engine

namespace Loop

/-- **Passes of a loop with a condition**, one after the other: each begins with what the one before
has left, and the condition holds there. -/
structure Checked (engine : Engine σ) (run : List Step → Runner σ) (condition : Condition)
    (body : List Step) (here : Variables) (passes : List (Pass σ)) (there : Variables) : Prop where
  chain : Chain engine run (List.replicate passes.length ⟨[], .steps body⟩) here passes there
  holds : ∀ p ∈ passes, engine.test condition p.begun = .ok true

/-- **What a loop with a condition is at** behind so many passes, with the variables `there`. It has
done `u` since the last of them, and `q` is what is left of it. -/
inductive Standing (engine : Engine σ) (condition : Condition) (body : Runner σ) (limit made : Nat)
    (there : Variables) : List (Deed σ) → Task σ → Prop
  /-- The condition has no value. -/
  | failed {f : Failure} (h : engine.test condition there = .error (.failure f)) :
    Standing engine condition body limit made there [] (.done (.fail f there))
  | crashed {c : Crash} (h : engine.test condition there = .error (.crash c)) :
    Standing engine condition body limit made there [] (.crash c)
  /-- The condition does not hold any more. -/
  | ceased (h : engine.test condition there = .ok false) :
    Standing engine condition body limit made there [] (.done (.yield (.nat made) there))
  /-- The condition still holds, and there are no passes left. -/
  | capped (h : engine.test condition there = .ok true) (hm : made = limit) :
    Standing engine condition body limit made there [] (.done (.fail (.loopLimit limit) there))
  /-- A next pass is under way. -/
  | inside {u : List (Deed σ)} {q : Task σ} (h : engine.test condition there = .ok true)
    (hm : made < limit) (hb : (body there).Runs u q) (hq : ¬ q.Ended) (k : Outcome → Task σ) :
    Standing engine condition body limit made there u (q.andThen k)
  /-- A next pass has failed or returned. -/
  | broken {u : List (Deed σ)} {o : Outcome} (h : engine.test condition there = .ok true)
    (hm : made < limit) (hb : (body there).Runs u (.done o))
    (ho : ∀ v, o.result ≠ .ok (.continue v)) :
    Standing engine condition body limit made there u (.done o)

variable {engine : Engine σ} {run : List Step → Runner σ} {condition : Condition}
  {body : List Step} {limit left : Nat} {here there : Variables} {passes : List (Pass σ)}

namespace Checked

theorem nil : Checked engine run condition body here [] here :=
  ⟨.nil, nofun⟩

/-- A pass before others. -/
theorem cons {p : Pass σ} (hb : p.begun = here) (hp : p.Of (run body))
    (ht : engine.test condition p.begun = .ok true)
    (h : Checked engine run condition body p.left passes there) :
    Checked engine run condition body here (p :: passes) there :=
  ⟨.cons hb hp h.chain, List.forall_mem_cons.mpr ⟨ht, h.holds⟩⟩

theorem execute_iff :
    Checked engine (Step.listRunner engine (engine.callsAt here)) condition body here passes there
      ↔ Checked engine engine.execute condition body here passes there :=
  ⟨fun h => ⟨Chain.execute_iff.mp h.chain, h.holds⟩,
    fun h => ⟨Chain.execute_iff.mpr h.chain, h.holds⟩⟩

/-- **Passes at which the condition holds are made**, as long as there are any left. -/
theorem runs (h : Checked engine run condition body here passes there)
    {u : List (Deed σ)} {q : Task σ}
    (hq : (Runner.whileFrom engine condition (run body) limit left there).Runs u q) :
    (Runner.whileFrom engine condition (run body) limit (left + passes.length) here).Runs
      (passes.flatMap Pass.deeds ++ u) q := by
  induction passes generalizing here with
  | nil =>
    obtain ⟨-, rfl⟩ := Chain.nil_iff.mp h.chain
    exact hq
  | cons p rest ih =>
    obtain ⟨hchain, hholds⟩ := h
    obtain ⟨_, _, he, hb, ⟨attempts, hp⟩, hrest⟩ := Chain.cons_iff.mp hchain
    cases he
    obtain ⟨ht, hholds⟩ := List.forall_mem_cons.mp hholds
    have hbegun : p.begun = here := hb
    subst hbegun
    rw [List.length_cons, ← Nat.add_assoc, Runner.whileFrom, Runner.compute_of_ok ht, if_pos rfl,
      List.flatMap_cons, List.append_assoc]
    exact hp.andThen (ih ⟨hrest, hholds⟩)

end Checked

/-- Behind its passes, a loop ends with their number if its condition does not hold. -/
theorem runs_of_ceased {r : Runner σ} (limit left : Nat)
    (ht : engine.test condition there = .ok false) :
    (Runner.whileFrom engine condition r limit left there).Runs []
      (.done (.yield (.nat (limit - left)) there)) := by
  cases left with
  | zero | succ =>
    rw [Runner.whileFrom, Runner.compute_of_ok ht]
    exact .refl

/-- Without a pass left, a loop fails if its condition holds. -/
theorem runs_of_capped {r : Runner σ} (limit : Nat)
    (ht : engine.test condition there = .ok true) :
    (Runner.whileFrom engine condition r limit 0 there).Runs []
      (.done (.fail (.loopLimit limit) there)) := by
  rw [Runner.whileFrom, Runner.compute_of_ok ht]
  exact .refl

/-- A loop is at its end, or its condition holds and there is a pass left. -/
theorem standing_or_pass {r : Runner σ} {t : List (Deed σ)} {q : Task σ}
    (h : (Runner.whileFrom engine condition r limit left here).Runs t q) :
    t = [] ∧ Standing engine condition r limit (limit - left) here [] q
      ∨ ∃ m, left = m + 1 ∧ engine.test condition here = .ok true
        ∧ (r.onValue (fun _ => Runner.whileFrom engine condition r limit m) here).Runs t q := by
  have hwhile : Runner.whileFrom engine condition r limit left
      = .compute (engine.test condition) fun holds =>
        if holds then match left with
          | 0 => .fail (.loopLimit limit)
          | m + 1 => r.onValue fun _ => Runner.whileFrom engine condition r limit m
        else .yield (.nat (limit - left)) := by
    cases left <;> rfl
  rw [hwhile, Runner.compute] at h
  split at h
  · rename_i holds ht
    cases holds with
    | false =>
      obtain ⟨rfl, rfl⟩ := Process.runs_done.mp h
      exact .inl ⟨rfl, .ceased ht⟩
    | true =>
      cases left with
      | zero =>
        obtain ⟨rfl, rfl⟩ := Process.runs_done.mp h
        exact .inl ⟨rfl, .capped ht (Nat.sub_zero limit)⟩
      | succ m => exact .inr ⟨m, rfl, ht, h⟩
  · obtain ⟨rfl, rfl⟩ := Process.runs_done.mp h
    exact .inl ⟨rfl, .failed ‹_›⟩
  · obtain ⟨rfl, rfl⟩ := Process.runs_crash.mp h
    exact .inl ⟨rfl, .crashed ‹_›⟩

/-- **What a loop with a condition is at**, at every moment. -/
theorem exists_standing {t : List (Deed σ)} {q : Task σ} (hle : left ≤ limit)
    (h : (Runner.whileFrom engine condition (run body) limit left here).Runs t q) :
    ∃ passes there u, Checked engine run condition body here passes there
      ∧ t = passes.flatMap Pass.deeds ++ u ∧ passes.length ≤ left
      ∧ Standing engine condition (run body) limit (limit - left + passes.length) there u q := by
  induction left generalizing here t with
  | zero =>
    obtain ⟨rfl, hs⟩ | ⟨m, hm, -⟩ := standing_or_pass h
    · exact ⟨[], here, [], .nil, rfl, Nat.le_refl 0, hs⟩
    · cases hm
  | succ left ih =>
    obtain ⟨rfl, hs⟩ | ⟨m, hm, ht, h⟩ := standing_or_pass h
    · exact ⟨[], here, [], .nil, rfl, Nat.zero_le _, hs⟩
    cases hm
    have hlt : limit - (left + 1) < limit := by omega
    -- the pass is under way, or it has ended and the loop goes on if it has a value
    obtain ⟨q', rfl, hb, hq⟩ | ⟨t₁, t₂, ⟨result, behind, attempts⟩, rfl, hb, h⟩ :=
      Process.runs_andThen h
    · exact ⟨[], here, t, .nil, rfl, Nat.zero_le _, .inside ht hlt hb hq _⟩
    split at h
    · rename_i v hv
      cases hv
      obtain ⟨passes, there, u, hc, rfl, hlength, hs⟩ := ih (Nat.le_of_succ_le hle) h
      have hmade : limit - left + passes.length = limit - (left + 1) + (passes.length + 1) := by
        omega
      exact ⟨⟨here, t₁, v, behind⟩ :: passes, there, u, .cons rfl ⟨attempts, hb⟩ ht hc,
        (List.append_assoc ..).symm, Nat.succ_le_succ hlength, hmade ▸ hs⟩
    · rename_i hno
      obtain ⟨rfl, rfl⟩ := Process.runs_done.mp h
      rw [List.append_nil]
      exact ⟨[], here, t₁, .nil, rfl, Nat.zero_le _, .broken ht hlt hb hno⟩

/-- The steps of a loop are run like any others, also in a pass that is under way. -/
theorem Standing.execute {made : Nat} {u : List (Deed σ)} {q : Task σ}
    (hd : there.depth = here.depth)
    (h : Standing engine condition (Step.listRunner engine (engine.callsAt here) body) limit made
      there u q) : Standing engine condition (engine.execute body) limit made there u q := by
  have hrun : Step.listRunner engine (engine.callsAt here) body there = engine.execute body there :=
    Engine.listRunner_eq_execute hd body
  cases h with
  | failed h => exact .failed h
  | crashed h => exact .crashed h
  | ceased h => exact .ceased h
  | capped h hm => exact .capped h hm
  | inside h hm hb hq k => exact .inside h hm (hrun ▸ hb) hq k
  | broken h hm hb ho => exact .broken h hm (hrun ▸ hb) ho

/-- Nothing else fails for the limit of a loop than the loop itself, at the check behind its
passes. -/
theorem Standing.eq_capped {made n : Nat} {u : List (Deed σ)} {o : Outcome}
    (h : Standing engine condition (engine.execute body) limit made there u (.done o))
    (hn : o.result = .error (.loopLimit n)) : u = [] ∧ made = limit
      ∧ engine.test condition there = .ok true ∧ o = .fail (.loopLimit limit) there := by
  generalize hq : Process.done o = q at h
  cases h with
  | failed ht =>
    cases hq
    obtain ⟨e, rfl⟩ := Engine.failure_of_test ht
    cases hn
  | crashed => cases hq
  | ceased =>
    cases hq
    cases hn
  | capped ht hm =>
    cases hq
    exact ⟨rfl, hm, ht, rfl⟩
  | inside _ _ _ hq' k => exact absurd ⟨o, hq.symm⟩ (Process.not_ended_andThen hq')
  | broken _ _ hb =>
    cases hq
    exact absurd hn (Engine.result_execute_ne_loopLimit hb n)

/-- A loop ends with a value at a check, and the value is the number of its passes. -/
theorem Standing.eq_ceased {made : Nat} {u : List (Deed σ)} {o : Outcome} {v : Value} {r : Runner σ}
    (h : Standing engine condition r limit made there u (.done o))
    (hv : o.result = .ok (.continue v)) :
    u = [] ∧ engine.test condition there = .ok false ∧ o = .yield (.nat made) there := by
  generalize hq : Process.done o = q at h
  cases h with
  | failed | capped =>
    cases hq
    cases hv
  | crashed => cases hq
  | ceased ht =>
    cases hq
    exact ⟨rfl, ht, rfl⟩
  | inside _ _ _ hq' k => exact absurd ⟨o, hq.symm⟩ (Process.not_ended_andThen hq')
  | broken _ _ _ ho =>
    cases hq
    exact absurd hv (ho v)

end Loop

/-- **A loop with a condition has a limit**, that of its step or else the configured one.

* At every moment it has made some passes, no more than the limit allows, each at variables at which
  the condition holds, and it is at a next check or in a next pass, which the limit allows too.
* It fails for its limit if it has made as many passes as the limit allows and the condition still
  holds, and only then.
* It ends with a value if the condition does not hold any more behind passes that the limit allows,
  and only then. The value is the number of these passes. -/
theorem Engine.while_capped {engine : Engine σ} {step : Step} {condition : Condition}
    {body : List Step} {maxIterations : Option Nat}
    (ha : step.action = .while_ condition body maxIterations) (here : Variables)
    (t : List (Deed σ)) :
    let limit := maxIterations.getD engine.settings.maxWhileIterations
    (∀ q, (engine.carryOut step here).Runs t q → ∃ passes there u,
      Loop.Checked engine engine.execute condition body here passes there
        ∧ t = passes.flatMap Loop.Pass.deeds ++ u ∧ passes.length ≤ limit
        ∧ Loop.Standing engine condition (engine.execute body) limit passes.length there u q)
    ∧ (∀ o, (engine.carryOut step here).Runs t (.done o) ∧ (∃ n, o.result = .error (.loopLimit n))
      ↔ ∃ passes there, Loop.Checked engine engine.execute condition body here passes there
        ∧ t = passes.flatMap Loop.Pass.deeds ∧ passes.length = limit
        ∧ engine.test condition there = .ok true ∧ o = .fail (.loopLimit limit) there)
    ∧ ∀ o, (engine.carryOut step here).Runs t (.done o) ∧ (∃ v, o.result = .ok (.continue v))
      ↔ ∃ passes there, Loop.Checked engine engine.execute condition body here passes there
        ∧ t = passes.flatMap Loop.Pass.deeds ∧ passes.length ≤ limit
        ∧ engine.test condition there = .ok false ∧ o = .yield (.nat passes.length) there := by
  intro limit
  have hloop : engine.carryOut step here = Runner.whileFrom engine condition
      (Step.listRunner engine (engine.callsAt here) body) limit limit here := by
    rw [carryOut, ha]
    rfl
  have hstanding : ∀ q, (engine.carryOut step here).Runs t q → ∃ passes there u,
      Loop.Checked engine engine.execute condition body here passes there
        ∧ t = passes.flatMap Loop.Pass.deeds ++ u ∧ passes.length ≤ limit
        ∧ Loop.Standing engine condition (engine.execute body) limit passes.length there u q := by
    intro q h
    rw [hloop] at h
    obtain ⟨passes, there, u, hc, ht, hlength, hs⟩ := Loop.exists_standing (Nat.le_refl limit) h
    rw [Nat.sub_self, Nat.zero_add] at hs
    exact ⟨passes, there, u, Loop.Checked.execute_iff.mp hc, ht, hlength,
      hs.execute hc.chain.execute.2⟩
  refine ⟨hstanding, fun o => ⟨?_, ?_⟩, fun o => ⟨?_, ?_⟩⟩
  · rintro ⟨h, n, hn⟩
    obtain ⟨passes, there, u, hc, rfl, -, hs⟩ := hstanding _ h
    obtain ⟨rfl, hlength, htest, rfl⟩ := hs.eq_capped hn
    exact ⟨passes, there, hc, List.append_nil _, hlength, htest, rfl⟩
  · rintro ⟨passes, there, hc, rfl, hlength, htest, rfl⟩
    refine ⟨?_, limit, rfl⟩
    have hruns := (Loop.Checked.execute_iff.mpr hc).runs (Loop.runs_of_capped limit htest)
    rw [Nat.zero_add, hlength, List.append_nil] at hruns
    rw [hloop]
    exact hruns
  · rintro ⟨h, v, hv⟩
    obtain ⟨passes, there, u, hc, rfl, hle, hs⟩ := hstanding _ h
    obtain ⟨rfl, htest, rfl⟩ := hs.eq_ceased hv
    exact ⟨passes, there, hc, List.append_nil _, hle, htest, rfl⟩
  · rintro ⟨passes, there, hc, rfl, hle, htest, rfl⟩
    refine ⟨?_, _, rfl⟩
    have hruns := (Loop.Checked.execute_iff.mpr hc).runs
      (Loop.runs_of_ceased limit (limit - passes.length) htest)
    rw [Nat.sub_add_cancel hle, Nat.sub_sub_self hle, List.append_nil] at hruns
    rw [hloop]
    exact hruns

/-- A loop whose condition always holds and that may make one pass: it makes that pass, checks once
more and fails. -/
theorem Engine.while_capped_once :
    let engine : Engine Unit :=
      ⟨.default, .standard ⟨0, "", "", fun _ => none⟩, ⟨0, "", "", fun _ => none⟩⟩
    let sets := Step.mk (.assign .globals [("x", .null)]) none false none .null
    let condition : Condition := .literal (.bool true)
    let loop := Step.mk (.while_ condition [sets] (some 1)) none false none .null
    ∃ t passes there, loop.action = .while_ condition [sets] (some 1)
      ∧ (engine.carryOut loop .empty).Runs t (.done (.fail (.loopLimit 1) there))
      ∧ Loop.Checked engine engine.execute condition [sets] .empty passes there
      ∧ t = passes.flatMap Loop.Pass.deeds ∧ passes.length = 1
      ∧ engine.test condition there = .ok true := by
  intro engine sets condition loop
  let w : World Unit := .fresh ⟨[], []⟩ ()
  have hrun : (engine.carryOut loop .empty).Runs _ (.done (.fail (.loopLimit 1) _)) :=
    .act w (.act w .refl)
  have ha : loop.action = .while_ condition [sets] (some 1) := rfl
  obtain ⟨-, hcapped, -⟩ := Engine.while_capped ha .empty _
  obtain ⟨passes, there, hc, ht, hlength, htest, ho⟩ := (hcapped _).mp ⟨hrun, _, rfl⟩
  cases ho
  exact ⟨_, passes, _, ha, hrun, hc, ht, hlength, htest⟩

end Playbook
