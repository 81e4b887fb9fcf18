import Playbook.Proofs.Process.Outcome
import Playbook.Proofs.Process.Solo

/-!
# Processes with one result

What a process comes to by itself (`Process.Comes`) can be one of several results. Two
things leave it open: what the process finds in the world, and which operation wins a
race. `Process.Decided` says that no race leaves anything open: whenever the process comes
to one, the winner's result is the same, whoever it is. And it says that the process does
nothing of a certain kind, such as to look at a clock. In particular a process is decided
that comes to no block and does nothing of that kind (`Process.Solo.decided`).

Whether the rest of the world leaves something open depends on what the process is made
of. So that a process has one result (`Process.Determined`) is not shown here, but what
goes along with each node: operations with one result each leave a gathering with one
result (`Process.yields_gather`), and a decided race is one that goes on with one winner.
-/

namespace Playbook

variable {δ σ ν ρ κ : Type}

/-- The result of a settlement that wins a race. -/
def Race.winner? (wins : ρ → Bool) (s : Settled ρ κ) : Option ρ :=
  s.findSome? fun e =>
    match e.2 with
    | .finished r => if wins r then some r else none
    | .crashed _ _ => none

theorem Race.wins_of_winner? {wins : ρ → Bool} {s : Settled ρ κ} {r : ρ}
    (h : winner? wins s = some r) : wins r = true := by
  obtain ⟨e, -, he⟩ := List.exists_of_findSome?_eq_some h
  split at he
  · split at he
    · rename_i hw
      cases he
      exact hw
    · cases he
  · cases he

/-- **Two outcomes of a race that make no difference**: the same settlements, or winners
with the same result. -/
def Race.Alike (wins : ρ → Bool) (s s' : Settled ρ κ) : Prop :=
  s = s' ∨ ∃ r, winner? wins s = some r ∧ winner? wins s' = some r

namespace Process

/-- A process comes to one result at most. -/
def Determined (W : σ → Prop) (p : Process δ σ ν ρ κ) : Prop :=
  ∀ r r', p.Comes W r → p.Comes W r' → r = r'

/-- **A process whose races are decided**, wherever it comes to one, and that does nothing that
satisfies `L`. -/
inductive Decided (L : δ → Prop) (W : σ → Prop) : Process δ σ ν ρ κ → Prop
  | done (r : ρ) : Decided L W (.done r)
  | crash (a : κ) : Decided L W (.crash a)
  | act {deed : δ} {next : σ → Process δ σ ν ρ κ}
    (hl : ¬ L deed) (h : ∀ w, W w → Decided L W (next w)) : Decided L W (.act deed next)
  | sleep {ms here next} (h : Decided L W next) : Decided L W (.sleep ms here next)
  | timed {ms body next} (hb : Decided L W body)
    (h : ∀ r, body.Comes W r → Decided L W (next (.inl r))) : Decided L W (.timed ms body next)
  | gather {limit stops operations here next} (hops : ∀ op ∈ operations, Decided L W op)
    (h : ∀ s, (Process.gather limit stops operations here next).Yields W s →
      Decided L W (next s)) :
    Decided L W (.gather limit stops operations here next)
  | race {wins operations here next}
    (hs : ∀ s s', (Process.race wins operations here next).Yields W s →
      (Process.race wins operations here next).Yields W s' → Race.Alike wins s s')
    (h : ∀ s, (Process.race wins operations here next).Yields W s → Decided L W (next s)) :
    Decided L W (.race wins operations here next)

variable {L : δ → Prop} {W : σ → Prop}

theorem Decided.acted {deed : δ} {next : σ → Process δ σ ν ρ κ}
    (h : (Process.act deed next).Decided L W) {w : σ} (hw : W w) : (next w).Decided L W := by
  cases h with
  | act _ h => exact h w hw

theorem Decided.not_deed {deed : δ} {next : σ → Process δ σ ν ρ κ}
    (h : (Process.act deed next).Decided L W) : ¬ L deed := by
  cases h with
  | act hl _ => exact hl

theorem Decided.slept {ms : Nat} {here : ν} {next : Process δ σ ν ρ κ}
    (h : (Process.sleep ms here next).Decided L W) : next.Decided L W := by
  cases h with
  | sleep h => exact h

theorem Decided.body {ms : Nat} {body : Process δ σ ν ρ κ}
    {next : ρ ⊕ ν → Process δ σ ν ρ κ} (h : (Process.timed ms body next).Decided L W) :
    body.Decided L W := by
  cases h with
  | timed hb _ => exact hb

/-- **A process that comes to no block is decided** if it does nothing of that kind. -/
theorem Solo.decided {D : δ → Prop} {K : κ → Prop} {p : Process δ σ ν ρ κ} (h : p.Solo D W K)
    (hD : ∀ d, D d → ¬ L d) : p.Decided L W := by
  induction h with
  | done r => exact .done r
  | crash h => exact .crash _
  | act hd _ ih => exact .act (hD _ hd) ih
  | sleep _ ih => exact .sleep ih

/-! ## Gatherings -/

section Gather

variable {limit : Nat} {stops : ρ → Bool} {operations : List (Process δ σ ν ρ κ)} {here : ν}
  {next : Settled ρ κ → Process δ σ ν ρ κ}

theorem Decided.operation (h : (Process.gather limit stops operations here next).Decided L W) :
    ∀ op ∈ operations, op.Decided L W := by
  cases h with
  | gather hops _ => exact hops

theorem Decided.gathered (h : (Process.gather limit stops operations here next).Decided L W)
    {s : Settled ρ κ} (hs : (Process.gather limit stops operations here next).Yields W s) :
    (next s).Decided L W := by
  cases h with
  | gather _ h => exact h s hs

/-- **What a gathering yields whose operations have one result each**: the same results
whatever the order, or results that agree up to one that stops it. -/
theorem yields_gather (hops : ∀ op ∈ operations, op.Determined W) {s s' : Settled ρ κ}
    (hs : (Process.gather limit stops operations here next).Yields W s)
    (hs' : (Process.gather limit stops operations here next).Yields W s') :
    ∃ results results' : List ρ, s = .finished (Gathering.numbered results)
      ∧ s' = .finished (Gathering.numbered results')
      ∧ (results = results' ∨ ∃ common, (∃ b ∈ common, stops b = true)
          ∧ common <+: results ∧ common <+: results') := by
  obtain ⟨results, hlen, hcomes, hend, rfl⟩ := hs
  obtain ⟨results', hlen', hcomes', hend', rfl⟩ := hs'
  refine ⟨results, results', rfl, rfl, ?_⟩
  -- the shorter ones are the first of the longer ones
  have prefixed : ∀ {rs rs' : List ρ}, rs.length ≤ rs'.length → rs'.length ≤ operations.length →
      (∀ (i : Nat) p b, operations[i]? = some p → rs[i]? = some b → p.Comes W b) →
      (∀ (i : Nat) p b, operations[i]? = some p → rs'[i]? = some b → p.Comes W b) →
      rs <+: rs' := by
    intro rs rs' hle hle' hc hc'
    refine List.prefix_iff_getElem?.mpr fun i hi => ?_
    have hp := List.getElem?_eq_getElem (Nat.lt_of_lt_of_le hi (Nat.le_trans hle hle'))
    have hb := List.getElem?_eq_getElem (Nat.lt_of_lt_of_le hi hle)
    rw [hb, hops _ (List.mem_of_getElem? hp) _ _ (hc i _ _ hp (List.getElem?_eq_getElem hi))
      (hc' i _ _ hp hb)]
  obtain hle | hle := Nat.le_total results.length results'.length
  · have hp := prefixed hle hlen' hcomes hcomes'
    obtain hall | hstop := hend
    · exact .inl (hp.eq_of_length (Nat.le_antisymm hle (hall ▸ hlen')))
    · exact .inr ⟨results, hstop, List.prefix_rfl, hp⟩
  · have hp := prefixed hle hlen hcomes' hcomes
    obtain hall | hstop := hend'
    · exact .inl (hp.eq_of_length (Nat.le_antisymm hle (hall ▸ hlen))).symm
    · exact .inr ⟨results', hstop, hp, List.prefix_rfl⟩

/-- Where nothing stops a gathering, its results are the same. -/
theorem yields_gather_unstopped
    (hops : ∀ op ∈ operations, op.Determined W) {s s' : Settled ρ κ}
    (hs : (Process.gather limit (fun _ => false) operations here next).Yields W s)
    (hs' : (Process.gather limit (fun _ => false) operations here next).Yields W s') :
    s = s' := by
  obtain ⟨results, results', rfl, rfl, rfl | ⟨common, ⟨b, -, hb⟩, -⟩⟩ :=
    yields_gather hops hs hs'
  · rfl
  · cases hb

end Gather

/-! ## One process after another -/

theorem determined_done (r : ρ) : (Process.done r : Process δ σ ν ρ κ).Determined W :=
  fun _ _ h h' => (comes_done.mp h).trans (comes_done.mp h').symm

/-- **Two processes one after the other are decided** if both are. -/
theorem decided_andThen {k : ρ → Process δ σ ν ρ κ} : ∀ {p : Process δ σ ν ρ κ},
    (p.andThen k).Decided L W → p.Decided L W ∧ ∀ r, p.Comes W r → (k r).Decided L W
  | .done r, h => ⟨.done r, fun r' hr => by rwa [comes_done.mp hr]⟩
  | .crash a, _ => ⟨.crash a, fun _ hr => (comes_crash hr).elim⟩
  | .act deed next, h => by
    cases h with
    | act hl h =>
      refine ⟨.act hl fun w hw => (decided_andThen (h w hw)).1, fun r hr => ?_⟩
      obtain ⟨w, hw, hr⟩ := comes_act.mp hr
      exact (decided_andThen (h w hw)).2 r hr
  | .sleep ms here next, h => by
    cases h with
    | sleep h =>
      have hn := decided_andThen (p := next) h
      exact ⟨.sleep hn.1, fun r hr => hn.2 r (comes_sleep.mp hr)⟩
  | .timed ms body next, h => by
    cases h with
    | timed hb h =>
      refine ⟨.timed hb fun b hc => (decided_andThen (h b hc)).1, fun r hr => ?_⟩
      obtain ⟨b, hc, hr⟩ := comes_timed.mp hr
      exact (decided_andThen (h b hc)).2 r hr
  | .gather limit stops operations here next, h => by
    cases h with
    | gather hops h =>
      refine ⟨.gather hops fun s hs => (decided_andThen (h s hs)).1, fun r hr => ?_⟩
      obtain ⟨s, hs, hr⟩ := comes_gather.mp hr
      exact (decided_andThen (h s hs)).2 r hr
  | .race wins operations here next, h => by
    cases h with
    | race hs h =>
      refine ⟨.race hs fun s hy => (decided_andThen (h s hy)).1, fun r hr => ?_⟩
      obtain ⟨s, hy, hr⟩ := comes_race.mp hr
      exact (decided_andThen (h s hy)).2 r hr

theorem Determined.andThen {k : ρ → Process δ σ ν ρ κ} {p : Process δ σ ν ρ κ}
    (hp : p.Determined W) (hk : ∀ r, p.Comes W r → (k r).Determined W) :
    (p.andThen k).Determined W := by
  intro r r' hr hr'
  obtain ⟨b, hb, hr⟩ := comes_andThen.mp hr
  obtain ⟨b', hb', hr'⟩ := comes_andThen.mp hr'
  cases hp b b' hb hb'
  exact hk b hb r r' hr hr'

end Process

end Playbook
