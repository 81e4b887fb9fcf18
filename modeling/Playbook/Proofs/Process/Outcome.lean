import Playbook.Proofs.Process.Fate

/-!
# What a process comes to by itself

A run of a process on a machine is mixed with the runs of other processes. Here is
what the process comes to without them, and without a machine:
`Process.Comes W p r` says that `p` can end with `r` if no time limit passes and
nothing crashes. The worlds that the process looks at are any worlds in `W`, the
operations of a gathering come to their results each by itself, and those of a race
settle in any order.

`Process.comes_andThen` splits what two processes one after the other come to. That a
machine gives no other results is shown in `Playbook.Proofs.Process.Result`.
-/

namespace Playbook

variable {δ σ ν ρ κ : Type}

/-- The settlements of operations that have ended with results. -/
abbrev Settled.finished (results : List (Nat × ρ)) : Settled ρ κ :=
  results.map fun e => (e.1, .finished e.2)

namespace Process

/-- **What a process comes to by itself.** The operations of a gathering that have been
started are the first ones, and those are all unless a result has stopped it. -/
inductive Comes (W : σ → Prop) : Process δ σ ν ρ κ → ρ → Prop
  | done (r : ρ) : Comes W (.done r) r
  | act {deed : δ} {next : σ → Process δ σ ν ρ κ} {r} (w : σ) (hw : W w)
    (h : Comes W (next w) r) : Comes W (.act deed next) r
  | sleep {ms here next r} (h : Comes W next r) : Comes W (.sleep ms here next) r
  | timed {ms body next b r} (hb : Comes W body b) (h : Comes W (next (.inl b)) r) :
    Comes W (.timed ms body next) r
  | gather {limit stops operations here next r} (results : List ρ)
    (hlen : results.length ≤ operations.length)
    (hops : ∀ (i : Nat) p b, operations[i]? = some p → results[i]? = some b → Comes W p b)
    (hend : results.length = operations.length ∨ ∃ b ∈ results, stops b = true)
    (h : Comes W (next (.finished (Gathering.numbered results))) r) :
    Comes W (.gather limit stops operations here next) r
  | race {wins operations here next r s} (results : List (Nat × ρ))
    (hnodup : (results.map Prod.fst).Nodup) (hlt : ∀ e ∈ results, e.1 < operations.length)
    (hops : ∀ e ∈ results, ∀ p, operations[e.1]? = some p → Comes W p e.2)
    (hs : (Race.mk (κ := κ) wins operations.length (.finished results)).result? = some s)
    (h : Comes W (next s) r) : Comes W (.race wins operations here next) r

/-- **What a block yields by itself.** -/
def Yields (W : σ → Prop) : Process δ σ ν ρ κ → Settled ρ κ → Prop
  | .gather _ stops operations _ _, s => ∃ results : List ρ,
    results.length ≤ operations.length
      ∧ (∀ (i : Nat) p b, operations[i]? = some p → results[i]? = some b → p.Comes W b)
      ∧ (results.length = operations.length ∨ ∃ b ∈ results, stops b = true)
      ∧ s = .finished (Gathering.numbered results)
  | .race wins operations _ _, s => ∃ results : List (Nat × ρ),
    (results.map Prod.fst).Nodup ∧ (∀ e ∈ results, e.1 < operations.length)
      ∧ (∀ e ∈ results, ∀ p, operations[e.1]? = some p → p.Comes W e.2)
      ∧ (Race.mk (κ := κ) wins operations.length (.finished results)).result? = some s
  | _, _ => False

variable {W : σ → Prop}

@[simp] theorem comes_done {r b : ρ} :
    (Process.done b : Process δ σ ν ρ κ).Comes W r ↔ r = b := by
  constructor
  · rintro ⟨⟩
    rfl
  · rintro rfl
    exact .done r

@[simp] theorem comes_crash {a : κ} {r : ρ} :
    ¬ (Process.crash a : Process δ σ ν ρ κ).Comes W r :=
  nofun

theorem comes_act {deed : δ} {next : σ → Process δ σ ν ρ κ} {r : ρ} :
    (Process.act deed next).Comes W r ↔ ∃ w, W w ∧ (next w).Comes W r := by
  constructor
  · rintro (_ | ⟨w, hw, h⟩)
    exact ⟨w, hw, h⟩
  · rintro ⟨w, hw, h⟩
    exact .act w hw h

@[simp] theorem comes_sleep {ms : Nat} {here : ν} {next : Process δ σ ν ρ κ} {r : ρ} :
    (Process.sleep ms here next).Comes W r ↔ next.Comes W r := by
  constructor
  · rintro (_ | _ | h)
    exact h
  · exact .sleep

theorem comes_timed {ms : Nat} {body : Process δ σ ν ρ κ}
    {next : ρ ⊕ ν → Process δ σ ν ρ κ} {r : ρ} :
    (Process.timed ms body next).Comes W r
      ↔ ∃ b, body.Comes W b ∧ (next (.inl b)).Comes W r := by
  constructor
  · rintro (_ | _ | _ | ⟨hb, h⟩)
    exact ⟨_, hb, h⟩
  · rintro ⟨b, hb, h⟩
    exact .timed hb h

theorem comes_gather {limit : Nat} {stops : ρ → Bool} {operations : List (Process δ σ ν ρ κ)}
    {here : ν} {next : Settled ρ κ → Process δ σ ν ρ κ} {r : ρ} :
    (Process.gather limit stops operations here next).Comes W r
      ↔ ∃ s, (Process.gather limit stops operations here next).Yields W s
        ∧ (next s).Comes W r := by
  constructor
  · intro h
    cases h with
    | gather results hlen hops hend h => exact ⟨_, ⟨results, hlen, hops, hend, rfl⟩, h⟩
  · rintro ⟨s, ⟨results, hlen, hops, hend, rfl⟩, h⟩
    exact .gather results hlen hops hend h

theorem comes_race {wins : ρ → Bool} {operations : List (Process δ σ ν ρ κ)}
    {here : ν} {next : Settled ρ κ → Process δ σ ν ρ κ} {r : ρ} :
    (Process.race wins operations here next).Comes W r
      ↔ ∃ s, (Process.race wins operations here next).Yields W s ∧ (next s).Comes W r := by
  constructor
  · intro h
    cases h with
    | race results hnodup hlt hops hs h => exact ⟨_, ⟨results, hnodup, hlt, hops, hs⟩, h⟩
  · rintro ⟨s, ⟨results, hnodup, hlt, hops, hs⟩, h⟩
    exact .race results hnodup hlt hops hs h

/-- **What two processes come to one after the other** is what the second comes to
after a result of the first. -/
theorem comes_andThen {k : ρ → Process δ σ ν ρ κ} {r : ρ} :
    ∀ {p : Process δ σ ν ρ κ},
      (p.andThen k).Comes W r ↔ ∃ b, p.Comes W b ∧ (k b).Comes W r
  | .done b => by
    refine ⟨fun h => ⟨b, .done b, h⟩, ?_⟩
    rintro ⟨b', hb, h⟩
    rwa [comes_done.mp hb] at h
  | .crash a => ⟨fun h => (comes_crash h).elim, fun ⟨_, h, _⟩ => (comes_crash h).elim⟩
  | .act deed next => by
    have ih := fun w => comes_andThen (k := k) (r := r) (p := next w)
    constructor
    · intro h
      obtain ⟨w, hw, h⟩ := comes_act.mp h
      obtain ⟨b, hb, h⟩ := (ih w).mp h
      exact ⟨b, .act w hw hb, h⟩
    · rintro ⟨b, hb, h⟩
      obtain ⟨w, hw, hb⟩ := comes_act.mp hb
      exact .act w hw ((ih w).mpr ⟨b, hb, h⟩)
  | .sleep ms here next => by
    have ih := comes_andThen (k := k) (r := r) (p := next)
    show (Process.sleep ms here (next.andThen k)).Comes W r ↔ _
    rw [comes_sleep, ih]
    simp only [comes_sleep]
  | .timed ms body next => by
    have ih := fun x => comes_andThen (k := k) (r := r) (p := next x)
    constructor
    · intro h
      obtain ⟨c, hc, h⟩ := comes_timed.mp h
      obtain ⟨b, hb, h⟩ := (ih _).mp h
      exact ⟨b, .timed hc hb, h⟩
    · rintro ⟨b, hb, h⟩
      obtain ⟨c, hc, hb⟩ := comes_timed.mp hb
      exact .timed hc ((ih _).mpr ⟨b, hb, h⟩)
  | .gather limit stops operations here next => by
    have ih := fun s => comes_andThen (k := k) (r := r) (p := next s)
    constructor
    · intro h
      obtain ⟨s, hs, h⟩ := comes_gather.mp h
      obtain ⟨b, hb, h⟩ := (ih s).mp h
      exact ⟨b, comes_gather.mpr ⟨s, hs, hb⟩, h⟩
    · rintro ⟨b, hb, h⟩
      obtain ⟨s, hs, hb⟩ := comes_gather.mp hb
      exact comes_gather.mpr ⟨s, hs, (ih s).mpr ⟨b, hb, h⟩⟩
  | .race wins operations here next => by
    have ih := fun s => comes_andThen (k := k) (r := r) (p := next s)
    constructor
    · intro h
      obtain ⟨s, hs, h⟩ := comes_race.mp h
      obtain ⟨b, hb, h⟩ := (ih s).mp h
      exact ⟨b, comes_race.mpr ⟨s, hs, hb⟩, h⟩
    · rintro ⟨b, hb, h⟩
      obtain ⟨s, hs, hb⟩ := comes_race.mp hb
      exact comes_race.mpr ⟨s, hs, (ih s).mpr ⟨b, hb, h⟩⟩

end Process

end Playbook
