import Playbook.Proofs.Process.Reach

/-!
# What is left of a process

`Process.Reaches` tells a run of a process by where its task is in the end.
`Process.Runs` tells it at any moment: by the deeds that have been done and by what
is left of the process behind them. A run is over when only a result is left, it has
crashed when a crash is left, and otherwise it can go on. So what holds of everything
that a process runs through holds of every run, also of one that never ends. Runs in which
a time limit has passed do not belong to the relation. What tasks do in a machine are runs of
their processes (`Moment.Later.runs_of_ended`).

A run of two processes one after the other is a run of the first and then one of the
second (`runs_andThen`). A process can stand first in others, behind any number of time
limits and before any number of continuations; that is told by `Process.Context`, and a
run of the whole is then a run of that process first (`Context.runs_inv`).
-/

namespace Playbook

variable {δ σ ν ρ κ : Type}

namespace Process

/-- **A run of a process up to any moment**: the deeds that its task has done by itself,
and what is left of it. No time limit has passed. -/
inductive Runs : Process δ σ ν ρ κ → List δ → Process δ σ ν ρ κ → Prop
  | refl {p} : Runs p [] p
  | act {deed : δ} {next : σ → Process δ σ ν ρ κ} {t q} (w : σ)
      (h : Runs (next w) t q) : Runs (.act deed next) (deed :: t) q
  | slept {ms here next t q} (h : Runs next t q) : Runs (.sleep ms here next) t q
  | limited {ms body next t q} (h : Runs body t q) :
      Runs (.timed ms body next) t (.timed ms q next)
  | inTime {ms body next t r u q} (hb : Runs body t (.done r))
      (hn : Runs (next (.inl r)) u q) : Runs (.timed ms body next) (t ++ u) q
  | gathered {limit stops operations here next t q} (s : Settled ρ κ)
      (h : Runs (next s) t q) : Runs (.gather limit stops operations here next) t q
  | raced {wins operations here next t q} (s : Settled ρ κ) (h : Runs (next s) t q) :
      Runs (.race wins operations here next) t q

/-- A process that has ended with a result. -/
def Ended (p : Process δ σ ν ρ κ) : Prop :=
  ∃ r, p = .done r

@[simp] theorem runs_done {r : ρ} {t : List δ} {q : Process δ σ ν ρ κ} :
    (Process.done r : Process δ σ ν ρ κ).Runs t q ↔ t = [] ∧ q = .done r := by
  constructor
  · rintro ⟨⟩
    exact ⟨rfl, rfl⟩
  · rintro ⟨rfl, rfl⟩
    exact .refl

@[simp] theorem runs_crash {a : κ} {t : List δ} {q : Process δ σ ν ρ κ} :
    (Process.crash a : Process δ σ ν ρ κ).Runs t q ↔ t = [] ∧ q = .crash a := by
  constructor
  · rintro ⟨⟩
    exact ⟨rfl, rfl⟩
  · rintro ⟨rfl, rfl⟩
    exact .refl

theorem runs_act {deed : δ} {next : σ → Process δ σ ν ρ κ} {t : List δ}
    {q : Process δ σ ν ρ κ} :
    (Process.act deed next).Runs t q
      ↔ (t = [] ∧ q = .act deed next) ∨ ∃ u w, t = deed :: u ∧ (next w).Runs u q := by
  constructor
  · rintro (_ | ⟨w, h⟩)
    · exact .inl ⟨rfl, rfl⟩
    · exact .inr ⟨_, w, rfl, h⟩
  · rintro (⟨rfl, rfl⟩ | ⟨u, w, rfl, h⟩)
    · exact .refl
    · exact .act w h

/-- A run goes on. -/
theorem Runs.trans {p q r : Process δ σ ν ρ κ} {t u : List δ} (h : p.Runs t q)
    (h' : q.Runs u r) : p.Runs (t ++ u) r := by
  induction h generalizing u r with
  | refl => exact h'
  | act w _ ih => exact .act w (ih h')
  | slept _ ih => exact .slept (ih h')
  | limited h ih =>
    cases h' with
    | refl =>
      rw [List.append_nil]
      exact .limited h
    | limited h' => exact .limited (ih h')
    | inTime hb hn =>
      rw [← List.append_assoc]
      exact .inTime (ih hb) hn
  | inTime hb _ _ ih =>
    rw [List.append_assoc]
    exact .inTime hb (ih h')
  | gathered s _ ih => exact .gathered s (ih h')
  | raced s _ ih => exact .raced s (ih h')

/-! ## One process after another -/

theorem not_ended_andThen {p : Process δ σ ν ρ κ} {k : ρ → Process δ σ ν ρ κ}
    (h : ¬ p.Ended) : ¬ (p.andThen k).Ended := by
  rintro ⟨r, hr⟩
  cases p with
  | done r => exact h ⟨r, rfl⟩
  | _ => cases hr

/-- **A run of two processes one after the other** is still in the first, or is a run of
the first to its end and then one of the second. -/
theorem runs_andThen {k : ρ → Process δ σ ν ρ κ} :
    ∀ {p q : Process δ σ ν ρ κ} {t : List δ}, (p.andThen k).Runs t q →
      (∃ q', q = q'.andThen k ∧ p.Runs t q' ∧ ¬ q'.Ended)
        ∨ ∃ t₁ t₂ r, t = t₁ ++ t₂ ∧ p.Runs t₁ (.done r) ∧ (k r).Runs t₂ q
  | .done r, _, t, h => .inr ⟨[], t, r, rfl, .refl, h⟩
  | .crash a, _, _, h => by
    obtain ⟨rfl, rfl⟩ := runs_crash.mp h
    exact .inl ⟨.crash a, rfl, .refl, nofun⟩
  | .act deed next, _, _, h => by
    obtain ⟨rfl, rfl⟩ | ⟨u, w, rfl, hn⟩ := runs_act.mp h
    · exact .inl ⟨.act deed next, rfl, .refl, nofun⟩
    · obtain ⟨q', hq, hp, he⟩ | ⟨t₁, t₂, r, rfl, hp, hk⟩ := runs_andThen (p := next w) hn
      · exact .inl ⟨q', hq, .act w hp, he⟩
      · exact .inr ⟨deed :: t₁, t₂, r, rfl, .act w hp, hk⟩
  | .sleep ms here next, _, _, h => by
    cases h with
    | refl => exact .inl ⟨.sleep ms here next, rfl, .refl, nofun⟩
    | slept h =>
      obtain ⟨q', hq, hp, he⟩ | ⟨t₁, t₂, r, ht, hp, hk⟩ := runs_andThen (p := next) h
      · exact .inl ⟨q', hq, .slept hp, he⟩
      · exact .inr ⟨t₁, t₂, r, ht, .slept hp, hk⟩
  | .timed ms body next, _, _, h => by
    cases h with
    | refl => exact .inl ⟨.timed ms body next, rfl, .refl, nofun⟩
    | limited h => exact .inl ⟨.timed ms _ next, rfl, .limited h, nofun⟩
    | @inTime _ _ _ _ r _ _ hb hn =>
      obtain ⟨q', hq, hp, he⟩ | ⟨t₁, t₂, r, rfl, hp, hk⟩ :=
        runs_andThen (p := next (.inl r)) hn
      · exact .inl ⟨q', hq, .inTime hb hp, he⟩
      · exact .inr ⟨_, t₂, r, (List.append_assoc ..).symm, .inTime hb hp, hk⟩
  | .gather limit stops operations here next, _, _, h => by
    cases h with
    | refl => exact .inl ⟨.gather limit stops operations here next, rfl, .refl, nofun⟩
    | gathered s h =>
      obtain ⟨q', hq, hp, he⟩ | ⟨t₁, t₂, r, ht, hp, hk⟩ := runs_andThen (p := next s) h
      · exact .inl ⟨q', hq, .gathered s hp, he⟩
      · exact .inr ⟨t₁, t₂, r, ht, .gathered s hp, hk⟩
  | .race wins operations here next, _, _, h => by
    cases h with
    | refl => exact .inl ⟨.race wins operations here next, rfl, .refl, nofun⟩
    | raced s h =>
      obtain ⟨q', hq, hp, he⟩ | ⟨t₁, t₂, r, ht, hp, hk⟩ := runs_andThen (p := next s) h
      · exact .inl ⟨q', hq, .raced s hp, he⟩
      · exact .inr ⟨t₁, t₂, r, ht, .raced s hp, hk⟩

/-- What follows a process follows what is left of it. -/
theorem Runs.before {p q : Process δ σ ν ρ κ} {t : List δ} (h : p.Runs t q)
    (k : ρ → Process δ σ ν ρ κ) : (p.andThen k).Runs t (q.andThen k) := by
  induction h with
  | refl => exact .refl
  | act w _ ih => exact .act w ih
  | slept _ ih => exact .slept ih
  | limited h _ => exact .limited h
  | inTime hb _ _ ih => exact .inTime hb ih
  | gathered s _ ih => exact .gathered s ih
  | raced s _ ih => exact .raced s ih

/-- A run of a process to its end goes on with a run of what follows. -/
theorem Runs.andThen {p q : Process δ σ ν ρ κ} {k : ρ → Process δ σ ν ρ κ}
    {t u : List δ} {r : ρ} (h : p.Runs t (.done r)) (hk : (k r).Runs u q) :
    (p.andThen k).Runs (t ++ u) q :=
  (h.before k).trans hk

/-! ## Processes that stand first in others -/

/-- **What can be around a process that stands first**: continuations behind it, and time
limits. -/
inductive Context : (Process δ σ ν ρ κ → Process δ σ ν ρ κ) → Prop
  | here : Context fun x => x
  | andThen {c} (h : Context c) (k : ρ → Process δ σ ν ρ κ) :
      Context fun x => (c x).andThen k
  | timed {c} (h : Context c) (ms : Nat) (next : ρ ⊕ ν → Process δ σ ν ρ κ) :
      Context fun x => .timed ms (c x) next

namespace Context

variable {c : Process δ σ ν ρ κ → Process δ σ ν ρ κ} {p q : Process δ σ ν ρ κ} {t : List δ}

/-- What stands first has come to its end if the whole has. -/
theorem ended (hc : Context c) (h : (c p).Ended) : p.Ended := by
  induction hc with
  | here => exact h
  | andThen _ k ih => exact ih (Classical.byContradiction fun hn => not_ended_andThen hn h)
  | timed _ ms next _ =>
    obtain ⟨r, hr⟩ := h
    cases hr

/-- **A run of the whole** is still in what stands first, or is a run of that to its end
and then goes on from there. -/
theorem runs_inv (hc : Context c) (h : (c p).Runs t q) :
    (∃ q', q = c q' ∧ p.Runs t q' ∧ ¬ q'.Ended)
      ∨ ∃ t₁ t₂ r, t = t₁ ++ t₂ ∧ p.Runs t₁ (.done r) ∧ (c (.done r)).Runs t₂ q := by
  induction hc generalizing t q with
  | here =>
    by_cases he : q.Ended
    · obtain ⟨r, rfl⟩ := he
      exact .inr ⟨t, [], r, (List.append_nil t).symm, h, .refl⟩
    · exact .inl ⟨q, rfl, h, he⟩
  | andThen _ k ih =>
    obtain ⟨q', rfl, h, -⟩ | ⟨t₁, t₂, r, rfl, h, hk⟩ := runs_andThen h
    · obtain ⟨q₀, rfl, hp, he⟩ | ⟨u₁, u₂, r, rfl, hp, hr⟩ := ih h
      · exact .inl ⟨q₀, rfl, hp, he⟩
      · exact .inr ⟨u₁, u₂, r, rfl, hp, hr.before k⟩
    · obtain ⟨q₀, hq, -, he⟩ | ⟨u₁, u₂, r', rfl, hp, hr⟩ := ih h
      · exact absurd (ended ‹_› ⟨r, hq.symm⟩) he
      · exact .inr ⟨u₁, u₂ ++ t₂, r', List.append_assoc .., hp, hr.andThen hk⟩
  | timed hc ms next ih =>
    cases h with
    | refl =>
      by_cases he : p.Ended
      · obtain ⟨r, rfl⟩ := he
        exact .inr ⟨[], [], r, rfl, .refl, .refl⟩
      · exact .inl ⟨p, rfl, .refl, he⟩
    | limited h =>
      obtain ⟨q₀, rfl, hp, he⟩ | ⟨u₁, u₂, r, rfl, hp, hr⟩ := ih h
      · exact .inl ⟨q₀, rfl, hp, he⟩
      · exact .inr ⟨u₁, u₂, r, rfl, hp, .limited hr⟩
    | inTime hb hn =>
      obtain ⟨q₀, hq, -, he⟩ | ⟨u₁, u₂, r', rfl, hp, hr⟩ := ih hb
      · exact absurd (ended hc ⟨_, hq.symm⟩) he
      · exact .inr ⟨u₁, u₂ ++ _, r', List.append_assoc .., hp, .inTime hr hn⟩

end Context

end Process

end Playbook
