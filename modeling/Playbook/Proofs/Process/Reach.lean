import Playbook.Process

/-!
# What processes reach

A run of a process is what its task does by itself, whatever the world is
each time it looks and whatever the operations of its blocks come to. It
is told by the deeds done so far and by where the task is then: at its end,
with a result, or at a place where it waits, with what it has to itself.
`Process.Reaches` is that relation. The deeds of the operations of a block
do not belong to the run, since they are done by tasks of their own;
`Process.Performs` is the relation that has them too.

Nothing here depends on a machine or on the order in which tasks have
their turns, so what holds of everything that a process reaches holds
under every schedule. The main statements split a run of `p.andThen k` into
one of `p` and one of a continuation (`reaches_andThen`,
`performs_andThen`). `Process.Obeys` says of a process that all its deeds
and all its places are good ones; it has a rule for each kind of node, and
one for `andThen` (`Obeys.andThen`).
-/

namespace Playbook

namespace Process

variable {δ σ ν ρ κ : Type}

/-- **What a run of a process reaches**: its own deeds up to a place, and
the place – its end or a place where it waits. A limited process that is
cut off goes on from where its body waits. -/
inductive Reaches : Process δ σ ν ρ κ → List δ → ρ ⊕ ν → Prop
  | done (r : ρ) : Reaches (.done r) [] (.inl r)
  | act {deed : δ} {next : σ → Process δ σ ν ρ κ} {t e} (w : σ)
      (h : Reaches (next w) t e) : Reaches (.act deed next) (deed :: t) e
  | asleep {ms here next} : Reaches (.sleep ms here next) [] (.inr here)
  | slept {ms here next t e} (h : Reaches next t e) :
      Reaches (.sleep ms here next) t e
  | limited {ms body next t v} (h : Reaches body t (.inr v)) :
      Reaches (.timed ms body next) t (.inr v)
  | timed {ms body next t x u e} (hb : Reaches body t x)
      (hn : Reaches (next x) u e) : Reaches (.timed ms body next) (t ++ u) e
  | gathering {limit stops operations here next} :
      Reaches (.gather limit stops operations here next) [] (.inr here)
  | gathered {limit stops operations here next t e} (s : Settled ρ κ)
      (h : Reaches (next s) t e) :
      Reaches (.gather limit stops operations here next) t e
  | racing {wins operations here next} :
      Reaches (.race wins operations here next) [] (.inr here)
  | raced {wins operations here next t e} (s : Settled ρ κ)
      (h : Reaches (next s) t e) :
      Reaches (.race wins operations here next) t e

/-- **What can be done in a run of a process**, by its own task or by an
operation of one of its blocks, at any depth of nesting. -/
inductive Performs : Process δ σ ν ρ κ → δ → Prop
  | act {deed : δ} {next : σ → Process δ σ ν ρ κ} :
      Performs (.act deed next) deed
  | acted {deed : δ} {next : σ → Process δ σ ν ρ κ} {d} (w : σ)
      (h : Performs (next w) d) : Performs (.act deed next) d
  | slept {ms here next d} (h : Performs next d) :
      Performs (.sleep ms here next) d
  | body {ms body next d} (h : Performs body d) :
      Performs (.timed ms body next) d
  | timed {ms body next t x d} (hb : Reaches body t x)
      (hn : Performs (next x) d) : Performs (.timed ms body next) d
  | operation {limit stops operations here next op d}
      (hop : op ∈ operations) (h : Performs op d) :
      Performs (.gather limit stops operations here next) d
  | gathered {limit stops operations here next d} (s : Settled ρ κ)
      (h : Performs (next s) d) :
      Performs (.gather limit stops operations here next) d
  | competitor {wins operations here next op d} (hop : op ∈ operations)
      (h : Performs op d) : Performs (.race wins operations here next) d
  | raced {wins operations here next d} (s : Settled ρ κ)
      (h : Performs (next s) d) :
      Performs (.race wins operations here next) d

/-! ## Single nodes -/

@[simp] theorem reaches_done {r : ρ} {t : List δ} {e : ρ ⊕ ν} :
    (Process.done r : Process δ σ ν ρ κ).Reaches t e ↔ t = [] ∧ e = .inl r := by
  constructor
  · rintro ⟨⟩
    exact ⟨rfl, rfl⟩
  · rintro ⟨rfl, rfl⟩
    exact .done r

@[simp] theorem reaches_crash {a : κ} {t : List δ} {e : ρ ⊕ ν} :
    ¬ (Process.crash a : Process δ σ ν ρ κ).Reaches t e :=
  nofun

@[simp] theorem performs_done {r : ρ} {d : δ} :
    ¬ (Process.done r : Process δ σ ν ρ κ).Performs d :=
  nofun

@[simp] theorem performs_crash {a : κ} {d : δ} :
    ¬ (Process.crash a : Process δ σ ν ρ κ).Performs d :=
  nofun

/-- A process that does something has done it wherever its task is. -/
theorem reaches_act {deed : δ} {next : σ → Process δ σ ν ρ κ}
    {t : List δ} {e : ρ ⊕ ν} :
    (Process.act deed next).Reaches t e
      ↔ ∃ u w, t = deed :: u ∧ (next w).Reaches u e := by
  constructor
  · rintro (_ | ⟨w, h⟩)
    exact ⟨_, w, rfl, h⟩
  · rintro ⟨u, w, rfl, h⟩
    exact .act w h

theorem performs_act {deed d : δ} {next : σ → Process δ σ ν ρ κ} :
    (Process.act deed next).Performs d
      ↔ d = deed ∨ ∃ w, (next w).Performs d := by
  constructor
  · rintro (_ | ⟨w, h⟩)
    · exact .inl rfl
    · exact .inr ⟨w, h⟩
  · rintro (rfl | ⟨w, h⟩)
    · exact .act
    · exact .acted w h

/-! ## One process after another -/

/-- **A run of two processes one after the other** is still in the first,
waiting, or is a run of the first to its end and then one of the second. -/
theorem reaches_andThen {k : ρ → Process δ σ ν ρ κ} :
    ∀ {p : Process δ σ ν ρ κ} {t : List δ} {e : ρ ⊕ ν},
      (p.andThen k).Reaches t e →
      (∃ v, e = .inr v ∧ p.Reaches t (.inr v))
        ∨ ∃ t₁ t₂ r, t = t₁ ++ t₂ ∧ p.Reaches t₁ (.inl r)
          ∧ (k r).Reaches t₂ e
  | .done r, t, _, h => .inr ⟨[], t, r, rfl, .done r, h⟩
  | .crash _, _, _, h => (reaches_crash h).elim
  | .act deed next, _, _, h => by
    cases h with
    | act w hn =>
      obtain ⟨v, he, hp⟩ | ⟨t₁, t₂, r, ht, hp, hk⟩ := reaches_andThen (p := next w) hn
      · exact .inl ⟨v, he, .act w hp⟩
      · exact .inr ⟨deed :: t₁, t₂, r, by rw [ht, List.cons_append], .act w hp, hk⟩
  | .sleep ms here next, _, _, h => by
    cases h with
    | asleep => exact .inl ⟨here, rfl, .asleep⟩
    | slept hn =>
      obtain ⟨v, he, hp⟩ | ⟨t₁, t₂, r, ht, hp, hk⟩ := reaches_andThen (p := next) hn
      · exact .inl ⟨v, he, .slept hp⟩
      · exact .inr ⟨t₁, t₂, r, ht, .slept hp, hk⟩
  | .timed ms body next, _, _, h => by
    cases h with
    | limited hb => exact .inl ⟨_, rfl, .limited hb⟩
    | @timed _ _ _ _ x _ _ hb hn =>
      obtain ⟨v, he, hp⟩ | ⟨t₁, t₂, r, ht, hp, hk⟩ := reaches_andThen (p := next x) hn
      · exact .inl ⟨v, he, .timed hb hp⟩
      · exact .inr ⟨_, t₂, r, by rw [ht, List.append_assoc], .timed hb hp, hk⟩
  | .gather limit stops operations here next, _, _, h => by
    cases h with
    | gathering => exact .inl ⟨here, rfl, .gathering⟩
    | gathered s hn =>
      obtain ⟨v, he, hp⟩ | ⟨t₁, t₂, r, ht, hp, hk⟩ := reaches_andThen (p := next s) hn
      · exact .inl ⟨v, he, .gathered s hp⟩
      · exact .inr ⟨t₁, t₂, r, ht, .gathered s hp, hk⟩
  | .race wins operations here next, _, _, h => by
    cases h with
    | racing => exact .inl ⟨here, rfl, .racing⟩
    | raced s hn =>
      obtain ⟨v, he, hp⟩ | ⟨t₁, t₂, r, ht, hp, hk⟩ := reaches_andThen (p := next s) hn
      · exact .inl ⟨v, he, .raced s hp⟩
      · exact .inr ⟨t₁, t₂, r, ht, .raced s hp, hk⟩

/-- A run of a process to its end goes on with a run of what follows. -/
theorem Reaches.andThen {k : ρ → Process δ σ ν ρ κ} {r : ρ} {u : List δ}
    {e : ρ ⊕ ν} (hk : (k r).Reaches u e) :
    ∀ {p : Process δ σ ν ρ κ} {t : List δ}, p.Reaches t (.inl r) →
      (p.andThen k).Reaches (t ++ u) e
  | .done _, _, h => by
    obtain ⟨rfl, hr⟩ := reaches_done.mp h
    rw [← Sum.inl.inj hr]
    exact hk
  | .crash _, _, h => (reaches_crash h).elim
  | .act deed next, _, h => by
    obtain ⟨t, w, rfl, hn⟩ := reaches_act.mp h
    exact .act w (Reaches.andThen hk (p := next w) hn)
  | .sleep ms here next, _, h => by
    cases h with
    | slept hn => exact .slept (Reaches.andThen hk (p := next) hn)
  | .timed ms body next, _, h => by
    cases h with
    | @timed _ _ _ t x t' _ hb hn =>
      rw [List.append_assoc]
      exact .timed hb (Reaches.andThen hk (p := next x) hn)
  | .gather limit stops operations here next, _, h => by
    cases h with
    | gathered s hn => exact .gathered s (Reaches.andThen hk (p := next s) hn)
  | .race wins operations here next, _, h => by
    cases h with
    | raced s hn => exact .raced s (Reaches.andThen hk (p := next s) hn)

/-- What two processes one after the other can do is done by the first, or
by the second behind a run of the first to its end. -/
theorem performs_andThen {k : ρ → Process δ σ ν ρ κ} :
    ∀ {p : Process δ σ ν ρ κ} {d : δ}, (p.andThen k).Performs d →
      p.Performs d ∨ ∃ t r, p.Reaches t (.inl r) ∧ (k r).Performs d
  | .done r, _, h => .inr ⟨[], r, .done r, h⟩
  | .crash _, _, h => (performs_crash h).elim
  | .act deed next, _, h => by
    cases h with
    | act => exact .inl .act
    | acted w hn =>
      obtain hp | ⟨t, r, hp, hk⟩ := performs_andThen (p := next w) hn
      · exact .inl (.acted w hp)
      · exact .inr ⟨deed :: t, r, .act w hp, hk⟩
  | .sleep ms here next, _, h => by
    cases h with
    | slept hn =>
      obtain hp | ⟨t, r, hp, hk⟩ := performs_andThen (p := next) hn
      · exact .inl (.slept hp)
      · exact .inr ⟨t, r, .slept hp, hk⟩
  | .timed ms body next, _, h => by
    cases h with
    | body hb => exact .inl (.body hb)
    | @timed _ _ _ _ x _ hb hn =>
      obtain hp | ⟨t, r, hp, hk⟩ := performs_andThen (p := next x) hn
      · exact .inl (.timed hb hp)
      · exact .inr ⟨_, r, .timed hb hp, hk⟩
  | .gather limit stops operations here next, _, h => by
    cases h with
    | operation hop h => exact .inl (.operation hop h)
    | gathered s hn =>
      obtain hp | ⟨t, r, hp, hk⟩ := performs_andThen (p := next s) hn
      · exact .inl (.gathered s hp)
      · exact .inr ⟨t, r, .gathered s hp, hk⟩
  | .race wins operations here next, _, h => by
    cases h with
    | competitor hop h => exact .inl (.competitor hop h)
    | raced s hn =>
      obtain hp | ⟨t, r, hp, hk⟩ := performs_andThen (p := next s) hn
      · exact .inl (.raced s hp)
      · exact .inr ⟨t, r, .raced s hp, hk⟩

/-! ## What holds of all runs -/

/-- **All runs of a process are good**: whatever can be done in one is a
good deed, and wherever its task can be is a good place. -/
structure Obeys (D : δ → Prop) (Q : ρ ⊕ ν → Prop)
    (p : Process δ σ ν ρ κ) : Prop where
  deeds : ∀ d, p.Performs d → D d
  places : ∀ t e, p.Reaches t e → Q e

variable {D : δ → Prop} {Q : ρ ⊕ ν → Prop}

theorem Obeys.imp {Q' : ρ ⊕ ν → Prop} {p : Process δ σ ν ρ κ}
    (h : p.Obeys D Q) (hQ : ∀ e, Q e → Q' e) : p.Obeys D Q' :=
  ⟨h.deeds, fun t e he => hQ e (h.places t e he)⟩

@[simp] theorem obeys_done {r : ρ} :
    (Process.done r : Process δ σ ν ρ κ).Obeys D Q ↔ Q (.inl r) := by
  constructor
  · exact fun h => h.places [] _ (.done r)
  · intro h
    refine ⟨fun d hd => (performs_done hd).elim, fun t e he => ?_⟩
    obtain ⟨-, rfl⟩ := reaches_done.mp he
    exact h

@[simp] theorem obeys_crash {a : κ} :
    (Process.crash a : Process δ σ ν ρ κ).Obeys D Q :=
  ⟨fun _ hd => (performs_crash hd).elim, fun _ _ he => (reaches_crash he).elim⟩

@[simp] theorem obeys_act {deed : δ} {next : σ → Process δ σ ν ρ κ} :
    (Process.act deed next).Obeys D Q
      ↔ D deed ∧ ∀ w, (next w).Obeys D Q := by
  constructor
  · exact fun h => ⟨h.deeds _ .act, fun w =>
      ⟨fun d hd => h.deeds d (.acted w hd),
        fun t e he => h.places _ e (.act w he)⟩⟩
  · rintro ⟨hd, hn⟩
    refine ⟨fun d h => ?_, fun t e h => ?_⟩
    · obtain rfl | ⟨w, h⟩ := performs_act.mp h
      · exact hd
      · exact (hn w).deeds d h
    · obtain ⟨u, w, -, h⟩ := reaches_act.mp h
      exact (hn w).places u e h

@[simp] theorem obeys_sleep {ms : Nat} {here : ν} {next : Process δ σ ν ρ κ} :
    (Process.sleep ms here next).Obeys D Q
      ↔ Q (.inr here) ∧ next.Obeys D Q := by
  constructor
  · exact fun h => ⟨h.places [] _ .asleep,
      fun d hd => h.deeds d (.slept hd), fun t e he => h.places t e (.slept he)⟩
  · rintro ⟨hq, hn⟩
    refine ⟨fun d h => ?_, fun t e h => ?_⟩
    · cases h with
      | slept h => exact hn.deeds d h
    · cases h with
      | asleep => exact hq
      | slept h => exact hn.places t e h

/-- A limited process goes on from the end of its body or from any place
where it can be cut off. -/
@[simp] theorem obeys_timed {ms : Nat} {body : Process δ σ ν ρ κ}
    {next : ρ ⊕ ν → Process δ σ ν ρ κ} :
    (Process.timed ms body next).Obeys D Q
      ↔ body.Obeys D (Sum.elim (fun r => (next (.inl r)).Obeys D Q)
          fun v => Q (.inr v) ∧ (next (.inr v)).Obeys D Q) := by
  constructor
  · intro h
    have hnext : ∀ t x, body.Reaches t x → (next x).Obeys D Q := fun t x hx =>
      ⟨fun d hd => h.deeds d (.timed hx hd),
        fun u e he => h.places _ e (.timed hx he)⟩
    refine ⟨fun d hd => h.deeds d (.body hd), fun t x hx => ?_⟩
    cases x with
    | inl r => exact hnext t _ hx
    | inr v => exact ⟨h.places t _ (.limited hx), hnext t _ hx⟩
  · intro h
    have hnext : ∀ t x, body.Reaches t x → (next x).Obeys D Q := by
      intro t x hx
      cases x with
      | inl r => exact h.places t _ hx
      | inr v => exact (h.places t _ hx).2
    refine ⟨fun d hd => ?_, fun t e he => ?_⟩
    · cases hd with
      | body hd => exact h.deeds d hd
      | timed hb hd => exact (hnext _ _ hb).deeds d hd
    · cases he with
      | limited hb => exact (h.places t _ hb).1
      | timed hb he => exact (hnext _ _ hb).places _ e he

@[simp] theorem obeys_gather {limit : Nat} {stops : ρ → Bool}
    {operations : List (Process δ σ ν ρ κ)} {here : ν}
    {next : Settled ρ κ → Process δ σ ν ρ κ} :
    (Process.gather limit stops operations here next).Obeys D Q
      ↔ Q (.inr here) ∧ (∀ op ∈ operations, ∀ d, op.Performs d → D d)
        ∧ ∀ s, (next s).Obeys D Q := by
  constructor
  · exact fun h => ⟨h.places [] _ .gathering,
      fun op hop d hd => h.deeds d (.operation hop hd), fun s =>
      ⟨fun d hd => h.deeds d (.gathered s hd),
        fun t e he => h.places t e (.gathered s he)⟩⟩
  · rintro ⟨hq, hop, hn⟩
    refine ⟨fun d h => ?_, fun t e h => ?_⟩
    · cases h with
      | operation hm h => exact hop _ hm d h
      | gathered s h => exact (hn s).deeds d h
    · cases h with
      | gathering => exact hq
      | gathered s h => exact (hn s).places t e h

@[simp] theorem obeys_race {wins : ρ → Bool}
    {operations : List (Process δ σ ν ρ κ)} {here : ν}
    {next : Settled ρ κ → Process δ σ ν ρ κ} :
    (Process.race wins operations here next).Obeys D Q
      ↔ Q (.inr here) ∧ (∀ op ∈ operations, ∀ d, op.Performs d → D d)
        ∧ ∀ s, (next s).Obeys D Q := by
  constructor
  · exact fun h => ⟨h.places [] _ .racing,
      fun op hop d hd => h.deeds d (.competitor hop hd), fun s =>
      ⟨fun d hd => h.deeds d (.raced s hd),
        fun t e he => h.places t e (.raced s he)⟩⟩
  · rintro ⟨hq, hop, hn⟩
    refine ⟨fun d h => ?_, fun t e h => ?_⟩
    · cases h with
      | competitor hm h => exact hop _ hm d h
      | raced s h => exact (hn s).deeds d h
    · cases h with
      | racing => exact hq
      | raced s h => exact (hn s).places t e h

/-- Two processes one after the other are good if the first is, and the
second is from every result that the first can have. -/
theorem Obeys.andThen {p : Process δ σ ν ρ κ} {k : ρ → Process δ σ ν ρ κ}
    (h : p.Obeys D (Sum.elim (fun r => (k r).Obeys D Q) fun v => Q (.inr v))) :
    (p.andThen k).Obeys D Q := by
  refine ⟨fun d hd => ?_, fun t e he => ?_⟩
  · obtain hd | ⟨t, r, hr, hd⟩ := performs_andThen hd
    · exact h.deeds d hd
    · exact (h.places t _ hr).deeds d hd
  · obtain ⟨v, rfl, hp⟩ | ⟨t₁, t₂, r, -, hr, hk⟩ := reaches_andThen he
    · exact h.places t _ hp
    · exact (h.places t₁ _ hr).places t₂ e hk

end Process

end Playbook
