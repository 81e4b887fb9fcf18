import Playbook.Proofs.Process.Meets

/-!
# What holds wherever something is done

`Process.Obeys` says of a process that all its deeds are good ones. Whether a deed is good may
depend on what comes right behind it. `Process.Everywhere A` says that `A` holds of each deed of
a process together with what follows, also of the deeds of its operations, at any depth of
nesting.

It is a property of the process alone. What is left of a process has it too, and so has an
operation of a block that the process comes to. Therefore `A` holds of all that is done in the
runs of a machine, if it holds everywhere in the processes that may be begun
(`Moment.Later.everywhere`).
-/

namespace Playbook

variable {δ σ ν ρ κ : Type}

namespace Process

/-- **A condition on deeds, and on what follows them, holds everywhere in a process.** -/
inductive Everywhere (A : δ → (σ → Process δ σ ν ρ κ) → Prop) : Process δ σ ν ρ κ → Prop
  | done {r} : Everywhere A (.done r)
  | crash {a} : Everywhere A (.crash a)
  | act {deed next} (h : A deed next) (hn : ∀ w, Everywhere A (next w)) :
      Everywhere A (.act deed next)
  | sleep {ms here next} (hn : Everywhere A next) : Everywhere A (.sleep ms here next)
  | timed {ms body next} (hb : Everywhere A body) (hn : ∀ x, Everywhere A (next x)) :
      Everywhere A (.timed ms body next)
  | gather {limit stops operations here next} (hop : ∀ op ∈ operations, Everywhere A op)
      (hn : ∀ s, Everywhere A (next s)) :
      Everywhere A (.gather limit stops operations here next)
  | race {wins operations here next} (hop : ∀ op ∈ operations, Everywhere A op)
      (hn : ∀ s, Everywhere A (next s)) : Everywhere A (.race wins operations here next)

namespace Everywhere

variable {A : δ → (σ → Process δ σ ν ρ κ) → Prop} {p : Process δ σ ν ρ κ}

/-- **One process after another.** The condition must not mind what is put behind the deeds of
the first. -/
theorem andThen {k : ρ → Process δ σ ν ρ κ}
    (hA : ∀ deed next, A deed next → A deed fun w => (next w).andThen k)
    (hp : p.Everywhere A) (hk : ∀ r, (k r).Everywhere A) : (p.andThen k).Everywhere A := by
  induction hp with
  | done => exact hk _
  | crash => exact .crash
  | act h _ ih => exact .act (hA _ _ h) ih
  | sleep _ ih => exact .sleep ih
  | timed hb _ _ ih => exact .timed hb ih
  | gather hop _ _ ih => exact .gather hop ih
  | race hop _ _ ih => exact .race hop ih

/-- The operations of a block are parts of it. -/
theorem operation (h : p.Everywhere A) : ∀ op ∈ p.operations, op.Everywhere A := by
  cases h with
  | gather hop | race hop => exact hop
  | done | crash | act | sleep | timed => exact nofun

/-- So is what follows it. -/
theorem of_block? (h : p.Everywhere A) {here : ν} {next : Settled ρ κ → Process δ σ ν ρ κ}
    (hb : p.block? = some (here, next)) (s : Settled ρ κ) : (next s).Everywhere A := by
  cases h with
  | gather _ hn | race _ hn =>
    cases hb
    exact hn s
  | done | crash | act | sleep | timed => cases hb

/-- A block that a process meets is a part of it. -/
theorem meets {n : Process δ σ ν ρ κ} (h : p.Everywhere A) (hm : p.Meets n) :
    n.Everywhere A := by
  induction hm with
  | gather | race => exact h
  | acted w _ ih =>
    cases h with
    | act _ hn => exact ih (hn w)
  | slept _ ih =>
    cases h with
    | sleep hn => exact ih hn
  | body _ ih =>
    cases h with
    | timed hb => exact ih hb
  | timed _ _ ih =>
    cases h with
    | timed _ hn => exact ih (hn _)
  | operation hop _ ih | competitor hop _ ih => exact ih (h.operation _ hop)
  | gathered s _ ih | raced s _ ih => exact ih (h.of_block? rfl s)

theorem of_plug : (limits : List (Limit δ σ ν ρ κ)) → {p : Process δ σ ν ρ κ} →
    (Limit.plug limits p).Everywhere A → p.Everywhere A
  | [], _, h => h
  | _ :: limits, _, h => by
    cases of_plug limits h with
    | timed hb => exact hb

end Everywhere

/-- **What is left of a process has what the process has.** -/
theorem order_everywhere (A : δ → (σ → Process δ σ ν ρ κ) → Prop) :
    Order (fun _ : σ => True) fun _ p q => q.Everywhere A → p.Everywhere A where
  refl _ := id
  trans h h' hs := h (h' hs)
  timed _ _ _ h
    | .timed hb hn => .timed (h hb) hn
  acted _
    | .act _ hn => hn _
  asleep
    | .sleep hn => .sleep hn
  slept
    | .sleep hn => hn
  inTime
    | .timed _ hn => hn _
  crashed _ := .crash
  gatheredNothing _ h := h.of_block? rfl _
  racedNothing _ h := h.of_block? rfl _

end Process

namespace Moment

variable [Deeds δ σ] {P : Process δ σ ν ρ κ → Prop} {a b : Moment δ σ ν ρ κ} {w : σ}
  {A : δ → (σ → Process δ σ ν ρ κ) → Prop}

/-- **What holds everywhere in the processes that may be begun** holds everywhere in what the
task still has to do that has its turn. That task is an operation of a block, which was met by
a main task, or a main task itself. -/
theorem Later.everywhere (h : Later P ⟨.idle, .ofWorld w, []⟩ b)
    (hP : ∀ p, P p → p.Everywhere A) {task : Machine.Task δ σ ν ρ κ} {p : Process δ σ ν ρ κ}
    {limits : List (Limit δ σ ν ρ κ)} (hs : b.stage = .going task p limits) :
    p.Everywhere A := by
  have htraced : b.Traced (fun _ p q => q.Everywhere A → p.Everywhere A) P (fun _ => True)
      fun _ => True := by
    clear hs
    induction h with
    | refl => exact traced_ofWorld trivial
    | tail hl h ih =>
      exact h.traced (Process.order_everywhere A) (Later.orderly hl) (Later.tallied hl)
        (fun _ _ _ => trivial) ih (fun _ _ s _ _ _ _ _ hn _ hq => hq.of_block? hn s)
        fun _ _ _ _ _ _ _ hq => by
          cases hq with
          | timed _ hn => exact hn _
  obtain ⟨q, hq, hbelow⟩ := htraced.stage task (by rw [hs]; rfl) trivial
  rw [hs] at hbelow
  refine .of_plug limits (hbelow ?_)
  obtain ⟨c, i, -, hstart⟩ | ⟨-, hmain⟩ := hq
  · obtain ⟨u, n, ho, hop⟩ := (Later.orderly h).booked.started_opened _ _ _ _ hstart
    obtain ⟨p', hp', hm⟩ := Later.meets h u c n ho
    exact ((hP p' hp').meets hm).operation q (List.mem_of_getElem? hop)
  · exact hP q hmain

/-- **A deed that is to be done is done next**, and the task goes on with what follows. -/
theorem Next.of_act {task : Machine.Task δ σ ν ρ κ} {deed : δ}
    {next : σ → Process δ σ ν ρ κ} {limits : List (Limit δ σ ν ρ κ)}
    (hs : a.stage = .going task (.act deed next) limits) (h : Next P a b) :
    b.stage = .going task (next a.machine.world) limits
      ∧ b.past = a.past ++ [.did task.id deed] := by
  cases h with
  | act =>
    cases hs
    exact ⟨rfl, rfl⟩
  | move hmove =>
    cases hs
    cases hmove
  | opens hopens =>
    cases hs
    cases hopens
  | begin | reorder | forget | forgetWaiting | sleep | attend | yield | keep | timeOut | pause
  | finish | crash => cases hs

/-- What is to be done is still to be done later, or has been done. -/
theorem Later.of_act {task : Machine.Task δ σ ν ρ κ} {deed : δ}
    {next : σ → Process δ σ ν ρ κ} {limits : List (Limit δ σ ν ρ κ)}
    (hs : a.stage = .going task (.act deed next) limits) (h : Later P a b) :
    b.stage = .going task (.act deed next) limits ∨ .did task.id deed ∈ b.past := by
  obtain rfl | ⟨c, hc, hb⟩ := Relation.ReflTransGen.cases_head h
  · exact .inl hs
  · refine .inr (Later.past_subset hb ?_)
    rw [(hc.of_act hs).2]
    exact List.mem_append_right _ List.mem_cons_self

/-- **Where a deed was done** it was to be done, and the task went on with what follows. -/
theorem Later.exists_act_of_did (h : Later P a b) {es : List (Event δ σ ν ρ κ)}
    (hes : b.past = a.past ++ es) {id : Nat} {deed : δ} (hd : .did id deed ∈ es) :
    ∃ x y task next limits, Later P a x ∧ Later P y b
      ∧ x.stage = .going task (.act deed next) limits
      ∧ y.stage = .going task (next x.machine.world) limits := by
  obtain ⟨x, y, new, hx, hxy, hy, hnew, hm⟩ := Later.exists_next_of_mem h hes hd
  obtain ⟨task, deed', next, limits, hs, -, hp⟩ | ⟨-, es', hp, hown⟩ := hxy.told
  · rw [← List.append_cancel_left (hp.symm.trans hnew)] at hm
    cases List.mem_singleton.mp hm
    exact ⟨x, y, task, next, limits, hx, hy, hs, (hxy.of_act hs).1⟩
  · rw [← List.append_cancel_left (hp.symm.trans hnew)] at hm
    obtain ⟨_, _, _, _, _, _, -, -, -, he⟩ := hown _ hm rfl
    cases he

end Moment

end Playbook
