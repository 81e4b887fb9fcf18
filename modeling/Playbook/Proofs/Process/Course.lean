import Playbook.Proofs.Process.Runs
import Playbook.Proofs.Process.Settled

/-!
# What a task has done is a run of its process

`Process.Runs` tells of a process by itself what it can do. In a machine a task has its turns
among others, and what it does is told among what they do. `Moment.Later.runs_of_ended` says
that the two agree: whatever the order of turns and whatever else goes on, what a task has done
when it ends is a run of the process that it was begun with, to the same result. A task for
which a time limit has passed is left out.

In the middle of a run that is said of what is left of the process. What a task still has to do
continues its process behind what it has done (`Process.Continues`), which is an order of what
is left of processes.
-/

namespace Playbook

variable {δ σ ν ρ κ : Type}

/-- An element of two lists put together is one of the first or one of the second. -/
theorem append_eq_append_cons {α : Type} {x : α} {t u t₁ t₂ : List α}
    (h : t ++ x :: u = t₁ ++ t₂) :
    (∃ v, t₁ = t ++ x :: v ∧ u = v ++ t₂) ∨ ∃ v, t = t₁ ++ v ∧ t₂ = v ++ x :: u := by
  obtain ⟨v, rfl, he⟩ | ⟨v, rfl, he⟩ := List.append_eq_append_iff.mp h
  · cases v with
    | nil => exact .inr ⟨[], by rw [List.append_nil, List.append_nil], he.symm⟩
    | cons d v =>
      obtain ⟨rfl, rfl⟩ := List.cons.inj he
      exact .inl ⟨v, rfl, rfl⟩
  · exact .inr ⟨v, rfl, he⟩

namespace Process

/-- **A process goes on as another one does behind some deeds**: with these before it, each
run of the first is one of the second, and ends as that does. -/
def Continues (t : List δ) (p q : Process δ σ ν ρ κ) : Prop :=
  ∀ u p', p.Runs u p' → ∃ q', q.Runs (t ++ u) q' ∧ ∀ r, p' = .done r → q' = .done r

theorem continues_of_forall {p q : Process δ σ ν ρ κ} {t : List δ}
    (h : ∀ u p', p.Runs u p' → q.Runs (t ++ u) p') : Continues t p q :=
  fun u p' hr => ⟨p', h u p' hr, fun _ => id⟩

/-- What is left of a process is what it goes on with. -/
theorem order_continues : Order (δ := δ) (ν := ν) (ρ := ρ) (κ := κ) (fun _ : σ => True)
    Continues where
  refl _ := continues_of_forall fun _ _ => id
  trans h h' u p' hr := by
    obtain ⟨q', hq, hqe⟩ := h u p' hr
    obtain ⟨s', hs, hse⟩ := h' _ q' hq
    rw [← List.append_assoc] at hs
    exact ⟨s', hs, fun r hp => hse r (hqe r hp)⟩
  timed {t p q} ms ms' next h u p' hr := by
    cases hr with
    | refl =>
      obtain ⟨q', hq, -⟩ := h [] p .refl
      exact ⟨_, .limited hq, nofun⟩
    | limited hb =>
      obtain ⟨q', hq, -⟩ := h _ _ hb
      exact ⟨_, .limited hq, nofun⟩
    | inTime hb hn =>
      obtain ⟨q', hq, hqe⟩ := h _ _ hb
      cases hqe _ rfl
      rw [← List.append_assoc]
      exact ⟨p', .inTime hq hn, fun _ => id⟩
  acted _ := continues_of_forall fun _ _ hr => .act _ hr
  asleep u p' hr := by
    cases hr with
    | refl => exact ⟨_, .refl, nofun⟩
    | slept hr => exact ⟨p', .slept hr, fun _ => id⟩
  slept := continues_of_forall fun _ _ hr => .slept hr
  inTime := continues_of_forall fun _ _ hr => .inTime .refl hr
  crashed u p' hr := by
    obtain ⟨rfl, rfl⟩ := runs_crash.mp hr
    exact ⟨_, .refl, nofun⟩
  gatheredNothing _ := continues_of_forall fun _ _ hr => .gathered _ hr
  racedNothing _ := continues_of_forall fun _ _ hr => .raced _ hr

/-- A block is gone on with by what follows it. -/
theorem continues_of_block? {node : Process δ σ ν ρ κ} {here : ν}
    {next : Settled ρ κ → Process δ σ ν ρ κ} (h : node.block? = some (here, next))
    (s : Settled ρ κ) : Continues [] (next s) node := by
  cases node with
  | gather =>
    cases h
    exact continues_of_forall fun _ _ hr => .gathered s hr
  | race =>
    cases h
    exact continues_of_forall fun _ _ hr => .raced s hr
  | done | crash | act | sleep | timed => cases h

end Process

/-- **A task was begun with a process**, as the main task or as an operation of a block. -/
def Event.BegunWith (P : Process δ σ ν ρ κ → Prop) (past : List (Event δ σ ν ρ κ))
    (task : Nat) (p : Process δ σ ν ρ κ) : Prop :=
  task = Machine.mainId ∧ P p ∨ ∃ c i, .started c i task p ∈ past

theorem Event.BegunWith.mono {P : Process δ σ ν ρ κ → Prop}
    {past past' : List (Event δ σ ν ρ κ)} {task : Nat} {p : Process δ σ ν ρ κ}
    (h : BegunWith P past task p) (hp : past ⊆ past') : BegunWith P past' task p :=
  h.imp_right fun ⟨c, i, hs⟩ => ⟨c, i, hp hs⟩

namespace Moment

variable [Deeds δ σ] {P : Process δ σ ν ρ κ → Prop} {b : Moment δ σ ν ρ κ} {w : σ}

/-- **What tasks still have to do continues their processes**, at all moments, as long as no
time limit has passed for them. -/
theorem Later.continues (h : Later P ⟨.idle, .ofWorld w, []⟩ b) {S : Nat → Prop}
    (hS : ∀ task v, S task → .timedOut task v ∉ b.past) :
    b.Traced Process.Continues P (fun _ => True) S := by
  induction h with
  | refl => exact traced_ofWorld trivial
  | @tail a b hl h ih =>
    obtain ⟨es, he⟩ := h.past
    refine h.traced Process.order_continues (Later.orderly hl) (Later.tallied hl)
      (fun _ _ _ => trivial) (ih fun task v ht hm => hS task v ht ?_)
      (fun _ _ s _ _ _ _ _ hn _ => Process.continues_of_block? hn s)
      fun task v _ _ hm _ ht => absurd hm (hS task v ht)
    rw [he]
    exact List.mem_append_left es hm

/-- **When a task has ended, it was at an end of its process**, and the step that ended it is
told next. -/
theorem Later.settlement?_of_ended (h : Later P ⟨.idle, .ofWorld w, []⟩ b)
    {old new : List (Event δ σ ν ρ κ)} {id : Nat} {s : Settlement ρ κ}
    (he : b.past = old ++ .ended id s :: new) :
    ∃ a a' task p, Later P ⟨.idle, .ofWorld w, []⟩ a ∧ Next P a a' ∧ Later P a' b
      ∧ a.past = old ∧ a'.past = old ++ [.ended id s] ∧ task.id = id
      ∧ a.stage = .going task p [] ∧ p.settlement? id = some s := by
  induction h generalizing new with
  | refl => exact absurd he.symm (List.append_ne_nil_of_right_ne_nil old (List.cons_ne_nil _ _))
  | @tail a b hl h ih =>
    obtain ⟨es, hes⟩ := h.past
    obtain ⟨v, hv, -⟩ | ⟨v, hold, hv⟩ := append_eq_append_cons (he.symm.trans hes)
    · obtain ⟨x, x', task, p, hx, hn, hx', hrest⟩ := ih hv
      exact ⟨x, x', task, p, hx, hn, hx'.tail h, hrest⟩
    have hm : .ended id s ∈ es := hv ▸ List.mem_append_right v List.mem_cons_self
    have hsettles := h.settles
    obtain hu | ⟨task, B, _, _, _, r, -, -, -, rfl⟩ | ⟨task, p, r, hs, hp, rfl⟩ := hsettles
    · obtain ⟨es', hes', hnone⟩ := hu.past
      rw [List.append_cancel_left (hes.symm.trans hes')] at hm
      cases hnone _ hm
    · rw [← List.append_cancel_left (show _ = _ from hes)] at hm
      obtain hm | hm := List.mem_cons.mp hm
      · cases hm
      · obtain ⟨_, _, hstop⟩ := Machine.of_mem_stops hm
        cases hstop
    · have hone : [.ended task.id r] = es := List.append_cancel_left (show _ = _ from hes)
      rw [← hone] at hm hv
      cases List.mem_singleton.mp hm
      have hnil : v = [] := by
        cases v with
        | nil => rfl
        | cons _ v => cases v <;> cases hv
      rw [hnil, List.append_nil] at hold
      exact ⟨a, _, task, p, hl, h, .refl, hold.symm, by rw [hold], rfl, hs, hp⟩

/-- When a task has ended with a result, it was at its end, with nothing left to do. -/
theorem Later.going_of_ended (h : Later P ⟨.idle, .ofWorld w, []⟩ b)
    {old new : List (Event δ σ ν ρ κ)} {id : Nat} {r : ρ}
    (he : b.past = old ++ .ended id (.finished r) :: new) :
    ∃ a task, Later P ⟨.idle, .ofWorld w, []⟩ a ∧ a.past = old ∧ task.id = id
      ∧ a.stage = .going task (.done r) [] := by
  obtain ⟨a, -, task, p, ha, -, -, hpast, -, hid, hs, hp⟩ := h.settlement?_of_ended he
  cases p with
  | done =>
    cases hp
    exact ⟨a, task, ha, hpast, hid, hs⟩
  | crash => cases hp
  | act | sleep | timed | gather | race => cases hp

/-- The process of the task that has its turn is the one that the task was begun with. -/
theorem Later.begunWith_of_origin (h : Later P ⟨.idle, .ofWorld w, []⟩ b)
    {task : Machine.Task δ σ ν ρ κ} (htask : task ∈ b.stage.task?) {p : Process δ σ ν ρ κ}
    (hp : Event.Origin P b.past task p) : Event.BegunWith P b.past task.id p := by
  obtain ⟨c, i, -, hstart⟩ | ⟨hpar, hP⟩ := hp
  · exact .inr ⟨c, i, hstart⟩
  · obtain ⟨t, hm, hid, hpar', -⟩ := (Later.orderly h).seated.alive task htask
    exact .inl ⟨hid ▸ (Later.orderly h).numbered.main t hm (hpar'.trans hpar), hP⟩

omit [Deeds δ σ] in
/-- An operation was begun with the process that it was started with, and with no other. -/
theorem Orderly.eq_of_begunWith (hb : b.Orderly) {c i t : Nat} {p p' : Process δ σ ν ρ κ}
    (hs : .started c i t p ∈ b.past) (hp : Event.BegunWith P b.past t p') : p' = p := by
  obtain ⟨hm, -⟩ | ⟨c', i', hs'⟩ := hp
  · exact (hb.numbered.ne_main hs hm).elim
  · exact (hb.booked.started_inj _ _ _ _ _ _ _ hs' hs).2.2

/-- **What a task has done when it ends is a run of its process** to the same result, unless a
time limit has passed for it. -/
theorem Later.runs_of_ended (h : Later P ⟨.idle, .ofWorld w, []⟩ b)
    {old new : List (Event δ σ ν ρ κ)} {id : Nat} {r : ρ}
    (he : b.past = old ++ .ended id (.finished r) :: new)
    (hin : ∀ v, .timedOut id v ∉ old) :
    ∃ p, Event.BegunWith P old id p ∧ p.Runs (Event.doneBy id old) (.done r) := by
  obtain ⟨a, task, ha, rfl, rfl, hs⟩ := h.going_of_ended he
  have htask : task ∈ a.stage.task? := by
    rw [hs]
    rfl
  have htraced := ha.continues (S := fun t => t = task.id) fun t v ht hm => hin v (ht ▸ hm)
  obtain ⟨p, hp, hbelow⟩ := htraced.stage task htask rfl
  rw [hs] at hbelow
  obtain ⟨q', hr, hq'⟩ := hbelow [] _ .refl
  cases hq' r rfl
  rw [List.append_nil] at hr
  exact ⟨p, Later.begunWith_of_origin ha htask hp, hr⟩

end Moment

end Playbook
