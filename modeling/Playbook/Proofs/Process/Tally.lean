import Playbook.Proofs.Process.Closed

/-!
# What tasks have done

The past of a moment tells what all tasks have done, one deed after another. The part of one
task, since it was begun, is `Event.doneBy`. Tasks go by their numbers, and the number of a main
task is given to the next one when it has ended; so what a task has done is counted from the
last end of a task of its number on.

Nothing has been done then under the number of a task that is new, whether it is an operation
of a block or the main task of another list of steps (`Moment.Tallied`).
-/

namespace Playbook

variable {δ σ ν ρ κ : Type}

namespace Event

/-- What a task has done behind an event. -/
def tally (task : Nat) (done : List δ) : Event δ σ ν ρ κ → List δ
  | did t deed => if t = task then done ++ [deed] else done
  | ended t _ => if t = task then [] else done
  | _ => done

/-- **What a task has done** since it was begun. -/
def doneBy (task : Nat) (past : List (Event δ σ ν ρ κ)) : List δ :=
  past.foldl (tally task) []

/-- Whether a task does something with an event or comes to its end. -/
def isTallied : Event δ σ ν ρ κ → Bool
  | did _ _ => true
  | ended _ _ => true
  | _ => false

variable {past es : List (Event δ σ ν ρ κ)} {task t : Nat}

theorem doneBy_append_of_forall (h : ∀ e ∈ es, e.isTallied = false) :
    doneBy task (past ++ es) = doneBy task past := by
  unfold doneBy
  rw [List.foldl_append]
  generalize past.foldl (tally task) [] = done
  induction es with
  | nil => rfl
  | cons e rest ih =>
    obtain ⟨he, hrest⟩ := List.forall_mem_cons.mp h
    have hsame : tally task done e = done := by
      cases e with
      | did | ended => cases he
      | opened | started | yielded | timedOut | stopped => rfl
    rw [List.foldl_cons, hsame]
    exact ih hrest

theorem doneBy_append_singleton (e : Event δ σ ν ρ κ) :
    doneBy task (past ++ [e]) = tally task (doneBy task past) e :=
  List.foldl_concat ..

@[simp] theorem doneBy_did (deed : δ) :
    doneBy task (past ++ [.did task deed]) = doneBy task past ++ [deed] := by
  rw [doneBy_append_singleton]
  exact if_pos rfl

theorem doneBy_did_of_ne (h : t ≠ task) (deed : δ) :
    doneBy task (past ++ [.did t deed]) = doneBy task past := by
  rw [doneBy_append_singleton]
  exact if_neg h

@[simp] theorem doneBy_ended (s : Settlement ρ κ) :
    doneBy task (past ++ [.ended task s]) = [] := by
  rw [doneBy_append_singleton]
  exact if_pos rfl

theorem doneBy_ended_of_ne (h : t ≠ task) (s : Settlement ρ κ) :
    doneBy task (past ++ [.ended t s]) = doneBy task past := by
  rw [doneBy_append_singleton]
  exact if_neg h

end Event

/-! ## The main task -/

namespace Machine

/-- A task stays when one is forgotten that was stopped. -/
theorem Alive.removeTask {m : Machine δ σ ν ρ κ} {past : List (Event δ σ ν ρ κ)}
    {task t : Task δ σ ν ρ κ} (h : m.Alive task) (hn : Story.Numbered ⟨m, past⟩)
    (ht : t ∈ m.tasks) (hc : t.state.isCancelled = true) :
    (m.removeTask t.id).Alive task := by
  obtain ⟨t', hm, hid, hp, hc'⟩ := h
  refine ⟨t', List.mem_filter.mpr ⟨hm, decide_eq_true fun he => ?_⟩, hid, hp, hc'⟩
  rw [hn.task_inj hm ht he, hc] at hc'
  cases hc'

/-- A task stays when another one ends. -/
theorem Alive.finish {m : Machine δ σ ν ρ κ} {t : Task δ σ ν ρ κ} (h : m.Alive t)
    (hn : (m.blocks.map Block.id).Nodup) {task : Task δ σ ν ρ κ} (hne : t.id ≠ task.id)
    (s : Settlement ρ κ) : (m.finish task s).2.Alive t := by
  obtain ⟨t', hm, hid, hp, hc⟩ := h
  refine ⟨t', ?_, hid, hp, hc⟩
  rw [(Machine.finish_eq hn task s).1]
  exact List.mem_filter.mpr ⟨hm, decide_eq_true (hid ▸ hne)⟩

/-- The main task is among the tasks, and has not been stopped. -/
def HasMain (m : Machine δ σ ν ρ κ) : Prop :=
  ∃ main : Task δ σ ν ρ κ, main.id = mainId ∧ m.Alive main

/-- A number that no task has had before: one that has not been given, or that of the main
task when there is none. -/
def IsNew (m : Machine δ σ ν ρ κ) (id : Nat) : Prop :=
  m.serial ≤ id ∨ id = mainId ∧ ∀ t ∈ m.tasks, t.id ≠ mainId

theorem IsNew.not_alive {m : Machine δ σ ν ρ κ} {past : List (Event δ σ ν ρ κ)} {id : Nat}
    (h : m.IsNew id) (hn : Story.Numbered ⟨m, past⟩) {task : Task δ σ ν ρ κ}
    (ht : m.Alive task) : task.id ≠ id := by
  rintro rfl
  obtain ⟨t, hm, hid, -⟩ := ht
  obtain hle | ⟨hid', hno⟩ := h
  · exact Nat.not_lt_of_le hle (hid ▸ hn.task_lt hm)
  · exact hno t hm (hid.trans hid')

end Machine

namespace Moment

open Machine (mainId)

/-- A task that has its turn is the main task, or it has been started. -/
theorem Orderly.started_of_task {a : Moment δ σ ν ρ κ} {task : Machine.Task δ σ ν ρ κ}
    (ho : a.Orderly) (ht : task ∈ a.stage.task?) (hid : task.id ≠ mainId) :
    ∃ c i p, .started c i task.id p ∈ a.past := by
  obtain ⟨t, hm, hid', hp, -⟩ := ho.seated.alive task ht
  cases hpar : task.parent with
  | none => exact absurd (hid'.symm.trans (ho.numbered.main t hm (hp.trans hpar))) hid
  | some parent =>
    obtain ⟨c, i⟩ := parent
    obtain ⟨p, hs⟩ := ho.booked.task_started t hm c i (hp.trans hpar)
    exact ⟨c, i, p, hid' ▸ hs⟩

variable [Deeds δ σ] {P : Process δ σ ν ρ κ → Prop} {a b : Moment δ σ ν ρ κ}

/-- **What a step adds to what tasks have done**: a deed of the task that has its turn, or
that task ends, or nothing. -/
theorem Next.tally (h : Next P a b) :
    (∃ task deed next limits, a.stage = .going task (.act deed next) limits
      ∧ b.past = a.past ++ [.did task.id deed])
    ∨ (∃ task s, task ∈ a.stage.task? ∧ b.past = a.past ++ [.ended task.id s]
      ∧ ∀ r, s = .finished r → a.stage = .going task (.done r) [])
    ∨ ∃ es, b.past = a.past ++ es ∧ ∀ e ∈ es, e.isTallied = false := by
  have hnone : ∀ {past : List (Event δ σ ν ρ κ)},
      ∃ es, past = past ++ es ∧ ∀ e ∈ es, e.isTallied = false :=
    ⟨[], (List.append_nil _).symm, nofun⟩
  cases h with
  | act => exact .inl ⟨_, _, _, _, rfl, rfl⟩
  | finish => exact .inr (.inl ⟨_, _, rfl, rfl, fun r hr => by cases hr; rfl⟩)
  | crash => exact .inr (.inl ⟨_, _, rfl, rfl, nofun⟩)
  | begin | reorder | move | forget | sleep | keep | pause => exact .inr (.inr hnone)
  | forgetWaiting =>
    exact .inr (.inr ⟨_, rfl, Machine.forall_mem_drops fun _ _ => rfl⟩)
  | opens =>
    exact .inr (.inr ⟨_, rfl, List.forall_mem_cons.mpr
      ⟨rfl, Machine.forall_mem_starts fun _ _ _ _ => rfl⟩⟩)
  | attend =>
    exact .inr (.inr ⟨_, rfl, Machine.forall_mem_launches fun _ _ _ _ => rfl⟩)
  | yield =>
    exact .inr (.inr ⟨_, rfl, List.forall_mem_cons.mpr
      ⟨rfl, Machine.forall_mem_stops fun _ _ => rfl⟩⟩)
  | timeOut =>
    exact .inr (.inr ⟨_, rfl, List.forall_mem_cons.mpr
      ⟨rfl, Machine.forall_mem_drops fun _ _ => rfl⟩⟩)

/-- **The main task stays until it ends.** It is in no block, so it is not stopped with
one. -/
theorem Next.hasMain (h : Next P a b) (ho : a.Orderly) (ha : a.machine.HasMain) :
    b.machine.HasMain ∨ ∃ s, b.past = a.past ++ [.ended mainId s] := by
  obtain ⟨main, hid, hm⟩ := ha
  have stays (hb : b.machine.Alive main) :
      b.machine.HasMain ∨ ∃ s, b.past = a.past ++ [.ended mainId s] := .inl ⟨main, hid, hb⟩
  have older : ∀ {id block : Nat}, id < block → main.id < block := by
    intro id block hlt
    rw [hid]
    exact Nat.zero_lt_of_lt hlt
  cases h with
  | begin => exact stays (hm.mono (List.subset_cons_self _ _))
  | reorder hr => exact stays (hm.mono (hr.tasks ▸ List.Subset.refl _))
  | move | act | sleep => exact stays hm
  | forget ht hs =>
    exact stays (hm.removeTask ho.numbered (List.mem_of_find?_eq_some ht) (by rw [hs]; rfl))
  | @forgetWaiting m past task before w ht hs hw =>
    have htask := List.mem_of_find?_eq_some ht
    have hc : task.state.isCancelled = true := by rw [hs]; rfl
    refine stays ((hm.removeTask ho.numbered htask hc).drop
      ((Change.forgets htask hc).numbered ho.numbered) fun block hb =>
        older (ho.seated.tasks task htask w ?_ block hb))
    rw [hs]
    exact hw
  | @opens m past task node here next state start =>
    refine stays (hm.mono ?_)
    rw [(m.openBlock_eq task.id state start).1]
    exact List.subset_append_left _ _
  | attend h =>
    obtain ⟨rfl, -⟩ | ⟨owner, g, -, rfl, -⟩ := Machine.of_attend_none h
    · exact stays hm
    · refine stays (hm.mono ?_)
      rw [(Machine.spawnAll_eq _ g.launch.1 (Machine.putBlock _ _)).1]
      exact List.subset_append_left _ _
  | @yield m past task block here next limits s m' h =>
    obtain ⟨rfl, -⟩ := Machine.of_attend_some h
    exact stays (hm.dropBlock ho.numbered
      (older (ho.seated.elder task rfl block List.mem_cons_self)))
  | @keep m past task w limits l =>
    cases l with
    | set | running => exact stays hm
  | @timeOut m past task w limits l =>
    exact stays (hm.drop ho.numbered fun block hb => older (ho.seated.elder task rfl block hb))
  | @pause m past task w =>
    obtain ⟨t, ht, hid', hp, hc⟩ := hm
    refine stays ⟨_, List.mem_map_of_mem ht, ?_⟩
    split
    · exact ⟨hid', hp, rfl⟩
    · exact ⟨hid', hp, hc⟩
  | @finish m past task | @crash m past task =>
    by_cases hmain : task.id = mainId
    · exact .inr ⟨_, by rw [hmain]⟩
    · exact stays (hm.finish ho.numbered.blocks.nodup
        (fun he => hmain (he.symm.trans hid)) _)

/-! ## New tasks -/

/-- **Whoever has done something is there**: an operation has been started, and the main
task has not come to its end. -/
structure Tallied (b : Moment δ σ ν ρ κ) : Prop where
  started : ∀ id, id ≠ mainId → Event.doneBy id b.past ≠ [] →
    ∃ c i p, .started c i id p ∈ b.past
  main : Event.doneBy mainId b.past ≠ [] → b.machine.HasMain

/-- Only the task that has its turn does something. -/
theorem Next.doneBy_of_ne (h : Next P a b) {id : Nat}
    (hid : ∀ task ∈ a.stage.task?, task.id ≠ id) :
    Event.doneBy id b.past = Event.doneBy id a.past := by
  obtain ⟨task, deed, next, limits, hs, hp⟩ | ⟨task, s, ht, hp, -⟩ | ⟨es, hp, hes⟩ := h.tally
  · rw [hp]
    exact Event.doneBy_did_of_ne (hid task (by rw [hs]; rfl)) deed
  · rw [hp]
    exact Event.doneBy_ended_of_ne (hid task ht) s
  · rw [hp]
    exact Event.doneBy_append_of_forall hes

/-- What has been done under a number was done before, or its task has its turn. -/
theorem Next.done_or_turn (h : Next P a b) {id : Nat} (hd : Event.doneBy id b.past ≠ []) :
    Event.doneBy id a.past ≠ [] ∨ ∃ task ∈ a.stage.task?, task.id = id := by
  by_cases hid : ∃ task ∈ a.stage.task?, task.id = id
  · exact .inr hid
  · rw [h.doneBy_of_ne fun task ht he => hid ⟨task, ht, he⟩] at hd
    exact .inl hd

theorem Next.tallied (h : Next P a b) (ho : a.Orderly) (ha : Tallied a) : Tallied b where
  started id hid hd := by
    have hstarted : ∃ c i p, .started c i id p ∈ a.past := by
      obtain hd | ⟨task, ht, rfl⟩ := h.done_or_turn hd
      · exact ha.started id hid hd
      · exact ho.started_of_task ht hid
    obtain ⟨es, he⟩ := h.past
    obtain ⟨c, i, p, hm⟩ := hstarted
    exact ⟨c, i, p, he ▸ List.mem_append_left es hm⟩
  main hd := by
    have hmain : a.machine.HasMain := by
      obtain hd | ⟨task, ht, hid⟩ := h.done_or_turn hd
      · exact ha.main hd
      · exact ⟨task, hid, ho.seated.alive task ht⟩
    obtain hb | ⟨s, hp⟩ := h.hasMain ho hmain
    · exact hb
    · rw [hp, Event.doneBy_ended] at hd
      exact absurd rfl hd

/-- **Nothing has been done under a number that is new**, also after the step in which it is
given. -/
theorem Next.doneBy_of_isNew (h : Next P a b) (ho : a.Orderly) (ha : Tallied a) {id : Nat}
    (hid : a.machine.IsNew id) : Event.doneBy id b.past = [] := by
  by_contra hd
  obtain hd | ⟨task, ht, rfl⟩ := h.done_or_turn hd
  · by_cases hmain : id = mainId
    · obtain ⟨main, hm, halive⟩ := ha.main (hmain ▸ hd)
      exact hid.not_alive ho.numbered halive (hm.trans hmain.symm)
    · obtain ⟨c, i, p, hs⟩ := ha.started id hmain hd
      obtain hle | ⟨he, -⟩ := hid
      · exact Nat.not_lt_of_le hle (ho.numbered.started c i id p hs).2
      · exact hmain he
  · exact hid.not_alive ho.numbered (ho.seated.alive task ht) rfl

/-- **At all moments whoever has done something is there.** -/
theorem Later.tallied {w : σ} (h : Later P ⟨.idle, .ofWorld w, []⟩ b) : b.Tallied := by
  induction h with
  | refl => exact ⟨fun _ _ hd => absurd rfl hd, fun hd => absurd rfl hd⟩
  | tail hl h ih => exact h.tallied (Later.orderly hl) ih

end Moment

end Playbook
