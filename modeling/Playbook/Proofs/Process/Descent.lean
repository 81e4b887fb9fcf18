import Playbook.Proofs.Process.Load
import Playbook.Proofs.Process.Solo

/-!
# Every run comes to its end

A turn makes the load of a machine lighter, or its task finds nothing to do and goes on waiting
(`Machine.turn_lighter_or_coasts`). In that case there is one task less that can run, and nobody
has been woken. When no task can run, the clock moves to a time that a task waits for, and the turn
of that task makes the load lighter (`Machine.exists_due_of_moveClock`). So the load and the number
of those who can run cannot become less and less without end, and since a machine with a main task
does not get stuck, the main task comes to its end.

That is so for every process, whatever blocks it opens and however its operations have their turns
(`Machine.Tended.exists_run`). How many turns it takes is not bounded by anything, since a process
may depend on the world.
-/

namespace Playbook

variable {δ σ ν ρ κ : Type}

open Machine (Task mainId)

/-! ## Turns -/

namespace Moment

variable {P : Process δ σ ν ρ κ → Prop} {a b c : Moment δ σ ν ρ κ}

theorem Coasts.trans (h : a.Coasts b) (h' : b.Coasts c) : a.Coasts c where
  load := h'.load.trans h.load
  ready := h'.ready.trans h.ready
  mainReady := h'.mainReady.trans h.mainReady
  due hdue := h'.due (h.due hdue)

variable [Deeds δ σ]

/-- **A turn makes the load lighter**, unless all its steps are those of a task that goes on
waiting. -/
theorem InTurn.lighter_or_coasts (h : InTurn P a b) (ho : a.Orderly) :
    Load.Lighter b.load a.load ∨ a.Coasts b := by
  induction h with
  | refl => exact .inr ⟨le_rfl, rfl, rfl, id⟩
  | tail hab h ih =>
    obtain hlt | hcoasts := h.2.lighter_or_coasts h.1 (InTurn.orderly hab ho)
    · obtain hlt' | hcoasts' := ih
      · exact .inl (hlt.trans hlt')
      · exact .inl (hlt.trans_le hcoasts'.load)
    · obtain hlt' | hcoasts' := ih
      · exact .inl (.of_le hcoasts.load hlt')
      · exact .inr (hcoasts'.trans hcoasts)

end Moment

namespace Machine

/-- The load of a machine between two turns. -/
noncomputable def load (m : Machine δ σ ν ρ κ) : Load :=
  Load.total (fun t => t.state.load) m.tasks + Load.total (fun b => b.state.load) m.blocks

/-- How many turns are to come before the clock moves. -/
def wakes (m : Machine δ σ ν ρ κ) : Nat :=
  m.ready.length + m.mainReady.toNat

/-- A task waits for a time that has come. -/
def IsDue (m : Machine δ σ ν ρ κ) (id : Nat) : Prop :=
  ∃ t ∈ m.tasks, t.id = id ∧ ∃ v, t.state = .waiting v ∧ ∃ alarm ∈ v.alarms, alarm.due ≤ m.now

variable {m m₁ m₂ : Machine δ σ ν ρ κ} {past past' : List (Event δ σ ν ρ κ)}

theorem Reordered.load (h : m.Reordered m₁) : m₁.load = m.load := by
  unfold Machine.load
  rw [h.tasks, h.blocks]

theorem Reordered.hasMain (h : m.Reordered m₁) (hm : m.HasMain) : m₁.HasMain :=
  hm.imp fun _ => And.imp_right fun halive => halive.mono (h.tasks ▸ List.Subset.refl _)

theorem loadOfOthers_idle : Moment.loadOfOthers .idle m = m.load := by
  unfold Moment.loadOfOthers Machine.load
  rw [show m.tasks.filter Stage.idle.isOther = m.tasks from List.filter_eq_self.mpr fun _ _ => rfl]

theorem load_idle : Moment.load ⟨.idle, m, past⟩ = m.load :=
  (zero_add _).trans loadOfOthers_idle

/-- A task is forgotten. -/
theorem lighter_removeTask {t : Task δ σ ν ρ κ} (h : t ∈ m.tasks) :
    Load.Lighter (m.removeTask t.id).load m.load := by
  have hle := Load.add_total_filter_le (fun t => t.state.load) Task.id h
  refine Load.Lighter.trans_le (Load.lighter_of_add t.state.load_ne_zero le_rfl) ?_
  unfold Machine.load
  rw [← add_assoc]
  exact add_le_add_left hle _

/-- A task that comes to its turn has to do what it had to do before. -/
theorem load_le_of_begins {s : Stage δ σ ν ρ κ} (h : Stage.Moves m .idle s) :
    Moment.load ⟨s, m, past⟩ ≤ m.load := by
  have hbegins : ∀ t ∈ m.tasks, s.task? = some t → s.load = t.state.load + 0 →
      Moment.load ⟨s, m, past⟩ ≤ m.load := fun t ht hs hload => by
    have hothers : s.isOther = fun t' => decide (t'.id ≠ t.id) := by
      funext t'
      rw [Stage.isOther, hs, Option.all_some]
    have hle := Load.add_total_filter_le (fun t => t.state.load) Task.id ht
    unfold Moment.load Moment.loadOfOthers Machine.load
    dsimp only
    rw [hload, add_zero, hothers, ← add_assoc]
    exact add_le_add_left hle _
  cases h with
  | first ht hs => exact hbegins _ (List.mem_of_find?_eq_some ht) rfl (by rw [hs]; rfl)
  | wake ht hs => exact hbegins _ (List.mem_of_find?_eq_some ht) rfl (by rw [hs]; rfl)

section

variable [Deeds δ σ]

/-- **A turn makes the load of a machine lighter**, or its task finds nothing to do. In that case
the load is no heavier than before, nobody has been woken, and no time has come that the task waits
for. -/
theorem turn_lighter_or_coasts (ho : Moment.Orderly ⟨.idle, m, past⟩) (id : Nat) :
    Load.Lighter (m.turn id).2.load m.load
      ∨ (m.turn id).2.load ≤ m.load ∧ (m.turn id).2.wakes = m.wakes ∧ ¬ m.IsDue id := by
  have hturns := Moment.turns (fun _ => True) id m past
  generalize m.turn id = x at hturns
  cases hturns with
  | nobody hnone => exact .inr ⟨le_rfl, rfl, fun ⟨t, ht, hid, _⟩ => hnone t ht hid⟩
  | @forgets t m' ht hid hc hm' =>
    subst hid
    obtain rfl | ⟨v, -, rfl⟩ := hm'
    · exact .inl (lighter_removeTask ht)
    · have hdrop := Moment.loadOfOthers_drop .idle (m.removeTask t.id) v
      rw [loadOfOthers_idle, loadOfOthers_idle] at hdrop
      exact .inl (.of_le hdrop (lighter_removeTask ht))
  | @goes task s p m' past' hid hs hb hgoes =>
    obtain ⟨past₂, hend, -⟩ := Moment.inTurn_conclude (P := fun _ => True) task p m' past'
    have hturn := Moment.InTurn.lighter_or_coasts (hgoes.trans hend)
      (Moment.Next.orderly (P := fun _ => True) (.move hb) ho)
    rw [load_idle] at hturn
    obtain hlt | hcoasts := hturn
    · exact .inl (hlt.trans_le (load_le_of_begins hb))
    · have hload := hcoasts.load.trans (load_le_of_begins hb)
      have hwakes : (conclude task (p, m')).2.wakes = m.wakes :=
        congrArg₂ (fun ready (main : Bool) => ready.length + main.toNat) hcoasts.ready
          hcoasts.mainReady
      refine .inr ⟨load_idle ▸ hload, hwakes, fun ⟨t, ht, hid', v, hv, alarm, ha, hdue⟩ => ?_⟩
      -- the steps would have come upon the time
      refine hcoasts.due ?_
      cases hb with
      | first => trivial
      | wake hf hw =>
        cases hs
        cases ho.numbered.task_inj ht (List.mem_of_find?_eq_some hf) (hid'.trans hid.symm)
        cases hv.symm.trans hw
        exact .inl ⟨alarm, ha, hdue⟩

end

/-! ## The clock -/

theorem load_of_next? {id : Nat} (h : m.next? = some (id, m₁)) :
    m₁.load = m.load ∧ m₁.wakes + 1 = m.wakes := by
  refine ⟨(Reordered.of_next? h).load, ?_⟩
  unfold next? at h
  unfold wakes
  split at h
  · rename_i hready
    cases h
    rw [hready, List.length_cons, Nat.add_right_comm]
  · rename_i hready
    split at h
    · rename_i hmain
      cases h
      rw [hready, hmain]
      rfl
    · cases h

theorem mem_ready_wake {id i : Nat} (h : i ∈ (m.wake id).ready) : i ∈ m.ready ∨ i = id := by
  unfold wake at h
  split at h
  · exact .inl h
  · split at h
    · exact .inl h
    · exact (List.mem_append.mp h).imp_right List.mem_singleton.mp

/-- Whoever can run after others have been woken could run before or is one of them. -/
theorem mem_ready_wakeAll {α : Type} {f : α → Nat} {as : List α} {i : Nat}
    (h : i ∈ (as.foldl (fun m a => m.wake (f a)) m).ready) : i ∈ m.ready ∨ ∃ a ∈ as, i = f a := by
  induction as generalizing m with
  | nil => exact .inl h
  | cons a as ih =>
    obtain hm | ⟨b, hb, hi⟩ := ih h
    · exact (mem_ready_wake hm).imp_right fun hi => ⟨a, List.mem_cons_self, hi⟩
    · exact .inr ⟨b, List.mem_cons_of_mem _ hb, hi⟩

theorem now_wakeAll {α : Type} (f : α → Nat) (as : List α) :
    (as.foldl (fun m a => m.wake (f a)) m).now = m.now := by
  induction as generalizing m with
  | nil => rfl
  | cons a as ih =>
    refine (ih (m := m.wake (f a))).trans ?_
    unfold wake
    split
    · rfl
    · split <;> rfl

/-- Where nobody can run and others than the main task are woken, one of these has the first
turn. -/
theorem exists_next?_wakeAll {α : Type} (f : α → Nat) {as : List α} {a : α} (ha : a ∈ as)
    (hf : f a ≠ mainId) (hready : m.ready = []) :
    ∃ b ∈ as, ∃ m₂, (as.foldl (fun m a => m.wake (f a)) m).next? = some (f b, m₂)
      ∧ m₂.tasks = m.tasks ∧ m₂.now = m.now := by
  obtain hcan | ⟨hid, -⟩ := canRun_wakeAll f ha m
  · unfold next?
    split
    · rename_i i rest hr
      obtain hi | ⟨b, hb, rfl⟩ := mem_ready_wakeAll (hr ▸ List.mem_cons_self)
      · rw [hready] at hi
        cases hi
      · exact ⟨b, hb, _, rfl, (Reordered.wakeAll f as m).tasks, now_wakeAll f as⟩
    · rename_i hr
      rw [hr] at hcan
      cases hcan
  · exact absurd hid hf

/-- The alarms of a machine are those of tasks that wait. -/
theorem exists_task_of_alarm {a : Alarm × Nat} (h : a ∈ m.alarms) :
    ∃ t ∈ m.tasks, t.id = a.2 ∧ ∃ v, t.state = .waiting v ∧ a.1 ∈ v.alarms := by
  obtain ⟨t, ht, ha⟩ := List.mem_flatMap.mp h
  split at ha
  · rename_i v hv
    obtain ⟨alarm, halarm, rfl⟩ := List.mem_map.mp ha
    exact ⟨t, ht, rfl, v, hv, halarm⟩
  · cases ha

/-- **When the clock has moved, the first turn is that of a task whose time has come.** -/
theorem exists_due_of_moveClock (hn : m.next? = none) (h : m.moveClock = some m₁) :
    ∃ id m₂, m₁.next? = some (id, m₂) ∧ m₂.IsDue id := by
  have hready : m.ready = [] := List.eq_nil_iff_forall_not_mem.mpr fun id hid =>
    not_canRun_of_next? hn id (.inl hid)
  have ht := (Reordered.of_moveClock h).tasks
  unfold moveClock at h
  dsimp only at h
  split at h
  · cases h
  rename_i now hmin
  generalize hdue : (m.alarms.filter fun a => a.1.due ≤ now).mergeSort
    (fun a b => a.1.serial ≤ b.1.serial) = due at h
  have hmem : ∀ a, a ∈ due ↔ a ∈ m.alarms ∧ a.1.due ≤ now := fun a => by
    rw [← hdue, List.mem_mergeSort, List.mem_filter, decide_eq_true_iff]
  -- whoever is woken is a task whose time has come
  have hwoken : ∀ m₂ : Machine δ σ ν ρ κ, m₂.tasks = m.tasks → m₂.now = now → ∀ a ∈ due,
      m₂.IsDue a.2 := fun m₂ ht₂ hnow a ha => by
    obtain ⟨ha, hle⟩ := (hmem a).mp ha
    obtain ⟨t, hm, hid, v, hv, halarm⟩ := exists_task_of_alarm ha
    exact ⟨t, ht₂ ▸ hm, hid, v, hv, a.1, halarm, hnow ▸ hle⟩
  split at h
  · rename_i hany
    obtain ⟨a, ha, hid⟩ := List.any_eq_true.mp hany
    have hid : a.2 = mainId := beq_iff_eq.mp hid
    have hnow := now_wakeAll (fun a : Alarm × Nat => a.2) (due.filter fun a => a.2 ≠ mainId)
      (m := { m with now := now })
    cases h
    exact ⟨mainId, _, rfl, hid ▸ hwoken _ ht hnow a ha⟩
  · rename_i hany
    have hmain : ∀ a ∈ due, a.2 ≠ mainId := fun a ha hid =>
      hany (List.any_eq_true.mpr ⟨a, ha, beq_iff_eq.mpr hid⟩)
    cases h
    obtain ⟨a, ha, hle⟩ := List.mem_map.mp (List.min?_mem hmin)
    have ha : a ∈ due := (hmem a).mpr ⟨ha, Nat.le_of_eq hle⟩
    have hother : a ∈ due.filter fun a => a.2 ≠ mainId :=
      List.mem_filter.mpr ⟨ha, decide_eq_true (hmain a ha)⟩
    obtain ⟨b, hb, m₂, hnext, ht₂, hnow⟩ := exists_next?_wakeAll (fun a : Alarm × Nat => a.2)
      hother (hmain a ha) (m := { m with now := now }) hready
    exact ⟨b.2, m₂, hnext, hwoken m₂ ht₂ hnow b (List.mem_of_mem_filter hb)⟩

/-! ## Runs -/

variable [Deeds δ σ] {P : Process δ σ ν ρ κ → Prop} {w : σ}

/-- **The main task comes to its end** if it does so after the next turn. -/
theorem exists_runTurns_of_turn {id : Nat} (hn : m.next? = some (id, m₁))
    (h : ∀ m₂, m₁.turn id = (none, m₂) →
      ∃ n e m', e ≠ .unfinished ∧ m₂.runTurns n = (e, m')) :
    ∃ n e m', e ≠ .unfinished ∧ m.runTurns n = (e, m') := by
  generalize hx : m₁.turn id = x at h
  have hrun : ∀ n, m.runTurns (n + 1) = goOn n x := fun n => by
    rw [runTurns_succ, hn]
    exact congrArg (goOn n) hx
  obtain ⟨_ | ⟨r | ⟨t, a⟩⟩, m₂⟩ := x
  · obtain ⟨n, e, m', he, hn⟩ := h m₂ rfl
    exact ⟨n + 1, e, m', he, (hrun n).trans hn⟩
  · exact ⟨1, .finished r, m₂, nofun, hrun 0⟩
  · exact ⟨1, .crashed a, m₂, nofun, hrun 0⟩

/-- **A turn of a tended machine** that is not the end of the main task. -/
theorem Tended.descends (h : m.Tended P w) (hm : m.HasMain) {id : Nat}
    (hn : m.next? = some (id, m₁)) (ht : m₁.turn id = (none, m₂)) :
    m₂.Tended P w ∧ m₂.HasMain
      ∧ (Load.Lighter m₂.load m.load ∨ m₂.load ≤ m.load ∧ m₂.wakes < m.wakes ∧ ¬ m₁.IsDue id) := by
  have htended := h.turn hn
  obtain ⟨past, hc⟩ := h.cared
  have hr := Reordered.of_next? hn
  have ho : Moment.Orderly ⟨.idle, m₁, past⟩ :=
    Moment.Later.orderly (hc.later.tail (.reorder hr))
  have hmain : m₁.HasMain := hr.hasMain hm
  have hturn := turn_lighter_or_coasts ho id
  obtain ⟨hload, hwakes⟩ := load_of_next? hn
  rw [ht] at htended hturn
  rw [hload] at hturn
  refine ⟨htended, hmain.turn ho ht, hturn.imp_right fun ⟨hle, hw, hdue⟩ => ⟨hle, ?_, hdue⟩⟩
  rw [← hwakes, hw]
  exact Nat.lt_succ_self _

/-- **The main task comes to its end.** The induction is on the load of the machine and, where it
stays the same, on how many turns are to come before the clock moves. -/
theorem Tended.exists_runTurns (h : m.Tended P w) (hm : m.HasMain) :
    ∃ n e m', e ≠ .unfinished ∧ m.runTurns n = (e, m') := by
  have hwf : WellFounded (Prod.Lex Load.Lighter (· < · : Nat → Nat → Prop)) :=
    WellFounded.prod_lex Multiset.wellFounded_isDershowitzMannaLT Nat.lt_wfRel.wf
  generalize hx : (m.load, m.wakes) = x
  induction x using hwf.induction generalizing m with
  | _ x ih =>
  subst hx
  cases hn : m.next? with
  | some x =>
    obtain ⟨id, m₁⟩ := x
    refine exists_runTurns_of_turn hn fun m₂ ht => ?_
    obtain ⟨htended, hmain, hlt | ⟨hle, hwakes, -⟩⟩ := h.descends hm hn ht
    · exact ih _ (.left _ _ hlt) htended hmain rfl
    · refine ih _ ?_ htended hmain rfl
      obtain hload | hlt := Load.eq_or_lighter_of_le hle
      · rw [hload]
        exact .right _ hwakes
      · exact .left _ _ hlt
  | none =>
    obtain ⟨m₁, hc⟩ := h.exists_moveClock hm hn
    obtain ⟨id, m₂, hn₁, hdue⟩ := exists_due_of_moveClock hn hc
    have hr := Reordered.of_moveClock hc
    have hmoved := h.moveClock hc
    obtain ⟨n, e, m', he, hrun⟩ := exists_runTurns_of_turn hn₁ fun m₃ ht => by
      obtain ⟨htended, hmain, hlt | ⟨-, -, hnot⟩⟩ := hmoved.descends (hr.hasMain hm) hn₁ ht
      · exact ih _ (.left _ _ (hr.load ▸ hlt)) htended hmain rfl
      · exact absurd hdue hnot
    refine ⟨n + 1, e, m', he, ?_⟩
    rw [runTurns_succ, hn, hc]
    exact hrun

/-- A run that ends with some number of turns ends in the same way with any other number, or has not
ended by then. -/
theorem run_eq_or_unfinished {p : Process δ σ ν ρ κ} {n : Nat} {e : Ending ρ κ}
    {m' : Machine δ σ ν ρ κ} (h : m.run n p = (e, m')) (he : e ≠ .unfinished) (turns : Nat) :
    m.run turns p = (e, m') ∨ (m.run turns p).1 = .unfinished := by
  by_cases hu : (m.run turns p).1 = .unfinished
  · exact .inr hu
  · have hrun : runTurns turns (m.begin p) = m.run turns p := rfl
    have hmore := runTurns_add hrun hu n
    rw [Nat.add_comm turns, runTurns_add h he turns] at hmore
    exact .inl hmore.symm

/-- **Every run comes to its end**, after finitely many turns, with a result or with a crash.
Whatever the process does, what has been run before on the machine and which operations of that are
still under way, no task waits for ever, and there is no end to the turns of nobody. Further turns
change nothing. -/
theorem Tended.exists_run (h : m.Tended P w) (hm : ∀ t ∈ m.tasks, t.id ≠ mainId)
    {p : Process δ σ ν ρ κ} (hp : P p) :
    ∃ n e m', e ≠ .unfinished ∧ ∀ turns, n ≤ turns → m.run turns p = (e, m') := by
  have hbegun : (m.begin p).HasMain :=
    ⟨⟨mainId, none, .fresh p⟩, rfl, _, List.mem_cons_self, rfl, rfl, rfl⟩
  obtain ⟨n, e, m', he, hrun⟩ := (h.begin hp hm).exists_runTurns hbegun
  refine ⟨n, e, m', he, fun turns hle => ?_⟩
  obtain ⟨more, rfl⟩ := Nat.exists_eq_add_of_le hle
  exact runTurns_add hrun he more

end Machine

end Playbook
