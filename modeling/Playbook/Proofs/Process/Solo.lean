import Playbook.Process.Machine
import Playbook.Proofs.Process.Runs

/-!
# Processes that run alone

A process is solo if it does nothing but act on the world, sleep and end: it opens no
blocks and sets no time limits. On a machine without other tasks such a process comes to
its end after finitely many turns (`Machine.exists_run_of_solo`). Everything that
happens to the world in between are its own deeds, in the order of its run
(`Process.Runs`). A further turn changes nothing (`Machine.runTurns_add`).

What the process does may depend on the world, so it is solo as far as the worlds go
that it can come to; `W` is about these worlds, `D` is about its deeds, and `K` is about
its crashes.
-/

namespace Playbook

variable {δ σ ν ρ κ : Type}

namespace Process

/-- **A process that does nothing but act, sleep and end** in the worlds of `W`. All that it does
is as `D` says, and if it crashes, then as `K` says. -/
inductive Solo (D : δ → Prop) (W : σ → Prop) (K : κ → Prop) : Process δ σ ν ρ κ → Prop
  | done (r : ρ) : Solo D W K (.done r)
  | crash {a : κ} (h : K a) : Solo D W K (.crash a)
  | act {deed : δ} {next : σ → Process δ σ ν ρ κ} (hd : D deed)
      (h : ∀ w, W w → Solo D W K (next w)) : Solo D W K (.act deed next)
  | sleep {ms here next} (h : Solo D W K next) : Solo D W K (.sleep ms here next)

theorem Solo.andThen {D : δ → Prop} {W : σ → Prop} {K : κ → Prop} {p : Process δ σ ν ρ κ}
    {k : ρ → Process δ σ ν ρ κ} (hp : p.Solo D W K) (hk : ∀ r, (k r).Solo D W K) :
    (p.andThen k).Solo D W K := by
  induction hp with
  | done r => exact hk r
  | crash h => exact .crash h
  | act hd _ ih => exact .act hd ih
  | sleep _ ih => exact .sleep ih

end Process

namespace Machine

/-- How a run of a process ends, by what is left of the process. -/
def Ending.Of (K : κ → Prop) (p : Process δ σ ν ρ κ) (t : List δ) (e : Ending ρ κ) : Prop :=
  (∃ r, e = .finished r ∧ p.Runs t (.done r)) ∨ ∃ a, e = .crashed a ∧ K a ∧ p.Runs t (.crash a)

theorem Ending.Of.act {K : κ → Prop} {deed : δ} {next : σ → Process δ σ ν ρ κ} {w : σ}
    {t : List δ} {e : Ending ρ κ} (h : Ending.Of K (next w) t e) :
    Ending.Of K (.act deed next) (deed :: t) e := by
  obtain ⟨r, he, h⟩ | ⟨a, he, hk, h⟩ := h
  · exact .inl ⟨r, he, .act w h⟩
  · exact .inr ⟨a, he, hk, .act w h⟩

theorem Ending.Of.slept {K : κ → Prop} {ms : Nat} {here : ν} {next : Process δ σ ν ρ κ}
    {t : List δ} {e : Ending ρ κ} (h : Ending.Of K next t e) :
    Ending.Of K (.sleep ms here next) t e := by
  obtain ⟨r, he, h⟩ | ⟨a, he, hk, h⟩ := h
  · exact .inl ⟨r, he, .slept h⟩
  · exact .inr ⟨a, he, hk, .slept h⟩

/-- The main task is the only one. -/
structure Alone (task : Task δ σ ν ρ κ) (m : Machine δ σ ν ρ κ) : Prop where
  id : task.id = mainId
  parent : task.parent = none
  tasks : m.tasks = [task]

section Alone

variable {task : Task δ σ ν ρ κ} {m : Machine δ σ ν ρ κ}

theorem Alone.find? (h : Alone task m) :
    (m.tasks.find? fun t => t.id == mainId) = some task := by
  rw [h.tasks, List.find?_cons_of_pos]
  rw [h.id]
  exact beq_self_eq_true mainId

/-- The main task waits. -/
theorem Alone.conclude_waiting (h : Alone task m) (w : Waiting δ σ ν ρ κ) :
    ∃ m', conclude task (.waiting w, m) = (none, m')
      ∧ Alone { task with state := .waiting w } m' ∧ m'.world = m.world
      ∧ m'.ready = m.ready ∧ m'.mainReady = m.mainReady := by
  refine ⟨_, rfl, ⟨h.id, h.parent, ?_⟩, rfl, rfl, rfl⟩
  show m.tasks.map _ = _
  rw [h.tasks, List.map_cons, if_pos rfl, List.map_nil]

/-- The main task ends, and no task is left. -/
theorem Alone.finish (h : Alone task m) (s : Settlement ρ κ) :
    ∃ m', Machine.finish task s m = (some s, m') ∧ m'.tasks = [] ∧ m'.world = m.world := by
  refine ⟨m.removeTask task.id, ?_, ?_, rfl⟩
  · unfold Machine.finish
    rw [h.parent]
  · show m.tasks.filter _ = []
    rw [h.tasks, List.filter_cons_of_neg (by simp), List.filter_nil]

variable {alarm : Alarm} {here : ν} {next : Process δ σ ν ρ κ}

/-- The main task sleeps. -/
structure Asleep (alarm : Alarm) (here : ν) (next : Process δ σ ν ρ κ)
    (task : Task δ σ ν ρ κ) (m : Machine δ σ ν ρ κ) : Prop extends Alone task m where
  state : task.state = .waiting (.asleep alarm here next)

/-- The main task sleeps whatever the time and the list of turns. -/
theorem Asleep.reorder (h : Asleep alarm here next task m) (now : Nat) (ready : List Nat)
    (mainReady : Bool) :
    Asleep alarm here next task
      { m with now := now, ready := ready, mainReady := mainReady } :=
  ⟨⟨h.id, h.parent, h.tasks⟩, h.state⟩

/-- When nothing else can run, the clock moves to the time that the main task sleeps
to. -/
theorem Asleep.moveClock (h : Asleep alarm here next task m) :
    m.moveClock = some { m with now := alarm.due, ready := mainId :: m.ready } := by
  have ha : m.alarms = [(alarm, mainId)] := by
    unfold alarms
    rw [h.tasks, List.flatMap_singleton, h.state, ← h.id]
    rfl
  unfold Machine.moveClock
  dsimp only
  rw [ha]
  have hmin : ([((alarm : Alarm), mainId)].map fun a => a.1.due).min? = some alarm.due := rfl
  rw [hmin]
  dsimp only
  have hdue : ([((alarm : Alarm), mainId)].filter fun a => decide (a.1.due ≤ alarm.due))
      = [(alarm, mainId)] := by
    rw [List.filter_cons_of_pos (by simp), List.filter_nil]
  rw [hdue, List.mergeSort_singleton]
  rfl

end Alone

variable [Deeds δ σ]

/-- What is left of a run after a turn: its ending, or further turns. -/
def goOn (turns : Nat) : Option (Settlement ρ κ) × Machine δ σ ν ρ κ →
    Ending ρ κ × Machine δ σ ν ρ κ
  | (some (.finished r), m) => (.finished r, m)
  | (some (.crashed _ a), m) => (.crashed a, m)
  | (none, m) => runTurns turns m

theorem runTurns_succ (turns : Nat) (m : Machine δ σ ν ρ κ) :
    runTurns (turns + 1) m = match m.next? with
      | some (id, m) => goOn turns (m.turn id)
      | none =>
        match m.moveClock with
        | some m => runTurns turns m
        | none => (.unfinished, m) := by
  rw [runTurns]
  cases m.next? with
  | none => rfl
  | some x =>
    obtain ⟨id, m⟩ := x
    dsimp only
    obtain ⟨_ | ⟨_ | _⟩, m'⟩ := m.turn id
    · rfl
    · rfl
    · rfl

/-- **A run that has ended is not changed by further turns.** -/
theorem runTurns_add {turns : Nat} {m m' : Machine δ σ ν ρ κ} {e : Ending ρ κ}
    (h : runTurns turns m = (e, m')) (he : e ≠ .unfinished) (more : Nat) :
    runTurns (turns + more) m = (e, m') := by
  induction turns generalizing m with
  | zero =>
    cases h
    exact absurd rfl he
  | succ turns ih =>
    rw [Nat.succ_add, runTurns_succ]
    rw [runTurns_succ] at h
    split at h
    · rename_i id m₁ _
      generalize m₁.turn id = x at h ⊢
      obtain ⟨_ | ⟨_ | _⟩, m₂⟩ := x
      · exact ih h
      · exact h
      · exact h
    · split at h
      · exact ih h
      · cases h
        exact absurd rfl he

/-! ## A task that sleeps -/

section Turns

variable {task : Task δ σ ν ρ κ} {m : Machine δ σ ν ρ κ}
  {alarm : Alarm} {here : ν} {next : Process δ σ ν ρ κ}

/-- No other task has a turn. -/
theorem Alone.turn_of_ne (h : Alone task m) {id : Nat} (hid : id ≠ mainId) :
    m.turn id = (none, m) := by
  have hfind : (m.tasks.find? fun t => t.id == id) = none := by
    rw [h.tasks, List.find?_cons_of_neg, List.find?_nil]
    rw [h.id]
    simpa using hid.symm
  unfold turn
  rw [hfind]

theorem Alone.turn_fresh (h : Alone task m) {p : Process δ σ ν ρ κ}
    (hs : task.state = .fresh p) :
    m.turn mainId = conclude task (advance mainId p m) := by
  unfold turn
  rw [h.find?]
  dsimp only
  rw [hs]

/-- A turn of a task that sleeps: it goes on if its time has come, and else it sleeps
on. -/
theorem Asleep.turn (h : Asleep alarm here next task m) :
    m.turn mainId = conclude task (advance mainId next m)
      ∨ m.now < alarm.due ∧ ∃ task' m', m.turn mainId = (none, m')
        ∧ Asleep alarm here next task' m' ∧ m'.world = m.world ∧ m'.ready = m.ready
        ∧ m'.mainReady = m.mainReady := by
  unfold Machine.turn
  rw [h.find?]
  dsimp only
  rw [h.state]
  dsimp only
  unfold resume
  split
  · exact .inl rfl
  · rename_i hlt
    obtain ⟨m', he, ha, hrest⟩ := h.conclude_waiting (.asleep alarm here next)
    exact .inr ⟨Nat.lt_of_not_le hlt, _, m', he, ⟨ha, rfl⟩, hrest⟩

/-- **A task goes on from its sleep** after a number of turns, in a world that is the
same. -/
def Wakes (m : Machine δ σ ν ρ κ) (next : Process δ σ ν ρ κ) : Prop :=
  ∃ n task m', Alone task m' ∧ m'.world = m.world
    ∧ ∀ turns, runTurns (n + turns) m = goOn turns (conclude task (advance mainId next m'))

/-- A turn before. -/
theorem Wakes.after {m₁ : Machine δ σ ν ρ κ} (h : m₁.Wakes next)
    (hw : m₁.world = m.world) (hk : ∀ turns, runTurns (turns + 1) m = runTurns turns m₁) :
    m.Wakes next := by
  obtain ⟨n, task, m', ha, hw', hn⟩ := h
  refine ⟨n + 1, task, m', ha, hw'.trans hw, fun turns => ?_⟩
  rw [Nat.add_right_comm, hk, hn]

/-- **The turn of a task that sleeps**, taken when it is its turn: it goes on, or it
sleeps on in a machine from which it goes on. -/
theorem Asleep.wakes_of_turn {m₀ : Machine δ σ ν ρ κ}
    (h : Asleep alarm here next task m) (hw : m.world = m₀.world)
    (hturn : ∀ turns, runTurns (turns + 1) m₀ = goOn turns (m.turn mainId))
    (hrest : m.now < alarm.due → ∀ task' m', Asleep alarm here next task' m' →
      m'.ready = m.ready → m'.mainReady = m.mainReady → m'.Wakes next) : m₀.Wakes next := by
  obtain ht | ⟨hlt, task', m', ht, ha, hw', hr, hm⟩ := h.turn
  · refine ⟨1, task, m, h.toAlone, hw, fun turns => ?_⟩
    rw [Nat.add_comm, hturn, ht]
  · refine (hrest hlt task' m' ha hr hm).after (hw'.trans hw) fun turns => ?_
    rw [hturn, ht]
    rfl

/-- With no turns left, the clock moves and the task goes on. -/
theorem Asleep.wakes_of_clock (h : Asleep alarm here next task m) (hr : m.ready = [])
    (hm : m.mainReady = false) : m.Wakes next := by
  have hwoken : Wakes { m with now := alarm.due, ready := mainId :: m.ready } next :=
    (h.reorder alarm.due m.ready m.mainReady).wakes_of_turn rfl
      (fun turns => runTurns_succ turns _) fun hlt => absurd hlt (Nat.lt_irrefl _)
  refine hwoken.after rfl fun turns => ?_
  have hnext : m.next? = none := by
    unfold next?
    rw [hr, hm]
    rfl
  rw [runTurns_succ, hnext, h.moveClock]

/-- With no turns of other tasks left, the task goes on. -/
theorem Asleep.wakes_of_ready (h : Asleep alarm here next task m) (hr : m.ready = []) :
    m.Wakes next := by
  cases hm : m.mainReady with
  | false => exact h.wakes_of_clock hr hm
  | true =>
    refine (h.reorder m.now m.ready false).wakes_of_turn rfl (fun turns => ?_)
      fun _ task' m' ha hr' hm' => ha.wakes_of_clock (hr'.trans hr) hm'
    have hnext : m.next? = some (mainId, { m with mainReady := false }) := by
      unfold next?
      rw [hr, hm]
      rfl
    rw [runTurns_succ, hnext]

/-- **A task that sleeps alone goes on.** The induction is on the turns that come before
its own, which are turns of no tasks. -/
theorem Asleep.wakes (h : Asleep alarm here next task m) : m.Wakes next := by
  generalize hr : m.ready = ready
  induction ready generalizing task m with
  | nil => exact h.wakes_of_ready hr
  | cons id rest ih =>
    have h' := h.reorder m.now rest m.mainReady
    have hturn : ∀ turns, runTurns (turns + 1) m
        = goOn turns ({ m with ready := rest }.turn id) := by
      intro turns
      have hnext : m.next? = some (id, { m with ready := rest }) := by
        unfold next?
        rw [hr]
      rw [runTurns_succ, hnext]
    by_cases hid : id = mainId
    · rw [hid] at hturn
      exact h'.wakes_of_turn rfl hturn fun _ task' m' ha hr' _ => ih ha hr'
    · refine (ih h' rfl).after rfl fun turns => ?_
      rw [hturn, h'.turn_of_ne hid]
      rfl

end Turns

/-! ## Runs to the end -/

/-- **A solo process comes to its end** from a turn on in which no other task is there,
with its own deeds done to the world and no task left. -/
theorem exists_goOn_of_solo {D : δ → Prop} {W : σ → Prop} {K : κ → Prop}
    {p : Process δ σ ν ρ κ} (hp : p.Solo D W K) (hW : ∀ (d : δ) w, W w → W (Deeds.perform d w))
    {task : Task δ σ ν ρ κ} {m : Machine δ σ ν ρ κ} (h : Alone task m) (hw : W m.world) :
    ∃ n t e m',
      (∀ turns, goOn (n + turns) (conclude task (advance mainId p m)) = (e, m'))
      ∧ m'.tasks = [] ∧ m'.world = t.foldl (fun w d => Deeds.perform d w) m.world
      ∧ Ending.Of K p t e := by
  induction hp generalizing task m with
  | done r =>
    obtain ⟨m', hf, ht, hw'⟩ := h.finish (.finished r)
    refine ⟨0, [], .finished r, m', fun turns => ?_, ht, hw', .inl ⟨r, rfl, .refl⟩⟩
    rw [advance, conclude, hf]
    rfl
  | @crash a ha =>
    obtain ⟨m', hf, ht, hw'⟩ := h.finish (.crashed task.id a)
    refine ⟨0, [], .crashed a, m', fun turns => ?_, ht, hw', .inr ⟨a, rfl, ha, .refl⟩⟩
    rw [advance, conclude, hf]
    rfl
  | @act deed next _ _ ih =>
    obtain ⟨n, t, e, m', hn, ht, hw', he⟩ := ih m.world hw
      (m := { m with world := Deeds.perform deed m.world })
      ⟨h.id, h.parent, h.tasks⟩ (hW deed _ hw)
    refine ⟨n, deed :: t, e, m', fun turns => ?_, ht, hw', he.act⟩
    rw [advance]
    exact hn turns
  | @sleep ms here next _ ih =>
    by_cases hms : ms = 0
    · obtain ⟨n, t, e, m', hn, ht, hw', he⟩ := ih h hw
      refine ⟨n, t, e, m', fun turns => ?_, ht, hw', he.slept⟩
      rw [advance, if_pos hms]
      exact hn turns
    · have h' : Alone task { m with serial := m.serial + 1 } := ⟨h.id, h.parent, h.tasks⟩
      obtain ⟨m₁, hc, ha, hw₁, -⟩ :=
        h'.conclude_waiting (.asleep ⟨m.now + ms, m.serial⟩ here next)
      obtain ⟨k, task₂, m₂, ha₂, hw₂, hk⟩ := Asleep.wakes ⟨ha, rfl⟩
      have hsame : m₂.world = m.world := hw₂.trans hw₁
      obtain ⟨n, t, e, m', hn, ht, hw', he⟩ := ih ha₂ (hsame ▸ hw)
      refine ⟨k + n, t, e, m', fun turns => ?_, ht, hsame ▸ hw', he.slept⟩
      rw [advance, if_neg hms, hc, Nat.add_assoc]
      exact (hk _).trans (hn turns)

/-- **A solo process comes to its end** after finitely many turns, on every machine
without tasks. All that happens to the world are its own deeds, and no task is left. -/
theorem exists_run_of_solo {D : δ → Prop} {W : σ → Prop} {K : κ → Prop}
    {p : Process δ σ ν ρ κ} (hp : p.Solo D W K) (hW : ∀ (d : δ) w, W w → W (Deeds.perform d w))
    {m : Machine δ σ ν ρ κ} (ht : m.tasks = []) (hw : W m.world) :
    ∃ n t e m', (∀ turns, n ≤ turns → run turns p m = (e, m')) ∧ m'.tasks = []
      ∧ m'.world = t.foldl (fun w d => Deeds.perform d w) m.world ∧ Ending.Of K p t e := by
  have h : Alone ⟨mainId, none, .fresh p⟩ { m.begin p with ready := m.ready } :=
    ⟨rfl, rfl, congrArg _ ht⟩
  obtain ⟨n, t, e, m', hn, ht', hw', he⟩ := exists_goOn_of_solo hp hW h hw
  refine ⟨n + 1, t, e, m', fun turns hle => ?_, ht', hw', he⟩
  obtain ⟨more, rfl⟩ := Nat.exists_eq_add_of_le hle
  rw [Nat.add_right_comm, run, runTurns_succ]
  show goOn _ (turn mainId { m.begin p with ready := m.ready }) = _
  rw [h.turn_fresh rfl]
  exact hn more

end Machine

end Playbook
