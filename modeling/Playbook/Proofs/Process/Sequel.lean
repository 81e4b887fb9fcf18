import Playbook.Proofs.Process.MainTask
import Playbook.Proofs.Process.Solo

/-!
# A run goes on where another has ended

One process after another can be run as one main task, or as two, the second in the machine
that the first has left. It comes to the same (`Machine.run_andThen`): the second begins in
the turn in which the first ends, and a main task that is begun anew has the next turn. In
between no other task has one.

What follows a process does nothing before the process has ended (`Machine.advance_andThen`), and
until then the other tasks do not look at it (`Machine.advance_mapMain`).
-/

namespace Playbook

variable {δ σ ν ρ κ : Type}

/-- A waiting process with another one behind it. -/
def Waiting.andThen (k : ρ → Process δ σ ν ρ κ) : Waiting δ σ ν ρ κ → Waiting δ σ ν ρ κ
  | asleep alarm here next => .asleep alarm here (next.andThen k)
  | blocked block here next => .blocked block here fun s => (next s).andThen k
  | timed deadline body next => .timed deadline body fun x => (next x).andThen k

@[simp] theorem Waiting.alarms_andThen (k : ρ → Process δ σ ν ρ κ) (w : Waiting δ σ ν ρ κ) :
    (w.andThen k).alarms = w.alarms := by
  cases w with
  | asleep | blocked | timed => rfl

namespace Machine

/-- How far a task has come, with another process behind its own. -/
def TaskState.andThen (k : ρ → Process δ σ ν ρ κ) :
    TaskState δ σ ν ρ κ → TaskState δ σ ν ρ κ
  | fresh p => .fresh (p.andThen k)
  | waiting w => .waiting (w.andThen k)
  | cancelled before => .cancelled before

variable {g : TaskState δ σ ν ρ κ → TaskState δ σ ν ρ κ} {m : Machine δ σ ν ρ κ} [Deeds δ σ]

/-! ## Turns -/

/-- What follows a process in its turn: nothing, until the process has ended. -/
def goingOn (id : Nat) (k : ρ → Process δ σ ν ρ κ) :
    Progress δ σ ν ρ κ × Machine δ σ ν ρ κ → Progress δ σ ν ρ κ × Machine δ σ ν ρ κ
  | (.done r, m) => advance id (k r) m
  | (.crashed a, m) => (.crashed a, m)
  | (.waiting w, m) => (.waiting (w.andThen k), m)

/-- **A turn of a process with another one behind it.** -/
theorem advance_andThen (id : Nat) (k : ρ → Process δ σ ν ρ κ) :
    ∀ (p : Process δ σ ν ρ κ) (m : Machine δ σ ν ρ κ),
      advance id (p.andThen k) m = goingOn id k (advance id p m)
  | .done r, m => rfl
  | .crash a, m => rfl
  | .act deed next, m => by
    unfold Process.andThen advance
    exact advance_andThen id k (next m.world) _
  | .sleep ms here next, m => by
    unfold Process.andThen advance
    split
    · exact advance_andThen id k next m
    · rfl
  | .timed ms body next, m => by
    unfold Process.andThen advance
    obtain ⟨_ | _ | w, m'⟩ := advance id body m
    · exact advance_andThen id k _ m'
    · rfl
    · dsimp only
      split
      · exact advance_andThen id k _ _
      · rfl
  | .gather limit stops operations here next, m => by
    unfold Process.andThen advance
    dsimp only
    cases (Gathering.ofOperations limit stops operations).launch.2.result? with
    | some r => exact advance_andThen id k (next r) m
    | none => rfl
  | .race wins operations here next, m => by
    unfold Process.andThen advance
    dsimp only
    cases (Race.mk wins operations.length [] : Race ρ κ).result? with
    | some s => exact advance_andThen id k (next s) m
    | none => rfl

theorem resume_andThen (id : Nat) (k : ρ → Process δ σ ν ρ κ) :
    ∀ (w : Waiting δ σ ν ρ κ) (m : Machine δ σ ν ρ κ),
      resume id (w.andThen k) m = goingOn id k (resume id w m)
  | .asleep alarm here next, m => by
    unfold Waiting.andThen resume
    split
    · exact advance_andThen id k next m
    · rfl
  | .blocked block here next, m => by
    unfold Waiting.andThen resume
    obtain ⟨_ | s, m'⟩ := m.attend block
    · rfl
    · exact advance_andThen id k (next s) m'
  | .timed deadline body next, m => by
    unfold Waiting.andThen resume
    obtain ⟨_ | _ | w, m'⟩ := resume id body m
    · exact advance_andThen id k _ m'
    · rfl
    · dsimp only
      split
      · exact advance_andThen id k _ _
      · rfl

/-! ## A turn of the main task -/

/-- What a task does in its turn, by how far it has come. -/
def TaskState.goOn (id : Nat) : TaskState δ σ ν ρ κ → Machine δ σ ν ρ κ →
    Option (Progress δ σ ν ρ κ × Machine δ σ ν ρ κ)
  | fresh p, m => some (advance id p m)
  | waiting w, m => some (resume id w m)
  | cancelled _, _ => none

section MainTurn

variable {s : TaskState δ σ ν ρ κ} {b : Bool} {x : Progress δ σ ν ρ κ × Machine δ σ ν ρ κ}

theorem Led.turn_main (h : m.Led [mainTask s] b) (hx : s.goOn mainId m = some x) :
    m.turn mainId = conclude (mainTask s) x := by
  unfold turn
  rw [h.find?_main]
  cases s with
  | fresh p =>
    cases hx
    rfl
  | waiting w =>
    cases hx
    rfl
  | cancelled before => cases hx

theorem Led.goOn {front : List (Task δ σ ν ρ κ)} (h : m.Led front b)
    (hx : s.goOn mainId m = some x) : x.2.Led front b := by
  cases s with
  | fresh p =>
    cases hx
    exact h.advance mainId
  | waiting w =>
    cases hx
    exact h.resume mainId
  | cancelled before => cases hx

/-- With another process behind its own, the main task does the same until it has ended. -/
theorem goOn_andThen (k : ρ → Process δ σ ν ρ κ) (hx : s.goOn mainId m = some x) :
    (s.andThen k).goOn mainId (m.mapMain g)
      = some ((goingOn mainId k x).1, (goingOn mainId k x).2.mapMain g) := by
  cases s with
  | fresh p =>
    cases hx
    show some (advance mainId (p.andThen k) (m.mapMain g)) = _
    rw [advance_mapMain, advance_andThen]
  | waiting w =>
    cases hx
    show some (resume mainId (w.andThen k) (m.mapMain g)) = _
    rw [resume_mapMain, resume_andThen]
  | cancelled before => cases hx

omit [Deeds δ σ] in
/-- What the main task has come to does not depend on how far it had come before. -/
theorem Led.conclude_mapMain (h : m.Led [mainTask s] b) (pr : Progress δ σ ν ρ κ)
    (s₁ s₂ : TaskState δ σ ν ρ κ) (g₁ g₂ : TaskState δ σ ν ρ κ → TaskState δ σ ν ρ κ) :
    conclude (mainTask s₁) (pr, m.mapMain g₁) = conclude (mainTask s₂) (pr, m.mapMain g₂) := by
  have hremove : (m.mapMain g₁).removeTask mainId = (m.mapMain g₂).removeTask mainId := by
    rw [removeTask_mapMain, removeTask_mapMain, h.removeMain.mapMain_of_nil,
      h.removeMain.mapMain_of_nil]
  cases pr with
  | done r => exact congrArg (Prod.mk _) hremove
  | crashed a => exact congrArg (Prod.mk _) hremove
  | waiting w =>
    obtain ⟨operations, -, -, hmap⟩ := h.exists_operations
    unfold conclude Machine.mapMain
    dsimp only
    rw [hmap, hmap]
    rfl

omit [Deeds δ σ] in
/-- The main task waits, with another process behind its own. -/
theorem Led.waits_andThen (h : m.Led [mainTask s] b) (w : Waiting δ σ ν ρ κ)
    (k : ρ → Process δ σ ν ρ κ) :
    (m.tasks.map (Task.mapMain (TaskState.andThen k))).map (fun t =>
        if t.id = mainId then { t with state := .waiting (w.andThen k) } else t)
      = (m.tasks.map fun t : Task δ σ ν ρ κ =>
        if t.id = mainId then { t with state := .waiting w } else t).map
          (Task.mapMain (TaskState.andThen k)) := by
  obtain ⟨operations, ht, ho, -⟩ := h.exists_operations
  rw [ht, List.map_map, List.map_map, List.map_cons, List.map_cons]
  refine congrArg (mainTask (.waiting (w.andThen k)) :: ·) (List.map_congr_left fun t hm => ?_)
  obtain ⟨hp, hid⟩ := ho t hm
  rw [Function.comp_apply, Function.comp_apply, Task.mapMain_of_operation hp, if_neg hid,
    if_neg hid, Task.mapMain_of_operation hp]

/-- **A run that goes on in the turn in which it has ended** is one that is begun anew. -/
theorem Led.goOn_begin (h : m.Led [mainTask s] false) (turns : Nat) (q : Process δ σ ν ρ κ)
    (s' : TaskState δ σ ν ρ κ) :
    Machine.goOn turns (conclude (mainTask s') ((Machine.advance mainId q m).1,
        (Machine.advance mainId q m).2.mapMain g))
      = runTurns (turns + 1) ((m.removeTask mainId).begin q) := by
  obtain ⟨operations, ht, ho, hmap⟩ := h.exists_operations
  -- the task that is begun anew stands where the one before has stood
  let c : TaskState δ σ ν ρ κ → TaskState δ σ ν ρ κ := fun _ => .fresh q
  have hbegin : { (m.removeTask mainId).begin q with ready := m.ready } = m.mapMain c := by
    have hfilter : m.tasks.filter (fun t => t.id ≠ mainId) = operations := by
      rw [ht]
      exact List.filter_eq_self.mpr fun t hm => decide_eq_true (ho t hm).2
    unfold begin Machine.removeTask Machine.mapMain
    dsimp only
    rw [hfilter, hmap, ← h.mainReady]
  rw [runTurns_succ]
  show _ = Machine.goOn turns (turn mainId { (m.removeTask mainId).begin q with ready := m.ready })
  have hled : (m.mapMain c).Led [mainTask (.fresh q)] false := h.mapMain (g := c)
  rw [hbegin, hled.turn_main rfl, advance_mapMain]
  exact congrArg _ ((h.advance mainId).conclude_mapMain _ _ _ _ _)

end MainTurn

/-! ## Turns of operations, and the clock -/

section OtherTurns

variable {s : TaskState δ σ ν ρ κ} {b : Bool}

omit [Deeds δ σ] in
/-- What an operation has come to is the same however far the main task has come. -/
theorem Led.conclude_operation {x : Progress δ σ ν ρ κ × Machine δ σ ν ρ κ}
    (h : x.2.Led [mainTask s] b) {t : Task δ σ ν ρ κ} (hp : t.parent ≠ none)
    (hid : t.id ≠ mainId) :
    ∃ m' b', conclude t x = (none, m') ∧ m'.Led [mainTask s] b'
      ∧ ∀ g, conclude t (x.1, x.2.mapMain g) = (none, m'.mapMain g) := by
  obtain ⟨pr, m⟩ := x
  obtain ⟨id, _ | ⟨block, index⟩, state⟩ := t
  · exact absurd rfl hp
  have hfinish : ∀ r : Settlement ρ κ, ∃ m' b',
      Machine.finish ⟨id, some (block, index), state⟩ r m = (none, m') ∧ m'.Led [mainTask s] b'
        ∧ ∀ g, Machine.finish ⟨id, some (block, index), state⟩ r (m.mapMain g)
          = (none, m'.mapMain g) := fun r => by
    obtain ⟨b', hs⟩ := (h.removeTask hid).settle block index r
    refine ⟨_, b', rfl, hs, fun g => ?_⟩
    rw [← settle_mapMain, ← removeTask_mapMain]
    rfl
  cases pr with
  | done r => exact hfinish (.finished r)
  | crashed a => exact hfinish (.crashed id a)
  | waiting w =>
    let f : Task δ σ ν ρ κ → Task δ σ ν ρ κ := fun t =>
      if t.id = id then { t with state := .waiting w } else t
    have hf : ∀ t, (f t).parent = t.parent ∧ (f t).id = t.id := fun t => by
      unfold f
      split
      · exact ⟨rfl, rfl⟩
      · exact ⟨rfl, rfl⟩
    have hmain : ∀ s' : TaskState δ σ ν ρ κ, f (mainTask s') = mainTask s' := fun s' =>
      if_neg hid.symm
    have hled := h.map hf
    rw [List.map_singleton, hmain] at hled
    refine ⟨_, b, rfl, hled, fun g => ?_⟩
    obtain ⟨operations, ht, -, hmap⟩ := h.exists_operations
    obtain ⟨operations', ht', -, hmap'⟩ := hled.exists_operations
    have hops : operations.map f = operations' := by
      have hcons : mainTask s :: operations.map f = mainTask s :: operations' := by
        rw [← ht', ht, List.map_cons, hmain]
      exact (List.cons.inj hcons).2
    have htasks : (m.tasks.map (Task.mapMain g)).map f
        = (m.tasks.map f).map (Task.mapMain g) := by
      rw [hmap g, List.map_cons, hmain, hops]
      exact (hmap' g).symm
    show (none, { m.mapMain g with tasks := (m.tasks.map (Task.mapMain g)).map f }) = _
    rw [htasks]
    rfl

/-- **An operation does the same in its turn** however far the main task has come. -/
theorem Led.turn_operation (h : m.Led [mainTask s] b) {id : Nat} (hid : id ≠ mainId) :
    ∃ m' b', m.turn id = (none, m') ∧ m'.Led [mainTask s] b'
      ∧ ∀ g, (m.mapMain g).turn id = (none, m'.mapMain g) := by
  have hfind : ∀ g, ((m.mapMain g).tasks.find? fun t => t.id == id)
      = (m.tasks.find? fun t => t.id == id).map (Task.mapMain g) := fun g => by
    show ((m.tasks.map (Task.mapMain g)).find? fun t => t.id == id) = _
    rw [List.find?_map]
    have hg : (fun t : Task δ σ ν ρ κ => t.id == id) ∘ Task.mapMain g = fun t => t.id == id :=
      funext fun t => by
        show ((t.mapMain g).id == id) = _
        rw [Task.id_mapMain]
    rw [hg]
  unfold Machine.turn
  cases hf : m.tasks.find? fun t => t.id == id with
  | none =>
    refine ⟨m, b, rfl, h, fun g => ?_⟩
    rw [hfind, hf]
    rfl
  | some t =>
    have hp := h.parent_of_find? hid hf
    have hi : t.id = id := by simpa using List.find?_some hf
    have hg : ∀ g, ((m.mapMain g).tasks.find? fun t => t.id == id) = some t := fun g => by
      rw [hfind, hf]
      exact congrArg some (Task.mapMain_of_operation hp)
    simp only [hg]
    cases t.state with
    | fresh p =>
      obtain ⟨m', b', hc, hled, hm⟩ := (h.advance id (p := p)).conclude_operation
        (x := Machine.advance id p m) hp (hi ▸ hid)
      refine ⟨m', b', hc, hled, fun g => ?_⟩
      dsimp only
      rw [advance_mapMain]
      exact hm g
    | waiting w =>
      obtain ⟨m', b', hc, hled, hm⟩ := (h.resume id (w := w)).conclude_operation
        (x := Machine.resume id w m) hp (hi ▸ hid)
      refine ⟨m', b', hc, hled, fun g => ?_⟩
      dsimp only
      rw [resume_mapMain]
      exact hm g
    | cancelled before =>
      dsimp only
      cases before.waiting? with
      | none =>
        exact ⟨_, b, rfl, h.removeTask hid, fun g => congrArg _ (removeTask_mapMain id)⟩
      | some w =>
        refine ⟨_, b, rfl, (h.removeTask hid).drop w, fun g => ?_⟩
        dsimp only
        rw [removeTask_mapMain, drop_mapMain]

omit [Deeds δ σ] in
/-- The clock looks at what the main task waits for, and not at what it does then. -/
theorem moveClock_andThen (k : ρ → Process δ σ ν ρ κ) :
    (m.mapMain (TaskState.andThen k)).moveClock
      = m.moveClock.map (mapMain (TaskState.andThen k)) := by
  -- what is behind a process waits for nothing yet
  have halarms : (m.mapMain (TaskState.andThen k)).alarms = m.alarms := by
    unfold alarms
    show (m.tasks.map _).flatMap _ = _
    rw [List.flatMap_map]
    refine congrArg (List.flatMap · m.tasks) (funext fun t => ?_)
    obtain ⟨id, _ | parent, state⟩ := t
    · cases state with
      | fresh | cancelled => rfl
      | waiting w => exact congrArg (List.map fun a => (a, id)) (w.alarms_andThen k)
    · rfl
  have hwake : ∀ (due : List (Alarm × Nat)) (now : Nat),
      due.foldl (fun m a => wake a.2 m) { m.mapMain (TaskState.andThen k) with now := now }
        = (due.foldl (fun m a => wake a.2 m) { m with now := now }).mapMain
          (TaskState.andThen k) := fun due now => by
    have hids := foldl_wake_mapMain (m := { m with now := now }) (g := TaskState.andThen k)
      (due.map Prod.snd)
    rw [List.foldl_map, List.foldl_map] at hids
    exact hids
  unfold moveClock
  dsimp only
  rw [halarms]
  split
  · rfl
  · rw [hwake]
    split
    · rfl
    · rfl

end OtherTurns

/-! ## Runs -/

/-- **A machine in the run of its main task**, when a turn is given: the main task is the next
to have one, or it is not among those that have their turns in order. -/
inductive Started (s : TaskState δ σ ν ρ κ) (m : Machine δ σ ν ρ κ) : Prop
  | next {rest : List Nat} (hr : m.ready = mainId :: rest)
      (h : Led [mainTask s] false { m with ready := rest })
  | later {b : Bool} (h : m.Led [mainTask s] b)

section Runs

variable {s : TaskState δ σ ν ρ κ} {m₁ : Machine δ σ ν ρ κ}

omit [Deeds δ σ]

theorem Idle.begin (h : m.Idle) (p : Process δ σ ν ρ κ) : Started (.fresh p) (m.begin p) := by
  obtain ⟨operations, ht, ho⟩ := h.tasks
  exact .next rfl ⟨List.forall_mem_singleton.mpr ⟨rfl, rfl⟩,
    ⟨operations, congrArg (mainTask (.fresh p) :: ·) ht, ho⟩, h.serial, h.turns, rfl⟩

theorem next?_mapMain :
    (m.mapMain g).next? = m.next?.map fun x => (x.1, x.2.mapMain g) := by
  obtain ⟨world, now, serial, tasks, blocks, ready, mainReady⟩ := m
  cases ready with
  | cons id rest => rfl
  | nil =>
    cases mainReady with
    | true => rfl
    | false => rfl

theorem Started.of_next? (h : Started s m) {id : Nat} (hn : m.next? = some (id, m₁)) :
    (id = mainId ∧ m₁.Led [mainTask s] false)
      ∨ id ≠ mainId ∧ ∃ b, m₁.Led [mainTask s] b := by
  unfold Machine.next? at hn
  cases h with
  | next hr h =>
    rw [hr] at hn
    cases hn
    exact .inl ⟨rfl, h⟩
  | @later b h =>
    cases hr : m.ready with
    | cons id rest =>
      rw [hr] at hn
      cases hn
      have hturns := h.turns
      rw [hr] at hturns
      exact .inr ⟨fun he => hturns (he ▸ List.mem_cons_self), b, h.mains, h.tasks, h.serial,
        fun hm => hturns (List.mem_cons_of_mem _ hm), h.mainReady⟩
    | nil =>
      rw [hr] at hn
      dsimp only at hn
      split at hn
      · cases hn
        exact .inl ⟨rfl, h.mains, h.tasks, h.serial, nofun, rfl⟩
      · cases hn

theorem Started.of_moveClock (h : Started s m) (hn : m.next? = none)
    (hc : m.moveClock = some m₁) : Started s m₁ := by
  have hled : m.Led [mainTask s] false := by
    unfold Machine.next? at hn
    cases h with
    | next hr h =>
      rw [hr] at hn
      cases hn
    | later h =>
      split at hn
      · cases hn
      · split at hn
        · cases hn
        · rename_i hm
          exact ⟨h.mains, h.tasks, h.serial, h.turns, Bool.eq_false_iff.mpr hm⟩
  unfold Machine.moveClock at hc
  dsimp only at hc
  split at hc
  · cases hc
  · rename_i now _
    have hnow : Led [mainTask s] false { m with now := now } :=
      ⟨hled.mains, hled.tasks, hled.serial, hled.turns, hled.mainReady⟩
    have hwoken : ∀ due : List (Alarm × Nat), Led [mainTask s] false
        ((due.filter fun a => a.2 ≠ mainId).foldl (fun m a => wake a.2 m) { m with now := now }) :=
      fun due => by
        have hids := hnow.foldl_wake ((due.filter fun a => a.2 ≠ mainId).map Prod.snd)
          fun id hid => by
            obtain ⟨a, ha, rfl⟩ := List.mem_map.mp hid
            exact of_decide_eq_true (List.mem_filter.mp ha).2
        rw [List.foldl_map] at hids
        exact hids
    split at hc
    · cases hc
      exact .next rfl (hwoken _)
    · cases hc
      exact .later (hwoken _)

end Runs

/-- **How a run goes on where another has ended.** `x` is what the run of a process comes to
with so many turns, and `y` what the run of the process with `k` behind it does: if the process
has ended, `k` is begun then, with the turns that are left, and otherwise both come to the
same. -/
def Continues (k : ρ → Process δ σ ν ρ κ) (turns : Nat)
    (x y : Ending ρ κ × Machine δ σ ν ρ κ) : Prop :=
  match x with
  | (.finished r, m) => m.Idle
    ∧ ∃ left, left < turns ∧ y = runTurns (left + 1) (m.begin (k r))
  | (.crashed a, m) => y = (.crashed a, m)
  | (.unfinished, _) => y.1 = .unfinished

theorem Continues.mono {k : ρ → Process δ σ ν ρ κ} {turns more : Nat}
    {x y : Ending ρ κ × Machine δ σ ν ρ κ} (h : Continues k turns x y) (hle : turns ≤ more) :
    Continues k more x y := by
  obtain ⟨_ | _ | _, m⟩ := x
  · obtain ⟨hi, left, hlt, hy⟩ := h
    exact ⟨hi, left, Nat.lt_of_lt_of_le hlt hle, hy⟩
  · exact h
  · exact h

/-- A turn of the main task that has another process behind its own. -/
theorem Led.continues_turn {s : TaskState δ σ ν ρ κ} (h : m.Led [mainTask s] false)
    (hs : ∀ before, s ≠ .cancelled before) {k : ρ → Process δ σ ν ρ κ} {turns : Nat}
    (ih : ∀ {s : TaskState δ σ ν ρ κ} {m : Machine δ σ ν ρ κ}, Started s m →
      (∀ before, s ≠ .cancelled before) → Continues k turns (Machine.runTurns turns m)
        (Machine.runTurns turns (m.mapMain (TaskState.andThen k)))) :
    Continues k (turns + 1) (Machine.goOn turns (m.turn mainId))
      (Machine.goOn turns ((m.mapMain (TaskState.andThen k)).turn mainId)) := by
  obtain ⟨x, hx⟩ : ∃ x, s.goOn mainId m = some x := by
    cases s with
    | fresh p => exact ⟨_, rfl⟩
    | waiting w => exact ⟨_, rfl⟩
    | cancelled before => exact absurd rfl (hs before)
  have hled := h.goOn hx
  rw [h.turn_main hx, h.mapMain.turn_main (goOn_andThen k hx)]
  obtain ⟨_ | _ | w, m'⟩ := x
  -- the process has ended, and the one behind it goes on in the same turn
  · exact ⟨hled.removeMain, turns, Nat.lt_succ_self turns, hled.goOn_begin _ _ _⟩
  · show (Ending.crashed _, (m'.mapMain _).removeTask mainId) = (_, m'.removeTask mainId)
    rw [removeTask_mapMain, hled.removeMain.mapMain_of_nil]
  · refine Continues.mono (x := Machine.runTurns turns _) ?_ (Nat.le_succ turns)
    show Continues k turns _ (Machine.runTurns turns { m'.mapMain _ with
      tasks := (m'.tasks.map (Task.mapMain (TaskState.andThen k))).map _ })
    rw [hled.waits_andThen]
    exact ih (.later (hled.waits w)) nofun

/-- **A run goes on where another has ended.** The induction is on the turns. -/
theorem Started.continues {k : ρ → Process δ σ ν ρ κ} (turns : Nat) :
    ∀ {s : TaskState δ σ ν ρ κ} {m : Machine δ σ ν ρ κ}, Started s m →
      (∀ before, s ≠ .cancelled before) → Continues k turns (runTurns turns m)
        (runTurns turns (m.mapMain (TaskState.andThen k))) := by
  induction turns with
  | zero => exact fun _ _ => rfl
  | succ turns ih =>
    intro s m h hs
    rw [runTurns_succ, runTurns_succ, next?_mapMain]
    cases hn : m.next? with
    | none =>
      dsimp only [Option.map]
      rw [moveClock_andThen]
      cases hc : m.moveClock with
      | none => rfl
      | some m₁ => exact (ih (h.of_moveClock hn hc) hs).mono (Nat.le_succ turns)
    | some x =>
      obtain ⟨id, m₁⟩ := x
      dsimp only [Option.map]
      obtain ⟨rfl, hled⟩ | ⟨hid, b, hled⟩ := h.of_next? hn
      · exact hled.continues_turn hs ih
      · obtain ⟨m', b', hturn, hled', hmap⟩ := hled.turn_operation hid
        rw [hturn, hmap]
        exact (ih (.later hled') hs).mono (Nat.le_succ turns)

/-- **One process after another** runs as the first does, on a machine without a main task, and
when the first has ended as the second does on the machine that is left. -/
theorem run_andThen (h : m.Idle) (p : Process δ σ ν ρ κ) (k : ρ → Process δ σ ν ρ κ)
    (turns : Nat) : Continues k turns (run turns p m) (run turns (p.andThen k) m) := by
  have hbegin : (m.begin p).mapMain (TaskState.andThen k) = m.begin (p.andThen k) := by
    have hsame : (m.mapMain (TaskState.andThen k)).begin (p.andThen k) = m.begin (p.andThen k) := by
      rw [h.mapMain_of_nil]
    exact hsame
  have hc := (Idle.begin h p).continues (k := k) turns nofun
  rw [hbegin] at hc
  exact hc

/-- **A run of one process after another that ends** is a run of the first and then one of the
second. -/
theorem finished_of_run_andThen (h : m.Idle) {p : Process δ σ ν ρ κ}
    {k : ρ → Process δ σ ν ρ κ} {turns : Nat} {r : ρ} {m' : Machine δ σ ν ρ κ}
    (hr : run turns (p.andThen k) m = (.finished r, m')) :
    ∃ r₁ m₁ left, run turns p m = (.finished r₁, m₁) ∧ left ≤ turns
      ∧ run left (k r₁) m₁ = (.finished r, m') := by
  have hc := run_andThen h p k turns
  rw [hr] at hc
  generalize hx : run turns p m = x at hc
  obtain ⟨r₁ | a | _, m₁⟩ := x
  · obtain ⟨-, left, hlt, hy⟩ := hc
    exact ⟨r₁, m₁, left + 1, rfl, hlt, hy.symm⟩
  · cases hc
  · cases hc

/-- A run that has ended is the same with more turns. -/
theorem run_of_le {p : Process δ σ ν ρ κ} {turns more : Nat} {r : ρ} {m' : Machine δ σ ν ρ κ}
    (h : run turns p m = (.finished r, m')) (hle : turns ≤ more) :
    run more p m = (.finished r, m') := by
  obtain ⟨n, rfl⟩ := Nat.exists_eq_add_of_le hle
  exact runTurns_add h nofun n

/-- A process that has ended leaves the machine as it is. -/
theorem run_done (h : m.Idle) (r : ρ) (turns : Nat) :
    run (turns + 1) (.done r) m = (.finished r, m) := by
  obtain ⟨operations, ht, ho⟩ := h.tasks
  -- the machine in the first turn, which is that of the main task
  let started : Machine δ σ ν ρ κ := { m.begin (.done r) with ready := m.ready }
  have hled : started.Led [mainTask (.fresh (.done r))] false :=
    ⟨List.forall_mem_singleton.mpr ⟨rfl, rfl⟩,
      ⟨operations, congrArg (mainTask (.fresh (.done r)) :: ·) ht, ho⟩, h.serial, h.turns, rfl⟩
  have hremove : started.removeTask mainId = m := by
    have hfilter : m.tasks.filter (fun t => t.id ≠ mainId) = m.tasks :=
      List.filter_eq_self.mpr fun t hm =>
        decide_eq_true (ho t (List.nil_append operations ▸ ht ▸ hm)).2
    show { m with tasks := m.tasks.filter fun t => t.id ≠ mainId, mainReady := false } = m
    rw [hfilter, ← h.mainReady]
  have hturn : started.turn mainId = (some (.finished r), started.removeTask mainId) :=
    hled.turn_main (x := (.done r, started)) rfl
  unfold run
  rw [runTurns_succ]
  show goOn turns (started.turn mainId) = _
  rw [hturn, hremove]
  rfl

theorem finished_of_run_done (h : m.Idle) {r r' : ρ} {turns : Nat} {m' : Machine δ σ ν ρ κ}
    (hr : run turns (.done r) m = (.finished r', m')) : r' = r ∧ m' = m := by
  cases turns with
  | zero => cases hr
  | succ turns =>
    cases (run_done h r turns).symm.trans hr
    exact ⟨rfl, rfl⟩

end Machine

end Playbook
