import Playbook.Process.Machine

/-!
# The main task among the others

How far the main task has come makes no difference to the other tasks: they do the same in their
turns, and so do blocks and the clock (`Machine.mapMain`, `Machine.advance_mapMain`). While lists of
steps are run one after the other on a machine, its tasks are the main task, if there is one, and
behind it operations of blocks (`Machine.Led`). Between two runs there are operations only
(`Machine.Idle`).
-/

namespace Playbook

variable {δ σ ν ρ κ : Type}

namespace Machine

variable {g : TaskState δ σ ν ρ κ → TaskState δ σ ν ρ κ} {m : Machine δ σ ν ρ κ}

/-- A task that has come as far as `g` says, if it is a main task. -/
def Task.mapMain (g : TaskState δ σ ν ρ κ → TaskState δ σ ν ρ κ) (t : Task δ σ ν ρ κ) :
    Task δ σ ν ρ κ :=
  if t.parent.isNone then { t with state := g t.state } else t

/-- The machine in which the main task has come as far as `g` says. -/
def mapMain (g : TaskState δ σ ν ρ κ → TaskState δ σ ν ρ κ) (m : Machine δ σ ν ρ κ) :
    Machine δ σ ν ρ κ :=
  { m with tasks := m.tasks.map (Task.mapMain g) }

/-! ## What does not look at the main task -/

@[simp] theorem Task.id_mapMain (t : Task δ σ ν ρ κ) : (t.mapMain g).id = t.id := by
  unfold mapMain
  split
  · rfl
  · rfl

@[simp] theorem Task.parent_mapMain (t : Task δ σ ν ρ κ) :
    (t.mapMain g).parent = t.parent := by
  unfold mapMain
  split
  · rfl
  · rfl

theorem Task.mapMain_of_operation {t : Task δ σ ν ρ κ} (h : t.parent ≠ none) :
    t.mapMain g = t :=
  if_neg fun hn => h (Option.isNone_iff_eq_none.mp hn)

theorem spawn_mapMain (block index : Nat) (p : Process δ σ ν ρ κ) :
    (m.mapMain g).spawn block index p = (m.spawn block index p).mapMain g := by
  unfold spawn mapMain
  rw [List.map_append]
  rfl

theorem spawnAll_mapMain (block : Nat) (operations : List (Nat × Process δ σ ν ρ κ)) :
    (m.mapMain g).spawnAll block operations = (m.spawnAll block operations).mapMain g := by
  induction operations generalizing m with
  | nil => rfl
  | cons op rest ih =>
    show ((m.mapMain g).spawn block op.1 op.2).spawnAll block rest = _
    rw [spawn_mapMain]
    exact ih

theorem wake_mapMain (id : Nat) : (m.mapMain g).wake id = (m.wake id).mapMain g := by
  unfold wake
  split
  · rfl
  · show (if m.ready.contains id then _ else _) = _
    split
    · rfl
    · rfl

theorem foldl_wake_mapMain (ids : List Nat) :
    ids.foldl (fun m id => m.wake id) (m.mapMain g)
      = (ids.foldl (fun m id => m.wake id) m).mapMain g := by
  induction ids generalizing m with
  | nil => rfl
  | cons id rest ih =>
    rw [List.foldl_cons, List.foldl_cons, wake_mapMain, ih]

theorem cancelOperations_mapMain (block : Nat) :
    (m.mapMain g).cancelOperations block = (m.cancelOperations block).mapMain g := by
  let isOperation := fun t : Task δ σ ν ρ κ => t.parent.any fun p => p.1 == block
  let cancel := fun t : Task δ σ ν ρ κ =>
    if isOperation t then { t with state := .cancelled t.state } else t
  have hids : ((m.tasks.map (Task.mapMain g)).filter isOperation).map Task.id
      = (m.tasks.filter isOperation).map Task.id := by
    rw [List.filter_map, List.map_map]
    have hf : isOperation ∘ Task.mapMain g = isOperation := funext fun t => by
      show (t.mapMain g).parent.any _ = t.parent.any _
      rw [Task.parent_mapMain]
    rw [hf]
    exact List.map_congr_left fun t _ => Task.id_mapMain t
  have hcancel : (m.tasks.map (Task.mapMain g)).map cancel
      = (m.tasks.map cancel).map (Task.mapMain g) := by
    rw [List.map_map, List.map_map]
    refine List.map_congr_left fun t _ => ?_
    obtain ⟨id, _ | parent, state⟩ := t
    · rfl
    · show cancel ⟨id, some parent, state⟩ = Task.mapMain g (cancel ⟨id, some parent, state⟩)
      refine (Task.mapMain_of_operation ?_).symm
      show (if _ then _ else _ : Task δ σ ν ρ κ).parent ≠ none
      split
      · exact nofun
      · exact nofun
  show (((m.tasks.map (Task.mapMain g)).filter isOperation).map Task.id).foldl
      (fun m id => m.wake id) { m with tasks := (m.tasks.map (Task.mapMain g)).map cancel } = _
  rw [hids, hcancel]
  exact foldl_wake_mapMain (m := { m with tasks := m.tasks.map cancel }) _

@[simp] theorem blocks_mapMain : (m.mapMain g).blocks = m.blocks :=
  rfl

theorem dropBlock_mapMain (id : Nat) :
    (m.mapMain g).dropBlock id = (m.dropBlock id).mapMain g := by
  unfold dropBlock
  rw [blocks_mapMain]
  generalize (m.blocks.find? fun b => b.id == id) = found
  obtain _ | ⟨_, _, _ | _⟩ := found
  · rfl
  · rfl
  · exact cancelOperations_mapMain (m := m.removeBlock id) id

theorem drop_mapMain (w : Waiting δ σ ν ρ κ) : (m.mapMain g).drop w = (m.drop w).mapMain g := by
  unfold drop
  induction w.blocks generalizing m with
  | nil => rfl
  | cons id rest ih => rw [List.foldl_cons, List.foldl_cons, dropBlock_mapMain, ih]

theorem openBlock_mapMain (owner : Nat) (state : BlockState δ σ ν ρ κ)
    (start : List (Nat × Process δ σ ν ρ κ)) :
    (m.mapMain g).openBlock owner state start
      = ((m.openBlock owner state start).1, (m.openBlock owner state start).2.mapMain g) :=
  congrArg (Prod.mk m.serial) (spawnAll_mapMain
    (m := { m with serial := m.serial + 1, blocks := ⟨m.serial, owner, state⟩ :: m.blocks }) _ _)

theorem attend_mapMain (id : Nat) :
    (m.mapMain g).attend id = ((m.attend id).1, (m.attend id).2.mapMain g) := by
  unfold attend
  rw [blocks_mapMain]
  generalize (m.blocks.find? fun b => b.id == id) = found
  obtain _ | ⟨_, owner, g' | r⟩ := found
  · rfl
  · dsimp only
    cases g'.launch.2.result? with
    | some _ => rfl
    | none =>
      exact congrArg (Prod.mk none)
        (spawnAll_mapMain (m := m.putBlock ⟨id, owner, .gathering g'.launch.2⟩) id g'.launch.1)
  · dsimp only
    cases r.result? with
    | some s =>
      exact congrArg (Prod.mk (some s)) (cancelOperations_mapMain (m := m.removeBlock id) id)
    | none => rfl

theorem settle_mapMain (block index : Nat) (s : Settlement ρ κ) :
    (m.mapMain g).settle block index s = (m.settle block index s).mapMain g := by
  unfold settle
  rw [blocks_mapMain]
  generalize (m.blocks.find? fun b => b.id == block) = found
  obtain _ | ⟨id, owner, g' | r⟩ := found
  · rfl
  · dsimp only
    split
    · exact wake_mapMain (m := m.putBlock ⟨id, owner, .gathering (g'.settle index s)⟩) owner
    · rfl
  · exact wake_mapMain (m := m.putBlock ⟨id, owner, .race (r.settle index s)⟩) owner

theorem removeTask_mapMain (id : Nat) :
    (m.mapMain g).removeTask id = (m.removeTask id).mapMain g := by
  unfold removeTask mapMain
  rw [List.filter_map]
  have hf : (fun t : Task δ σ ν ρ κ => decide (t.id ≠ id)) ∘ Task.mapMain g
      = fun t => decide (t.id ≠ id) := funext fun t => by
    show decide ((t.mapMain g).id ≠ id) = _
    rw [Task.id_mapMain]
  rw [hf]

/-! ## Turns -/

variable [Deeds δ σ]

/-- **What a process does in a turn does not depend on how far the main task has come.** The
induction is on the process, and what is done behind a limited process is under it, too. -/
theorem advance_mapMain (id : Nat) : ∀ (p : Process δ σ ν ρ κ) (m : Machine δ σ ν ρ κ),
    advance id p (m.mapMain g) = ((advance id p m).1, (advance id p m).2.mapMain g)
  | .done r, m => rfl
  | .crash a, m => rfl
  | .act deed next, m => by
    unfold advance
    exact advance_mapMain id (next m.world) { m with world := Deeds.perform deed m.world }
  | .sleep ms here next, m => by
    unfold advance
    split
    · exact advance_mapMain id next m
    · rfl
  | .timed ms body next, m => by
    unfold advance
    rw [advance_mapMain id body m]
    obtain ⟨_ | _ | w, m'⟩ := advance id body m
    · exact advance_mapMain id _ m'
    · rfl
    · dsimp only
      split
      · rw [drop_mapMain]
        exact advance_mapMain id _ _
      · rfl
  | .gather limit stops operations here next, m => by
    unfold advance
    dsimp only
    cases (Gathering.ofOperations limit stops operations).launch.2.result? with
    | some r => exact advance_mapMain id (next r) m
    | none =>
      dsimp only
      rw [openBlock_mapMain]
  | .race wins operations here next, m => by
    unfold advance
    dsimp only
    cases (Race.mk wins operations.length [] : Race ρ κ).result? with
    | some s => exact advance_mapMain id (next s) m
    | none =>
      dsimp only
      rw [openBlock_mapMain]

theorem resume_mapMain (id : Nat) : ∀ (w : Waiting δ σ ν ρ κ) (m : Machine δ σ ν ρ κ),
    resume id w (m.mapMain g) = ((resume id w m).1, (resume id w m).2.mapMain g)
  | .asleep alarm here next, m => by
    unfold resume
    show (if alarm.due ≤ m.now then _ else _) = _
    split
    · exact advance_mapMain id next m
    · rfl
  | .blocked block here next, m => by
    unfold resume
    rw [attend_mapMain]
    obtain ⟨_ | s, m'⟩ := m.attend block
    · rfl
    · exact advance_mapMain id (next s) m'
  | .timed deadline body next, m => by
    unfold resume
    rw [resume_mapMain id body m]
    obtain ⟨_ | _ | w, m'⟩ := resume id body m
    · exact advance_mapMain id _ m'
    · rfl
    · dsimp only
      show (if deadline.due ≤ m'.now then _ else _) = _
      split
      · rw [drop_mapMain]
        exact advance_mapMain id _ _
      · rfl

/-! ## The main task among the others -/

/-- **The main task comes first.** The tasks of the machine are those of `front`, which are main
tasks, and behind them operations of blocks. The main task is not among those that have their
turns in order; `ready` says whether it has one when no other task can run. -/
structure Led (front : List (Task δ σ ν ρ κ)) (ready : Bool) (m : Machine δ σ ν ρ κ) : Prop where
  mains : ∀ t ∈ front, t.parent = none ∧ t.id = mainId
  tasks : ∃ operations, m.tasks = front ++ operations
    ∧ ∀ t ∈ operations, t.parent ≠ none ∧ t.id ≠ mainId
  serial : mainId < m.serial
  turns : mainId ∉ m.ready
  mainReady : m.mainReady = ready

/-- **A machine between two runs**: no main task is there. -/
abbrev Idle (m : Machine δ σ ν ρ κ) : Prop :=
  m.Led [] false

omit [Deeds δ σ] in
theorem idle_ofWorld (w : σ) : (ofWorld w : Machine δ σ ν ρ κ).Idle :=
  ⟨nofun, ⟨[], rfl, nofun⟩, Nat.zero_lt_one, nofun, rfl⟩

namespace Led

variable {front : List (Task δ σ ν ρ κ)} {b : Bool}

omit [Deeds δ σ]

theorem spawn (h : m.Led front b) (block index : Nat) (p : Process δ σ ν ρ κ) :
    (m.spawn block index p).Led front b where
  mains := h.mains
  tasks := by
    obtain ⟨operations, ht, ho⟩ := h.tasks
    refine ⟨operations ++ [⟨m.serial, some (block, index), .fresh p⟩], ?_,
      List.forall_mem_append.mpr ⟨ho, List.forall_mem_singleton.mpr ⟨nofun, ?_⟩⟩⟩
    · show m.tasks ++ _ = _
      rw [ht, List.append_assoc]
    · exact Nat.ne_of_gt h.serial
  serial := Nat.lt_succ_of_lt h.serial
  turns hm := by
    obtain hm | hm := List.mem_append.mp hm
    · exact h.turns hm
    · exact Nat.ne_of_lt h.serial (List.mem_singleton.mp hm)
  mainReady := h.mainReady

theorem spawnAll (h : m.Led front b) (block : Nat)
    (operations : List (Nat × Process δ σ ν ρ κ)) :
    (m.spawnAll block operations).Led front b := by
  induction operations generalizing m with
  | nil => exact h
  | cons op rest ih => exact ih (h.spawn block op.1 op.2)

theorem putBlock (h : m.Led front b) (block : Block δ σ ν ρ κ) :
    (m.putBlock block).Led front b :=
  ⟨h.mains, h.tasks, h.serial, h.turns, h.mainReady⟩

theorem removeBlock (h : m.Led front b) (id : Nat) : (m.removeBlock id).Led front b :=
  ⟨h.mains, h.tasks, h.serial, h.turns, h.mainReady⟩

/-- An operation is woken. -/
theorem wake_operation (h : m.Led front b) {id : Nat} (hid : id ≠ mainId) :
    (m.wake id).Led front b := by
  unfold Machine.wake
  rw [if_neg hid]
  split
  · exact h
  · refine ⟨h.mains, h.tasks, h.serial, fun hm => ?_, h.mainReady⟩
    obtain hm | hm := List.mem_append.mp hm
    · exact h.turns hm
    · exact hid (List.mem_singleton.mp hm).symm

/-- A task is woken, and it may be the main task. -/
theorem wake (h : m.Led front b) (id : Nat) : ∃ b, (m.wake id).Led front b := by
  by_cases hid : id = mainId
  · unfold Machine.wake
    rw [if_pos hid]
    exact ⟨true, h.mains, h.tasks, h.serial, h.turns, rfl⟩
  · exact ⟨b, h.wake_operation hid⟩

theorem foldl_wake (h : m.Led front b) (ids : List Nat) (hid : ∀ id ∈ ids, id ≠ mainId) :
    (ids.foldl (fun m id => m.wake id) m).Led front b := by
  induction ids generalizing m with
  | nil => exact h
  | cons id rest ih =>
    obtain ⟨hi, hrest⟩ := List.forall_mem_cons.mp hid
    exact ih (h.wake_operation hi) hrest

/-- The operations are changed, and stay what they are. -/
theorem map (h : m.Led front b) {f : Task δ σ ν ρ κ → Task δ σ ν ρ κ}
    (hf : ∀ t, (f t).parent = t.parent ∧ (f t).id = t.id) :
    Led (front.map f) b { m with tasks := m.tasks.map f } where
  mains t ht := by
    obtain ⟨t, hm, rfl⟩ := List.mem_map.mp ht
    rw [(hf t).1, (hf t).2]
    exact h.mains t hm
  tasks := by
    obtain ⟨operations, ht, ho⟩ := h.tasks
    refine ⟨operations.map f, ?_, fun t ht => ?_⟩
    · show m.tasks.map f = _
      rw [ht, List.map_append]
    · obtain ⟨t, hm, rfl⟩ := List.mem_map.mp ht
      rw [(hf t).1, (hf t).2]
      exact ho t hm
  serial := h.serial
  turns := h.turns
  mainReady := h.mainReady

theorem cancelOperations (h : m.Led front b) (block : Nat) :
    (m.cancelOperations block).Led front b := by
  let cancel := fun t : Task δ σ ν ρ κ =>
    if t.parent.any fun p => p.1 == block then { t with state := .cancelled t.state } else t
  have hmap : front.map cancel = front := by
    refine .trans (List.map_congr_left fun t ht => if_neg ?_) (List.map_id front)
    rw [(h.mains t ht).1]
    exact nofun
  have hcancel := h.map (f := cancel) fun t => by
    unfold cancel
    split
    · exact ⟨rfl, rfl⟩
    · exact ⟨rfl, rfl⟩
  rw [hmap] at hcancel
  refine hcancel.foldl_wake _ fun id hid => ?_
  -- the main task belongs to no block, and is not among those that are woken
  obtain ⟨t, ht, rfl⟩ := List.mem_map.mp hid
  obtain ⟨ht, hp⟩ := List.mem_filter.mp ht
  obtain ⟨operations, hts, ho⟩ := h.tasks
  rw [hts] at ht
  obtain ht | ht := List.mem_append.mp ht
  · rw [(h.mains t ht).1] at hp
    cases hp
  · exact (ho t ht).2

theorem dropBlock (h : m.Led front b) (id : Nat) : (m.dropBlock id).Led front b := by
  unfold Machine.dropBlock
  split
  · exact (h.removeBlock id).cancelOperations id
  · exact h.removeBlock id
  · exact h

theorem drop (h : m.Led front b) (w : Waiting δ σ ν ρ κ) : (m.drop w).Led front b := by
  unfold Machine.drop
  induction w.blocks generalizing m with
  | nil => exact h
  | cons id rest ih => exact ih (h.dropBlock id)

theorem openBlock (h : m.Led front b) (owner : Nat) (state : BlockState δ σ ν ρ κ)
    (start : List (Nat × Process δ σ ν ρ κ)) :
    (m.openBlock owner state start).2.Led front b :=
  spawnAll (m := { m with serial := m.serial + 1, blocks := ⟨m.serial, owner, state⟩ :: m.blocks })
    ⟨h.mains, h.tasks, Nat.lt_succ_of_lt h.serial, h.turns, h.mainReady⟩ _ _

theorem attend (h : m.Led front b) (id : Nat) : (m.attend id).2.Led front b := by
  unfold Machine.attend
  split
  · exact h
  · dsimp only
    split
    · exact h.removeBlock id
    · exact (h.putBlock _).spawnAll id _
  · split
    · exact (h.removeBlock id).cancelOperations id
    · exact h

theorem settle (h : m.Led front b) (block index : Nat) (s : Settlement ρ κ) :
    ∃ b, (m.settle block index s).Led front b := by
  unfold Machine.settle
  split
  · exact ⟨b, h⟩
  · dsimp only
    split
    · exact (h.putBlock _).wake _
    · exact ⟨b, h.putBlock _⟩
  · exact (h.putBlock _).wake _

/-- An operation is forgotten. -/
theorem removeTask (h : m.Led front b) {id : Nat} (hid : id ≠ mainId) :
    (m.removeTask id).Led front b where
  mains := h.mains
  tasks := by
    obtain ⟨operations, ht, ho⟩ := h.tasks
    refine ⟨operations.filter fun t => t.id ≠ id, ?_,
      fun t ht => ho t (List.mem_filter.mp ht).1⟩
    show m.tasks.filter _ = _
    rw [ht, List.filter_append, List.filter_eq_self.mpr]
    exact fun t ht => decide_eq_true ((h.mains t ht).2 ▸ hid.symm)
  serial := h.serial
  turns := h.turns
  mainReady := h.mainReady

/-- The main task is forgotten. -/
theorem removeMain (h : m.Led front b) : (m.removeTask mainId).Led [] b where
  mains := nofun
  tasks := by
    obtain ⟨operations, ht, ho⟩ := h.tasks
    refine ⟨operations, ?_, ho⟩
    show m.tasks.filter _ = _
    rw [ht, List.filter_append, List.filter_eq_nil_iff.mpr, List.filter_eq_self.mpr]
    · exact fun t ht => decide_eq_true (ho t ht).2
    · exact fun t ht hd => of_decide_eq_true hd (h.mains t ht).2
  serial := h.serial
  turns := h.turns
  mainReady := h.mainReady

end Led

namespace Led

variable {front : List (Task δ σ ν ρ κ)} {b : Bool}

theorem advance (id : Nat) : ∀ {p : Process δ σ ν ρ κ} {m : Machine δ σ ν ρ κ},
    m.Led front b → (Machine.advance id p m).2.Led front b
  | .done r, m, h => h
  | .crash a, m, h => h
  | .act deed next, m, h => by
    unfold Machine.advance
    exact advance id (p := next m.world) ⟨h.mains, h.tasks, h.serial, h.turns, h.mainReady⟩
  | .sleep ms here next, m, h => by
    unfold Machine.advance
    split
    · exact advance id (p := next) h
    · exact ⟨h.mains, h.tasks, Nat.lt_succ_of_lt h.serial, h.turns, h.mainReady⟩
  | .timed ms body next, m, h => by
    have hb := advance id (p := body) h
    unfold Machine.advance
    generalize Machine.advance id body m = a at hb
    obtain ⟨r | _ | w, m'⟩ := a
    · exact advance id (p := next (.inl r)) hb
    · exact hb
    · dsimp only
      split
      · exact advance id (p := next (.inr w.here)) (hb.drop w)
      · exact ⟨hb.mains, hb.tasks, Nat.lt_succ_of_lt hb.serial, hb.turns, hb.mainReady⟩
  | .gather limit stops operations here next, m, h => by
    unfold Machine.advance
    dsimp only
    split
    · exact advance id (p := next _) h
    · exact h.openBlock id _ _
  | .race wins operations here next, m, h => by
    unfold Machine.advance
    dsimp only
    split
    · exact advance id (p := next _) h
    · exact h.openBlock id _ _

theorem resume (id : Nat) : ∀ {w : Waiting δ σ ν ρ κ} {m : Machine δ σ ν ρ κ},
    m.Led front b → (Machine.resume id w m).2.Led front b
  | .asleep alarm here next, m, h => by
    unfold Machine.resume
    split
    · exact h.advance id
    · exact h
  | .blocked block here next, m, h => by
    have ha := h.attend block
    unfold Machine.resume
    generalize m.attend block = a at ha
    obtain ⟨_ | s, m'⟩ := a
    · exact ha
    · exact ha.advance id
  | .timed deadline body next, m, h => by
    have hb := resume id (w := body) h
    unfold Machine.resume
    generalize Machine.resume id body m = a at hb
    obtain ⟨r | _ | w, m'⟩ := a
    · exact hb.advance id
    · exact hb
    · dsimp only
      split
      · exact (hb.drop w).advance id
      · exact hb

end Led

/-- The main task that has come as far as a state says. -/
abbrev mainTask (s : TaskState δ σ ν ρ κ) : Task δ σ ν ρ κ :=
  ⟨mainId, none, s⟩

namespace Led

variable {s : TaskState δ σ ν ρ κ} {b : Bool}

omit [Deeds δ σ]

/-- Without a main task there is none that could have come further. -/
theorem mapMain_of_nil (h : m.Led [] b) : m.mapMain g = m := by
  obtain ⟨operations, ht, ho⟩ := h.tasks
  show { m with tasks := m.tasks.map (Task.mapMain g) } = m
  rw [ht, List.nil_append, List.map_congr_left fun t hm => Task.mapMain_of_operation (ho t hm).1,
    List.map_id', ← List.nil_append operations, ← ht]

theorem mapMain (h : m.Led [mainTask s] b) : (m.mapMain g).Led [mainTask (g s)] b :=
  h.map fun t => ⟨t.parent_mapMain, t.id_mapMain⟩

/-- How far the main task has come is told by the first of the tasks, and by no other. -/
theorem exists_operations (h : m.Led [mainTask s] b) :
    ∃ operations, m.tasks = mainTask s :: operations
      ∧ (∀ t ∈ operations, t.parent ≠ none ∧ t.id ≠ mainId)
      ∧ ∀ g : TaskState δ σ ν ρ κ → TaskState δ σ ν ρ κ,
        m.tasks.map (Task.mapMain g) = mainTask (g s) :: operations := by
  obtain ⟨operations, ht, ho⟩ := h.tasks
  refine ⟨operations, ht, ho, fun g => ?_⟩
  rw [ht, List.map_append, List.map_congr_left fun t hm => Task.mapMain_of_operation (ho t hm).1,
    List.map_id']
  rfl

theorem find?_main (h : m.Led [mainTask s] b) :
    (m.tasks.find? fun t => t.id == mainId) = some (mainTask s) := by
  obtain ⟨operations, ht, -⟩ := h.tasks
  rw [ht]
  rfl

/-- What the turn of an operation finds is no main task. -/
theorem parent_of_find? (h : m.Led [mainTask s] b) {id : Nat} (hid : id ≠ mainId)
    {t : Task δ σ ν ρ κ} (ht : (m.tasks.find? fun t => t.id == id) = some t) :
    t.parent ≠ none := by
  have hm := List.mem_of_find?_eq_some ht
  have hi : t.id = id := by simpa using List.find?_some ht
  obtain ⟨operations, hts, ho⟩ := h.tasks
  rw [hts] at hm
  obtain hm | hm := List.mem_append.mp hm
  · rw [List.mem_singleton.mp hm] at hi
    exact absurd hi.symm hid
  · exact (ho t hm).1

/-- The main task waits. -/
theorem waits (h : m.Led [mainTask s] b) (w : Waiting δ σ ν ρ κ) :
    Led [mainTask (.waiting w)] b { m with
      tasks := m.tasks.map fun t => if t.id = mainId then { t with state := .waiting w } else t } :=
  h.map (f := fun t => if t.id = mainId then { t with state := .waiting w } else t) fun t => by
    split
    · exact ⟨rfl, rfl⟩
    · exact ⟨rfl, rfl⟩

end Led

end Machine

end Playbook
