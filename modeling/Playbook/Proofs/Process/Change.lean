import Playbook.Proofs.Process.Moment

/-!
# How tasks and blocks change

The small steps of a machine are many, but few of them touch its tasks and
blocks. `Change` lists the ways in which these change, together with what is
told of it in the past, and `Moment.Next.changes` says that every small step is
made of such changes. What depends on tasks, blocks and the past only – a
`Story` – is proved of the changes.

The first such thing is about numbers. Tasks and blocks get theirs from one
counter, so no number is given twice, and whoever comes later has a greater
number: a block than the task that opens it, and an operation than its block
(`Story.Numbered`). A task in the middle of its turn is still among the tasks of
the machine and has not been stopped (`Moment.Seated`).
-/

namespace Playbook

variable {δ σ ν ρ κ : Type}

namespace Machine

/-! ## Tasks -/

/-- Whether a task has been stopped. -/
def TaskState.isCancelled : TaskState δ σ ν ρ κ → Bool
  | cancelled _ => true
  | _ => false

/-- A task is an operation of a block. -/
def Task.isIn (block : Nat) (t : Task δ σ ν ρ κ) : Bool :=
  t.parent.any fun p => p.1 == block

theorem Task.isIn_iff {block : Nat} {t : Task δ σ ν ρ κ} :
    t.isIn block = true ↔ ∃ i, t.parent = some (block, i) := by
  unfold Task.isIn
  cases t.parent with
  | none => simp
  | some p => simp [Prod.ext_iff]

theorem Task.isIn_congr {t t' : Task δ σ ν ρ κ} (h : t.parent = t'.parent) (block : Nat) :
    t.isIn block = t'.isIn block := by
  unfold Task.isIn
  rw [h]

/-- A task is an operation of one block at most. -/
theorem Task.isIn_inj {block block' : Nat} {t : Task δ σ ν ρ κ} (h : t.isIn block = true)
    (h' : t.isIn block' = true) : block = block' := by
  obtain ⟨i, hi⟩ := isIn_iff.mp h
  obtain ⟨j, hj⟩ := isIn_iff.mp h'
  rw [hi] at hj
  cases hj
  rfl

/-- A task that is stopped if it is an operation of a block. -/
def Task.stopIn (block : Nat) (t : Task δ σ ν ρ κ) : Task δ σ ν ρ κ :=
  if t.isIn block then { t with state := .cancelled t.state } else t

@[simp] theorem Task.id_stopIn (block : Nat) (t : Task δ σ ν ρ κ) :
    (t.stopIn block).id = t.id := by
  unfold Task.stopIn
  split <;> rfl

@[simp] theorem Task.parent_stopIn (block : Nat) (t : Task δ σ ν ρ κ) :
    (t.stopIn block).parent = t.parent := by
  unfold Task.stopIn
  split <;> rfl

/-- A stopped task has come as far as before. -/
@[simp] theorem Task.waiting?_stopIn (block : Nat) (t : Task δ σ ν ρ κ) :
    (t.stopIn block).state.waiting? = t.state.waiting? := by
  unfold Task.stopIn
  split <;> rfl

theorem Task.isCancelled_stopIn (block : Nat) (t : Task δ σ ν ρ κ) :
    (t.stopIn block).state.isCancelled = (t.isIn block || t.state.isCancelled) := by
  unfold Task.stopIn
  cases h : t.isIn block with
  | true => rfl
  | false => rfl

/-- The tasks for operations of a block, with numbers from a given one on. -/
def spawned (block : Nat) :
    Nat → List (Nat × Process δ σ ν ρ κ) → List (Task δ σ ν ρ κ)
  | _, [] => []
  | task, (index, p) :: rest =>
    ⟨task, some (block, index), .fresh p⟩ :: spawned block (task + 1) rest

theorem map_id_spawned (block task : Nat)
    (operations : List (Nat × Process δ σ ν ρ κ)) :
    (spawned block task operations).map Task.id = List.range' task operations.length := by
  induction operations generalizing task with
  | nil => rfl
  | cons op rest ih =>
    show task :: (spawned block (task + 1) rest).map Task.id = _
    rw [ih]
    rfl

/-- A task of a block is an operation that was started. -/
theorem of_mem_spawned {block task : Nat}
    {operations : List (Nat × Process δ σ ν ρ κ)} {t : Task δ σ ν ρ κ}
    (h : t ∈ spawned block task operations) :
    task ≤ t.id ∧ t.id < task + operations.length
      ∧ ∃ op ∈ operations, t.parent = some (block, op.1) ∧ t.state = .fresh op.2
        ∧ .started block op.1 t.id op.2 ∈ Event.starts block task operations := by
  induction operations generalizing task with
  | nil => exact absurd h List.not_mem_nil
  | cons op rest ih =>
    obtain rfl | h := List.mem_cons.mp h
    · exact ⟨Nat.le_refl _, by simp, op, List.mem_cons_self, rfl, rfl,
        List.mem_cons_self⟩
    · obtain ⟨h₁, h₂, op', hop, hp, hs, he⟩ := ih h
      refine ⟨Nat.le_of_succ_le h₁, ?_, op', List.mem_cons_of_mem _ hop, hp, hs,
        List.mem_cons_of_mem _ he⟩
      rw [List.length_cons]
      omega

/-- What is started gets a task. -/
theorem of_mem_starts {block task : Nat}
    {operations : List (Nat × Process δ σ ν ρ κ)} {e : Event δ σ ν ρ κ}
    (h : e ∈ Event.starts block task operations) :
    ∃ op ∈ operations, ∃ t, e = .started block op.1 t op.2
      ∧ task ≤ t ∧ t < task + operations.length := by
  induction operations generalizing task with
  | nil => exact absurd h List.not_mem_nil
  | cons op rest ih =>
    obtain rfl | h := List.mem_cons.mp h
    · exact ⟨op, List.mem_cons_self, task, rfl, Nat.le_refl _, by simp⟩
    · obtain ⟨op', hop, t, he, h₁, h₂⟩ := ih h
      refine ⟨op', List.mem_cons_of_mem _ hop, t, he, Nat.le_of_succ_le h₁, ?_⟩
      rw [List.length_cons]
      omega

theorem forall_mem_starts {Q : Event δ σ ν ρ κ → Prop} (h : ∀ c i t p, Q (.started c i t p))
    {block task : Nat} {operations : List (Nat × Process δ σ ν ρ κ)} :
    ∀ e ∈ Event.starts block task operations, Q e := by
  intro e hm
  obtain ⟨op, -, t, rfl, -⟩ := of_mem_starts hm
  exact h block op.1 t op.2

theorem forall_mem_launches {Q : Event δ σ ν ρ κ → Prop} (h : ∀ c i t p, Q (.started c i t p))
    {m : Machine δ σ ν ρ κ} {block : Nat} : ∀ e ∈ m.launches block, Q e := by
  unfold launches
  split
  · exact forall_mem_starts h
  · exact nofun

/-! ## What the operations of a machine do to its tasks and blocks -/

theorem spawnAll_eq (block : Nat) (operations : List (Nat × Process δ σ ν ρ κ))
    (m : Machine δ σ ν ρ κ) :
    (m.spawnAll block operations).tasks = m.tasks ++ spawned block m.serial operations
      ∧ (m.spawnAll block operations).blocks = m.blocks
      ∧ (m.spawnAll block operations).serial = m.serial + operations.length
      ∧ (m.spawnAll block operations).world = m.world := by
  induction operations generalizing m with
  | nil => exact ⟨(List.append_nil _).symm, rfl, rfl, rfl⟩
  | cons op rest ih =>
    obtain ⟨ht, hb, hs, hw⟩ := ih (m.spawn block op.1 op.2)
    refine ⟨ht.trans ?_, hb, hs.trans ?_, hw⟩
    · exact List.append_assoc _ _ _
    · show m.serial + 1 + rest.length = m.serial + (rest.length + 1)
      omega

theorem openBlock_eq (owner : Nat) (state : BlockState δ σ ν ρ κ)
    (start : List (Nat × Process δ σ ν ρ κ)) (m : Machine δ σ ν ρ κ) :
    (m.openBlock owner state start).2.tasks
        = m.tasks ++ spawned m.serial (m.serial + 1) start
      ∧ (m.openBlock owner state start).2.blocks = ⟨m.serial, owner, state⟩ :: m.blocks
      ∧ (m.openBlock owner state start).2.serial = m.serial + 1 + start.length
      ∧ (m.openBlock owner state start).2.world = m.world :=
  spawnAll_eq m.serial start
    { m with serial := m.serial + 1, blocks := ⟨m.serial, owner, state⟩ :: m.blocks }

theorem of_mem_putBlock {b B : Block δ σ ν ρ κ} {m : Machine δ σ ν ρ κ}
    (h : b ∈ (m.putBlock B).blocks) :
    b = B ∨ b ∈ m.blocks ∧ b.id ≠ B.id := by
  obtain ⟨b', hb', rfl⟩ := List.mem_map.mp h
  split
  · exact .inl rfl
  · rename_i hne
    exact .inr ⟨hb', hne⟩

theorem map_id_putBlock (B : Block δ σ ν ρ κ) (m : Machine δ σ ν ρ κ) :
    (m.putBlock B).blocks.map Block.id = m.blocks.map Block.id := by
  show (m.blocks.map _).map Block.id = _
  rw [List.map_map]
  refine List.map_congr_left fun b _ => ?_
  show (if b.id = B.id then B else b).id = b.id
  split
  · rename_i h
    exact h.symm
  · rfl

/-- Whether a block is a race. -/
def isRace (block : Nat) (m : Machine δ σ ν ρ κ) : Bool :=
  match m.blocks.find? fun b => b.id == block with
  | some ⟨_, _, .race _⟩ => true
  | _ => false

theorem cancelOperations_eq (block : Nat) (m : Machine δ σ ν ρ κ) :
    (m.cancelOperations block).tasks = m.tasks.map (Task.stopIn block)
      ∧ (m.cancelOperations block).blocks = m.blocks
      ∧ (m.cancelOperations block).serial = m.serial
      ∧ (m.cancelOperations block).world = m.world := by
  have hr := Reordered.wakeAll (fun id => id)
    ((m.tasks.filter (Task.isIn block)).map Task.id)
    { m with tasks := m.tasks.map (Task.stopIn block) }
  exact ⟨hr.tasks, hr.blocks, hr.serial, hr.world⟩

/-- What becomes of a task when a block is dropped: an operation of a race is
stopped. -/
def leaving (block : Nat) (m : Machine δ σ ν ρ κ) (t : Task δ σ ν ρ κ) :
    Task δ σ ν ρ κ :=
  if m.isRace block then t.stopIn block else t

section

variable (block : Nat) (m : Machine δ σ ν ρ κ) (t : Task δ σ ν ρ κ)

@[simp] theorem id_leaving : (m.leaving block t).id = t.id := by
  unfold leaving
  split <;> simp

@[simp] theorem parent_leaving : (m.leaving block t).parent = t.parent := by
  unfold leaving
  split <;> simp

@[simp] theorem waiting?_leaving :
    (m.leaving block t).state.waiting? = t.state.waiting? := by
  unfold leaving
  split <;> simp

/-- Only operations of the block are stopped. -/
theorem leaving_of_not_isIn {t : Task δ σ ν ρ κ} (h : t.isIn block = false) :
    m.leaving block t = t := by
  unfold leaving Task.stopIn
  rw [h]
  split <;> rfl

theorem dropBlock_eq :
    (m.dropBlock block).tasks = m.tasks.map (m.leaving block)
      ∧ (m.dropBlock block).blocks = m.blocks.filter (fun b => b.id ≠ block)
      ∧ (m.dropBlock block).serial = m.serial
      ∧ (m.dropBlock block).world = m.world := by
  unfold Machine.dropBlock leaving isRace
  cases hf : m.blocks.find? fun b => b.id == block with
  | none =>
    refine ⟨(List.map_id _).symm, (List.filter_eq_self.mpr fun b hb => ?_).symm, rfl, rfl⟩
    have hne := List.find?_eq_none.mp hf b hb
    simpa using hne
  | some b =>
    obtain ⟨_, _, _ | _⟩ := b
    · exact ⟨(List.map_id _).symm, rfl, rfl, rfl⟩
    · exact (m.removeBlock block).cancelOperations_eq block

theorem stops_eq :
    m.stops block = if m.isRace block then
        (m.tasks.filter (Task.isIn block)).map fun t => .stopped t.id t.state.waiting?
      else [] := by
  unfold stops isRace
  generalize m.blocks.find? (fun b => b.id == block) = b?
  obtain _ | ⟨_, _, _ | _⟩ := b?
  · rfl
  · rfl
  · rfl

end

/-- What is told where a block is closed is that tasks are stopped. -/
theorem of_mem_stops {m : Machine δ σ ν ρ κ} {block : Nat} {e : Event δ σ ν ρ κ}
    (h : e ∈ m.stops block) : ∃ t w, e = .stopped t w := by
  rw [m.stops_eq block] at h
  split at h
  · obtain ⟨t, -, rfl⟩ := List.mem_map.mp h
    exact ⟨t.id, t.state.waiting?, rfl⟩
  · cases h

theorem forall_mem_stops {Q : Event δ σ ν ρ κ → Prop} (h : ∀ t w, Q (.stopped t w))
    {m : Machine δ σ ν ρ κ} {block : Nat} : ∀ e ∈ m.stops block, Q e := by
  intro e hm
  obtain ⟨t, w, rfl⟩ := of_mem_stops hm
  exact h t w

/-- The result of a block that is over when it is attended. -/
def BlockState.outcome? : BlockState δ σ ν ρ κ → Option (Settled ρ κ)
  | gathering g => g.launch.2.result?
  | race r => r.result?

/-- A block after an operation has settled. -/
def BlockState.settle (index : Nat) (s : Settlement ρ κ) :
    BlockState δ σ ν ρ κ → BlockState δ σ ν ρ κ
  | gathering g => .gathering (g.settle index s)
  | race r => .race (r.settle index s)

/-- **A block is attended that is not over**: a gathering starts what it can. -/
theorem of_attend_none {block : Nat} {m m' : Machine δ σ ν ρ κ}
    (h : m.attend block = (none, m')) :
    (m' = m ∧ m.launches block = [])
      ∨ ∃ owner g, ⟨block, owner, .gathering g⟩ ∈ m.blocks
        ∧ m' = (m.putBlock ⟨block, owner, .gathering g.launch.2⟩).spawnAll block g.launch.1
        ∧ m.launches block = Event.starts block m.serial g.launch.1 := by
  unfold attend at h
  unfold launches
  cases hf : m.blocks.find? fun b => b.id == block with
  | none =>
    rw [hf] at h
    cases h
    exact .inl ⟨rfl, rfl⟩
  | some b =>
    have hid := List.find?_some hf
    have hid : b.id = block := beq_iff_eq.mp hid
    have hm := List.mem_of_find?_eq_some hf
    rw [hf] at h
    obtain ⟨id, owner, g | r⟩ := b
    · subst hid
      dsimp only at h
      split at h
      · cases h
      · cases h
        exact .inr ⟨owner, g, hm, rfl, rfl⟩
    · dsimp only at h
      split at h
      · cases h
      · cases h
        exact .inl ⟨rfl, rfl⟩

/-- **A block is attended that is over**: it is dropped. -/
theorem of_attend_some {block : Nat} {s : Settled ρ κ} {m m' : Machine δ σ ν ρ κ}
    (h : m.attend block = (some s, m')) :
    m' = m.dropBlock block
      ∧ ∃ b ∈ m.blocks, b.id = block ∧ b.state.outcome? = some s := by
  unfold attend at h
  unfold dropBlock
  cases hf : m.blocks.find? fun b => b.id == block with
  | none =>
    rw [hf] at h
    cases h
  | some b =>
    have hid := List.find?_some hf
    have hid : b.id = block := beq_iff_eq.mp hid
    have hm := List.mem_of_find?_eq_some hf
    rw [hf] at h
    obtain ⟨id, owner, g | r⟩ := b
    · dsimp only at h
      split at h
      · rename_i hr
        cases h
        exact ⟨rfl, _, hm, hid, hr⟩
      · cases h
    · dsimp only at h
      split at h
      · rename_i hr
        cases h
        exact ⟨rfl, _, hm, hid, hr⟩
      · cases h

/-- Who has a number of its own is found by it. -/
theorem find?_of_nodup {α : Type} {f : α → Nat} {as : List α} (h : (as.map f).Nodup)
    {a : α} (ha : a ∈ as) : as.find? (fun b => f b == f a) = some a := by
  cases hf : as.find? fun b => f b == f a with
  | none => exact absurd (List.find?_eq_none.mp hf a ha) (by simp)
  | some b =>
    have hb := List.find?_some hf
    have hb : f b = f a := beq_iff_eq.mp hb
    rw [List.inj_on_of_nodup_map h (List.mem_of_find?_eq_some hf) ha hb]

/-- **Settling changes the block of the operation only.** -/
theorem settle_eq {m : Machine δ σ ν ρ κ} (hn : (m.blocks.map Block.id).Nodup)
    (block index : Nat) (s : Settlement ρ κ) :
    (m.settle block index s).tasks = m.tasks
      ∧ (m.settle block index s).blocks = m.blocks.map (fun b =>
          if b.id = block then { b with state := b.state.settle index s } else b)
      ∧ (m.settle block index s).serial = m.serial
      ∧ (m.settle block index s).world = m.world := by
  unfold settle
  cases hf : m.blocks.find? fun b => b.id == block with
  | none =>
    refine ⟨rfl, ?_, rfl, rfl⟩
    refine (List.map_id _).symm.trans (List.map_congr_left fun b hb => ?_)
    have hne : b.id ≠ block := by simpa using List.find?_eq_none.mp hf b hb
    rw [if_neg hne]
    rfl
  | some b =>
    have hid := List.find?_some hf
    have hid : b.id = block := beq_iff_eq.mp hid
    have hm := List.mem_of_find?_eq_some hf
    subst hid
    have hput : (m.putBlock { b with state := b.state.settle index s }).blocks
        = m.blocks.map (fun b' =>
          if b'.id = b.id then { b' with state := b'.state.settle index s } else b') := by
      refine List.map_congr_left fun b' hb' => ?_
      split
      · rename_i hid
        rw [List.inj_on_of_nodup_map hn hb' hm hid]
      · rfl
    obtain ⟨id, owner, g | r⟩ := b
    · dsimp only
      split
      · have hr := Reordered.wake (m.putBlock ⟨id, owner, .gathering (g.settle index s)⟩) owner
        exact ⟨hr.tasks, hr.blocks.trans hput, hr.serial, hr.world⟩
      · exact ⟨rfl, hput, rfl, rfl⟩
    · have hr := Reordered.wake (m.putBlock ⟨id, owner, .race (r.settle index s)⟩) owner
      exact ⟨hr.tasks, hr.blocks.trans hput, hr.serial, hr.world⟩

/-- What a block comes to when a task ends. -/
def Block.hear (task : Task δ σ ν ρ κ) (s : Settlement ρ κ) (b : Block δ σ ν ρ κ) :
    Block δ σ ν ρ κ :=
  match task.parent with
  | some (block, index) =>
    if b.id = block then { b with state := b.state.settle index s } else b
  | none => b

@[simp] theorem Block.id_hear (task : Task δ σ ν ρ κ) (s : Settlement ρ κ)
    (b : Block δ σ ν ρ κ) : (b.hear task s).id = b.id := by
  unfold hear
  split
  · split <;> rfl
  · rfl

@[simp] theorem Block.owner_hear (task : Task δ σ ν ρ κ) (s : Settlement ρ κ)
    (b : Block δ σ ν ρ κ) : (b.hear task s).owner = b.owner := by
  unfold hear
  split
  · split <;> rfl
  · rfl

/-- A block hears of its operations. -/
theorem Block.hear_of_parent {task : Task δ σ ν ρ κ} {b : Block δ σ ν ρ κ} {i : Nat}
    (h : task.parent = some (b.id, i)) (s : Settlement ρ κ) :
    b.hear task s = { b with state := b.state.settle i s } := by
  unfold hear
  rw [h]
  exact if_pos rfl

/-- A block hears nothing of other tasks. -/
theorem Block.hear_of_not_isIn {task : Task δ σ ν ρ κ} {b : Block δ σ ν ρ κ}
    (h : task.isIn b.id = false) (s : Settlement ρ κ) : b.hear task s = b := by
  unfold hear
  split
  · rename_i c i hpar
    refine if_neg fun hid => ?_
    rw [Task.isIn_iff.mpr ⟨i, hid ▸ hpar⟩] at h
    cases h
  · rfl

theorem finish_eq {m : Machine δ σ ν ρ κ} (hn : (m.blocks.map Block.id).Nodup)
    (task : Task δ σ ν ρ κ) (s : Settlement ρ κ) :
    (m.finish task s).2.tasks = m.tasks.filter (fun t => t.id ≠ task.id)
      ∧ (m.finish task s).2.blocks = m.blocks.map (Block.hear task s)
      ∧ (m.finish task s).2.serial = m.serial
      ∧ (m.finish task s).2.world = m.world := by
  unfold finish Block.hear
  generalize task.parent = parent
  obtain _ | ⟨block, index⟩ := parent
  · exact ⟨rfl, (List.map_id _).symm, rfl, rfl⟩
  · exact settle_eq (m := m.removeTask task.id) hn block index s

theorem tasks_finish_subset {m : Machine δ σ ν ρ κ} (hn : (m.blocks.map Block.id).Nodup)
    (task : Task δ σ ν ρ κ) (s : Settlement ρ κ) : (m.finish task s).2.tasks ⊆ m.tasks := by
  rw [(finish_eq hn task s).1]
  exact List.filter_sublist.subset

end Machine

/-- A waiting process waits for one block at most. -/
theorem Waiting.blocks_eq :
    (w : Waiting δ σ ν ρ κ) → w.blocks = [] ∨ ∃ block, w.blocks = [block]
  | asleep _ _ _ => .inl rfl
  | blocked block _ _ => .inr ⟨block, rfl⟩
  | timed _ body _ => body.blocks_eq

/-! ## Changes -/

/-- A machine with what has happened on it. -/
structure Story (δ σ ν ρ κ : Type) where
  machine : Machine δ σ ν ρ κ
  past : List (Event δ σ ν ρ κ)

/-- The story so far. -/
def Moment.story (b : Moment δ σ ν ρ κ) : Story δ σ ν ρ κ := ⟨b.machine, b.past⟩

/-- Whether an event tells of a new block or a new task. -/
def Event.isNew : Event δ σ ν ρ κ → Bool
  | opened _ _ _ => true
  | started _ _ _ _ => true
  | _ => false

/-- Whether an event says nothing of blocks and of operations that are started. -/
def Event.isQuiet : Event δ σ ν ρ κ → Bool
  | opened _ _ _ => false
  | started _ _ _ _ => false
  | yielded _ _ _ => false
  | _ => true

theorem Event.isNew_of_isQuiet {e : Event δ σ ν ρ κ} (h : e.isQuiet = true) :
    e.isNew = false := by
  cases e with
  | opened | started => cases h
  | _ => rfl

/-- What is new has been told before. -/
theorem Event.mem_of_isNew {past es : List (Event δ σ ν ρ κ)}
    (hq : ∀ e ∈ es, e.isNew = false) {e : Event δ σ ν ρ κ} (h : e ∈ past ++ es)
    (he : e.isNew = true) : e ∈ past := by
  obtain h | h := List.mem_append.mp h
  · exact h
  · rw [hq e h] at he
    cases he

/-- A task is among the tasks of a machine and has not been stopped. -/
def Machine.Alive (m : Machine δ σ ν ρ κ) (task : Machine.Task δ σ ν ρ κ) : Prop :=
  ∃ t ∈ m.tasks, t.id = task.id ∧ t.parent = task.parent ∧ t.state.isCancelled = false

/-- **The ways in which tasks and blocks change**, with what is told of it. -/
inductive Change : Story δ σ ν ρ κ → Story δ σ ν ρ κ → Prop
  | quiet {m m' past es} (ht : m'.tasks = m.tasks) (hb : m'.blocks = m.blocks)
    (hs : m.serial ≤ m'.serial) (he : ∀ e ∈ es, e.isQuiet = true) :
    Change ⟨m, past⟩ ⟨m', past ++ es⟩
  | begin {m past p} (hm : ∀ t ∈ m.tasks, t.id ≠ Machine.mainId) :
    Change ⟨m, past⟩ ⟨m.begin p, past⟩
  | opens {m past task node here next state start} (ht : m.Alive task)
    (h : Process.Opens here next node state start) :
    Change ⟨m, past⟩ ⟨(m.openBlock task.id state start).2,
      past ++ .opened task.id m.serial node
        :: Event.starts m.serial (m.serial + 1) start⟩
  | launches {m past block owner g} (hb : ⟨block, owner, .gathering g⟩ ∈ m.blocks) :
    Change ⟨m, past⟩
      ⟨(m.putBlock ⟨block, owner, .gathering g.launch.2⟩).spawnAll block g.launch.1,
        past ++ Event.starts block m.serial g.launch.1⟩
  | yields {m past task b s} (hb : b ∈ m.blocks) (hs : b.state.outcome? = some s) :
    Change ⟨m, past⟩ ⟨m.dropBlock b.id, past ++ .yielded task b.id s :: m.stops b.id⟩
  | drops {m past es} (block : Nat) (he : ∀ e ∈ es, e.isQuiet = true) :
    Change ⟨m, past⟩ ⟨m.dropBlock block, past ++ (es ++ m.stops block)⟩
  | pauses {m past task w} (ht : m.Alive task) :
    Change ⟨m, past⟩ ⟨{ m with tasks := m.tasks.map fun t =>
      if t.id = task.id then { t with state := .waiting w } else t }, past⟩
  | ends {m past task s} (ht : m.Alive task) :
    Change ⟨m, past⟩ ⟨(m.finish task s).2, past ++ [.ended task.id s]⟩
  | forgets {m past t} (ht : t ∈ m.tasks) (hc : t.state.isCancelled = true) :
    Change ⟨m, past⟩ ⟨m.removeTask t.id, past⟩

/-! ## Numbers -/

/-- Numbers that have been given, each one once. -/
structure Given (serial : Nat) (ids : List Nat) : Prop where
  nodup : ids.Nodup
  lt : ∀ id ∈ ids, id < serial

namespace Given

variable {serial : Nat} {ids : List Nat}

theorem mono (h : Given serial ids) {serial' : Nat} (hs : serial ≤ serial') :
    Given serial' ids :=
  ⟨h.nodup, fun id hid => Nat.lt_of_lt_of_le (h.lt id hid) hs⟩

theorem sublist (h : Given serial ids) {ids' : List Nat} (hs : List.Sublist ids' ids) :
    Given serial ids' :=
  ⟨h.nodup.sublist hs, fun id hid => h.lt id (hs.subset hid)⟩

/-- The next numbers are given. -/
theorem append (h : Given serial ids) (count : Nat) :
    Given (serial + count) (ids ++ List.range' serial count) := by
  refine ⟨List.nodup_append.mpr ⟨h.nodup, List.nodup_range', fun a ha b hb hab => ?_⟩,
    fun id hid => ?_⟩
  · have hlt := h.lt a ha
    have hle := (List.mem_range'_1.mp hb).1
    omega
  · obtain hid | hid := List.mem_append.mp hid
    · exact Nat.lt_add_right count (h.lt id hid)
    · exact (List.mem_range'_1.mp hid).2

theorem cons (h : Given serial ids) : Given (serial + 1) (serial :: ids) := by
  refine ⟨List.nodup_cons.mpr ⟨fun hm => Nat.lt_irrefl _ (h.lt _ hm), h.nodup⟩,
    fun id hid => ?_⟩
  obtain rfl | hid := List.mem_cons.mp hid
  · exact Nat.lt_succ_self _
  · exact Nat.lt_succ_of_lt (h.lt id hid)

end Given

/-- **Tasks and blocks have numbers of their own**, and whoever comes later has a
greater one. Only main tasks have the number of the main task. -/
structure Story.Numbered (s : Story δ σ ν ρ κ) : Prop where
  serial : Machine.mainId < s.machine.serial
  tasks : Given s.machine.serial (s.machine.tasks.map Machine.Task.id)
  blocks : Given s.machine.serial (s.machine.blocks.map Machine.Block.id)
  main : ∀ t ∈ s.machine.tasks, t.parent = none → t.id = Machine.mainId
  parent : ∀ t ∈ s.machine.tasks, ∀ block i, t.parent = some (block, i) → block < t.id
  opened : ∀ task block node, .opened task block node ∈ s.past →
    task < block ∧ block < s.machine.serial
  started : ∀ block i task p, .started block i task p ∈ s.past →
    block < task ∧ task < s.machine.serial

namespace Story.Numbered

variable {s : Story δ σ ν ρ κ} {m : Machine δ σ ν ρ κ}

theorem task_lt (h : s.Numbered) {t : Machine.Task δ σ ν ρ κ}
    (ht : t ∈ s.machine.tasks) : t.id < s.machine.serial :=
  h.tasks.lt _ (List.mem_map_of_mem ht)

theorem block_lt (h : s.Numbered) {b : Machine.Block δ σ ν ρ κ}
    (hb : b ∈ s.machine.blocks) : b.id < s.machine.serial :=
  h.blocks.lt _ (List.mem_map_of_mem hb)

/-- A task is told by its number. -/
theorem task_inj (h : s.Numbered) {t t' : Machine.Task δ σ ν ρ κ}
    (ht : t ∈ s.machine.tasks) (ht' : t' ∈ s.machine.tasks) (hid : t.id = t'.id) : t = t' :=
  List.inj_on_of_nodup_map h.tasks.nodup ht ht' hid

/-- The task of an operation is none of the main tasks. -/
theorem ne_main (h : s.Numbered) {block i t : Nat} {p : Process δ σ ν ρ κ}
    (hs : .started block i t p ∈ s.past) : t ≠ Machine.mainId :=
  Nat.ne_of_gt (Nat.lt_of_le_of_lt (Nat.zero_le block) (h.started block i t p hs).1)

theorem ofWorld (w : σ) : (⟨.ofWorld w, []⟩ : Story δ σ ν ρ κ).Numbered where
  serial := Nat.zero_lt_one
  tasks := ⟨List.nodup_nil, nofun⟩
  blocks := ⟨List.nodup_nil, nofun⟩
  main := nofun
  parent := nofun
  opened := nofun
  started := nofun

/-- Tasks can be forgotten and come further, blocks can be forgotten. -/
theorem of_sublist (h : s.Numbered) {m : Machine δ σ ν ρ κ}
    {es : List (Event δ σ ν ρ κ)} (hs : s.machine.serial ≤ m.serial)
    (f : Machine.Task δ σ ν ρ κ → Machine.Task δ σ ν ρ κ)
    (hid : ∀ t, (f t).id = t.id) (hp : ∀ t, (f t).parent = t.parent)
    (ht : List.Sublist m.tasks (s.machine.tasks.map f))
    (hb : List.Sublist (m.blocks.map Machine.Block.id)
      (s.machine.blocks.map Machine.Block.id))
    (he : ∀ e ∈ es, e.isNew = false) : Story.Numbered ⟨m, s.past ++ es⟩ where
  serial := Nat.lt_of_lt_of_le h.serial hs
  tasks := by
    have hmap : (s.machine.tasks.map f).map Machine.Task.id
        = s.machine.tasks.map Machine.Task.id := by
      rw [List.map_map]
      exact List.map_congr_left fun t _ => hid t
    exact (h.tasks.mono hs).sublist (hmap ▸ ht.map Machine.Task.id)
  blocks := (h.blocks.mono hs).sublist hb
  main t hm hn := by
    obtain ⟨t', hm', rfl⟩ := List.mem_map.mp (ht.subset hm)
    rw [hid]
    exact h.main t' hm' ((hp t').symm.trans hn)
  parent t hm block i hpar := by
    obtain ⟨t', hm', rfl⟩ := List.mem_map.mp (ht.subset hm)
    rw [hid]
    exact h.parent t' hm' block i ((hp t').symm.trans hpar)
  opened task block node hm :=
    (h.opened task block node (Event.mem_of_isNew he hm rfl)).imp_right fun hlt =>
      Nat.lt_of_lt_of_le hlt hs
  started block i task p hm :=
    (h.started block i task p (Event.mem_of_isNew he hm rfl)).imp_right fun hlt =>
      Nat.lt_of_lt_of_le hlt hs

/-- A block gets its number. -/
theorem opens (h : s.Numbered) {task : Nat} (hlt : task < s.machine.serial)
    (node : Process δ σ ν ρ κ) {m : Machine δ σ ν ρ κ}
    (ht : m.tasks = s.machine.tasks) (hs : m.serial = s.machine.serial + 1)
    (hb : List.Sublist (m.blocks.map Machine.Block.id)
      (s.machine.serial :: s.machine.blocks.map Machine.Block.id)) :
    Story.Numbered ⟨m, s.past ++ [.opened task s.machine.serial node]⟩ where
  serial := by
    show _ < m.serial
    rw [hs]
    exact Nat.lt_succ_of_lt h.serial
  tasks := by
    show Given m.serial (m.tasks.map Machine.Task.id)
    rw [ht, hs]
    exact h.tasks.mono (Nat.le_succ _)
  blocks := by
    show Given m.serial (m.blocks.map Machine.Block.id)
    rw [hs]
    exact h.blocks.cons.sublist hb
  main t hm := h.main t (ht ▸ hm)
  parent t hm := h.parent t (ht ▸ hm)
  opened u c n hm := by
    show _ ∧ _ < m.serial
    rw [hs]
    obtain hm | hm := List.mem_append.mp hm
    · exact (h.opened u c n hm).imp_right Nat.lt_succ_of_lt
    · cases List.mem_singleton.mp hm
      exact ⟨hlt, Nat.lt_succ_self _⟩
  started c i u p hm := by
    show _ ∧ _ < m.serial
    rw [hs]
    obtain hm | hm := List.mem_append.mp hm
    · exact (h.started c i u p hm).imp_right Nat.lt_succ_of_lt
    · cases List.mem_singleton.mp hm

/-- Operations of a block are started that has a number. -/
theorem spawned (h : s.Numbered) {m : Machine δ σ ν ρ κ} {block : Nat}
    {start : List (Nat × Process δ σ ν ρ κ)} (hblock : block < s.machine.serial)
    (ht : m.tasks = s.machine.tasks ++ Machine.spawned block s.machine.serial start)
    (hb : m.blocks.map Machine.Block.id = s.machine.blocks.map Machine.Block.id)
    (hs : m.serial = s.machine.serial + start.length) :
    Story.Numbered ⟨m, s.past ++ Event.starts block s.machine.serial start⟩ where
  serial := by
    show _ < m.serial
    rw [hs]
    exact Nat.lt_add_right _ h.serial
  tasks := by
    show Given m.serial (m.tasks.map Machine.Task.id)
    rw [ht, hs, List.map_append, Machine.map_id_spawned]
    exact h.tasks.append _
  blocks := by
    show Given m.serial (m.blocks.map Machine.Block.id)
    rw [hb, hs]
    exact h.blocks.mono (Nat.le_add_right _ _)
  main t hm hn := by
    obtain hm | hm := List.mem_append.mp (ht ▸ hm)
    · exact h.main t hm hn
    · obtain ⟨-, -, op, -, hp, -⟩ := Machine.of_mem_spawned hm
      rw [hp] at hn
      cases hn
  parent t hm block' i hpar := by
    obtain hm | hm := List.mem_append.mp (ht ▸ hm)
    · exact h.parent t hm block' i hpar
    · obtain ⟨hle, -, op, -, hp, -⟩ := Machine.of_mem_spawned hm
      rw [hp] at hpar
      cases hpar
      exact Nat.lt_of_lt_of_le hblock hle
  opened task block' node hm := by
    show _ ∧ _ < m.serial
    rw [hs]
    obtain hm | hm := List.mem_append.mp hm
    · exact (h.opened task block' node hm).imp_right (Nat.lt_add_right _)
    · obtain ⟨_, -, _, he, -⟩ := Machine.of_mem_starts hm
      cases he
  started block' i task p hm := by
    show _ ∧ _ < m.serial
    rw [hs]
    obtain hm | hm := List.mem_append.mp hm
    · exact (h.started block' i task p hm).imp_right (Nat.lt_add_right _)
    · obtain ⟨_, -, _, he, hle, hlt⟩ := Machine.of_mem_starts hm
      cases he
      exact ⟨Nat.lt_of_lt_of_le hblock hle, hlt⟩

/-- A block is dropped. -/
theorem dropped (h : s.Numbered) (block : Nat) {es : List (Event δ σ ν ρ κ)}
    (he : ∀ e ∈ es, e.isNew = false) :
    Story.Numbered ⟨s.machine.dropBlock block, s.past ++ es⟩ := by
  obtain ⟨ht, hb, hs, -⟩ := s.machine.dropBlock_eq block
  refine h.of_sublist (Nat.le_of_eq hs.symm) (s.machine.leaving block) (by simp) (by simp)
    ?_ ?_ he
  · rw [ht]
  · rw [hb]
    exact List.filter_sublist.map _

end Story.Numbered

/-- A block that yields is told of, and then it is dropped. -/
theorem Machine.isNew_of_yields {m : Machine δ σ ν ρ κ} {task block : Nat} {s : Settled ρ κ} :
    ∀ e ∈ Event.yielded task block s :: m.stops block, e.isNew = false :=
  List.forall_mem_cons.mpr ⟨rfl, Machine.forall_mem_stops fun _ _ => rfl⟩

theorem Machine.isQuiet_of_drops {m : Machine δ σ ν ρ κ} {block : Nat}
    {es : List (Event δ σ ν ρ κ)} (he : ∀ e ∈ es, e.isQuiet = true) :
    ∀ e ∈ es ++ m.stops block, e.isQuiet = true :=
  List.forall_mem_append.mpr ⟨he, Machine.forall_mem_stops fun _ _ => rfl⟩

/-- **Numbers stay numbers of their own.** -/
theorem Change.numbered {a b : Story δ σ ν ρ κ} (h : Change a b) (ha : a.Numbered) :
    b.Numbered := by
  cases h with
  | quiet ht hb hs he =>
    refine ha.of_sublist hs id (fun _ => rfl) (fun _ => rfl) ?_ ?_ fun e hm =>
      Event.isNew_of_isQuiet (he e hm)
    · rw [ht, List.map_id]
    · rw [hb]
  | @begin m past p hm =>
    refine ⟨ha.serial, ⟨List.nodup_cons.mpr ⟨fun hid => ?_, ha.tasks.nodup⟩, fun id hid => ?_⟩,
      ha.blocks, fun t ht hn => ?_, fun t ht => ?_, ha.opened, ha.started⟩
    · obtain ⟨t, ht, hid⟩ := List.mem_map.mp hid
      exact hm t ht hid
    · obtain rfl | hid := List.mem_cons.mp hid
      · exact ha.serial
      · exact ha.tasks.lt id hid
    · obtain rfl | ht := List.mem_cons.mp ht
      · rfl
      · exact ha.main t ht hn
    · obtain rfl | ht := List.mem_cons.mp ht
      · exact nofun
      · exact ha.parent t ht
  | @opens m past task node here next state start ht _ =>
    obtain ⟨t, hm, hid, -, -⟩ := ht
    have hlt : task.id < m.serial := hid ▸ ha.task_lt hm
    obtain ⟨htasks, hblocks, hserial, -⟩ := m.openBlock_eq task.id state start
    -- the block gets its number, and then the operations get theirs
    have hblock : Story.Numbered ⟨{ m with
        serial := m.serial + 1
        blocks := ⟨m.serial, task.id, state⟩ :: m.blocks },
        past ++ [.opened task.id m.serial node]⟩ :=
      ha.opens hlt node rfl rfl (List.Sublist.refl _)
    have hall : Story.Numbered ⟨(m.openBlock task.id state start).2,
        (past ++ [.opened task.id m.serial node])
          ++ Event.starts m.serial (m.serial + 1) start⟩ :=
      hblock.spawned (Nat.lt_succ_self _) htasks
        (congrArg (List.map Machine.Block.id) hblocks) hserial
    rwa [List.append_assoc] at hall
  | @launches m past block owner g hb =>
    obtain ⟨ht, hbs, hs, -⟩ := Machine.spawnAll_eq block g.launch.1
      (m.putBlock ⟨block, owner, .gathering g.launch.2⟩)
    refine ha.spawned (ha.block_lt hb) ht ?_ hs
    rw [hbs]
    exact Machine.map_id_putBlock _ m
  | @yields m past task b s _ _ => exact ha.dropped b.id Machine.isNew_of_yields
  | drops block he =>
    exact ha.dropped block fun e hm =>
      Event.isNew_of_isQuiet (Machine.isQuiet_of_drops he e hm)
  | @pauses m past task w _ =>
    have hall : Story.Numbered ⟨{ m with tasks := m.tasks.map fun t =>
        if t.id = task.id then { t with state := .waiting w } else t }, past ++ []⟩ :=
      ha.of_sublist (Nat.le_refl _)
        (fun t => if t.id = task.id then { t with state := .waiting w } else t)
        (fun t => by split <;> rfl) (fun t => by split <;> rfl) (List.Sublist.refl _)
        (List.Sublist.refl _) nofun
    rwa [List.append_nil] at hall
  | @ends m past task s _ =>
    obtain ⟨ht, hb, hs, -⟩ := Machine.finish_eq ha.blocks.nodup task s
    refine ha.of_sublist (Nat.le_of_eq hs.symm) id (fun _ => rfl) (fun _ => rfl) ?_ ?_
      fun e hm => ?_
    · rw [ht, List.map_id]
      exact List.filter_sublist
    · have hids : m.blocks.map (Machine.Block.id ∘ Machine.Block.hear task s)
          = m.blocks.map Machine.Block.id :=
        List.map_congr_left fun b _ => Machine.Block.id_hear task s b
      rw [hb, List.map_map, hids]
    · rw [List.mem_singleton.mp hm]
      rfl
  | @forgets m past t _ _ =>
    have hsub : List.Sublist (m.removeTask t.id).tasks (m.tasks.map id) := by
      rw [List.map_id]
      exact List.filter_sublist
    have hall : Story.Numbered ⟨m.removeTask t.id, past ++ []⟩ :=
      ha.of_sublist (Nat.le_refl _) id (fun _ => rfl) (fun _ => rfl) hsub
        (List.Sublist.refl _) nofun
    rwa [List.append_nil] at hall

/-! ## The task that has its turn -/

/-- The task that has its turn. -/
def Stage.task? : Stage δ σ ν ρ κ → Option (Machine.Task δ σ ν ρ κ)
  | idle => none
  | going task _ _ => some task
  | woken task _ _ => some task
  | waiting task _ _ => some task

/-- The blocks that the task waits for that has its turn. -/
def Stage.blocks : Stage δ σ ν ρ κ → List Nat
  | woken _ w _ => w.blocks
  | waiting _ w _ => w.blocks
  | _ => []

namespace Machine

variable {m m' : Machine δ σ ν ρ κ} {task : Task δ σ ν ρ κ}

theorem Alive.mono (h : m.Alive task) (ht : m.tasks ⊆ m'.tasks) : m'.Alive task :=
  h.imp fun _ => And.imp_left fun hm => ht hm

/-- A task stays alive if a block is dropped that is younger. -/
theorem Alive.dropBlock {past : List (Event δ σ ν ρ κ)} (h : m.Alive task)
    (hn : Story.Numbered ⟨m, past⟩) {block : Nat} (hb : task.id < block) :
    (m.dropBlock block).Alive task := by
  obtain ⟨t, hm, hid, hp, hc⟩ := h
  have hin : t.isIn block = false := by
    refine Bool.eq_false_iff.mpr fun hin => ?_
    obtain ⟨i, hi⟩ := Task.isIn_iff.mp hin
    have hlt := hn.parent t hm block i hi
    omega
  refine ⟨t, ?_, hid, hp, hc⟩
  rw [(m.dropBlock_eq block).1]
  exact List.mem_map.mpr ⟨t, hm, leaving_of_not_isIn block m hin⟩

/-- Whoever waits for a block came before it. -/
def Elder (m : Machine δ σ ν ρ κ) : Prop :=
  ∀ t ∈ m.tasks, ∀ w ∈ t.state.waiting?, ∀ block ∈ w.blocks, t.id < block

theorem Elder.subset (h : m.Elder) (ht : m'.tasks ⊆ m.tasks) : m'.Elder :=
  fun t hm => h t (ht hm)

theorem Elder.dropBlock (h : m.Elder) (block : Nat) : (m.dropBlock block).Elder := by
  intro t hm
  rw [(m.dropBlock_eq block).1] at hm
  obtain ⟨t', hm', rfl⟩ := List.mem_map.mp hm
  rw [waiting?_leaving, id_leaving]
  exact h t' hm'

/-- What is started has not waited yet. -/
theorem Elder.spawned (h : m.Elder) {block task : Nat}
    {start : List (Nat × Process δ σ ν ρ κ)}
    (ht : m'.tasks = m.tasks ++ Machine.spawned block task start) : m'.Elder := by
  intro t hm
  obtain hm | hm := List.mem_append.mp (ht ▸ hm)
  · exact h t hm
  · obtain ⟨-, -, op, -, -, hs, -⟩ := of_mem_spawned hm
    rw [hs]
    exact nofun

theorem Elder.finish (h : m.Elder) (hn : (m.blocks.map Block.id).Nodup)
    (task : Task δ σ ν ρ κ) (s : Settlement ρ κ) : (m.finish task s).2.Elder :=
  h.subset (tasks_finish_subset hn task s)

theorem drop_eq (w : Waiting δ σ ν ρ κ) (m : Machine δ σ ν ρ κ) :
    (m.drop w = m ∧ m.drops w = [])
      ∨ ∃ block ∈ w.blocks, m.drop w = m.dropBlock block ∧ m.drops w = m.stops block := by
  unfold drop drops
  obtain hw | ⟨block, hw⟩ := w.blocks_eq
  · rw [hw]
    exact .inl ⟨rfl, rfl⟩
  · rw [hw]
    exact .inr ⟨block, List.mem_cons_self, rfl, List.append_nil _⟩

theorem forall_mem_drops {Q : Event δ σ ν ρ κ → Prop} (h : ∀ t w, Q (.stopped t w))
    {w : Waiting δ σ ν ρ κ} : ∀ e ∈ m.drops w, Q e := by
  obtain ⟨-, he⟩ | ⟨block, -, -, he⟩ := m.drop_eq w
  · rw [he]
    exact nofun
  · rw [he]
    exact forall_mem_stops h

theorem Elder.drop (h : m.Elder) (w : Waiting δ σ ν ρ κ) : (m.drop w).Elder := by
  obtain ⟨hd, -⟩ | ⟨block, -, hd, -⟩ := m.drop_eq w
  · rw [hd]
    exact h
  · rw [hd]
    exact h.dropBlock block

/-- A task stays that is older than the blocks of what is dropped. -/
theorem Alive.drop {past : List (Event δ σ ν ρ κ)} (h : m.Alive task)
    (hn : Story.Numbered ⟨m, past⟩) {w : Waiting δ σ ν ρ κ}
    (hw : ∀ block ∈ w.blocks, task.id < block) : (m.drop w).Alive task := by
  obtain ⟨hd, -⟩ | ⟨block, hb, hd, -⟩ := m.drop_eq w
  · rw [hd]
    exact h
  · rw [hd]
    exact h.dropBlock hn (hw block hb)

end Machine

namespace Moment

/-- **The task that has its turn is among the tasks**, and has not been stopped. -/
structure Seated (b : Moment δ σ ν ρ κ) : Prop where
  alive : ∀ task ∈ b.stage.task?, b.machine.Alive task
  elder : ∀ task ∈ b.stage.task?, ∀ block ∈ b.stage.blocks, task.id < block
  tasks : b.machine.Elder

theorem seated_ofWorld (w : σ) :
    (⟨.idle, .ofWorld w, []⟩ : Moment δ σ ν ρ κ).Seated :=
  ⟨nofun, nofun, nofun⟩

theorem Seated.move {s s' : Stage δ σ ν ρ κ} {m : Machine δ σ ν ρ κ}
    {past : List (Event δ σ ν ρ κ)} (h : Stage.Moves m s s') (ha : Seated ⟨s, m, past⟩) :
    Seated ⟨s', m, past⟩ := by
  cases h with
  | first ht hs =>
    refine ⟨fun task ht' => ?_, fun _ _ => nofun, ha.tasks⟩
    cases ht'
    exact ⟨_, List.mem_of_find?_eq_some ht, rfl, rfl, by rw [hs]; rfl⟩
  | wake ht hs =>
    have hm := List.mem_of_find?_eq_some ht
    refine ⟨fun task ht' => ?_, fun task ht' => ?_, ha.tasks⟩
    · cases ht'
      exact ⟨_, hm, rfl, rfl, by rw [hs]; rfl⟩
    · cases ht'
      exact ha.tasks _ hm _ (by rw [hs]; rfl)
  | sleepZero | limit | gatherNothing | raceNothing | inTime | crashOut | awake =>
    exact ⟨ha.alive, fun _ _ => nofun, ha.tasks⟩
  | asleep | wakeLimited => exact ⟨ha.alive, ha.elder, ha.tasks⟩

variable [Deeds δ σ] {P : Process δ σ ν ρ κ → Prop} {a b : Moment δ σ ν ρ κ}

/-- **The task that has its turn stays among the tasks.** -/
theorem Next.seated (h : Next P a b) (hn : a.story.Numbered) (ha : a.Seated) :
    b.Seated := by
  cases h with
  | begin =>
    refine ⟨nofun, nofun, fun t ht => ?_⟩
    obtain rfl | ht := List.mem_cons.mp ht
    · exact nofun
    · exact ha.tasks t ht
  | reorder hr => exact ⟨nofun, nofun, ha.tasks.subset fun _ ht => hr.tasks ▸ ht⟩
  | move h => exact ha.move h
  | forget => exact ⟨nofun, nofun, ha.tasks.subset List.filter_sublist.subset⟩
  | @forgetWaiting m past task before w =>
    have hr : (m.removeTask task.id).Elder := ha.tasks.subset List.filter_sublist.subset
    exact ⟨nofun, nofun, hr.drop w⟩
  | act | sleep => exact ⟨ha.alive, fun _ _ => nofun, ha.tasks⟩
  | @opens m past task node here next state start limits _ =>
    obtain ⟨ht, -⟩ := m.openBlock_eq task.id state start
    refine ⟨fun t htask => (ha.alive t htask).mono ?_, fun t htask block hb => ?_,
      ha.tasks.spawned ht⟩
    · rw [ht]
      exact List.subset_append_left _ _
    · obtain ⟨t', hm, hid, -⟩ := ha.alive t htask
      rw [List.mem_singleton.mp hb, ← hid]
      exact hn.task_lt hm
  | attend h =>
    obtain ⟨rfl, -⟩ | ⟨owner, g, -, rfl, -⟩ := Machine.of_attend_none h
    · exact ⟨ha.alive, ha.elder, ha.tasks⟩
    · obtain ⟨ht, -⟩ := Machine.spawnAll_eq _ g.launch.1 (Machine.putBlock _ _)
      refine ⟨fun t htask => (ha.alive t htask).mono ?_, ha.elder, ha.tasks.spawned ht⟩
      rw [ht]
      exact List.subset_append_left _ _
  | @yield m past task block here next limits s m' h =>
    obtain ⟨rfl, -⟩ := Machine.of_attend_some h
    refine ⟨fun t htask => ?_, fun _ _ => nofun, ha.tasks.dropBlock block⟩
    -- the task came before the block, so it is none of its operations
    exact (ha.alive t htask).dropBlock hn (ha.elder t htask block List.mem_cons_self)
  | @keep m past task w limits l h =>
    cases l with
    | set => exact ⟨ha.alive, ha.elder, ha.tasks⟩
    | running => exact ⟨ha.alive, ha.elder, ha.tasks⟩
  | @timeOut m past task w limits l h =>
    exact ⟨fun t htask => (ha.alive t htask).drop hn (ha.elder t htask), fun _ _ => nofun,
      ha.tasks.drop w⟩
  | @pause m past task w =>
    refine ⟨nofun, nofun, fun t hm => ?_⟩
    obtain ⟨t', hm', rfl⟩ := List.mem_map.mp hm
    split
    · rename_i hid
      intro w' hw' block hb
      cases hw'
      rw [hid]
      exact ha.elder task rfl block hb
    · exact ha.tasks t' hm'
  | finish | crash => exact ⟨nofun, nofun, ha.tasks.finish hn.blocks.nodup _ _⟩

/-- **The small steps are made of changes.** -/
theorem Next.changes (h : Next P a b) (ha : a.Seated) :
    Relation.ReflTransGen Change a.story b.story := by
  have same : ∀ {m m' : Machine δ σ ν ρ κ} {past : List (Event δ σ ν ρ κ)},
      m'.tasks = m.tasks → m'.blocks = m.blocks → m.serial ≤ m'.serial →
      Relation.ReflTransGen Change ⟨m, past⟩ ⟨m', past⟩ := by
    intro m m' past ht hb hs
    have hq : Change ⟨m, past⟩ ⟨m', past ++ []⟩ := .quiet ht hb hs nofun
    rw [List.append_nil] at hq
    exact .single hq
  cases h with
  | begin _ hm => exact .single (.begin hm)
  | reorder hr => exact same hr.tasks hr.blocks (Nat.le_of_eq hr.serial.symm)
  | move => exact .refl
  | forget ht hs => exact .single (.forgets (List.mem_of_find?_eq_some ht) (by rw [hs]; rfl))
  | @forgetWaiting m past task before w ht hs =>
    refine .head (.forgets (List.mem_of_find?_eq_some ht) (by rw [hs]; rfl)) ?_
    obtain ⟨hd, he⟩ | ⟨block, -, hd, he⟩ := (m.removeTask task.id).drop_eq w
    · show Relation.ReflTransGen Change _ ⟨_, _ ++ _⟩
      rw [hd, he, List.append_nil]
    · show Relation.ReflTransGen Change _ ⟨_, _ ++ _⟩
      rw [hd, he]
      rw [← List.nil_append (Machine.stops block _)]
      exact .single (.drops block nofun)
  | act => exact .single (.quiet rfl rfl (Nat.le_refl _) (by simp [Event.isQuiet]))
  | sleep => exact same rfl rfl (Nat.le_succ _)
  | opens h => exact .single (.opens (ha.alive _ rfl) h)
  | attend h =>
    obtain ⟨rfl, he⟩ | ⟨owner, g, hb, rfl, he⟩ := Machine.of_attend_none h
    · show Relation.ReflTransGen Change _ ⟨_, _ ++ _⟩
      rw [he, List.append_nil]
      exact .refl
    · show Relation.ReflTransGen Change _ ⟨_, _ ++ _⟩
      rw [he]
      exact .single (.launches hb)
  | yield h =>
    obtain ⟨rfl, b, hb, rfl, hs⟩ := Machine.of_attend_some h
    exact .single (.yields hb hs)
  | @keep m past task w limits l h =>
    cases l with
    | set => exact same rfl rfl (Nat.le_succ _)
    | running => exact .refl
  | @timeOut m past task w limits l h =>
    have hq : ∀ e ∈ [Event.timedOut task.id w], e.isQuiet = true := by simp [Event.isQuiet]
    obtain ⟨hd, he⟩ | ⟨block, -, hd, he⟩ := m.drop_eq w
    · show Relation.ReflTransGen Change _ ⟨_, _ ++ _⟩
      rw [hd, he]
      exact .single (.quiet rfl rfl (Nat.le_refl _) hq)
    · show Relation.ReflTransGen Change _ ⟨_, _ ++ _⟩
      rw [hd, he]
      exact .single (.drops block hq)
  | pause => exact .single (.pauses (ha.alive _ rfl))
  | finish => exact .single (.ends (ha.alive _ rfl))
  | crash => exact .single (.ends (ha.alive _ rfl))

/-- What every change keeps holds of all moments. -/
theorem Next.story_of_changes {K : Story δ σ ν ρ κ → Prop}
    (hK : ∀ s s', Change s s' → s.Numbered → K s → K s') (h : Next P a b)
    (ha : a.Seated) (hn : a.story.Numbered) (hk : K a.story) :
    b.story.Numbered ∧ K b.story := by
  have hc := h.changes ha
  generalize b.story = s at hc
  induction hc with
  | refl => exact ⟨hn, hk⟩
  | tail _ hc ih => exact ⟨hc.numbered ih.1, hK _ _ hc ih.1 ih.2⟩

end Moment

end Playbook
