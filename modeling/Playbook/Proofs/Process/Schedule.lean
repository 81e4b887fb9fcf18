import Mathlib.Logic.Relation
import Playbook.Process.Machine
import Playbook.Proofs.Process.Admission
import Playbook.Proofs.Process.Reach

/-!
# What holds under every schedule

A machine gives its tasks their turns in an order of its own. Most of what is
true of a run does not depend on that order, and is proved here of all orders
at once: `Machine.Step` lets any task have the next turn, at any time on the
clock, and `Machine.Schedule` is any number of such steps. What a machine does
by itself is one of its schedules (`Machine.schedule_run`).

`Machine.Obeys D R W` is the invariant. It says that the tasks and blocks of a
machine will do good deeds only, that the main task will only be at good
places, and that the world is a good one. It holds after every turn
(`Machine.Obeys.turn`) and so after every schedule
(`Machine.Obeys.schedule`). From it follows that a run of the machine ends as
a run of its process does (`Machine.reaches_of_run`).
-/

namespace Playbook

variable {δ σ ν ρ κ : Type}

/-! ## Waiting processes -/

namespace Waiting

/-- What a waiting process still has to do. The time and the block that it
waits for belong to the machine. -/
def process : Waiting δ σ ν ρ κ → Process δ σ ν ρ κ
  | asleep _ here next => .sleep 0 here next
  | blocked _ here next => .gather 0 (fun _ => false) [] here next
  | timed _ body next => .timed 0 body.process next

/-- A waiting process is at a place where it waits. -/
theorem reaches_here :
    (w : Waiting δ σ ν ρ κ) → w.process.Reaches [] (.inr w.here)
  | asleep _ _ _ => .asleep
  | blocked _ _ _ => .gathering
  | timed _ body _ => .limited body.reaches_here

end Waiting

/-- How far a process got in its turn is good. -/
def Progress.Obeys (D : δ → Prop) (Q : ρ ⊕ ν → Prop) :
    Progress δ σ ν ρ κ → Prop
  | done r => Q (.inl r)
  | crashed _ => True
  | waiting w => w.process.Obeys D Q

namespace Machine

/-! ## Schedules -/

/-- Two machines that differ in the clock and in the order of turns only. -/
structure Reordered (m m' : Machine δ σ ν ρ κ) : Prop where
  world : m'.world = m.world
  serial : m'.serial = m.serial
  tasks : m'.tasks = m.tasks
  blocks : m'.blocks = m.blocks

namespace Reordered

variable {m m₁ m₂ : Machine δ σ ν ρ κ}

theorem refl (m : Machine δ σ ν ρ κ) : m.Reordered m := ⟨rfl, rfl, rfl, rfl⟩

theorem trans (h₁ : m.Reordered m₁) (h₂ : m₁.Reordered m₂) : m.Reordered m₂ :=
  ⟨h₂.world.trans h₁.world, h₂.serial.trans h₁.serial,
    h₂.tasks.trans h₁.tasks, h₂.blocks.trans h₁.blocks⟩

theorem wake (m : Machine δ σ ν ρ κ) (id : Nat) : m.Reordered (m.wake id) := by
  unfold Machine.wake
  split
  · exact ⟨rfl, rfl, rfl, rfl⟩
  · split
    · exact refl m
    · exact ⟨rfl, rfl, rfl, rfl⟩

theorem wakeAll {α : Type} (f : α → Nat) (as : List α)
    (m : Machine δ σ ν ρ κ) :
    m.Reordered (as.foldl (fun m a => m.wake (f a)) m) := by
  induction as generalizing m with
  | nil => exact refl m
  | cons a rest ih => exact (wake m (f a)).trans (ih _)

theorem of_next? {id : Nat} (h : m.next? = some (id, m₁)) : m.Reordered m₁ := by
  unfold Machine.next? at h
  split at h
  · cases h
    exact ⟨rfl, rfl, rfl, rfl⟩
  · split at h
    · cases h
      exact ⟨rfl, rfl, rfl, rfl⟩
    · cases h

theorem of_moveClock (h : m.moveClock = some m₁) : m.Reordered m₁ := by
  unfold Machine.moveClock at h
  dsimp only at h
  split at h
  · cases h
  · rename_i now _
    have hm : m.Reordered { m with now := now } := ⟨rfl, rfl, rfl, rfl⟩
    have hw : ∀ due : List (Alarm × Nat), m.Reordered
        (due.foldl (fun m a => m.wake a.2) { m with now := now }) :=
      fun due => hm.trans (wakeAll (fun a => a.2) due _)
    split at h
    · cases h
      exact ⟨(hw _).world, (hw _).serial, (hw _).tasks, (hw _).blocks⟩
    · cases h
      exact hw _

end Reordered

section

variable [Deeds δ σ]

/-- **What can happen next on a machine** if nothing is known about the order
of turns and about the clock. The processes in `P` can be begun as the main
task at any time. -/
inductive Step (P : Process δ σ ν ρ κ → Prop) :
    Machine δ σ ν ρ κ → Machine δ σ ν ρ κ → Prop
  | begin {p : Process δ σ ν ρ κ} (hp : P p) (m) : Step P m (m.begin p)
  | turn (id : Nat) (m) : Step P m (m.turn id).2
  | reorder {m m' : Machine δ σ ν ρ κ} (h : m.Reordered m') : Step P m m'

/-- Any number of steps. -/
abbrev Schedule (P : Process δ σ ν ρ κ → Prop) :
    Machine δ σ ν ρ κ → Machine δ σ ν ρ κ → Prop :=
  Relation.ReflTransGen (Step P)

end

/-! ## The invariant -/

/-- What a task still has to do is good. A cancelled task does nothing. -/
def TaskState.Obeys (D : δ → Prop) (Q : ρ ⊕ ν → Prop) :
    TaskState δ σ ν ρ κ → Prop
  | fresh p => p.Obeys D Q
  | waiting w => w.process.Obeys D Q
  | cancelled _ => True

theorem TaskState.Obeys.imp {D : δ → Prop} {Q Q' : ρ ⊕ ν → Prop}
    (hQ : ∀ e, Q e → Q' e) :
    {s : TaskState δ σ ν ρ κ} → s.Obeys D Q → s.Obeys D Q'
  | fresh _, h => Process.Obeys.imp h hQ
  | waiting _, h => Process.Obeys.imp h hQ
  | cancelled _, _ => trivial

/-- What a block may still start does good deeds only, and a gathering has
come to where it is by its moves. -/
def BlockState.Obeys (D : δ → Prop) : BlockState δ σ ν ρ κ → Prop
  | gathering g => (∀ op ∈ g.waiting, ∀ d, op.2.Performs d → D d)
    ∧ ∃ limit stops operations,
      Gathering.Moves (.ofOperations limit stops operations) g
  | race _ => True

/-- A gathering that starts what it can is still a good block. -/
theorem BlockState.Obeys.launch {D : δ → Prop}
    {g : Gathering (Process δ σ ν ρ κ) ρ κ}
    (h : (BlockState.gathering g).Obeys D) :
    (BlockState.gathering (σ := σ) (ν := ν) g.launch.2).Obeys D
      ∧ ∀ op ∈ g.launch.1, ∀ d, op.2.Performs d → D d := by
  obtain ⟨hw, limit, stops, operations, hm⟩ := h
  exact ⟨⟨fun op hop => hw op (g.launch_waiting_subset hop),
      limit, stops, operations, hm.tail (.launch g)⟩,
    fun op hop => hw op (g.launch_fst_subset hop)⟩

/-- **All that a machine will do is good**: good deeds, by any task; for the
main task good places; and the world is a good one. The main task is told by
its number, which no operation of a block gets. -/
structure Obeys (D : δ → Prop) (R : ρ ⊕ ν → Prop) (W : σ → Prop)
    (m : Machine δ σ ν ρ κ) : Prop where
  world : W m.world
  serial : mainId < m.serial
  main : ∀ task ∈ m.tasks, task.parent = none → task.id = mainId
  tasks : ∀ task ∈ m.tasks,
    task.state.Obeys D fun e => task.id = mainId → R e
  blocks : ∀ block ∈ m.blocks, block.state.Obeys D

variable {D : δ → Prop} {R : ρ ⊕ ν → Prop} {W : σ → Prop}
  {m : Machine δ σ ν ρ κ}

theorem obeys_ofWorld {w : σ} (hw : W w) :
    (ofWorld w : Machine δ σ ν ρ κ).Obeys D R W :=
  ⟨hw, Nat.zero_lt_one, nofun, nofun, nofun⟩

namespace Obeys

/-- Tasks and blocks can be forgotten. -/
theorem of_subset {m' : Machine δ σ ν ρ κ} (h : m.Obeys D R W)
    (hw : m'.world = m.world) (hs : m'.serial = m.serial)
    (ht : m'.tasks ⊆ m.tasks) (hb : m'.blocks ⊆ m.blocks) :
    m'.Obeys D R W where
  world := by
    rw [hw]
    exact h.world
  serial := by
    rw [hs]
    exact h.serial
  main t hm := h.main t (ht hm)
  tasks t hm := h.tasks t (ht hm)
  blocks b hm := h.blocks b (hb hm)

theorem begin {p : Process δ σ ν ρ κ} (h : m.Obeys D R W)
    (hp : p.Obeys D R) : (m.begin p).Obeys D R W where
  world := h.world
  serial := h.serial
  main t ht hn := by
    obtain rfl | ht := List.mem_cons.mp ht
    · rfl
    · exact h.main t ht hn
  tasks t ht := by
    obtain rfl | ht := List.mem_cons.mp ht
    · exact hp.imp fun _ he _ => he
    · exact h.tasks t ht
  blocks := h.blocks

theorem reorder {m' : Machine δ σ ν ρ κ} (h : m.Obeys D R W)
    (hr : m.Reordered m') : m'.Obeys D R W :=
  h.of_subset hr.world hr.serial (fun _ ht => hr.tasks ▸ ht)
    (fun _ hb => hr.blocks ▸ hb)

theorem spawn {p : Process δ σ ν ρ κ} (h : m.Obeys D R W) (block index : Nat)
    (hp : ∀ d, p.Performs d → D d) : (m.spawn block index p).Obeys D R W where
  world := h.world
  serial := Nat.lt_succ_of_lt h.serial
  main t ht hn := by
    obtain ht | ht := List.mem_append.mp ht
    · exact h.main t ht hn
    · rw [List.mem_singleton.mp ht] at hn
      cases hn
  tasks t ht := by
    obtain ht | ht := List.mem_append.mp ht
    · exact h.tasks t ht
    · rw [List.mem_singleton.mp ht]
      exact ⟨hp, fun _ _ _ hid => absurd hid (Nat.ne_of_gt h.serial)⟩
  blocks := h.blocks

theorem spawnAll {operations : List (Nat × Process δ σ ν ρ κ)}
    (h : m.Obeys D R W) (block : Nat)
    (hp : ∀ op ∈ operations, ∀ d, op.2.Performs d → D d) :
    (m.spawnAll block operations).Obeys D R W := by
  induction operations generalizing m with
  | nil => exact h
  | cons op rest ih =>
    exact ih (h.spawn block op.1 (hp op List.mem_cons_self))
      fun op' hop => hp op' (List.mem_cons_of_mem op hop)

theorem putBlock {block : Block δ σ ν ρ κ} (h : m.Obeys D R W)
    (hb : block.state.Obeys D) : (m.putBlock block).Obeys D R W := by
  refine ⟨h.world, h.serial, h.main, h.tasks, fun b hm => ?_⟩
  obtain ⟨b', hm', rfl⟩ := List.mem_map.mp hm
  split
  · exact hb
  · exact h.blocks b' hm'

theorem removeBlock (h : m.Obeys D R W) (id : Nat) :
    (m.removeBlock id).Obeys D R W :=
  h.of_subset rfl rfl (List.Subset.refl _) List.filter_sublist.subset

theorem cancelOperations (h : m.Obeys D R W) (block : Nat) :
    (m.cancelOperations block).Obeys D R W := by
  unfold Machine.cancelOperations
  dsimp only
  refine reorder ?_ (.wakeAll id _ _)
  refine ⟨h.world, h.serial, fun t ht => ?_, fun t ht => ?_, h.blocks⟩
  · obtain ⟨t', ht', rfl⟩ := List.mem_map.mp ht
    split
    · exact h.main t' ht'
    · exact h.main t' ht'
  · obtain ⟨t', ht', rfl⟩ := List.mem_map.mp ht
    split
    · exact trivial
    · exact h.tasks t' ht'

theorem dropBlock (h : m.Obeys D R W) (id : Nat) :
    (m.dropBlock id).Obeys D R W := by
  unfold Machine.dropBlock
  split
  · exact (h.removeBlock id).cancelOperations id
  · exact h.removeBlock id
  · exact h

theorem drop (h : m.Obeys D R W) (w : Waiting δ σ ν ρ κ) :
    (m.drop w).Obeys D R W := by
  unfold Machine.drop
  induction w.blocks generalizing m with
  | nil => exact h
  | cons id rest ih => exact ih (h.dropBlock id)

theorem openBlock {state : BlockState δ σ ν ρ κ}
    {start : List (Nat × Process δ σ ν ρ κ)} (h : m.Obeys D R W) (owner : Nat)
    (hs : state.Obeys D) (hp : ∀ op ∈ start, ∀ d, op.2.Performs d → D d) :
    (m.openBlock owner state start).2.Obeys D R W := by
  have hb : Machine.Obeys D R W { m with
      serial := m.serial + 1
      blocks := ⟨m.serial, owner, state⟩ :: m.blocks } := by
    refine ⟨h.world, Nat.lt_succ_of_lt h.serial, h.main, h.tasks,
      fun b hb => ?_⟩
    obtain rfl | hb := List.mem_cons.mp hb
    · exact hs
    · exact h.blocks b hb
  exact hb.spawnAll m.serial hp

theorem attend (h : m.Obeys D R W) (id : Nat) :
    (m.attend id).2.Obeys D R W := by
  unfold Machine.attend
  split
  · exact h
  · rename_i owner g hf
    have hg := (h.blocks _ (List.mem_of_find?_eq_some hf)).launch
    dsimp only
    split
    · exact h.removeBlock id
    · exact (h.putBlock hg.1).spawnAll id hg.2
  · split
    · exact (h.removeBlock id).cancelOperations id
    · exact h

theorem settle (h : m.Obeys D R W) (block index : Nat) (s : Settlement ρ κ) :
    (m.settle block index s).Obeys D R W := by
  unfold Machine.settle
  split
  · exact h
  · rename_i id owner g hf
    obtain ⟨hw, limit, stops, operations, hm⟩ :=
      h.blocks _ (List.mem_of_find?_eq_some hf)
    have hg : (m.putBlock ⟨id, owner, .gathering (g.settle index s)⟩).Obeys D R W :=
      h.putBlock ⟨hw, limit, stops, operations, hm.tail (.settle index s g)⟩
    dsimp only
    split
    · exact hg.reorder (.wake _ owner)
    · exact hg
  · rename_i id owner r _
    have hr : (m.putBlock ⟨id, owner, .race (r.settle index s)⟩).Obeys D R W :=
      h.putBlock (by exact trivial)
    exact hr.reorder (.wake _ owner)

theorem removeTask (h : m.Obeys D R W) (id : Nat) :
    (m.removeTask id).Obeys D R W :=
  h.of_subset rfl rfl List.filter_sublist.subset (List.Subset.refl _)

end Obeys

/-! ## Turns -/

/-- A turn has gone well: the machine is good, and so is the end of the main
task if it has come to it. -/
def Fine (D : δ → Prop) (R : ρ ⊕ ν → Prop) (W : σ → Prop)
    (a : Option (Settlement ρ κ) × Machine δ σ ν ρ κ) : Prop :=
  (∀ r, a.1 = some (.finished r) → R (.inl r)) ∧ a.2.Obeys D R W

theorem Obeys.finish {task : Task δ σ ν ρ κ} {s : Settlement ρ κ}
    (h : m.Obeys D R W) (ht : task.parent = none → task.id = mainId)
    (hs : ∀ r, s = .finished r → task.id = mainId → R (.inl r)) :
    Fine D R W (m.finish task s) := by
  unfold Machine.finish
  dsimp only
  split
  · exact ⟨nofun, (h.removeTask _).settle _ _ _⟩
  · rename_i hp
    exact ⟨fun r hr => hs r (Option.some.inj hr) (ht hp), h.removeTask _⟩

theorem Obeys.conclude {task : Task δ σ ν ρ κ} {p : Progress δ σ ν ρ κ}
    (h : m.Obeys D R W) (ht : task.parent = none → task.id = mainId)
    (hp : p.Obeys D fun e => task.id = mainId → R e) :
    Fine D R W (Machine.conclude task (p, m)) := by
  cases p with
  | done r =>
    refine h.finish ht fun r' hr => ?_
    rw [← Settlement.finished.inj hr]
    exact hp
  | crashed a => exact h.finish ht nofun
  | waiting w =>
    -- all tasks with the number of the task wait now, and good places are told
    -- by the number
    refine ⟨nofun, h.world, h.serial, fun t hm => ?_, fun t hm => ?_, h.blocks⟩
    · obtain ⟨t', hm', rfl⟩ := List.mem_map.mp hm
      split
      · exact h.main t' hm'
      · exact h.main t' hm'
    · obtain ⟨t', hm', rfl⟩ := List.mem_map.mp hm
      split
      · rename_i hid
        show w.process.Obeys D fun e => t'.id = mainId → R e
        rw [hid]
        exact hp
      · exact h.tasks t' hm'

variable [Deeds δ σ]

/-- **What a task does in its turn is good** if its process is, and it waits
or ends at a good place of its process. The induction is on the process; what
is done behind the end of a limited process is under the same induction, and
so is what is done when it is cut off. -/
theorem Obeys.advance (hW : ∀ d w, D d → W w → W (Deeds.perform d w)) (id : Nat) :
    ∀ {p : Process δ σ ν ρ κ} {Q : ρ ⊕ ν → Prop} {m : Machine δ σ ν ρ κ},
      p.Obeys D Q → m.Obeys D R W →
      (advance id p m).1.Obeys D Q ∧ (advance id p m).2.Obeys D R W
  | .done r, Q, m, hp, hm => ⟨Process.obeys_done.mp hp, hm⟩
  | .crash a, Q, m, hp, hm => ⟨trivial, hm⟩
  | .act deed next, Q, m, hp, hm => by
    obtain ⟨hd, hn⟩ := Process.obeys_act.mp hp
    unfold Machine.advance
    exact Obeys.advance hW id (hn m.world)
      ⟨hW deed m.world hd hm.world, hm.serial, hm.main, hm.tasks, hm.blocks⟩
  | .sleep ms here next, Q, m, hp, hm => by
    obtain ⟨hq, hn⟩ := Process.obeys_sleep.mp hp
    unfold Machine.advance
    split
    · exact Obeys.advance hW id hn hm
    · exact ⟨Process.obeys_sleep.mpr ⟨hq, hn⟩, hm.world,
        Nat.lt_succ_of_lt hm.serial, hm.main, hm.tasks, hm.blocks⟩
  | .timed ms body next, Q, m, hp, hm => by
    have hb := Process.obeys_timed.mp hp
    have hbody := Obeys.advance hW id hb hm
    unfold Machine.advance
    generalize Machine.advance id body m = a at hbody
    obtain ⟨_ | _ | w, m'⟩ := a
    · exact Obeys.advance hW id hbody.1 hbody.2
    · exact ⟨trivial, hbody.2⟩
    · have hw : w.process.Obeys D _ := hbody.1
      dsimp only
      split
      -- a time of zero has passed at once
      · exact Obeys.advance hW id (hw.places [] _ w.reaches_here).2 (hbody.2.drop w)
      · exact ⟨Process.obeys_timed.mpr hw, hbody.2.world,
          Nat.lt_succ_of_lt hbody.2.serial, hbody.2.main, hbody.2.tasks,
          hbody.2.blocks⟩
  | .gather limit stops operations here next, Q, m, hp, hm => by
    obtain ⟨hq, hop, hn⟩ := Process.obeys_gather.mp hp
    have hg := BlockState.Obeys.launch (D := D)
      (g := Gathering.ofOperations limit stops operations)
      ⟨fun op ho => hop op.2 (Gathering.snd_mem_of_mem_numbered ho),
        limit, stops, operations, .refl⟩
    unfold Machine.advance
    generalize (Gathering.ofOperations limit stops operations).launch = a at hg
    obtain ⟨start, g⟩ := a
    dsimp only
    split
    · exact Obeys.advance hW id (hn _) hm
    · exact ⟨Process.obeys_gather.mpr ⟨hq, nofun, hn⟩, hm.openBlock id hg.1 hg.2⟩
  | .race wins operations here next, Q, m, hp, hm => by
    obtain ⟨hq, hop, hn⟩ := Process.obeys_race.mp hp
    unfold Machine.advance
    dsimp only
    split
    · exact Obeys.advance hW id (hn _) hm
    · exact ⟨Process.obeys_gather.mpr ⟨hq, nofun, hn⟩,
        hm.openBlock id (by exact trivial) fun op ho =>
          hop op.2 (Gathering.snd_mem_of_mem_numbered ho)⟩

/-- A process that goes on is as good as before. -/
theorem Obeys.resume (hW : ∀ d w, D d → W w → W (Deeds.perform d w)) (id : Nat) :
    ∀ {w : Waiting δ σ ν ρ κ} {Q : ρ ⊕ ν → Prop} {m : Machine δ σ ν ρ κ},
      w.process.Obeys D Q → m.Obeys D R W →
      (resume id w m).1.Obeys D Q ∧ (resume id w m).2.Obeys D R W
  | .asleep alarm here next, Q, m, hw, hm => by
    unfold Machine.resume
    split
    · exact Obeys.advance hW id (Process.obeys_sleep.mp hw).2 hm
    · exact ⟨hw, hm⟩
  | .blocked block here next, Q, m, hw, hm => by
    have ha := hm.attend block
    unfold Machine.resume
    generalize m.attend block = a at ha
    obtain ⟨_ | s, m'⟩ := a
    · exact ⟨hw, ha⟩
    · exact Obeys.advance hW id ((Process.obeys_gather.mp hw).2.2 s) ha
  | .timed deadline body next, Q, m, hw, hm => by
    have hbody := Obeys.resume hW id (w := body) (Process.obeys_timed.mp hw) hm
    unfold Machine.resume
    generalize Machine.resume id body m = a at hbody
    obtain ⟨_ | _ | w, m'⟩ := a
    · exact Obeys.advance hW id hbody.1 hbody.2
    · exact ⟨trivial, hbody.2⟩
    · have hw' : w.process.Obeys D _ := hbody.1
      dsimp only
      split
      · exact Obeys.advance hW id (hw'.places [] _ w.reaches_here).2 (hbody.2.drop w)
      · exact ⟨Process.obeys_timed.mpr hw', hbody.2⟩

/-- **Every turn keeps the invariant.** -/
theorem Obeys.turn (hW : ∀ d w, D d → W w → W (Deeds.perform d w)) (id : Nat)
    (h : m.Obeys D R W) : Fine D R W (m.turn id) := by
  unfold Machine.turn
  split
  · exact ⟨nofun, h⟩
  · rename_i task hf
    have hm := List.mem_of_find?_eq_some hf
    have ht := h.tasks task hm
    split
    · rename_i p hp
      rw [hp] at ht
      have ha := Obeys.advance hW id ht h
      exact ha.2.conclude (h.main task hm) ha.1
    · rename_i w hw
      rw [hw] at ht
      have ha := Obeys.resume hW id ht h
      exact ha.2.conclude (h.main task hm) ha.1
    · split
      · exact ⟨nofun, (h.removeTask id).drop _⟩
      · exact ⟨nofun, h.removeTask id⟩

/-- **The invariant holds under every schedule**, if it holds of all that may
be begun. -/
theorem Obeys.schedule {P : Process δ σ ν ρ κ → Prop} {m' : Machine δ σ ν ρ κ}
    (hW : ∀ d w, D d → W w → W (Deeds.perform d w)) (hP : ∀ p, P p → p.Obeys D R)
    (h : m.Obeys D R W) (hs : Schedule P m m') : m'.Obeys D R W := by
  induction hs with
  | refl => exact h
  | tail _ hstep ih =>
    cases hstep with
    | begin hp => exact ih.begin (hP _ hp)
    | turn id => exact (ih.turn hW id).2
    | reorder hr => exact ih.reorder hr

/-- Every machine that is reached from one without tasks is a sound one, good
or not. -/
theorem obeys_of_schedule {P : Process δ σ ν ρ κ → Prop} {w : σ}
    (h : Schedule P (ofWorld w) m) :
    m.Obeys (fun _ => True) (fun _ => True) fun _ => True :=
  Obeys.schedule (fun _ _ _ _ => trivial)
    (fun _ _ => ⟨fun _ _ => trivial, fun _ _ _ => trivial⟩)
    (obeys_ofWorld trivial) h

/-- **Whatever the order of turns, a gathering comes to where it is by its
moves.** -/
theorem moves_of_schedule {P : Process δ σ ν ρ κ → Prop} {w : σ}
    (h : Schedule P (ofWorld w) m) {block : Block δ σ ν ρ κ}
    (hb : block ∈ m.blocks) {g : Gathering (Process δ σ ν ρ κ) ρ κ}
    (hg : block.state = .gathering g) :
    ∃ limit stops operations,
      Gathering.Moves (.ofOperations limit stops operations) g := by
  have hs := (obeys_of_schedule h).blocks block hb
  rw [hg] at hs
  exact hs.2

/-! ## What a machine does by itself -/

/-- The order in which a machine gives turns is one of the possible orders. -/
theorem schedule_runTurns (P : Process δ σ ν ρ κ → Prop) (turns : Nat)
    (m : Machine δ σ ν ρ κ) : Schedule P m (runTurns turns m).2 := by
  induction turns generalizing m with
  | zero => exact .refl
  | succ turns ih =>
    unfold runTurns
    split
    · rename_i id m₁ hn
      have h₁ : Schedule P m (m₁.turn id).2 :=
        .tail (.single (.reorder (.of_next? hn))) (.turn id m₁)
      split
      · rename_i ht
        rw [ht] at h₁
        exact h₁
      · rename_i ht
        rw [ht] at h₁
        exact h₁
      · rename_i ht
        rw [ht] at h₁
        exact h₁.trans (ih _)
    · split
      · rename_i hc
        exact .head (.reorder (.of_moveClock hc)) (ih _)
      · exact .refl

/-- **A run of a machine is a schedule.** -/
theorem schedule_run {P : Process δ σ ν ρ κ → Prop} {p : Process δ σ ν ρ κ}
    (hp : P p) (turns : Nat) (m : Machine δ σ ν ρ κ) :
    Schedule P m (run turns p m).2 :=
  .head (.begin hp m) (schedule_runTurns P turns _)

/-- The result of the main task is at a good place. -/
theorem Obeys.finished_runTurns (hW : ∀ d w, D d → W w → W (Deeds.perform d w))
    (turns : Nat) (h : m.Obeys D R W) {r : ρ}
    (hr : (Machine.runTurns turns m).1 = .finished r) : R (.inl r) := by
  induction turns generalizing m with
  | zero => cases hr
  | succ turns ih =>
    unfold Machine.runTurns at hr
    split at hr
    · rename_i id m₁ hn
      have ht := (h.reorder (.of_next? hn)).turn hW id
      split at hr
      · rename_i r' m₂ heq
        rw [heq] at ht
        cases hr
        exact ht.1 r rfl
      · cases hr
      · rename_i m₂ heq
        rw [heq] at ht
        exact ih ht.2 hr
    · split at hr
      · rename_i hc
        exact ih (h.reorder (.of_moveClock hc)) hr
      · cases hr

/-- **A run of a machine ends as a run of its process does**: what the main
task ends with is a result that its process reaches. Other tasks may be under
way when it begins, but no main task. -/
theorem reaches_of_run {P : Process δ σ ν ρ κ → Prop} {w : σ}
    (hm : Schedule P (ofWorld w) m) (hmain : ∀ task ∈ m.tasks, task.id ≠ mainId)
    {p : Process δ σ ν ρ κ} {turns : Nat} {r : ρ} {m' : Machine δ σ ν ρ κ}
    (h : run turns p m = (.finished r, m')) : ∃ t, p.Reaches t (.inl r) := by
  have hany := obeys_of_schedule hm
  -- only main tasks are asked for their places, and there is none yet
  have hm : m.Obeys (fun _ => True) (fun e => ∃ t, p.Reaches t e) fun _ => True := by
    refine ⟨trivial, hany.serial, hany.main, fun t ht => ?_, hany.blocks⟩
    exact (hany.tasks t ht).imp fun _ _ hid => absurd hid (hmain t ht)
  refine Obeys.finished_runTurns (m := m.begin p) (fun _ _ _ _ => trivial) turns
    (hm.begin ⟨fun _ _ => trivial, fun t e he => ⟨t, he⟩⟩) (r := r) ?_
  show (run turns p m).1 = .finished r
  rw [h]

end Machine

end Playbook
