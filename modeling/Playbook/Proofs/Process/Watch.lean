import Playbook.Proofs.Process.Busy
import Playbook.Proofs.Process.Fate

/-!
# Blocks are looked after

A task that waits for a block finds it there when it has its turn again: nobody drops a
block but the task that waits for it (`Moment.Later.kept`). And it does not wait for
nothing. When it has looked after the block, either the block has yielded, or some of
its operations are running (`Moment.Later.occupied`).
-/

namespace Playbook

variable {δ σ ν ρ κ : Type}

open Machine (Task Block BlockState)

/-! ## Blocks that are waited for -/

/-- A block is there, and belongs to a task. -/
def Machine.Keeps (m : Machine δ σ ν ρ κ) (owner block : Nat) : Prop :=
  ∃ b ∈ m.blocks, b.id = block ∧ b.owner = owner

namespace Machine.Keeps

variable {m m' : Machine δ σ ν ρ κ} {owner block : Nat}

theorem of_blocks (h : m.Keeps owner block)
    (hb : ∀ b ∈ m.blocks, ∃ b' ∈ m'.blocks, b'.id = b.id ∧ b'.owner = b.owner) :
    m'.Keeps owner block := by
  obtain ⟨b, hm, rfl, rfl⟩ := h
  exact hb b hm

theorem of_eq (h : m.Keeps owner block) (hb : m'.blocks = m.blocks) : m'.Keeps owner block :=
  h.of_blocks fun b hm => ⟨b, hb ▸ hm, rfl, rfl⟩

/-- A block belongs to one task. -/
theorem inj (h : m.Keeps owner block) (hn : (m.blocks.map Block.id).Nodup) {owner' : Nat}
    (h' : m.Keeps owner' block) : owner = owner' := by
  obtain ⟨b, hm, hid, rfl⟩ := h
  obtain ⟨b', hm', hid', rfl⟩ := h'
  rw [List.inj_on_of_nodup_map hn hm hm' (hid.trans hid'.symm)]

/-- Other blocks are dropped. -/
theorem dropBlock (h : m.Keeps owner block) {c : Nat} (hne : block ≠ c) :
    (m.dropBlock c).Keeps owner block := by
  obtain ⟨b, hm, rfl, rfl⟩ := h
  refine ⟨b, ?_, rfl, rfl⟩
  rw [(m.dropBlock_eq c).2.1]
  exact List.mem_filter.mpr ⟨hm, decide_eq_true hne⟩

/-- A task drops what it waits for, and another block belongs to another task. -/
theorem drop (h : m.Keeps owner block) (hn : (m.blocks.map Block.id).Nodup)
    {w : Waiting δ σ ν ρ κ} {t : Nat} (hw : ∀ c ∈ w.blocks, m.Keeps t c) (hne : owner ≠ t) :
    (m.drop w).Keeps owner block := by
  obtain ⟨hd, -⟩ | ⟨c, hc, hd, -⟩ := m.drop_eq w
  · rw [hd]
    exact h
  · rw [hd]
    refine h.dropBlock fun hbc => hne (h.inj hn ?_)
    rw [hbc]
    exact hw c hc

/-- A task ends, and blocks hear of it at most. -/
theorem finish (h : m.Keeps owner block) (hn : (m.blocks.map Block.id).Nodup)
    (task : Task δ σ ν ρ κ) (s : Settlement ρ κ) : (m.finish task s).2.Keeps owner block := by
  refine h.of_blocks fun b hb => ⟨b.hear task s, ?_, b.id_hear task s, b.owner_hear task s⟩
  rw [(Machine.finish_eq hn task s).2.1]
  exact List.mem_map_of_mem hb

end Machine.Keeps

namespace Moment

/-- **Blocks that are waited for are there**, and belong to the task that waits. -/
def Kept (b : Moment δ σ ν ρ κ) : Prop :=
  ∀ t c, b.Awaits t c → b.machine.Keeps t c

variable {a b : Moment δ σ ν ρ κ}

/-- A task that is there when a waiting process has been dropped was there before. -/
theorem exists_mem_of_drop {m : Machine δ σ ν ρ κ} {w : Waiting δ σ ν ρ κ}
    {t : Task δ σ ν ρ κ} (h : t ∈ (m.drop w).tasks) :
    ∃ t' ∈ m.tasks, t'.id = t.id ∧ t'.state.waiting? = t.state.waiting? := by
  obtain ⟨hd, -⟩ | ⟨c, -, hd, -⟩ := m.drop_eq w
  · exact ⟨t, hd ▸ h, rfl, rfl⟩
  · rw [hd, (m.dropBlock_eq c).1] at h
    obtain ⟨t', hm, rfl⟩ := List.mem_map.mp h
    exact ⟨t', hm, (m.id_leaving c t').symm, (m.waiting?_leaving c t').symm⟩

theorem mem_blocks_of_drop {m : Machine δ σ ν ρ κ} {w : Waiting δ σ ν ρ κ}
    {b : Block δ σ ν ρ κ} (h : b ∈ (m.drop w).blocks) : b ∈ m.blocks := by
  obtain ⟨hd, -⟩ | ⟨c, -, hd, -⟩ := m.drop_eq w
  · rwa [hd] at h
  · rw [hd, (m.dropBlock_eq c).2.1] at h
    exact List.mem_of_mem_filter h

/-- A task that is there when another one has ended was there before. -/
theorem mem_of_finish {m : Machine δ σ ν ρ κ} (hn : (m.blocks.map Block.id).Nodup)
    {task t : Task δ σ ν ρ κ} {s : Settlement ρ κ} (h : t ∈ (m.finish task s).2.tasks) :
    t ∈ m.tasks ∧ task.id ≠ t.id := by
  rw [(Machine.finish_eq hn task s).1] at h
  obtain ⟨hm, hid⟩ := List.mem_filter.mp h
  exact ⟨hm, fun h => of_decide_eq_true hid h.symm⟩

variable [Deeds δ σ] {P : Process δ σ ν ρ κ → Prop}

/-- **Who waits without having the turn** has waited before, or has just had the
turn. -/
theorem Next.waits (h : Next P a b) (ho : a.Orderly) {t : Task δ σ ν ρ κ}
    (hm : t ∈ b.machine.tasks) (hne : ∀ task ∈ b.stage.task?, task.id ≠ t.id)
    {w : Waiting δ σ ν ρ κ} (hw : t.state.waiting? = some w) :
    (∃ t' ∈ a.machine.tasks, t'.id = t.id ∧ t'.state.waiting? = some w
      ∧ ∀ task ∈ a.stage.task?, task.id ≠ t'.id)
    ∨ ∃ task, a.stage = .waiting task w [] ∧ task.id = t.id := by
  -- what is started has not waited yet
  have hspawned : ∀ {m m' : Machine δ σ ν ρ κ} {block task : Nat}
      {start : List (Nat × Process δ σ ν ρ κ)},
      m'.tasks = m.tasks ++ Machine.spawned block task start → t ∈ m'.tasks → t ∈ m.tasks := by
    intro m m' block task start htasks hm
    obtain hm | hm := List.mem_append.mp (htasks ▸ hm)
    · exact hm
    · obtain ⟨-, -, op, -, -, hs, -⟩ := Machine.of_mem_spawned hm
      rw [hs] at hw
      cases hw
  cases h with
  | begin =>
    obtain rfl | hm := List.mem_cons.mp hm
    · cases hw
    · exact .inl ⟨t, hm, rfl, hw, nofun⟩
  | reorder hr => exact .inl ⟨t, hr.tasks ▸ hm, rfl, hw, nofun⟩
  | move h =>
    cases h with
    | first | wake => exact .inl ⟨t, hm, rfl, hw, nofun⟩
    | _ => exact .inl ⟨t, hm, rfl, hw, hne⟩
  | forget => exact .inl ⟨t, List.mem_of_mem_filter hm, rfl, hw, nofun⟩
  | forgetWaiting =>
    obtain ⟨t', hm', hid, hwait⟩ := exists_mem_of_drop hm
    exact .inl ⟨t', List.mem_of_mem_filter hm', hid, hwait.trans hw, nofun⟩
  | act | sleep => exact .inl ⟨t, hm, rfl, hw, hne⟩
  | @opens m past task node here next state start =>
    exact .inl ⟨t, hspawned (m.openBlock_eq task.id state start).1 hm, rfl, hw, hne⟩
  | @attend m past task block here next limits m' h =>
    obtain ⟨rfl, -⟩ | ⟨owner, g, -, rfl, -⟩ := Machine.of_attend_none h
    · exact .inl ⟨t, hm, rfl, hw, hne⟩
    · exact .inl ⟨t, hspawned (Machine.spawnAll_eq block g.launch.1 (Machine.putBlock _ m)).1 hm,
        rfl, hw, hne⟩
  | @yield m past task block here next limits s m' h =>
    obtain ⟨rfl, -⟩ := Machine.of_attend_some h
    rw [(m.dropBlock_eq block).1] at hm
    obtain ⟨t', hm', rfl⟩ := List.mem_map.mp hm
    rw [m.waiting?_leaving] at hw
    rw [m.id_leaving] at hne
    exact .inl ⟨t', hm', (m.id_leaving block t').symm, hw, hne⟩
  | @keep m past task w₀ limits l =>
    cases l with
    | set | running => exact .inl ⟨t, hm, rfl, hw, hne⟩
  | timeOut =>
    obtain ⟨t', hm', hid, hwait⟩ := exists_mem_of_drop hm
    exact .inl ⟨t', hm', hid, hwait.trans hw, hid ▸ hne⟩
  | @pause m past task w₀ =>
    obtain ⟨t', hm', rfl⟩ := List.mem_map.mp hm
    split at hw
    · rename_i hid
      cases hw
      rw [if_pos hid]
      exact .inr ⟨task, rfl, hid.symm⟩
    · rename_i hid
      rw [if_neg hid]
      exact .inl ⟨t', hm', rfl, hw, fun u hu => by cases hu; exact fun h => hid h.symm⟩
  | finish | crash =>
    obtain ⟨hm, hid⟩ := mem_of_finish ho.numbered.blocks.nodup hm
    exact .inl ⟨t, hm, rfl, hw, fun u hu => by cases hu; exact hid⟩

/-- **Who waits for a block has waited before**, or has just opened it. -/
theorem Next.awaited (h : Next P a b) (ho : a.Orderly) {t c : Nat} (hw : b.Awaits t c) :
    a.Awaits t c ∨ b.machine.Keeps t c := by
  cases hw with
  | rest hm hne hw hc =>
    obtain ⟨t', hm', hid, hw', hne'⟩ | ⟨task, hs, hid⟩ := h.waits ho hm hne hw
    · exact .inl (hid ▸ .rest hm' hne' hw' hc)
    · exact .inl (hid ▸ .turn (by rw [hs]; rfl) (by rw [hs]; exact hc))
  | @turn u _ ht hc =>
    cases h with
    | move h =>
      cases h with
      | wake hf hs =>
        cases ht
        exact .inl (.rest (List.mem_of_find?_eq_some hf) nofun (by rw [hs]; rfl) hc)
      | asleep | wakeLimited => exact .inl (.turn ht hc)
      | _ => cases hc
    | @opens m past task node here next state start =>
      obtain rfl : task = u := Option.some.inj ht
      rw [List.mem_singleton.mp hc]
      exact .inr ⟨⟨m.serial, task.id, state⟩,
        (m.openBlock_eq task.id state start).2.1 ▸ List.mem_cons_self, rfl, rfl⟩
    | attend => exact .inl (.turn ht hc)
    | @keep m past task w limits l =>
      cases l with
      | set | running => exact .inl (.turn ht hc)
    | begin | reorder | forget | forgetWaiting | pause | finish | crash => cases ht
    | act | sleep | yield | timeOut => cases hc

/-- **A block stays for the task that waits for it.** -/
theorem Next.keeps (h : Next P a b) (ho : a.Orderly) (ha : a.Kept) {t c : Nat}
    (hk : a.machine.Keeps t c) (hw : b.Awaits t c) : b.machine.Keeps t c := by
  have hnodup := ho.numbered.blocks.nodup
  cases h with
  | begin | move | forget | act | sleep | pause => exact hk
  | reorder hr => exact hk.of_eq hr.blocks
  | @forgetWaiting m past task before w₀ ht hs hw₀ =>
    refine Machine.Keeps.drop (m := m.removeTask task.id) (t := task.id) hk hnodup
      (fun c hc => ha _ _ ?_) ?_
    · exact .rest (List.mem_of_find?_eq_some ht) nofun (by rw [hs]; exact hw₀) hc
    · -- the task is forgotten, so another one waits
      cases hw with
      | turn ht => cases ht
      | rest hm =>
        obtain ⟨t', hm', hid, -⟩ := exists_mem_of_drop hm
        exact hid ▸ of_decide_eq_true (List.mem_filter.mp hm').2
  | @opens m past task node here next state start =>
    exact hk.of_blocks fun b hb =>
      ⟨b, (m.openBlock_eq task.id state start).2.1 ▸ List.mem_cons_of_mem _ hb, rfl, rfl⟩
  | @attend m past task block here next limits m' h =>
    obtain ⟨rfl, -⟩ | ⟨owner, g, hg, rfl, -⟩ := Machine.of_attend_none h
    · exact hk
    · refine hk.of_blocks fun b hb => ?_
      rw [(Machine.spawnAll_eq block g.launch.1 _).2.1]
      refine ⟨_, List.mem_map_of_mem hb, ?_⟩
      split
      · rename_i hid
        rw [List.inj_on_of_nodup_map hnodup hb hg hid]
        exact ⟨rfl, rfl⟩
      · exact ⟨rfl, rfl⟩
  | @yield m past task block here next limits s m' h =>
    obtain ⟨rfl, -⟩ := Machine.of_attend_some h
    refine hk.dropBlock fun hcb => ?_
    have hown : m.Keeps task.id block := ha _ _ (.turn rfl List.mem_cons_self)
    cases hw with
    | turn _ hc => cases hc
    | rest _ hne => exact hne task rfl (hown.inj hnodup (hcb ▸ hk))
  | @keep m past task w₀ limits l =>
    cases l with
    | set | running => exact hk
  | @timeOut m past task w₀ limits l =>
    refine hk.drop (t := task.id) hnodup (fun c hc => ha _ _ (.turn rfl hc)) ?_
    cases hw with
    | turn _ hc => cases hc
    | rest _ hne => exact fun h => hne task rfl h.symm
  | finish | crash => exact hk.finish hnodup _ _

theorem Next.kept (h : Next P a b) (ho : a.Orderly) (ha : a.Kept) : b.Kept := by
  intro t c hw
  obtain haw | hnew := h.awaited ho hw
  · exact h.keeps ho ha (ha t c haw) hw
  · exact hnew

/-- **Whoever waits for a block finds it there**, at all moments. -/
theorem Later.kept {w : σ} (h : Later P ⟨.idle, .ofWorld w, []⟩ b) : b.Kept := by
  induction h with
  | refl =>
    intro t c hw
    cases hw with
    | turn ht => cases ht
    | rest hm => cases hm
  | tail hl h ih => exact h.kept (Later.orderly hl) ih

end Moment

/-! ## Blocks that are at work -/

/-- Where everything that is looked for has settled, all of it is found. -/
theorem Settled.exists_mapM_find? (settled : Settled ρ κ) : (positions : List Nat) →
    (∀ i ∈ positions, i ∈ settled.map Prod.fst) →
    ∃ s, positions.mapM (fun i => settled.find? fun e => e.1 == i) = some s
  | [], _ => ⟨[], rfl⟩
  | i :: rest, h => by
    obtain ⟨s, hs⟩ := exists_mapM_find? settled rest fun j hj => h j (List.mem_cons_of_mem i hj)
    obtain ⟨e, he, hi⟩ := List.mem_map.mp (h i List.mem_cons_self)
    have hfound : (settled.find? fun e => e.1 == i).isSome = true :=
      List.find?_isSome.mpr ⟨e, he, beq_iff_eq.mpr hi⟩
    obtain ⟨e', he'⟩ := Option.isSome_iff_exists.mp hfound
    exact ⟨e' :: s, by rw [List.mapM_cons, he', hs]; rfl⟩

/-- **A gathering is over when it has started what it can and nothing is running.** -/
theorem Gathering.Sound.exists_result {α : Type} {limit : Nat} {stops : ρ → Bool}
    {operations : List α} {g : Gathering α ρ κ} (h : g.Sound limit stops operations)
    (hr : g.launch.2.running = []) : ∃ s, g.launch.2.result? = some s := by
  have hnone := hr
  rw [h.running_launch] at hnone
  obtain ⟨hrun, hstart⟩ := List.append_eq_nil_iff.mp hnone
  -- there are places, so nothing can be waiting for one
  have hfree : 0 < g.free := by
    have hplaces := h.free_add_running
    rw [hrun, List.length_nil] at hplaces
    omega
  have hwaiting : g.launch.2.waiting = [] := by
    rw [launch_waiting]
    cases hs : g.stopped with
    | true => rw [if_pos rfl, if_neg (Nat.ne_of_gt hfree)]
    | false =>
      have htake := List.map_eq_nil_iff.mp hstart
      rw [launch_fst, hs, if_neg Bool.false_ne_true] at htake
      obtain hzero | hnil := List.take_eq_nil_iff.mp htake
      · exact absurd hzero (Nat.ne_of_gt hfree)
      · rw [if_neg Bool.false_ne_true, hnil, List.drop_nil]
  unfold result?
  rw [hwaiting, List.isEmpty_nil, if_pos rfl]
  refine Settled.exists_mapM_find? _ _ fun i hi => ?_
  have hsettled := List.filter_eq_nil_iff.mp hr i hi
  rw [Bool.not_eq_true, Bool.not_eq_false'] at hsettled
  exact hasSettled_iff.mp hsettled

/-- A race is over when nothing is running. -/
theorem Race.Sound.exists_result {α : Type} {wins : ρ → Bool} {operations : List α}
    {r : Race ρ κ} (h : r.Sound wins operations) (hr : r.running = []) :
    ∃ s, r.result? = some s := by
  unfold result?
  split
  · exact ⟨_, rfl⟩
  · have hperm : (r.settled.map Prod.fst).Perm (List.range r.total) := by
      refine (List.perm_ext_iff_of_nodup h.settled_nodup List.nodup_range).mpr fun i =>
        ⟨fun hi => ?_, fun hi => ?_⟩
      · obtain ⟨e, he, rfl⟩ := List.mem_map.mp hi
        rw [List.mem_range, h.total_eq]
        exact h.settled_lt e he
      · have hsettled := List.filter_eq_nil_iff.mp hr i hi
        rw [Bool.not_eq_true, Bool.not_eq_false'] at hsettled
        exact Settled.any_iff.mp hsettled
    have hlen := hperm.length_eq
    rw [List.length_map, List.length_range] at hlen
    rw [if_pos hlen]
    exact ⟨_, rfl⟩

/-- **A block is due** when its task is to look after it: a gathering when nothing of it is
running, and a race already when it is decided. -/
def Machine.BlockState.Due : BlockState δ σ ν ρ κ → Prop
  | gathering g => g.running = []
  | race r => ∃ s, r.result? = some s

/-- A block of which nothing is running is due. -/
theorem Machine.BlockState.Sound.due_of_running {node : Process δ σ ν ρ κ}
    {b : BlockState δ σ ν ρ κ} (h : b.Sound node) (hr : b.running = []) : b.Due := by
  obtain ⟨_, _, _, _, _, g, -, rfl, hg⟩ | ⟨_, _, _, _, r, -, rfl, hg⟩ := h.shape
  · exact hr
  · exact hg.exists_result hr

/-- **A block that has been looked after and is not over** is not due. -/
theorem Machine.BlockState.Sound.not_due_looked {node : Process δ σ ν ρ κ}
    {b : BlockState δ σ ν ρ κ} (h : b.Sound node) (hb : b.outcome? = none) :
    ¬ b.looked.Due := by
  intro hdue
  have hsome : ∃ s, b.outcome? = some s := by
    obtain ⟨_, _, _, _, _, g, -, rfl, hg⟩ | ⟨_, _, _, _, r, -, rfl, -⟩ := h.shape
    · exact hg.exists_result hdue
    · exact hdue
  obtain ⟨s, hs⟩ := hsome
  rw [hb] at hs
  cases hs

/-- A block is not due when it is opened. -/
theorem Process.Opens.not_due {here : ν} {next : Settled ρ κ → Process δ σ ν ρ κ}
    {node : Process δ σ ν ρ κ} {state : BlockState δ σ ν ρ κ}
    {start : List (Nat × Process δ σ ν ρ κ)} (h : Opens here next node state start) :
    ¬ state.Due := by
  cases h with
  | @gather limit stops operations start g hl h =>
    have hsound : Gathering.Sound limit stops operations
        (Gathering.ofOperations (ρ := ρ) (κ := κ) limit stops operations) :=
      .ofOperations limit stops operations
    intro hr
    obtain ⟨s, hs⟩ := hsound.exists_result (by rw [hl]; exact hr)
    rw [hl, h] at hs
    cases hs
  | @race wins operations h =>
    rintro ⟨s, hs⟩
    rw [h] at hs
    cases hs

namespace Moment

/-- **The blocks that the task with the turn has looked after are at work**, when it
waits for the rest of its turn. -/
def Occupied (b : Moment δ σ ν ρ κ) : Prop :=
  ∀ task w limits, b.stage = .waiting task w limits → ∀ block ∈ w.blocks,
    ∀ B ∈ b.machine.blocks, B.id = block → ¬ B.state.Due

variable [Deeds δ σ] {P : Process δ σ ν ρ κ → Prop} {a b : Moment δ σ ν ρ κ}

theorem Next.occupied (h : Next P a b) (ho : a.Orderly) (ha : a.Occupied) : b.Occupied := by
  intro task w limits hs block hw B hB hid
  -- a task comes to wait for a block when it opens it or attends it
  cases h with
  | move h =>
    cases h with
    | asleep =>
      cases hs
      cases hw
    | _ => cases hs
  | sleep =>
    cases hs
    cases hw
  | @opens m past task node here next state start limits h =>
    cases hs
    cases List.mem_singleton.mp hw
    rw [(m.openBlock_eq task.id state start).2.1] at hB
    obtain rfl | hB := List.mem_cons.mp hB
    · exact h.not_due
    · exact absurd hid (Nat.ne_of_lt (ho.numbered.block_lt hB))
  | attend h =>
    cases hs
    cases List.mem_singleton.mp hw
    obtain ⟨B', hB', -, hnone, hstate⟩ :=
      Machine.looked_of_attend ho.numbered.blocks.nodup h hB hid
    obtain ⟨n, -, hsound, -, -⟩ := ho.booked.live B' hB'
    rw [hstate]
    exact hsound.not_due_looked hnone
  | @keep m past task w limits l h =>
    cases l with
    | set | running =>
      cases hs
      exact ha _ _ _ rfl block hw B hB hid
  | _ => cases hs

/-- **A task that waits for a block** leaves operations running that it waits for, at all
moments. -/
theorem Later.occupied {w : σ} (h : Later P ⟨.idle, .ofWorld w, []⟩ b) : b.Occupied := by
  induction h with
  | refl => exact nofun
  | tail hl h ih => exact h.occupied (Later.orderly hl) ih

/-- **What becomes of a task that comes to a block**: it opens the block with the number that
is next, or goes on at once as there are no operations. -/
theorem Next.comes (h : Next P a b) {task : Task δ σ ν ρ κ} {node : Process δ σ ν ρ κ} {here : ν}
    {next : Settled ρ κ → Process δ σ ν ρ κ} {limits : List (Limit δ σ ν ρ κ)}
    (hs : a.stage = .going task node limits) (hb : node.block? = some (here, next)) :
    (b.stage = .waiting task (.blocked a.machine.serial here next) limits
      ∧ ∃ start, b.past = a.past ++ .opened task.id a.machine.serial node
          :: Event.starts a.machine.serial (a.machine.serial + 1) start)
    ∨ node.operations = [] ∧ b.stage = .going task (next []) limits := by
  cases h with
  | move hm =>
    cases hm with
    | @gatherNothing _ limit stops operations _ _ _ s hr =>
      cases hs
      cases hb
      have hsound := (Gathering.Sound.ofOperations (ρ := ρ) (κ := κ) limit stops operations).launch
      -- nothing has settled yet
      obtain rfl := List.eq_nil_iff_forall_not_mem.mpr fun e he =>
        List.not_mem_nil ((hsound.of_result hr).2.2.1 e he)
      obtain hlen | ⟨e, he, -⟩ := hsound.all_or_stopped hr
      · exact .inr ⟨List.length_eq_zero_iff.mp hlen.symm, rfl⟩
      · cases he
    | raceNothing hr =>
      cases hs
      cases hb
      obtain ⟨hlen, hr⟩ := Option.ite_none_right_eq_some.mp hr
      cases hr
      exact .inr ⟨List.length_eq_zero_iff.mp hlen.symm, rfl⟩
    | sleepZero | limit | inTime | crashOut =>
      cases hs
      cases hb
    | _ => cases hs
  | opens ho =>
    cases hs
    cases hb.symm.trans ho.block?
    exact .inl ⟨rfl, _, rfl⟩
  | act | sleep | finish | crash =>
    cases hs
    cases hb
  | _ => cases hs

/-- **What becomes of a task that looks after its block**: the block yields, or the task
goes on waiting and operations of the block are running. -/
theorem Later.look {w : σ} (h : Later P ⟨.idle, .ofWorld w, []⟩ a)
    {task : Task δ σ ν ρ κ} {block : Nat} {here : ν}
    {next : Settled ρ κ → Process δ σ ν ρ κ} {limits : List (Limit δ σ ν ρ κ)}
    (hs : a.stage = .woken task (.blocked block here next) limits) (hn : Next P a b) :
    (b.stage = .waiting task (.blocked block here next) limits ∧ 0 < b.machine.count block)
      ∨ ∃ s, b.stage = .going task (next s) limits ∧ .yielded task.id block s ∈ b.past := by
  have hb : Later P ⟨.idle, .ofWorld w, []⟩ b := h.tail hn
  cases hn with
  | move hm =>
    cases hm with
    | _ => cases hs
  | attend =>
    cases hs
    refine .inl ⟨rfl, ?_⟩
    have ho := Later.orderly hb
    obtain ⟨B, hB, hid, -⟩ := Later.kept hb _ _ (.turn rfl List.mem_cons_self)
    obtain ⟨n, -, hsound, -, -⟩ := ho.booked.live B hB
    have hrun : B.state.running ≠ [] := fun hr =>
      Later.occupied hb _ _ _ rfl block List.mem_cons_self B hB hid (hsound.due_of_running hr)
    have hcount := ho.booked.count_eq ho.numbered hB
    rw [hid] at hcount
    exact Nat.lt_of_lt_of_eq (List.length_pos_iff.mpr hrun) hcount.symm
  | yield =>
    cases hs
    exact .inr ⟨_, rfl, List.mem_append_right _ List.mem_cons_self⟩
  | _ => cases hs

end Moment

end Playbook
