import Playbook.Proofs.Process.Watch

/-!
# Blocks wake the tasks that wait for them

A machine gives turns only to tasks that can run. A task that waits for a block cannot
run until the block wakes it, and a gathering does not wake its task whenever one of its
operations has settled. Still no task is forgotten: as soon as a block is due, the task
that waits for it can run (`Machine.Played.canRun_of_due`). A race is due when it is
decided, and any block when none of its operations is running.

That is so in the runs of a machine, where it is known who can run, and not in every
order of turns. Within a turn, whoever can run goes on being able to
(`Moment.Next.rouses`); between two turns only the task that has the next one is taken
from those that can run.
-/

namespace Playbook

variable {δ σ ν ρ κ : Type}

open Machine (Task Block BlockState)

namespace Machine

/-! ## Who can run -/

/-- A task will have a turn without being woken. -/
def CanRun (m : Machine δ σ ν ρ κ) (id : Nat) : Prop :=
  id ∈ m.ready ∨ id = mainId ∧ m.mainReady = true

/-- Whoever could run still can. -/
def Rouses (m m' : Machine δ σ ν ρ κ) : Prop :=
  ∀ id, m.CanRun id → m'.CanRun id

variable {m m₁ m₂ : Machine δ σ ν ρ κ}

theorem Rouses.trans (h₁ : m.Rouses m₁) (h₂ : m₁.Rouses m₂) : m.Rouses m₂ :=
  fun id h => h₂ id (h₁ id h)

/-- Who is woken can run. -/
theorem canRun_wake (id : Nat) (m : Machine δ σ ν ρ κ) : (m.wake id).CanRun id := by
  unfold wake
  split
  · rename_i hmain
    exact .inr ⟨hmain, rfl⟩
  · split
    · rename_i hready
      exact .inl (List.contains_iff_mem.mp hready)
    · exact .inl (List.mem_append_right _ List.mem_cons_self)

theorem rouses_wake (id : Nat) (m : Machine δ σ ν ρ κ) : m.Rouses (m.wake id) := by
  intro i h
  unfold wake
  split
  · exact h.imp_right fun h => ⟨h.1, rfl⟩
  · split
    · exact h
    · exact h.imp_left fun h => List.mem_append_left _ h

theorem rouses_wakeAll {α : Type} (f : α → Nat) (as : List α) (m : Machine δ σ ν ρ κ) :
    m.Rouses (as.foldl (fun m a => m.wake (f a)) m) := by
  induction as generalizing m with
  | nil => exact fun _ h => h
  | cons a rest ih => exact (rouses_wake (f a) m).trans (ih _)

theorem rouses_spawnAll (block : Nat) (operations : List (Nat × Process δ σ ν ρ κ))
    (m : Machine δ σ ν ρ κ) : m.Rouses (m.spawnAll block operations) := by
  induction operations generalizing m with
  | nil => exact fun _ h => h
  | cons op rest ih =>
    have hspawn : m.Rouses (m.spawn block op.1 op.2) := fun _ h =>
      h.imp_left fun h => List.mem_append_left _ h
    exact hspawn.trans (ih _)

theorem rouses_cancelOperations (block : Nat) (m : Machine δ σ ν ρ κ) :
    m.Rouses (m.cancelOperations block) :=
  fun id h => rouses_wakeAll (fun id => id) ((m.tasks.filter (Task.isIn block)).map Task.id)
    { m with tasks := m.tasks.map (Task.stopIn block) } id h

theorem rouses_dropBlock (block : Nat) (m : Machine δ σ ν ρ κ) :
    m.Rouses (m.dropBlock block) := by
  unfold dropBlock
  split
  · exact rouses_cancelOperations block (m.removeBlock block)
  · exact fun _ h => h
  · exact fun _ h => h

theorem rouses_drop (w : Waiting δ σ ν ρ κ) (m : Machine δ σ ν ρ κ) :
    m.Rouses (m.drop w) := by
  obtain ⟨hd, -⟩ | ⟨block, -, hd, -⟩ := m.drop_eq w
  · rw [hd]
    exact fun _ h => h
  · rw [hd]
    exact rouses_dropBlock block m

theorem rouses_attend {block : Nat} {s : Option (Settled ρ κ)} (h : m.attend block = (s, m₁)) :
    m.Rouses m₁ := by
  cases s with
  | none =>
    obtain ⟨rfl, -⟩ | ⟨owner, g, -, rfl, -⟩ := of_attend_none h
    · exact fun _ h => h
    · exact fun id h => rouses_spawnAll block g.launch.1 (m.putBlock _) id h
  | some s =>
    obtain ⟨rfl, -⟩ := of_attend_some h
    exact rouses_dropBlock block m

theorem rouses_finish (task : Task δ σ ν ρ κ) (s : Settlement ρ κ) (m : Machine δ σ ν ρ κ) :
    m.Rouses (m.finish task s).2 := by
  intro id h
  unfold finish
  dsimp only
  split
  · unfold settle
    split
    · exact h
    · dsimp only
      split
      · exact rouses_wake _ _ id h
      · exact h
    · exact rouses_wake _ _ id h
  · exact h

/-- Only the task that has the next turn is taken from those that can run. -/
theorem canRun_of_next? {id : Nat} (h : m.next? = some (id, m₁)) {i : Nat} (hi : m.CanRun i)
    (hne : i ≠ id) : m₁.CanRun i := by
  unfold next? at h
  split at h
  · rename_i hready
    cases h
    refine hi.imp_left fun hm => ?_
    rw [hready] at hm
    exact (List.mem_cons.mp hm).resolve_left hne
  · rename_i hready
    split at h
    · cases h
      obtain hm | ⟨hmain, -⟩ := hi
      · rw [hready] at hm
        cases hm
      · exact absurd hmain hne
    · cases h

theorem rouses_moveClock (h : m.moveClock = some m₁) : m.Rouses m₁ := by
  unfold moveClock at h
  dsimp only at h
  split at h
  · cases h
  · rename_i now _
    intro id hid
    have hwoken : ∀ due : List (Alarm × Nat),
        (due.foldl (fun (m : Machine δ σ ν ρ κ) a => m.wake a.2)
          { m with now := now }).CanRun id :=
      fun due => rouses_wakeAll (fun a => a.2) due { m with now := now } id hid
    split at h
    · cases h
      exact (hwoken _).imp_left (List.mem_cons_of_mem _)
    · cases h
      exact hwoken _

/-! ## When blocks wake -/

theorem exists_hear_of_finish (hn : (m.blocks.map Block.id).Nodup) {task : Task δ σ ν ρ κ}
    {s : Settlement ρ κ} {b : Block δ σ ν ρ κ} (h : b ∈ (m.finish task s).2.blocks) :
    ∃ b' ∈ m.blocks, b = b'.hear task s := by
  rw [(finish_eq hn task s).2.1] at h
  obtain ⟨b', hm, rfl⟩ := List.mem_map.mp h
  exact ⟨b', hm, rfl⟩

end Machine

/-- The last operation of a gathering wakes the task that waits. -/
theorem Gathering.wakesOn_of_running {α : Type} {g : Gathering α ρ κ} (hr : g.running ≠ [])
    {i : Nat} {s : Settlement ρ κ} (h : (g.settle i s).running = []) : g.wakesOn i = true := by
  have hall : ∀ j ∈ g.running, j = i := by
    intro j hj
    rw [Sound.running_settle] at h
    exact not_not.mp fun hne => List.filter_eq_nil_iff.mp h j hj (decide_eq_true hne)
  have hfirst : g.firstRunning? = some i := by
    show g.started.find? (fun j => !g.hasSettled j) = some i
    rw [← List.head?_filter]
    obtain ⟨j, hj⟩ := Option.ne_none_iff_exists'.mp fun hnone =>
      hr (List.head?_eq_none_iff.mp hnone)
    have hi := hall j (List.mem_of_mem_head? hj)
    exact hi ▸ hj
  unfold wakesOn
  rw [hfirst, beq_self_eq_true, Bool.or_true]

/-- **The operation that makes a block due wakes the task that waits for it.** -/
theorem Machine.canRun_of_hear {m : Machine δ σ ν ρ κ} (hn : (m.blocks.map Block.id).Nodup)
    {b : Block δ σ ν ρ κ} (hb : b ∈ m.blocks) (hr : ¬ b.state.Due)
    {task : Task δ σ ν ρ κ} {s : Settlement ρ κ} (h : (b.hear task s).state.Due) :
    (m.finish task s).2.CanRun b.owner := by
  cases hpar : task.parent with
  | none =>
    rw [Block.hear, hpar] at h
    exact absurd h hr
  | some place =>
    obtain ⟨block, index⟩ := place
    rw [Block.hear, hpar] at h
    dsimp only at h
    split at h
    · rename_i hid
      have hf : (m.removeTask task.id).blocks.find? (fun b => b.id == block) = some b :=
        hid ▸ find?_of_nodup hn hb
      rw [finish, hpar]
      dsimp only
      unfold settle
      rw [hf]
      obtain ⟨id, owner, g | r⟩ := b
      · have hwakes := Gathering.wakesOn_of_running (g := g) hr h
        dsimp only
        rw [if_pos hwakes]
        exact canRun_wake owner _
      · exact canRun_wake owner _
    · exact absurd h hr

/-! ## Nobody is forgotten -/

namespace Moment

/-- **Tasks that wait for a block that is due can run**, the one apart that has its
turn. -/
def Alert (b : Moment δ σ ν ρ κ) : Prop :=
  ∀ t ∈ b.machine.tasks, (∀ task ∈ b.stage.task?, task.id ≠ t.id) →
    ∀ w, t.state.waiting? = some w → ∀ B ∈ b.machine.blocks, B.id ∈ w.blocks →
      B.state.Due → b.machine.CanRun t.id

variable [Deeds δ σ] {P : Process δ σ ν ρ κ → Prop} {a b : Moment δ σ ν ρ κ}

/-- **Within a turn, whoever can run goes on being able to.** -/
theorem Next.rouses (h : Next P a b) (hs : a.stage ≠ .idle) : a.machine.Rouses b.machine := by
  cases h with
  | begin | reorder | forget | forgetWaiting => exact absurd rfl hs
  | move | act | sleep | pause => exact fun _ h => h
  | opens => exact fun id h => Machine.rouses_spawnAll _ _ _ id h
  | attend h => exact Machine.rouses_attend h
  | yield h => exact Machine.rouses_attend h
  | @keep m past task w limits l =>
    cases l with
    | set | running => exact fun _ h => h
  | timeOut => exact Machine.rouses_drop _ _
  | finish | crash => exact Machine.rouses_finish _ _ _

/-- **Nobody is forgotten within a turn.** Where a block is new or has just been looked
after, it is not due; and the operation that makes it so wakes the task that waits. -/
theorem Next.alert (h : Next P a b) (hs : a.stage ≠ .idle) (ho : a.Orderly) (hk : a.Kept)
    (hocc : a.Occupied) (ha : a.Alert) : b.Alert := by
  intro t hm hne w hw B hB hc hr
  obtain ⟨t', hm', hid, hw', hne'⟩ | ⟨task, hstage, -⟩ := h.waits ho hm hne hw
  · rw [← hid]
    -- a block that is due was there before, or an operation that makes it so has ended
    have hold : B ∈ a.machine.blocks → b.machine.CanRun t'.id := fun hB =>
      h.rouses hs _ (ha t' hm' hne' w hw' B hB hc hr)
    cases h with
    | begin | reorder | forget | forgetWaiting => exact absurd rfl hs
    | move | act | sleep | pause => exact hold hB
    | @opens m past task node here next state start limits h =>
      rw [(m.openBlock_eq task.id state start).2.1] at hB
      obtain rfl | hB := List.mem_cons.mp hB
      · exact absurd hr h.not_due
      · exact hold hB
    | @attend m past task block here next limits m' h =>
      obtain ⟨rfl, -⟩ | ⟨owner, g, -, rfl, -⟩ := Machine.of_attend_none h
      · exact hold hB
      · rw [(Machine.spawnAll_eq block g.launch.1 _).2.1] at hB
        obtain rfl | ⟨hB, -⟩ := Machine.of_mem_putBlock hB
        · -- the task that looks after the block is the one that waits for it
          have hown : m.Keeps task.id block := hk _ _ (.turn rfl List.mem_cons_self)
          exact absurd (hown.inj ho.numbered.blocks.nodup (hk _ _ (.rest hm' hne' hw' hc)))
            (hne' task rfl)
        · exact hold hB
    | @yield m past task block here next limits s m' h =>
      obtain ⟨rfl, -⟩ := Machine.of_attend_some h
      rw [(m.dropBlock_eq block).2.1] at hB
      exact hold (List.mem_of_mem_filter hB)
    | @keep m past task w limits l =>
      cases l with
      | set | running => exact hold hB
    | @timeOut m past task w =>
      exact hold (mem_blocks_of_drop hB)
    | @finish m past task | @crash m past task =>
      have hnodup := ho.numbered.blocks.nodup
      obtain ⟨B', hB', rfl⟩ := Machine.exists_hear_of_finish hnodup hB
      rw [Block.id_hear] at hc
      by_cases hr' : B'.state.Due
      · exact Machine.rouses_finish _ _ _ _ (ha t' hm' hne' w hw' B' hB' hc hr')
      · have hcan := Machine.canRun_of_hear hnodup hB' hr' hr
        have hown : m.Keeps B'.owner B'.id := ⟨B', hB', rfl, rfl⟩
        rwa [hown.inj hnodup (hk _ _ (.rest hm' hne' hw' hc))] at hcan
  · -- the task has looked after its block in the turn
    cases h with
    | pause =>
      cases hstage
      exact absurd hr (hocc _ _ _ rfl B.id hc B hB rfl)
    | move h =>
      cases h with
      | _ => cases hstage
    | begin | reorder | forget | forgetWaiting => exact absurd rfl hs
    | _ => cases hstage

/-- The moments of a machine at which nobody is forgotten. -/
structure Cared (P : Process δ σ ν ρ κ → Prop) (w : σ) (b : Moment δ σ ν ρ κ) : Prop where
  later : Later P ⟨.idle, .ofWorld w, []⟩ b
  alert : b.Alert

variable {w : σ}

theorem Cared.inTurn (h : Cared P w a) (hab : InTurn P a b) : Cared P w b := by
  induction hab with
  | refl => exact h
  | tail _ hn ih =>
    have hl := ih.later
    exact ⟨hl.tail hn.2, hn.2.alert hn.1 (Later.orderly hl) (Later.kept hl) (Later.occupied hl)
      ih.alert⟩

/-- A task comes to its turn, and the others wait as before. -/
theorem Cared.turn {m m₁ : Machine δ σ ν ρ κ} {past : List (Event δ σ ν ρ κ)}
    (h : Cared P w ⟨.idle, m, past⟩) {id : Nat} (hn : m.next? = some (id, m₁)) :
    ∃ past', Cared P w ⟨.idle, (m₁.turn id).2, past'⟩ := by
  have hr := Machine.Reordered.of_next? hn
  have hl : Later P ⟨.idle, .ofWorld w, []⟩ ⟨.idle, m₁, past⟩ := h.later.tail (.reorder hr)
  -- only the task that has the turn may have been forgotten
  have hothers : ∀ t ∈ m₁.tasks, t.id ≠ id → ∀ v, t.state.waiting? = some v →
      ∀ B ∈ m₁.blocks, B.id ∈ v.blocks → B.state.Due → m₁.CanRun t.id :=
    fun t hm hne v hv B hB hc hrun => Machine.canRun_of_next? hn
      (h.alert t (hr.tasks ▸ hm) nofun v hv B (hr.blocks ▸ hB) hc hrun) hne
  unfold Machine.turn
  split
  · rename_i hf
    refine ⟨past, hl, fun t hm _ => hothers t hm fun hid => ?_⟩
    exact List.find?_eq_none.mp hf t hm (beq_iff_eq.mpr hid)
  · rename_i task hf
    have hid := List.find?_some hf
    have hid : task.id = id := beq_iff_eq.mp hid
    subst hid
    have hturn : ∀ {s : Stage δ σ ν ρ κ}, s.task? = some task →
        Next P ⟨.idle, m₁, past⟩ ⟨s, m₁, past⟩ → Cared P w ⟨s, m₁, past⟩ := fun hs hnext =>
      ⟨hl.tail hnext, fun t hm hne => hothers t hm fun hid => hne task hs hid.symm⟩
    split
    · rename_i p hs
      obtain ⟨past₁, h₁⟩ := goes_advance (P := P) task p [] m₁ past
      obtain ⟨past₂, h₂, -⟩ := inTurn_conclude (P := P) task
        (Machine.advance task.id p m₁).1 (Machine.advance task.id p m₁).2 past₁
      exact ⟨past₂, (hturn rfl (.move (.first hf hs))).inTurn (h₁.trans h₂)⟩
    · rename_i v hs
      obtain ⟨past₁, h₁⟩ := goes_resume (P := P) task v [] m₁ past
      obtain ⟨past₂, h₂, -⟩ := inTurn_conclude (P := P) task
        (Machine.resume task.id v m₁).1 (Machine.resume task.id v m₁).2 past₁
      exact ⟨past₂, (hturn rfl (.move (.wake hf hs))).inTurn (h₁.trans h₂)⟩
    · rename_i before hs
      split
      · rename_i v hv
        refine ⟨_, hl.tail (.forgetWaiting hf hs hv), fun t hm _ u hu B hB hc hrun => ?_⟩
        obtain ⟨t', hm', hid, hwait⟩ := exists_mem_of_drop hm
        obtain ⟨hm', hne⟩ := List.mem_filter.mp hm'
        have hcan := hothers t' hm' (of_decide_eq_true hne) u (hwait.trans hu) B
          (mem_blocks_of_drop (m := m₁.removeTask task.id) hB) hc hrun
        exact hid ▸ Machine.rouses_drop v (m₁.removeTask task.id) _ hcan
      · rename_i hv
        refine ⟨_, hl.tail (.forget hf hs hv), fun t hm _ => ?_⟩
        obtain ⟨hm, hne⟩ := List.mem_filter.mp hm
        exact hothers t hm (of_decide_eq_true hne)

/-- Nobody is forgotten when the clock moves. -/
theorem Cared.moveClock {m m' : Machine δ σ ν ρ κ} {past : List (Event δ σ ν ρ κ)}
    (h : Cared P w ⟨.idle, m, past⟩) (hc : m.moveClock = some m') :
    Cared P w ⟨.idle, m', past⟩ := by
  have hr := Machine.Reordered.of_moveClock hc
  refine ⟨h.later.tail (.reorder hr), fun t hm hne v hv B hB hid hrun => ?_⟩
  exact Machine.rouses_moveClock hc _
    (h.alert t (hr.tasks ▸ hm) hne v hv B (hr.blocks ▸ hB) hid hrun)

/-- **Nobody is forgotten between two turns of a run.** -/
theorem Cared.runTurns (turns : Nat) {m : Machine δ σ ν ρ κ} {past : List (Event δ σ ν ρ κ)}
    (h : Cared P w ⟨.idle, m, past⟩) :
    ∃ past', Cared P w ⟨.idle, (m.runTurns turns).2, past'⟩ := by
  induction turns generalizing m past with
  | zero => exact ⟨past, h⟩
  | succ turns ih =>
    unfold Machine.runTurns
    split
    · rename_i id m₁ hn
      obtain ⟨past₁, h₁⟩ := h.turn hn
      split
      · rename_i ht
        rw [ht] at h₁
        exact ⟨past₁, h₁⟩
      · rename_i ht
        rw [ht] at h₁
        exact ⟨past₁, h₁⟩
      · rename_i ht
        rw [ht] at h₁
        exact ih h₁
    · split
      · rename_i hc
        exact ih (h.moveClock hc)
      · exact ⟨past, h⟩

theorem Cared.begin {m : Machine δ σ ν ρ κ} {past : List (Event δ σ ν ρ κ)}
    (h : Cared P w ⟨.idle, m, past⟩) {p : Process δ σ ν ρ κ} (hp : P p)
    (hm : ∀ t ∈ m.tasks, t.id ≠ Machine.mainId) : Cared P w ⟨.idle, m.begin p, past⟩ := by
  refine ⟨h.later.tail (.begin hp hm), fun t ht _ v hv B hB hc hrun => ?_⟩
  obtain rfl | ht := List.mem_cons.mp ht
  · cases hv
  · obtain hready | ⟨hmain, -⟩ := h.alert t ht nofun v hv B hB hc hrun
    · exact .inl (List.mem_cons_of_mem _ hready)
    · exact .inl (hmain ▸ List.mem_cons_self)

/-- **Whoever waits for a block can run when none of its operations is running.** -/
theorem Cared.canRun {m : Machine δ σ ν ρ κ} {past : List (Event δ σ ν ρ κ)}
    (h : Cared P w ⟨.idle, m, past⟩) {t : Task δ σ ν ρ κ} (ht : t ∈ m.tasks)
    {v : Waiting δ σ ν ρ κ} (hv : t.state.waiting? = some v) {block : Nat} (hb : block ∈ v.blocks)
    (hc : m.count block = 0) : m.CanRun t.id := by
  have ho := Later.orderly h.later
  obtain ⟨b, hm, hid, -⟩ := Later.kept h.later _ _ (.rest ht nofun hv hb)
  obtain ⟨n, -, hsound, -, -⟩ := ho.booked.live b hm
  refine h.alert t ht nofun v hv b hm (hid ▸ hb)
    (hsound.due_of_running (List.length_eq_zero_iff.mp ?_))
  have hcount := ho.booked.count_eq ho.numbered hm
  rw [hid] at hcount
  exact hcount.symm.trans hc

end Moment

/-! ## Runs -/

variable [Deeds δ σ]

/-- **What a machine comes to by running processes one after the other.** -/
inductive Machine.Played (w : σ) : Machine δ σ ν ρ κ → Prop
  | start : Played w (.ofWorld w)
  | run {m} (h : Played w m) (hm : ∀ t ∈ m.tasks, t.id ≠ mainId) (turns : Nat)
    (p : Process δ σ ν ρ κ) : Played w (m.run turns p).2

theorem Machine.Played.cared {w : σ} {m : Machine δ σ ν ρ κ} (h : m.Played w) :
    ∃ past, Moment.Cared (fun _ => True) w ⟨.idle, m, past⟩ := by
  induction h with
  | start => exact ⟨[], .refl, nofun⟩
  | run _ hm turns p ih =>
    obtain ⟨past, hc⟩ := ih
    exact (hc.begin trivial hm).runTurns turns

/-- **Whoever waits for a block can run when the block is due.** -/
theorem Machine.Played.canRun_of_due {w : σ} {m : Machine δ σ ν ρ κ} (h : m.Played w)
    {t : Task δ σ ν ρ κ} (ht : t ∈ m.tasks) {v : Waiting δ σ ν ρ κ}
    (hv : t.state.waiting? = some v) {b : Block δ σ ν ρ κ} (hb : b ∈ m.blocks)
    (hid : b.id ∈ v.blocks) (hdue : b.state.Due) : m.CanRun t.id := by
  obtain ⟨past, -, halert⟩ := h.cared
  exact halert t ht nofun v hv b hb hid hdue

/-- **Whoever waits for a block can run when none of its operations is running.** -/
theorem Machine.Played.canRun {w : σ} {m : Machine δ σ ν ρ κ} (h : m.Played w)
    {t : Task δ σ ν ρ κ} (ht : t ∈ m.tasks) {v : Waiting δ σ ν ρ κ}
    (hv : t.state.waiting? = some v) {block : Nat} (hb : block ∈ v.blocks)
    (hc : m.count block = 0) : m.CanRun t.id := by
  obtain ⟨past, hcared⟩ := h.cared
  exact hcared.canRun ht hv hb hc

end Playbook
