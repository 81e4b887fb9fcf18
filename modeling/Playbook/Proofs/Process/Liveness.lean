import Playbook.Proofs.Process.Wake

/-!
# Machines do not get stuck

A machine can go on as long as it has a main task: a task can run, or one waits for a time and the
clock can be moved (`Machine.Tended.exists_moveClock`). A task that has not begun, or that has been
stopped, has a turn before it (`Machine.Prompt`), and so has one whose block is due. Any other task
waits for a time or for an operation of its block; the operation is a task with a greater number,
and among finitely many tasks one has the greatest.
-/

namespace Playbook

variable {δ σ ν ρ κ : Type}

open Machine (Task Block mainId)

namespace Machine

variable {m : Machine δ σ ν ρ κ}

/-- Whether a task waits. -/
def TaskState.isWaiting : TaskState δ σ ν ρ κ → Bool
  | waiting _ => true
  | _ => false

/-- Whoever is woken with others can run. -/
theorem canRun_wakeAll {α : Type} (f : α → Nat) {as : List α} {a : α} (h : a ∈ as)
    (m : Machine δ σ ν ρ κ) : (as.foldl (fun m a => m.wake (f a)) m).CanRun (f a) := by
  induction as generalizing m with
  | nil => cases h
  | cons b as ih =>
    obtain rfl | h := List.mem_cons.mp h
    · exact rouses_wakeAll f as _ _ (canRun_wake (f a) m)
    · exact ih h _

/-- A task that is stopped with its block has a turn before it. -/
theorem canRun_dropBlock {block : Nat} {t : Task δ σ ν ρ κ} (h : t ∈ m.tasks)
    (hs : m.leaving block t ≠ t) : (m.dropBlock block).CanRun t.id := by
  have hin : t.isIn block = true := by
    by_contra hin
    exact hs (leaving_of_not_isIn block m (Bool.eq_false_iff.mpr hin))
  have hrace : m.isRace block = true := by
    by_contra hrace
    exact hs (if_neg hrace)
  unfold isRace at hrace
  unfold dropBlock
  split at hrace
  · rename_i hf
    rw [hf]
    exact canRun_wakeAll (fun id => id)
      (List.mem_map_of_mem (f := Task.id) (List.mem_filter.mpr ⟨h, hin⟩)) _
  · cases hrace

/-- An operation that is started has a turn before it. -/
theorem canRun_spawnAll {block : Nat} {operations : List (Nat × Process δ σ ν ρ κ)}
    {t : Task δ σ ν ρ κ} (h : t ∈ spawned block m.serial operations) :
    (m.spawnAll block operations).CanRun t.id := by
  induction operations generalizing m with
  | nil => cases h
  | cons op rest ih =>
    obtain rfl | h := List.mem_cons.mp h
    · exact rouses_spawnAll block rest (m.spawn block op.1 op.2) _
        (.inl (List.mem_append_right _ List.mem_cons_self))
    · exact ih (m := m.spawn block op.1 op.2) h

end Machine

/-- Whoever waits for no time waits for a block. -/
theorem Waiting.exists_block :
    (w : Waiting δ σ ν ρ κ) → w.alarms = [] → ∃ block, block ∈ w.blocks
  | blocked block _ _, _ => ⟨block, List.mem_cons_self⟩

/-- Whether a task is another than the one that has its turn. -/
def Stage.isOther (s : Stage δ σ ν ρ κ) (t : Task δ σ ν ρ κ) : Bool :=
  s.task?.all fun task => t.id ≠ task.id

namespace Machine

/-- **Tasks that have not begun or have been stopped can run**, the one apart that has its turn. -/
def Prompt (m : Machine δ σ ν ρ κ) (s : Stage δ σ ν ρ κ) : Prop :=
  ∀ t ∈ m.tasks, s.isOther t = true → t.state.isWaiting = false → m.CanRun t.id

variable {m : Machine δ σ ν ρ κ} {s : Stage δ σ ν ρ κ}

theorem Prompt.dropBlock (h : m.Prompt s) (block : Nat) : (m.dropBlock block).Prompt s := by
  intro t hm ho hw
  rw [(m.dropBlock_eq block).1] at hm
  obtain ⟨t', hm', rfl⟩ := List.mem_map.mp hm
  rw [id_leaving]
  by_cases hs : m.leaving block t' = t'
  · rw [hs] at ho hw
    exact rouses_dropBlock block m _ (h t' hm' ho hw)
  · exact canRun_dropBlock hm' hs

theorem Prompt.drop (h : m.Prompt s) (w : Waiting δ σ ν ρ κ) : (m.drop w).Prompt s := by
  obtain ⟨hd, -⟩ | ⟨block, -, hd, -⟩ := m.drop_eq w
  · rw [hd]
    exact h
  · rw [hd]
    exact h.dropBlock block

theorem Prompt.spawnAll (h : m.Prompt s) (block : Nat)
    (operations : List (Nat × Process δ σ ν ρ κ)) : (m.spawnAll block operations).Prompt s := by
  intro t hm ho hw
  rw [(spawnAll_eq block operations m).1] at hm
  obtain hm | hm := List.mem_append.mp hm
  · exact rouses_spawnAll block operations m _ (h t hm ho hw)
  · exact canRun_spawnAll hm

theorem Prompt.finish {task : Task δ σ ν ρ κ} {p : Process δ σ ν ρ κ}
    {limits : List (Limit δ σ ν ρ κ)} (h : m.Prompt (.going task p limits))
    (hn : (m.blocks.map Block.id).Nodup) (e : Settlement ρ κ) :
    (m.finish task e).2.Prompt .idle := by
  intro t hm _ hw
  rw [(finish_eq hn task e).1] at hm
  obtain ⟨hm, hid⟩ := List.mem_filter.mp hm
  exact rouses_finish _ _ _ _ (h t hm hid hw)

theorem Prompt.moveClock {m' : Machine δ σ ν ρ κ} (h : m.Prompt .idle)
    (hc : m.moveClock = some m') : m'.Prompt .idle := by
  have hr := Reordered.of_moveClock hc
  exact fun t hm _ hw => rouses_moveClock hc _ (h t (hr.tasks ▸ hm) rfl hw)

end Machine

namespace Moment

variable [Deeds δ σ] {P : Process δ σ ν ρ κ → Prop} {a b : Moment δ σ ν ρ κ}

/-- **Within a turn, whoever has to begin or to be forgotten can run.** -/
theorem Next.prompt (h : Next P a b) (hs : a.stage ≠ .idle) (ho : a.Orderly)
    (ha : a.machine.Prompt a.stage) : b.machine.Prompt b.stage := by
  cases h with
  | begin | reorder | forget | forgetWaiting => exact absurd rfl hs
  | move h =>
    cases h with
    | first | wake => exact absurd rfl hs
    | _ => exact ha
  | act | sleep => exact ha
  | @opens m past task node here next state start =>
    have hopen : Machine.Prompt { m with
        serial := m.serial + 1
        blocks := ⟨m.serial, task.id, state⟩ :: m.blocks } _ := ha
    exact hopen.spawnAll m.serial start
  | @attend m past task block here next limits m' h =>
    obtain ⟨rfl, -⟩ | ⟨owner, g, -, rfl, -⟩ := Machine.of_attend_none h
    · exact ha
    · have hput : (m.putBlock ⟨block, owner, .gathering g.launch.2⟩).Prompt _ := ha
      exact hput.spawnAll block g.launch.1
  | @yield m past task block here next limits s m' h =>
    obtain ⟨rfl, -⟩ := Machine.of_attend_some h
    exact ha.dropBlock block
  | @keep m past task w limits l h =>
    cases l with
    | set | running => exact ha
  | @timeOut m past task w => exact ha.drop w
  | @pause m past task w =>
    intro t hm _ hw
    obtain ⟨t', hm', rfl⟩ := List.mem_map.mp hm
    split at hw
    · cases hw
    · rename_i hid
      dsimp only
      rw [if_neg hid]
      exact ha t' hm' (decide_eq_true hid) hw
  | finish | crash => exact ha.finish ho.numbered.blocks.nodup _

theorem InTurn.orderly (h : InTurn P a b) (ho : a.Orderly) : b.Orderly := by
  induction h with
  | refl => exact ho
  | tail _ h ih => exact h.2.orderly ih

theorem InTurn.prompt (h : InTurn P a b) (ho : a.Orderly) (ha : a.machine.Prompt a.stage) :
    b.machine.Prompt b.stage := by
  induction h with
  | refl => exact ha
  | tail hab h ih => exact h.2.prompt h.1 (InTurn.orderly hab ho) ih

/-- **The turn of a task**, by what there is of the task. -/
inductive Turns (P : Process δ σ ν ρ κ → Prop) (id : Nat) (m : Machine δ σ ν ρ κ)
    (past : List (Event δ σ ν ρ κ)) : Option (Settlement ρ κ) × Machine δ σ ν ρ κ → Prop
  | nobody (h : ∀ t ∈ m.tasks, t.id ≠ id) : Turns P id m past (none, m)
  /-- The task has been stopped. -/
  | forgets {t m'} (ht : t ∈ m.tasks) (hid : t.id = id) (hc : t.state.isCancelled = true)
    (hm : m' = m.removeTask id
      ∨ ∃ w, t.state.waiting? = some w ∧ m' = (m.removeTask id).drop w) :
    Turns P id m past (none, m')
  /-- The task goes on as far as it can. -/
  | goes {task s p m' past'} (hid : task.id = id) (hs : s.task? = some task)
    (hb : Stage.Moves m .idle s) (h : InTurn P ⟨s, m, past⟩ ⟨p.stage task [], m', past'⟩) :
    Turns P id m past (Machine.conclude task (p, m'))

theorem turns (P : Process δ σ ν ρ κ → Prop) (id : Nat) (m : Machine δ σ ν ρ κ)
    (past : List (Event δ σ ν ρ κ)) : Turns P id m past (m.turn id) := by
  unfold Machine.turn
  split
  · rename_i hf
    refine .nobody fun t ht hid => ?_
    exact List.find?_eq_none.mp hf t ht (beq_iff_eq.mpr hid)
  · rename_i task hf
    have hid := List.find?_some hf
    have hid : task.id = id := beq_iff_eq.mp hid
    subst hid
    split
    · rename_i p hs
      obtain ⟨past', h⟩ := goes_advance (P := P) task p [] m past
      exact .goes rfl rfl (.first hf hs) h
    · rename_i w hs
      obtain ⟨past', h⟩ := goes_resume (P := P) task w [] m past
      exact .goes rfl rfl (.wake hf hs) h
    · rename_i before hs
      have ht := List.mem_of_find?_eq_some hf
      have hc : task.state.isCancelled = true := by rw [hs]; rfl
      split
      · rename_i w hw
        exact .forgets ht rfl hc (.inr ⟨w, by rw [hs]; exact hw, rfl⟩)
      · exact .forgets ht rfl hc (.inl rfl)

/-- Only the last step of a turn tells of the end of a task. -/
theorem Next.idle_of_ended (h : Next P a b) {id : Nat} {e : Settlement ρ κ}
    (he : b.past = a.past ++ [.ended id e]) : b.stage = .idle := by
  cases h with
  | begin | reorder | forget | forgetWaiting | pause | finish | crash => rfl
  | move | sleep | keep => cases List.self_eq_append_right.mp he
  | act | yield | timeOut | opens => cases (List.append_cancel_left he)
  | @attend m past task block =>
    have hm : Event.ended id e ∈ m.launches block := by
      rw [List.append_cancel_left he]
      exact List.mem_cons_self
    exact absurd rfl (Machine.forall_mem_launches (Q := fun x => x ≠ .ended id e) nofun _ hm)

/-- **The main task is there until the end of its turn.** -/
theorem InTurn.hasMain (h : InTurn P a b) (ho : a.Orderly) (hb : b.stage ≠ .idle)
    (ha : a.machine.HasMain) : b.machine.HasMain := by
  induction h with
  | refl => exact ha
  | tail hab h ih =>
    obtain hmain | ⟨e, he⟩ := h.2.hasMain (InTurn.orderly hab ho) (ih h.1)
    · exact hmain
    · exact absurd (h.2.idle_of_ended he) hb

end Moment

/-! ## Between two turns -/

namespace Machine

variable [Deeds δ σ] {P : Process δ σ ν ρ κ → Prop} {w : σ} {m m₁ : Machine δ σ ν ρ κ}

/-- A machine between two turns, at which nobody is forgotten who can go on. -/
structure Tended (P : Process δ σ ν ρ κ → Prop) (w : σ) (m : Machine δ σ ν ρ κ) : Prop where
  cared : ∃ past, Moment.Cared P w ⟨.idle, m, past⟩
  prompt : m.Prompt .idle

theorem tended_ofWorld (P : Process δ σ ν ρ κ → Prop) (w : σ) : (ofWorld w).Tended P w :=
  ⟨⟨[], .refl, nofun⟩, nofun⟩

theorem Tended.turn (h : m.Tended P w) {id : Nat} (hn : m.next? = some (id, m₁)) :
    (m₁.turn id).2.Tended P w := by
  obtain ⟨past, hc⟩ := h.cared
  refine ⟨hc.turn hn, ?_⟩
  have hr := Reordered.of_next? hn
  have ho : Moment.Orderly ⟨.idle, m₁, past⟩ :=
    Moment.Later.orderly (hc.later.tail (.reorder hr))
  have hothers : ∀ t ∈ m₁.tasks, t.id ≠ id → t.state.isWaiting = false → m₁.CanRun t.id :=
    fun t hm hne hw => canRun_of_next? hn (h.prompt t (hr.tasks ▸ hm) rfl hw) hne
  have hturns := Moment.turns P id m₁ past
  generalize m₁.turn id = x at hturns
  cases hturns with
  | nobody hnone => exact fun t hm _ => hothers t hm (hnone t hm)
  | forgets _ _ _ hm' =>
    have hrest : (m₁.removeTask id).Prompt .idle := fun t hm _ => by
      obtain ⟨hm, hne⟩ := List.mem_filter.mp hm
      exact hothers t hm (of_decide_eq_true hne)
    obtain rfl | ⟨v, -, rfl⟩ := hm'
    · exact hrest
    · exact hrest.drop v
  | @goes task s p m' past' hid hs hb hgoes =>
    have hbegun : m₁.Prompt s := fun t hm hother => by
      unfold Stage.isOther at hother
      rw [hs] at hother
      exact hothers t hm (hid ▸ of_decide_eq_true hother)
    obtain ⟨past₂, hend, -⟩ := Moment.inTurn_conclude (P := P) task p m' past'
    have hbegins : Moment.Orderly ⟨s, m₁, past⟩ := Moment.Next.orderly (P := P) (.move hb) ho
    exact Moment.InTurn.prompt (hgoes.trans hend) hbegins hbegun

theorem Tended.moveClock (h : m.Tended P w) (hc : m.moveClock = some m₁) : m₁.Tended P w := by
  obtain ⟨past, hcared⟩ := h.cared
  exact ⟨⟨past, hcared.moveClock hc⟩, h.prompt.moveClock hc⟩

theorem Tended.runTurns (h : m.Tended P w) (turns : Nat) : (m.runTurns turns).2.Tended P w := by
  induction turns generalizing m with
  | zero => exact h
  | succ turns ih =>
    unfold Machine.runTurns
    split
    · rename_i id m₁ hn
      have ht := h.turn hn
      split
      · rename_i hx
        rw [hx] at ht
        exact ht
      · rename_i hx
        rw [hx] at ht
        exact ht
      · rename_i hx
        rw [hx] at ht
        exact ih ht
    · split
      · rename_i hc
        exact ih (h.moveClock hc)
      · exact h

theorem Tended.begin (h : m.Tended P w) {p : Process δ σ ν ρ κ} (hp : P p)
    (hm : ∀ t ∈ m.tasks, t.id ≠ mainId) : (m.begin p).Tended P w := by
  obtain ⟨past, hc⟩ := h.cared
  refine ⟨⟨past, hc.begin hp hm⟩, fun t ht _ hw => ?_⟩
  obtain rfl | ht := List.mem_cons.mp ht
  · exact .inl List.mem_cons_self
  · obtain hready | ⟨hmain, -⟩ := h.prompt t ht rfl hw
    · exact .inl (List.mem_cons_of_mem _ hready)
    · exact absurd hmain (hm t ht)

omit [Deeds δ σ] in
/-- The main task answers when it ends. -/
theorem finish_of_main {s : Stage δ σ ν ρ κ} {past : List (Event δ σ ν ρ κ)}
    (ho : Moment.Orderly ⟨s, m, past⟩) {task : Task δ σ ν ρ κ} (hs : s.task? = some task)
    (hmain : task.id = mainId) (e : Settlement ρ κ) : (m.finish task e).1 = some e := by
  obtain ⟨t, hm, hid, hp, -⟩ := ho.seated.alive task hs
  unfold finish
  cases hparent : task.parent with
  | none => rfl
  | some place =>
    have hlt := ho.numbered.parent t hm place.1 place.2 (hp.trans hparent)
    exact absurd (hid.trans hmain) (Nat.ne_of_gt (Nat.zero_lt_of_lt hlt))

theorem HasMain.conclude (h : m.HasMain) {task : Task δ σ ν ρ κ} {p : Progress δ σ ν ρ κ}
    {past : List (Event δ σ ν ρ κ)} (ho : Moment.Orderly ⟨p.stage task [], m, past⟩)
    (hc : (Machine.conclude task (p, m)).1 = none) :
    (Machine.conclude task (p, m)).2.HasMain := by
  -- the end of another task is not that of the main task
  have hended : ∀ e e' : Settlement ρ κ, (m.finish task e).1 = none →
      past ++ [.ended task.id e] ≠ past ++ [.ended mainId e'] := fun e e' hnone he => by
    have hid := (Event.ended.inj (List.singleton_inj.mp (List.append_cancel_left he))).1
    have hstage : (p.stage task []).task? = some task := by cases p <;> rfl
    cases (finish_of_main ho hstage hid e).symm.trans hnone
  cases p with
  | done r =>
    obtain hmain | ⟨e, he⟩ := (Moment.Next.finish (P := fun _ => True)).hasMain ho h
    · exact hmain
    · exact absurd he (hended _ _ hc)
  | crashed a =>
    obtain hmain | ⟨e, he⟩ := (Moment.Next.crash (P := fun _ => True)).hasMain ho h
    · exact hmain
    · exact absurd he (hended _ _ hc)
  | waiting v =>
    obtain hmain | ⟨e, he⟩ := (Moment.Next.pause (P := fun _ => True)).hasMain ho h
    · exact hmain
    · cases List.self_eq_append_right.mp he

/-- **The main task stays** when it has not come to its end. -/
theorem HasMain.turn (h : m.HasMain) {past : List (Event δ σ ν ρ κ)}
    (ho : Moment.Orderly ⟨.idle, m, past⟩) {id : Nat} (ht : m.turn id = (none, m₁)) :
    m₁.HasMain := by
  have hturns := Moment.turns (fun _ => True) id m past
  generalize hx : m.turn id = x at hturns
  cases hturns with
  | nobody =>
    cases hx.symm.trans ht
    exact h
  | @forgets t m' hm hid hc hm' =>
    cases hx.symm.trans ht
    subst hid
    obtain ⟨main, hmain, halive⟩ := h
    have hrest := halive.removeTask ho.numbered hm hc
    obtain rfl | ⟨v, hv, rfl⟩ := hm'
    · exact ⟨main, hmain, hrest⟩
    · have hn := (Change.forgets hm hc).numbered ho.numbered
      refine ⟨main, hmain, hrest.drop hn fun block hb => ?_⟩
      rw [hmain]
      exact Nat.zero_lt_of_lt (ho.seated.tasks t hm v hv block hb)
  | @goes task s p m' past' hid hs hb hgoes =>
    have hbegun : Moment.Orderly ⟨s, m, past⟩ :=
      Moment.Next.orderly (P := fun _ => True) (.move hb) ho
    have hmid := Moment.InTurn.hasMain hgoes hbegun (by cases p <;> nofun) h
    have hkeeps := HasMain.conclude hmid (Moment.InTurn.orderly hgoes hbegun) (by rw [← hx, ht])
    rwa [← hx, ht] at hkeeps

omit [Deeds δ σ] in
theorem not_canRun_of_next? (h : m.next? = none) (id : Nat) : ¬ m.CanRun id := by
  unfold next? at h
  split at h
  · cases h
  · rename_i hready
    split at h
    · cases h
    · rename_i hmain
      rintro (hid | ⟨-, hid⟩)
      · rw [hready] at hid
        cases hid
      · exact hmain hid

omit [Deeds δ σ] in
/-- The clock stands still only if nobody waits for a time. -/
theorem alarms_of_moveClock (h : m.moveClock = none) {t : Task δ σ ν ρ κ} (ht : t ∈ m.tasks)
    {v : Waiting δ σ ν ρ κ} (hv : t.state = .waiting v) : v.alarms = [] := by
  unfold moveClock at h
  dsimp only at h
  split at h
  · rename_i hmin
    have hnone := List.map_eq_nil_iff.mp (List.min?_eq_none_iff.mp hmin)
    refine List.eq_nil_iff_forall_not_mem.mpr fun a ha => ?_
    refine List.eq_nil_iff_forall_not_mem.mp hnone (a, t.id) ?_
    refine List.mem_flatMap.mpr ⟨t, ht, ?_⟩
    rw [hv]
    exact List.mem_map_of_mem ha
  · split at h <;> cases h

/-- **A machine with a main task can go on**: a task can run, or the clock can be moved. -/
theorem Tended.exists_moveClock (h : m.Tended P w) (hmain : m.HasMain) (hn : m.next? = none) :
    ∃ m₁, m.moveClock = some m₁ := by
  by_contra hclock
  have hclock : m.moveClock = none :=
    Option.eq_none_iff_forall_ne_some.mpr fun m₁ h => hclock ⟨m₁, h⟩
  obtain ⟨past, hc⟩ := h.cared
  have ho := Moment.Later.orderly hc.later
  -- whoever is there waits for an operation, which is there as well
  have hgreater : ∀ t ∈ m.tasks, ∃ t' ∈ m.tasks, t.id < t'.id := by
    intro t ht
    have hstill := not_canRun_of_next? hn t.id
    cases hs : t.state with
    | fresh | cancelled => exact absurd (h.prompt t ht rfl (by rw [hs]; rfl)) hstill
    | waiting v =>
      have hv : t.state.waiting? = some v := by rw [hs]; rfl
      obtain ⟨block, hb⟩ := v.exists_block (alarms_of_moveClock hclock ht hs)
      obtain ⟨t', ht', hin⟩ : ∃ t' ∈ m.tasks, t'.isIn block = true := by
        by_contra hno
        refine hstill (hc.canRun ht hv hb ?_)
        rw [count, List.length_eq_zero_iff, List.filter_eq_nil_iff]
        exact fun t' ht' hin => hno ⟨t', ht', hin⟩
      obtain ⟨i, hi⟩ := Task.isIn_iff.mp hin
      exact ⟨t', ht', Nat.lt_trans (ho.seated.tasks t ht v hv block hb)
        (ho.numbered.parent t' ht' block i hi)⟩
  have hunbounded : ∀ n, ∃ t ∈ m.tasks, n ≤ t.id := by
    intro n
    induction n with
    | zero =>
      obtain ⟨main, -, t, ht, -⟩ := hmain
      exact ⟨t, ht, Nat.zero_le _⟩
    | succ n ih =>
      obtain ⟨t, ht, hle⟩ := ih
      obtain ⟨t', ht', hlt⟩ := hgreater t ht
      exact ⟨t', ht', Nat.succ_le_of_lt (Nat.lt_of_le_of_lt hle hlt)⟩
  obtain ⟨t, ht, hle⟩ := hunbounded m.serial
  exact Nat.not_lt_of_le hle (ho.numbered.task_lt ht)

end Machine

end Playbook
