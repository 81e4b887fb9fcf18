import Playbook.Proofs.Process.Trace

/-!
# What becomes of blocks

A block that has been opened is waited for, or it has yielded, or the task that
waited for it was cut off: by a time limit, or with the race that the task is an
operation of (`Moment.Fated`). So if a task inside of a block is still running
when the block has yielded, some task between the two was cut off
(`Moment.Orderly.cancelled_of_yielded`), and only then can anything still be done
inside of the block (`Moment.Later.did_of_yielded`).

A task is inside of a block if it is an operation of the block, or of a block that
a task inside has opened (`Event.Inside`).
-/

namespace Playbook

variable {δ σ ν ρ κ : Type}

/-! ## Inside of a block -/

namespace Event

/-- A block and the blocks that are nested in it, at any depth. -/
inductive Within (past : List (Event δ σ ν ρ κ)) (block : Nat) : Nat → Prop
  | self : Within past block block
  | nested {c i t p d n} (hc : Within past block c) (hs : .started c i t p ∈ past)
    (ho : .opened t d n ∈ past) : Within past block d

/-- **A task is inside of a block**, as an operation of the block or of one that is
nested in it. -/
def Inside (past : List (Event δ σ ν ρ κ)) (block task : Nat) : Prop :=
  ∃ c i p, Within past block c ∧ .started c i task p ∈ past

/-- **A task was cut off while it waited for a block**, by a time limit or with its
race. -/
def CutOff (past : List (Event δ σ ν ρ κ)) (task block : Nat) : Prop :=
  ∃ w : Waiting δ σ ν ρ κ, block ∈ w.blocks
    ∧ (.timedOut task w ∈ past ∨ .stopped task (some w) ∈ past)

variable {past past' : List (Event δ σ ν ρ κ)} {block task : Nat}

theorem Within.mono (hp : past ⊆ past') {c : Nat} (h : Within past block c) :
    Within past' block c := by
  induction h with
  | self => exact .self
  | nested _ hs ho ih => exact .nested ih (hp hs) (hp ho)

theorem Inside.mono (hp : past ⊆ past') (h : Inside past block task) :
    Inside past' block task := by
  obtain ⟨c, i, p, hc, hs⟩ := h
  exact ⟨c, i, p, hc.mono hp, hp hs⟩

theorem CutOff.mono (hp : past ⊆ past') (h : CutOff past task block) :
    CutOff past' task block := by
  obtain ⟨w, hw, h⟩ := h
  exact ⟨w, hw, h.imp (fun h => hp h) fun h => hp h⟩

end Event

open Machine (Task Block)

/-! ## Who waits for a block -/

namespace Moment

/-- A task waits for a block: the one that has its turn, or another. -/
inductive Awaits (b : Moment δ σ ν ρ κ) : Nat → Nat → Prop
  | turn {task block} (ht : b.stage.task? = some task) (hb : block ∈ b.stage.blocks) :
    Awaits b task.id block
  | rest {t w block} (ht : t ∈ b.machine.tasks) (hn : ∀ task ∈ b.stage.task?, task.id ≠ t.id)
    (hw : t.state.waiting? = some w) (hb : block ∈ w.blocks) : Awaits b t.id block

/-- What can have become of a block. -/
def Fate (b : Moment δ σ ν ρ κ) (task block : Nat) : Prop :=
  b.Awaits task block ∨ (∃ u r, .yielded u block r ∈ b.past) ∨ Event.CutOff b.past task block

end Moment

/-- Whoever was stopped while it waited is told of in the past. -/
def Machine.Noted (m : Machine δ σ ν ρ κ) (past : List (Event δ σ ν ρ κ)) : Prop :=
  ∀ t ∈ m.tasks, t.state.isCancelled = true → ∀ w ∈ t.state.waiting?,
    .stopped t.id (some w) ∈ past

namespace Machine.Noted

variable {m m' : Machine δ σ ν ρ κ} {past : List (Event δ σ ν ρ κ)}

theorem subset (h : m.Noted past) (ht : m'.tasks ⊆ m.tasks) (es : List (Event δ σ ν ρ κ)) :
    m'.Noted (past ++ es) :=
  fun t hm hc w hw => List.mem_append_left es (h t (ht hm) hc w hw)

theorem spawned (h : m.Noted past) {block task : Nat}
    {start : List (Nat × Process δ σ ν ρ κ)}
    (ht : m'.tasks = m.tasks ++ Machine.spawned block task start)
    (es : List (Event δ σ ν ρ κ)) : m'.Noted (past ++ es) := by
  intro t hm hc w hw
  obtain hm | hm := List.mem_append.mp (ht ▸ hm)
  · exact List.mem_append_left es (h t hm hc w hw)
  · obtain ⟨-, -, op, -, -, hs, -⟩ := Machine.of_mem_spawned hm
    rw [hs] at hc
    cases hc

/-- The operations of a race are stopped, and the past tells of it. -/
theorem dropBlock (h : m.Noted past) (block : Nat) {es : List (Event δ σ ν ρ κ)}
    (he : m.stops block ⊆ es) : (m.dropBlock block).Noted (past ++ es) := by
  intro t hm hc w hw
  rw [(m.dropBlock_eq block).1] at hm
  obtain ⟨t', hm', rfl⟩ := List.mem_map.mp hm
  rw [Machine.waiting?_leaving] at hw
  rw [Machine.id_leaving]
  by_cases hstop : m.isRace block = true ∧ t'.isIn block = true
  · refine List.mem_append_right past (he ?_)
    rw [m.stops_eq block, if_pos hstop.1]
    exact List.mem_map.mpr ⟨t', List.mem_filter.mpr ⟨hm', hstop.2⟩, by rw [hw]⟩
  · have hsame : m.leaving block t' = t' := by
      unfold Machine.leaving Machine.Task.stopIn
      split
      · rename_i hr
        exact if_neg fun hin => hstop ⟨hr, hin⟩
      · rfl
    rw [hsame] at hc
    exact List.mem_append_left es (h t' hm' hc w hw)

/-- The same where a waiting process is dropped. -/
theorem drop (h : m.Noted past) (w : Waiting δ σ ν ρ κ) {es : List (Event δ σ ν ρ κ)}
    (he : m.drops w ⊆ es) : (m.drop w).Noted (past ++ es) := by
  obtain ⟨hd, -⟩ | ⟨block, -, hd, hs⟩ := m.drop_eq w
  · rw [hd]
    exact h.subset (List.Subset.refl _) es
  · rw [hd]
    exact h.dropBlock block (hs ▸ he)

end Machine.Noted

namespace Moment

/-- **What has become of every block that was opened**, and of every task that was
stopped. -/
structure Fated (b : Moment δ σ ν ρ κ) : Prop where
  fate : ∀ u c n, .opened u c n ∈ b.past → b.Fate u c
  noted : b.machine.Noted b.past

theorem fated_ofWorld (w : σ) : (⟨.idle, .ofWorld w, []⟩ : Moment δ σ ν ρ κ).Fated :=
  ⟨nofun, nofun⟩

section

variable {a b : Moment δ σ ν ρ κ}

theorem Fate.of_later {task block : Nat} (h : a.Fate task block) (hp : a.past ⊆ b.past)
    (hw : a.Awaits task block → b.Fate task block) : b.Fate task block := by
  obtain h | ⟨u, r, h⟩ | h := h
  · exact hw h
  · exact .inr (.inl ⟨u, r, hp h⟩)
  · exact .inr (.inr (h.mono hp))

/-- Who waits besides the task that has its turn goes on waiting where tasks are
only added or stopped. -/
theorem Awaits.of_dropBlock {s s' : Stage δ σ ν ρ κ} {m : Machine δ σ ν ρ κ} {block : Nat}
    {past' : List (Event δ σ ν ρ κ)} (hs : s'.task? = s.task?) {t : Task δ σ ν ρ κ}
    {w : Waiting δ σ ν ρ κ} {d : Nat} (ht : t ∈ m.tasks)
    (hn : ∀ task ∈ s.task?, task.id ≠ t.id) (hw : t.state.waiting? = some w)
    (hd : d ∈ w.blocks) : Awaits ⟨s', m.dropBlock block, past'⟩ t.id d := by
  rw [← Machine.id_leaving block m t]
  refine .rest (w := w) ?_ (fun task htask => ?_) ?_ hd
  · rw [(m.dropBlock_eq block).1]
    exact List.mem_map_of_mem ht
  · rw [Machine.id_leaving]
    exact hn task (hs ▸ htask)
  · rw [Machine.waiting?_leaving]
    exact hw

theorem Awaits.of_drop {s s' : Stage δ σ ν ρ κ} {m : Machine δ σ ν ρ κ}
    {v : Waiting δ σ ν ρ κ} {past' : List (Event δ σ ν ρ κ)} (hs : s'.task? = s.task?)
    {t : Task δ σ ν ρ κ} {w : Waiting δ σ ν ρ κ} {d : Nat} (ht : t ∈ m.tasks)
    (hn : ∀ task ∈ s.task?, task.id ≠ t.id) (hw : t.state.waiting? = some w)
    (hd : d ∈ w.blocks) : Awaits ⟨s', m.drop v, past'⟩ t.id d := by
  obtain ⟨hdrop, -⟩ | ⟨block, -, hdrop, -⟩ := m.drop_eq v
  · rw [hdrop]
    exact .rest ht (hs ▸ hn) hw hd
  · rw [hdrop]
    exact .of_dropBlock hs ht hn hw hd

/-- A task ends, and the others go on waiting. -/
theorem Awaits.of_finish {m : Machine δ σ ν ρ κ} (hb : (m.blocks.map Block.id).Nodup)
    {task : Task δ σ ν ρ κ} {r : Settlement ρ κ} {past' : List (Event δ σ ν ρ κ)}
    {t : Task δ σ ν ρ κ} {w : Waiting δ σ ν ρ κ} {d : Nat} (ht : t ∈ m.tasks)
    (hn : task.id ≠ t.id) (hw : t.state.waiting? = some w) (hd : d ∈ w.blocks) :
    Awaits ⟨.idle, (m.finish task r).2, past'⟩ t.id d := by
  refine .rest ?_ nofun hw hd
  rw [(Machine.finish_eq hb task r).1]
  exact List.mem_filter.mpr ⟨ht, decide_eq_true fun hid => hn hid.symm⟩

/-- A task that comes further without touching the machine waits for the same
block. -/
theorem Awaits.move {s s' : Stage δ σ ν ρ κ} {m : Machine δ σ ν ρ κ}
    {past : List (Event δ σ ν ρ κ)} (h : Stage.Moves m s s')
    (hn : Story.Numbered ⟨m, past⟩) {t d : Nat} (ha : Awaits ⟨s, m, past⟩ t d) :
    Awaits ⟨s', m, past⟩ t d := by
  cases h with
  | @first task p ht hs =>
    cases ha with
    | turn ht' => cases ht'
    | @rest t w d hm _ hw hd =>
      refine .rest hm (fun task' htask hid => ?_) hw hd
      cases htask
      rw [hn.task_inj hm (List.mem_of_find?_eq_some ht) hid.symm, hs] at hw
      cases hw
  | @wake task w ht hs =>
    cases ha with
    | turn ht' => cases ht'
    | @rest t w' d hm _ hw hd =>
      by_cases hid : t.id = task.id
      · rw [hn.task_inj hm (List.mem_of_find?_eq_some ht) hid, hs] at hw
        cases hw
        rw [hid]
        exact .turn rfl hd
      · refine .rest hm (fun task' htask => ?_) hw hd
        cases htask
        exact fun h => hid h.symm
  | sleepZero | limit | gatherNothing | raceNothing | inTime | crashOut | awake =>
    cases ha with
    | turn _ hd => cases hd
    | rest hm hne hw hd => exact .rest hm hne hw hd
  | asleep | wakeLimited =>
    cases ha with
    | turn ht hd =>
      cases ht
      exact .turn rfl hd
    | rest hm hne hw hd => exact .rest hm hne hw hd

end

variable [Deeds δ σ] {P : Process δ σ ν ρ κ → Prop} {a b : Moment δ σ ν ρ κ}

theorem Next.noted (h : Next P a b) (ho : a.Orderly) (ha : a.machine.Noted a.past) :
    b.machine.Noted b.past := by
  cases h with
  | begin =>
    intro t ht
    obtain rfl | ht := List.mem_cons.mp ht
    · exact fun _ => nofun
    · exact ha t ht
  | reorder hr => exact fun t ht => ha t (hr.tasks ▸ ht)
  | move | sleep => exact ha
  | forget => exact fun t ht => ha t (List.mem_of_mem_filter ht)
  | @forgetWaiting m past task before w =>
    have hr : (m.removeTask task.id).Noted past := fun t hm => ha t (List.mem_of_mem_filter hm)
    exact hr.drop w (List.Subset.refl _)
  | act => exact ha.subset (List.Subset.refl _) _
  | @opens m past task node here next state start limits _ =>
    exact ha.spawned (m.openBlock_eq task.id state start).1 _
  | attend h =>
    obtain ⟨rfl, -⟩ | ⟨owner, g, -, rfl, -⟩ := Machine.of_attend_none h
    · exact ha.subset (List.Subset.refl _) _
    · exact ha.spawned (Machine.spawnAll_eq _ g.launch.1 (Machine.putBlock _ _)).1 _
  | @yield m past task block here next limits s m' h =>
    obtain ⟨rfl, -⟩ := Machine.of_attend_some h
    exact ha.dropBlock block fun e he => List.mem_cons_of_mem _ he
  | @keep m past task w limits l h =>
    cases l with
    | set => exact ha
    | running => exact ha
  | @timeOut m past task w limits l h =>
    exact ha.drop w fun e he => List.mem_cons_of_mem _ he
  | @pause m past task w =>
    intro t hm hc
    obtain ⟨t', hm', rfl⟩ := List.mem_map.mp hm
    by_cases hid : t'.id = task.id
    · rw [if_pos hid] at hc
      cases hc
    · rw [if_neg hid] at hc ⊢
      exact ha t' hm' hc
  | finish | crash =>
    exact ha.subset (Machine.tasks_finish_subset ho.numbered.blocks.nodup _ _) _

/-- **Whoever waits for a block** goes on waiting, unless the block yields or the
task is cut off. -/
theorem Next.awaits (h : Next P a b) (ho : a.Orderly) (ha : a.machine.Noted a.past)
    {u c : Nat} (hw : a.Awaits u c) : b.Fate u c := by
  have hn := ho.numbered
  cases h with
  | begin =>
    refine .inl ?_
    cases hw with
    | turn ht => cases ht
    | rest hm hne hw hd => exact .rest (List.mem_cons_of_mem _ hm) hne hw hd
  | reorder hr =>
    refine .inl ?_
    cases hw with
    | turn ht => cases ht
    | rest hm hne hw hd => exact .rest (hr.tasks.symm ▸ hm) hne hw hd
  | move h => exact .inl (hw.move h hn)
  | forget ht hs hnone =>
    refine .inl ?_
    cases hw with
    | turn ht => cases ht
    | rest hm hne hw hd =>
      refine .rest (List.mem_filter.mpr ⟨hm, decide_eq_true fun hid => ?_⟩) hne hw hd
      rw [hn.task_inj hm (List.mem_of_find?_eq_some ht) hid, hs] at hw
      exact nomatch hnone.symm.trans hw
  | @forgetWaiting m past task before w ht hs hsome =>
    have htask := List.mem_of_find?_eq_some ht
    cases hw with
    | turn ht => cases ht
    | @rest t w' _ hm hne hw hd =>
      by_cases hid : t.id = task.id
      · -- the task was stopped before, while it waited
        have hstopped := ha task htask (by rw [hs]; rfl) w (by rw [hs]; exact hsome)
        rw [hn.task_inj hm htask hid, hs] at hw
        cases hsome.symm.trans hw
        rw [hid]
        exact .inr (.inr ⟨w, hd, .inr (List.mem_append_left _ hstopped)⟩)
      · have hm' : t ∈ (m.removeTask task.id).tasks :=
          List.mem_filter.mpr ⟨hm, decide_eq_true hid⟩
        exact .inl (.of_drop rfl hm' hne hw hd)
  | act | sleep =>
    cases hw with
    | turn _ hd => cases hd
    | rest hm hne hw hd => exact .inl (.rest hm hne hw hd)
  | @opens m past task node here next state start limits _ =>
    cases hw with
    | turn _ hd => cases hd
    | rest hm hne hw hd =>
      refine .inl (.rest ?_ hne hw hd)
      rw [(m.openBlock_eq task.id state start).1]
      exact List.mem_append_left _ hm
  | attend h =>
    cases hw with
    | turn ht hd =>
      cases ht
      exact .inl (.turn rfl hd)
    | rest hm hne hw hd =>
      refine .inl (.rest ?_ hne hw hd)
      obtain ⟨rfl, -⟩ | ⟨owner, g, -, rfl, -⟩ := Machine.of_attend_none h
      · exact hm
      · rw [(Machine.spawnAll_eq _ g.launch.1 (Machine.putBlock _ _)).1]
        exact List.mem_append_left _ hm
  | @yield m past task block here next limits s m' h =>
    obtain ⟨rfl, -⟩ := Machine.of_attend_some h
    cases hw with
    | turn _ hd =>
      rw [List.mem_singleton.mp hd]
      exact .inr (.inl ⟨_, _, List.mem_append_right _ List.mem_cons_self⟩)
    | rest hm hne hw hd => exact .inl (Awaits.of_dropBlock rfl hm hne hw hd)
  | @keep m past task w limits l h =>
    have ht : (l.resumeIn w m).2.tasks = m.tasks := by cases l <;> rfl
    have hb : (l.resumeIn w m).1.blocks = w.blocks := by cases l <;> rfl
    refine .inl ?_
    cases hw with
    | turn ht' hd =>
      cases ht'
      refine .turn rfl ?_
      show c ∈ (l.resumeIn w m).1.blocks
      rw [hb]
      exact hd
    | rest hm hne hw hd => exact .rest (ht.symm ▸ hm) hne hw hd
  | @timeOut m past task w limits l h =>
    cases hw with
    | turn ht hd =>
      cases ht
      exact .inr (.inr ⟨w, hd, .inl (List.mem_append_right _ List.mem_cons_self)⟩)
    | rest hm hne hw hd => exact .inl (.of_drop rfl hm hne hw hd)
  | @pause m past task w =>
    refine .inl ?_
    cases hw with
    | turn ht hd =>
      cases ht
      obtain ⟨t, hm, hid, -⟩ := ho.seated.alive task rfl
      rw [← hid]
      refine .rest (t := { t with state := .waiting w }) ?_ nofun rfl hd
      exact List.mem_map.mpr ⟨t, hm, if_pos rfl⟩
    | rest hm hne hw hd =>
      refine .rest (List.mem_map.mpr ⟨_, hm, if_neg fun hid => ?_⟩) nofun hw hd
      exact hne task rfl hid.symm
  | finish | crash =>
    cases hw with
    | turn _ hd => cases hd
    | rest hm hne hw hd => exact .inl (.of_finish hn.blocks.nodup hm (hne _ rfl) hw hd)

/-- A block that is opened is waited for. -/
theorem Next.opened (h : Next P a b) {u c : Nat} {n : Process δ σ ν ρ κ}
    (hm : .opened u c n ∈ b.past) : .opened u c n ∈ a.past ∨ b.Awaits u c := by
  obtain ⟨task, deed, next, limits, -, -, hp⟩ | ⟨-, es, hp, hes⟩ := h.told
  · rw [hp] at hm
    obtain hm | hm := List.mem_append.mp hm
    · exact .inl hm
    · cases List.mem_singleton.mp hm
  · rw [hp] at hm
    obtain hm | hm := List.mem_append.mp hm
    · exact .inl hm
    · obtain ⟨task, node, limits, block, here, next, -, -, hb, he⟩ := hes _ hm rfl
      cases he
      refine .inr (.turn ?_ ?_)
      · rw [hb]
        rfl
      · rw [hb]
        exact List.mem_cons_self

/-- **Every step keeps account of the blocks.** -/
theorem Next.fated (h : Next P a b) (ho : a.Orderly) (ha : a.Fated) : b.Fated := by
  refine ⟨fun u c n hm => ?_, h.noted ho ha.noted⟩
  obtain hm | hw := h.opened hm
  · exact (ha.fate u c n hm).of_later h.past_subset (h.awaits ho ha.noted)
  · exact .inl hw

theorem Later.fated {w : σ} (h : Later P ⟨.idle, .ofWorld w, []⟩ b) : b.Fated := by
  induction h with
  | refl => exact fated_ofWorld w
  | tail hl h ih => exact h.fated (Later.orderly hl) ih

end Moment

/-! ## Nothing goes on inside of a block that has yielded -/

namespace Moment.Orderly

variable {b : Moment δ σ ν ρ κ}

/-- A task is in the block that it was started in. -/
theorem isIn_of_started (h : b.Orderly) {c i : Nat} {p : Process δ σ ν ρ κ}
    {t : Task δ σ ν ρ κ} (ht : t ∈ b.machine.tasks) (hs : .started c i t.id p ∈ b.past) :
    t.isIn c = true := by
  have hparent : t.parent ≠ none := fun hnone =>
    h.numbered.ne_main hs (h.numbered.main t ht hnone)
  obtain ⟨⟨c', i'⟩, hp⟩ := Option.ne_none_iff_exists'.mp hparent
  obtain ⟨p', hs'⟩ := h.booked.task_started t ht c' i' hp
  obtain ⟨rfl, -⟩ := h.booked.started_inj c c' i i' t.id p p' hs hs'
  exact Task.isIn_iff.mpr ⟨i', hp⟩

/-- **Inside of a block that has yielded a task has been stopped**, or it is inside of
a nested block that a task was cut off from. The induction is on the nesting: a nested
block has yielded itself, or the task that waits for it has been stopped, and then it
was cut off. -/
theorem cancelled_of_yielded (h : b.Orderly) (hf : b.Fated) {u c : Nat}
    {r : Settled ρ κ} (hy : .yielded u c r ∈ b.past) {t : Task δ σ ν ρ κ}
    (ht : t ∈ b.machine.tasks) (hin : Event.Inside b.past c t.id) :
    t.state.isCancelled = true ∨ ∃ v d, Event.Inside b.past c v ∧ Event.CutOff b.past v d
      ∧ Event.Inside b.past d t.id := by
  have hover : ∀ e, Event.Within b.past c e → ∀ t ∈ b.machine.tasks, t.isIn e = true →
      t.state.isCancelled = true ∨ ∃ v d, Event.Inside b.past c v ∧ Event.CutOff b.past v d
        ∧ Event.Within b.past d e := by
    intro e he
    induction he with
    | self => exact fun t ht hin => .inl ((h.closed.isOver u c r hy).left t ht hin)
    | @nested d i v p e n hd hs ho ih =>
      have hv : Event.Inside b.past c v := ⟨d, i, p, hd, hs⟩
      have hcut : Event.CutOff b.past v e → ∀ t ∈ b.machine.tasks, t.isIn e = true →
          t.state.isCancelled = true ∨ ∃ v d, Event.Inside b.past c v
            ∧ Event.CutOff b.past v d ∧ Event.Within b.past d e :=
        fun hcut _ _ _ => .inr ⟨v, e, hv, hcut, .self⟩
      obtain hw | ⟨u', r', hy'⟩ | hoff := hf.fate v e n ho
      · cases hw with
        | turn ht =>
          -- the task that has its turn has not been stopped
          obtain ⟨t, hm, hid, -, hc⟩ := h.seated.alive _ ht
          obtain hc' | ⟨v', d', hv', hcut', hd'⟩ := ih t hm (h.isIn_of_started hm (hid ▸ hs))
          · rw [hc'] at hc
            cases hc
          · exact fun _ _ _ => .inr ⟨v', d', hv', hcut', .nested hd' hs ho⟩
        | rest hm _ hw hb =>
          obtain hc' | ⟨v', d', hv', hcut', hd'⟩ := ih _ hm (h.isIn_of_started hm hs)
          · exact hcut ⟨_, hb, .inr (hf.noted _ hm hc' _ hw)⟩
          · exact fun _ _ _ => .inr ⟨v', d', hv', hcut', .nested hd' hs ho⟩
      · exact fun t ht hin => .inl ((h.closed.isOver u' e r' hy').left t ht hin)
      · exact hcut hoff
  obtain ⟨e, i, p, he, hs⟩ := hin
  obtain hc | ⟨v, d, hv, hcut, hd⟩ := hover e he t ht (h.isIn_of_started ht hs)
  · exact .inl hc
  · exact .inr ⟨v, d, hv, hcut, e, i, p, hd, hs⟩

end Moment.Orderly

/-! ### What is told of later is younger -/

/-- A story goes on: what is told of new blocks and tasks has new numbers. -/
structure Story.Extends (s s' : Story δ σ ν ρ κ) : Prop where
  serial : s.machine.serial ≤ s'.machine.serial
  opened : ∀ u c n, .opened u c n ∈ s'.past → c < s.machine.serial → .opened u c n ∈ s.past
  started : ∀ c i t p, .started c i t p ∈ s'.past → t < s.machine.serial →
    .started c i t p ∈ s.past

namespace Story.Extends

variable {s s' s'' : Story δ σ ν ρ κ}

theorem refl (s : Story δ σ ν ρ κ) : s.Extends s :=
  ⟨Nat.le_refl _, fun _ _ _ h _ => h, fun _ _ _ _ h _ => h⟩

theorem trans (h : s.Extends s') (h' : s'.Extends s'') : s.Extends s'' :=
  ⟨Nat.le_trans h.serial h'.serial,
    fun u c n hm hlt => h.opened u c n
      (h'.opened u c n hm (Nat.lt_of_lt_of_le hlt h.serial)) hlt,
    fun c i t p hm hlt => h.started c i t p
      (h'.started c i t p hm (Nat.lt_of_lt_of_le hlt h.serial)) hlt⟩

/-- What is new gets new numbers. -/
theorem of_append {m m' : Machine δ σ ν ρ κ} {past es : List (Event δ σ ν ρ κ)}
    (hs : m.serial ≤ m'.serial) (ho : ∀ u c n, .opened u c n ∈ es → m.serial ≤ c)
    (ht : ∀ c i t p, .started c i t p ∈ es → m.serial ≤ t) :
    Story.Extends ⟨m, past⟩ ⟨m', past ++ es⟩ := by
  refine ⟨hs, fun u c n hm hlt => ?_, fun c i t p hm hlt => ?_⟩
  · obtain hm | hm := List.mem_append.mp hm
    · exact hm
    · exact absurd hlt (Nat.not_lt.mpr (ho u c n hm))
  · obtain hm | hm := List.mem_append.mp hm
    · exact hm
    · exact absurd hlt (Nat.not_lt.mpr (ht c i t p hm))

/-- Nothing new is told. -/
theorem of_not_isNew {m m' : Machine δ σ ν ρ κ} {past es : List (Event δ σ ν ρ κ)}
    (hs : m.serial ≤ m'.serial) (he : ∀ e ∈ es, e.isNew = false) :
    Story.Extends ⟨m, past⟩ ⟨m', past ++ es⟩ :=
  ⟨hs, fun _ _ _ hm _ => Event.mem_of_isNew he hm rfl,
    fun _ _ _ _ hm _ => Event.mem_of_isNew he hm rfl⟩

theorem of_change (h : Change s s') (hn : s.Numbered) : s.Extends s' := by
  cases h with
  | quiet _ _ hs he => exact .of_not_isNew hs fun e hm => Event.isNew_of_isQuiet (he e hm)
  | begin | pauses | forgets =>
    exact ⟨Nat.le_refl _, fun _ _ _ hm _ => hm, fun _ _ _ _ hm _ => hm⟩
  | @opens m past task node here next state start =>
    refine .of_append ?_ (fun u c n hm => ?_) fun c i t p hm => ?_
    · rw [(m.openBlock_eq task.id state start).2.2.1]
      omega
    · obtain hm | hm := List.mem_cons.mp hm
      · cases hm
        exact Nat.le_refl _
      · obtain ⟨_, -, _, he, -⟩ := Machine.of_mem_starts hm
        cases he
    · obtain hm | hm := List.mem_cons.mp hm
      · cases hm
      · obtain ⟨_, -, _, he, hle, -⟩ := Machine.of_mem_starts hm
        cases he
        exact Nat.le_of_succ_le hle
  | @launches m past block owner g =>
    refine .of_append ?_ (fun u c n hm => ?_) fun c i t p hm => ?_
    · rw [(Machine.spawnAll_eq block g.launch.1 (Machine.putBlock _ m)).2.2.1]
      exact Nat.le_add_right _ _
    · obtain ⟨_, -, _, he, -⟩ := Machine.of_mem_starts hm
      cases he
    · obtain ⟨_, -, _, he, hle, -⟩ := Machine.of_mem_starts hm
      cases he
      exact hle
  | @yields m past task b =>
    exact .of_not_isNew (Nat.le_of_eq (m.dropBlock_eq b.id).2.2.1.symm) Machine.isNew_of_yields
  | @drops m past es block he =>
    exact .of_not_isNew (Nat.le_of_eq (m.dropBlock_eq block).2.2.1.symm) fun e hm =>
      Event.isNew_of_isQuiet (Machine.isQuiet_of_drops he e hm)
  | @ends m past task s =>
    refine .of_not_isNew ?_ fun e hm => ?_
    · exact Nat.le_of_eq (Machine.finish_eq hn.blocks.nodup task s).2.2.1.symm
    · rw [List.mem_singleton.mp hm]
      rfl

/-- A block that is not younger is within another for as long as it has been
there. -/
theorem within (h : s.Extends s') (hn : s'.Numbered) {block c : Nat}
    (hc : Event.Within s'.past block c) (hlt : c < s.machine.serial) :
    Event.Within s.past block c := by
  induction hc with
  | self => exact .self
  | @nested c i t p d n _ hs ho ih =>
    have htask := (hn.opened t d n ho).1
    have hblock := (hn.started c i t p hs).1
    exact .nested (ih (by omega)) (h.started c i t p hs (by omega)) (h.opened t d n ho hlt)

theorem inside (h : s.Extends s') (hn : s'.Numbered) {block t : Nat}
    (ht : Event.Inside s'.past block t) (hlt : t < s.machine.serial) :
    Event.Inside s.past block t := by
  obtain ⟨c, i, p, hc, hs⟩ := ht
  have hblock := (hn.started c i t p hs).1
  exact ⟨c, i, p, h.within hn hc (by omega), h.started c i t p hs hlt⟩

end Story.Extends

namespace Moment

variable [Deeds δ σ] {P : Process δ σ ν ρ κ → Prop} {a b : Moment δ σ ν ρ κ}

theorem Next.extends (h : Next P a b) (ho : a.Orderly) : a.story.Extends b.story := by
  have hc := h.changes ho.seated
  generalize b.story = s at hc
  have hall : s.Numbered ∧ a.story.Extends s := by
    induction hc with
    | refl => exact ⟨ho.numbered, .refl _⟩
    | tail _ hc ih => exact ⟨hc.numbered ih.1, ih.2.trans (.of_change hc ih.1)⟩
  exact hall.2

theorem Later.extends (h : Later P a b) (ho : a.Orderly) :
    b.Orderly ∧ a.story.Extends b.story := by
  induction h with
  | refl => exact ⟨ho, .refl _⟩
  | tail _ h ih => exact ⟨h.orderly ih.1, ih.2.trans (h.extends ih.1)⟩

/-- What is done is done by the task that has its turn. -/
theorem Next.did (h : Next P a b) {es : List (Event δ σ ν ρ κ)} (hes : b.past = a.past ++ es)
    {t : Nat} {deed : δ} (hm : .did t deed ∈ es) :
    ∃ task, a.stage.task? = some task ∧ task.id = t := by
  obtain ⟨task, deed', next, limits, ha, -, hp⟩ | ⟨-, es', hp, hes'⟩ := h.told
  · rw [← List.append_cancel_left (hp.symm.trans hes)] at hm
    cases List.mem_singleton.mp hm
    exact ⟨task, by rw [ha]; rfl, rfl⟩
  · rw [← List.append_cancel_left (hp.symm.trans hes)] at hm
    obtain ⟨_, _, _, _, _, _, -, -, -, he⟩ := hes' _ hm rfl
    cases he

/-- **What is still done inside of a block that has yielded** is done inside of a
nested block that a task was cut off from while it waited for it. -/
theorem Later.did_of_yielded {w : σ} (h : Later P ⟨.idle, .ofWorld w, []⟩ a)
    (hab : Later P a b) {u c : Nat} {r : Settled ρ κ} (hy : .yielded u c r ∈ a.past)
    {es : List (Event δ σ ν ρ κ)} (hes : b.past = a.past ++ es) {t : Nat} {deed : δ}
    (hm : .did t deed ∈ es) (hin : Event.Inside b.past c t) :
    ∃ v d, Event.Inside b.past c v ∧ Event.CutOff b.past v d ∧ Event.Inside b.past d t := by
  obtain ⟨x, y, new, hax, hxy, hyb, hnew, hm⟩ := Later.exists_next_of_mem hab hes hm
  have hx := h.trans hax
  have ho := Later.orderly hx
  -- the task was there when the block had yielded
  obtain ⟨task, htask, rfl⟩ := hxy.did hnew hm
  obtain ⟨t', hm', hid, -, hc⟩ := ho.seated.alive task htask
  have hlt : task.id < x.machine.serial := hid ▸ ho.numbered.task_lt hm'
  have hxb : Later P x b := .head hxy hyb
  have hext := Later.extends hxb ho
  have hin' := hext.2.inside hext.1.numbered hin hlt
  have hsub := Later.past_subset hxb
  obtain hc' | ⟨v, d, hv, hcut, hd⟩ :=
    ho.cancelled_of_yielded (Later.fated hx) (Later.past_subset hax hy) hm' (hid ▸ hin')
  · rw [hc'] at hc
    cases hc
  · exact ⟨v, d, hv.mono hsub, hcut.mono hsub, hid ▸ hd.mono hsub⟩

end Moment

end Playbook
