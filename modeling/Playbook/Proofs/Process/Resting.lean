import Playbook.Proofs.Process.Watch

/-!
# Where tasks wait

A task that sleeps or waits for a block does so for many steps of the machine. It is woken and
looks, its time limits are kept, others have their turns, and it is still where it was
(`Moment.Rests`). What ends that is said once, for a step in `Moment.Next.rests` and for any
number of steps in `Moment.Later.rests`: the task goes on from there, when it has slept long
enough or the block has yielded, or it is cut off. Meanwhile it opens no blocks
(`Event.openedBy`).

So what a task does can be told as a course: where it waits, one place after the other, with the
times at which it goes on and the blocks that it opens on the way.
-/

namespace Playbook

variable {δ σ ν ρ κ : Type}

open Machine (Task)

/-- What a process waits for under its time limits. -/
def Waiting.core : Waiting δ σ ν ρ κ → Waiting δ σ ν ρ κ
  | timed _ body _ => body.core
  | asleep alarm here next => asleep alarm here next
  | blocked block here next => blocked block here next

theorem Limit.core_resumeIn (w : Waiting δ σ ν ρ κ) (m : Machine δ σ ν ρ κ)
    (l : Limit δ σ ν ρ κ) : (l.resumeIn w m).1.core = w.core := by
  cases l <;> rfl

/-- **A task is cut off where it waits**, by a time limit or with its race. -/
def Event.CutAt (es : List (Event δ σ ν ρ κ)) (task : Nat) (w : Waiting δ σ ν ρ κ) : Prop :=
  ∃ v : Waiting δ σ ν ρ κ, v.core = w ∧ (.timedOut task v ∈ es ∨ .stopped task (some v) ∈ es)

theorem Event.CutAt.mono {es es' : List (Event δ σ ν ρ κ)} (h : es ⊆ es') {task : Nat}
    {w : Waiting δ σ ν ρ κ} (hc : CutAt es task w) : CutAt es' task w := by
  obtain ⟨v, hv, hc⟩ := hc
  exact ⟨v, hv, hc.imp (fun hm => h hm) fun hm => h hm⟩

/-- Whether an event cuts off a task. -/
def Event.cutsOff : Event δ σ ν ρ κ → Bool
  | timedOut _ _ => true
  | stopped _ _ => true
  | _ => false

theorem Event.CutAt.any_cutsOff {es : List (Event δ σ ν ρ κ)} {task : Nat}
    {w : Waiting δ σ ν ρ κ} (h : CutAt es task w) : es.any cutsOff = true := by
  obtain ⟨v, -, hm | hm⟩ := h
  · exact List.any_eq_true.mpr ⟨_, hm, rfl⟩
  · exact List.any_eq_true.mpr ⟨_, hm, rfl⟩

/-- **How a task goes on that has waited**: when it has slept long enough, or with what its
block has yielded. -/
def Waiting.GoesOn (now : Nat) (es : List (Event δ σ ν ρ κ)) (task : Nat) :
    Waiting δ σ ν ρ κ → Process δ σ ν ρ κ → Prop
  | asleep alarm _ next, p => alarm.due ≤ now ∧ p = next
  | blocked block _ next, p => ∃ s, .yielded task block s ∈ es ∧ p = next s
  | timed _ _ _, _ => False

/-- The blocks that a task has opened, in order. -/
def Event.openedBy (task : Nat) (past : List (Event δ σ ν ρ κ)) : List Nat :=
  past.filterMap fun
    | opened u c _ => if u = task then some c else none
    | _ => none

theorem Event.openedBy_append (task : Nat) (past es : List (Event δ σ ν ρ κ)) :
    openedBy task (past ++ es) = openedBy task past ++ openedBy task es :=
  List.filterMap_append

theorem Event.openedBy_opened (task block : Nat) (n : Process δ σ ν ρ κ)
    (es : List (Event δ σ ν ρ κ)) :
    openedBy task (.opened task block n :: es) = block :: openedBy task es :=
  List.filterMap_cons_some (if_pos rfl)

theorem Event.openedBy_starts (task block first : Nat) (start : List (Nat × Process δ σ ν ρ κ)) :
    openedBy task (starts block first start) = [] :=
  List.filterMap_eq_nil_iff.mpr (Machine.forall_mem_starts fun _ _ _ _ => rfl)

theorem Waiting.GoesOn.mono {now task : Nat} {es es' : List (Event δ σ ν ρ κ)} (h : es ⊆ es')
    {w : Waiting δ σ ν ρ κ} {p : Process δ σ ν ρ κ} (hg : w.GoesOn now es task p) :
    w.GoesOn now es' task p := by
  cases w with
  | asleep => exact hg
  | blocked =>
    obtain ⟨s, hm, hp⟩ := hg
    exact ⟨s, h hm, hp⟩
  | timed => exact hg

namespace Moment

/-- **A task rests where it waits**, whether it has its turn or not. One that was stopped does
not. -/
inductive Rests (b : Moment δ σ ν ρ κ) (id : Nat) (w : Waiting δ σ ν ρ κ) : Prop
  | woken {task v limits} (hs : b.stage = .woken task v limits) (hid : task.id = id)
    (hw : v.core = w)
  | waiting {task v limits} (hs : b.stage = .waiting task v limits) (hid : task.id = id)
    (hw : v.core = w)
  | rest {t v} (ht : t ∈ b.machine.tasks) (hid : t.id = id)
    (hn : ∀ task ∈ b.stage.task?, task.id ≠ id) (hs : t.state = .waiting v) (hw : v.core = w)

/-- A task that waits is there behind a step, or it was stopped. -/
def Stays (m' : Machine δ σ ν ρ κ) (es : List (Event δ σ ν ρ κ)) (id : Nat)
    (v : Waiting δ σ ν ρ κ) : Prop :=
  (∃ t ∈ m'.tasks, t.id = id ∧ t.state = .waiting v) ∨ .stopped id (some v) ∈ es

section

variable {m m' : Machine δ σ ν ρ κ} {es past : List (Event δ σ ν ρ κ)} {t : Task δ σ ν ρ κ}
  {v : Waiting δ σ ν ρ κ}

theorem stays_dropBlock (ht : t ∈ m.tasks) (hs : t.state = .waiting v) (block : Nat) :
    Stays (m.dropBlock block) (m.stops block) t.id v := by
  by_cases hstop : m.isRace block = true ∧ t.isIn block = true
  · right
    rw [m.stops_eq block, if_pos hstop.1]
    exact List.mem_map.mpr ⟨t, List.mem_filter.mpr ⟨ht, hstop.2⟩, by rw [hs]; rfl⟩
  · refine .inl ⟨m.leaving block t, ?_, m.id_leaving block t, ?_⟩
    · rw [(m.dropBlock_eq block).1]
      exact List.mem_map_of_mem ht
    · unfold Machine.leaving Task.stopIn
      split
      · rename_i hr
        rw [if_neg fun hin => hstop ⟨hr, hin⟩]
        exact hs
      · exact hs

theorem stays_drop (ht : t ∈ m.tasks) (hs : t.state = .waiting v) (w : Waiting δ σ ν ρ κ) :
    Stays (m.drop w) (m.drops w) t.id v := by
  obtain ⟨hd, -⟩ | ⟨block, -, hd, he⟩ := m.drop_eq w
  · rw [hd]
    exact .inl ⟨t, ht, rfl, hs⟩
  · rw [hd, he]
    exact stays_dropBlock ht hs block

/-- The tasks stay that have not ended. -/
theorem mem_tasks_finish (hn : (m.blocks.map Machine.Block.id).Nodup) (ht : t ∈ m.tasks)
    {task : Task δ σ ν ρ κ} (hne : task.id ≠ t.id) (s : Settlement ρ κ) :
    t ∈ (m.finish task s).2.tasks := by
  rw [(Machine.finish_eq hn task s).1]
  exact List.mem_filter.mpr ⟨ht, decide_eq_true fun hid => hne hid.symm⟩

/-- What a task that stays comes to besides the one that has its turn. -/
theorem Stays.rests {s : Stage δ σ ν ρ κ} {id : Nat} (h : Stays m' es id v)
    (hn : ∀ task ∈ s.task?, task.id ≠ id) :
    Rests ⟨s, m', past⟩ id v.core ∨ Event.CutAt es id v.core := by
  obtain ⟨t, ht, hid, hs⟩ | hstop := h
  · exact .inl (.rest ht hid hn hs rfl)
  · exact .inr ⟨v, rfl, .inr hstop⟩

end

/-- A task that rests does not go on with anything. -/
theorem Rests.not_going {b : Moment δ σ ν ρ κ} {id : Nat} {w : Waiting δ σ ν ρ κ}
    (h : b.Rests id w) {task : Task δ σ ν ρ κ} {p : Process δ σ ν ρ κ}
    {limits : List (Limit δ σ ν ρ κ)} (hs : b.stage = .going task p limits) : task.id ≠ id := by
  cases h with
  | woken hs' | waiting hs' => cases hs'.symm.trans hs
  | rest _ _ hn => exact hn task (by rw [hs]; rfl)

variable [Deeds δ σ] {P : Process δ σ ν ρ κ → Prop} {a b : Moment δ σ ν ρ κ}

/-! ## Blocks that a task opens -/

/-- **Only a task that comes to a block opens it.** -/
theorem Next.openedBy_eq (h : Next P a b) {id : Nat}
    (hn : ∀ task p limits, a.stage = .going task p limits → p.block? ≠ none → task.id ≠ id) :
    Event.openedBy id b.past = Event.openedBy id a.past := by
  have hnone : ∃ es, b.past = a.past ++ es ∧ Event.openedBy id es = [] := by
    obtain ⟨task, deed, next, limits, -, -, hpast⟩ | ⟨-, es, hpast, hes⟩ := h.told
    · exact ⟨_, hpast, rfl⟩
    · refine ⟨es, hpast, List.filterMap_eq_nil_iff.mpr fun e he => ?_⟩
      cases e with
      | opened u c n =>
        obtain ⟨task, node, limits, block, here, next, hs, hb, -, heq⟩ := hes _ he rfl
        cases heq
        exact if_neg (hn task n limits hs (by rw [hb]; nofun))
      | _ => rfl
  obtain ⟨es, hpast, hnone⟩ := hnone
  rw [hpast, Event.openedBy_append, hnone, List.append_nil]

/-! ## What becomes of a task that rests -/

/-- What a step does to a task that rests without having the turn. -/
theorem Next.stays (h : Next P a b) (ho : a.Orderly) {t : Task δ σ ν ρ κ}
    (ht : t ∈ a.machine.tasks) (hne : ∀ task ∈ a.stage.task?, task.id ≠ t.id)
    {v : Waiting δ σ ν ρ κ} (hs : t.state = .waiting v) {es : List (Event δ σ ν ρ κ)}
    (hes : b.past = a.past ++ es) : b.Rests t.id v.core ∨ Event.CutAt es t.id v.core := by
  have hnodup := ho.numbered.blocks.nodup
  -- the task may be the one that gets the turn
  have hother : ∀ t' : Task δ σ ν ρ κ, a.machine.tasks.find? (fun t => t.id == t'.id) = some t' →
      t'.state ≠ .waiting v → ∀ task ∈ some t', task.id ≠ t.id := by
    intro t' hf hstate task htask hid
    cases htask
    exact hstate (ho.numbered.task_inj (List.mem_of_find?_eq_some hf) ht hid ▸ hs)
  cases h with
  | begin => exact .inl (.rest (List.mem_cons_of_mem _ ht) rfl nofun hs rfl)
  | reorder hr => exact .inl (.rest (hr.tasks.symm ▸ ht) rfl nofun hs rfl)
  | move h =>
    cases h with
    | first hf hfresh => exact .inl (.rest ht rfl (hother _ hf (by rw [hfresh]; nofun)) hs rfl)
    | @wake task v' hf hwaits =>
      by_cases hid : task.id = t.id
      · rw [ho.numbered.task_inj (List.mem_of_find?_eq_some hf) ht hid, hs] at hwaits
        cases hwaits
        exact .inl (.woken rfl hid rfl)
      · exact .inl (.rest ht rfl (fun u hu => by cases hu; exact hid) hs rfl)
    | _ => exact .inl (.rest ht rfl hne hs rfl)
  | @forget m past task before hf hcancelled =>
    refine .inl (.rest (List.mem_filter.mpr ⟨ht, decide_eq_true fun hid => ?_⟩) rfl nofun hs rfl)
    exact hother task hf (by rw [hcancelled]; nofun) task rfl hid.symm
  | @forgetWaiting m past task before w hf hcancelled =>
    have hm : t ∈ (m.removeTask task.id).tasks :=
      List.mem_filter.mpr ⟨ht, decide_eq_true fun hid =>
        hother task hf (by rw [hcancelled]; nofun) task rfl hid.symm⟩
    rw [← List.append_cancel_left (show _ = _ from hes)]
    exact (stays_drop hm hs w).rests nofun
  | act | sleep => exact .inl (.rest ht rfl hne hs rfl)
  | @opens m past task node here next state start =>
    refine .inl (.rest ?_ rfl hne hs rfl)
    rw [(m.openBlock_eq task.id state start).1]
    exact List.mem_append_left _ ht
  | attend h =>
    refine .inl (.rest ?_ rfl hne hs rfl)
    obtain ⟨rfl, -⟩ | ⟨owner, g, -, rfl, -⟩ := Machine.of_attend_none h
    · exact ht
    · rw [(Machine.spawnAll_eq _ g.launch.1 (Machine.putBlock _ _)).1]
      exact List.mem_append_left _ ht
  | @yield m past task block here next limits s m' h =>
    obtain ⟨rfl, -⟩ := Machine.of_attend_some h
    rw [← List.append_cancel_left (show _ = _ from hes)]
    exact ((stays_dropBlock ht hs block).rests (s := .going task (next s) limits) hne).imp_right
      (Event.CutAt.mono (List.subset_cons_self _ _))
  | @keep m past task w limits l =>
    cases l with
    | set | running => exact .inl (.rest ht rfl hne hs rfl)
  | @timeOut m past task w limits l =>
    rw [← List.append_cancel_left (show _ = _ from hes)]
    exact ((stays_drop ht hs w).rests (s := .going task _ limits) hne).imp_right
      (Event.CutAt.mono (List.subset_cons_self _ _))
  | @pause m past task w =>
    refine .inl (.rest (List.mem_map.mpr ⟨t, ht, if_neg fun hid => ?_⟩) rfl nofun hs rfl)
    exact hne task rfl hid.symm
  | finish | crash =>
    exact .inl (.rest (mem_tasks_finish hnodup ht (hne _ rfl) _) rfl nofun hs rfl)

/-- **What a step does to a task that rests**: it rests, or it is cut off, or it goes on. -/
theorem Next.rests (h : Next P a b) (ho : a.Orderly) {id : Nat} {w : Waiting δ σ ν ρ κ}
    (hr : a.Rests id w) {es : List (Event δ σ ν ρ κ)} (hes : b.past = a.past ++ es) :
    b.Rests id w ∨ Event.CutAt es id w
      ∨ ∃ task limits p, a.stage = .woken task w limits ∧ task.id = id
        ∧ b.stage = .going task p limits ∧ w.GoesOn b.machine.now es id p := by
  cases hr with
  | rest ht hid hn hs hw =>
    subst hid hw
    exact (h.stays ho ht hn hs hes).imp_right .inl
  | woken hs hid hw =>
    subst hid hw
    cases h with
    | move h =>
      cases h with
      | asleep =>
        cases hs
        exact .inl (.waiting rfl rfl rfl)
      | awake hdue =>
        cases hs
        exact .inr (.inr ⟨_, _, _, rfl, rfl, rfl, hdue, rfl⟩)
      | wakeLimited =>
        cases hs
        exact .inl (.woken rfl rfl rfl)
      | _ => cases hs
    | attend =>
      cases hs
      exact .inl (.waiting rfl rfl rfl)
    | yield =>
      cases hs
      rw [← List.append_cancel_left (show _ = _ from hes)]
      exact .inr (.inr ⟨_, _, _, rfl, rfl, rfl, _, List.mem_cons_self, rfl⟩)
    | _ => cases hs
  | waiting hs hid hw =>
    subst hid hw
    cases h with
    | move h =>
      cases h with
      | _ => cases hs
    | @keep _ _ _ _ _ l =>
      cases hs
      exact .inl (.waiting rfl rfl (l.core_resumeIn _ _))
    | timeOut =>
      cases hs
      rw [← List.append_cancel_left (show _ = _ from hes)]
      exact .inr (.inl ⟨_, rfl, .inl List.mem_cons_self⟩)
    | pause =>
      cases hs
      obtain ⟨t, hm, hid, -⟩ := ho.seated.alive _ rfl
      exact .inl (.rest (List.mem_map.mpr ⟨t, hm, if_pos hid⟩) hid nofun rfl rfl)
    | _ => cases hs

/-- **A task is held where it waits**: since the moment `a` it has come to rest there without
opening anything, and at `b` it still rests, or it was cut off. -/
def Held (P : Process δ σ ν ρ κ → Prop) (id : Nat) (w : Waiting δ σ ν ρ κ)
    (a b : Moment δ σ ν ρ κ) : Prop :=
  ∃ z, Later P a z ∧ Later P z b ∧ Event.openedBy id z.past = Event.openedBy id a.past
    ∧ z.Rests id w ∧ (z = b ∨ ∃ es, b.past = z.past ++ es ∧ Event.CutAt es id w)

/-- **A task goes on** with a process, at `y`, and has opened nothing since the moment `a`. -/
structure GoesOn (P : Process δ σ ν ρ κ → Prop) (id : Nat) (p : Process δ σ ν ρ κ)
    (a y : Moment δ σ ν ρ κ) : Prop where
  later : Later P a y
  openedBy : Event.openedBy id y.past = Event.openedBy id a.past
  going : ∃ task limits, y.stage = .going task p limits ∧ task.id = id

/-- **What becomes of a task that rests**: it is held where it waits, or it goes on from there
some time. -/
theorem Later.rests {w₀ : σ} (ha : Later P ⟨.idle, .ofWorld w₀, []⟩ a) (h : Later P a b)
    {id : Nat} {w : Waiting δ σ ν ρ κ} (hr : a.Rests id w) :
    Held P id w a b
      ∨ ∃ y p, GoesOn P id p a y ∧ Later P y b ∧ w.GoesOn y.machine.now y.past id p := by
  induction h with
  | refl => exact .inl ⟨a, .refl, .refl, rfl, hr, .inl rfl⟩
  | @tail x b hx h ih =>
    obtain ⟨es, hes⟩ := h.past
    obtain ⟨z, haz, hzx, hsame, hz, rfl | ⟨es', hes', hcut⟩⟩ | ⟨y, p, hy, hyx, hp⟩ := ih
    · have hsame' : Event.openedBy id b.past = Event.openedBy id a.past :=
        (h.openedBy_eq fun _ _ _ hs _ => hz.not_going hs).trans hsame
      obtain hrest | hcut | ⟨task, limits, p, -, hid, hs, hp⟩ :=
        h.rests (Later.orderly (ha.trans hx)) hz hes
      · exact .inl ⟨b, hx.tail h, .refl, hsame', hrest, .inl rfl⟩
      · exact .inl ⟨z, hx, .single h, hsame, hz, .inr ⟨es, hes, hcut⟩⟩
      · refine .inr ⟨b, p, ⟨hx.tail h, hsame', task, limits, hs, hid⟩, .refl, hp.mono ?_⟩
        rw [hes]
        exact List.subset_append_right _ _
    · refine .inl ⟨z, haz, hzx.tail h, hsame, hz, .inr ⟨es' ++ es, ?_, hcut.mono ?_⟩⟩
      · rw [hes, hes', List.append_assoc]
      · exact List.subset_append_left _ _
    · exact .inr ⟨y, p, hy, hyx.tail h, hp⟩

section

variable {task : Task δ σ ν ρ κ} {ms : Nat} {here : ν} {next : Process δ σ ν ρ κ}
  {limits : List (Limit δ σ ν ρ κ)}

/-- A task that is to sleep sets its alarm, or goes on at once. -/
theorem Next.sleeps (h : Next P a b) (hs : a.stage = .going task (.sleep ms here next) limits) :
    (∃ alarm, alarm.due = a.machine.now + ms
        ∧ b.stage = .waiting task (.asleep alarm here next) limits)
      ∨ ms = 0 ∧ b.machine.now = a.machine.now ∧ b.stage = .going task next limits := by
  cases h with
  | move hm =>
    cases hm with
    | sleepZero =>
      cases hs
      exact .inr ⟨rfl, rfl, rfl⟩
    | _ => cases hs
  | sleep =>
    cases hs
    exact .inl ⟨_, rfl, rfl⟩
  | opens ho =>
    cases hs
    cases ho
  | _ => cases hs

/-- **What becomes of a task that is to sleep**: it has not yet set its alarm, or it is held, or
it goes on when it has slept long enough. -/
theorem Later.sleeps {w₀ : σ} (ha : Later P ⟨.idle, .ofWorld w₀, []⟩ a) (h : Later P a b)
    (hs : a.stage = .going task (.sleep ms here next) limits) :
    a = b ∨ (∃ alarm, Held P task.id (.asleep alarm here next) a b)
      ∨ ∃ y, GoesOn P task.id next a y ∧ Later P y b
        ∧ a.machine.now + ms ≤ y.machine.now := by
  obtain rfl | ⟨x, hx, hxb⟩ := h.cases_head
  · exact .inl rfl
  · have hsame : Event.openedBy task.id x.past = Event.openedBy task.id a.past :=
      hx.openedBy_eq fun _ _ _ hs' hb => by
        cases hs.symm.trans hs'
        exact absurd rfl hb
    obtain ⟨alarm, hdue, hs'⟩ | ⟨rfl, hnow, hs'⟩ := hx.sleeps hs
    · obtain ⟨z, hxz, hzb, hsame', hz⟩ | ⟨y, p, hy, hyb, hle, rfl⟩ :=
        Later.rests (ha.tail hx) hxb (.waiting hs' rfl rfl)
      · exact .inr (.inl ⟨alarm, z, .head hx hxz, hzb, hsame'.trans hsame, hz⟩)
      · exact .inr (.inr ⟨y, ⟨.head hx hy.later, hy.openedBy.trans hsame, hy.going⟩, hyb,
          hdue ▸ hle⟩)
    · exact .inr (.inr ⟨x, ⟨.single hx, hsame, task, limits, hs', rfl⟩, hxb,
        Nat.le_of_eq hnow.symm⟩)

end

end Moment

end Playbook
