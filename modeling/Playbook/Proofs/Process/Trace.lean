import Playbook.Proofs.Process.Tally

/-!
# What is left of the processes of tasks

In the middle of a run a task has done a part of its process. What is left of it is
in pieces then: a process or a waiting one, and the time limits around it.
`Moment.Traced` puts the pieces together and relates them to the process that the
task was begun with.

What the relation is, is left open. It may depend on what the task has done since then
(`Event.doneBy`). A `Process.Order` goes along with all that a task does by itself. The
rest depends on the run, and it is assumed of the steps (`Moment.Next.traced`): what
blocks yield, and what is left when a time limit has passed.
-/

namespace Playbook

variable {δ σ ν ρ κ : Type}

/-! ## What steps tell -/

/-- Whether a task does something of its own: a deed, or the opening of a block. -/
def Event.isOwn : Event δ σ ν ρ κ → Bool
  | did _ _ => true
  | opened _ _ _ => true
  | _ => false

namespace Process

/-- What a task has to itself at a block, and what follows the block. -/
def block? : Process δ σ ν ρ κ → Option (ν × (Settled ρ κ → Process δ σ ν ρ κ))
  | gather _ _ _ here next => some (here, next)
  | race _ _ here next => some (here, next)
  | _ => none

theorem Opens.block? {here : ν} {next : Settled ρ κ → Process δ σ ν ρ κ}
    {node : Process δ σ ν ρ κ} {state : Machine.BlockState δ σ ν ρ κ}
    {start : List (Nat × Process δ σ ν ρ κ)} (h : Opens here next node state start) :
    node.block? = some (here, next) := by
  cases h <;> rfl

end Process

namespace Moment

theorem world_drop (w : Waiting δ σ ν ρ κ) (m : Machine δ σ ν ρ κ) :
    (m.drop w).world = m.world := by
  obtain ⟨hd, -⟩ | ⟨block, -, hd, -⟩ := m.drop_eq w
  · rw [hd]
  · rw [hd]
    exact (m.dropBlock_eq block).2.2.2

theorem world_finish (m : Machine δ σ ν ρ κ) (task : Machine.Task δ σ ν ρ κ)
    (s : Settlement ρ κ) : (m.finish task s).2.world = m.world := by
  unfold Machine.finish Machine.settle
  dsimp only
  split
  · split
    · rfl
    · split
      · exact (Machine.Reordered.wake _ _).world
      · rfl
    · exact (Machine.Reordered.wake _ _).world
  · rfl

/-- **What a step tells**: a deed of the task that has its turn, which is what changes
the world, or at most the opening of a block at which the task is. -/
theorem Next.told [Deeds δ σ] {P : Process δ σ ν ρ κ → Prop} {a b : Moment δ σ ν ρ κ}
    (h : Next P a b) :
    (∃ task deed next limits, a.stage = .going task (.act deed next) limits
      ∧ b.machine.world = Deeds.perform deed a.machine.world
      ∧ b.past = a.past ++ [.did task.id deed])
    ∨ b.machine.world = a.machine.world ∧ ∃ es, b.past = a.past ++ es
      ∧ ∀ e ∈ es, e.isOwn = true → ∃ task node limits block here next,
        a.stage = .going task node limits ∧ node.block? = some (here, next)
          ∧ b.stage = .waiting task (.blocked block here next) limits
          ∧ e = .opened task.id block node := by
  cases h with
  | act => exact .inl ⟨_, _, _, _, rfl, rfl, rfl⟩
  | begin | move | forget | sleep | pause =>
    exact .inr ⟨rfl, [], (List.append_nil _).symm, nofun⟩
  | reorder hr => exact .inr ⟨hr.world, [], (List.append_nil _).symm, nofun⟩
  | @keep m past task w limits l =>
    refine .inr ⟨?_, [], (List.append_nil _).symm, nofun⟩
    cases l <;> rfl
  | forgetWaiting =>
    exact .inr ⟨world_drop _ _, _, rfl, Machine.forall_mem_drops fun _ _ => nofun⟩
  | @opens m past task node here next state start limits h =>
    exact .inr ⟨(m.openBlock_eq task.id state start).2.2.2, _, rfl, List.forall_mem_cons.mpr
      ⟨fun _ => ⟨task, node, limits, m.serial, here, next, rfl, h.block?, rfl, rfl⟩,
        Machine.forall_mem_starts fun _ _ _ _ => nofun⟩⟩
  | @attend m past task block here next limits m' h =>
    refine .inr ⟨?_, _, rfl, Machine.forall_mem_launches fun _ _ _ _ => nofun⟩
    obtain ⟨rfl, -⟩ | ⟨owner, g, -, rfl, -⟩ := Machine.of_attend_none h
    · rfl
    · exact (Machine.spawnAll_eq block g.launch.1 (Machine.putBlock _ m)).2.2.2
  | @yield m past task block here next limits s m' h =>
    obtain ⟨rfl, b, hb, rfl, -⟩ := Machine.of_attend_some h
    exact .inr ⟨(m.dropBlock_eq b.id).2.2.2, _, rfl, List.forall_mem_cons.mpr
      ⟨nofun, Machine.forall_mem_stops fun _ _ => nofun⟩⟩
  | timeOut =>
    exact .inr ⟨world_drop _ _, _, rfl, List.forall_mem_cons.mpr
      ⟨nofun, Machine.forall_mem_drops fun _ _ => nofun⟩⟩
  | finish | crash =>
    refine .inr ⟨world_finish _ _ _, _, rfl, fun e hm ho => ?_⟩
    rw [List.mem_singleton.mp hm] at ho
    cases ho

end Moment

/-- The deeds that are told of, in order. -/
def Event.deeds (es : List (Event δ σ ν ρ κ)) : List δ :=
  es.filterMap fun
    | did _ deed => some deed
    | _ => none

/-- **The world is what the deeds that were told of have made of it.** -/
theorem Moment.Later.world [Deeds δ σ] {P : Process δ σ ν ρ κ → Prop}
    {a b : Moment δ σ ν ρ κ} (h : Later P a b) :
    ∃ es, b.past = a.past ++ es
      ∧ b.machine.world = (Event.deeds es).foldl (fun w d => Deeds.perform d w)
          a.machine.world := by
  induction h with
  | refl => exact ⟨[], (List.append_nil _).symm, rfl⟩
  | @tail b c hl h ih =>
    obtain ⟨es, he, hw⟩ := ih
    obtain ⟨task, deed, next, limits, -, hw', hp⟩ | ⟨hw', es', hp, hes⟩ := h.told
    · refine ⟨es ++ [.did task.id deed], by rw [hp, he, List.append_assoc], ?_⟩
      rw [hw', hw]
      unfold Event.deeds
      rw [List.filterMap_append, List.foldl_append]
      rfl
    · refine ⟨es ++ es', by rw [hp, he, List.append_assoc], ?_⟩
      have hnone : Event.deeds es' = [] := by
        refine List.filterMap_eq_nil_iff.mpr fun e hm => ?_
        cases e with
        | did t deed =>
          obtain ⟨_, _, _, _, _, _, -, -, -, hd⟩ := hes _ hm rfl
          cases hd
        | _ => rfl
      have happend : Event.deeds (es ++ es') = Event.deeds es ++ Event.deeds es' :=
        List.filterMap_append
      rw [hw', hw, happend, hnone, List.append_nil]

/-! ## Processes that are under way -/

namespace Process

/-- **An order of what is left of processes**: what a task has come to by itself, by doing
something, is below what it was at before. The worlds that it looks at are in `W`. -/
structure Order (W : σ → Prop)
    (R : List δ → Process δ σ ν ρ κ → Process δ σ ν ρ κ → Prop) : Prop where
  refl : ∀ p, R [] p p
  trans : ∀ {t u p q s}, R u p q → R t q s → R (t ++ u) p s
  timed : ∀ {t p q} (ms ms' : Nat) next, R t p q → R t (.timed ms p next) (.timed ms' q next)
  acted : ∀ {deed next w}, W w → R [deed] (next w) (.act deed next)
  asleep : ∀ {ms ms' here next}, R [] (.sleep ms here next) (.sleep ms' here next)
  slept : ∀ {ms here next}, R [] next (.sleep ms here next)
  inTime : ∀ {ms r next}, R [] (next (.inl r)) (.timed ms (.done r) next)
  crashed : ∀ {a ms next}, R [] (.crash a) (.timed ms (.crash a) next)
  gatheredNothing : ∀ {limit stops operations here next s},
    (Gathering.ofOperations limit stops operations).launch.2.result? = some s →
    R [] (next s) (.gather limit stops operations here next)
  racedNothing : ∀ {wins operations here next s},
    (Race.mk (ρ := ρ) (κ := κ) wins operations.length []).result? = some s →
    R [] (next s) (.race wins operations here next)

/-- A task comes further and does nothing. -/
theorem Order.silent {W : σ → Prop}
    {R : List δ → Process δ σ ν ρ κ → Process δ σ ν ρ κ → Prop} (h : Order W R) {t : List δ}
    {p q s : Process δ σ ν ρ κ} (hp : R [] p q) (hq : R t q s) : R t p s := by
  have hs := h.trans hp hq
  rwa [List.append_nil] at hs

end Process

/-- A process put under time limits. The times do not matter here. -/
def Limit.plug : List (Limit δ σ ν ρ κ) → Process δ σ ν ρ κ → Process δ σ ν ρ κ
  | [], p => p
  | l :: limits, p => plug limits (.timed 0 p l.next)

theorem Process.Order.plug {W : σ → Prop}
    {R : List δ → Process δ σ ν ρ κ → Process δ σ ν ρ κ → Prop} (h : Process.Order W R)
    {t : List δ} {p q : Process δ σ ν ρ κ} (hr : R t p q) :
    (limits : List (Limit δ σ ν ρ κ)) → R t (Limit.plug limits p) (Limit.plug limits q)
  | [] => hr
  | l :: limits => h.plug (h.timed 0 0 l.next hr) limits

/-- **What a waiting process of a task still has to do**; for a block it is told by the
past at which node the task has opened it. -/
inductive Waiting.Stands (past : List (Event δ σ ν ρ κ)) (task : Nat) :
    Waiting δ σ ν ρ κ → Process δ σ ν ρ κ → Prop
  | asleep {alarm here next} : Stands past task (.asleep alarm here next) (.sleep 0 here next)
  | blocked {block here next node} (ho : .opened task block node ∈ past)
    (hn : node.block? = some (here, next)) : Stands past task (.blocked block here next) node
  | timed {deadline body next p} (h : Stands past task body p) :
    Stands past task (.timed deadline body next) (.timed 0 p next)

theorem Waiting.Stands.mono {past past' : List (Event δ σ ν ρ κ)} (hp : past ⊆ past')
    {task : Nat} {w : Waiting δ σ ν ρ κ} {p : Process δ σ ν ρ κ}
    (h : w.Stands past task p) : w.Stands past' task p := by
  induction h with
  | asleep => exact .asleep
  | blocked ho hn => exact .blocked (hp ho) hn
  | timed _ ih => exact .timed ih

/-! ## Tasks that are under way -/

open Machine (Task Block TaskState)

/-- What a task still has to do is below a process. A stopped task does nothing. -/
def Machine.TaskState.Below (R : Process δ σ ν ρ κ → Process δ σ ν ρ κ → Prop)
    (past : List (Event δ σ ν ρ κ)) (task : Nat) (q : Process δ σ ν ρ κ) :
    TaskState δ σ ν ρ κ → Prop
  | fresh p => R p q
  | waiting w => ∃ p, w.Stands past task p ∧ R p q
  | cancelled _ => True

/-- What the task still has to do that has its turn is below a process. -/
def Stage.Below (R : Process δ σ ν ρ κ → Process δ σ ν ρ κ → Prop)
    (past : List (Event δ σ ν ρ κ)) (q : Process δ σ ν ρ κ) : Stage δ σ ν ρ κ → Prop
  | idle => True
  | going _ p limits => R (Limit.plug limits p) q
  | woken task w limits => ∃ p, w.Stands past task.id p ∧ R (Limit.plug limits p) q
  | waiting task w limits => ∃ p, w.Stands past task.id p ∧ R (Limit.plug limits p) q

section

variable {R : Process δ σ ν ρ κ → Process δ σ ν ρ κ → Prop}
  {past past' : List (Event δ σ ν ρ κ)} {q : Process δ σ ν ρ κ}

theorem Machine.TaskState.Below.mono (hp : past ⊆ past') {task : Nat} :
    {s : TaskState δ σ ν ρ κ} → s.Below R past task q → s.Below R past' task q
  | fresh _, h => h
  | waiting _, ⟨p, hs, hl⟩ => ⟨p, hs.mono hp, hl⟩
  | cancelled _, _ => trivial

end

/-- What a task was begun with: an operation of a block, or a main task that may be
begun. -/
def Event.Origin (P : Process δ σ ν ρ κ → Prop) (past : List (Event δ σ ν ρ κ))
    (t : Task δ σ ν ρ κ) (q : Process δ σ ν ρ κ) : Prop :=
  (∃ c i, t.parent = some (c, i) ∧ .started c i t.id q ∈ past) ∨ t.parent = none ∧ P q

theorem Event.Origin.mono {P : Process δ σ ν ρ κ → Prop}
    {past past' : List (Event δ σ ν ρ κ)} (hp : past ⊆ past') {t : Task δ σ ν ρ κ}
    {q : Process δ σ ν ρ κ} (h : Origin P past t q) : Origin P past' t q :=
  h.imp_left fun ⟨c, i, hpar, hs⟩ => ⟨c, i, hpar, hp hs⟩

namespace Moment

/-- **What the tasks in `S` still have to do**, behind what they have done, **is below their
processes.** -/
structure Traced (R : List δ → Process δ σ ν ρ κ → Process δ σ ν ρ κ → Prop)
    (P : Process δ σ ν ρ κ → Prop) (W : σ → Prop) (S : Nat → Prop)
    (b : Moment δ σ ν ρ κ) : Prop where
  world : W b.machine.world
  stage : ∀ task ∈ b.stage.task?, S task.id → ∃ q, Event.Origin P b.past task q
    ∧ b.stage.Below (R (Event.doneBy task.id b.past)) b.past q
  tasks : ∀ t ∈ b.machine.tasks, (∀ task ∈ b.stage.task?, task.id ≠ t.id) → S t.id →
    ∃ q, Event.Origin P b.past t q
      ∧ t.state.Below (R (Event.doneBy t.id b.past)) b.past t.id q

variable {R : List δ → Process δ σ ν ρ κ → Process δ σ ν ρ κ → Prop}
  {P : Process δ σ ν ρ κ → Prop} {W : σ → Prop} {S : Nat → Prop}

theorem traced_ofWorld {w : σ} (hw : W w) :
    (⟨.idle, .ofWorld w, []⟩ : Moment δ σ ν ρ κ).Traced R P W S :=
  ⟨hw, nofun, nofun⟩

/-! ## What becomes of tasks -/

/-- A task is as far as another one, or has been stopped since. -/
def Follows (t' t : Task δ σ ν ρ κ) : Prop :=
  t'.id = t.id ∧ t'.parent = t.parent ∧ (t'.state = t.state ∨ t'.state.isCancelled = true)

theorem Follows.refl (t : Task δ σ ν ρ κ) : Follows t t :=
  ⟨rfl, rfl, .inl rfl⟩

theorem follows_leaving (block : Nat) (m : Machine δ σ ν ρ κ) (t : Task δ σ ν ρ κ) :
    Follows (m.leaving block t) t := by
  refine ⟨m.id_leaving block t, m.parent_leaving block t, ?_⟩
  unfold Machine.leaving Task.stopIn
  split
  · split
    · exact .inr rfl
    · exact .inl rfl
  · exact .inl rfl

theorem exists_follows_of_dropBlock {m : Machine δ σ ν ρ κ} {block : Nat}
    {t' : Task δ σ ν ρ κ} (h : t' ∈ (m.dropBlock block).tasks) :
    ∃ t ∈ m.tasks, Follows t' t := by
  rw [(m.dropBlock_eq block).1] at h
  obtain ⟨t, hm, rfl⟩ := List.mem_map.mp h
  exact ⟨t, hm, follows_leaving block m t⟩

theorem exists_follows_of_drop {m : Machine δ σ ν ρ κ} {w : Waiting δ σ ν ρ κ}
    {t' : Task δ σ ν ρ κ} (h : t' ∈ (m.drop w).tasks) : ∃ t ∈ m.tasks, Follows t' t := by
  obtain ⟨hd, -⟩ | ⟨block, -, hd, -⟩ := m.drop_eq w
  · rw [hd] at h
    exact ⟨t', h, .refl t'⟩
  · rw [hd] at h
    exact exists_follows_of_dropBlock h

theorem of_mem_finish {m : Machine δ σ ν ρ κ} (hn : (m.blocks.map Block.id).Nodup)
    {task t' : Task δ σ ν ρ κ} {s : Settlement ρ κ} (h : t' ∈ (m.finish task s).2.tasks) :
    t' ∈ m.tasks ∧ t'.id ≠ task.id := by
  rw [(Machine.finish_eq hn task s).1] at h
  obtain ⟨hm, hid⟩ := List.mem_filter.mp h
  exact ⟨hm, of_decide_eq_true hid⟩

/-- Where operations of a block are started, a task was there before or is for one of
them. -/
theorem follows_or_new {m m' : Machine δ σ ν ρ κ} {past : List (Event δ σ ν ρ κ)}
    {block task : Nat} {start : List (Nat × Process δ σ ν ρ κ)}
    (ht : m'.tasks = m.tasks ++ Machine.spawned block task start) (hle : m.serial ≤ task)
    (he : Event.starts block task start ⊆ past) {t' : Task δ σ ν ρ κ} (h : t' ∈ m'.tasks) :
    (∃ t ∈ m.tasks, Follows t' t)
      ∨ ∃ q, t'.state = .fresh q ∧ Event.Origin P past t' q ∧ m.IsNew t'.id := by
  obtain hm | hm := List.mem_append.mp (ht ▸ h)
  · exact .inl ⟨t', hm, .refl t'⟩
  · obtain ⟨hid, -, op, -, hpar, hs, hmem⟩ := Machine.of_mem_spawned hm
    exact .inr ⟨op.2, hs, .inl ⟨block, op.1, hpar, he hmem⟩, .inl (Nat.le_trans hle hid)⟩

/-- **What becomes of tasks in a step** besides the one that has its turn behind it. A task
was there before and has come as far, or it is new, or it is the one that had its turn and
waits now. -/
theorem Next.follows [Deeds δ σ] {a b : Moment δ σ ν ρ κ} (h : Next P a b) (ho : a.Orderly)
    {t' : Task δ σ ν ρ κ} (ht : t' ∈ b.machine.tasks)
    (hturn : ∀ task ∈ b.stage.task?, task.id ≠ t'.id) :
    (∃ t ∈ a.machine.tasks, Follows t' t ∧ ∀ task ∈ a.stage.task?, task.id ≠ t.id)
      ∨ (∃ q, t'.state = .fresh q ∧ Event.Origin P b.past t' q ∧ a.machine.IsNew t'.id)
      ∨ ∃ task w, a.stage = .waiting task w [] ∧ b.past = a.past ∧ t'.id = task.id
        ∧ t'.parent = task.parent ∧ t'.state = .waiting w := by
  -- the task that has its turn is another one before, if it is one behind
  have follows : (∃ t ∈ a.machine.tasks, Follows t' t) →
      (∀ task ∈ a.stage.task?, task.id ≠ t'.id) →
      ∃ t ∈ a.machine.tasks, Follows t' t ∧ ∀ task ∈ a.stage.task?, task.id ≠ t.id :=
    fun ⟨t, hm, hf⟩ hn => ⟨t, hm, hf, fun task hs => hf.1 ▸ hn task hs⟩
  cases h with
  | @begin m past p hp hm =>
    obtain rfl | hm' := List.mem_cons.mp ht
    · exact .inr (.inl ⟨p, rfl, .inr ⟨rfl, hp⟩, .inr ⟨rfl, hm⟩⟩)
    · exact .inl (follows ⟨t', hm', .refl t'⟩ nofun)
  | reorder hr => exact .inl (follows ⟨t', hr.tasks ▸ ht, .refl t'⟩ nofun)
  | move h =>
    refine .inl (follows ⟨t', ht, .refl t'⟩ ?_)
    cases h with
    | first | wake => exact nofun
    | sleepZero | limit | gatherNothing | raceNothing | asleep | awake | wakeLimited | inTime
    | crashOut => exact hturn
  | act | sleep => exact .inl (follows ⟨t', ht, .refl t'⟩ hturn)
  | forget => exact .inl (follows ⟨t', List.mem_of_mem_filter ht, .refl t'⟩ nofun)
  | forgetWaiting =>
    obtain ⟨t, hm, hf⟩ := exists_follows_of_drop ht
    exact .inl (follows ⟨t, List.mem_of_mem_filter hm, hf⟩ nofun)
  | @opens m past task node here next state start =>
    exact (follows_or_new (m.openBlock_eq task.id state start).1 (Nat.le_succ _)
      (fun e he => List.mem_append_right _ (List.mem_cons_of_mem _ he)) ht).imp
        (follows · hturn) .inl
  | @attend m past task block here next limits m' h =>
    obtain ⟨rfl, -⟩ | ⟨owner, g, -, rfl, he⟩ := Machine.of_attend_none h
    · exact .inl (follows ⟨t', ht, .refl t'⟩ hturn)
    · refine (follows_or_new (Machine.spawnAll_eq block g.launch.1 (Machine.putBlock _ m)).1
        (Nat.le_refl _) (fun e hm => List.mem_append_right _ ?_) ht).imp (follows · hturn) .inl
      rwa [he]
  | yield h =>
    obtain ⟨rfl, -⟩ := Machine.of_attend_some h
    exact .inl (follows (exists_follows_of_dropBlock ht) hturn)
  | @keep m past task w limits l =>
    have hsame : (l.resumeIn w m).2.tasks = m.tasks := by cases l <;> rfl
    exact .inl (follows ⟨t', hsame ▸ ht, .refl t'⟩ hturn)
  | timeOut => exact .inl (follows (exists_follows_of_drop ht) hturn)
  | @pause m past task w =>
    obtain ⟨t, hm, rfl⟩ := List.mem_map.mp ht
    by_cases hid : t.id = task.id
    · obtain ⟨t₀, hm₀, hid₀, hpar, -⟩ := ho.seated.alive task rfl
      rw [if_pos hid]
      rw [← ho.numbered.task_inj hm hm₀ (hid.trans hid₀.symm)] at hpar
      exact .inr (.inr ⟨task, w, rfl, rfl, hid, hpar, rfl⟩)
    · rw [if_neg hid]
      refine .inl ⟨t, hm, .refl t, fun task' hs => ?_⟩
      cases hs
      exact Ne.symm hid
  | @finish m past task | @crash m past task =>
    obtain ⟨hm, hid⟩ := of_mem_finish ho.numbered.blocks.nodup ht
    refine .inl ⟨t', hm, .refl t', fun task' hs => ?_⟩
    cases hs
    exact hid.symm

/-! ## Steps -/

/-- **A task that comes further without touching the machine** is still below its
process. -/
theorem Traced.move (hR : Process.Order W R) {s s' : Stage δ σ ν ρ κ}
    {m : Machine δ σ ν ρ κ} {past : List (Event δ σ ν ρ κ)} (h : Stage.Moves m s s')
    (ha : Traced R P W S ⟨s, m, past⟩) :
    ∀ task ∈ s'.task?, S task.id → ∃ q, Event.Origin P past task q
      ∧ s'.Below (R (Event.doneBy task.id past)) past q := by
  intro task htask hS
  -- what is below under limits
  have hgo : ∀ {t : List δ} {p p' q : Process δ σ ν ρ κ} (limits : List (Limit δ σ ν ρ κ)),
      R [] p' p → R t (Limit.plug limits p) q → R t (Limit.plug limits p') q :=
    fun limits h hl => hR.silent (hR.plug h limits) hl
  cases h with
  | first ht hs | wake ht hs =>
    cases htask
    obtain ⟨q, ho, hl⟩ := ha.tasks _ (List.mem_of_find?_eq_some ht) nofun hS
    rw [hs] at hl
    exact ⟨q, ho, hl⟩
  | @sleepZero t here next limits =>
    obtain ⟨q, ho, hl⟩ := ha.stage task htask hS
    exact ⟨q, ho, hgo limits hR.slept hl⟩
  | @limit t ms body next limits =>
    obtain ⟨q, ho, hl⟩ := ha.stage task htask hS
    exact ⟨q, ho, hgo limits (hR.timed 0 ms next (hR.refl body)) hl⟩
  | @gatherNothing t limit stops operations here next limits s h =>
    obtain ⟨q, ho, hl⟩ := ha.stage task htask hS
    exact ⟨q, ho, hgo limits (hR.gatheredNothing h) hl⟩
  | @raceNothing t wins operations here next limits s h =>
    obtain ⟨q, ho, hl⟩ := ha.stage task htask hS
    exact ⟨q, ho, hgo limits (hR.racedNothing h) hl⟩
  | asleep =>
    obtain ⟨q, ho, p, hp, hl⟩ := ha.stage task htask hS
    exact ⟨q, ho, p, hp, hl⟩
  | @awake t alarm here next limits h =>
    obtain ⟨q, ho, p, hp, hl⟩ := ha.stage task htask hS
    cases hp
    exact ⟨q, ho, hgo limits hR.slept hl⟩
  | wakeLimited =>
    obtain ⟨q, ho, p, hp, hl⟩ := ha.stage task htask hS
    cases hp with
    | timed hp => exact ⟨q, ho, _, hp, hl⟩
  | @inTime t r limits l =>
    obtain ⟨q, ho, hl⟩ := ha.stage task htask hS
    exact ⟨q, ho, hgo limits hR.inTime hl⟩
  | @crashOut t e limits l =>
    obtain ⟨q, ho, hl⟩ := ha.stage task htask hS
    exact ⟨q, ho, hgo limits hR.crashed hl⟩

variable [Deeds δ σ] {a b : Moment δ σ ν ρ κ}

/-- The worlds stay in `W` that deeds do not leave. -/
theorem Next.world (h : Next P a b) (hW : ∀ (d : δ) (w : σ), W w → W (Deeds.perform d w))
    (ha : W a.machine.world) : W b.machine.world := by
  obtain ⟨task, deed, next, limits, -, hw, -⟩ | ⟨hw, -⟩ := h.told
  · rw [hw]
    exact hW deed _ ha
  · rw [hw]
    exact ha

/-- **What is left of the tasks that do not have their turn** is below their processes,
after every step. -/
theorem Next.tasks_below (hR : Process.Order W R) (h : Next P a b) (ho : a.Orderly)
    (ht : a.Tallied) (hpast : a.past ⊆ b.past) (ha : a.Traced R P W S) :
    ∀ t ∈ b.machine.tasks, (∀ task ∈ b.stage.task?, task.id ≠ t.id) → S t.id →
      ∃ q, Event.Origin P b.past t q
        ∧ t.state.Below (R (Event.doneBy t.id b.past)) b.past t.id q := by
  have horigin : ∀ {t t' : Task δ σ ν ρ κ} {q}, t'.id = t.id → t'.parent = t.parent →
      Event.Origin P a.past t q → Event.Origin P b.past t' q := by
    intro t t' q hid hpar hq
    have hq := hq.mono hpast
    unfold Event.Origin at hq ⊢
    rwa [hid, hpar]
  intro t' hm hturn hS
  obtain ⟨t, hm', ⟨hid, hpar, hstate⟩, hrest⟩ | ⟨q, hstate, hq, hnew⟩
    | ⟨task, w, hs, hp, hid, hpar, hstate⟩ := h.follows ho hm hturn
  · obtain ⟨q, hq, hl⟩ := ha.tasks t hm' hrest (hid ▸ hS)
    refine ⟨q, horigin hid hpar hq, ?_⟩
    rw [hid, h.doneBy_of_ne hrest]
    obtain hstate | hcancelled := hstate
    · rw [hstate]
      exact hl.mono hpast
    · cases hs : t'.state with
      | cancelled => trivial
      | fresh | waiting =>
        rw [hs] at hcancelled
        cases hcancelled
  · refine ⟨q, hq, ?_⟩
    rw [hstate, h.doneBy_of_isNew ho ht hnew]
    exact hR.refl q
  · obtain ⟨q, hq, hl⟩ := ha.stage task (by rw [hs]; rfl) (hid ▸ hS)
    rw [hs] at hl
    refine ⟨q, horigin hid hpar hq, ?_⟩
    rw [hstate, hid, hp]
    exact hl

/-- **What is left of the task that has its turn** is below its process, after every
step. What a block yields has to lead below the node at which it was opened, and so has
what follows a time limit when it has passed. -/
theorem Next.stage_below (hR : Process.Order W R) (h : Next P a b) (hpast : a.past ⊆ b.past)
    (ha : a.Traced R P W S)
    (hyield : ∀ u c s node here next, .yielded u c s ∈ b.past → .opened u c node ∈ b.past →
      node.block? = some (here, next) → S u → R [] (next s) node)
    (htime : ∀ u w p next, .timedOut u w ∈ b.past → w.Stands b.past u p → S u →
      R [] (next (.inr w.here)) (.timed 0 p next)) :
    ∀ task ∈ b.stage.task?, S task.id → ∃ q, Event.Origin P b.past task q
      ∧ b.stage.Below (R (Event.doneBy task.id b.past)) b.past q := by
  intro t ht hS
  cases h with
  | begin | reorder | forget | forgetWaiting | pause | finish | crash => cases ht
  | move h => exact ha.move hR h t ht hS
  | @act m past task deed next limits =>
    obtain ⟨q, hq, hl⟩ := ha.stage t ht hS
    cases ht
    refine ⟨q, hq.mono hpast, ?_⟩
    rw [Event.doneBy_did]
    exact hR.trans (hR.plug (hR.acted ha.world) limits) hl
  | @sleep m past task ms here next limits h =>
    obtain ⟨q, hq, hl⟩ := ha.stage t ht hS
    exact ⟨q, hq.mono hpast, _, .asleep, hR.silent (hR.plug hR.asleep limits) hl⟩
  | @opens m past task node here next state start limits h =>
    obtain ⟨q, hq, hl⟩ := ha.stage t ht hS
    cases ht
    refine ⟨q, hq.mono hpast, node,
      .blocked (List.mem_append_right _ List.mem_cons_self) h.block?, ?_⟩
    rw [Event.doneBy_append_of_forall (List.forall_mem_cons.mpr
      ⟨rfl, Machine.forall_mem_starts fun _ _ _ _ => rfl⟩)]
    exact hl
  | @attend m past task block here next limits m' h =>
    obtain ⟨q, hq, p, hp, hl⟩ := ha.stage t ht hS
    refine ⟨q, hq.mono hpast, p, hp.mono hpast, ?_⟩
    rw [Event.doneBy_append_of_forall (Machine.forall_mem_launches fun _ _ _ _ => rfl)]
    exact hl
  | @yield m past task block here next limits s m' h =>
    obtain ⟨q, hq, p, hp, hl⟩ := ha.stage t ht hS
    cases ht
    cases hp with
    | blocked hopened hn =>
      have hy := hyield _ _ s _ _ _ (List.mem_append_right _ List.mem_cons_self)
        (hpast hopened) hn hS
      refine ⟨q, hq.mono hpast, ?_⟩
      rw [Event.doneBy_append_of_forall (List.forall_mem_cons.mpr
        ⟨rfl, Machine.forall_mem_stops fun _ _ => rfl⟩)]
      exact hR.silent (hR.plug hy limits) hl
  | @keep m past task w limits l h =>
    obtain ⟨q, hq, p, hp, hl⟩ := ha.stage t ht hS
    refine ⟨q, hq, .timed 0 p l.next, ?_, hl⟩
    cases l with
    | set => exact .timed hp
    | running => exact .timed hp
  | @timeOut m past task w limits l h =>
    obtain ⟨q, hq, p, hp, hl⟩ := ha.stage t ht hS
    cases ht
    have hy := htime _ w p l.next (List.mem_append_right _ List.mem_cons_self)
      (hp.mono hpast) hS
    refine ⟨q, hq.mono hpast, ?_⟩
    rw [Event.doneBy_append_of_forall (List.forall_mem_cons.mpr
      ⟨rfl, Machine.forall_mem_drops fun _ _ => rfl⟩)]
    exact hR.silent (hR.plug hy limits) hl

/-- **Whatever is left of tasks is below their processes**, after every step. -/
theorem Next.traced (hR : Process.Order W R) (h : Next P a b) (ho : a.Orderly)
    (ht : a.Tallied) (hW : ∀ (d : δ) (w : σ), W w → W (Deeds.perform d w))
    (ha : a.Traced R P W S)
    (hyield : ∀ u c s node here next, .yielded u c s ∈ b.past → .opened u c node ∈ b.past →
      node.block? = some (here, next) → S u → R [] (next s) node)
    (htime : ∀ u w p next, .timedOut u w ∈ b.past → w.Stands b.past u p → S u →
      R [] (next (.inr w.here)) (.timed 0 p next)) : b.Traced R P W S := by
  have hpast := h.past_subset
  exact ⟨h.world hW ha.world, h.stage_below hR hpast ha hyield htime,
    h.tasks_below hR ho ht hpast ha⟩

end Moment

end Playbook
