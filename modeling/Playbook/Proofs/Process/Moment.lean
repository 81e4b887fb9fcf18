import Mathlib.Logic.Relation
import Playbook.Process.Machine
import Playbook.Proofs.Process.Running
import Playbook.Proofs.Process.Schedule

/-!
# Moments of a machine

A turn of a machine takes its task from one wait to the next, and much can
happen on the way: blocks are opened and yield, operations are started, time
limits pass. Here the turn is taken apart. A `Moment` is a machine in the
middle of what it does, with all that has happened so far (`Event`), and
`Moment.Next` are the small steps from one moment to the next. The small steps
leave open which task has the next turn and where the clock stands, as
`Machine.Step` does; but a list of steps is begun only after the one before it
has ended.

That the small steps are those of the machine is `Moment.later_turn` for a turn
and `Moment.later_run` for a run. So what is proved of all moments holds in
the middle of every run too, and a run can be spoken of by its events.
-/

namespace Playbook

variable {δ σ ν ρ κ : Type}

/-- **What happens in a run.** -/
inductive Event (δ σ ν ρ κ : Type) where
  | did (task : Nat) (deed : δ)
  /-- A task has come to a block and opened it. -/
  | opened (task block : Nat) (node : Process δ σ ν ρ κ)
  /-- An operation of a block was started as a task. -/
  | started (block index task : Nat) (p : Process δ σ ν ρ κ)
  /-- A block was over, and its task went on with the settlements. -/
  | yielded (task block : Nat) (s : Settled ρ κ)
  /-- A task was cut off where it waited, since a time limit had passed. -/
  | timedOut (task : Nat) (w : Waiting δ σ ν ρ κ)
  /-- A task was stopped with the race that it is an operation of. -/
  | stopped (task : Nat) (w : Option (Waiting δ σ ν ρ κ))
  | ended (task : Nat) (s : Settlement ρ κ)

/-- A time limit that a process is under, with what comes behind it: one that was
set in the same turn, or one from before. -/
inductive Limit (δ σ ν ρ κ : Type) where
  | set (ms : Nat) (next : ρ ⊕ ν → Process δ σ ν ρ κ)
  | running (deadline : Alarm) (next : ρ ⊕ ν → Process δ σ ν ρ κ)

namespace Limit

/-- What comes behind the limited process. -/
def next : Limit δ σ ν ρ κ → ρ ⊕ ν → Process δ σ ν ρ κ
  | set _ next => next
  | running _ next => next

/-- Whether the time is up. -/
def Passed (now : Nat) : Limit δ σ ν ρ κ → Prop
  | set ms _ => ms = 0
  | running deadline _ => deadline.due ≤ now

/-- A waiting process put under the limit again. A limit that was set in this
turn gets its alarm now. -/
def resumeIn (w : Waiting δ σ ν ρ κ) (m : Machine δ σ ν ρ κ) :
    Limit δ σ ν ρ κ → Waiting δ σ ν ρ κ × Machine δ σ ν ρ κ
  | set ms next =>
    (.timed ⟨m.now + ms, m.serial⟩ w next, { m with serial := m.serial + 1 })
  | running deadline next => (.timed deadline w next, m)

end Limit

/-- How far a machine has come in a turn. -/
inductive Stage (δ σ ν ρ κ : Type) where
  /-- Between two turns. -/
  | idle
  /-- The task goes on with a process. -/
  | going (task : Machine.Task δ σ ν ρ κ) (p : Process δ σ ν ρ κ)
    (limits : List (Limit δ σ ν ρ κ))
  /-- The task has been woken where it waited. -/
  | woken (task : Machine.Task δ σ ν ρ κ) (w : Waiting δ σ ν ρ κ)
    (limits : List (Limit δ σ ν ρ κ))
  /-- The task waits for the rest of the turn, unless a limit has passed. -/
  | waiting (task : Machine.Task δ σ ν ρ κ) (w : Waiting δ σ ν ρ κ)
    (limits : List (Limit δ σ ν ρ κ))

/-- **A machine in the middle of what it does**, with all that has happened so
far. -/
structure Moment (δ σ ν ρ κ : Type) where
  stage : Stage δ σ ν ρ κ
  machine : Machine δ σ ν ρ κ
  /-- The events so far, the first one first. -/
  past : List (Event δ σ ν ρ κ)

/-- How far a task got in its turn, as a stage. -/
def Progress.stage (task : Machine.Task δ σ ν ρ κ)
    (limits : List (Limit δ σ ν ρ κ)) : Progress δ σ ν ρ κ → Stage δ σ ν ρ κ
  | done r => .going task (.done r) limits
  | crashed a => .going task (.crash a) limits
  | waiting w => .waiting task w limits

/-- Operations of a block are started, as tasks with numbers from a given one
on. -/
def Event.starts (block : Nat) :
    Nat → List (Nat × Process δ σ ν ρ κ) → List (Event δ σ ν ρ κ)
  | _, [] => []
  | task, (index, p) :: rest => .started block index task p :: starts block (task + 1) rest

namespace Machine

/-- What happens when a block is attended that is not over. -/
def launches (block : Nat) (m : Machine δ σ ν ρ κ) : List (Event δ σ ν ρ κ) :=
  match m.blocks.find? fun b => b.id == block with
  | some ⟨_, _, .gathering g⟩ => Event.starts block m.serial g.launch.1
  | _ => []

/-- What happens to the operations of a block that is closed or dropped: those
of a race are stopped. -/
def stops (block : Nat) (m : Machine δ σ ν ρ κ) : List (Event δ σ ν ρ κ) :=
  match m.blocks.find? fun b => b.id == block with
  | some ⟨_, _, .race _⟩ =>
    (m.tasks.filter fun t => t.parent.any fun p => p.1 == block).map fun t =>
      .stopped t.id t.state.waiting?
  | _ => []

/-- What happens when a waiting process is dropped. -/
def drops (w : Waiting δ σ ν ρ κ) (m : Machine δ σ ν ρ κ) : List (Event δ σ ν ρ κ) :=
  w.blocks.flatMap m.stops

end Machine

/-- **A block is opened where a task comes to one** that is not over at once: with
a state, and with the operations that are started. `here` and `next` are those of
the block's node. -/
inductive Process.Opens (here : ν) (next : Settled ρ κ → Process δ σ ν ρ κ) :
    Process δ σ ν ρ κ → Machine.BlockState δ σ ν ρ κ →
    List (Nat × Process δ σ ν ρ κ) → Prop
  | gather {limit stops operations start g}
    (hl : (Gathering.ofOperations limit stops operations).launch = (start, g))
    (h : g.result? = none) :
    Opens here next (.gather limit stops operations here next) (.gathering g) start
  | race {wins operations}
    (h : (Race.mk (ρ := ρ) (κ := κ) wins operations.length []).result? = none) :
    Opens here next (.race wins operations here next)
      (.race ⟨wins, operations.length, []⟩) (Gathering.numbered operations)

/-- **What a task can come to in its turn without touching the machine.** -/
inductive Stage.Moves (m : Machine δ σ ν ρ κ) :
    Stage δ σ ν ρ κ → Stage δ σ ν ρ κ → Prop
  | first {t p} (ht : m.tasks.find? (fun t' => t'.id == t.id) = some t)
    (hs : t.state = .fresh p) : Moves m .idle (.going t p [])
  | wake {t w} (ht : m.tasks.find? (fun t' => t'.id == t.id) = some t)
    (hs : t.state = .waiting w) : Moves m .idle (.woken t w [])
  | sleepZero {task here next limits} :
    Moves m (.going task (.sleep 0 here next) limits) (.going task next limits)
  | limit {task ms body next limits} :
    Moves m (.going task (.timed ms body next) limits)
      (.going task body (.set ms next :: limits))
  | gatherNothing {task limit stops operations here next limits s}
    (h : (Gathering.ofOperations limit stops operations).launch.2.result? = some s) :
    Moves m (.going task (.gather limit stops operations here next) limits)
      (.going task (next s) limits)
  | raceNothing {task wins operations here next limits s}
    (h : (Race.mk (ρ := ρ) (κ := κ) wins operations.length []).result? = some s) :
    Moves m (.going task (.race wins operations here next) limits)
      (.going task (next s) limits)
  | asleep {task alarm here next limits} (h : ¬ alarm.due ≤ m.now) :
    Moves m (.woken task (.asleep alarm here next) limits)
      (.waiting task (.asleep alarm here next) limits)
  | awake {task alarm here next limits} (h : alarm.due ≤ m.now) :
    Moves m (.woken task (.asleep alarm here next) limits) (.going task next limits)
  | wakeLimited {task deadline body next limits} :
    Moves m (.woken task (.timed deadline body next) limits)
      (.woken task body (.running deadline next :: limits))
  | inTime {task r limits} {l : Limit δ σ ν ρ κ} :
    Moves m (.going task (.done r) (l :: limits)) (.going task (l.next (.inl r)) limits)
  | crashOut {task a limits} {l : Limit δ σ ν ρ κ} :
    Moves m (.going task (.crash a) (l :: limits)) (.going task (.crash a) limits)

section

variable {task : Machine.Task δ σ ν ρ κ} {p : Process δ σ ν ρ κ} {w : Waiting δ σ ν ρ κ}
  {limits : List (Limit δ σ ν ρ κ)}

theorem Stage.going_ne_idle : going task p limits ≠ idle := fun h => by cases h

theorem Stage.woken_ne_idle : woken task w limits ≠ idle := fun h => by cases h

theorem Stage.waiting_ne_idle : waiting task w limits ≠ idle := fun h => by cases h

end

open Stage (going_ne_idle woken_ne_idle waiting_ne_idle)

namespace Moment

variable [Deeds δ σ]

/-- **The small steps of a machine.** The processes in `P` can be begun as the
main task when there is none. -/
inductive Next (P : Process δ σ ν ρ κ → Prop) : Moment δ σ ν ρ κ → Moment δ σ ν ρ κ → Prop
  | begin {m past p} (hp : P p) (hm : ∀ t ∈ m.tasks, t.id ≠ Machine.mainId) :
    Next P ⟨.idle, m, past⟩ ⟨.idle, m.begin p, past⟩
  | reorder {m m' past} (h : m.Reordered m') :
    Next P ⟨.idle, m, past⟩ ⟨.idle, m', past⟩
  | move {m past s s'} (h : Stage.Moves m s s') : Next P ⟨s, m, past⟩ ⟨s', m, past⟩
  | forget {m past task before}
    (ht : m.tasks.find? (fun t => t.id == task.id) = some task)
    (hs : task.state = .cancelled before) (hw : before.waiting? = none) :
    Next P ⟨.idle, m, past⟩ ⟨.idle, m.removeTask task.id, past⟩
  | forgetWaiting {m past task before w}
    (ht : m.tasks.find? (fun t => t.id == task.id) = some task)
    (hs : task.state = .cancelled before) (hw : before.waiting? = some w) :
    Next P ⟨.idle, m, past⟩ ⟨.idle, (m.removeTask task.id).drop w,
      past ++ (m.removeTask task.id).drops w⟩
  | act {m past task deed next limits} :
    Next P ⟨.going task (.act deed next) limits, m, past⟩
      ⟨.going task (next m.world) limits,
        { m with world := Deeds.perform deed m.world }, past ++ [.did task.id deed]⟩
  | sleep {m past task ms here next limits} (h : ms ≠ 0) :
    Next P ⟨.going task (.sleep ms here next) limits, m, past⟩
      ⟨.waiting task (.asleep ⟨m.now + ms, m.serial⟩ here next) limits,
        { m with serial := m.serial + 1 }, past⟩
  | opens {m past task node here next state start limits}
    (h : Process.Opens here next node state start) :
    Next P ⟨.going task node limits, m, past⟩
      ⟨.waiting task (.blocked m.serial here next) limits,
        (m.openBlock task.id state start).2,
        past ++ .opened task.id m.serial node
          :: Event.starts m.serial (m.serial + 1) start⟩
  | attend {m past task block here next limits m'} (h : m.attend block = (none, m')) :
    Next P ⟨.woken task (.blocked block here next) limits, m, past⟩
      ⟨.waiting task (.blocked block here next) limits, m', past ++ m.launches block⟩
  | yield {m past task block here next limits s m'}
    (h : m.attend block = (some s, m')) :
    Next P ⟨.woken task (.blocked block here next) limits, m, past⟩
      ⟨.going task (next s) limits, m',
        past ++ .yielded task.id block s :: m.stops block⟩
  | keep {m past task w limits} {l : Limit δ σ ν ρ κ} (h : ¬ l.Passed m.now) :
    Next P ⟨.waiting task w (l :: limits), m, past⟩
      ⟨.waiting task (l.resumeIn w m).1 limits, (l.resumeIn w m).2, past⟩
  | timeOut {m past task w limits} {l : Limit δ σ ν ρ κ} (h : l.Passed m.now) :
    Next P ⟨.waiting task w (l :: limits), m, past⟩
      ⟨.going task (l.next (.inr w.here)) limits, m.drop w,
        past ++ .timedOut task.id w :: m.drops w⟩
  | pause {m past task w} :
    Next P ⟨.waiting task w [], m, past⟩
      ⟨.idle, { m with tasks := m.tasks.map fun t =>
          if t.id = task.id then { t with state := .waiting w } else t }, past⟩
  | finish {m past task r} :
    Next P ⟨.going task (.done r) [], m, past⟩
      ⟨.idle, (m.finish task (.finished r)).2, past ++ [.ended task.id (.finished r)]⟩
  | crash {m past task a} :
    Next P ⟨.going task (.crash a) [], m, past⟩
      ⟨.idle, (m.finish task (.crashed task.id a)).2,
        past ++ [.ended task.id (.crashed task.id a)]⟩

/-- Any number of small steps. -/
abbrev Later (P : Process δ σ ν ρ κ → Prop) :
    Moment δ σ ν ρ κ → Moment δ σ ν ρ κ → Prop :=
  Relation.ReflTransGen (Next P)

variable {P : Process δ σ ν ρ κ → Prop} {a b c : Moment δ σ ν ρ κ}

/-! ## The small steps are those of the machine -/

/-- What has happened stays. -/
theorem Next.past (h : Next P a b) : ∃ es, b.past = a.past ++ es := by
  cases h
  all_goals first
    | exact ⟨_, rfl⟩
    | exact ⟨[], (List.append_nil _).symm⟩

theorem Later.past (h : Later P a b) : ∃ es, b.past = a.past ++ es := by
  induction h with
  | refl => exact ⟨[], (List.append_nil _).symm⟩
  | tail _ h ih =>
    obtain ⟨es, he⟩ := ih
    obtain ⟨es', he'⟩ := h.past
    exact ⟨es ++ es', by rw [he', he, List.append_assoc]⟩

theorem Next.past_subset (h : Next P a b) : a.past ⊆ b.past := by
  obtain ⟨es, he⟩ := h.past
  rw [he]
  exact List.subset_append_left _ _

theorem Later.past_subset (h : Later P a b) : a.past ⊆ b.past := by
  obtain ⟨es, he⟩ := Later.past h
  rw [he]
  exact List.subset_append_left _ _

/-- **What happens between two moments happens with a step** that lies between them. -/
theorem Later.exists_next_of_mem (h : Later P a b) {es : List (Event δ σ ν ρ κ)}
    (hes : b.past = a.past ++ es) {e : Event δ σ ν ρ κ} (hm : e ∈ es) :
    ∃ x y new, Later P a x ∧ Next P x y ∧ Later P y b ∧ y.past = x.past ++ new ∧ e ∈ new := by
  induction h generalizing es with
  | refl =>
    rw [List.self_eq_append_right.mp hes] at hm
    cases hm
  | @tail b c hab h ih =>
    obtain ⟨old, hold⟩ := Later.past hab
    obtain ⟨new, hnew⟩ := h.past
    have hsplit : es = old ++ new := by
      rw [hnew, hold, List.append_assoc] at hes
      exact (List.append_cancel_left hes).symm
    obtain hm | hm := List.mem_append.mp (hsplit ▸ hm)
    · obtain ⟨x, y, new', hx, hxy, hy, hrest⟩ := ih hold hm
      exact ⟨x, y, new', hx, hxy, hy.tail h, hrest⟩
    · exact ⟨b, c, new, hab, h, .refl, hnew, hm⟩

/-- Any number of small steps within a turn. -/
abbrev InTurn (P : Process δ σ ν ρ κ → Prop) :
    Moment δ σ ν ρ κ → Moment δ σ ν ρ κ → Prop :=
  Relation.ReflTransGen fun a b => a.stage ≠ .idle ∧ Next P a b

theorem InTurn.later (h : InTurn P a b) : Later P a b :=
  Relation.ReflTransGen.mono (fun _ _ hn => hn.2) _ _ h

/-- A moment comes to a stage and a machine within a turn, whatever happens on the
way. -/
def Goes (P : Process δ σ ν ρ κ → Prop) (a : Moment δ σ ν ρ κ)
    (stage : Stage δ σ ν ρ κ) (m : Machine δ σ ν ρ κ) : Prop :=
  ∃ past, InTurn P a ⟨stage, m, past⟩

theorem Goes.refl : Goes P a a.stage a.machine :=
  ⟨a.past, .refl⟩

theorem Goes.head {stage : Stage δ σ ν ρ κ} {m : Machine δ σ ν ρ κ}
    (hs : a.stage ≠ .idle) (h : Next P a b) (hb : Goes P b stage m) : Goes P a stage m :=
  hb.imp fun _ hl => .head ⟨hs, h⟩ hl

theorem Goes.trans {s s' : Stage δ σ ν ρ κ} {m m' : Machine δ σ ν ρ κ}
    (h : Goes P a s m) (hs : ∀ past, Goes P ⟨s, m, past⟩ s' m') : Goes P a s' m' := by
  obtain ⟨past, hl⟩ := h
  exact (hs past).imp fun _ hl' => hl.trans hl'

/-- **What a task does in its turn, step by step.** The induction is on the
process; a limited process takes the steps of its body with the limit set. -/
theorem goes_advance (task : Machine.Task δ σ ν ρ κ) :
    ∀ (p : Process δ σ ν ρ κ) (limits : List (Limit δ σ ν ρ κ))
      (m : Machine δ σ ν ρ κ) (past : List (Event δ σ ν ρ κ)),
      Goes P ⟨.going task p limits, m, past⟩
        ((Machine.advance task.id p m).1.stage task limits)
        (Machine.advance task.id p m).2
  | .done _, _, _, _ => .refl
  | .crash _, _, _, _ => .refl
  | .act deed next, limits, m, past => .head going_ne_idle .act <| by
    unfold Machine.advance
    exact goes_advance task (next m.world) limits _ _
  | .sleep ms here next, limits, m, past => by
    unfold Machine.advance
    split
    · rename_i h
      subst h
      exact .head going_ne_idle (.move .sleepZero) (goes_advance task next limits _ _)
    · rename_i h
      exact .head going_ne_idle (.sleep h) .refl
  | .timed ms body next, limits, m, past => .head going_ne_idle (.move .limit) <| by
    unfold Machine.advance
    refine .trans (goes_advance task body (.set ms next :: limits) m _) fun past => ?_
    generalize Machine.advance task.id body m = progress
    obtain ⟨_ | _ | w, m'⟩ := progress
    · exact .head going_ne_idle (.move .inTime) (goes_advance task _ limits _ _)
    · exact .head going_ne_idle (.move .crashOut) .refl
    · dsimp only
      split
      · rename_i h
        exact .head waiting_ne_idle (.timeOut h) (goes_advance task _ limits _ _)
      · rename_i h
        exact .head waiting_ne_idle (.keep h) .refl
  | .gather limit stops operations here next, limits, m, past => by
    unfold Machine.advance
    generalize hl : (Gathering.ofOperations limit stops operations).launch = a
    obtain ⟨start, g⟩ := a
    dsimp only
    split
    · rename_i h
      refine .head going_ne_idle (.move (.gatherNothing ?_)) (goes_advance task _ limits _ _)
      rw [hl]
      exact h
    · rename_i h
      exact .head going_ne_idle (.opens (.gather hl h)) .refl
  | .race wins operations here next, limits, m, past => by
    unfold Machine.advance
    dsimp only
    split
    · rename_i h
      exact .head going_ne_idle (.move (.raceNothing h)) (goes_advance task _ limits _ _)
    · rename_i h
      exact .head going_ne_idle (.opens (.race h)) .refl

/-- What a task does that is woken, step by step. -/
theorem goes_resume (task : Machine.Task δ σ ν ρ κ) :
    ∀ (w : Waiting δ σ ν ρ κ) (limits : List (Limit δ σ ν ρ κ))
      (m : Machine δ σ ν ρ κ) (past : List (Event δ σ ν ρ κ)),
      Goes P ⟨.woken task w limits, m, past⟩
        ((Machine.resume task.id w m).1.stage task limits)
        (Machine.resume task.id w m).2
  | .asleep alarm here next, limits, m, past => by
    unfold Machine.resume
    split
    · rename_i h
      exact .head woken_ne_idle (.move (.awake h)) (goes_advance task next limits _ _)
    · rename_i h
      exact .head woken_ne_idle (.move (.asleep h)) .refl
  | .blocked block here next, limits, m, past => by
    unfold Machine.resume
    generalize h : m.attend block = a
    obtain ⟨_ | s, m'⟩ := a
    · exact .head woken_ne_idle (.attend h) .refl
    · exact .head woken_ne_idle (.yield h) (goes_advance task (next s) limits _ _)
  | .timed deadline body next, limits, m, past => .head woken_ne_idle (.move .wakeLimited) <| by
    unfold Machine.resume
    refine .trans (goes_resume task body (.running deadline next :: limits) m _)
      fun past => ?_
    generalize Machine.resume task.id body m = progress
    obtain ⟨_ | _ | w, m'⟩ := progress
    · exact .head going_ne_idle (.move .inTime) (goes_advance task _ limits _ _)
    · exact .head going_ne_idle (.move .crashOut) .refl
    · dsimp only
      split
      · rename_i h
        exact .head waiting_ne_idle (.timeOut h) (goes_advance task _ limits _ _)
      · rename_i h
        exact .head waiting_ne_idle (.keep h) .refl

/-- The last step of a turn. -/
theorem inTurn_conclude (task : Machine.Task δ σ ν ρ κ) (p : Progress δ σ ν ρ κ)
    (m : Machine δ σ ν ρ κ) (past : List (Event δ σ ν ρ κ)) :
    ∃ past', InTurn P ⟨p.stage task [], m, past⟩
        ⟨.idle, (Machine.conclude task (p, m)).2, past'⟩
      ∧ ∀ s, (Machine.conclude task (p, m)).1 = some s → .ended task.id s ∈ past' := by
  -- only the main task answers, with how it has ended
  have hanswer : ∀ s s' : Settlement ρ κ, (m.finish task s).1 = some s' → s' = s := by
    intro s s' h
    unfold Machine.finish at h
    dsimp only at h
    split at h
    · cases h
    · exact (Option.some.inj h).symm
  cases p with
  | done r =>
    refine ⟨_, .single ⟨going_ne_idle, .finish⟩, fun s hs => ?_⟩
    rw [hanswer _ s hs]
    exact List.mem_append_right _ List.mem_cons_self
  | crashed a =>
    refine ⟨_, .single ⟨going_ne_idle, .crash⟩, fun s hs => ?_⟩
    rw [hanswer _ s hs]
    exact List.mem_append_right _ List.mem_cons_self
  | waiting w => exact ⟨_, .single ⟨waiting_ne_idle, .pause⟩, nofun⟩

/-- **A turn is made of small steps.** -/
theorem later_turn (id : Nat) (m : Machine δ σ ν ρ κ) (past : List (Event δ σ ν ρ κ)) :
    ∃ past', Later P ⟨.idle, m, past⟩ ⟨.idle, (m.turn id).2, past'⟩
      ∧ ∀ s, (m.turn id).1 = some s → .ended id s ∈ past' := by
  unfold Machine.turn
  split
  · exact ⟨past, .refl, nofun⟩
  · rename_i task hf
    have hid := List.find?_some hf
    have hid : task.id = id := beq_iff_eq.mp hid
    subst hid
    split
    · rename_i p hs
      obtain ⟨past₁, h₁⟩ := goes_advance (P := P) task p [] m past
      obtain ⟨past₂, h₂, he⟩ := inTurn_conclude (P := P) task
        (Machine.advance task.id p m).1 (Machine.advance task.id p m).2 past₁
      exact ⟨past₂, .head (.move (.first hf hs)) (InTurn.later (h₁.trans h₂)), he⟩
    · rename_i w hs
      obtain ⟨past₁, h₁⟩ := goes_resume (P := P) task w [] m past
      obtain ⟨past₂, h₂, he⟩ := inTurn_conclude (P := P) task
        (Machine.resume task.id w m).1 (Machine.resume task.id w m).2 past₁
      exact ⟨past₂, .head (.move (.wake hf hs)) (InTurn.later (h₁.trans h₂)), he⟩
    · rename_i before hs
      split
      · rename_i w hw
        exact ⟨_, .single (.forgetWaiting hf hs hw), nofun⟩
      · rename_i hw
        exact ⟨_, .single (.forget hf hs hw), nofun⟩

/-- What a machine does by itself is made of small steps. -/
theorem later_runTurns (turns : Nat) (m : Machine δ σ ν ρ κ)
    (past : List (Event δ σ ν ρ κ)) :
    ∃ past', Later P ⟨.idle, m, past⟩ ⟨.idle, (Machine.runTurns turns m).2, past'⟩
      ∧ ∀ r, (Machine.runTurns turns m).1 = .finished r →
          ∃ id, .ended id (.finished r) ∈ past' := by
  induction turns generalizing m past with
  | zero => exact ⟨past, .refl, fun r hr => by cases hr⟩
  | succ turns ih =>
    unfold Machine.runTurns
    split
    · rename_i id m₁ hn
      have hr : Next P ⟨.idle, m, past⟩ ⟨.idle, m₁, past⟩ := .reorder (.of_next? hn)
      obtain ⟨past₂, h₂, he⟩ := later_turn (P := P) id m₁ past
      split
      · rename_i r m₂ ht
        rw [ht] at h₂ he
        refine ⟨past₂, .head hr h₂, fun r' hr' => ⟨id, ?_⟩⟩
        cases hr'
        exact he _ rfl
      · rename_i ht
        rw [ht] at h₂
        exact ⟨past₂, .head hr h₂, fun r' hr' => by cases hr'⟩
      · rename_i ht
        rw [ht] at h₂
        obtain ⟨past₃, h₃, he₃⟩ := ih _ past₂
        exact ⟨past₃, .head hr (h₂.trans h₃), he₃⟩
    · split
      · rename_i hc
        obtain ⟨past₃, h₃, he₃⟩ := ih _ past
        exact ⟨past₃, .head (.reorder (.of_moveClock hc)) h₃, he₃⟩
      · exact ⟨past, .refl, fun r hr => by cases hr⟩

/-- **A run of a machine is made of small steps**, and its end is among the
events. -/
theorem later_run {p : Process δ σ ν ρ κ} (hp : P p) (turns : Nat)
    {m : Machine δ σ ν ρ κ} (hm : ∀ t ∈ m.tasks, t.id ≠ Machine.mainId)
    (past : List (Event δ σ ν ρ κ)) :
    ∃ past', Later P ⟨.idle, m, past⟩ ⟨.idle, (Machine.run turns p m).2, past'⟩
      ∧ ∀ r, (Machine.run turns p m).1 = .finished r →
          ∃ id, .ended id (.finished r) ∈ past' := by
  obtain ⟨past', h, he⟩ := later_runTurns (P := P) turns (m.begin p) past
  exact ⟨past', .head (.begin hp hm) h, he⟩

end Moment

end Playbook
