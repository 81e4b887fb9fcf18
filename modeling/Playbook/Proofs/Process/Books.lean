import Playbook.Proofs.Process.Change

/-!
# The books of blocks and the tasks of a machine

The books of a block say which of its operations have been started and which of
them are running. This module ties them to the rest of the machine: the running
operations of a block that is not over are tasks that have not been stopped, and
what it has started is what the past tells of it (`Story.Booked`).

So the books are sound at all times (`Machine.BlockState.Sound`), and what is
true of a block by its books is true of its tasks. Every change keeps it so
(`Change.booked`).
-/

namespace Playbook

variable {δ σ ν ρ κ : Type}

/-- The operations of a block. -/
def Process.operations : Process δ σ ν ρ κ → List (Process δ σ ν ρ κ)
  | gather _ _ operations _ _ => operations
  | race _ operations _ _ => operations
  | _ => []

namespace Machine

namespace BlockState

/-- The positions of the started operations. Those of a race are started at
once. -/
def started : BlockState δ σ ν ρ κ → List Nat
  | gathering g => g.started
  | race r => List.range r.total

/-- The positions of the running operations. -/
def running : BlockState δ σ ν ρ κ → List Nat
  | gathering g => g.running
  | race r => r.running

/-- The settlements so far. -/
def settled : BlockState δ σ ν ρ κ → Settled ρ κ
  | gathering g => g.settled
  | race r => r.settled

/-- **The books of a block are sound**, for the node that it was opened at. -/
def Sound : Process δ σ ν ρ κ → BlockState δ σ ν ρ κ → Prop
  | .gather limit stops operations _ _, gathering g => g.Sound limit stops operations
  | .race wins operations _ _, race r => r.Sound wins operations
  | _, _ => False

/-- Soundness goes by the kind of block. -/
theorem Sound.shape {node : Process δ σ ν ρ κ} {b : BlockState δ σ ν ρ κ}
    (h : b.Sound node) :
    (∃ limit stops operations here next g, node = .gather limit stops operations here next
        ∧ b = .gathering g ∧ g.Sound limit stops operations)
      ∨ ∃ wins operations here next r, node = .race wins operations here next
        ∧ b = .race r ∧ r.Sound wins operations := by
  cases node with
  | gather limit stops operations here next =>
    cases b with
    | gathering g => exact .inl ⟨_, _, _, _, _, g, rfl, rfl, h⟩
    | race r => exact h.elim
  | race wins operations here next =>
    cases b with
    | gathering g => exact h.elim
    | race r => exact .inr ⟨_, _, _, _, r, rfl, rfl, h⟩
  | done | crash | act | sleep | timed => exact h.elim

variable {node : Process δ σ ν ρ κ} {b : BlockState δ σ ν ρ κ}

theorem Sound.running_nodup (h : b.Sound node) : b.running.Nodup := by
  obtain ⟨_, _, _, _, _, g, rfl, rfl, h⟩ | ⟨_, _, _, _, r, rfl, rfl, h⟩ := h.shape
  · exact Gathering.Sound.running_nodup h
  · exact Race.Sound.running_nodup r

/-- Operations are started in order. -/
theorem Sound.started_eq (h : b.Sound node) :
    ∃ k ≤ node.operations.length, b.started = List.range k := by
  obtain ⟨_, _, _, _, _, g, rfl, rfl, h⟩ | ⟨_, _, _, _, r, rfl, rfl, h⟩ := h.shape
  · exact ⟨_, h.started_le, h.started_eq⟩
  · exact ⟨_, Nat.le_of_eq h.total_eq, rfl⟩

@[simp] theorem started_settle (i : Nat) (s : Settlement ρ κ) :
    (b.settle i s).started = b.started := by
  cases b <;> rfl

theorem running_settle (i : Nat) (s : Settlement ρ κ) :
    (b.settle i s).running = b.running.filter fun j => j ≠ i := by
  cases b with
  | gathering g => exact Gathering.Sound.running_settle i s g
  | race r => exact Race.Sound.running_settle i s r

/-- **The settling of a running operation keeps the books sound.** -/
theorem Sound.settle (h : b.Sound node) {i : Nat} (hi : i ∈ b.running)
    (s : Settlement ρ κ) : (b.settle i s).Sound node := by
  obtain ⟨_, _, _, _, _, g, rfl, rfl, h⟩ | ⟨_, _, _, _, r, rfl, rfl, h⟩ := h.shape
  · exact Gathering.Sound.settle h hi s
  · exact Race.Sound.settle h hi s

/-- **A block is opened with sound books**, and what it starts are operations of
its node. -/
theorem sound_of_opens {here : ν} {next : Settled ρ κ → Process δ σ ν ρ κ}
    {start : List (Nat × Process δ σ ν ρ κ)} (h : Process.Opens here next node b start) :
    b.Sound node ∧ b.started = start.map Prod.fst ∧ b.running = start.map Prod.fst
      ∧ ∀ op ∈ start, node.operations[op.1]? = some op.2 := by
  cases h with
  | @gather limit stops operations start g hl h =>
    have hs : Gathering.Sound limit stops operations
        (Gathering.ofOperations (ρ := ρ) (κ := κ) limit stops operations) :=
      .ofOperations limit stops operations
    have hnext := hs.launch
    have hrun := hs.running_launch
    have hmem : ∀ op ∈ (Gathering.ofOperations limit stops operations :
        Gathering (Process δ σ ν ρ κ) ρ κ).launch.1, operations[op.1]? = some op.2 :=
      fun _ hop => hs.mem_of_mem_launch hop
    rw [hl] at hnext hrun hmem
    refine ⟨hnext, ?_, hrun, hmem⟩
    have hstarted := Gathering.launch_started
      (Gathering.ofOperations (ρ := ρ) (κ := κ) limit stops operations)
    rw [hl] at hstarted
    exact hstarted
  | @race wins operations h =>
    have hmap := Gathering.map_fst_numbered operations
    refine ⟨Race.Sound.ofOperations wins operations, hmap.symm, ?_,
      fun op => Gathering.getElem?_of_mem_numbered⟩
    rw [hmap]
    exact List.filter_eq_self.mpr fun _ _ => rfl

/-- What a gathering starts later are operations of its node, too. -/
theorem Sound.launch {g : Gathering (Process δ σ ν ρ κ) ρ κ}
    (h : (gathering g).Sound node) :
    (gathering g.launch.2).Sound node
      ∧ (gathering (σ := σ) (ν := ν) g.launch.2).running
          = (gathering (σ := σ) (ν := ν) g).running ++ g.launch.1.map Prod.fst
      ∧ ∀ op ∈ g.launch.1, node.operations[op.1]? = some op.2 := by
  obtain ⟨_, _, _, _, _, g', rfl, hg, h⟩ | ⟨_, _, _, _, _, rfl, hg, -⟩ := h.shape
  · cases hg
    exact ⟨h.launch, h.running_launch, fun op => h.mem_of_mem_launch⟩
  · cases hg

end BlockState

/-- **The running operations of a block are tasks**, and none of them has been
stopped. -/
structure Staffed (tasks : List (Task δ σ ν ρ κ)) (b : Block δ σ ν ρ κ) : Prop where
  running : ∀ i, i ∈ b.state.running ↔ ∃ t ∈ tasks, t.parent = some (b.id, i)
  alive : ∀ t ∈ tasks, t.isIn b.id = true → t.state.isCancelled = false

namespace Staffed

variable {tasks : List (Task δ σ ν ρ κ)} {b : Block δ σ ν ρ κ}

/-- Tasks can come further. -/
theorem map (h : Staffed tasks b) (f : Task δ σ ν ρ κ → Task δ σ ν ρ κ)
    (hp : ∀ t, (f t).parent = t.parent)
    (hc : ∀ t ∈ tasks, t.isIn b.id = true → t.state.isCancelled = false →
      (f t).state.isCancelled = false) : Staffed (tasks.map f) b where
  running i := by
    rw [h.running i]
    constructor
    · rintro ⟨t, ht, hpar⟩
      exact ⟨f t, List.mem_map_of_mem ht, (hp t).trans hpar⟩
    · rintro ⟨t, ht, hpar⟩
      obtain ⟨t', ht', rfl⟩ := List.mem_map.mp ht
      exact ⟨t', ht', (hp t').symm.trans hpar⟩
  alive t ht hin := by
    obtain ⟨t', ht', rfl⟩ := List.mem_map.mp ht
    have hin : t'.isIn b.id = true := Task.isIn_congr (hp t') b.id ▸ hin
    exact hc t' ht' hin (h.alive t' ht' hin)

/-- Other tasks can come and go. -/
theorem of_iff (h : Staffed tasks b) {tasks' : List (Task δ σ ν ρ κ)}
    (ht : ∀ t, t.isIn b.id = true → (t ∈ tasks' ↔ t ∈ tasks)) : Staffed tasks' b where
  running i := by
    rw [h.running i]
    constructor
    · rintro ⟨t, hm, hp⟩
      exact ⟨t, (ht t (Task.isIn_iff.mpr ⟨i, hp⟩)).mpr hm, hp⟩
    · rintro ⟨t, hm, hp⟩
      exact ⟨t, (ht t (Task.isIn_iff.mpr ⟨i, hp⟩)).mp hm, hp⟩
  alive t hm hin := h.alive t ((ht t hin).mp hm) hin

end Staffed

theorem map_parent_spawned (block task : Nat)
    (operations : List (Nat × Process δ σ ν ρ κ)) :
    (spawned block task operations).map Task.parent
      = operations.map fun op => some (block, op.1) := by
  induction operations generalizing task with
  | nil => rfl
  | cons op rest ih =>
    show some (block, op.1) :: (spawned block (task + 1) rest).map Task.parent = _
    rw [ih]
    rfl

/-- The tasks of a block are at the positions that were started. -/
theorem exists_mem_spawned {block task i : Nat}
    {operations : List (Nat × Process δ σ ν ρ κ)} :
    (∃ t ∈ spawned block task operations, t.parent = some (block, i))
      ↔ i ∈ operations.map Prod.fst := by
  have hm : some (block, i) ∈ (spawned block task operations).map Task.parent
      ↔ i ∈ operations.map Prod.fst := by
    rw [map_parent_spawned]
    simp
  rw [← hm, List.mem_map]

/-- Operations at different positions get tasks at different positions. -/
theorem nodup_map_parent_spawned {block task : Nat}
    {operations : List (Nat × Process δ σ ν ρ κ)} (h : (operations.map Prod.fst).Nodup) :
    ((spawned block task operations).map Task.parent).Nodup := by
  have hpair : operations.map (fun op => some (block, op.1))
      = (operations.map Prod.fst).map fun i => some (block, i) := by
    rw [List.map_map]
    rfl
  rw [map_parent_spawned, hpair]
  exact h.map fun a b hab => (Prod.ext_iff.mp (Option.some.inj hab)).2

namespace Staffed

variable {tasks : List (Task δ σ ν ρ κ)} {b : Block δ σ ν ρ κ} {task : Nat}
  {start : List (Nat × Process δ σ ν ρ κ)}

/-- What a block starts is among its tasks then. -/
theorem spawned {before : List Nat}
    (hbefore : ∀ i, i ∈ before ↔ ∃ t ∈ tasks, t.parent = some (b.id, i))
    (halive : ∀ t ∈ tasks, t.isIn b.id = true → t.state.isCancelled = false)
    (hrunning : b.state.running = before ++ start.map Prod.fst) :
    Staffed (tasks ++ Machine.spawned b.id task start) b where
  running i := by
    rw [hrunning, List.mem_append, hbefore, ← exists_mem_spawned]
    simp only [List.mem_append]
    constructor
    · rintro (⟨t, hm, hp⟩ | ⟨t, hm, hp⟩)
      · exact ⟨t, .inl hm, hp⟩
      · exact ⟨t, .inr hm, hp⟩
    · rintro ⟨t, hm | hm, hp⟩
      · exact .inl ⟨t, hm, hp⟩
      · exact .inr ⟨t, hm, hp⟩
  alive t hm hin := by
    obtain hm | hm := List.mem_append.mp hm
    · exact halive t hm hin
    · obtain ⟨-, -, op, -, -, hs, -⟩ := of_mem_spawned hm
      rw [hs]
      rfl

/-- What other blocks start is none of its tasks. -/
theorem spawned_of_ne (h : Staffed tasks b) {block : Nat} (hne : b.id ≠ block) :
    Staffed (tasks ++ Machine.spawned block task start) b := by
  refine h.of_iff fun t hin => ?_
  rw [List.mem_append, or_iff_left]
  intro hm
  obtain ⟨-, -, op, -, hpar, -⟩ := of_mem_spawned hm
  exact hne (Task.isIn_inj hin (Task.isIn_iff.mpr ⟨op.1, hpar⟩))

end Staffed

end Machine

/-! ## What the past tells of blocks -/

/-- The positions at which operations of a block have been started, in order. -/
def Event.begun (block : Nat) (past : List (Event δ σ ν ρ κ)) : List Nat :=
  past.filterMap fun
    | started c i _ _ => if c = block then some i else none
    | _ => none

namespace Event

variable {block : Nat} {past es : List (Event δ σ ν ρ κ)}

theorem begun_append : begun block (past ++ es) = begun block past ++ begun block es :=
  List.filterMap_append

theorem begun_of_not_isNew (h : ∀ e ∈ es, e.isNew = false) : begun block es = [] := by
  refine List.filterMap_eq_nil_iff.mpr fun e he => ?_
  have hn := h e he
  cases e with
  | started => cases hn
  | _ => rfl

/-- Only operations of a block count. -/
theorem begun_eq_nil (h : ∀ i t p, .started block i t p ∉ es) : begun block es = [] := by
  refine List.filterMap_eq_nil_iff.mpr fun e he => ?_
  cases e with
  | started c i t p =>
    have hne : c ≠ block := fun hc => h i t p (hc ▸ he)
    exact if_neg hne
  | _ => rfl

theorem begun_starts (block task : Nat) (operations : List (Nat × Process δ σ ν ρ κ)) :
    begun block (starts block task operations) = operations.map Prod.fst := by
  induction operations generalizing task with
  | nil => rfl
  | cons op rest ih =>
    have hhead : begun block (starts block task (op :: rest))
        = op.1 :: begun block (starts block (task + 1) rest) :=
      List.filterMap_cons_some (if_pos rfl)
    rw [hhead, ih]
    rfl

theorem begun_starts_of_ne {c : Nat} (h : c ≠ block) (task : Nat)
    (operations : List (Nat × Process δ σ ν ρ κ)) :
    begun block (starts c task operations) = [] := by
  refine begun_eq_nil fun i t p hm => ?_
  obtain ⟨_, -, _, he, -⟩ := Machine.of_mem_starts hm
  cases he
  exact h rfl

/-- A task is started once. -/
theorem starts_inj {task c i c' i' t : Nat} {p p' : Process δ σ ν ρ κ}
    {operations : List (Nat × Process δ σ ν ρ κ)}
    (h : .started c i t p ∈ starts block task operations)
    (h' : .started c' i' t p' ∈ starts block task operations) :
    c = c' ∧ i = i' ∧ p = p' := by
  induction operations generalizing task with
  | nil => cases h
  | cons op rest ih =>
    obtain h | h := List.mem_cons.mp h
    · cases h
      obtain h' | h' := List.mem_cons.mp h'
      · cases h'
        exact ⟨rfl, rfl, rfl⟩
      · obtain ⟨_, -, _, he, hlt, -⟩ := Machine.of_mem_starts h'
        cases he
        omega
    · obtain h' | h' := List.mem_cons.mp h'
      · cases h'
        obtain ⟨_, -, _, he, hlt, -⟩ := Machine.of_mem_starts h
        cases he
        omega
      · exact ih h h'

end Event

/-! ## The books and the past -/

open Machine (Task Block BlockState Staffed)

/-- **The books of all blocks agree with the tasks and with the past.** -/
structure Story.Booked (s : Story δ σ ν ρ κ) : Prop where
  opened_inj : ∀ u u' c n n', .opened u c n ∈ s.past → .opened u' c n' ∈ s.past →
    u = u' ∧ n = n'
  started_inj : ∀ c c' i i' t p p', .started c i t p ∈ s.past →
    .started c' i' t p' ∈ s.past → c = c' ∧ i = i' ∧ p = p'
  started_opened : ∀ c i t p, .started c i t p ∈ s.past →
    ∃ u n, .opened u c n ∈ s.past ∧ n.operations[i]? = some p
  begun : ∀ u c n, .opened u c n ∈ s.past →
    ∃ k ≤ n.operations.length, Event.begun c s.past = List.range k
  task_started : ∀ t ∈ s.machine.tasks, ∀ c i, t.parent = some (c, i) →
    ∃ p, .started c i t.id p ∈ s.past
  parent_inj : ∀ t ∈ s.machine.tasks, ∀ t' ∈ s.machine.tasks, ∀ c i,
    t.parent = some (c, i) → t'.parent = some (c, i) → t = t'
  live : ∀ b ∈ s.machine.blocks, ∃ n, .opened b.owner b.id n ∈ s.past ∧ b.state.Sound n
    ∧ Event.begun b.id s.past = b.state.started ∧ Staffed s.machine.tasks b

namespace Story.Booked

variable {s : Story δ σ ν ρ κ}

theorem ofWorld (w : σ) : (⟨.ofWorld w, []⟩ : Story δ σ ν ρ κ).Booked where
  opened_inj := nofun
  started_inj := nofun
  started_opened := nofun
  begun := nofun
  task_started := nofun
  parent_inj := nofun
  live := nofun

/-- Operations come further or are forgotten, and nothing new is told. What is left to
show is that the blocks that are left still have their tasks. -/
theorem of_sublist (h : s.Booked) {m : Machine δ σ ν ρ κ} {es : List (Event δ σ ν ρ κ)}
    (f : Task δ σ ν ρ κ → Task δ σ ν ρ κ) (hid : ∀ t, (f t).id = t.id)
    (hp : ∀ t, (f t).parent = t.parent)
    (ht : ∀ t ∈ m.tasks, t.parent ≠ none → ∃ t' ∈ s.machine.tasks, t = f t')
    (he : ∀ e ∈ es, e.isNew = false)
    (hl : ∀ b ∈ m.blocks, ∃ n, .opened b.owner b.id n ∈ s.past ∧ b.state.Sound n
      ∧ Event.begun b.id s.past = b.state.started ∧ Staffed m.tasks b) :
    Story.Booked ⟨m, s.past ++ es⟩ where
  opened_inj u u' c n n' hm hm' :=
    h.opened_inj u u' c n n' (Event.mem_of_isNew he hm rfl) (Event.mem_of_isNew he hm' rfl)
  started_inj c c' i i' t p p' hm hm' :=
    h.started_inj c c' i i' t p p' (Event.mem_of_isNew he hm rfl)
      (Event.mem_of_isNew he hm' rfl)
  started_opened c i t p hm := by
    obtain ⟨u, n, ho, hop⟩ := h.started_opened c i t p (Event.mem_of_isNew he hm rfl)
    exact ⟨u, n, List.mem_append_left es ho, hop⟩
  begun u c n hm := by
    obtain ⟨k, hk, hb⟩ := h.begun u c n (Event.mem_of_isNew he hm rfl)
    refine ⟨k, hk, ?_⟩
    rw [Event.begun_append, Event.begun_of_not_isNew he, List.append_nil, hb]
  task_started t hm c i hpar := by
    obtain ⟨t', hm', rfl⟩ := ht t hm (by simp [hpar])
    obtain ⟨p, hs⟩ := h.task_started t' hm' c i ((hp t').symm.trans hpar)
    exact ⟨p, List.mem_append_left es ((hid t').symm ▸ hs)⟩
  parent_inj t hm t' hm' c i hpar hpar' := by
    obtain ⟨u, hu, rfl⟩ := ht t hm (by simp [hpar])
    obtain ⟨u', hu', rfl⟩ := ht t' hm' (by simp [hpar'])
    rw [h.parent_inj u hu u' hu' c i ((hp u).symm.trans hpar) ((hp u').symm.trans hpar')]
  live b hb := by
    obtain ⟨n, ho, hs, hbegun, hst⟩ := hl b hb
    refine ⟨n, List.mem_append_left es ho, hs, ?_, hst⟩
    rw [Event.begun_append, Event.begun_of_not_isNew he, List.append_nil, hbegun]

/-- A block is told of that nothing was told of before. -/
theorem opens (h : s.Booked) (hn : s.Numbered) {m : Machine δ σ ν ρ κ} (task : Nat)
    (node : Process δ σ ν ρ κ) (ht : m.tasks = s.machine.tasks)
    (hb : m.blocks = s.machine.blocks) :
    Story.Booked ⟨m, s.past ++ [.opened task s.machine.serial node]⟩ := by
  have hnew : ∀ u n, .opened u s.machine.serial n ∉ s.past := fun u n hm =>
    Nat.lt_irrefl _ (hn.opened u _ n hm).2
  have hbegun : ∀ c, Event.begun c (s.past ++ [.opened task s.machine.serial node])
      = Event.begun c s.past := fun c => by
    rw [Event.begun_append]
    exact List.append_nil _
  have hstarted : ∀ {c i t p}, .started c i t p
      ∈ s.past ++ [.opened task s.machine.serial node] → .started c i t p ∈ s.past := by
    intro c i t p hm
    obtain hm | hm := List.mem_append.mp hm
    · exact hm
    · cases List.mem_singleton.mp hm
  exact {
    opened_inj := fun u u' c n n' hm hm' => by
      obtain hm | hm := List.mem_append.mp hm
      · obtain hm' | hm' := List.mem_append.mp hm'
        · exact h.opened_inj u u' c n n' hm hm'
        · cases List.mem_singleton.mp hm'
          exact absurd hm (hnew u n)
      · cases List.mem_singleton.mp hm
        obtain hm' | hm' := List.mem_append.mp hm'
        · exact absurd hm' (hnew u' n')
        · cases List.mem_singleton.mp hm'
          exact ⟨rfl, rfl⟩
    started_inj := fun c c' i i' t p p' hm hm' =>
      h.started_inj c c' i i' t p p' (hstarted hm) (hstarted hm')
    started_opened := fun c i t p hm => by
      obtain ⟨u, n, ho, hop⟩ := h.started_opened c i t p (hstarted hm)
      exact ⟨u, n, List.mem_append_left _ ho, hop⟩
    begun := fun u c n hm => by
      rw [hbegun]
      obtain hm | hm := List.mem_append.mp hm
      · exact h.begun u c n hm
      · cases List.mem_singleton.mp hm
        refine ⟨0, Nat.zero_le _, Event.begun_eq_nil fun i t p hm => ?_⟩
        obtain ⟨u, n, ho, -⟩ := h.started_opened _ i t p hm
        exact hnew u n ho
    task_started := fun t hm c i hp => by
      obtain ⟨p, hs⟩ := h.task_started t (ht ▸ hm) c i hp
      exact ⟨p, List.mem_append_left _ hs⟩
    parent_inj := fun t hm t' hm' => h.parent_inj t (ht ▸ hm) t' (ht ▸ hm')
    live := fun b hm => by
      obtain ⟨n, ho, hs, hbeg, hst⟩ := h.live b (hb ▸ hm)
      refine ⟨n, List.mem_append_left _ ho, hs, (hbegun _).trans hbeg, ?_⟩
      show Staffed m.tasks b
      rw [ht]
      exact hst }

/-- **Operations of a block are started.** Its books say so, and what was running
before was as many tasks. -/
theorem spawned (h : s.Booked) (hn : s.Numbered) {m : Machine δ σ ν ρ κ} {B : Block δ σ ν ρ κ}
    {node : Process δ σ ν ρ κ} {start : List (Nat × Process δ σ ν ρ κ)} {before : List Nat}
    (ho : .opened B.owner B.id node ∈ s.past) (hsound : B.state.Sound node)
    (hbefore : ∀ i, i ∈ before ↔ ∃ t ∈ s.machine.tasks, t.parent = some (B.id, i))
    (halive : ∀ t ∈ s.machine.tasks, t.isIn B.id = true → t.state.isCancelled = false)
    (hrunning : B.state.running = before ++ start.map Prod.fst)
    (hstarted : B.state.started = Event.begun B.id s.past ++ start.map Prod.fst)
    (hops : ∀ op ∈ start, node.operations[op.1]? = some op.2)
    (ht : m.tasks = s.machine.tasks ++ Machine.spawned B.id s.machine.serial start)
    (hb : ∀ b ∈ m.blocks, b = B ∨ b ∈ s.machine.blocks ∧ b.id ≠ B.id) :
    Story.Booked ⟨m, s.past ++ Event.starts B.id s.machine.serial start⟩ := by
  have hbegun : Event.begun B.id (s.past ++ Event.starts B.id s.machine.serial start)
      = B.state.started := by
    rw [Event.begun_append, Event.begun_starts, hstarted]
  have hother : ∀ c, c ≠ B.id →
      Event.begun c (s.past ++ Event.starts B.id s.machine.serial start)
        = Event.begun c s.past := by
    intro c hc
    rw [Event.begun_append, Event.begun_starts_of_ne hc.symm, List.append_nil]
  have hopened : ∀ {u c n}, .opened u c n
      ∈ s.past ++ Event.starts B.id s.machine.serial start → .opened u c n ∈ s.past := by
    intro u c n hm
    obtain hm | hm := List.mem_append.mp hm
    · exact hm
    · obtain ⟨_, -, _, he, -⟩ := Machine.of_mem_starts hm
      cases he
  have hfresh : ∀ {c i t p}, .started c i t p ∈ s.past →
      ∀ {c' i' p'}, .started c' i' t p' ∉ Event.starts B.id s.machine.serial start := by
    intro c i t p hm c' i' p' hm'
    obtain ⟨_, -, _, he, hle, -⟩ := Machine.of_mem_starts hm'
    cases he
    exact absurd (hn.started c i t p hm).2 (Nat.not_lt.mpr hle)
  -- what runs is at different positions, so it was not running before
  have hnodup := hsound.running_nodup
  rw [hrunning] at hnodup
  obtain ⟨-, hnodup, hdisjoint⟩ := List.nodup_append.mp hnodup
  have hne : ∀ t ∈ s.machine.tasks, ∀ t' ∈ Machine.spawned B.id s.machine.serial start,
      ∀ c i, t.parent = some (c, i) → t'.parent ≠ some (c, i) := by
    intro t hm t' hm' c i hp hp'
    obtain ⟨-, -, op, hop, hpar, -⟩ := Machine.of_mem_spawned hm'
    rw [hpar] at hp'
    cases hp'
    exact hdisjoint _ ((hbefore _).mpr ⟨t, hm, hp⟩) _ (List.mem_map_of_mem hop) rfl
  exact {
    opened_inj := fun u u' c n n' hm hm' =>
      h.opened_inj u u' c n n' (hopened hm) (hopened hm')
    started_inj := fun c c' i i' t p p' hm hm' => by
      obtain hm | hm := List.mem_append.mp hm
      · obtain hm' | hm' := List.mem_append.mp hm'
        · exact h.started_inj c c' i i' t p p' hm hm'
        · exact absurd hm' (hfresh hm)
      · obtain hm' | hm' := List.mem_append.mp hm'
        · exact absurd hm (hfresh hm')
        · exact Event.starts_inj hm hm'
    started_opened := fun c i t p hm => by
      obtain hm | hm := List.mem_append.mp hm
      · obtain ⟨u, n, hu, hop⟩ := h.started_opened c i t p hm
        exact ⟨u, n, List.mem_append_left _ hu, hop⟩
      · obtain ⟨op, hop, _, he, -⟩ := Machine.of_mem_starts hm
        cases he
        exact ⟨B.owner, node, List.mem_append_left _ ho, hops op hop⟩
    begun := fun u c n hm => by
      obtain rfl | hc := eq_or_ne c B.id
      · obtain ⟨-, rfl⟩ := h.opened_inj u B.owner B.id n node (hopened hm) ho
        obtain ⟨k, hk, hs⟩ := hsound.started_eq
        exact ⟨k, hk, hbegun.trans hs⟩
      · obtain ⟨k, hk, hs⟩ := h.begun u c n (hopened hm)
        exact ⟨k, hk, (hother c hc).trans hs⟩
    task_started := fun t hm c i hp => by
      obtain hm | hm := List.mem_append.mp (ht ▸ hm)
      · obtain ⟨p, hs⟩ := h.task_started t hm c i hp
        exact ⟨p, List.mem_append_left _ hs⟩
      · obtain ⟨-, -, op, -, hpar, -, hs⟩ := Machine.of_mem_spawned hm
        rw [hpar] at hp
        cases hp
        exact ⟨op.2, List.mem_append_right _ hs⟩
    parent_inj := fun t hm t' hm' c i hp hp' => by
      obtain hm | hm := List.mem_append.mp (ht ▸ hm)
      · obtain hm' | hm' := List.mem_append.mp (ht ▸ hm')
        · exact h.parent_inj t hm t' hm' c i hp hp'
        · exact absurd hp' (hne t hm t' hm' c i hp)
      · obtain hm' | hm' := List.mem_append.mp (ht ▸ hm')
        · exact absurd hp (hne t' hm' t hm c i hp')
        · exact List.inj_on_of_nodup_map (Machine.nodup_map_parent_spawned hnodup) hm hm'
            (hp.trans hp'.symm)
    live := fun b hm => by
      obtain rfl | ⟨hm, hne⟩ := hb b hm
      · refine ⟨node, List.mem_append_left _ ho, hsound, hbegun, ?_⟩
        show Staffed m.tasks b
        rw [ht]
        exact .spawned hbefore halive hrunning
      · obtain ⟨n, hn', hs, hbeg, hst⟩ := h.live b hm
        refine ⟨n, List.mem_append_left _ hn', hs, (hother b.id hne).trans hbeg, ?_⟩
        show Staffed m.tasks b
        rw [ht]
        exact hst.spawned_of_ne hne }

/-- **A block is opened and its first operations are started.** -/
theorem openBlock (h : s.Booked) (hn : s.Numbered) {task : Nat} (hlt : task < s.machine.serial)
    {here : ν} {next : Settled ρ κ → Process δ σ ν ρ κ} {node : Process δ σ ν ρ κ}
    {state : BlockState δ σ ν ρ κ} {start : List (Nat × Process δ σ ν ρ κ)}
    (hopens : Process.Opens here next node state start) :
    Story.Booked ⟨(s.machine.openBlock task state start).2,
      s.past ++ .opened task s.machine.serial node
        :: Event.starts s.machine.serial (s.machine.serial + 1) start⟩ := by
  obtain ⟨hsound, hstarted, hrunning, hops⟩ := BlockState.sound_of_opens hopens
  obtain ⟨htasks, hblocks, -, -⟩ := s.machine.openBlock_eq task state start
  -- the block is told of, and then its operations are started
  have hn' : Story.Numbered ⟨{ s.machine with serial := s.machine.serial + 1 },
      s.past ++ [.opened task s.machine.serial node]⟩ :=
    hn.opens hlt node rfl rfl (List.sublist_cons_self _ _)
  have hb' : Story.Booked ⟨{ s.machine with serial := s.machine.serial + 1 },
      s.past ++ [.opened task s.machine.serial node]⟩ :=
    h.opens hn task node rfl rfl
  have hnone : ∀ t ∈ s.machine.tasks, ∀ i, t.parent ≠ some (s.machine.serial, i) := by
    intro t hm i hp
    have hlt := hn.parent t hm s.machine.serial i hp
    exact Nat.lt_asymm hlt (hn.task_lt hm)
  have hbegun : Event.begun s.machine.serial
      (s.past ++ [.opened task s.machine.serial node]) = [] := by
    refine Event.begun_eq_nil fun i t p hm => ?_
    obtain hm | hm := List.mem_append.mp hm
    · have hlt := hn.started _ i t p hm
      exact Nat.lt_asymm hlt.1 hlt.2
    · cases List.mem_singleton.mp hm
  have hbefore : ∀ i, i ∈ ([] : List Nat) ↔
      ∃ t ∈ s.machine.tasks, t.parent = some (s.machine.serial, i) :=
    fun i => ⟨nofun, fun ⟨t, hm, hp⟩ => (hnone t hm i hp).elim⟩
  have hall : Story.Booked ⟨(s.machine.openBlock task state start).2,
      (s.past ++ [.opened task s.machine.serial node])
        ++ Event.starts s.machine.serial (s.machine.serial + 1) start⟩ :=
    hb'.spawned hn' (B := ⟨s.machine.serial, task, state⟩)
      (List.mem_append_right _ List.mem_cons_self) hsound hbefore
      (fun t hm hin => by
        obtain ⟨i, hi⟩ := Task.isIn_iff.mp hin
        exact (hnone t hm i hi).elim)
      hrunning (by rw [hbegun]; exact hstarted) hops htasks fun b hm => by
        rw [hblocks] at hm
        obtain rfl | hm := List.mem_cons.mp hm
        · exact .inl rfl
        · exact .inr ⟨hm, Nat.ne_of_lt (hn.block_lt hm)⟩
  rwa [List.append_assoc] at hall

/-- A block is dropped. -/
theorem dropped (h : s.Booked) (block : Nat) {es : List (Event δ σ ν ρ κ)}
    (he : ∀ e ∈ es, e.isNew = false) :
    Story.Booked ⟨s.machine.dropBlock block, s.past ++ es⟩ := by
  obtain ⟨ht, hb, -, -⟩ := s.machine.dropBlock_eq block
  refine h.of_sublist (s.machine.leaving block) (by simp) (by simp) (fun t hm _ => ?_) he
    fun b hm => ?_
  · rw [ht] at hm
    obtain ⟨t', hm', rfl⟩ := List.mem_map.mp hm
    exact ⟨t', hm', rfl⟩
  · rw [hb] at hm
    obtain ⟨hm, hne⟩ := List.mem_filter.mp hm
    have hne : b.id ≠ block := by simpa using hne
    obtain ⟨n, ho, hs, hbeg, hst⟩ := h.live b hm
    refine ⟨n, ho, hs, hbeg, ?_⟩
    rw [ht]
    refine hst.map _ (by simp) fun t _ hin hc => ?_
    have hout : t.isIn block = false :=
      Bool.eq_false_iff.mpr fun hin' => hne (Task.isIn_inj hin hin')
    rw [Machine.leaving_of_not_isIn block s.machine hout]
    exact hc

/-- **An operation settles with its block**, and its task is forgotten. -/
theorem ends (h : s.Booked) (hn : s.Numbered) {task : Task δ σ ν ρ κ}
    (ht : s.machine.Alive task) (r : Settlement ρ κ) :
    Story.Booked ⟨(s.machine.finish task r).2, s.past ++ [.ended task.id r]⟩ := by
  obtain ⟨htasks, hblocks, -, -⟩ := Machine.finish_eq hn.blocks.nodup task r
  refine h.of_sublist id (fun _ => rfl) (fun _ => rfl) (fun t hm _ => ?_)
    (fun e he => by rw [List.mem_singleton.mp he]; rfl) fun b' hm' => ?_
  · rw [htasks] at hm
    exact ⟨t, List.mem_of_mem_filter hm, rfl⟩
  obtain ⟨t, htm, hid, hpar, -⟩ := ht
  rw [hblocks] at hm'
  obtain ⟨b, hm, rfl⟩ := List.mem_map.mp hm'
  obtain ⟨n, ho, hs, hbeg, hst⟩ := h.live b hm
  rw [htasks]
  by_cases hin : t.isIn b.id = true
  · obtain ⟨i, hi⟩ := Task.isIn_iff.mp hin
    have hhear := Block.hear_of_parent (hpar ▸ hi) r
    have hrun : i ∈ b.state.running := (hst.running i).mpr ⟨t, htm, hi⟩
    rw [hhear]
    refine ⟨n, ho, hs.settle hrun r, hbeg.trans (BlockState.started_settle i r).symm,
      fun j => ?_, fun t' hm' => hst.alive t' (List.mem_of_mem_filter hm')⟩
    -- the tasks of the block are told apart by their positions and by their numbers
    show j ∈ (b.state.settle i r).running ↔ _
    rw [BlockState.running_settle, List.mem_filter, hst.running j]
    constructor
    · rintro ⟨⟨t', hm', hp'⟩, hne⟩
      have hne : j ≠ i := by simpa using hne
      refine ⟨t', List.mem_filter.mpr ⟨hm', decide_eq_true fun hid' => ?_⟩, hp'⟩
      rw [hn.task_inj hm' htm (hid'.trans hid.symm), hi] at hp'
      exact hne (Prod.ext_iff.mp (Option.some.inj hp')).2.symm
    · rintro ⟨t', hm', hp'⟩
      obtain ⟨hm', hne⟩ := List.mem_filter.mp hm'
      have hne : t'.id ≠ task.id := by simpa using hne
      refine ⟨⟨t', hm', hp'⟩, decide_eq_true fun hj => ?_⟩
      rw [hj] at hp'
      rw [h.parent_inj t' hm' t htm b.id i hp' hi] at hne
      exact hne hid
  · rw [Block.hear_of_not_isIn
      (by rw [← Task.isIn_congr hpar b.id]; exact Bool.eq_false_iff.mpr hin) r]
    refine ⟨n, ho, hs, hbeg, hst.of_iff fun t' hin' => ?_⟩
    rw [List.mem_filter, and_iff_left_of_imp]
    intro hm'
    refine decide_eq_true fun hid' => hin ?_
    rw [← hn.task_inj hm' htm (hid'.trans hid.symm)]
    exact hin'

end Story.Booked

/-- **The books go on agreeing with the tasks and with the past.** -/
theorem Change.booked {a b : Story δ σ ν ρ κ} (h : Change a b) (hn : a.Numbered)
    (ha : a.Booked) : b.Booked := by
  cases h with
  | @quiet m m' past es ht hb _ he =>
    refine ha.of_sublist id (fun _ => rfl) (fun _ => rfl) (fun t hm _ => ⟨t, ht ▸ hm, rfl⟩)
      (fun e hm => Event.isNew_of_isQuiet (he e hm)) fun b hm => ?_
    rw [ht]
    exact ha.live b (hb ▸ hm)
  | @begin m past p hm =>
    have hall : Story.Booked ⟨m.begin p, past ++ []⟩ :=
      ha.of_sublist id (fun _ => rfl) (fun _ => rfl) (fun t hm hp => ?_) nofun fun b hm => ?_
    · rwa [List.append_nil] at hall
    · obtain rfl | hm := List.mem_cons.mp hm
      · exact absurd rfl hp
      · exact ⟨t, hm, rfl⟩
    · obtain ⟨n, ho, hs, hbeg, hst⟩ := ha.live b hm
      refine ⟨n, ho, hs, hbeg, hst.of_iff fun t hin => ?_⟩
      show t ∈ _ :: m.tasks ↔ _
      rw [List.mem_cons, or_iff_right]
      rintro rfl
      cases hin
  | @opens m past task node here next state start ht h =>
    obtain ⟨t, hm, hid, -, -⟩ := ht
    exact ha.openBlock hn (hid ▸ hn.task_lt hm) h
  | @launches m past block owner g hb =>
    obtain ⟨n, ho, hs, hbeg, hst⟩ := ha.live _ hb
    obtain ⟨hsound, hrunning, hops⟩ := hs.launch
    obtain ⟨ht, hbs, -, -⟩ := Machine.spawnAll_eq block g.launch.1
      (m.putBlock ⟨block, owner, .gathering g.launch.2⟩)
    refine ha.spawned hn (B := ⟨block, owner, .gathering g.launch.2⟩) ho hsound hst.running
      hst.alive hrunning ?_ hops ht fun b hm => ?_
    · show g.launch.2.started = _
      rw [Gathering.launch_started, hbeg]
      rfl
    · rw [hbs] at hm
      exact Machine.of_mem_putBlock hm
  | @yields m past task b s _ _ => exact ha.dropped b.id Machine.isNew_of_yields
  | drops block he =>
    exact ha.dropped block fun e hm =>
      Event.isNew_of_isQuiet (Machine.isQuiet_of_drops he e hm)
  | @pauses m past task w _ =>
    have hf : ∀ t : Task δ σ ν ρ κ,
        (if t.id = task.id then { t with state := .waiting w } else t).parent = t.parent := by
      intro t
      split <;> rfl
    have hall : Story.Booked ⟨{ m with tasks := m.tasks.map fun t =>
        if t.id = task.id then { t with state := .waiting w } else t }, past ++ []⟩ :=
      ha.of_sublist (fun t => if t.id = task.id then { t with state := .waiting w } else t)
        (fun t => by split <;> rfl) hf (fun t hm _ => ?_) nofun fun b hm => ?_
    · rwa [List.append_nil] at hall
    · obtain ⟨t', hm', rfl⟩ := List.mem_map.mp hm
      exact ⟨t', hm', rfl⟩
    · obtain ⟨n, ho, hs, hbeg, hst⟩ := ha.live b hm
      refine ⟨n, ho, hs, hbeg, hst.map _ hf fun t _ _ hc => ?_⟩
      split
      · rfl
      · exact hc
  | ends ht => exact ha.ends hn ht _
  | @forgets m past t ht hc =>
    have hall : Story.Booked ⟨m.removeTask t.id, past ++ []⟩ := ha.of_sublist id (fun _ => rfl)
      (fun _ => rfl) (fun t' hm _ => ⟨t', List.mem_of_mem_filter hm, rfl⟩) nofun fun b hm => ?_
    · rwa [List.append_nil] at hall
    · obtain ⟨n, ho, hs, hbeg, hst⟩ := ha.live b hm
      refine ⟨n, ho, hs, hbeg, hst.of_iff fun t' hin => ?_⟩
      show t' ∈ m.tasks.filter _ ↔ _
      rw [List.mem_filter, and_iff_left_of_imp]
      intro hm'
      refine decide_eq_true fun hid => ?_
      rw [hn.task_inj hm' ht hid] at hin
      rw [hst.alive t ht hin] at hc
      cases hc

end Playbook
