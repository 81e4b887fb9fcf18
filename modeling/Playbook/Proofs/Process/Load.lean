import Mathlib.Data.Multiset.DershowitzManna
import Mathlib.SetTheory.Ordinal.Family
import Playbook.Proofs.Process.Liveness

/-!
# Loads

Every process is finite, but there is no number of steps that it ends within: what it does depends
on the world and on what its blocks come to. So its size is an ordinal, its rank, which is above
the ranks of whatever it may go on with (`Process.rank`). The load of a machine is made of the
ranks of what its tasks and its blocks have still to do (`Moment.load`).

A task that goes on in its turn has something of a lesser rank to do, and if it starts operations,
there are several such things in the place of one. So loads are multisets of ranks, and one of them
is lighter than another if some of its ranks have been replaced by lesser ones
(`Multiset.IsDershowitzMannaLT`). There is no endless sequence of loads that become lighter and
lighter. The main statement here is that each small step of a turn makes the load lighter, but for
those of a task that is woken and finds nothing to do (`Moment.Next.lighter_or_coasts`).
-/

namespace Playbook

variable {δ σ ν ρ κ : Type}

/-! ## Ranks -/

namespace Process

/-- The least rank above those of a family. -/
noncomputable def above {α : Type} (rank : α → Ordinal.{0}) : Ordinal.{0} :=
  ⨆ a, rank a + 1

theorem lt_above {α : Type} (rank : α → Ordinal.{0}) (a : α) : rank a < above rank :=
  Ordinal.lt_iSup_add_one rank a

mutual

/-- **The rank of a process**, above those of whatever it may go on with. -/
noncomputable def rank : Process δ σ ν ρ κ → Ordinal.{0}
  | done _ => 0
  | crash _ => 0
  | act _ next => above fun w => rank (next w)
  | sleep _ _ next => rank next + 1 + 1
  | timed _ body next => max (rank body) (above fun x => rank (next x)) + 1
  | gather _ _ operations _ next => max (ranks operations) (above fun s => rank (next s)) + 1
  | race _ operations _ next => max (ranks operations) (above fun s => rank (next s)) + 1

/-- The rank of processes that wait to be started, above those of the processes. -/
noncomputable def ranks : List (Process δ σ ν ρ κ) → Ordinal.{0}
  | [] => 0
  | p :: rest => max (rank p + 1) (ranks rest)

end

theorem rank_le_ranks {operations : List (Process δ σ ν ρ κ)} {p : Process δ σ ν ρ κ}
    (h : p ∈ operations) : rank p + 1 ≤ ranks operations := by
  induction operations with
  | nil => cases h
  | cons q rest ih =>
    rw [ranks]
    obtain rfl | h := List.mem_cons.mp h
    · exact le_max_left _ _
    · exact (ih h).trans (le_max_right _ _)

section

variable (ms : Nat) (here : ν)

theorem rank_lt_act (deed : δ) (next : σ → Process δ σ ν ρ κ) (w : σ) :
    (next w).rank < (act deed next).rank := by
  rw [rank]
  exact lt_above (fun w => (next w).rank) w

theorem rank_lt_sleep (next : Process δ σ ν ρ κ) :
    next.rank + 1 < (sleep ms here next).rank := by
  rw [rank]
  exact lt_add_one _

theorem rank_lt_timed (body : Process δ σ ν ρ κ) (next : ρ ⊕ ν → Process δ σ ν ρ κ) :
    body.rank < (timed ms body next).rank
      ∧ (above fun x => (next x).rank) < (timed ms body next).rank := by
  rw [rank]
  exact ⟨Order.lt_add_one_iff.mpr (le_max_left _ _), Order.lt_add_one_iff.mpr (le_max_right _ _)⟩

/-- The rank of a block is above those of its operations and of what comes behind it. -/
theorem rank_lt_gather (limit : Nat) (stops : ρ → Bool)
    (operations : List (Process δ σ ν ρ κ)) (next : Settled ρ κ → Process δ σ ν ρ κ) :
    (∀ p ∈ operations, p.rank + 1 < (gather limit stops operations here next).rank)
      ∧ (above fun s => (next s).rank) < (gather limit stops operations here next).rank := by
  rw [rank]
  exact ⟨fun p hp => Order.lt_add_one_iff.mpr ((rank_le_ranks hp).trans (le_max_left _ _)),
    Order.lt_add_one_iff.mpr (le_max_right _ _)⟩

theorem rank_lt_race (wins : ρ → Bool)
    (operations : List (Process δ σ ν ρ κ)) (next : Settled ρ κ → Process δ σ ν ρ κ) :
    (∀ p ∈ operations, p.rank + 1 < (race wins operations here next).rank)
      ∧ (above fun s => (next s).rank) < (race wins operations here next).rank := by
  rw [rank]
  exact ⟨fun p hp => Order.lt_add_one_iff.mpr ((rank_le_ranks hp).trans (le_max_left _ _)),
    Order.lt_add_one_iff.mpr (le_max_right _ _)⟩

end

end Process

/-! ## Loads -/

/-- What is to be done, by its ranks. -/
abbrev Load := Multiset Ordinal.{0}

namespace Load

/-- **A load is lighter** if some of its ranks have been replaced by lesser ones. -/
abbrev Lighter (l l' : Load) : Prop := l.IsDershowitzMannaLT l'

variable {l l' l'' : Load}

/-- The ranks that are replaced, in front of those that stay or are gone. -/
theorem lighter_of_parts {x y : Load} (hx : x ≠ 0) (hy : ∀ a ∈ y, ∃ b ∈ x, a < b) (h : l ≤ l') :
    Lighter (y + l) (x + l') := by
  obtain ⟨gone, rfl⟩ := Multiset.le_iff_exists_add.mp h
  refine ⟨l, y, x + gone, ?_, add_comm y l, ?_, fun a ha => ?_⟩
  · exact fun h => hx (add_eq_zero.mp h).1
  · rw [← add_assoc, add_comm x l, add_assoc]
  · obtain ⟨b, hb, hlt⟩ := hy a ha
    exact ⟨b, Multiset.mem_add.mpr (.inl hb), hlt⟩

/-- One rank is replaced by another. -/
theorem lighter_of_lt {a b : Ordinal.{0}} (hlt : a < b) (h : l ≤ l') :
    Lighter ({a} + l) ({b} + l') :=
  lighter_of_parts (Multiset.singleton_ne_zero b)
    (fun _ hc => ⟨b, Multiset.mem_singleton_self b, Multiset.mem_singleton.mp hc ▸ hlt⟩) h

/-- What is behind the rank that is replaced stays. -/
theorem lighter_of_head {a b : Ordinal.{0}} (hlt : a < b) {x : Load} (h : l ≤ l') :
    Lighter ({a} + x + l) ({b} + x + l') := by
  rw [add_assoc, add_assoc]
  exact lighter_of_lt hlt (add_le_add_right h x)

/-- A rank is replaced by two others. -/
theorem lighter_of_pair {a a' b : Ordinal.{0}} (hlt : a < b) (hlt' : a' < b) {x : Load}
    (h : l ≤ l') : Lighter ({a} + ({a'} + x) + l) ({b} + x + l') := by
  rw [← add_assoc ({a} : Load), add_assoc ({a} + {a'} : Load), add_assoc ({b} : Load)]
  refine lighter_of_parts (Multiset.singleton_ne_zero b) (fun c hc => ?_) (add_le_add_right h x)
  refine ⟨b, Multiset.mem_singleton_self b, ?_⟩
  obtain hc | hc := Multiset.mem_add.mp hc
  · exact Multiset.mem_singleton.mp hc ▸ hlt
  · exact Multiset.mem_singleton.mp hc ▸ hlt'

/-- Ranks are gone. -/
theorem lighter_of_add {x : Load} (hx : x ≠ 0) (h : l ≤ l') : Lighter l (x + l') := by
  have hgone := lighter_of_parts (y := 0) hx (fun _ ha => absurd ha (Multiset.notMem_zero _)) h
  rwa [zero_add] at hgone

theorem eq_or_lighter_of_le (h : l ≤ l') : l = l' ∨ Lighter l l' := by
  obtain ⟨gone, rfl⟩ := Multiset.le_iff_exists_add.mp h
  by_cases hgone : gone = 0
  · exact .inl (by rw [hgone, add_zero])
  · exact .inr (add_comm l gone ▸ lighter_of_add hgone le_rfl)

theorem Lighter.trans_le (h : Lighter l l') (hle : l' ≤ l'') : Lighter l l'' := by
  obtain rfl | hlt := eq_or_lighter_of_le hle
  · exact h
  · exact h.trans hlt

theorem Lighter.of_le (hle : l ≤ l') (h : Lighter l' l'') : Lighter l l'' := by
  obtain rfl | hlt := eq_or_lighter_of_le hle
  · exact h
  · exact hlt.trans h

/-- The load of several things. -/
def total {α : Type} (f : α → Load) : List α → Load
  | [] => 0
  | a :: as => f a + total f as

section total

variable {α : Type} (f : α → Load)

@[simp] theorem total_nil : total f [] = 0 := rfl

@[simp] theorem total_cons (a : α) (as : List α) : total f (a :: as) = f a + total f as := rfl

@[simp] theorem total_append (as bs : List α) : total f (as ++ bs) = total f as + total f bs := by
  induction as with
  | nil => simp
  | cons a as ih => simp [ih, add_assoc]

theorem total_map {β : Type} (g : β → α) (bs : List β) :
    total f (bs.map g) = total (fun b => f (g b)) bs := by
  induction bs with
  | nil => rfl
  | cons b bs ih => simp [ih]

theorem total_le_of_sublist {as bs : List α} (h : as.Sublist bs) : total f as ≤ total f bs := by
  induction h with
  | slnil => exact le_rfl
  | cons a _ ih => exact ih.trans (Multiset.le_add_left _ _)
  | cons_cons a _ ih => exact add_le_add_right ih _

/-- The load of one thing, and of those under other keys. -/
theorem add_total_filter_le (key : α → Nat) {as : List α} {a : α} (h : a ∈ as) :
    f a + total f (as.filter fun b => key b ≠ key a) ≤ total f as := by
  induction as with
  | nil => cases h
  | cons b as ih =>
    obtain rfl | h := List.mem_cons.mp h
    · rw [List.filter_cons_of_neg (by simp)]
      exact add_le_add_right (total_le_of_sublist f List.filter_sublist) _
    · refine le_trans ?_ (add_le_add_right (ih h) (f b))
      rw [← add_assoc, add_comm (f b), add_assoc, ← total_cons f b]
      refine add_le_add_right (total_le_of_sublist f ?_) _
      rw [List.filter_cons]
      split
      · exact List.Sublist.refl _
      · exact List.sublist_cons_self _ _

/-- What is under a key is replaced. -/
theorem total_update_le (key : α → Nat) (k : Nat) {g : α → α} {x : Load}
    (hg : ∀ a, f (g a) = x) {as : List α} (hn : (as.map key).Nodup) :
    total f (as.map fun a => if key a = k then g a else a)
      ≤ x + total f (as.filter fun a => key a ≠ k) := by
  induction as with
  | nil => exact Multiset.zero_le _
  | cons a as ih =>
    rw [List.map_cons, List.nodup_cons] at hn
    rw [List.map_cons, total_cons]
    split
    · rename_i hk
      -- nothing else is under the key
      have hne : ∀ b ∈ as, key b ≠ k := fun b hb hkb =>
        hn.1 (hk ▸ hkb ▸ List.mem_map_of_mem hb)
      have hid : as.map (fun b => if key b = k then g b else b) = as :=
        (List.map_congr_left fun b hb => if_neg (hne b hb)).trans (List.map_id as)
      rw [hg, hid, List.filter_cons_of_neg (by simp [hk]),
        List.filter_eq_self.mpr fun b hb => decide_eq_true (hne b hb)]
    · rename_i hk
      rw [List.filter_cons, if_pos (decide_eq_true hk), total_cons, ← add_assoc, add_comm x,
        add_assoc]
      exact add_le_add_right (ih hn.2) _

/-- What all of several things have, one of them has. -/
theorem mem_total {as : List α} {x : Ordinal.{0}} : x ∈ total f as ↔ ∃ a ∈ as, x ∈ f a := by
  induction as with
  | nil => simp
  | cons a as ih => simp [ih]

end total

end Load

/-- The rank of what comes behind a time limit. -/
noncomputable def Limit.rank (l : Limit δ σ ν ρ κ) : Ordinal.{0} :=
  Process.above fun x => (l.next x).rank

/-- The ranks of what comes behind time limits. -/
noncomputable def Limit.load (limits : List (Limit δ σ ν ρ κ)) : Load :=
  Load.total (fun l => {l.rank}) limits

/-- What a waiting process has to do. -/
noncomputable def Waiting.load : Waiting δ σ ν ρ κ → Load
  | asleep _ _ next => {next.rank + 1}
  | blocked _ _ next => {Process.above fun s => (next s).rank}
  | timed _ body next => {Process.above fun x => (next x).rank} + body.load

/-- Whoever waits has something to do. -/
theorem Waiting.load_ne_zero : (w : Waiting δ σ ν ρ κ) → w.load ≠ 0
  | asleep _ _ _ => Multiset.singleton_ne_zero _
  | blocked _ _ _ => Multiset.singleton_ne_zero _
  | timed _ _ _ => fun h => Multiset.singleton_ne_zero _ (add_eq_zero.mp h).1

namespace Machine

/-- What a task has to do. -/
noncomputable def TaskState.load : TaskState δ σ ν ρ κ → Load
  | fresh p => {p.rank}
  | waiting w => w.load
  | cancelled before => before.load

theorem TaskState.load_ne_zero : (s : TaskState δ σ ν ρ κ) → s.load ≠ 0
  | fresh _ => Multiset.singleton_ne_zero _
  | waiting w => w.load_ne_zero
  | cancelled before => before.load_ne_zero

/-- What the operations of a block have to do that are to be started. -/
noncomputable def BlockState.load : BlockState δ σ ν ρ κ → Load
  | gathering g => Load.total (fun op => {op.2.rank + 1}) g.waiting
  | race _ => 0

end Machine

namespace Stage

/-- What a task has to do in the middle of its turn. -/
noncomputable def load : Stage δ σ ν ρ κ → Load
  | idle => 0
  | going _ p limits => {p.rank} + Limit.load limits
  | woken _ w limits => w.load + Limit.load limits
  | waiting _ w limits => w.load + Limit.load limits

/-- A task goes on in its turn, or it has been woken by a time that has passed. -/
def Due (now : Nat) : Stage δ σ ν ρ κ → Prop
  | idle => False
  | going _ _ _ => True
  | woken _ w limits => (∃ alarm ∈ w.alarms, alarm.due ≤ now) ∨ ∃ l ∈ limits, l.Passed now
  | waiting _ _ limits => ∃ l ∈ limits, l.Passed now

end Stage

namespace Moment

/-- What the tasks and the blocks of a machine have to do, the task apart that has its turn. -/
noncomputable def loadOfOthers (s : Stage δ σ ν ρ κ) (m : Machine δ σ ν ρ κ) : Load :=
  Load.total (fun t => t.state.load) (m.tasks.filter s.isOther)
    + Load.total (fun b => b.state.load) m.blocks

/-- **The load of a machine** in the middle of what it does. -/
noncomputable def load (b : Moment δ σ ν ρ κ) : Load :=
  b.stage.load + loadOfOthers b.stage b.machine

/-- **A step that makes no load lighter** makes it no heavier either, wakes nobody, and passes over
no time that has come. -/
structure Coasts (a b : Moment δ σ ν ρ κ) : Prop where
  load : b.load ≤ a.load
  ready : b.machine.ready = a.machine.ready
  mainReady : b.machine.mainReady = a.machine.mainReady
  due : a.stage.Due a.machine.now → b.stage.Due b.machine.now

end Moment

/-! ## What the operations of a machine do to its load -/

section

variable (s : Stage δ σ ν ρ κ) (m : Machine δ σ ν ρ κ)

/-- What is stopped has still the same to do when it comes to its turn. -/
@[simp] theorem Machine.load_leaving (block : Nat) (t : Machine.Task δ σ ν ρ κ) :
    (m.leaving block t).state.load = t.state.load := by
  unfold leaving Task.stopIn
  split
  · split <;> rfl
  · rfl

theorem Moment.loadOfOthers_dropBlock (block : Nat) :
    loadOfOthers s (m.dropBlock block) ≤ loadOfOthers s m := by
  obtain ⟨ht, hb, -, -⟩ := m.dropBlock_eq block
  unfold loadOfOthers
  have hother : s.isOther ∘ m.leaving block = s.isOther := by
    funext t
    simp only [Function.comp_apply, Stage.isOther, Machine.id_leaving]
  rw [ht, hb, List.filter_map, hother, Load.total_map]
  simp only [Machine.load_leaving]
  exact add_le_add_right (Load.total_le_of_sublist _ List.filter_sublist) _

theorem Moment.loadOfOthers_drop (w : Waiting δ σ ν ρ κ) :
    loadOfOthers s (m.drop w) ≤ loadOfOthers s m := by
  obtain ⟨hd, -⟩ | ⟨block, -, hd, -⟩ := m.drop_eq w
  · rw [hd]
  · rw [hd]
    exact loadOfOthers_dropBlock s m block

/-- Operations that are started. -/
theorem Machine.total_spawned_le (block task : Nat)
    (operations : List (Nat × Process δ σ ν ρ κ)) :
    Load.total (fun t : Machine.Task δ σ ν ρ κ => t.state.load)
        ((Machine.spawned block task operations).filter s.isOther)
      ≤ Load.total (fun op => {op.2.rank}) operations := by
  refine le_trans (Load.total_le_of_sublist _ List.filter_sublist) (le_of_eq ?_)
  induction operations generalizing task with
  | nil => rfl
  | cons op rest ih =>
    show {op.2.rank} + _ = {op.2.rank} + _
    rw [ih]

end

/-- A block has no more to do when an operation of it has settled. -/
@[simp] theorem Machine.BlockState.load_settle (index : Nat) (s : Settlement ρ κ)
    (state : Machine.BlockState δ σ ν ρ κ) : (state.settle index s).load = state.load := by
  cases state <;> rfl

@[simp] theorem Machine.Block.load_hear (task : Machine.Task δ σ ν ρ κ) (s : Settlement ρ κ)
    (b : Machine.Block δ σ ν ρ κ) : (b.hear task s).state.load = b.state.load := by
  unfold hear
  split
  · split
    · exact Machine.BlockState.load_settle _ _ _
    · rfl
  · rfl

/-- What is started and what goes on waiting has been waiting before. -/
theorem Gathering.launch_sublist {α : Type} (g : Gathering α ρ κ) :
    (g.launch.1 ++ g.launch.2.waiting).Sublist g.waiting := by
  show ((admissible g.stopped g.free g.waiting).1
    ++ (admissible g.stopped g.free g.waiting).2.1).Sublist g.waiting
  cases g.stopped with
  | true =>
    rw [admissible_stopped]
    show (if g.free = 0 then g.waiting else []).Sublist g.waiting
    split
    · exact List.Sublist.refl _
    · exact List.nil_sublist _
  | false =>
    rw [admissible_running]
    exact (List.take_append_drop _ _).symm ▸ List.Sublist.refl _

namespace Moment

open Machine (spawned)

/-- A block is opened, and operations of it are started. -/
theorem loadOfOthers_openBlock (s : Stage δ σ ν ρ κ) (m : Machine δ σ ν ρ κ) (owner : Nat)
    (state : Machine.BlockState δ σ ν ρ κ) (start : List (Nat × Process δ σ ν ρ κ)) :
    loadOfOthers s (m.openBlock owner state start).2
      ≤ Load.total (fun op => {op.2.rank}) start + state.load + loadOfOthers s m := by
  obtain ⟨ht, hb, -, -⟩ := m.openBlock_eq owner state start
  have hstart := Machine.total_spawned_le s m.serial (m.serial + 1) start
  unfold loadOfOthers
  rw [ht, hb, List.filter_append, Load.total_append, Load.total_cons, add_comm (Load.total _ _)]
  refine (add_le_add_left (add_le_add_left hstart _) _).trans (le_of_eq ?_)
  ac_rfl

/-- **A gathering starts what it can**: operations that have been waiting are replaced by tasks. -/
theorem exists_loadOfOthers_launch (s : Stage δ σ ν ρ κ) {m : Machine δ σ ν ρ κ}
    (hn : (m.blocks.map Machine.Block.id).Nodup) {block owner : Nat}
    {g : Gathering (Process δ σ ν ρ κ) ρ κ} (hb : ⟨block, owner, .gathering g⟩ ∈ m.blocks) :
    ∃ rest, loadOfOthers s
        ((m.putBlock ⟨block, owner, .gathering g.launch.2⟩).spawnAll block g.launch.1)
        ≤ Load.total (fun op => {op.2.rank}) g.launch.1 + rest
      ∧ Load.total (fun op => {op.2.rank + 1}) g.launch.1 + rest ≤ loadOfOthers s m := by
  let load := fun b : Machine.Block δ σ ν ρ κ => b.state.load
  let tasks := Load.total (fun t : Machine.Task δ σ ν ρ κ => t.state.load)
    (m.tasks.filter s.isOther)
  let others := Load.total load (m.blocks.filter fun b => b.id ≠ block)
  obtain ⟨ht, hbs, -, -⟩ := Machine.spawnAll_eq block g.launch.1
    (m.putBlock ⟨block, owner, .gathering g.launch.2⟩)
  have hstart := Machine.total_spawned_le s block m.serial g.launch.1
  have hput : Load.total load (m.putBlock ⟨block, owner, .gathering g.launch.2⟩).blocks
      ≤ (Machine.BlockState.gathering g.launch.2).load + others :=
    Load.total_update_le load Machine.Block.id block
      (g := fun _ => ⟨block, owner, .gathering g.launch.2⟩) (fun _ => rfl) hn
  have hold : (Machine.BlockState.gathering g).load + others ≤ Load.total load m.blocks :=
    Load.add_total_filter_le load Machine.Block.id hb
  have hwaits : Load.total (fun op => {op.2.rank + 1}) g.launch.1
        + (Machine.BlockState.gathering g.launch.2).load
      ≤ (Machine.BlockState.gathering g).load := by
    have hsub := Load.total_le_of_sublist
      (fun op : Nat × Process δ σ ν ρ κ => ({op.2.rank + 1} : Load)) g.launch_sublist
    rwa [Load.total_append] at hsub
  refine ⟨tasks + ((Machine.BlockState.gathering g.launch.2).load + others), ?_, ?_⟩
  · unfold loadOfOthers
    rw [ht, hbs, List.filter_append, Load.total_append, add_comm (Load.total _ _), add_assoc]
    exact add_le_add hstart (add_le_add_right hput _)
  · rw [← add_assoc, add_comm _ tasks, add_assoc, ← add_assoc _ _ others]
    exact add_le_add_right ((add_le_add_left hwaits _).trans hold) _

end Moment

/-! ## Steps within a turn -/

namespace Moment

variable {task : Machine.Task δ σ ν ρ κ} {limits : List (Limit δ σ ν ρ κ)}
  {m m' : Machine δ σ ν ρ κ} {past past' : List (Event δ σ ν ρ κ)}

/-- A task that goes on has something of a lesser rank to do. -/
theorem lighter_of_move {s s' : Stage δ σ ν ρ κ} (h : Stage.Moves m s s') (hs : s ≠ .idle) :
    Load.Lighter (load ⟨s', m, past⟩) (load ⟨s, m, past⟩)
      ∨ Coasts ⟨s, m, past⟩ ⟨s', m, past⟩ := by
  cases h with
  | first | wake => exact absurd rfl hs
  | @sleepZero task here next limits =>
    have hlt := (lt_add_one next.rank).trans (next.rank_lt_sleep 0 here)
    exact .inl (Load.lighter_of_head hlt le_rfl)
  | @limit task ms body next limits =>
    obtain ⟨hbody, hnext⟩ := Process.rank_lt_timed ms body next
    exact .inl (Load.lighter_of_pair hbody hnext le_rfl)
  | @gatherNothing task limit stops operations here next limits s =>
    have hlt := (Process.rank_lt_gather here limit stops operations next).2
    exact .inl (Load.lighter_of_head ((Process.lt_above _ s).trans hlt) le_rfl)
  | @raceNothing task wins operations here next limits s =>
    have hlt := (Process.rank_lt_race here wins operations next).2
    exact .inl (Load.lighter_of_head ((Process.lt_above _ s).trans hlt) le_rfl)
  | asleep h =>
    refine .inr ⟨le_rfl, rfl, rfl, ?_⟩
    rintro (⟨alarm, ha, hdue⟩ | hpassed)
    · exact absurd (List.mem_singleton.mp ha ▸ hdue) h
    · exact hpassed
  | @awake task alarm here next limits =>
    exact .inl (Load.lighter_of_head (lt_add_one next.rank) le_rfl)
  | @wakeLimited task deadline body next limits =>
    refine .inr ⟨le_of_eq ?_, rfl, rfl, ?_⟩
    · show body.load + ({(Limit.running deadline next).rank} + Limit.load limits) + _
        = {(Limit.running deadline next).rank} + body.load + Limit.load limits + _
      rw [← add_assoc body.load, add_comm body.load]
      rfl
    · rintro (⟨alarm, ha, hdue⟩ | ⟨l, hl, hpassed⟩)
      · obtain rfl | ha := List.mem_cons.mp ha
        · exact .inr ⟨_, List.mem_cons_self, hdue⟩
        · exact .inl ⟨alarm, ha, hdue⟩
      · exact .inr ⟨l, List.mem_cons_of_mem _ hl, hpassed⟩
  | @inTime task r limits l =>
    have hlt : (l.next (.inl r)).rank < l.rank := Process.lt_above _ (Sum.inl r)
    refine .inl (Load.Lighter.trans_le (Load.lighter_of_head hlt le_rfl) ?_)
    show _ ≤ {Process.rank _} + ({l.rank} + Limit.load limits) + _
    rw [add_assoc ({Process.rank _} : Load)]
    exact Multiset.le_add_left _ _
  | @crashOut task a limits l =>
    refine .inl ?_
    show Load.Lighter ({Process.rank _} + Limit.load limits + _)
      ({Process.rank _} + ({l.rank} + Limit.load limits) + _)
    rw [add_left_comm, add_assoc ({l.rank} : Load)]
    exact Load.lighter_of_add (Multiset.singleton_ne_zero _) le_rfl

/-- A block that is opened has its operations to do, and what comes behind it. -/
theorem lighter_of_opens {here : ν} {next : Settled ρ κ → Process δ σ ν ρ κ}
    {node : Process δ σ ν ρ κ} {state : Machine.BlockState δ σ ν ρ κ}
    {start : List (Nat × Process δ σ ν ρ κ)} (h : Process.Opens here next node state start) :
    (∀ op ∈ start, op.2.rank < node.rank) ∧ (∀ x ∈ state.load, x < node.rank)
      ∧ (Process.above fun s => (next s).rank) < node.rank := by
  cases h with
  | @gather limit stops operations start g hl h =>
    obtain ⟨hops, hnext⟩ := Process.rank_lt_gather here limit stops operations next
    have hwaits : ∀ op ∈ start ++ g.waiting, op.2 ∈ operations := fun op hop => by
      have hsub := (Gathering.ofOperations (κ := κ) limit stops operations).launch_sublist
      rw [hl] at hsub
      exact Gathering.snd_mem_of_mem_numbered (hsub.subset hop)
    refine ⟨fun op hop => ?_, fun x hx => ?_, hnext⟩
    · exact (lt_add_one _).trans (hops _ (hwaits op (List.mem_append_left _ hop)))
    · obtain ⟨op, hop, hx⟩ := (Load.mem_total _).mp hx
      rw [Multiset.mem_singleton.mp hx]
      exact hops _ (hwaits op (List.mem_append_right _ hop))
  | @race wins operations h =>
    obtain ⟨hops, hnext⟩ := Process.rank_lt_race here wins operations next
    refine ⟨fun op hop => ?_, fun x hx => absurd hx (Multiset.notMem_zero x), hnext⟩
    exact (lt_add_one _).trans (hops _ (Gathering.snd_mem_of_mem_numbered hop))

/-- The end of a task. -/
theorem lighter_of_finish (hn : (m.blocks.map Machine.Block.id).Nodup) {p : Process δ σ ν ρ κ}
    (s : Settlement ρ κ) : Load.Lighter (load ⟨.idle, (m.finish task s).2, past'⟩)
      (load ⟨.going task p [], m, past⟩) := by
  obtain ⟨ht, hb, -, -⟩ := Machine.finish_eq hn task s
  have hothers : loadOfOthers .idle (m.finish task s).2 ≤ loadOfOthers (.going task p []) m := by
    unfold loadOfOthers
    rw [ht, hb, Load.total_map]
    simp only [Machine.Block.load_hear]
    exact add_le_add_left (Load.total_le_of_sublist _ List.filter_sublist) _
  unfold load
  show Load.Lighter (0 + _) ({p.rank} + 0 + _)
  rw [zero_add, add_zero]
  exact Load.lighter_of_add (Multiset.singleton_ne_zero _) hothers

/-- **A task that is woken before its block is done** goes on waiting, and so nothing has changed;
or operations of the block are started in the place of those that have been waiting. -/
theorem lighter_or_coasts_of_attend (hn : (m.blocks.map Machine.Block.id).Nodup) {block : Nat}
    {here : ν} {next : Settled ρ κ → Process δ σ ν ρ κ} (h : m.attend block = (none, m')) :
    Load.Lighter (load ⟨.waiting task (.blocked block here next) limits, m', past'⟩)
        (load ⟨.woken task (.blocked block here next) limits, m, past⟩)
      ∨ Coasts ⟨.woken task (.blocked block here next) limits, m, past⟩
        ⟨.waiting task (.blocked block here next) limits, m', past'⟩ := by
  let waits : Stage δ σ ν ρ κ := .waiting task (.blocked block here next) limits
  have hdue : ∀ now, Stage.Due now (.woken task (.blocked block here next) limits) →
      waits.Due now := fun now hdue => hdue.resolve_left (by simp [Waiting.alarms])
  obtain ⟨rfl, -⟩ | ⟨owner, g, hb, rfl, -⟩ := Machine.of_attend_none h
  · exact .inr ⟨le_rfl, rfl, rfl, hdue _⟩
  · obtain ⟨rest, hnew, hold⟩ := exists_loadOfOthers_launch waits hn hb
    have hnew := add_le_add_right hnew waits.load
    have hold := add_le_add_right hold waits.load
    by_cases hstart : g.launch.1 = []
    · rw [hstart] at hnew hold ⊢
      exact .inr ⟨hnew.trans hold, rfl, rfl, hdue _⟩
    · rw [add_left_comm] at hnew hold
      -- the tasks that are started rank below the operations that waited for them
      have hwaited : Load.total (fun op => {op.2.rank + 1}) g.launch.1 ≠ 0 := by
        obtain ⟨op, ops, hstart⟩ := List.exists_cons_of_ne_nil hstart
        rw [hstart, Load.total_cons]
        exact fun h => Multiset.singleton_ne_zero _ (add_eq_zero.mp h).1
      have hbelow : ∀ a ∈ Load.total (fun op => {op.2.rank}) g.launch.1,
          ∃ b ∈ Load.total (fun op => {op.2.rank + 1}) g.launch.1, a < b := fun a ha => by
        obtain ⟨op, hop, ha⟩ := (Load.mem_total _).mp ha
        rw [Multiset.mem_singleton.mp ha]
        exact ⟨_, (Load.mem_total _).mpr ⟨op, hop, Multiset.mem_singleton_self _⟩, lt_add_one _⟩
      exact .inl (.of_le hnew ((Load.lighter_of_parts hwaited hbelow le_rfl).trans_le hold))

variable [Deeds δ σ] {P : Process δ σ ν ρ κ → Prop} {a b : Moment δ σ ν ρ κ}

/-- **Each small step of a turn makes the load lighter**, unless it is one of a task that has been
woken and goes on waiting. -/
theorem Next.lighter_or_coasts (h : Next P a b) (hs : a.stage ≠ .idle) (ho : a.Orderly) :
    Load.Lighter b.load a.load ∨ a.Coasts b := by
  cases h with
  | begin | reorder | forget | forgetWaiting => exact absurd rfl hs
  | move h => exact lighter_of_move h hs
  | @act m past task deed next limits =>
    exact .inl (Load.lighter_of_head (Process.rank_lt_act deed next m.world) le_rfl)
  | @sleep m past task ms here next limits =>
    exact .inl (Load.lighter_of_head (next.rank_lt_sleep ms here) le_rfl)
  | @opens m past task node here next state start limits h =>
    obtain ⟨hstart, hstate, hnext⟩ := lighter_of_opens h
    have hopened := loadOfOthers_openBlock (.going task node limits) m task.id state start
    refine .inl (Load.Lighter.of_le (add_le_add_right hopened _) ?_)
    show Load.Lighter ({Process.above fun s => (next s).rank} + Limit.load limits + _)
      ({node.rank} + Limit.load limits + _)
    rw [add_assoc ({node.rank} : Load), add_add_add_comm]
    refine Load.lighter_of_parts (Multiset.singleton_ne_zero _) (fun x hx => ?_) le_rfl
    refine ⟨_, Multiset.mem_singleton_self _, ?_⟩
    simp only [Multiset.mem_add, Multiset.mem_singleton, Load.mem_total] at hx
    obtain rfl | ⟨op, hop, rfl⟩ | hx := hx
    · exact hnext
    · exact hstart op hop
    · exact hstate x hx
  | attend h => exact lighter_or_coasts_of_attend ho.numbered.blocks.nodup h
  | @yield m past task block here next limits s m' h =>
    obtain ⟨rfl, -⟩ := Machine.of_attend_some h
    exact .inl (Load.lighter_of_head (Process.lt_above (fun s => (next s).rank) s)
      (loadOfOthers_dropBlock _ m block))
  | @keep m past task w limits l h =>
    have hdue : (∃ l' ∈ l :: limits, l'.Passed m.now) → ∃ l' ∈ limits, l'.Passed m.now := by
      rintro ⟨l', hl, hpassed⟩
      obtain rfl | hl := List.mem_cons.mp hl
      · exact absurd hpassed h
      · exact ⟨l', hl, hpassed⟩
    have hload : w.load + ({l.rank} + Limit.load limits)
        = {l.rank} + w.load + Limit.load limits := by ac_rfl
    cases l with
    | set | running => exact .inr ⟨le_of_eq (congrArg (· + _) hload.symm), rfl, rfl, hdue⟩
  | @timeOut m past task w limits l h =>
    have hlt : (l.next (.inr w.here)).rank < l.rank := Process.lt_above _ (Sum.inr w.here)
    refine .inl (Load.Lighter.trans_le (Load.lighter_of_head hlt (loadOfOthers_drop _ m w)) ?_)
    show _ ≤ w.load + ({l.rank} + Limit.load limits) + _
    rw [add_assoc w.load]
    exact Multiset.le_add_left _ _
  | @pause m past task w =>
    refine .inr ⟨?_, rfl, rfl, fun ⟨_, hl, _⟩ => nomatch hl⟩
    have hupdate := Load.total_update_le
      (fun t : Machine.Task δ σ ν ρ κ => t.state.load) Machine.Task.id task.id
      (g := fun t => { t with state := .waiting w }) (fun _ => rfl) ho.numbered.tasks.nodup
    unfold load loadOfOthers
    show 0 + _ ≤ w.load + 0 + _
    rw [zero_add, add_zero, ← add_assoc]
    refine add_le_add_left ((Load.total_le_of_sublist _ List.filter_sublist).trans hupdate) _
  | finish | crash => exact .inl (lighter_of_finish ho.numbered.blocks.nodup _)

end Moment

end Playbook
