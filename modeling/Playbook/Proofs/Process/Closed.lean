import Playbook.Proofs.Process.Books

/-!
# Blocks that have been closed

A block is closed when it yields, and also when the task is cut off that waits for
it. What is left of it are tasks that no books tell of any more. A block that has
yielded has no tasks but stopped ones, and a gathering never has more tasks than its
limit allows, not even when nobody waits for it (`Story.Closed`).

With the numbers and the books this is the order of a machine, which holds at every
moment (`Moment.Later.orderly`).
-/

namespace Playbook

open Machine (Task Block BlockState)

variable {δ σ ν ρ κ : Type}

/-- How many tasks of a block there are. -/
def Machine.count (block : Nat) (m : Machine δ σ ν ρ κ) : Nat :=
  (m.tasks.filter (Task.isIn block)).length

/-- **A block is over** that had books, with these settlements, when it was
closed: it has no tasks but stopped ones. -/
structure Story.IsOver (s : Story δ σ ν ρ κ) (block : Nat) (r : Settled ρ κ) : Prop where
  closed : ∀ b ∈ s.machine.blocks, b.id ≠ block
  left : ∀ t ∈ s.machine.tasks, t.isIn block = true → t.state.isCancelled = true
  outcome : ∃ u n state, .opened u block n ∈ s.past ∧ BlockState.Sound n state
    ∧ state.outcome? = some r ∧ Event.begun block s.past = state.started

/-- **What is left of blocks that have been closed**: a block that has yielded is
over, and a gathering that nobody waits for has no more tasks than its limit
allows. -/
structure Story.Closed (s : Story δ σ ν ρ κ) : Prop where
  isOver : ∀ u block r, .yielded u block r ∈ s.past → s.IsOver block r
  bounded : ∀ u block limit stops operations here next,
    .opened u block (.gather limit stops operations here next) ∈ s.past →
    (∀ b ∈ s.machine.blocks, b.id ≠ block) → s.machine.count block ≤ max limit 1

namespace Story

variable {s : Story δ σ ν ρ κ}

/-- The tasks of a block are its running operations. -/
theorem Booked.count_eq (h : s.Booked) (hn : s.Numbered) {b : Block δ σ ν ρ κ}
    (hb : b ∈ s.machine.blocks) : s.machine.count b.id = b.state.running.length := by
  obtain ⟨n, -, hs, -, hst⟩ := h.live b hb
  have hinj : ∀ t ∈ s.machine.tasks.filter (Task.isIn b.id),
      ∀ t' ∈ s.machine.tasks.filter (Task.isIn b.id), t.parent = t'.parent → t = t' := by
    intro t ht t' ht' hp
    obtain ⟨i, hi⟩ := Task.isIn_iff.mp (List.mem_filter.mp ht).2
    exact h.parent_inj t (List.mem_of_mem_filter ht) t' (List.mem_of_mem_filter ht') b.id i hi
      (hp ▸ hi)
  have hperm : ((s.machine.tasks.filter (Task.isIn b.id)).map Task.parent).Perm
      (b.state.running.map fun i => some (b.id, i)) := by
    refine (List.perm_ext_iff_of_nodup (List.Nodup.map_on hinj
      ((List.Nodup.of_map _ hn.tasks.nodup).filter _)) (hs.running_nodup.map fun i j hij =>
        (Prod.ext_iff.mp (Option.some.inj hij)).2)).mpr fun parent => ?_
    constructor
    · intro hm
      obtain ⟨t, ht, rfl⟩ := List.mem_map.mp hm
      obtain ⟨ht, hin⟩ := List.mem_filter.mp ht
      obtain ⟨i, hi⟩ := Task.isIn_iff.mp hin
      rw [hi]
      exact List.mem_map_of_mem ((hst.running i).mpr ⟨t, ht, hi⟩)
    · intro hm
      obtain ⟨i, hi, rfl⟩ := List.mem_map.mp hm
      obtain ⟨t, ht, hp⟩ := (hst.running i).mp hi
      exact List.mem_map.mpr ⟨t, List.mem_filter.mpr ⟨ht, Task.isIn_iff.mpr ⟨i, hp⟩⟩, hp⟩
  have hlen := hperm.length_eq
  rwa [List.length_map, List.length_map] at hlen

/-- **A gathering never has more tasks than its limit allows.** -/
theorem Closed.count_le (h : s.Closed) (hn : s.Numbered) (hb : s.Booked) {u block limit : Nat}
    {stops : ρ → Bool} {operations : List (Process δ σ ν ρ κ)} {here : ν}
    {next : Settled ρ κ → Process δ σ ν ρ κ}
    (ho : .opened u block (.gather limit stops operations here next) ∈ s.past) :
    s.machine.count block ≤ max limit 1 := by
  by_cases hlive : ∃ b ∈ s.machine.blocks, b.id = block
  · obtain ⟨b, hm, rfl⟩ := hlive
    obtain ⟨n, hn', hs, -, -⟩ := hb.live b hm
    obtain ⟨-, rfl⟩ := hb.opened_inj _ _ _ _ _ hn' ho
    rw [hb.count_eq hn hm]
    obtain ⟨_, _, _, _, _, g, hg, hstate, hg'⟩ | ⟨_, _, _, _, _, hr, -⟩ := hs.shape
    · cases hg
      rw [hstate]
      exact Nat.le.intro ((Nat.add_comm _ _).trans hg'.free_add_running)
    · cases hr
  · exact h.bounded u block limit stops operations here next ho fun b hm hid =>
      hlive ⟨b, hm, hid⟩

/-- **What a gathering has yielded**: a settlement for each operation that was started,
in order. Those are all operations, unless one of the settlements is a result that stops
the gathering. -/
theorem Closed.gathered (h : s.Closed) (hb : s.Booked) {u block limit : Nat}
    {stops : ρ → Bool} {operations : List (Process δ σ ν ρ κ)} {here : ν}
    {next : Settled ρ κ → Process δ σ ν ρ κ}
    (ho : .opened u block (.gather limit stops operations here next) ∈ s.past)
    {u' : Nat} {r : Settled ρ κ} (hy : .yielded u' block r ∈ s.past) :
    r.map Prod.fst = List.range r.length ∧ Event.begun block s.past = List.range r.length
      ∧ (r.length = operations.length
        ∨ ∃ e ∈ r, ∃ x, e.2 = .finished x ∧ stops x = true) := by
  obtain ⟨u'', n, state, ho', hs, hr, hbegun⟩ := (h.isOver u' block r hy).outcome
  obtain ⟨-, rfl⟩ := hb.opened_inj _ _ _ _ _ ho' ho
  obtain ⟨_, _, _, _, _, g, hg, rfl, hg'⟩ | ⟨_, _, _, _, _, hg, -⟩ := hs.shape
  · cases hg
    obtain ⟨-, hmap, -, -⟩ := hg'.launch.of_result hr
    have hrange : g.launch.2.started = List.range r.length := by
      rw [hg'.launch.started_eq, ← hmap, List.length_map]
    -- nothing is started any more when a gathering is over
    have hstart : g.launch.2.started = g.started := by
      rw [Gathering.launch_started, hg'.launch_eq_nil_of_result hr, List.map_nil,
        List.append_nil]
    refine ⟨hmap.trans hrange, ?_, hg'.launch.all_or_stopped hr⟩
    rw [hbegun, ← hrange, hstart]
    rfl
  · cases hg

theorem Closed.ofWorld (w : σ) : (⟨.ofWorld w, []⟩ : Story δ σ ν ρ κ).Closed :=
  ⟨nofun, nofun⟩

/-- **Only blocks that are not closed get tasks.** What is left to show of a
change is what it does to the tasks of closed blocks, and that a block is over that
yields. -/
theorem Closed.of_sublist (h : s.Closed) (hn : s.Numbered) (hb : s.Booked)
    {m : Machine δ σ ν ρ κ} {es : List (Event δ σ ν ρ κ)}
    (f : Task δ σ ν ρ κ → Task δ σ ν ρ κ) (hp : ∀ t, (f t).parent = t.parent)
    (hc : ∀ t ∈ s.machine.tasks, t.state.isCancelled = true → (f t).state.isCancelled = true)
    (ht : ∀ c, (∀ b ∈ m.blocks, b.id ≠ c) → List.Sublist (m.tasks.filter (Task.isIn c))
      ((s.machine.tasks.map f).filter (Task.isIn c)))
    (hblocks : ∀ c < s.machine.serial, (∀ b ∈ s.machine.blocks, b.id ≠ c) →
      ∀ b ∈ m.blocks, b.id ≠ c)
    (hnew : ∀ c, (∀ b ∈ m.blocks, b.id ≠ c) →
      (∀ u n, .opened u c n ∉ es) ∧ ∀ i t p, .started c i t p ∉ es)
    (hy : ∀ u c r, .yielded u c r ∈ es → Story.IsOver ⟨m, s.past ++ es⟩ c r) :
    Story.Closed ⟨m, s.past ++ es⟩ where
  isOver u c r hm := by
    obtain hm | hm := List.mem_append.mp hm
    · obtain ⟨hclosed, hleft, u', n, state, ho, hs, hr, hbeg⟩ := h.isOver u c r hm
      have hclosed' := hblocks c (hn.opened u' c n ho).2 hclosed
      refine ⟨hclosed', fun t hm hin => ?_, u', n, state, List.mem_append_left _ ho, hs, hr, ?_⟩
      · have hm' := (ht c hclosed').subset (List.mem_filter.mpr ⟨hm, hin⟩)
        obtain ⟨t', ht', rfl⟩ := List.mem_map.mp (List.mem_of_mem_filter hm')
        exact hc t' ht' (hleft t' ht' (Task.isIn_congr (hp t') c ▸ hin))
      · rw [Event.begun_append, Event.begun_eq_nil (hnew c hclosed').2, List.append_nil, hbeg]
    · exact hy u c r hm
  bounded u c limit stops operations here next hm hclosed := by
    have ho : .opened u c (.gather limit stops operations here next) ∈ s.past := by
      obtain hm | hm := List.mem_append.mp hm
      · exact hm
      · exact absurd hm ((hnew c hclosed).1 u _)
    refine Nat.le_trans (ht c hclosed).length_le (Nat.le_trans (Nat.le_of_eq ?_)
      (h.count_le hn hb ho))
    rw [List.filter_map, List.length_map]
    exact congrArg List.length (List.filter_congr fun t _ => Task.isIn_congr (hp t) c)

/-- A block is dropped. -/
theorem Closed.dropped (h : s.Closed) (hn : s.Numbered) (hb : s.Booked) (block : Nat)
    {es : List (Event δ σ ν ρ κ)} (he : ∀ e ∈ es, e.isNew = false)
    (hy : ∀ u c r, .yielded u c r ∈ es →
      Story.IsOver ⟨s.machine.dropBlock block, s.past ++ es⟩ c r) :
    Story.Closed ⟨s.machine.dropBlock block, s.past ++ es⟩ := by
  obtain ⟨htasks, hblocks, -, -⟩ := s.machine.dropBlock_eq block
  refine h.of_sublist hn hb (s.machine.leaving block) (by simp) (fun t _ hc => ?_)
    (fun c _ => ?_) (fun c _ hc b hm => ?_) (fun c _ => ⟨fun u n hm => ?_, fun i t p hm => ?_⟩) hy
  · unfold Machine.leaving
    split
    · rw [Task.isCancelled_stopIn, hc, Bool.or_true]
    · exact hc
  · rw [htasks]
  · rw [hblocks] at hm
    exact hc b (List.mem_of_mem_filter hm)
  · cases he _ hm
  · cases he _ hm

end Story

/-- A block that yields is over. -/
theorem Story.IsOver.of_yields {m : Machine δ σ ν ρ κ} {past : List (Event δ σ ν ρ κ)}
    (hn : Story.Numbered ⟨m, past⟩) (hb : Story.Booked ⟨m, past⟩) {b : Block δ σ ν ρ κ}
    (hm : b ∈ m.blocks) {r : Settled ρ κ} (hr : b.state.outcome? = some r)
    {es : List (Event δ σ ν ρ κ)} (he : ∀ e ∈ es, e.isNew = false) :
    Story.IsOver ⟨m.dropBlock b.id, past ++ es⟩ b.id r := by
  obtain ⟨n, ho, hs, hbeg, hst⟩ := hb.live b hm
  obtain ⟨ht, hblocks, -, -⟩ := m.dropBlock_eq b.id
  refine ⟨fun b' hm' hid => ?_, fun t hm' hin => ?_, b.owner, n, b.state,
    List.mem_append_left _ ho, hs, hr, ?_⟩
  · rw [hblocks] at hm'
    simpa [hid] using (List.mem_filter.mp hm').2
  · rw [ht] at hm'
    obtain ⟨t', ht', rfl⟩ := List.mem_map.mp hm'
    have hin' : t'.isIn b.id = true :=
      Task.isIn_congr (m.parent_leaving b.id t') b.id ▸ hin
    obtain ⟨_, _, _, _, _, g, rfl, hstate, hg⟩ | ⟨_, _, _, _, race, rfl, hstate, -⟩ := hs.shape
    · -- nothing of a gathering is running when it is over
      rw [hstate] at hr
      have hnone := (hg.launch.of_result hr).1
      rw [hg.running_launch] at hnone
      obtain ⟨i, hi⟩ := Task.isIn_iff.mp hin'
      have hrun := (hst.running i).mpr ⟨t', ht', hi⟩
      rw [hstate] at hrun
      have hrun : i ∈ g.running := hrun
      rw [(List.append_eq_nil_iff.mp hnone).1] at hrun
      cases hrun
    · -- what is left of a race is stopped
      have hrace : m.isRace b.id = true := by
        have hf := Machine.find?_of_nodup hn.blocks.nodup hm
        unfold Machine.isRace
        obtain ⟨id, owner, state⟩ := b
        dsimp only at hstate
        subst hstate
        have hf : m.blocks.find? (fun b => b.id == id) = some ⟨id, owner, .race race⟩ := hf
        rw [hf]
      unfold Machine.leaving
      rw [if_pos hrace, Task.isCancelled_stopIn, hin', Bool.true_or]
  · rw [Event.begun_append, Event.begun_of_not_isNew he, List.append_nil, hbeg]

/-- Tasks of other blocks do not count. -/
theorem Machine.filter_spawned_of_ne {block c : Nat} (h : block ≠ c) (task : Nat)
    (operations : List (Nat × Process δ σ ν ρ κ)) :
    (Machine.spawned block task operations).filter (Task.isIn c) = [] := by
  refine List.filter_eq_nil_iff.mpr fun t hm hin => ?_
  obtain ⟨-, -, op, -, hp, -⟩ := Machine.of_mem_spawned hm
  exact h (Task.isIn_inj (Task.isIn_iff.mpr ⟨op.1, hp⟩) hin)

/-- **A block that is not closed starts operations.** -/
theorem Story.Closed.spawned {s : Story δ σ ν ρ κ} (h : s.Closed) (hn : s.Numbered)
    (hb : s.Booked) {m : Machine δ σ ν ρ κ} {es : List (Event δ σ ν ρ κ)} {block task : Nat}
    {start : List (Nat × Process δ σ ν ρ κ)}
    (ht : m.tasks = s.machine.tasks ++ Machine.spawned block task start)
    (hopen : ∃ b ∈ m.blocks, b.id = block)
    (hblocks : ∀ c < s.machine.serial, (∀ b ∈ s.machine.blocks, b.id ≠ c) →
      ∀ b ∈ m.blocks, b.id ≠ c)
    (he : ∀ e ∈ es, (∃ u n, e = .opened u block n) ∨ e ∈ Event.starts block task start) :
    Story.Closed ⟨m, s.past ++ es⟩ := by
  obtain ⟨b, hbm, hid⟩ := hopen
  have hne : ∀ c, (∀ b ∈ m.blocks, b.id ≠ c) → block ≠ c := fun c hc => hid ▸ hc b hbm
  refine h.of_sublist hn hb id (fun _ => rfl) (fun _ _ hc => hc) (fun c hc => ?_) hblocks
    (fun c hc => ⟨fun u n hm => ?_, fun i t p hm => ?_⟩) fun u c r hm => ?_
  · rw [ht, List.filter_append, Machine.filter_spawned_of_ne (hne c hc), List.append_nil,
      List.map_id]
  · obtain ⟨_, _, he⟩ | hs := he _ hm
    · cases he
      exact hne _ hc rfl
    · obtain ⟨_, -, _, he, -⟩ := Machine.of_mem_starts hs
      cases he
  · obtain ⟨_, _, he⟩ | hs := he _ hm
    · cases he
    · obtain ⟨_, -, _, he, -⟩ := Machine.of_mem_starts hs
      cases he
      exact hne _ hc rfl
  · obtain ⟨_, _, he⟩ | hs := he _ hm
    · cases he
    · obtain ⟨_, -, _, he, -⟩ := Machine.of_mem_starts hs
      cases he

/-- **What is closed stays closed.** -/
theorem Change.closed {a b : Story δ σ ν ρ κ} (h : Change a b) (hn : a.Numbered)
    (hb : a.Booked) (ha : a.Closed) : b.Closed := by
  cases h with
  | @quiet m m' past es ht hbl _ he =>
    refine ha.of_sublist hn hb id (fun _ => rfl) (fun _ _ hc => hc) (fun c _ => ?_)
      (fun c _ hc b hm => hc b (hbl ▸ hm))
      (fun c _ => ⟨fun u n hm => ?_, fun i t p hm => ?_⟩) fun u c r hm => ?_
    · rw [ht, List.map_id]
    all_goals cases he _ hm
  | @begin m past p hm =>
    have hall : Story.Closed ⟨m.begin p, past ++ []⟩ := ha.of_sublist hn hb id (fun _ => rfl)
      (fun _ _ hc => hc) (fun c _ => ?_) (fun c _ hc => hc) (fun c _ => ⟨nofun, nofun⟩) nofun
    · rwa [List.append_nil] at hall
    · show List.Sublist ((_ :: m.tasks).filter _) _
      rw [List.filter_cons_of_neg (by simp [Task.isIn]), List.map_id]
  | @opens m past task node here next state start ht _ =>
    obtain ⟨htasks, hblocks, -, -⟩ := m.openBlock_eq task.id state start
    refine ha.spawned hn hb htasks ⟨⟨m.serial, task.id, state⟩, by rw [hblocks]; simp, rfl⟩
      (fun c hlt hc b hm => ?_) fun e hm => ?_
    · rw [hblocks] at hm
      obtain rfl | hm := List.mem_cons.mp hm
      · exact Nat.ne_of_gt hlt
      · exact hc b hm
    · exact (List.mem_cons.mp hm).imp_left fun he => ⟨_, _, he⟩
  | @launches m past block owner g hbl =>
    obtain ⟨htasks, hblocks, -, -⟩ := Machine.spawnAll_eq block g.launch.1
      (m.putBlock ⟨block, owner, .gathering g.launch.2⟩)
    -- the books of the block are put back under its number
    have hids : ∀ {c}, c ∈ (m.putBlock ⟨block, owner, .gathering g.launch.2⟩).blocks.map Block.id
        ↔ c ∈ m.blocks.map Block.id := by
      rw [Machine.map_id_putBlock]
    refine ha.spawned hn hb htasks ?_ (fun c _ hc b hm hid => ?_) fun e hm => .inr hm
    · rw [hblocks]
      exact List.mem_map.mp (hids.mpr (List.mem_map_of_mem hbl))
    · rw [hblocks] at hm
      obtain ⟨b', hm', hid'⟩ := List.mem_map.mp (hids.mp (List.mem_map_of_mem hm))
      exact hc b' hm' (hid'.trans hid)
  | @yields m past task b s hbl hs =>
    refine ha.dropped hn hb b.id Machine.isNew_of_yields fun u c r hm => ?_
    obtain hm | hm := List.mem_cons.mp hm
    · cases hm
      exact .of_yields hn hb hbl hs Machine.isNew_of_yields
    · obtain ⟨_, _, he⟩ := Machine.of_mem_stops hm
      cases he
  | @drops m past es block he =>
    have hq : ∀ e ∈ es ++ m.stops block, e.isQuiet = true := Machine.isQuiet_of_drops he
    refine ha.dropped hn hb block (fun e hm => Event.isNew_of_isQuiet (hq e hm))
      fun u c r hm => ?_
    cases hq _ hm
  | @pauses m past task w ht =>
    have hall : Story.Closed ⟨{ m with tasks := m.tasks.map fun t =>
        if t.id = task.id then { t with state := .waiting w } else t }, past ++ []⟩ :=
      ha.of_sublist hn hb
      (fun t => if t.id = task.id then { t with state := .waiting w } else t)
      (fun t => by split <;> rfl) (fun t hm hc => ?_) (fun c _ => List.Sublist.refl _)
      (fun c _ hc => hc) (fun c _ => ⟨nofun, nofun⟩) nofun
    · rwa [List.append_nil] at hall
    · -- the task that has its turn has not been stopped
      obtain ⟨t', hm', hid, -, hc'⟩ := ht
      split
      · rename_i hid'
        rw [hn.task_inj hm hm' (hid'.trans hid.symm), hc'] at hc
        cases hc
      · exact hc
  | @ends m past task s ht =>
    obtain ⟨htasks, hblocks, -, -⟩ := Machine.finish_eq hn.blocks.nodup task s
    refine ha.of_sublist hn hb id (fun _ => rfl) (fun _ _ hc => hc) (fun c _ => ?_)
      (fun c _ hc b hm => ?_) (fun c _ => ⟨by simp, by simp⟩) (by simp)
    · rw [htasks, List.map_id]
      exact List.filter_sublist.filter _
    · rw [hblocks] at hm
      obtain ⟨b', hm', rfl⟩ := List.mem_map.mp hm
      rw [Block.id_hear]
      exact hc b' hm'
  | @forgets m past t ht hc =>
    have hall : Story.Closed ⟨m.removeTask t.id, past ++ []⟩ := ha.of_sublist hn hb id
      (fun _ => rfl) (fun _ _ hc => hc) (fun c _ => ?_) (fun c _ hc => hc)
      (fun c _ => ⟨nofun, nofun⟩) nofun
    · rwa [List.append_nil] at hall
    · rw [List.map_id]
      exact List.filter_sublist.filter _

/-! ## All moments -/

namespace Moment

/-- **A moment is in order**: numbers, books and closed blocks are as they should
be. -/
structure Orderly (b : Moment δ σ ν ρ κ) : Prop where
  seated : b.Seated
  numbered : b.story.Numbered
  booked : b.story.Booked
  closed : b.story.Closed

theorem orderly_ofWorld (w : σ) :
    (⟨.idle, .ofWorld w, []⟩ : Moment δ σ ν ρ κ).Orderly :=
  ⟨seated_ofWorld w, .ofWorld w, .ofWorld w, .ofWorld w⟩

variable [Deeds δ σ] {P : Process δ σ ν ρ κ → Prop} {a b : Moment δ σ ν ρ κ}

theorem Next.orderly (h : Next P a b) (ha : a.Orderly) : b.Orderly := by
  obtain ⟨hn, hb, hc⟩ := h.story_of_changes (K := fun s => s.Booked ∧ s.Closed)
    (fun _ _ hs hn hk => ⟨hs.booked hn hk.1, hs.closed hn hk.1 hk.2⟩)
    ha.seated ha.numbered ⟨ha.booked, ha.closed⟩
  exact ⟨h.seated ha.numbered ha.seated, hn, hb, hc⟩

/-- **All moments are in order.** -/
theorem Later.orderly {w : σ} (h : Later P ⟨.idle, .ofWorld w, []⟩ b) : b.Orderly := by
  induction h with
  | refl => exact orderly_ofWorld w
  | tail _ h ih => exact h.orderly ih

end Moment

end Playbook
