import Playbook.Proofs.Process.Fate

/-!
# What blocks hear of their operations

A block is told how its operations have ended, and when it is over it yields what it
was told. Nothing is made up and nothing is mixed up on the way: a settlement that a
block has in its books, or has yielded, is how the task has ended that was started
for the operation at that position (`Story.Heard`). A task ends once only.

What a step can settle is said once, in `Moment.Next.settles`.
-/

namespace Playbook

variable {δ σ ν ρ κ : Type}

open Machine (Task Block BlockState)

/-! ## What steps settle -/

/-- Whether an event tells of the end of a task or of a block. -/
def Event.isEnd : Event δ σ ν ρ κ → Bool
  | yielded _ _ _ => true
  | ended _ _ => true
  | _ => false

/-- What a task ends with that has come to the end of its process. -/
def Process.settlement? (task : Nat) : Process δ σ ν ρ κ → Option (Settlement ρ κ)
  | done r => some (.finished r)
  | crash a => some (.crashed task a)
  | _ => none

theorem Machine.BlockState.settled_settle (i : Nat) (s : Settlement ρ κ)
    (b : BlockState δ σ ν ρ κ) : (b.settle i s).settled = b.settled ++ [(i, s)] := by
  cases b <;> rfl

/-- What a block hears of a task is about one of its operations. -/
theorem Machine.Block.mem_settled_hear {task : Task δ σ ν ρ κ} {s : Settlement ρ κ}
    {b : Block δ σ ν ρ κ} {e : Nat × Settlement ρ κ} (h : e ∈ (b.hear task s).state.settled) :
    e ∈ b.state.settled ∨ ∃ i, task.parent = some (b.id, i) ∧ e = (i, s) := by
  cases hin : task.isIn b.id with
  | false =>
    rw [hear_of_not_isIn hin] at h
    exact .inl h
  | true =>
    obtain ⟨i, hi⟩ := Task.isIn_iff.mp hin
    rw [hear_of_parent hi, BlockState.settled_settle] at h
    exact (List.mem_append.mp h).imp_right fun he => ⟨i, hi, List.mem_singleton.mp he⟩

/-- A block is opened before anything has settled. -/
theorem Process.Opens.settled {here : ν} {next : Settled ρ κ → Process δ σ ν ρ κ}
    {node : Process δ σ ν ρ κ} {state : BlockState δ σ ν ρ κ}
    {start : List (Nat × Process δ σ ν ρ κ)} (h : Opens here next node state start) :
    state.settled = [] := by
  cases h with
  | gather hl =>
    have hset := congrArg (fun a => a.2.settled) hl
    exact hset.symm
  | race => rfl

namespace Moment

/-- **Nothing settles from one moment to the next**: no task ends and no block yields,
and the books tell of the same settlements as before. Blocks and tasks are as they were, or
have new numbers, but for main tasks. -/
structure Unsettled (a b : Moment δ σ ν ρ κ) : Prop where
  past : ∃ es, b.past = a.past ++ es ∧ ∀ e ∈ es, e.isEnd = false
  blocks : ∀ B ∈ b.machine.blocks, B.state.settled = [] ∧ a.machine.serial ≤ B.id
    ∨ ∃ B' ∈ a.machine.blocks, B'.id = B.id ∧ B'.state.settled = B.state.settled
  tasks : ∀ t ∈ b.machine.tasks, t.id = Machine.mainId ∨ a.machine.serial ≤ t.id
    ∨ ∃ t' ∈ a.machine.tasks, t'.id = t.id

theorem Unsettled.subset {a b : Moment δ σ ν ρ κ} (h : Unsettled a b) : a.past ⊆ b.past := by
  obtain ⟨es, hpast, -⟩ := h.past
  rw [hpast]
  exact List.subset_append_left _ _

/-- What has ended then, has ended before. -/
theorem Unsettled.mem_of_isEnd {a b : Moment δ σ ν ρ κ} (h : Unsettled a b)
    {e : Event δ σ ν ρ κ} (hm : e ∈ b.past) (he : e.isEnd = true) : e ∈ a.past := by
  obtain ⟨es, hpast, hes⟩ := h.past
  obtain hm | hm := List.mem_append.mp (hpast ▸ hm)
  · exact hm
  · rw [hes e hm] at he
    cases he

section

variable {m m' : Machine δ σ ν ρ κ} {past es : List (Event δ σ ν ρ κ)}
  {s s' : Stage δ σ ν ρ κ}

/-- Blocks and tasks are forgotten, at most. -/
theorem Unsettled.of_subset (he : ∀ e ∈ es, e.isEnd = false)
    (hb : m'.blocks ⊆ m.blocks) (ht : m'.tasks.map Task.id ⊆ m.tasks.map Task.id) :
    Unsettled ⟨s, m, past⟩ ⟨s', m', past ++ es⟩ where
  past := ⟨es, rfl, he⟩
  blocks B hm := .inr ⟨B, hb hm, rfl, rfl⟩
  tasks _ hm := .inr (.inr (List.mem_map.mp (ht (List.mem_map_of_mem hm))))

theorem Unsettled.of_nil (h : Unsettled ⟨s, m, past⟩ ⟨s', m', past ++ []⟩) :
    Unsettled ⟨s, m, past⟩ ⟨s', m', past⟩ := by
  rwa [List.append_nil] at h

theorem Unsettled.dropBlock (he : ∀ e ∈ es, e.isEnd = false)
    (hb : m'.blocks ⊆ m.blocks) (ht : m'.tasks.map Task.id ⊆ m.tasks.map Task.id) (block : Nat) :
    Unsettled ⟨s, m, past⟩ ⟨s', m'.dropBlock block, past ++ es⟩ := by
  obtain ⟨htasks, hblocks, -, -⟩ := m'.dropBlock_eq block
  have hids : (m'.tasks.map (m'.leaving block)).map Task.id = m'.tasks.map Task.id := by
    rw [List.map_map]
    exact List.map_congr_left fun _ _ => m'.id_leaving block _
  refine .of_subset he ?_ ?_
  · rw [hblocks]
    exact List.Subset.trans (List.filter_subset_self _) hb
  · rw [htasks, hids]
    exact ht

/-- A waiting process is dropped. -/
theorem Unsettled.drop (w : Waiting δ σ ν ρ κ) (he : ∀ e ∈ es, e.isEnd = false)
    (hb : m'.blocks ⊆ m.blocks) (ht : m'.tasks.map Task.id ⊆ m.tasks.map Task.id) :
    Unsettled ⟨s, m, past⟩ ⟨s', m'.drop w, past ++ es⟩ := by
  obtain ⟨hd, -⟩ | ⟨block, -, hd, -⟩ := m'.drop_eq w
  · rw [hd]
    exact .of_subset he hb ht
  · rw [hd]
    exact .dropBlock he hb ht block

/-- Operations of a block are started. -/
theorem Unsettled.spawned {block task : Nat} {start : List (Nat × Process δ σ ν ρ κ)}
    (he : ∀ e ∈ es, e.isEnd = false) (hle : m.serial ≤ task)
    (ht : m'.tasks = m.tasks ++ Machine.spawned block task start)
    (hb : ∀ B ∈ m'.blocks, B.state.settled = [] ∧ m.serial ≤ B.id
      ∨ ∃ B' ∈ m.blocks, B'.id = B.id ∧ B'.state.settled = B.state.settled) :
    Unsettled ⟨s, m, past⟩ ⟨s', m', past ++ es⟩ where
  past := ⟨es, rfl, he⟩
  blocks := hb
  tasks t hm := by
    obtain hm | hm := List.mem_append.mp (ht ▸ hm)
    · exact .inr (.inr ⟨t, hm, rfl⟩)
    · exact .inr (.inl (Nat.le_trans hle (Machine.of_mem_spawned hm).1))

end

variable [Deeds δ σ] {P : Process δ σ ν ρ κ → Prop} {a b : Moment δ σ ν ρ κ}

/-- **What a step settles**: nothing, or a block yields, or a task ends. -/
theorem Next.settles (h : Next P a b) :
    Unsettled a b
    ∨ (∃ task B here next limits s,
        a.stage = .woken task (.blocked B.id here next) limits ∧ B ∈ a.machine.blocks
        ∧ B.state.outcome? = some s
        ∧ b = ⟨.going task (next s) limits, a.machine.dropBlock B.id,
            a.past ++ .yielded task.id B.id s :: a.machine.stops B.id⟩)
    ∨ ∃ task p s, a.stage = .going task p [] ∧ p.settlement? task.id = some s
        ∧ b = ⟨.idle, (a.machine.finish task s).2, a.past ++ [.ended task.id s]⟩ := by
  have same : ∀ {m m' : Machine δ σ ν ρ κ} {past : List (Event δ σ ν ρ κ)}
      {s s' : Stage δ σ ν ρ κ}, m'.blocks = m.blocks →
      m'.tasks.map Task.id = m.tasks.map Task.id → Unsettled ⟨s, m, past⟩ ⟨s', m', past⟩ := by
    intro m m' past s s' hb ht
    refine .of_nil (.of_subset nofun ?_ ?_)
    · rw [hb]
      exact List.Subset.refl _
    · rw [ht]
      exact List.Subset.refl _
  have hsub : ∀ {α : Type} {as : List α}, as ⊆ as := @List.Subset.refl
  cases h with
  | @begin m past p =>
    refine .inl ⟨⟨[], (List.append_nil _).symm, nofun⟩, fun B hm => .inr ⟨B, hm, rfl, rfl⟩,
      fun t hm => ?_⟩
    obtain rfl | hm := List.mem_cons.mp hm
    · exact .inl rfl
    · exact .inr (.inr ⟨t, hm, rfl⟩)
  | reorder hr => exact .inl (same hr.blocks (by rw [hr.tasks]))
  | move | sleep => exact .inl (same rfl rfl)
  | forget =>
    exact .inl (.of_nil (.of_subset nofun hsub (List.map_subset _ (List.filter_subset_self _))))
  | forgetWaiting =>
    exact .inl (.drop _ (Machine.forall_mem_drops fun _ _ => rfl) hsub
      (List.map_subset _ (List.filter_subset_self _)))
  | act => exact .inl (.of_subset (by simp [Event.isEnd]) hsub hsub)
  | @opens m past task node here next state start limits h =>
    obtain ⟨ht, hb, -, -⟩ := m.openBlock_eq task.id state start
    refine .inl (.spawned (List.forall_mem_cons.mpr
      ⟨rfl, Machine.forall_mem_starts fun _ _ _ _ => rfl⟩) (Nat.le_succ _) ht fun B hm => ?_)
    rw [hb] at hm
    obtain rfl | hm := List.mem_cons.mp hm
    · exact .inl ⟨h.settled, Nat.le_refl _⟩
    · exact .inr ⟨B, hm, rfl, rfl⟩
  | @attend m past task block here next limits m' h =>
    obtain ⟨rfl, he⟩ | ⟨owner, g, hg, rfl, he⟩ := Machine.of_attend_none h
    · rw [he]
      exact .inl (.of_subset nofun hsub hsub)
    · obtain ⟨ht, hb, -, -⟩ := Machine.spawnAll_eq block g.launch.1
        (m.putBlock ⟨block, owner, .gathering g.launch.2⟩)
      refine .inl (.spawned (Machine.forall_mem_launches fun _ _ _ _ => rfl) (Nat.le_refl _) ht
        fun B hm => ?_)
      rw [hb] at hm
      obtain rfl | ⟨hm, -⟩ := Machine.of_mem_putBlock hm
      · exact .inr ⟨_, hg, rfl, rfl⟩
      · exact .inr ⟨B, hm, rfl, rfl⟩
  | @yield m past task block here next limits s m' h =>
    obtain ⟨rfl, B, hB, rfl, hs⟩ := Machine.of_attend_some h
    exact .inr (.inl ⟨task, B, here, next, limits, s, rfl, hB, hs, rfl⟩)
  | @keep m past task w limits l =>
    cases l with
    | set | running => exact .inl (same rfl rfl)
  | timeOut =>
    exact .inl (.drop _ (List.forall_mem_cons.mpr
      ⟨rfl, Machine.forall_mem_drops fun _ _ => rfl⟩) hsub hsub)
  | @pause m past task w =>
    refine .inl (same rfl ?_)
    show (m.tasks.map _).map Task.id = _
    rw [List.map_map]
    refine List.map_congr_left fun t _ => ?_
    show (if t.id = task.id then { t with state := .waiting w } else t).id = t.id
    split <;> rfl
  | finish | crash => exact .inr (.inr ⟨_, _, _, rfl, rfl, rfl⟩)

end Moment

/-! ## What the past tells of settlements -/

/-- **An operation of a block has ended so**: the task that was started for it. -/
def Event.EndedAs (past : List (Event δ σ ν ρ κ)) (block : Nat)
    (e : Nat × Settlement ρ κ) : Prop :=
  ∃ t p, .started block e.1 t p ∈ past ∧ .ended t e.2 ∈ past

theorem Event.EndedAs.mono {past past' : List (Event δ σ ν ρ κ)} (hp : past ⊆ past')
    {block : Nat} {e : Nat × Settlement ρ κ} (h : EndedAs past block e) :
    EndedAs past' block e := by
  obtain ⟨t, p, hs, he⟩ := h
  exact ⟨t, p, hp hs, hp he⟩

/-- **What blocks have heard of their operations is how these have ended.** Tasks that
have ended are gone and do not end again, main tasks apart, which share their
number. -/
structure Story.Heard (s : Story δ σ ν ρ κ) : Prop where
  gone : ∀ t r, .ended t r ∈ s.past → t ≠ Machine.mainId →
    t < s.machine.serial ∧ ∀ t' ∈ s.machine.tasks, t'.id ≠ t
  once : ∀ t r r', .ended t r ∈ s.past → .ended t r' ∈ s.past → t ≠ Machine.mainId → r = r'
  settled : ∀ b ∈ s.machine.blocks, ∀ e ∈ b.state.settled, Event.EndedAs s.past b.id e
  yielded : ∀ u c r, .yielded u c r ∈ s.past → ∀ e ∈ r, Event.EndedAs s.past c e

theorem Race.upTo_subset (p : Settlement ρ κ → Bool) (s : Settled ρ κ) : upTo p s ⊆ s := by
  induction s with
  | nil => exact List.nil_subset _
  | cons e rest ih =>
    unfold upTo
    split
    · exact List.cons_subset_cons _ (List.nil_subset _)
    · exact List.cons_subset_cons _ ih

/-- A block yields what it has heard. -/
theorem Machine.BlockState.subset_of_outcome? {b : BlockState δ σ ν ρ κ} {s : Settled ρ κ}
    (h : b.outcome? = some s) : s ⊆ b.settled := by
  cases b with
  | gathering g =>
    have h : g.launch.2.result? = some s := h
    unfold Gathering.result? at h
    split at h
    · exact (Gathering.Sound.of_mapM_find? h).2
    · cases h
  | race r =>
    have h : r.result? = some s := h
    unfold Race.result? at h
    split at h
    · cases h
      exact Race.upTo_subset _ _
    · split at h
      · cases h
        exact List.Subset.refl _
      · cases h

namespace Story.Heard

variable {s : Story δ σ ν ρ κ} {m : Machine δ σ ν ρ κ} {es : List (Event δ σ ν ρ κ)}

theorem ofWorld (w : σ) : (⟨.ofWorld w, []⟩ : Story δ σ ν ρ κ).Heard :=
  ⟨nofun, nofun, nofun, nofun⟩

/-- A task that has ended does not come back. -/
theorem gone_of_tasks (h : s.Heard) (hs : s.machine.serial ≤ m.serial)
    (ht : ∀ t ∈ m.tasks, t.id = Machine.mainId ∨ s.machine.serial ≤ t.id
      ∨ ∃ t' ∈ s.machine.tasks, t'.id = t.id)
    {t : Nat} {r : Settlement ρ κ} (he : .ended t r ∈ s.past) (hmain : t ≠ Machine.mainId) :
    t < m.serial ∧ ∀ t' ∈ m.tasks, t'.id ≠ t := by
  obtain ⟨hlt, hgone⟩ := h.gone t r he hmain
  refine ⟨Nat.lt_of_lt_of_le hlt hs, fun t' hm hid => ?_⟩
  obtain hid' | hle | ⟨t'', hm'', hid''⟩ := ht t' hm
  · exact hmain (hid.symm.trans hid')
  · omega
  · exact hgone t'' hm'' (hid''.trans hid)

/-- Nothing settles. -/
theorem of_unsettled {a b : Moment δ σ ν ρ κ} (h : a.story.Heard) (hu : Moment.Unsettled a b)
    (hs : a.machine.serial ≤ b.machine.serial) : b.story.Heard := by
  refine ⟨fun t r he => h.gone_of_tasks hs hu.tasks (hu.mem_of_isEnd he rfl),
    fun t r r' he he' => h.once t r r' (hu.mem_of_isEnd he rfl) (hu.mem_of_isEnd he' rfl),
    fun B hm e he => ?_,
    fun u c r hy e he => (h.yielded u c r (hu.mem_of_isEnd hy rfl) e he).mono hu.subset⟩
  obtain ⟨hnone, -⟩ | ⟨B', hm', hid, hset⟩ := hu.blocks B hm
  · rw [hnone] at he
    cases he
  · exact (hid ▸ h.settled B' hm' e (hset ▸ he)).mono hu.subset

/-- A block yields what it has heard. -/
theorem yields (h : s.Heard) {b : Block δ σ ν ρ κ} (hm : b ∈ s.machine.blocks)
    {r : Settled ρ κ} (hr : b.state.outcome? = some r) (task : Nat) :
    Story.Heard ⟨s.machine.dropBlock b.id,
      s.past ++ .yielded task b.id r :: s.machine.stops b.id⟩ := by
  have hsub : s.past ⊆ s.past ++ .yielded task b.id r :: s.machine.stops b.id :=
    List.subset_append_left _ _
  have hend : ∀ {t q}, .ended t q ∈ s.past ++ .yielded task b.id r :: s.machine.stops b.id →
      .ended t q ∈ s.past := by
    intro t q he
    obtain he | he := List.mem_append.mp he
    · exact he
    · obtain he | he := List.mem_cons.mp he
      · cases he
      · obtain ⟨_, _, h⟩ := Machine.of_mem_stops he
        cases h
  obtain ⟨htasks, hblocks, hserial, -⟩ := s.machine.dropBlock_eq b.id
  refine ⟨fun t q he => h.gone_of_tasks (Nat.le_of_eq hserial.symm) (fun t' hm' => ?_) (hend he),
    fun t q q' he he' => h.once t q q' (hend he) (hend he'), fun b' hm' e he => ?_,
    fun u c q hy e he => ?_⟩
  · rw [htasks] at hm'
    obtain ⟨t'', hm'', rfl⟩ := List.mem_map.mp hm'
    exact .inr (.inr ⟨t'', hm'', (Machine.id_leaving b.id _ t'').symm⟩)
  · rw [hblocks] at hm'
    exact (h.settled b' (List.mem_of_mem_filter hm') e he).mono hsub
  · obtain hy | hy := List.mem_append.mp hy
    · exact (h.yielded u c q hy e he).mono hsub
    · obtain hy | hy := List.mem_cons.mp hy
      · cases hy
        exact (h.settled b hm e (BlockState.subset_of_outcome? hr he)).mono hsub
      · obtain ⟨_, _, h⟩ := Machine.of_mem_stops hy
        cases h

/-- A task ends, and its block hears of it. -/
theorem ends (h : s.Heard) (hn : s.Numbered) (hb : s.Booked) {task : Task δ σ ν ρ κ}
    (ht : s.machine.Alive task) (r : Settlement ρ κ) :
    Story.Heard ⟨(s.machine.finish task r).2, s.past ++ [.ended task.id r]⟩ := by
  have hsub : s.past ⊆ s.past ++ [.ended task.id r] := List.subset_append_left _ _
  have hend : ∀ {t q}, .ended t q ∈ s.past ++ [.ended task.id r] →
      .ended t q ∈ s.past ∨ t = task.id ∧ q = r := by
    intro t q he
    obtain he | he := List.mem_append.mp he
    · exact .inl he
    · cases List.mem_singleton.mp he
      exact .inr ⟨rfl, rfl⟩
  obtain ⟨t₀, hm₀, hid₀, hpar₀, -⟩ := ht
  obtain ⟨htasks, hblocks, hserial, -⟩ := Machine.finish_eq hn.blocks.nodup task r
  refine ⟨fun t q he hmain => ?_, fun t q q' he he' hmain => ?_, fun b hm e he => ?_,
    fun u c q hy e he => ?_⟩
  · obtain he | ⟨rfl, -⟩ := hend he
    · refine h.gone_of_tasks (Nat.le_of_eq hserial.symm) (fun t' hm' => ?_) he hmain
      rw [htasks] at hm'
      exact .inr (.inr ⟨t', List.mem_of_mem_filter hm', rfl⟩)
    · refine ⟨?_, fun t' hm' => ?_⟩
      · show task.id < (s.machine.finish task r).2.serial
        rw [hserial, ← hid₀]
        exact hn.task_lt hm₀
      · rw [htasks] at hm'
        exact of_decide_eq_true (List.mem_filter.mp hm').2
  · -- the task was there before it ended
    have hnew : ∀ q, .ended task.id q ∈ s.past → task.id ≠ Machine.mainId → False :=
      fun q hq hne => (h.gone task.id q hq hne).2 t₀ hm₀ hid₀
    obtain hq | ⟨ht, hq⟩ := hend he
    · obtain hq' | ⟨ht', -⟩ := hend he'
      · exact h.once t q q' hq hq' hmain
      · exact (hnew q (ht' ▸ hq) (ht' ▸ hmain)).elim
    · obtain hq' | ⟨-, hq'⟩ := hend he'
      · exact (hnew q' (ht ▸ hq') (ht ▸ hmain)).elim
      · exact hq.trans hq'.symm
  · rw [hblocks] at hm
    obtain ⟨b', hm', rfl⟩ := List.mem_map.mp hm
    rw [Block.id_hear]
    obtain he | ⟨i, hpar, rfl⟩ := Block.mem_settled_hear he
    · exact (h.settled b' hm' e he).mono hsub
    · obtain ⟨p, hp⟩ := hb.task_started t₀ hm₀ b'.id i (hpar₀.trans hpar)
      exact ⟨task.id, p, List.mem_append_left _ (hid₀ ▸ hp),
        List.mem_append_right _ List.mem_cons_self⟩
  · obtain hy | hy := List.mem_append.mp hy
    · exact (h.yielded u c q hy e he).mono hsub
    · cases List.mem_singleton.mp hy

end Story.Heard

/-! ## Operations by their positions -/

/-- An operation of a block that has been started is counted. -/
theorem Event.mem_begun {past : List (Event δ σ ν ρ κ)} {block i t : Nat}
    {p : Process δ σ ν ρ κ} (h : .started block i t p ∈ past) : i ∈ begun block past :=
  List.mem_filterMap.mpr ⟨_, h, if_pos rfl⟩

/-- In a block that starts no operation twice, each has one task. -/
theorem Event.eq_of_nodup_begun {past : List (Event δ σ ν ρ κ)} {block : Nat}
    (h : (begun block past).Nodup) {i t t' : Nat} {p p' : Process δ σ ν ρ κ}
    (hs : .started block i t p ∈ past) (hs' : .started block i t' p' ∈ past) : t = t' := by
  have hnot : ∀ {rest : List (Event δ σ ν ρ κ)} {t t' : Nat} {p p' : Process δ σ ν ρ κ},
      (begun block (.started block i t p :: rest)).Nodup → .started block i t' p' ∉ rest := by
    intro rest t t' p p' hd hm
    have hcons : begun block (.started block i t p :: rest) = i :: begun block rest :=
      List.filterMap_cons_some (if_pos rfl)
    rw [hcons] at hd
    exact (List.nodup_cons.mp hd).1 (mem_begun hm)
  induction past with
  | nil => cases hs
  | cons e rest ih =>
    obtain rfl | hm := List.mem_cons.mp hs
    · obtain he | hm' := List.mem_cons.mp hs'
      · cases he
        rfl
      · exact (hnot h hm').elim
    · obtain rfl | hm' := List.mem_cons.mp hs'
      · exact (hnot h hm).elim
      · exact ih (h.sublist ((List.sublist_cons_self e rest).filterMap _)) hm hm'

namespace Moment

variable [Deeds δ σ] {P : Process δ σ ν ρ κ → Prop} {a b : Moment δ σ ν ρ κ}

theorem Next.heard (h : Next P a b) (ho : a.Orderly) (ha : a.story.Heard) :
    b.story.Heard := by
  have hserial := (h.extends ho).serial
  obtain hu | ⟨task, B, here, next, limits, s, -, hB, hs, rfl⟩ | ⟨task, p, s, hstage, -, rfl⟩ :=
    h.settles
  · exact ha.of_unsettled hu hserial
  · exact ha.yields hB hs task.id
  · exact ha.ends ho.numbered ho.booked (ho.seated.alive task (by rw [hstage]; rfl)) s

/-- **What blocks have heard is true**, at all moments. -/
theorem Later.heard {w : σ} (h : Later P ⟨.idle, .ofWorld w, []⟩ b) : b.story.Heard := by
  induction h with
  | refl => exact .ofWorld w
  | tail hl h ih => exact h.heard (Later.orderly hl) ih

section

variable {w : σ} {u u' c limit : Nat} {stops : ρ → Bool} {operations : List (Process δ σ ν ρ κ)}
  {here : ν} {next : Settled ρ κ → Process δ σ ν ρ κ} {s : Settled ρ κ}

/-- **The operations of a gathering that has yielded have ended**, and it has yielded how, each
at its position. -/
theorem Later.ended_of_yielded (h : Later P ⟨.idle, .ofWorld w, []⟩ b)
    (ho : .opened u c (.gather limit stops operations here next) ∈ b.past)
    (hy : .yielded u' c s ∈ b.past) {i t : Nat} {p : Process δ σ ν ρ κ}
    (hs : .started c i t p ∈ b.past) : ∃ r, .ended t r ∈ b.past ∧ s[i]? = some (i, r) := by
  have hord := Later.orderly h
  obtain ⟨hpos, hbegun, -⟩ := hord.closed.gathered hord.booked ho hy
  have hbegun : Event.begun c b.past = List.range s.length := hbegun
  have hlt : i < s.length := by
    have hi := Event.mem_begun hs
    rwa [hbegun, List.mem_range] at hi
  have hfst : s[i].1 = i := by
    have hi : (s.map Prod.fst)[i]? = some i := by
      rw [hpos, List.getElem?_range hlt]
    rw [List.getElem?_map, List.getElem?_eq_getElem hlt] at hi
    exact Option.some.inj hi
  -- the task that is heard of is the one that was started
  obtain ⟨t', p', hs', he'⟩ := (Later.heard h).yielded u' c s hy _ (List.getElem_mem hlt)
  rw [hfst] at hs'
  cases Event.eq_of_nodup_begun (hbegun ▸ List.nodup_range) hs hs'
  refine ⟨s[i].2, he', ?_⟩
  rw [List.getElem?_eq_getElem hlt]
  exact congrArg some (Prod.ext hfst rfl)

/-- **A gathering yields how its operations have ended**, each at its position. -/
theorem Later.getElem?_of_yielded (h : Later P ⟨.idle, .ofWorld w, []⟩ b)
    (ho : .opened u c (.gather limit stops operations here next) ∈ b.past)
    (hy : .yielded u' c s ∈ b.past) {i t : Nat} {p : Process δ σ ν ρ κ}
    (hs : .started c i t p ∈ b.past) {r : Settlement ρ κ} (he : .ended t r ∈ b.past) :
    s[i]? = some (i, r) := by
  obtain ⟨r', he', hget⟩ := h.ended_of_yielded ho hy hs
  rwa [(Later.heard h).once t r r' he he' ((Later.orderly h).numbered.ne_main hs)]

/-- **A gathering that has yielded has no tasks any more.** -/
theorem Later.count_of_yielded (h : Later P ⟨.idle, .ofWorld w, []⟩ b)
    (ho : .opened u c (.gather limit stops operations here next) ∈ b.past)
    (hy : .yielded u' c s ∈ b.past) : b.machine.count c = 0 := by
  have hord := Later.orderly h
  refine List.length_eq_zero_iff.mpr (List.filter_eq_nil_iff.mpr fun t ht hin => ?_)
  obtain ⟨i, hi⟩ := Task.isIn_iff.mp hin
  obtain ⟨p, hs⟩ := hord.booked.task_started t ht c i hi
  obtain ⟨r, hend, -⟩ := h.ended_of_yielded ho hy hs
  exact ((Later.heard h).gone t.id r hend (hord.numbered.ne_main hs)).2 t ht rfl

end

end Moment

end Playbook
