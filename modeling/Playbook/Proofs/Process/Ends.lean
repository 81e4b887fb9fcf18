import Mathlib.Data.List.Perm.Subperm
import Playbook.Proofs.Process.Meets
import Playbook.Proofs.Process.Settled
import Playbook.Proofs.Process.Wake

/-!
# How the operations of a block have ended

What has happened tells how the operations of a block have ended, in the order in which
they did: `Event.ends`. This order is what a race looks at. It does not need the books of the
block: these say the same while the block is there (`Moment.Later.settled_eq`), and the past
goes on telling of operations that end when it is gone.

The ends of a block only grow (`Moment.Later.ends_prefix`), and no operation ends twice
(`Moment.Later.nodup_ends`). So what the first of them have decided stays decided
(`Race.result?_of_prefix`).
-/

namespace Playbook

variable {δ σ ν ρ κ : Type}

open Machine (Task Block BlockState)

namespace Event

/-- The position of an operation in a block, by the task that was started for it. -/
def position? (block task : Nat) (past : List (Event δ σ ν ρ κ)) : Option Nat :=
  past.findSome? fun
    | started c i t _ => if c = block ∧ t = task then some i else none
    | _ => none

/-- The end that is told of, at the position of the task. -/
def end? (position? : Nat → Option Nat) : Event δ σ ν ρ κ → Option (Nat × Settlement ρ κ)
  | ended task s => (position? task).map fun i => (i, s)
  | _ => none

/-- **How the operations of a block have ended**, in the order in which they did. -/
def ends (block : Nat) (past : List (Event δ σ ν ρ κ)) : Settled ρ κ :=
  past.filterMap (end? fun task => position? block task past)

variable {past : List (Event δ σ ν ρ κ)} {block task i : Nat}

theorem exists_started_of_position? (h : position? block task past = some i) :
    ∃ p, .started block i task p ∈ past := by
  obtain ⟨e, hm, he⟩ := List.exists_of_findSome?_eq_some h
  cases e with
  | started c j t p =>
    obtain ⟨⟨rfl, rfl⟩, hj⟩ := Option.ite_none_right_eq_some.mp he
    cases hj
    exact ⟨p, hm⟩
  | _ => cases he

end Event

/-- When a block yields, no task ends. -/
theorem Machine.not_ended_of_yields {m : Machine δ σ ν ρ κ} {task block t : Nat}
    {s : Settled ρ κ} {r : Settlement ρ κ} :
    (.ended t r : Event δ σ ν ρ κ) ∉ .yielded task block s :: m.stops block := by
  intro hm
  obtain hm | hm := List.mem_cons.mp hm
  · cases hm
  · obtain ⟨_, _, he⟩ := Machine.of_mem_stops hm
    cases he

namespace Story.Booked

variable {s : Story δ σ ν ρ κ} {c t i : Nat}

/-- A task has been started for one operation. -/
theorem position?_eq_some (h : s.Booked) :
    Event.position? c t s.past = some i ↔ ∃ p, .started c i t p ∈ s.past := by
  refine ⟨Event.exists_started_of_position?, fun ⟨p, hs⟩ => ?_⟩
  have hsome : (Event.position? c t s.past).isSome = true :=
    List.findSome?_isSome_iff.mpr ⟨_, hs, Option.isSome_iff_exists.mpr ⟨i, if_pos ⟨rfl, rfl⟩⟩⟩
  obtain ⟨j, hj⟩ := Option.isSome_iff_exists.mp hsome
  obtain ⟨p', hs'⟩ := Event.exists_started_of_position? hj
  obtain ⟨-, rfl, -⟩ := h.started_inj _ _ _ _ _ _ _ hs' hs
  exact hj

theorem mem_ends (h : s.Booked) {e : Nat × Settlement ρ κ} :
    e ∈ Event.ends c s.past ↔ Event.EndedAs s.past c e := by
  constructor
  · intro hm
    obtain ⟨e', hm', he⟩ := List.mem_filterMap.mp hm
    cases e' with
    | ended t r =>
      obtain ⟨i, hi, rfl⟩ := Option.map_eq_some_iff.mp he
      obtain ⟨p, hs⟩ := Event.exists_started_of_position? hi
      exact ⟨t, p, hs, hm'⟩
    | _ => cases he
  · rintro ⟨t, p, hs, he⟩
    exact List.mem_filterMap.mpr ⟨_, he,
      Option.map_eq_some_iff.mpr ⟨_, h.position?_eq_some.mpr ⟨p, hs⟩, rfl⟩⟩

end Story.Booked

namespace Moment

variable [Deeds δ σ] {P : Process δ σ ν ρ κ → Prop} {a b : Moment δ σ ν ρ κ}

/-- **The ends of a block grow by those that are new**: a task that has ended is at the same
position as before. -/
theorem Later.ends_append (h : Later P a b) (ho : a.Orderly) (hh : a.story.Heard)
    {es : List (Event δ σ ν ρ κ)} (hes : b.past = a.past ++ es) (c : Nat) :
    Event.ends c b.past = Event.ends c a.past
      ++ es.filterMap (Event.end? fun t => Event.position? c t b.past) := by
  obtain ⟨hob, hext⟩ := h.extends ho
  have hsame : ∀ t r, .ended t r ∈ a.past →
      Event.position? c t b.past = Event.position? c t a.past := by
    intro t r he
    have hstarted : ∀ i p, .started c i t p ∈ b.past ↔ .started c i t p ∈ a.past := fun i p =>
      ⟨fun hs => hext.started c i t p hs (hh.gone t r he (hob.numbered.ne_main hs)).1,
        fun hs => Later.past_subset h hs⟩
    exact Option.ext fun i => hob.booked.position?_eq_some.trans
      ((exists_congr (hstarted i)).trans ho.booked.position?_eq_some.symm)
  have hold : a.past.filterMap (Event.end? fun t => Event.position? c t b.past)
      = Event.ends c a.past := by
    refine List.filterMap_congr fun e he => ?_
    cases e with
    | ended t r => exact congrArg (Option.map _) (hsame t r he)
    | _ => rfl
  rw [← hold, ← List.filterMap_append, ← hes]
  rfl

/-- **The ends of a block only grow.** -/
theorem Later.ends_prefix (h : Later P a b) (ho : a.Orderly) (hh : a.story.Heard) (c : Nat) :
    Event.ends c a.past <+: Event.ends c b.past := by
  obtain ⟨es, hes⟩ := Later.past h
  exact ⟨_, (h.ends_append ho hh hes c).symm⟩

section

variable {es : List (Event δ σ ν ρ κ)} {c i : Nat} {task : Task δ σ ν ρ κ} {s : Settlement ρ κ}

theorem Next.ends_eq (h : Next P a b) (ho : a.Orderly) (hh : a.story.Heard)
    (hes : b.past = a.past ++ es) (hnone : ∀ t r, .ended t r ∉ es) :
    Event.ends c b.past = Event.ends c a.past := by
  rw [Later.ends_append (.single h) ho hh hes c]
  refine List.append_right_eq_self.mpr (List.filterMap_eq_nil_iff.mpr fun e he => ?_)
  cases e with
  | ended t r => exact absurd he (hnone t r)
  | _ => rfl

/-- A task that ends is at the place that it has as a task. -/
theorem Next.ends_of_parent (h : Next P a b) (ho : a.Orderly) (hh : a.story.Heard)
    (ht : a.machine.Alive task) (hes : b.past = a.past ++ [.ended task.id s])
    (hpar : task.parent = some (c, i)) :
    Event.ends c b.past = Event.ends c a.past ++ [(i, s)] := by
  obtain ⟨t, hm, hid, hpar', -⟩ := ht
  obtain ⟨p, hs⟩ := ho.booked.task_started t hm c i (hpar'.trans hpar)
  have hpos : Event.position? c task.id b.past = some i :=
    (h.orderly ho).booked.position?_eq_some.mpr ⟨p, h.past_subset (hid ▸ hs)⟩
  rw [Later.ends_append (.single h) ho hh hes c]
  refine congrArg (_ ++ ·) (List.filterMap_cons_some ?_)
  show (Event.position? c task.id b.past).map _ = _
  rw [hpos]
  rfl

theorem Next.ends_of_not_isIn (h : Next P a b) (ho : a.Orderly) (hh : a.story.Heard)
    (ht : a.machine.Alive task) (hes : b.past = a.past ++ [.ended task.id s])
    (hin : task.isIn c = false) : Event.ends c b.past = Event.ends c a.past := by
  have hob := h.orderly ho
  have hpos : Event.position? c task.id b.past = none := by
    refine Option.eq_none_iff_forall_ne_some.mpr fun i hi => ?_
    obtain ⟨p, hs⟩ := Event.exists_started_of_position? hi
    obtain ⟨t, hm, hid, hpar, -⟩ := ht
    cases hp : t.parent with
    | none => exact hob.numbered.ne_main hs (hid ▸ ho.numbered.main t hm hp)
    | some place =>
      obtain ⟨p', hs'⟩ := ho.booked.task_started t hm place.1 place.2 hp
      obtain ⟨hc, -, -⟩ := hob.booked.started_inj _ _ _ _ _ _ _ (h.past_subset (hid ▸ hs')) hs
      rw [Task.isIn_iff.mpr ⟨place.2, by rw [← hpar, hp, ← hc]⟩] at hin
      cases hin
  rw [Later.ends_append (.single h) ho hh hes c]
  refine List.append_right_eq_self.mpr (List.filterMap_eq_nil_iff.mpr fun e he => ?_)
  rw [List.mem_singleton.mp he]
  show (Event.position? c task.id b.past).map _ = _
  rw [hpos]
  rfl

end

/-- **What a step adds to the ends of a block**: nothing, or the end of one of its operations
that has been running. -/
theorem Next.ends (h : Next P a b) (ho : a.Orderly) (hh : a.story.Heard) (c : Nat) :
    Event.ends c b.past = Event.ends c a.past
      ∨ ∃ task i s, a.machine.Alive task ∧ task.parent = some (c, i)
        ∧ Event.ends c b.past = Event.ends c a.past ++ [(i, s)] := by
  have hsettles := h.settles
  obtain hu | ⟨task, B, _, _, _, s, -, -, -, rfl⟩ | ⟨task, p, s, hs, -, rfl⟩ := hsettles
  · obtain ⟨es, hes, hnone⟩ := hu.past
    exact .inl (h.ends_eq ho hh hes fun t r hm => by cases hnone _ hm)
  · exact .inl (h.ends_eq ho hh rfl fun _ _ => Machine.not_ended_of_yields)
  · have halive := ho.seated.alive task (by rw [hs]; rfl)
    cases hin : task.isIn c with
    | false => exact .inl (h.ends_of_not_isIn ho hh halive rfl hin)
    | true =>
      obtain ⟨i, hi⟩ := Task.isIn_iff.mp hin
      exact .inr ⟨task, i, s, halive, hi, h.ends_of_parent ho hh halive rfl hi⟩

variable {w : σ}

/-- **No operation ends twice.** -/
theorem Later.nodup_ends (h : Later P ⟨.idle, .ofWorld w, []⟩ b) (c : Nat) :
    ((Event.ends c b.past).map Prod.fst).Nodup := by
  induction h with
  | refl => exact List.nodup_nil
  | @tail a b hl h ih =>
    have ho := Later.orderly hl
    have hh := Later.heard hl
    obtain he | ⟨task, i, s, ⟨t, hm, hid, hpar', -⟩, hpar, he⟩ := h.ends ho hh c
    · rwa [he]
    · rw [he, List.map_append]
      refine List.nodup_append.mpr ⟨ih, List.nodup_singleton _, fun j hj k hk hjk => ?_⟩
      cases List.mem_singleton.mp hk
      obtain ⟨e, hme, rfl⟩ := List.mem_map.mp hj
      -- the operation at this position has a task that is still there
      obtain ⟨t', p', hs', he'⟩ := ho.booked.mem_ends.mp hme
      obtain ⟨p, hs⟩ := ho.booked.task_started t hm c i (hpar'.trans hpar)
      obtain ⟨u, n, hopen, -⟩ := ho.booked.started_opened c i t.id p hs
      obtain ⟨k, -, hbegun⟩ := ho.booked.begun u c n hopen
      rw [hjk] at hs'
      cases Event.eq_of_nodup_begun (hbegun ▸ List.nodup_range) hs hs'
      exact (hh.gone t.id e.2 he' (ho.numbered.ne_main hs)).2 t hm rfl

omit [Deeds δ σ] in
/-- The operations of a block that have ended are among its operations. -/
theorem Orderly.lt_of_mem_ends (ho : b.Orderly) {u c : Nat} {n : Process δ σ ν ρ κ}
    (hopen : .opened u c n ∈ b.past) {e : Nat × Settlement ρ κ} (he : e ∈ Event.ends c b.past) :
    e.1 < n.operations.length := by
  obtain ⟨t, p, hs, -⟩ := ho.booked.mem_ends.mp he
  obtain ⟨u', n', hopen', hop⟩ := ho.booked.started_opened c e.1 t p hs
  obtain ⟨-, rfl⟩ := ho.booked.opened_inj _ _ _ _ _ hopen' hopen
  exact (List.getElem?_eq_some_iff.mp hop).1

/-- **The books of a block tell of the same ends**, in the same order. -/
theorem Later.settled_eq (h : Later P ⟨.idle, .ofWorld w, []⟩ b) :
    ∀ B ∈ b.machine.blocks, B.state.settled = Event.ends B.id b.past := by
  induction h with
  | refl => exact nofun
  | @tail a b hl h ih =>
    have ho := Later.orderly hl
    have hh := Later.heard hl
    have hob := h.orderly ho
    have hsettles := h.settles
    intro B hB
    obtain hu | ⟨task, C, _, _, _, s, -, -, -, rfl⟩ | ⟨task, p, s, hs, -, rfl⟩ := hsettles
    · obtain ⟨es, hes, hnone⟩ := hu.past
      rw [h.ends_eq ho hh hes fun t r hm => by cases hnone _ hm]
      obtain ⟨hnil, hnew⟩ | ⟨B', hB', hid, hset⟩ := hu.blocks B hB
      · -- nothing was started for a block that is new
        rw [hnil]
        refine (List.eq_nil_iff_forall_not_mem.mpr fun e he => ?_).symm
        obtain ⟨t, p, hs, -⟩ := ho.booked.mem_ends.mp he
        obtain ⟨hlt, hlt'⟩ := ho.numbered.started _ _ _ _ hs
        exact Nat.lt_irrefl _ (Nat.lt_of_lt_of_le (Nat.lt_trans hlt hlt') hnew)
      · rw [← hset, ih B' hB', hid]
    · rw [h.ends_eq ho hh rfl fun _ _ => Machine.not_ended_of_yields]
      have hblocks := (a.machine.dropBlock_eq C.id).2.1
      exact ih B (List.mem_of_mem_filter (hblocks ▸ hB))
    · have halive := ho.seated.alive task (by rw [hs]; rfl)
      obtain ⟨B', hB', rfl⟩ := Machine.exists_hear_of_finish ho.numbered.blocks.nodup hB
      rw [Block.id_hear]
      cases hin : task.isIn B'.id with
      | false =>
        rw [h.ends_of_not_isIn ho hh halive rfl hin, Block.hear_of_not_isIn hin]
        exact ih B' hB'
      | true =>
        obtain ⟨i, hi⟩ := Task.isIn_iff.mp hin
        rw [h.ends_of_parent ho hh halive rfl hi, Block.hear_of_parent hi,
          BlockState.settled_settle, ih B' hB']

end Moment

/-! ## Races -/

namespace Race

theorem upTo_append_of_any {p : Settlement ρ κ → Bool} {s : Settled ρ κ}
    (h : s.any (fun e => p e.2) = true) (more : Settled ρ κ) :
    upTo p (s ++ more) = upTo p s := by
  induction s with
  | nil => cases h
  | cons e rest ih =>
    show (if p e.2 then [e] else e :: upTo p (rest ++ more)) = if p e.2 then [e] else _
    rw [List.any_cons] at h
    cases he : p e.2 with
    | true => rfl
    | false =>
      rw [he, Bool.false_or] at h
      rw [ih h]

variable {wins : ρ → Bool} {total : Nat} {ends ends' : Settled ρ κ}

/-- **What decides a race decides it for good**: ends that come later make no difference. -/
theorem result?_of_prefix {s : Settled ρ κ} (h : (Race.mk wins total ends).result? = some s)
    (hp : ends <+: ends') (hle : ends'.length ≤ total) :
    (Race.mk wins total ends').result? = some s := by
  obtain ⟨more, rfl⟩ := hp
  have hwins : (Race.mk wins total (ends ++ more)).winsWith = (Race.mk wins total ends).winsWith :=
    rfl
  unfold result? at h ⊢
  rw [hwins]
  dsimp only at h ⊢
  split at h
  · rename_i hany
    rw [List.any_append, hany, Bool.true_or, if_pos rfl, upTo_append_of_any hany]
    exact h
  · split at h
    · rename_i hlen
      -- all operations have ended, so nothing can come later
      rw [List.length_append, hlen] at hle
      have hnil : more = [] := List.length_eq_zero_iff.mp (by omega)
      rw [hnil, List.append_nil, if_neg ‹_›, if_pos hlen]
      exact h
    · cases h

end Race

/-- The books of a block that was opened at a race are those of a race. -/
theorem Machine.BlockState.Sound.eq_race {wins : ρ → Bool}
    {operations : List (Process δ σ ν ρ κ)} {here : ν} {next : Settled ρ κ → Process δ σ ν ρ κ}
    {b : BlockState δ σ ν ρ κ} (h : b.Sound (.race wins operations here next)) :
    b = .race ⟨wins, operations.length, b.settled⟩ := by
  obtain ⟨_, _, _, _, _, _, hn, -⟩ | ⟨_, _, _, _, r, hn, rfl, hr⟩ := h.shape
  · cases hn
  · cases hn
    obtain ⟨_, _, settled⟩ := r
    rw [← hr.wins_eq, ← hr.total_eq]
    rfl

namespace Moment

variable [Deeds δ σ] {P : Process δ σ ν ρ κ → Prop} {a b : Moment δ σ ν ρ κ} {w : σ}
  {u c : Nat} {wins : ρ → Bool} {operations : List (Process δ σ ν ρ κ)} {here : ν}
  {next : Settled ρ κ → Process δ σ ν ρ κ}

/-- **What a race looks at is how its operations have ended.** -/
theorem Later.state_of_race (h : Later P ⟨.idle, .ofWorld w, []⟩ b)
    (ho : .opened u c (.race wins operations here next) ∈ b.past) {B : Block δ σ ν ρ κ}
    (hB : B ∈ b.machine.blocks) (hid : B.id = c) :
    B.state = .race ⟨wins, operations.length, Event.ends c b.past⟩ := by
  have hord := Later.orderly h
  obtain ⟨n, ho', hsound, -⟩ := hord.booked.live B hB
  obtain ⟨-, rfl⟩ := hord.booked.opened_inj _ _ _ _ _ (hid ▸ ho') ho
  rw [hsound.eq_race, h.settled_eq B hB, hid]

/-- **No more operations of a block end than it has.** -/
theorem Later.length_ends_le (h : Later P ⟨.idle, .ofWorld w, []⟩ b) {n : Process δ σ ν ρ κ}
    (ho : .opened u c n ∈ b.past) : (Event.ends c b.past).length ≤ n.operations.length := by
  have hsub : (Event.ends c b.past).map Prod.fst ⊆ List.range n.operations.length := by
    intro i hi
    obtain ⟨e, he, rfl⟩ := List.mem_map.mp hi
    exact List.mem_range.mpr ((Later.orderly h).lt_of_mem_ends ho he)
  have hle := (List.subperm_of_subset (h.nodup_ends c) hsub).length_le
  rwa [List.length_map, List.length_range] at hle

/-- **A race starts all its operations at once.** -/
theorem Later.begun_race (h : Later P ⟨.idle, .ofWorld w, []⟩ b)
    (ho : .opened u c (.race wins operations here next) ∈ b.past) :
    Event.begun c b.past = List.range operations.length := by
  induction h with
  | refl => cases ho
  | @tail a b hl h ih =>
    have hb : Later P ⟨.idle, .ofWorld w, []⟩ b := hl.tail h
    have hord := Later.orderly hb
    obtain hold | hnew := h.opened ho
    · -- no more can be started than there are
      obtain ⟨k, hk, hbegun⟩ := hord.booked.begun u c _ ho
      obtain ⟨es, hes⟩ := h.past
      have hlen := congrArg List.length hbegun
      rw [show b.story.past = a.past ++ es from hes, Event.begun_append, ih hold,
        List.length_append, List.length_range, List.length_range] at hlen
      have hle : k ≤ operations.length := hk
      rw [← show k = operations.length by omega]
      exact hbegun
    · obtain ⟨B, hB, hid, -⟩ := Later.kept hb _ _ hnew
      obtain ⟨-, -, -, hbegun, -⟩ := hord.booked.live B hB
      rw [hb.state_of_race ho hB hid, hid] at hbegun
      exact hbegun

/-- **What becomes of a task that looks after its race**: the race is not decided and the task
goes on waiting, or it goes on with what has decided the race. -/
theorem Later.look_race (h : Later P ⟨.idle, .ofWorld w, []⟩ a)
    (ho : .opened u c (.race wins operations here next) ∈ a.past) {task : Task δ σ ν ρ κ}
    {here' : ν} {next' : Settled ρ κ → Process δ σ ν ρ κ} {limits : List (Limit δ σ ν ρ κ)}
    (hs : a.stage = .woken task (.blocked c here' next') limits) (hn : Next P a b) :
    (b.stage = .waiting task (.blocked c here' next') limits
        ∧ (Race.mk wins operations.length (Event.ends c b.past)).result? = none)
      ∨ ∃ s, b.stage = .going task (next s) limits
        ∧ (Race.mk wins operations.length (Event.ends c b.past)).result? = some s := by
  have hb : Later P ⟨.idle, .ofWorld w, []⟩ b := h.tail hn
  have hord := Later.orderly h
  obtain ⟨-, hnext⟩ := h.block?_of_woken hs ho
  cases hnext
  have hsame : ∀ es, b.past = a.past ++ es → (∀ t r, .ended t r ∉ es) →
      Event.ends c b.past = Event.ends c a.past :=
    fun es => hn.ends_eq hord (Later.heard h)
  cases hn with
  | move hm =>
    cases hm with
    | _ => cases hs
  | @attend m past _ _ _ _ _ m' hm =>
    cases hs
    refine .inl ⟨rfl, ?_⟩
    have hlaunch : ∀ e ∈ m.launches c, e.isEnd = false :=
      Machine.forall_mem_launches fun _ _ _ _ => rfl
    rw [hsame _ rfl fun t r he => by cases hlaunch _ he]
    obtain ⟨B, hB, hid, -⟩ := Later.kept hb _ _ (.turn rfl List.mem_cons_self)
    obtain ⟨C, hC, hidC, hnone, -⟩ :=
      Machine.looked_of_attend hord.numbered.blocks.nodup hm hB hid
    rwa [h.state_of_race ho hC hidC] at hnone
  | yield hm =>
    cases hs
    obtain ⟨-, C, hC, hidC, hsome⟩ := Machine.of_attend_some hm
    refine .inr ⟨_, rfl, ?_⟩
    rw [hsame _ rfl fun _ _ => Machine.not_ended_of_yields]
    rwa [h.state_of_race ho hC hidC] at hsome
  | _ => cases hs

end Moment

end Playbook
