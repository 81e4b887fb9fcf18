import Mathlib.Logic.Relation
import Playbook.Process.Block

/-!
# Which operations a gathering starts

A gathering starts operations in order as long as nothing has stopped it. What
has happened to it so far is a sequence of moves: it starts what it can, or an
operation settles, in whatever order and with whatever settlement.

After any moves a gathering is stopped if and only if one of the settlements
was a result that stops it (`Gathering.stopped_of_moves`). A crash is not, even
if the results that stop it are the failed ones. Once it is stopped, no further
operation is ever started (`Gathering.started_of_moves`).
-/

namespace Playbook

namespace Gathering

variable {α ρ κ : Type}

/-! ## Starting operations -/

/-- Operations with their positions are still the same operations. -/
theorem snd_mem_of_mem_numbered {operations : List α} {op : Nat × α}
    (h : op ∈ operations.zipIdx.map fun (a, i) => (i, a)) : op.2 ∈ operations := by
  obtain ⟨⟨a, i⟩, hm, rfl⟩ := List.mem_map.mp h
  exact (List.mem_zipIdx' hm).2 ▸ List.getElem_mem _

/-- A gathering that has not been stopped starts as many operations as may
run. -/
theorem admissible_running (free : Nat) (waiting : List (Nat × α)) :
    admissible false free waiting
      = (waiting.take free, waiting.drop free, free - waiting.length) := by
  induction waiting generalizing free with
  | nil => cases free <;> rfl
  | cons op rest ih =>
    cases free with
    | zero => simp [admissible]
    | succ free => simp [admissible, ih]

/-- A stopped gathering starts nothing, and forgets what was waiting as soon as
it could start something. -/
theorem admissible_stopped (free : Nat) (waiting : List (Nat × α)) :
    admissible true free waiting
      = ([], if free = 0 then waiting else [], free) := by
  cases waiting with
  | nil => cases free <;> rfl
  | cons op rest => cases free <;> rfl

/-- What is started is taken from the front of what waits. -/
theorem launch_fst (g : Gathering α ρ κ) :
    g.launch.1 = if g.stopped then [] else g.waiting.take g.free := by
  unfold launch
  cases g.stopped with
  | true => rw [admissible_stopped]; rfl
  | false => rw [admissible_running]; rfl

theorem launch_waiting_subset (g : Gathering α ρ κ) :
    g.launch.2.waiting ⊆ g.waiting := by
  show (admissible g.stopped g.free g.waiting).2.1 ⊆ g.waiting
  cases g.stopped with
  | true =>
    rw [admissible_stopped]
    show (if g.free = 0 then g.waiting else []) ⊆ g.waiting
    split
    · exact List.Subset.refl _
    · exact List.nil_subset _
  | false =>
    rw [admissible_running]
    exact List.drop_subset _ _

theorem launch_fst_subset (g : Gathering α ρ κ) : g.launch.1 ⊆ g.waiting := by
  rw [launch_fst]
  split
  · exact List.nil_subset _
  · exact List.take_subset _ _

@[simp] theorem launch_started (g : Gathering α ρ κ) :
    g.launch.2.started = g.started ++ g.launch.1.map Prod.fst :=
  rfl

/-! ## Moves -/

/-- **What can happen to a gathering next**: it starts what it can, or some
operation settles. -/
inductive Move : Gathering α ρ κ → Gathering α ρ κ → Prop
  | launch (g) : Move g g.launch.2
  | settle (index : Nat) (s : Settlement ρ κ) (g) : Move g (g.settle index s)

/-- Any number of moves. -/
abbrev Moves : Gathering α ρ κ → Gathering α ρ κ → Prop :=
  Relation.ReflTransGen Move

variable {g g' : Gathering α ρ κ}

/-- **A gathering is stopped by the results that stop it** and by nothing
else. -/
def Heeds (g : Gathering α ρ κ) : Prop :=
  g.stopped = g.settled.any fun s => g.stopsOn s.2

theorem heeds_ofOperations (limit : Nat) (stops : ρ → Bool)
    (operations : List α) :
    (ofOperations limit stops operations : Gathering α ρ κ).Heeds :=
  rfl

theorem Move.heeds (h : Move g g') (hg : g.Heeds) : g'.Heeds := by
  cases h with
  | launch => exact hg
  | settle index s =>
    show (g.stopped || g.stopsOn s)
      = (g.settled ++ [(index, s)]).any fun s => g.stopsOn s.2
    rw [List.any_append, ← (show g.stopped = _ from hg)]
    simp

theorem heeds_of_moves (h : Moves g g') (hg : g.Heeds) : g'.Heeds := by
  induction h with
  | refl => exact hg
  | tail _ h ih => exact h.heeds ih

/-- **When a gathering is stopped**, whatever the order of settlements. -/
theorem stopped_of_moves {limit : Nat} {stops : ρ → Bool}
    {operations : List α} (h : Moves (ofOperations limit stops operations) g) :
    g.stopped = g.settled.any fun s => g.stopsOn s.2 :=
  heeds_of_moves h (heeds_ofOperations limit stops operations)

theorem Move.started (h : Move g g') (hs : g.stopped = true) :
    g'.started = g.started ∧ g'.stopped = true := by
  cases h with
  | launch =>
    refine ⟨?_, hs⟩
    rw [launch_started, launch_fst, if_pos hs, List.map_nil, List.append_nil]
  | settle index s =>
    refine ⟨rfl, ?_⟩
    show (g.stopped || g.stopsOn s) = true
    rw [hs, Bool.true_or]

/-- **A stopped gathering stays as it is**: no further operation is started by
any moves. -/
theorem started_of_moves (h : Moves g g') (hs : g.stopped = true) :
    g'.started = g.started ∧ g'.stopped = true := by
  induction h with
  | refl => exact ⟨rfl, hs⟩
  | tail _ h ih =>
    have hn := h.started ih.2
    exact ⟨hn.1.trans ih.1, hn.2⟩

end Gathering

end Playbook
