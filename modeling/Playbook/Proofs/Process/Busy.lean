import Playbook.Proofs.Process.Closed

/-!
# Gatherings that make use of their places

A gathering may run a number of operations at once. When the task that waits for it
has looked after it, as many are running, or nothing is left to be started
(`Gathering.Busy`). Nothing else starts operations, and so a block that is not over
has places to spare only between the end of an operation and the next turn of its
task (`Moment.Later.attended`).

What the past tells of a gathering that nothing stops follows from its books: all its
operations have been started when it yields, and otherwise it has no place to spare
when it has been looked after.
-/

namespace Playbook

variable {δ σ ν ρ κ : Type}

namespace Gathering

variable {α : Type}

/-- **A gathering has no place to spare**, or nothing to start. -/
def Busy (g : Gathering α ρ κ) : Prop :=
  g.stopped = true ∨ g.free = 0 ∨ g.waiting = []

theorem busy_launch (g : Gathering α ρ κ) : g.launch.2.Busy := by
  cases hs : g.stopped with
  | true => exact .inl hs
  | false =>
    obtain h | h := Nat.le_total g.free g.waiting.length
    · refine .inr (.inl ?_)
      rw [Sound.launch_free, hs]
      exact Nat.sub_eq_zero_of_le h
    · refine .inr (.inr ?_)
      rw [Sound.launch_waiting, hs]
      exact List.drop_eq_nil_of_le h

variable {g : Gathering α ρ κ} {limit : Nat} {operations : List α}

/-- A gathering that no result stops is never stopped. -/
theorem Sound.stopped_eq (h : g.Sound limit (fun _ => false) operations) :
    g.stopped = false := by
  rw [show g.stopped = _ from h.heeds]
  refine List.any_eq_false.mpr fun e _ => ?_
  unfold stopsOn
  rw [h.stops_eq]
  split <;> exact Bool.false_ne_true

/-- **A busy gathering that nothing stops** has started all its operations, or as many
are running as may. -/
theorem Sound.of_busy (h : g.Sound limit (fun _ => false) operations) (hb : g.Busy) :
    g.started = List.range operations.length ∨ g.running.length = max limit 1 := by
  obtain hs | hf | hw := hb
  · rw [h.stopped_eq] at hs
    cases hs
  · right
    have hplaces := h.free_add_running
    omega
  · left
    obtain hrest | ⟨hs, -⟩ := h.waiting
    · have hlen := congrArg List.length (hw.symm.trans hrest)
      rw [List.length_drop, List.length_map, List.length_zipIdx, List.length_nil] at hlen
      have hle := h.started_le
      rw [h.started_eq, show g.started.length = operations.length by omega]
    · rw [h.stopped_eq] at hs
      cases hs

end Gathering

open Machine (Task Block BlockState)

/-- What a block has come to when it has been looked after and is not over: a gathering
has started what it can. -/
def Machine.BlockState.looked : BlockState δ σ ν ρ κ → BlockState δ σ ν ρ κ
  | gathering g => .gathering g.launch.2
  | race r => .race r

/-- A block that is attended and not over has been looked after. -/
theorem Machine.looked_of_attend {m m' : Machine δ σ ν ρ κ} {block : Nat}
    (hn : (m.blocks.map Block.id).Nodup) (h : m.attend block = (none, m'))
    {b : Block δ σ ν ρ κ} (hb : b ∈ m'.blocks) (hid : b.id = block) :
    ∃ b' ∈ m.blocks, b'.id = block ∧ b'.state.outcome? = none ∧ b.state = b'.state.looked := by
  subst hid
  unfold attend at h
  cases hf : m.blocks.find? fun b' => b'.id == b.id with
  | none =>
    rw [hf] at h
    cases h
    cases hf.symm.trans (Machine.find?_of_nodup hn hb)
  | some b' =>
    have hm := List.mem_of_find?_eq_some hf
    have hid := List.find?_some hf
    have hid : b'.id = b.id := beq_iff_eq.mp hid
    rw [hf] at h
    refine ⟨b', hm, hid, ?_⟩
    obtain ⟨id, owner, g | r⟩ := b'
    · dsimp only at h
      split at h
      · cases h
      · rename_i hr
        cases h
        rw [(Machine.spawnAll_eq b.id g.launch.1 _).2.1] at hb
        obtain he | ⟨-, hne⟩ := Machine.of_mem_putBlock hb
        · exact ⟨hr, by rw [he]; rfl⟩
        · exact absurd rfl hne
    · dsimp only at h
      split at h
      · cases h
      · rename_i hr
        cases h
        exact ⟨hr, by rw [List.inj_on_of_nodup_map hn hb hm hid.symm]; rfl⟩

namespace Moment

/-- **The blocks that the task with the turn has looked after are busy**, when it waits
for the rest of its turn. -/
def Attended (b : Moment δ σ ν ρ κ) : Prop :=
  ∀ task w limits, b.stage = .waiting task w limits → ∀ block ∈ w.blocks, ∀ owner g,
    ⟨block, owner, .gathering g⟩ ∈ b.machine.blocks → g.Busy

variable [Deeds δ σ] {P : Process δ σ ν ρ κ → Prop} {a b : Moment δ σ ν ρ κ}

theorem Next.attended (h : Next P a b) (ho : a.Orderly) (ha : a.Attended) : b.Attended := by
  intro task w limits hs block hw owner g hm
  -- a task comes to wait for a block when it opens it or attends it
  cases h with
  | move h =>
    cases h with
    | asleep =>
      cases hs
      cases hw
    | _ => cases hs
  | sleep =>
    cases hs
    cases hw
  | @opens m past task node here next state start limits h =>
    cases hs
    cases List.mem_singleton.mp hw
    rw [(m.openBlock_eq task.id state start).2.1] at hm
    obtain he | hm := List.mem_cons.mp hm
    · cases he
      cases h with
      | @gather limit stops operations _ g hl _ =>
        rw [← (show _ = g from congrArg Prod.snd hl)]
        exact Gathering.busy_launch _
    · exact absurd (ho.numbered.block_lt hm) (Nat.lt_irrefl _)
  | attend h =>
    cases hs
    cases List.mem_singleton.mp hw
    obtain ⟨⟨_, _, g' | _⟩, -, -, -, hg⟩ :=
      Machine.looked_of_attend ho.numbered.blocks.nodup h hm rfl
    · cases hg
      exact g'.busy_launch
    · cases hg
  | @keep m past task w limits l h =>
    cases l with
    | set =>
      cases hs
      exact ha _ _ _ rfl block hw owner g hm
    | running =>
      cases hs
      exact ha _ _ _ rfl block hw owner g hm
  | _ => cases hs

/-- **A task leaves no place of its block empty** when it has looked after it, at all
moments. -/
theorem Later.attended {w : σ} (h : Later P ⟨.idle, .ofWorld w, []⟩ b) : b.Attended := by
  induction h with
  | refl => exact nofun
  | tail hl h ih => exact h.attended (Later.orderly hl) ih

end Moment

/-! ## Gatherings that nothing stops -/

section

variable {s : Story δ σ ν ρ κ} {u block limit : Nat} {operations : List (Process δ σ ν ρ κ)}
  {here : ν} {next : Settled ρ κ → Process δ σ ν ρ κ}

/-- **All operations have been started when a gathering yields** that nothing
stops. -/
theorem Story.Closed.begun_eq (h : s.Closed) (hb : s.Booked)
    (ho : .opened u block (.gather limit (fun _ => false) operations here next) ∈ s.past)
    {u' : Nat} {r : Settled ρ κ} (hy : .yielded u' block r ∈ s.past) :
    Event.begun block s.past = List.range operations.length := by
  obtain ⟨-, hbegun, hall | ⟨_, -, _, -, hstop⟩⟩ := h.gathered hb ho hy
  · rw [hbegun, hall]
  · cases hstop

/-- The same of a gathering that is busy and not over. -/
theorem Story.Booked.begun_of_busy (h : s.Booked) (hn : s.Numbered)
    (ho : .opened u block (.gather limit (fun _ => false) operations here next) ∈ s.past)
    {b : Block δ σ ν ρ κ} (hm : b ∈ s.machine.blocks) (hid : b.id = block)
    (hbusy : ∀ g, b.state = .gathering g → g.Busy) :
    Event.begun block s.past = List.range operations.length
      ∨ s.machine.count block = max limit 1 := by
  obtain ⟨n, ho', hs, hbegun, -⟩ := h.live b hm
  have hcount := h.count_eq hn hm
  subst hid
  obtain ⟨-, rfl⟩ := h.opened_inj _ _ _ _ _ ho' ho
  obtain ⟨_, _, _, _, _, g, hg, hstate, hg'⟩ | ⟨_, _, _, _, _, hg, -⟩ := hs.shape
  · cases hg
    rw [hbegun, hcount, hstate]
    exact hg'.of_busy (hbusy g hstate)
  · cases hg

end

end Playbook
