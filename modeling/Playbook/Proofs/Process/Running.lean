import Mathlib.Data.List.Nodup
import Playbook.Proofs.Process.Admission

/-!
# Which operations of a block are running

An operation is *running* from when it is started until it settles. The block
keeps book of both, and this module says what the books of a block are like as
long as only running operations settle: `Gathering.Sound` and `Race.Sound`.

A gathering starts its operations in the order of their positions, and what is
free and what is running together are always what its limit allows
(`Gathering.Sound.free_add_running`). When it is over nothing is running, and
all its operations have been started unless it was stopped
(`Gathering.Sound.of_result`).
-/

namespace Playbook

variable {α ρ κ : Type}

/-! ## Settlements -/

namespace Settled

theorem any_iff {settled : Settled ρ κ} {i : Nat} :
    (settled.any fun e => e.1 == i) = true ↔ i ∈ settled.map Prod.fst := by
  simp

/-- What is unsettled after a further settlement. -/
theorem filter_append (settled : Settled ρ κ) (i : Nat) (s : Settlement ρ κ)
    (positions : List Nat) :
    (positions.filter fun j => !((settled ++ [(i, s)]).any fun e => e.1 == j))
      = (positions.filter fun j => !(settled.any fun e => e.1 == j)).filter
          fun j => j ≠ i := by
  rw [List.filter_filter]
  refine List.filter_congr fun j _ => ?_
  rw [List.any_append, Bool.not_or, Bool.and_comm]
  congr 1
  obtain rfl | hij := eq_or_ne j i
  · simp
  · simp [hij, hij.symm]

/-- What has not settled before can settle. -/
theorem nodup_append {settled : Settled ρ κ} (h : (settled.map Prod.fst).Nodup)
    {i : Nat} (hi : (!settled.any fun e => e.1 == i) = true) (s : Settlement ρ κ) :
    ((settled ++ [(i, s)]).map Prod.fst).Nodup := by
  have hn : i ∉ settled.map Prod.fst := fun hm => by
    rw [any_iff.mpr hm] at hi
    cases hi
  rw [List.map_append, List.nodup_append]
  refine ⟨h, List.nodup_singleton i, fun a ha b hb hab => hn ?_⟩
  have hb : b = i := List.mem_singleton.mp hb
  rwa [← hb, ← hab]

end Settled

namespace Gathering

/-! ## Positions -/

/-- Operations with their positions. -/
abbrev numbered (operations : List α) : List (Nat × α) :=
  operations.zipIdx.map fun (a, i) => (i, a)

theorem map_fst_numbered (operations : List α) :
    (numbered operations).map Prod.fst = List.range operations.length := by
  rw [List.map_map, List.range_eq_range', ← List.zipIdx_map_snd]
  rfl

/-- An operation stands at its position. -/
theorem getElem?_of_mem_numbered {operations : List α} {op : Nat × α}
    (h : op ∈ numbered operations) : operations[op.1]? = some op.2 := by
  obtain ⟨⟨a, i⟩, hm, rfl⟩ := List.mem_map.mp h
  exact List.mem_zipIdx_iff_getElem?.mp hm

/-- Positions that are started one after the other are those in front of what
waits. -/
theorem range_append_map_fst_take {operations : List α} {k n : Nat}
    (hk : k ≤ operations.length) :
    List.range k ++ (((numbered operations).drop k).take n).map Prod.fst
      = List.range (k + min n (operations.length - k)) := by
  have hlen : (List.drop k (List.range operations.length)).length
      = operations.length - k := by
    rw [List.length_drop, List.length_range]
  have hle : k + min n (operations.length - k) ≤ operations.length := by omega
  rw [List.map_take, List.map_drop, map_fst_numbered, List.take_eq_take_min, hlen]
  calc List.range k ++ List.take (min n (operations.length - k))
        (List.drop k (List.range operations.length))
      = List.take k (List.range operations.length)
          ++ List.take (min n (operations.length - k))
            (List.drop k (List.range operations.length)) := by
        rw [List.take_range, Nat.min_eq_left hk]
    _ = List.range (k + min n (operations.length - k)) := by
        rw [← List.take_add, List.take_range, Nat.min_eq_left hle]

/-! ## The books of a gathering -/

/-- The operations that are running, in the order in which they were started. -/
def running (g : Gathering α ρ κ) : List Nat :=
  g.started.filter fun i => !g.hasSettled i

theorem hasSettled_iff {g : Gathering α ρ κ} {i : Nat} :
    g.hasSettled i = true ↔ i ∈ g.settled.map Prod.fst :=
  Settled.any_iff

/-- **The books of a gathering are sound**: it has started its operations in
order, only what it has started has settled, nothing has settled twice, and
what is free is what the limit allows besides what is running. -/
structure Sound (limit : Nat) (stops : ρ → Bool) (operations : List α)
    (g : Gathering α ρ κ) : Prop where
  stops_eq : g.stops = stops
  started_eq : g.started = List.range g.started.length
  started_le : g.started.length ≤ operations.length
  waiting : g.waiting = (numbered operations).drop g.started.length
    ∨ g.stopped = true ∧ g.waiting = []
  settled_nodup : (g.settled.map Prod.fst).Nodup
  settled_subset : g.settled.map Prod.fst ⊆ g.started
  free : g.free + g.started.length = max limit 1 + g.settled.length
  heeds : g.Heeds

namespace Sound

variable {limit : Nat} {stops : ρ → Bool} {operations : List α}
  {g : Gathering α ρ κ}

theorem ofOperations (limit : Nat) (stops : ρ → Bool) (operations : List α) :
    (ofOperations limit stops operations : Gathering α ρ κ).Sound limit stops
      operations :=
  ⟨rfl, rfl, Nat.zero_le _, .inl rfl, List.nodup_nil, List.Subset.refl _, rfl, rfl⟩

theorem started_nodup (h : g.Sound limit stops operations) : g.started.Nodup := by
  rw [h.started_eq]
  exact List.nodup_range

theorem running_nodup (h : g.Sound limit stops operations) : g.running.Nodup :=
  h.started_nodup.filter _

/-- What has been started is running or has settled. -/
theorem length_running (h : g.Sound limit stops operations) :
    g.running.length + g.settled.length = g.started.length := by
  have hperm : (g.started.filter g.hasSettled).Perm (g.settled.map Prod.fst) := by
    refine (List.perm_ext_iff_of_nodup (h.started_nodup.filter _) h.settled_nodup).mpr
      fun i => ?_
    rw [List.mem_filter, hasSettled_iff]
    exact ⟨fun hi => hi.2, fun hi => ⟨h.settled_subset hi, hi⟩⟩
  have hsplit := List.length_eq_length_filter_add (l := g.started) g.hasSettled
  rw [hperm.length_eq, List.length_map] at hsplit
  rw [hsplit, Nat.add_comm]
  rfl

/-- **No place is lost**: what is free and what is running are together what
the limit allows. -/
theorem free_add_running (h : g.Sound limit stops operations) :
    g.free + g.running.length = max limit 1 := by
  have hr := h.length_running
  have hf := h.free
  omega

/-! ### Starting -/

/-- What is started next waits at the positions behind what has been
started. -/
theorem mem_of_mem_launch (h : g.Sound limit stops operations) {op : Nat × α}
    (hop : op ∈ g.launch.1) : operations[op.1]? = some op.2 := by
  have hw := g.launch_fst_subset hop
  obtain hg | ⟨-, hg⟩ := h.waiting
  · rw [hg] at hw
    exact getElem?_of_mem_numbered (List.mem_of_mem_drop hw)
  · rw [hg] at hw
    exact absurd hw List.not_mem_nil

theorem launch_waiting (g : Gathering α ρ κ) :
    g.launch.2.waiting
      = if g.stopped then (if g.free = 0 then g.waiting else [])
        else g.waiting.drop g.free := by
  show (admissible g.stopped g.free g.waiting).2.1 = _
  cases g.stopped with
  | true => rw [admissible_stopped]; rfl
  | false => rw [admissible_running]; rfl

theorem launch_free (g : Gathering α ρ κ) :
    g.launch.2.free = if g.stopped then g.free else g.free - g.waiting.length := by
  show (admissible g.stopped g.free g.waiting).2.2 = _
  cases g.stopped with
  | true => rw [admissible_stopped]; rfl
  | false => rw [admissible_running]; rfl

/-- **Starting what may run keeps the books sound.** -/
theorem launch (h : g.Sound limit stops operations) :
    g.launch.2.Sound limit stops operations := by
  have hsub := List.Subset.trans h.settled_subset
    (List.subset_append_left g.started (g.launch.1.map Prod.fst))
  cases hs : g.stopped with
  | true =>
    have hfst : g.launch.1 = [] := by rw [launch_fst, hs]; rfl
    have hstarted : g.launch.2.started = g.started := by
      rw [launch_started, hfst, List.map_nil, List.append_nil]
    refine ⟨h.stops_eq, ?_, ?_, ?_, h.settled_nodup, hsub, ?_, h.heeds⟩
    · rw [hstarted]
      exact h.started_eq
    · rw [hstarted]
      exact h.started_le
    · rw [launch_waiting, hs, if_pos rfl, hstarted]
      split
      · exact h.waiting
      · exact .inr ⟨hs, rfl⟩
    · rw [launch_free, hs, if_pos rfl, hstarted]
      exact h.free
  | false =>
    have hw : g.waiting = (numbered operations).drop g.started.length := by
      obtain hw | ⟨ht, -⟩ := h.waiting
      · exact hw
      · rw [hs] at ht
        cases ht
    have hlen : g.waiting.length = operations.length - g.started.length := by
      rw [hw, List.length_drop, List.length_map, List.length_zipIdx]
    have hfst : g.launch.1 = g.waiting.take g.free := by rw [launch_fst, hs]; rfl
    have hle := h.started_le
    have hstarted : g.launch.2.started = List.range
        (g.started.length + min g.free (operations.length - g.started.length)) := by
      rw [launch_started, hfst, hw, ← range_append_map_fst_take hle, ← h.started_eq]
    refine ⟨h.stops_eq, ?_, ?_, ?_, h.settled_nodup, hsub, ?_, h.heeds⟩
    · rw [hstarted, List.length_range]
    · rw [hstarted, List.length_range]
      omega
    · left
      rw [launch_waiting, hs, hstarted, List.length_range, hw, if_neg Bool.false_ne_true,
        List.drop_drop]
      obtain hf | hf := Nat.le_total g.free (operations.length - g.started.length)
      · rw [Nat.min_eq_left hf]
      · -- all that waits is started
        have hnum : (numbered operations).length = operations.length := by
          rw [List.length_map, List.length_zipIdx]
        rw [Nat.min_eq_right hf, List.drop_eq_nil_of_le (by omega),
          List.drop_eq_nil_of_le (by omega)]
    · have hfree := h.free
      rw [launch_free, hs, if_neg Bool.false_ne_true, hstarted, List.length_range, hlen]
      show g.free - _ + _ = max limit 1 + g.settled.length
      omega

/-- What is started is running. -/
theorem running_launch (h : g.Sound limit stops operations) :
    g.launch.2.running = g.running ++ g.launch.1.map Prod.fst := by
  have hnew : ∀ i ∈ g.launch.1.map Prod.fst, (!g.hasSettled i) = true := by
    intro i hi
    have hn : i ∉ g.started := fun hs =>
      (List.nodup_append.mp h.launch.started_nodup).2.2 i hs i hi rfl
    rw [Bool.not_eq_true']
    exact Bool.eq_false_iff.mpr fun hs => hn (h.settled_subset (hasSettled_iff.mp hs))
  show (g.started ++ g.launch.1.map Prod.fst).filter (fun i => !g.hasSettled i) = _
  rw [List.filter_append, List.filter_eq_self.mpr hnew]
  rfl

/-! ### Settling -/

/-- **The settling of a running operation keeps the books sound.** -/
theorem settle (h : g.Sound limit stops operations) {i : Nat} (hi : i ∈ g.running)
    (s : Settlement ρ κ) : (g.settle i s).Sound limit stops operations := by
  obtain ⟨hi, hn⟩ := List.mem_filter.mp hi
  refine ⟨h.stops_eq, h.started_eq, h.started_le, ?_, Settled.nodup_append h.settled_nodup hn s,
    ?_, ?_, ?_⟩
  · obtain hw | ⟨hs, hw⟩ := h.waiting
    · exact .inl hw
    · refine .inr ⟨?_, hw⟩
      show (g.stopped || g.stopsOn s) = true
      rw [hs, Bool.true_or]
  · show (g.settled ++ [(i, s)]).map Prod.fst ⊆ g.started
    rw [List.map_append]
    exact List.append_subset.mpr ⟨h.settled_subset,
      fun j hj => by rwa [List.mem_singleton.mp hj]⟩
  · have hfree := h.free
    show g.free + 1 + g.started.length = max limit 1 + (g.settled ++ [(i, s)]).length
    rw [List.length_append, List.length_singleton]
    omega
  · exact Move.heeds (.settle i s g) h.heeds

/-- An operation that has settled is no longer running. -/
theorem running_settle (i : Nat) (s : Settlement ρ κ) (g : Gathering α ρ κ) :
    (g.settle i s).running = g.running.filter fun j => j ≠ i :=
  Settled.filter_append g.settled i s g.started

/-! ### The end -/

/-- Where all positions are looked up, what is found has those positions. -/
theorem of_mapM_find? {settled s : Settled ρ κ} {positions : List Nat}
    (h : positions.mapM (fun i => settled.find? fun e => e.1 == i) = some s) :
    s.map Prod.fst = positions ∧ ∀ e ∈ s, e ∈ settled := by
  induction positions generalizing s with
  | nil =>
    rw [List.mapM_nil] at h
    cases h
    exact ⟨rfl, nofun⟩
  | cons i rest ih =>
    rw [List.mapM_cons] at h
    obtain ⟨e, he, h⟩ := Option.bind_eq_some_iff.mp h
    obtain ⟨s', hs', h⟩ := Option.bind_eq_some_iff.mp h
    cases h
    obtain ⟨hmap, hmem⟩ := ih hs'
    have hi := List.find?_some he
    have hi : e.1 = i := beq_iff_eq.mp hi
    refine ⟨by rw [List.map_cons, hmap, hi], fun e' he' => ?_⟩
    obtain rfl | he' := List.mem_cons.mp he'
    · exact List.mem_of_find?_eq_some he
    · exact hmem e' he'

/-- **What a gathering is like when it is over**: nothing is running, its result
has one settlement for each operation that was started, in order, and those are
all operations unless it was stopped. -/
theorem of_result (h : g.Sound limit stops operations) {s : Settled ρ κ}
    (hs : g.result? = some s) :
    g.running = [] ∧ s.map Prod.fst = g.started ∧ (∀ e ∈ s, e ∈ g.settled)
      ∧ (g.started.length = operations.length ∨ g.stopped = true) := by
  unfold Gathering.result? at hs
  split at hs
  · rename_i hw
    have hw : g.waiting = [] := List.isEmpty_iff.mp hw
    obtain ⟨hmap, hmem⟩ := of_mapM_find? hs
    refine ⟨List.filter_eq_nil_iff.mpr fun i hi hn => ?_, hmap, hmem, ?_⟩
    · rw [← hmap] at hi
      obtain ⟨e, he, rfl⟩ := List.mem_map.mp hi
      rw [hasSettled_iff.mpr (List.mem_map_of_mem (hmem e he))] at hn
      cases hn
    · obtain hg | ⟨hst, -⟩ := h.waiting
      · left
        rw [hw] at hg
        have hlen := congrArg List.length hg
        rw [List.length_drop, List.length_map, List.length_zipIdx, List.length_nil] at hlen
        have hle := h.started_le
        omega
      · exact .inr hst
  · cases hs

/-- A gathering that is over has settlements of all its operations, or one of them is a
result that has stopped it. -/
theorem all_or_stopped (h : g.Sound limit stops operations) {s : Settled ρ κ}
    (hs : g.result? = some s) :
    s.length = operations.length ∨ ∃ e ∈ s, ∃ r, e.2 = .finished r ∧ stops r = true := by
  obtain ⟨-, hmap, hmem, hall⟩ := h.of_result hs
  rw [← List.length_map (f := Prod.fst), hmap]
  refine hall.imp_right fun hstopped => ?_
  rw [show g.stopped = _ from h.heeds] at hstopped
  obtain ⟨e, he, hstop⟩ := List.any_eq_true.mp hstopped
  -- what has settled is in the result
  have hpos : e.1 ∈ s.map Prod.fst := by
    rw [hmap]
    exact h.settled_subset (List.mem_map_of_mem he)
  obtain ⟨e', he', hfst⟩ := List.mem_map.mp hpos
  have hsame : e' = e := List.inj_on_of_nodup_map h.settled_nodup (hmem e' he') he hfst
  subst hsame
  refine ⟨e', he', ?_⟩
  unfold stopsOn at hstop
  rw [h.stops_eq] at hstop
  split at hstop
  · rename_i r hr
    exact ⟨r, hr, hstop⟩
  · cases hstop

/-- A gathering that is over when it has started what it can had nothing to
start. -/
theorem launch_eq_nil_of_result (h : g.Sound limit stops operations)
    {s : Settled ρ κ} (hs : g.launch.2.result? = some s) : g.launch.1 = [] := by
  have hr := (h.launch.of_result hs).1
  rw [h.running_launch] at hr
  exact List.map_eq_nil_iff.mp (List.append_eq_nil_iff.mp hr).2

end Sound

end Gathering

namespace Race

/-- Whether an operation has settled. -/
def hasSettled (r : Race ρ κ) (index : Nat) : Bool :=
  r.settled.any fun s => s.1 == index

/-- The operations that are running; all are started at once. -/
def running (r : Race ρ κ) : List Nat :=
  (List.range r.total).filter fun i => !r.hasSettled i

/-- **The books of a race are sound**: nothing has settled twice. -/
structure Sound (wins : ρ → Bool) (operations : List α) (r : Race ρ κ) : Prop where
  wins_eq : r.wins = wins
  total_eq : r.total = operations.length
  settled_nodup : (r.settled.map Prod.fst).Nodup
  settled_lt : ∀ e ∈ r.settled, e.1 < operations.length

namespace Sound

variable {wins : ρ → Bool} {operations : List α} {r : Race ρ κ}

theorem ofOperations (wins : ρ → Bool) (operations : List α) :
    (⟨wins, operations.length, []⟩ : Race ρ κ).Sound wins operations :=
  ⟨rfl, rfl, List.nodup_nil, nofun⟩

theorem running_nodup (r : Race ρ κ) : r.running.Nodup :=
  List.nodup_range.filter _

/-- **The settling of a running operation keeps the books sound.** -/
theorem settle (h : r.Sound wins operations) {i : Nat} (hi : i ∈ r.running)
    (s : Settlement ρ κ) : (r.settle i s).Sound wins operations := by
  obtain ⟨hi, hn⟩ := List.mem_filter.mp hi
  have hlt : i < operations.length := h.total_eq ▸ List.mem_range.mp hi
  refine ⟨h.wins_eq, h.total_eq, Settled.nodup_append h.settled_nodup hn s, fun e he => ?_⟩
  obtain he | he := List.mem_append.mp he
  · exact h.settled_lt e he
  · rw [List.mem_singleton.mp he]
    exact hlt

/-- An operation that has settled is no longer running. -/
theorem running_settle (i : Nat) (s : Settlement ρ κ) (r : Race ρ κ) :
    (r.settle i s).running = r.running.filter fun j => j ≠ i :=
  Settled.filter_append r.settled i s (List.range r.total)

end Sound

end Race

end Playbook
