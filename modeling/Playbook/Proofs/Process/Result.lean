import Playbook.Proofs.Process.Outcome
import Playbook.Proofs.Process.Settled

/-!
# A machine gives the results of processes by themselves

Where no time limit passes and nothing crashes, what a task ends with is what its
process comes to by itself (`Process.Comes`), in whatever order the tasks have their
turns and whatever else is running. The same goes for what a block yields.

Time limits may pass and tasks may crash elsewhere. `Event.Undisturbed` says that
nothing of the kind happens to the tasks in question: a set of tasks with the
operations of all blocks that they open. Whatever a task of the set still comes to,
its process comes to then: that is `Moment.Traced` with the order `Process.Leads`. It
holds at every moment, together with what tasks have come to and blocks have yielded
(`Moment.Later.coming`).
-/

namespace Playbook

variable {δ σ ν ρ κ : Type}

/-! ## What processes lead to -/

namespace Process

/-- One process comes to nothing but what another one does. -/
def Leads (W : σ → Prop) (p q : Process δ σ ν ρ κ) : Prop :=
  ∀ r, p.Comes W r → q.Comes W r

/-- What a block yields by itself, it goes on with. -/
theorem leads_of_yields {W : σ → Prop} {node : Process δ σ ν ρ κ} {here : ν}
    {next : Settled ρ κ → Process δ σ ν ρ κ} (hn : node.block? = some (here, next))
    {s : Settled ρ κ} (hs : node.Yields W s) : (next s).Leads W node := by
  intro r hr
  cases node with
  | gather =>
    cases hn
    exact comes_gather.mpr ⟨s, hs, hr⟩
  | race =>
    cases hn
    exact comes_race.mpr ⟨s, hs, hr⟩
  | done | crash | act | sleep | timed => cases hn

/-- A gathering that is over at once had no operations. -/
theorem yields_of_launch {W : σ → Prop} {limit : Nat} {stops : ρ → Bool}
    {operations : List (Process δ σ ν ρ κ)} {here : ν}
    {next : Settled ρ κ → Process δ σ ν ρ κ} {s : Settled ρ κ}
    (h : (Gathering.ofOperations limit stops operations).launch.2.result? = some s) :
    (Process.gather limit stops operations here next).Yields W s := by
  have hsound : Gathering.Sound limit stops operations
      (Gathering.ofOperations (ρ := ρ) (κ := κ) limit stops operations) :=
    .ofOperations limit stops operations
  obtain ⟨-, hmap, -, hall⟩ := hsound.launch.of_result h
  have hstart : (Gathering.ofOperations (ρ := ρ) (κ := κ) limit stops operations).launch.2.started
      = [] := by
    rw [Gathering.launch_started, hsound.launch_eq_nil_of_result h]
    rfl
  rw [hstart] at hmap hall
  obtain hall | hstopped := hall
  · exact ⟨[], Nat.zero_le _, nofun, .inl hall, List.map_eq_nil_iff.mp hmap⟩
  · cases hstopped

theorem order_leads (W : σ → Prop) : Order (δ := δ) (ν := ν) (ρ := ρ) (κ := κ) W
    fun _ => Leads W where
  refl p r h := h
  trans h h' r hr := h' r (h r hr)
  timed ms ms' next h r hr := by
    obtain ⟨b, hb, hn⟩ := comes_timed.mp hr
    exact .timed (h b hb) hn
  acted hw r hr := .act _ hw hr
  asleep r hr := comes_sleep.mpr (comes_sleep.mp hr)
  slept r hr := .sleep hr
  inTime r hr := .timed (.done _) hr
  crashed r hr := (comes_crash hr).elim
  gatheredNothing h := leads_of_yields rfl (yields_of_launch h)
  racedNothing h := leads_of_yields rfl ⟨[], List.nodup_nil, nofun, nofun, h⟩

end Process

/-! ## What blocks yield -/

/-- Settlements that are all results. -/
theorem Settled.exists_finished {s : Settled ρ κ} (h : ∀ e ∈ s, ∃ r, e.2 = .finished r) :
    ∃ results : List (Nat × ρ), s = .finished results := by
  induction s with
  | nil => exact ⟨[], rfl⟩
  | cons e rest ih =>
    obtain ⟨r, hr⟩ := h e List.mem_cons_self
    obtain ⟨results, rfl⟩ := ih fun e' he => h e' (List.mem_cons_of_mem e he)
    refine ⟨(e.1, r) :: results, ?_⟩
    show e :: _ = (e.1, Settlement.finished r) :: _
    rw [← hr]

/-- Results at the positions from zero on. -/
theorem Gathering.eq_numbered {results : List (Nat × ρ)} {k : Nat}
    (h : results.map Prod.fst = List.range k) :
    results = numbered (results.map Prod.snd) := by
  refine List.ext_getElem ?_ fun i h₁ h₂ => ?_
  · rw [List.length_map, List.length_zipIdx, List.length_map]
  · have hi : (results.map Prod.fst)[i]? = some i := by
      have hlen := congrArg List.length h
      rw [List.length_map, List.length_range] at hlen
      rw [h]
      exact List.getElem?_range (hlen ▸ h₁)
    have hfst : results[i].1 = i := by
      rw [List.getElem?_map, List.getElem?_eq_getElem h₁] at hi
      exact Option.some.inj hi
    refine Prod.ext ?_ ?_
    · rw [hfst]
      simp [numbered]
    · simp [numbered]

open Machine (Task Block TaskState BlockState)

/-- A gathering that is over yields what its operations come to, as far as it has started
them. -/
theorem Gathering.Sound.yields {W : σ → Prop} {limit : Nat} {stops : ρ → Bool}
    {operations : List (Process δ σ ν ρ κ)} {here : ν} {next : Settled ρ κ → Process δ σ ν ρ κ}
    {g : Gathering (Process δ σ ν ρ κ) ρ κ} (hg : g.Sound limit stops operations)
    {s : Settled ρ κ} (hs : g.launch.2.result? = some s)
    (hr : ∀ e ∈ g.settled, ∃ r, e.2 = .finished r
      ∧ ∀ p, operations[e.1]? = some p → p.Comes W r) :
    (Process.gather limit stops operations here next).Yields W s := by
  obtain ⟨-, hmap, hmem, -⟩ := hg.launch.of_result hs
  have hstarted := hg.launch.started_eq
  obtain ⟨results, rfl⟩ := Settled.exists_finished fun e he =>
    (hr e (hmem e he)).imp fun _ hr => hr.1
  have hfst : results.map Prod.fst = List.range g.launch.2.started.length := by
    rw [← hstarted, ← hmap, List.map_map]
    rfl
  have hlen : (results.map Prod.snd).length = g.launch.2.started.length := by
    rw [List.length_map, ← List.length_map (f := Prod.fst), hfst, List.length_range]
  refine ⟨results.map Prod.snd, ?_, fun i p b hp hb => ?_, ?_, ?_⟩
  · rw [hlen]
    exact hg.launch.started_le
  · have hib : (i, b) ∈ results := by
      rw [Gathering.eq_numbered hfst]
      exact List.mem_map.mpr ⟨(b, i), List.mem_zipIdx_iff_getElem?.mpr hb, rfl⟩
    obtain ⟨r, hbr, hops⟩ := hr (i, .finished b)
      (hmem _ (List.mem_map.mpr ⟨(i, b), hib, rfl⟩))
    cases hbr
    exact hops p hp
  · -- a result has stopped the gathering, and it is among those that are yielded
    refine (hg.launch.all_or_stopped hs).imp (fun hall => ?_) fun ⟨e, he, x, hx, hstop⟩ => ?_
    · rw [← hall]
      simp [Settled.finished]
    · obtain ⟨e', he', rfl⟩ := List.mem_map.mp he
      cases hx
      exact ⟨e'.2, List.mem_map_of_mem he', hstop⟩
  · rw [← Gathering.eq_numbered hfst]

/-- A race that is over yields what its operations have come to, in the order of their
ends. -/
theorem Race.Sound.yields {W : σ → Prop} {wins : ρ → Bool}
    {operations : List (Process δ σ ν ρ κ)} {here : ν} {next : Settled ρ κ → Process δ σ ν ρ κ}
    {race : Race ρ κ} (hg : race.Sound wins operations) {s : Settled ρ κ}
    (hs : race.result? = some s)
    (hr : ∀ e ∈ race.settled, ∃ r, e.2 = .finished r
      ∧ ∀ p, operations[e.1]? = some p → p.Comes W r) :
    (Process.race wins operations here next).Yields W s := by
  obtain ⟨results, hres⟩ := Settled.exists_finished fun e he => (hr e he).imp fun _ hr => hr.1
  have hfst : results.map Prod.fst = race.settled.map Prod.fst := by
    rw [hres, Settled.finished, List.map_map]
    rfl
  have hmem : ∀ e ∈ results, (e.1, .finished e.2) ∈ race.settled := by
    intro e he
    rw [hres]
    exact List.mem_map.mpr ⟨e, he, rfl⟩
  refine ⟨results, ?_, fun e he => hg.settled_lt _ (hmem e he), fun e he p hp => ?_, ?_⟩
  · rw [hfst]
    exact hg.settled_nodup
  · obtain ⟨b, hb, hops⟩ := hr _ (hmem e he)
    cases hb
    exact hops p hp
  · rw [← hres, ← hg.wins_eq, ← hg.total_eq]
    exact hs

/-- **A block whose operations have come to what they come to by themselves** yields
what it yields by itself. -/
theorem Machine.BlockState.Sound.yields {W : σ → Prop} {node : Process δ σ ν ρ κ}
    {b : BlockState δ σ ν ρ κ} (h : b.Sound node) {s : Settled ρ κ}
    (hs : b.outcome? = some s)
    (hr : ∀ e ∈ b.settled, ∃ r, e.2 = .finished r
      ∧ ∀ p, node.operations[e.1]? = some p → p.Comes W r) : node.Yields W s := by
  obtain ⟨limit, stops, operations, _, _, g, rfl, rfl, hg⟩
    | ⟨wins, operations, _, _, race, rfl, rfl, hg⟩ := h.shape
  · exact hg.yields hs hr
  · exact hg.yields hs hr

/-! ## Undisturbed tasks -/

/-- **Nothing disturbs the tasks in `S`**: no time limit of theirs passes, and none of
them crashes. With a task also the operations of the blocks in `B` that it opens are
among them. -/
structure Event.Undisturbed (S B : Nat → Prop) (past : List (Event δ σ ν ρ κ)) : Prop where
  opened : ∀ u c n, .opened u c n ∈ past → S u → B c
  started : ∀ c i t p, .started c i t p ∈ past → B c → S t
  inTime : ∀ t w, S t → .timedOut t w ∉ past
  safe : ∀ t t' a, S t → .ended t (.crashed t' a) ∉ past

theorem Event.Undisturbed.mono {S B : Nat → Prop} {past past' : List (Event δ σ ν ρ κ)}
    (h : Undisturbed S B past') (hp : past ⊆ past') : Undisturbed S B past where
  opened u c n hm := h.opened u c n (hp hm)
  started c i t p hm := h.started c i t p (hp hm)
  inTime t w ht hm := h.inTime t w ht (hp hm)
  safe t t' a ht hm := h.safe t t' a ht (hp hm)

namespace Moment

/-- What the tasks in `S` still come to, their processes come to. -/
abbrev Coming (P : Process δ σ ν ρ κ → Prop) (W : σ → Prop) (S : Nat → Prop)
    (b : Moment δ σ ν ρ κ) : Prop :=
  b.Traced (fun _ => Process.Leads W) P W S

/-- **What the tasks in `S` have come to, their processes come to**, and what the
blocks in `B` have yielded, they yield by themselves. -/
structure Come (P : Process δ σ ν ρ κ → Prop) (W : σ → Prop) (S B : Nat → Prop)
    (s : Story δ σ ν ρ κ) : Prop where
  settled : ∀ b ∈ s.machine.blocks, B b.id → ∀ e ∈ b.state.settled, ∃ r u n,
    e.2 = .finished r ∧ .opened u b.id n ∈ s.past
      ∧ ∀ p, n.operations[e.1]? = some p → p.Comes W r
  ended : ∀ t r, .ended t (.finished r) ∈ s.past → S t →
    (∃ c i q, .started c i t q ∈ s.past ∧ q.Comes W r)
      ∨ t = Machine.mainId ∧ ∃ q, P q ∧ q.Comes W r
  yielded : ∀ u c s', .yielded u c s' ∈ s.past → B c →
    ∃ u' n, .opened u' c n ∈ s.past ∧ n.Yields W s'

theorem come_ofWorld (P : Process δ σ ν ρ κ → Prop) (W : σ → Prop) (S B : Nat → Prop)
    (w : σ) : Come P W S B (⟨.ofWorld w, []⟩ : Story δ σ ν ρ κ) :=
  ⟨nofun, nofun, nofun⟩

variable {P : Process δ σ ν ρ κ → Prop} {W : σ → Prop} {S B : Nat → Prop}

/-! ## Steps -/

/-- What a block yields when it is attended. -/
theorem Come.yields {s : Story δ σ ν ρ κ} (h : Come P W S B s) (hb : s.Booked)
    {b : Block δ σ ν ρ κ} (hm : b ∈ s.machine.blocks) (hB : B b.id) {r : Settled ρ κ}
    (hr : b.state.outcome? = some r) {u : Nat} {n : Process δ σ ν ρ κ}
    (ho : .opened u b.id n ∈ s.past) : n.Yields W r := by
  obtain ⟨n', ho', hs, -, -⟩ := hb.live b hm
  obtain ⟨-, rfl⟩ := hb.opened_inj _ _ _ _ _ ho' ho
  refine hs.yields hr fun e he => ?_
  obtain ⟨r, u', n', hfin, hu', hops⟩ := h.settled b hm hB e he
  obtain ⟨-, rfl⟩ := hb.opened_inj _ _ _ _ _ hu' ho
  exact ⟨r, hfin, hops⟩

/-- Where nothing settles, there is nothing to show. -/
theorem Come.of_unsettled {a b : Moment δ σ ν ρ κ} (h : Come P W S B a.story)
    (hu : Unsettled a b) : Come P W S B b.story := by
  refine ⟨fun b' hm hB e he => ?_, fun t r hm hS => ?_, fun u c r hm hB => ?_⟩
  · obtain ⟨hnone, -⟩ | ⟨b'', hm', hid, hset⟩ := hu.blocks b' hm
    · rw [hnone] at he
      cases he
    · obtain ⟨r, u, n, hr, ho, hops⟩ := h.settled b'' hm' (hid ▸ hB) e (hset ▸ he)
      exact ⟨r, u, n, hr, hu.subset (hid ▸ ho), hops⟩
  · obtain ⟨c, i, q, hs, hq⟩ | hmain := h.ended t r (hu.mem_of_isEnd hm rfl) hS
    · exact .inl ⟨c, i, q, hu.subset hs, hq⟩
    · exact .inr hmain
  · obtain ⟨u', n, ho, hn⟩ := h.yielded u c r (hu.mem_of_isEnd hm rfl) hB
    exact ⟨u', n, hu.subset ho, hn⟩

/-- **What a block hears of a task in `S`** is a result that its operation comes to. -/
theorem Come.hears {m : Machine δ σ ν ρ κ} {past : List (Event δ σ ν ρ κ)}
    (hb : Story.Booked ⟨m, past⟩) {task : Task δ σ ν ρ κ} (ht : m.Alive task)
    {s : Settlement ρ κ} (hu : Event.Undisturbed S B (past ++ [.ended task.id s]))
    (hs : ∀ r, s = .finished r → S task.id →
      ∃ q, Event.Origin P past task q ∧ q.Comes W r)
    {c i : Nat} (hpar : task.parent = some (c, i)) (hB : B c) :
    ∃ r u n, s = .finished r ∧ .opened u c n ∈ past
      ∧ ∀ p, n.operations[i]? = some p → p.Comes W r := by
  obtain ⟨t, htm, htid, htpar, -⟩ := ht
  obtain ⟨p, hp⟩ := hb.task_started t htm c i (htpar.trans hpar)
  obtain ⟨u, n, ho, hop⟩ := hb.started_opened c i t.id p hp
  have hS : S task.id := htid ▸ hu.started c i t.id p (List.mem_append_left _ hp) hB
  cases s with
  | crashed t' a =>
    exact (hu.safe _ t' a hS (List.mem_append_right _ List.mem_cons_self)).elim
  | finished r =>
    obtain ⟨q, ⟨c', i', hpar', hq⟩ | ⟨hnone, -⟩, hcomes⟩ := hs r rfl hS
    · obtain ⟨-, -, rfl⟩ := hb.started_inj _ _ _ _ _ _ _ (htid ▸ hp) hq
      refine ⟨r, u, n, rfl, ho, fun p' hp' => ?_⟩
      rw [hop] at hp'
      cases hp'
      exact hcomes
    · rw [hpar] at hnone
      cases hnone

/-- What is behind the end of a task in `S`: it is a result, and its process comes to
it. -/
theorem Come.ends {m : Machine δ σ ν ρ κ} {past : List (Event δ σ ν ρ κ)}
    (h : Come P W S B ⟨m, past⟩) (hn : Story.Numbered ⟨m, past⟩) (hb : Story.Booked ⟨m, past⟩)
    {task : Task δ σ ν ρ κ} (ht : m.Alive task) {s : Settlement ρ κ}
    (hu : Event.Undisturbed S B (past ++ [.ended task.id s]))
    (hs : ∀ r, s = .finished r → S task.id →
      ∃ q, Event.Origin P past task q ∧ q.Comes W r) :
    Come P W S B ⟨(m.finish task s).2, past ++ [.ended task.id s]⟩ where
  settled b' hm' hB e he := by
    rw [(Machine.finish_eq hn.blocks.nodup task s).2.1] at hm'
    obtain ⟨b, hm, rfl⟩ := List.mem_map.mp hm'
    rw [Block.id_hear] at hB ⊢
    obtain he | ⟨i, hpar, rfl⟩ := Block.mem_settled_hear he
    · obtain ⟨r, u, n, hr, ho, hops⟩ := h.settled b hm hB e he
      exact ⟨r, u, n, hr, List.mem_append_left _ ho, hops⟩
    · obtain ⟨r, u, n, hr, ho, hops⟩ := Come.hears hb ht hu hs hpar hB
      exact ⟨r, u, n, hr, List.mem_append_left _ ho, hops⟩
  ended t r hm hS := by
    obtain hm | hm := List.mem_append.mp hm
    · obtain ⟨c, i, q, hs, hq⟩ | hmain := h.ended t r hm hS
      · exact .inl ⟨c, i, q, List.mem_append_left _ hs, hq⟩
      · exact .inr hmain
    · cases List.mem_singleton.mp hm
      obtain ⟨q, ⟨c, i, -, hq⟩ | ⟨hnone, hP⟩, hcomes⟩ := hs r rfl hS
      · exact .inl ⟨c, i, q, List.mem_append_left _ hq, hcomes⟩
      · obtain ⟨t, htm, htid, htpar, -⟩ := ht
        exact .inr ⟨htid ▸ hn.main t htm (htpar.trans hnone), q, hP, hcomes⟩
  yielded u c r hm hB := by
    obtain hm | hm := List.mem_append.mp hm
    · obtain ⟨u', n, ho, hn⟩ := h.yielded u c r hm hB
      exact ⟨u', n, List.mem_append_left _ ho, hn⟩
    · cases List.mem_singleton.mp hm

/-- A block yields what its operations have come to. -/
theorem Come.yield {m : Machine δ σ ν ρ κ} {past : List (Event δ σ ν ρ κ)}
    (h : Come P W S B ⟨m, past⟩) (hb : Story.Booked ⟨m, past⟩) {b : Block δ σ ν ρ κ}
    (hm : b ∈ m.blocks) {r : Settled ρ κ} (hr : b.state.outcome? = some r) (task : Nat) :
    Come P W S B ⟨m.dropBlock b.id, past ++ .yielded task b.id r :: m.stops b.id⟩ where
  settled b' hm' hB e he := by
    rw [(m.dropBlock_eq b.id).2.1] at hm'
    obtain ⟨q, u, n, hq, ho, hops⟩ := h.settled b' (List.mem_of_mem_filter hm') hB e he
    exact ⟨q, u, n, hq, List.mem_append_left _ ho, hops⟩
  ended t q hm' hS := by
    obtain hm' | hm' := List.mem_append.mp hm'
    · obtain ⟨c, i, p, hs, hp⟩ | hmain := h.ended t q hm' hS
      · exact .inl ⟨c, i, p, List.mem_append_left _ hs, hp⟩
      · exact .inr hmain
    · obtain hm' | hm' := List.mem_cons.mp hm'
      · cases hm'
      · obtain ⟨_, _, he⟩ := Machine.of_mem_stops hm'
        cases he
  yielded u c q hm' hB := by
    obtain hm' | hm' := List.mem_append.mp hm'
    · obtain ⟨u', n, ho, hn⟩ := h.yielded u c q hm' hB
      exact ⟨u', n, List.mem_append_left _ ho, hn⟩
    · obtain hm' | hm' := List.mem_cons.mp hm'
      · cases hm'
        obtain ⟨n, ho, -⟩ := hb.live b hm
        exact ⟨b.owner, n, List.mem_append_left _ ho, h.yields hb hm hB hr ho⟩
      · obtain ⟨_, _, he⟩ := Machine.of_mem_stops hm'
        cases he

variable [Deeds δ σ] {a b : Moment δ σ ν ρ κ}

/-- **What tasks have come to and blocks have yielded** is what they come to by
themselves, after every step. -/
theorem Next.come (h : Next P a b) (ho : a.Orderly) (hu : Event.Undisturbed S B b.past)
    (ha : a.Coming P W S) (hc : Come P W S B a.story) : Come P W S B b.story := by
  obtain hs | ⟨task, b, here, next, limits, s, -, hb, hs, rfl⟩
    | ⟨task, p, s, hstage, hp, rfl⟩ := h.settles
  · exact hc.of_unsettled hs
  · exact hc.yield ho.booked hb hs task.id
  · have htask : task ∈ a.stage.task? := by
      rw [hstage]
      rfl
    refine hc.ends ho.numbered ho.booked (ho.seated.alive task htask) hu fun r hr hS => ?_
    obtain ⟨q, hq, hl⟩ := ha.stage task htask hS
    rw [hstage] at hl
    cases p with
    | done r' =>
      cases hp
      cases hr
      exact ⟨q, hq, hl r (.done r)⟩
    | crash =>
      cases hp
      cases hr
    | act | sleep | timed | gather | race => cases hp

/-- **A machine gives the results of processes by themselves**, at all moments and
whatever the order of turns. -/
theorem Later.coming {w : σ} (h : Later P ⟨.idle, .ofWorld w, []⟩ b)
    (hw : W w) (hW : ∀ (d : δ) (w : σ), W w → W (Deeds.perform d w))
    (hu : Event.Undisturbed S B b.past) : b.Coming P W S ∧ Come P W S B b.story := by
  induction h with
  | refl => exact ⟨traced_ofWorld hw, come_ofWorld P W S B w⟩
  | tail hl h ih =>
    obtain ⟨ha, hc⟩ := ih (hu.mono h.past_subset)
    have ho := Later.orderly hl
    have hb := h.come ho hu ha hc
    refine ⟨h.traced (Process.order_leads W) ho (Later.tallied hl) hW ha ?_ ?_, hb⟩
    · intro u c s node here next hy hopened hn hS
      obtain ⟨u', n, hopened', hn'⟩ := hb.yielded u c s hy (hu.opened u c node hopened hS)
      obtain ⟨-, rfl⟩ := (h.orderly ho).booked.opened_inj _ _ _ _ _ hopened' hopened
      exact Process.leads_of_yields hn hn'
    · intro u w p next ht _ hS
      exact (hu.inTime u w hS ht).elim

end Moment

end Playbook
