import Playbook.Proofs.Process.Descent
import Playbook.Proofs.Process.Settled
import Playbook.Proofs.Process.Trace

/-!
# Runs beside what earlier ones have left

A run may begin while operations are still under way that an earlier run was cut off from. It comes
to its end all the same (`Machine.Tended.exists_run`), and what it comes to is told by its own
process. Whatever the others do, what is left of the main task is below its process, behind what the
task has done since it was begun (`Moment.RunsOn`). When the run is over, a result or a crash is
left, and what the task has done is part of all that was done to the world in the meantime
(`Machine.Tended.leaves_of_run`).

So a solo process runs to an end that it has by itself, beside others as well
(`Machine.Tended.exists_run_of_solo`).
-/

namespace Playbook

variable {δ σ ν ρ κ : Type}

/-! ## What a task has done -/

namespace Event

/-- What has been done by a task that had not done anything before. -/
theorem doneBy_append_of_nil {task : Nat} {past es : List (Event δ σ ν ρ κ)}
    (h : doneBy task past = []) : doneBy task (past ++ es) = doneBy task es := by
  unfold doneBy at h ⊢
  rw [List.foldl_append, h]

/-- What a task has done is part of what has been done. -/
theorem doneBy_sublist (task : Nat) (es : List (Event δ σ ν ρ κ)) :
    (doneBy task es).Sublist (deeds es) := by
  induction es using List.reverseRecOn with
  | nil => exact .slnil
  | append_singleton es e ih =>
    have hdeeds : deeds (es ++ [e]) = deeds es ++ deeds [e] := List.filterMap_append
    rw [hdeeds]
    have hbefore : (doneBy task es).Sublist (deeds es ++ deeds [e]) :=
      ih.trans (List.sublist_append_left _ _)
    cases e with
    | did t deed =>
      by_cases ht : t = task
      · rw [ht, doneBy_did]
        exact ih.append (List.Sublist.refl [deed])
      · rw [doneBy_did_of_ne ht]
        exact hbefore
    | ended t s =>
      by_cases ht : t = task
      · rw [ht, doneBy_ended]
        exact List.nil_sublist _
      · rw [doneBy_ended_of_ne ht]
        exact hbefore
    | opened | started | yielded | timedOut | stopped =>
      rw [doneBy_append_singleton]
      exact hbefore

end Event

/-! ## What is left of the main task -/

namespace Process

/-- **An order for what is left of a main task**, whatever its blocks yield and whether time limits
pass. -/
structure Leaves (W : σ → Prop) (R : List δ → Process δ σ ν ρ κ → Process δ σ ν ρ κ → Prop) :
    Prop extends Order W R where
  yielded : ∀ {node here next s}, node.block? = some (here, next) → R [] (next s) node
  timedOut : ∀ {w ms p next}, R [] (next (.inr w)) (.timed ms p next)

end Process

variable {R : List δ → Process δ σ ν ρ κ → Process δ σ ν ρ κ → Prop} {W : σ → Prop}
  {p : Process δ σ ν ρ κ}

namespace Moment

/-- **A moment of a run of a process**: all is in order, and what is left of the main task is below
the process. Of operations nothing is said. -/
structure RunsOn (R : List δ → Process δ σ ν ρ κ → Process δ σ ν ρ κ → Prop) (W : σ → Prop)
    (p : Process δ σ ν ρ κ) (b : Moment δ σ ν ρ κ) : Prop where
  orderly : b.Orderly
  tallied : b.Tallied
  traced : b.Traced R (fun q => q = p) W fun id => id = Machine.mainId

variable {a b : Moment δ σ ν ρ κ} {m : Machine δ σ ν ρ κ} {past : List (Event δ σ ν ρ κ)}

/-- Where there is no main task, a run of any process can begin. -/
theorem Orderly.runsOn (ho : Orderly ⟨.idle, m, past⟩) (ht : Tallied ⟨.idle, m, past⟩)
    (hw : W m.world) (hm : ∀ t ∈ m.tasks, t.id ≠ Machine.mainId) :
    RunsOn R W p ⟨.idle, m, past⟩ :=
  ⟨ho, ht, hw, nofun, fun t htm _ hid => absurd hid (hm t htm)⟩

variable [Deeds δ σ]

theorem RunsOn.later (h : a.RunsOn R W p) (hR : Process.Leaves W R)
    (hW : ∀ (d : δ) (w : σ), W w → W (Deeds.perform d w)) (hab : Later (fun q => q = p) a b) :
    b.RunsOn R W p := by
  induction hab with
  | refl => exact h
  | tail _ hn ih =>
    exact ⟨hn.orderly ih.orderly, hn.tallied ih.orderly ih.tallied,
      hn.traced hR.toOrder ih.orderly ih.tallied hW ih.traced
        (fun _ _ _ _ _ _ _ _ hnode _ => hR.yielded hnode) fun _ _ _ _ _ _ _ => hR.timedOut⟩

omit [Deeds δ σ] in
/-- When the main task is at its end, what is left of it is below its process. -/
theorem RunsOn.left {task : Machine.Task δ σ ν ρ κ} {q : Process δ σ ν ρ κ}
    (h : RunsOn R W p ⟨.going task q [], m, past⟩) (hmain : task.parent = none) :
    R (Event.doneBy Machine.mainId past) q p := by
  obtain ⟨t, htm, hid, hparent, -⟩ := h.orderly.seated.alive task rfl
  have hid : task.id = Machine.mainId :=
    hid ▸ h.orderly.numbered.main t htm (hparent.trans hmain)
  obtain ⟨q', ⟨_, _, hoperation, -⟩ | ⟨-, rfl⟩, hleft⟩ := h.traced.stage task rfl hid
  · cases hmain.symm.trans hoperation
  · exact hid ▸ hleft

end Moment

/-! ## Ends of runs -/

/-- What is left of a process when a run of it is over. -/
inductive Machine.Ending.Leaves : Machine.Ending ρ κ → Process δ σ ν ρ κ → Prop
  | done (r : ρ) : Leaves (.finished r) (.done r)
  | crash (a : κ) : Leaves (.crashed a) (.crash a)

namespace Machine

theorem Ending.Leaves.of_finished {q : Process δ σ ν ρ κ} {task : Nat} {r : ρ}
    (h : q.settlement? task = some (.finished r)) : (finished r : Ending ρ κ).Leaves q := by
  cases q with
  | done =>
    cases h
    exact .done r
  | crash | act | sleep | timed | gather | race => cases h

theorem Ending.Leaves.of_crashed {q : Process δ σ ν ρ κ} {task t : Nat} {a : κ}
    (h : q.settlement? task = some (.crashed t a)) : (crashed a : Ending ρ κ).Leaves q := by
  cases q with
  | crash =>
    cases h
    exact .crash a
  | done | act | sleep | timed | gather | race => cases h

variable [Deeds δ σ] {m : Machine δ σ ν ρ κ} {past : List (Event δ σ ν ρ κ)}

/-- A run does not leave the worlds that deeds do not leave. -/
theorem world_run (hm : ∀ t ∈ m.tasks, t.id ≠ mainId) (hw : W m.world)
    (hW : ∀ (d : δ) (w : σ), W w → W (Deeds.perform d w)) (turns : Nat) :
    W (m.run turns p).2.world := by
  have hlater : ∀ b : Moment δ σ ν ρ κ, Moment.Later (fun q => q = p) ⟨.idle, m, []⟩ b →
      W b.machine.world := fun b h => by
    induction h with
    | refl => exact hw
    | tail _ hn ih => exact hn.world hW ih
  obtain ⟨past, h, -⟩ := Moment.later_run (P := fun q => q = p) rfl turns hm []
  exact hlater _ h

/-- **A turn that ends a run** is one of the main task, at the end of its process. -/
theorem exists_left_of_turn (h : Moment.RunsOn R W p ⟨.idle, m, past⟩) (hR : Process.Leaves W R)
    (hW : ∀ (d : δ) (w : σ), W w → W (Deeds.perform d w)) {id : Nat} {e : Settlement ρ κ}
    (ht : (m.turn id).1 = some e) :
    ∃ task q b, Moment.Later (fun q => q = p) ⟨.idle, m, past⟩ b
      ∧ (m.turn id).2.world = b.machine.world ∧ q.settlement? task = some e
      ∧ R (Event.doneBy mainId b.past) q p := by
  have hturns := Moment.turns (fun q => q = p) id m past
  generalize m.turn id = x at ht hturns ⊢
  cases hturns with
  | nobody | forgets => cases ht
  | @goes task s progress m' past' hid hs hb hgoes =>
    have hlater := Relation.ReflTransGen.head (Moment.Next.move hb) (Moment.InTurn.later hgoes)
    have hafter := h.later hR hW hlater
    -- only a main task answers
    have hanswer : ∀ e', (m'.finish task e').1 = some e → task.parent = none ∧ e' = e :=
      fun e' he => by
        unfold finish at he
        split at he
        · cases he
        · rename_i hparent
          exact ⟨hparent, Option.some.inj he⟩
    cases progress with
    | waiting => cases ht
    | done r =>
      obtain ⟨hparent, rfl⟩ := hanswer _ ht
      exact ⟨task.id, .done r, _, hlater, Moment.world_finish m' task _, rfl, hafter.left hparent⟩
    | crashed a =>
      obtain ⟨hparent, rfl⟩ := hanswer _ ht
      exact ⟨task.id, .crash a, _, hlater, Moment.world_finish m' task _, rfl,
        hafter.left hparent⟩

/-- **When a run is over**, a result or a crash is left of its process. -/
theorem exists_left_of_runTurns (h : Moment.RunsOn R W p ⟨.idle, m, past⟩)
    (hR : Process.Leaves W R) (hW : ∀ (d : δ) (w : σ), W w → W (Deeds.perform d w)) {turns : Nat}
    {e : Ending ρ κ} {m' : Machine δ σ ν ρ κ} (hr : m.runTurns turns = (e, m'))
    (he : e ≠ .unfinished) :
    ∃ q b, Moment.Later (fun q => q = p) ⟨.idle, m, past⟩ b ∧ m'.world = b.machine.world
      ∧ e.Leaves q ∧ R (Event.doneBy mainId b.past) q p := by
  induction turns generalizing m past with
  | zero => exact absurd (congrArg Prod.fst hr).symm he
  | succ turns ih =>
    unfold Machine.runTurns at hr
    split at hr
    · rename_i id m₁ hn
      have hnext : Moment.Later (fun q => q = p) ⟨.idle, m, past⟩ ⟨.idle, m₁, past⟩ :=
        .single (.reorder (.of_next? hn))
      have hends := fun e (he : (m₁.turn id).1 = some e) =>
        exists_left_of_turn (h.later hR hW hnext) hR hW he
      obtain ⟨past₂, hl, -⟩ := Moment.later_turn (P := fun q => q = p) id m₁ past
      split at hr
      · rename_i r m₂ hx
        rw [hx] at hends
        cases hr
        obtain ⟨task, q, b, hlater, hw, hq, hleft⟩ := hends _ rfl
        exact ⟨q, b, hnext.trans hlater, hw, .of_finished hq, hleft⟩
      · rename_i t a m₂ hx
        rw [hx] at hends
        cases hr
        obtain ⟨task, q, b, hlater, hw, hq, hleft⟩ := hends _ rfl
        exact ⟨q, b, hnext.trans hlater, hw, .of_crashed hq, hleft⟩
      · rename_i hx
        rw [hx] at hl
        obtain ⟨q, b, hlater, hrest⟩ := ih (h.later hR hW (hnext.trans hl)) hr
        exact ⟨q, b, (hnext.trans hl).trans hlater, hrest⟩
    · split at hr
      · rename_i hc
        have hclock : Moment.Later (fun q => q = p) ⟨.idle, m, past⟩ ⟨.idle, _, past⟩ :=
          .single (.reorder (.of_moveClock hc))
        obtain ⟨q, b, hlater, hrest⟩ := ih (h.later hR hW hclock) hr
        exact ⟨q, b, hclock.trans hlater, hrest⟩
      · exact absurd (congrArg Prod.fst hr).symm he

variable {P : Process δ σ ν ρ κ → Prop} {w : σ}

/-- **Whatever has been run before**, when a run is over a result or a crash is left of its process.
What the main task has done is part of all that was done to the world since the run began. -/
theorem Tended.leaves_of_run (h : m.Tended P w) (hm : ∀ t ∈ m.tasks, t.id ≠ mainId)
    (hw : W m.world) (hW : ∀ (d : δ) (w : σ), W w → W (Deeds.perform d w))
    (hR : Process.Leaves W R) {turns : Nat} {e : Ending ρ κ} {m' : Machine δ σ ν ρ κ}
    (hr : m.run turns p = (e, m')) (he : e ≠ .unfinished) :
    ∃ q t all, e.Leaves q ∧ R t q p ∧ t.Sublist all
      ∧ m'.world = all.foldl (fun w d => Deeds.perform d w) m.world := by
  obtain ⟨past, hc⟩ := h.cared
  have htallied := Moment.Later.tallied hc.later
  have hruns := (Moment.Later.orderly hc.later).runsOn (R := R) (p := p) htallied hw hm
  have hbegin : Moment.Later (fun q => q = p) ⟨.idle, m, past⟩ ⟨.idle, m.begin p, past⟩ :=
    .single (.begin rfl hm)
  obtain ⟨q, b, hlater, hworld, hq, hleft⟩ :=
    exists_left_of_runTurns (hruns.later hR hW hbegin) hR hW hr he
  obtain ⟨es, hes, hdeeds⟩ := Moment.Later.world hlater
  -- the main tasks of earlier runs have come to their ends
  have hnone : Event.doneBy mainId past = [] := by
    by_contra hne
    obtain ⟨main, hid, t, htm, htid, -⟩ := htallied.main hne
    exact hm t htm (htid.trans hid)
  rw [hes, Event.doneBy_append_of_nil hnone] at hleft
  exact ⟨q, _, _, hq, hleft, Event.doneBy_sublist mainId es, hworld.trans hdeeds⟩

/-- A machine that runs have been made on one after the other is one on which nobody is
forgotten. -/
theorem Played.tended (h : m.Played w) : m.Tended (fun _ => True) w := by
  induction h with
  | start => exact tended_ofWorld _ w
  | run _ hm turns p ih => exact (ih.begin trivial hm).runTurns turns

/-! ## Solo processes -/

omit [Deeds δ σ] in
/-- What is left of a solo process is solo, and it ends as the process does behind what has been
done. -/
theorem leaves_solo {D : δ → Prop} {K : κ → Prop} :
    Process.Leaves W fun (t : List δ) (p q : Process δ σ ν ρ κ) => q.Solo D W K →
      p.Solo D W K ∧ ∀ u e, Ending.Of K p u e → Ending.Of K q (t ++ u) e where
  refl _ h := ⟨h, fun _ _ => id⟩
  trans h h' hs := by
    obtain ⟨hq, hqs⟩ := h' hs
    obtain ⟨hp, hpq⟩ := h hq
    exact ⟨hp, fun u e he => List.append_assoc .. ▸ hqs _ e (hpq u e he)⟩
  timed _ _ _ _ := nofun
  acted hw h := by
    cases h with
    | act _ h => exact ⟨h _ hw, fun _ _ he => he.act⟩
  asleep h := by
    cases h with
    | sleep h =>
      refine ⟨.sleep h, fun u e he => ?_⟩
      obtain ⟨r, rfl, hr⟩ | ⟨a, rfl, hk, hr⟩ := he
      · cases hr with
        | slept hr => exact .inl ⟨r, rfl, .slept hr⟩
      · cases hr with
        | slept hr => exact .inr ⟨a, rfl, hk, .slept hr⟩
  slept h := by
    cases h with
    | sleep h => exact ⟨h, fun _ _ he => he.slept⟩
  inTime := nofun
  crashed := nofun
  gatheredNothing _ := nofun
  racedNothing _ := nofun
  yielded h hs := by
    cases hs with
    | done | crash | act | sleep => cases h
  timedOut := nofun

/-- **A solo process comes to an end that it has by itself**, whatever has been run before. What the
run has done is part of what has been done to the world. -/
theorem Tended.exists_run_of_solo (h : m.Tended P w) (hm : ∀ t ∈ m.tasks, t.id ≠ mainId)
    (hp : P p) {D : δ → Prop} {K : κ → Prop} (hs : p.Solo D W K) (hw : W m.world)
    (hW : ∀ (d : δ) (w : σ), W w → W (Deeds.perform d w)) :
    ∃ n t all e m', (∀ turns, n ≤ turns → m.run turns p = (e, m')) ∧ t.Sublist all
      ∧ m'.world = all.foldl (fun w d => Deeds.perform d w) m.world ∧ Ending.Of K p t e := by
  obtain ⟨n, e, m', he, hrun⟩ := h.exists_run hm hp
  obtain ⟨q, t, all, hq, hleft, hpart, hworld⟩ :=
    h.leaves_of_run hm hw hW (leaves_solo (D := D) (K := K)) (hrun n le_rfl) he
  obtain ⟨hqs, hof⟩ := hleft hs
  refine ⟨n, t, all, e, m', hrun, hpart, hworld, ?_⟩
  rw [← List.append_nil t]
  cases hq with
  | done r => exact hof [] _ (.inl ⟨r, rfl, .refl⟩)
  | crash a =>
    cases hqs with
    | crash ha => exact hof [] _ (.inr ⟨a, rfl, ha, .refl⟩)

end Machine

end Playbook
