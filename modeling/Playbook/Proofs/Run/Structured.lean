import Playbook.Proofs.Process.Fate
import Playbook.Session

/-!
# What goes on inside of a block that is over

When a block has yielded its value or its error, nothing is to go on inside of it. Its
own operations have ended then, or were stopped. But an operation may itself wait for a
block when its time is up, or when it is stopped with a race; and the operations of a
gathering that nobody waits for any more run on by themselves.

`Session.did_inside_after_yield` says that this is the only way: whatever is still done
inside of a block that has yielded is done inside of a nested block that a task was cut
off from. That it does happen is `Session.late_after_timeout`.
-/

namespace Playbook

variable {σ : Type}

/-- **Where the time of an operation is up at once that waits for a gathering**, what the
gathering has started can run when the block of the operation has yielded. -/
theorem Moment.late_of_timed_zero {δ σ ν ρ κ : Type} [Deeds δ σ] (w : σ) {deed last : δ}
    {next : σ → Process δ σ ν ρ κ} {ms : Nat} {follow : ρ ⊕ ν → Process δ σ ν ρ κ}
    {stops stops' : ρ → Bool} {here here' : ν} {k k' : Settled ρ κ → Process δ σ ν ρ κ}
    {cut : ρ ⊕ ν → ρ} {ending : Settled ρ κ → σ → ρ}
    (hk : ∀ s, k s = .act last fun w => .done (ending s w))
    (main : Process δ σ ν ρ κ)
    (hmain : main = .gather 1 stops
      [.timed 0 (.gather 1 stops' [.timed ms (.act deed next) follow] here' k')
        fun x => .done (cut x)] here k) :
    ∃ a b s es, Later (· = main) ⟨.idle, .ofWorld w, []⟩ a ∧ Later (· = main) a b
      ∧ .yielded 0 1 s ∈ a.past ∧ b.past = a.past ++ es ∧ .did 4 deed ∈ es
      ∧ Event.Inside b.past 1 4 := by
  -- the main task opens the outer block, and its operation the inner one
  have hbegin : Next (· = main) ⟨.idle, .ofWorld w, []⟩ _ := .begin rfl nofun
  rw [hmain] at hbegin ⊢
  have houter := (((Relation.ReflTransGen.single hbegin).tail
    (.move (.first (t := ⟨0, none, .fresh _⟩) rfl rfl))).tail
      (.opens (.gather rfl rfl))).tail .pause
  have hinner := ((houter.tail
    (.move (.first (t := ⟨2, some (1, 0), .fresh _⟩) rfl rfl))).tail
      (.move .limit)).tail (.opens (.gather rfl rfl))
  -- its time is up at once, and the outer block yields
  have hyield := (((hinner.tail (.timeOut rfl)).tail .finish).tail
    (.move (.wake (t := ⟨0, none, .waiting _⟩) rfl rfl))).tail (.yield rfl)
  rw [hk] at hyield
  -- then the operation of the inner block has its turn
  have hold {e : Event δ σ ν ρ κ} {l₁ l₂} : e ∈ l₁ → e ∈ l₁ ++ l₂ := List.mem_append_left l₂
  have hfirst {e : Event δ σ ν ρ κ} {l₁ l₂} : e ∈ l₁ ++ e :: l₂ :=
    List.mem_append_right l₁ List.mem_cons_self
  have hsecond {e e' : Event δ σ ν ρ κ} {l₁} : e ∈ l₁ ++ [e', e] :=
    List.mem_append_right l₁ (List.mem_cons_of_mem e' List.mem_cons_self)
  exact ⟨_, _, _, [_] ++ ([_] ++ [_]), hyield, .tail (.tail (.tail (.tail (.single .act) .finish)
      (.move (.first (t := ⟨4, some (3, 0), .fresh _⟩) rfl rfl))) (.move .limit)) .act,
    hfirst, (List.append_assoc _ _ _).trans (List.append_assoc _ _ _),
    List.mem_append_right _ hfirst, 3, 0, _,
    .nested .self (hold (hold (hold (hold (hold (hold (hold hsecond)))))))
      (hold (hold (hold (hold (hold (hold hfirst)))))),
    hold (hold (hold (hold (hold (hold hsecond)))))⟩

/-- **Nothing goes on inside of a block that has yielded, but where a task was cut off
from a nested block.** The log, the events, the metrics and the state of the handlers are
made of the deeds of tasks, and this goes for each deed after the block has yielded, in
every session and in every order of turns: if a task inside of the block does it, then a
task `v` inside of the block was cut off while it waited for a nested block `d`, by a
time limit or with a race, and the deed is done inside of `d`. -/
theorem Session.did_inside_after_yield (P : Task σ → Prop) (registry : Registry) (own : σ)
    (a b : Moment (Deed σ) (World σ) Variables Outcome Crash)
    (ha : Moment.Later P ⟨.idle, Session.start registry own, []⟩ a)
    (hb : Moment.Later P a b) :
    ∃ es, b.past = a.past ++ es
      ∧ b.machine.world = (Event.deeds es).foldl (fun w d => w.perform d) a.machine.world
      ∧ ∀ u c s, .yielded u c s ∈ a.past → ∀ t deed, .did t deed ∈ es →
        Event.Inside b.past c t →
        ∃ v d, Event.Inside b.past c v ∧ Event.CutOff b.past v d ∧ Event.Inside b.past d t := by
  obtain ⟨es, he, hw⟩ := hb.world
  exact ⟨es, he, hw, fun u c s hy t deed hm hin => ha.did_of_yielded hb hy he hm hin⟩

/-- An operation that has no time and waits for a block of its own: when the outer block
has yielded, the operation of the inner one looks up a keyword. -/
theorem Session.did_inside_after_yield_no_time :
    let ambient : Ambient := ⟨0, "", "", fun _ => none⟩
    let engine : Engine Unit := ⟨.default, .standard ambient, ambient⟩
    let inner := Runner.parallel engine ⟨some 1, none, none⟩
      [.doing (.visit "late") (.yield .null)]
    let outer := Runner.parallel engine ⟨some 1, some false, some 0⟩ [inner]
    ∃ a b s es, Moment.Later (· = outer .empty) ⟨.idle, Session.start ⟨[], []⟩ (), []⟩ a
      ∧ Moment.Later (· = outer .empty) a b ∧ .yielded 0 1 s ∈ a.past
      ∧ b.past = a.past ++ es ∧ .did 4 (.visit "late") ∈ es ∧ Event.Inside b.past 1 4
      ∧ ∃ v d, Event.Inside b.past 1 v ∧ Event.CutOff b.past v d ∧ Event.Inside b.past d 4 := by
  intro ambient engine inner outer
  obtain ⟨a, b, s, es, ha, hb, hy, he, hd, hin⟩ := Moment.late_of_timed_zero
    (World.fresh ⟨[], []⟩ ()) (fun _ => rfl) (outer .empty) rfl
  obtain ⟨es', he', -, h⟩ := Session.did_inside_after_yield _ _ _ a b ha hb
  have hes : es' = es := List.append_cancel_left (he'.symm.trans he)
  rw [hes] at h
  exact ⟨a, b, s, es, ha, hb, hy, he, hd, hin, h 0 1 s hy 4 _ hd hin⟩

/-- **Steps inside of a block end when it is over**: the time of its operation is up while
that waits for an inner block. The steps of the inner block, a pause and a `log`, run on
and end while the next step of the list runs. -/
theorem Session.late_after_timeout :
    let ambient : Ambient := ⟨0, "", "", fun _ => none⟩
    let engine : Engine Unit := ⟨.default, .standard ambient, ambient⟩
    let step := fun action => Step.mk action none false none .null
    let late := step (.ifElse (.literal (.bool true))
      [step (.domain "sleep" (.nat 50) []), step (.domain "log" (.text "late") [])] [])
    let outer := step (.parallel [step (.parallel [late] ⟨none, none, none⟩)]
      ⟨none, some false, some 10⟩)
    let session := (Machine.run 100
      (engine.execute [outer, step (.domain "sleep" (.nat 100) [])] .empty)
      (Session.start ⟨[], []⟩ ())).2
    session.world.history = [.started 1 0 "parallel", .started 1 0 "parallel",
      .started 1 0 "if", .started 1 0 "sleep", .finished 1 0 "parallel" true,
      .started 2 0 "sleep", .finished 1 0 "sleep" true, .started 2 0 "log",
      .finished 2 0 "log" true, .finished 1 0 "if" true, .finished 2 0 "sleep" true] := by
  decide +kernel

end Playbook
