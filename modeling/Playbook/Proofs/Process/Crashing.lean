import Playbook.Proofs.Process.MainRun

/-!
# How main tasks crash

A crash in an operation of a block ends that operation, and is among what the block yields. So
the main task crashes only where its own process does: at a crash that it comes to by itself,
behind whatever its blocks have yielded. `Process.CrashesOnly` says which crashes these may be, in
certain worlds. It looks at what comes behind blocks and time limits, and not into the operations.

What is left of a process crashes in no other way than the whole (`Process.leaves_crashesOnly`), and
so a run breaks off in no other way, whatever else is under way on the machine
(`Machine.Tended.of_crashed_run`).
-/

namespace Playbook

variable {δ σ ν ρ κ : Type}

namespace Process

variable {W : σ → Prop} {K : κ → Prop}

/-- **A process that crashes only as `K` says**, in the worlds of `W`. -/
inductive CrashesOnly (W : σ → Prop) (K : κ → Prop) : Process δ σ ν ρ κ → Prop
  | done (r : ρ) : CrashesOnly W K (.done r)
  | crash {a : κ} (h : K a) : CrashesOnly W K (.crash a)
  | act {deed : δ} {next : σ → Process δ σ ν ρ κ} (h : ∀ w, W w → CrashesOnly W K (next w)) :
      CrashesOnly W K (.act deed next)
  | sleep {ms here next} (h : CrashesOnly W K next) : CrashesOnly W K (.sleep ms here next)
  | timed {ms body next} (hb : CrashesOnly W K body) (hn : ∀ x, CrashesOnly W K (next x)) :
      CrashesOnly W K (.timed ms body next)
  | gather {limit stops operations here next} (h : ∀ s, CrashesOnly W K (next s)) :
      CrashesOnly W K (.gather limit stops operations here next)
  | race {wins operations here next} (h : ∀ s, CrashesOnly W K (next s)) :
      CrashesOnly W K (.race wins operations here next)

theorem CrashesOnly.andThen {p : Process δ σ ν ρ κ} {k : ρ → Process δ σ ν ρ κ}
    (hp : p.CrashesOnly W K) (hk : ∀ r, (k r).CrashesOnly W K) :
    (p.andThen k).CrashesOnly W K := by
  induction hp with
  | done r => exact hk r
  | crash h => exact .crash h
  | act _ ih => exact .act ih
  | sleep _ ih => exact .sleep ih
  | timed hb _ _ ih => exact .timed hb ih
  | gather _ ih => exact .gather ih
  | race _ ih => exact .race ih

/-- What a solo process crashes by. -/
theorem Solo.crashesOnly {D : δ → Prop} {p : Process δ σ ν ρ κ} (h : p.Solo D W K) :
    p.CrashesOnly W K := by
  induction h with
  | done r => exact .done r
  | crash h => exact .crash h
  | act _ _ ih => exact .act ih
  | sleep _ ih => exact .sleep ih

/-- Nothing is said of a process that may crash in any way. -/
theorem crashesOnly_any : (p : Process δ σ ν ρ κ) → p.CrashesOnly W fun _ => True
  | .done r => .done r
  | .crash _ => .crash trivial
  | .act _ next => .act fun w _ => (next w).crashesOnly_any
  | .sleep _ _ next => .sleep next.crashesOnly_any
  | .timed _ body next => .timed body.crashesOnly_any fun x => (next x).crashesOnly_any
  | .gather _ _ _ _ next => .gather fun s => (next s).crashesOnly_any
  | .race _ _ _ next => .race fun s => (next s).crashesOnly_any

/-- What comes behind a block. -/
theorem CrashesOnly.of_block? {node : Process δ σ ν ρ κ} {here : ν}
    {next : Settled ρ κ → Process δ σ ν ρ κ} (h : node.CrashesOnly W K)
    (hn : node.block? = some (here, next)) (s : Settled ρ κ) : (next s).CrashesOnly W K := by
  cases h with
  | gather h | race h =>
    cases hn
    exact h s
  | done | crash | act | sleep | timed => cases hn

/-- **What is left of a process crashes in no other way than the process.** -/
theorem leaves_crashesOnly : Leaves W fun (_ : List δ) (p q : Process δ σ ν ρ κ) =>
    q.CrashesOnly W K → p.CrashesOnly W K where
  refl _ := id
  trans h h' := h ∘ h'
  timed _ _ _ hr := fun h => by
    cases h with
    | timed hb hn => exact .timed (hr hb) hn
  acted hw := fun h => by
    cases h with
    | act h => exact h _ hw
  asleep := fun h => by
    cases h with
    | sleep h => exact .sleep h
  slept := fun h => by
    cases h with
    | sleep h => exact h
  inTime := fun h => by
    cases h with
    | timed _ hn => exact hn _
  crashed := fun h => by
    cases h with
    | timed hb _ => exact hb
  gatheredNothing _ := fun h => h.of_block? rfl _
  racedNothing _ := fun h => h.of_block? rfl _
  yielded hn := fun h => h.of_block? hn _
  timedOut := fun h => by
    cases h with
    | timed _ hn => exact hn _

end Process

variable [Deeds δ σ] {P : Process δ σ ν ρ κ → Prop} {W : σ → Prop} {K : κ → Prop}

/-- **Whatever has been run before**, a run breaks off only as its process may crash. -/
theorem Machine.Tended.of_crashed_run {m : Machine δ σ ν ρ κ} {w : σ} (h : m.Tended P w)
    (hm : ∀ t ∈ m.tasks, t.id ≠ mainId) (hw : W m.world)
    (hW : ∀ (d : δ) (w : σ), W w → W (Deeds.perform d w)) {p : Process δ σ ν ρ κ}
    (hp : p.CrashesOnly W K) {turns : Nat} {a : κ} (hr : (m.run turns p).1 = .crashed a) :
    K a := by
  obtain ⟨q, t, all, hq, hleft, -⟩ :=
    h.leaves_of_run hm hw hW Process.leaves_crashesOnly (Prod.ext hr rfl) nofun
  cases hq
  cases hleft hp with
  | crash ha => exact ha

end Playbook
