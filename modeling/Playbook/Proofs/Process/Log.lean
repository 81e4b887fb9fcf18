import Playbook.Proofs.Process.Course

/-!
# The log of a run

Two runs of a process may do the same and differ in how long they pause in between. A
log tells both: the deeds of the task and the times that it has slept through, in order
(`Process.Logs`). Deeds of operations belong to the logs of their own tasks. A pause that
a time limit cuts short is not slept through and does not show in the log; the task goes
on from where it was.

A machine tells of deeds, but not of sleep. The log of a task that has ended is one of its
process all the same (`Moment.Later.logs_of_ended`): what a task still has to do, at
whatever moment, logs what the whole process logs behind the deeds that are done
(`Process.Resumes`). It does not matter here whether time limits have passed for the task.
-/

namespace Playbook

variable {δ σ ν ρ κ : Type}

/-- **What a log tells**: a deed, or a pause that was slept through. -/
inductive Mark (δ : Type) where
  | did (deed : δ)
  | paused (ms : Nat)

namespace Mark

/-- The deeds in a log. -/
def deeds (log : List (Mark δ)) : List δ :=
  log.filterMap fun
    | did deed => some deed
    | paused _ => none

@[simp] theorem deeds_nil : deeds ([] : List (Mark δ)) = [] := rfl

@[simp] theorem deeds_did (deed : δ) (log : List (Mark δ)) :
    deeds (.did deed :: log) = deed :: deeds log := rfl

@[simp] theorem deeds_paused (ms : Nat) (log : List (Mark δ)) :
    deeds (.paused ms :: log) = deeds log := rfl

@[simp] theorem deeds_append (log log' : List (Mark δ)) :
    deeds (log ++ log') = deeds log ++ deeds log' := List.filterMap_append

end Mark

namespace Process

/-- **The logs of a process**, up to its end or to a place where it waits. A limited process
that is cut off goes on from where its body waits. -/
inductive Logs : Process δ σ ν ρ κ → List (Mark δ) → ρ ⊕ ν → Prop
  | done (r : ρ) : Logs (.done r) [] (.inl r)
  | act {deed : δ} {next : σ → Process δ σ ν ρ κ} {log e} (w : σ)
      (h : Logs (next w) log e) : Logs (.act deed next) (.did deed :: log) e
  | asleep {ms here next} : Logs (.sleep ms here next) [] (.inr here)
  | slept {ms here next log e} (h : Logs next log e) :
      Logs (.sleep ms here next) (.paused ms :: log) e
  | limited {ms body next log v} (h : Logs body log (.inr v)) :
      Logs (.timed ms body next) log (.inr v)
  | timed {ms body next log x log' e} (hb : Logs body log x)
      (hn : Logs (next x) log' e) : Logs (.timed ms body next) (log ++ log') e
  | gathering {limit stops operations here next} :
      Logs (.gather limit stops operations here next) [] (.inr here)
  | gathered {limit stops operations here next log e} (s : Settled ρ κ)
      (h : Logs (next s) log e) :
      Logs (.gather limit stops operations here next) log e
  | racing {wins operations here next} :
      Logs (.race wins operations here next) [] (.inr here)
  | raced {wins operations here next log e} (s : Settled ρ κ)
      (h : Logs (next s) log e) : Logs (.race wins operations here next) log e

/-! ## Single nodes -/

theorem logs_done {r : ρ} {log : List (Mark δ)} {e : ρ ⊕ ν} :
    (Process.done r : Process δ σ ν ρ κ).Logs log e ↔ log = [] ∧ e = .inl r := by
  constructor
  · rintro ⟨⟩
    exact ⟨rfl, rfl⟩
  · rintro ⟨rfl, rfl⟩
    exact .done r

theorem logs_sleep {ms : Nat} {here : ν} {next : Process δ σ ν ρ κ} {log : List (Mark δ)}
    {r : ρ} :
    (Process.sleep ms here next).Logs log (.inl r)
      ↔ ∃ log', log = .paused ms :: log' ∧ next.Logs log' (.inl r) := by
  constructor
  · rintro ⟨⟩
    exact ⟨_, rfl, ‹_›⟩
  · rintro ⟨log', rfl, h⟩
    exact .slept h

/-! ## One process after another -/

/-- **A log of two processes one after the other**, to the end of both, is one of the first
and then one of the second. -/
theorem logs_andThen {k : ρ → Process δ σ ν ρ κ} {r : ρ} :
    ∀ {p : Process δ σ ν ρ κ} {log : List (Mark δ)},
      (p.andThen k).Logs log (.inl r)
        ↔ ∃ log₁ log₂ s, log = log₁ ++ log₂ ∧ p.Logs log₁ (.inl s) ∧ (k s).Logs log₂ (.inl r)
  | .done s, log => by
    constructor
    · exact fun h => ⟨[], log, s, rfl, .done s, h⟩
    · rintro ⟨log₁, log₂, s', rfl, ⟨⟩, h⟩
      exact h
  | .crash _, _ => ⟨nofun, fun ⟨_, _, _, _, h, _⟩ => nomatch h⟩
  | .act deed next, _ => by
    constructor
    · rintro (_ | ⟨w, h⟩)
      obtain ⟨log₁, log₂, s, rfl, hp, hk⟩ := logs_andThen.mp h
      exact ⟨_, log₂, s, rfl, .act w hp, hk⟩
    · rintro ⟨_, log₂, s, rfl, _ | ⟨w, h⟩, hk⟩
      exact .act w (logs_andThen.mpr ⟨_, log₂, s, rfl, h, hk⟩)
  | .sleep ms here next, _ => by
    constructor
    · intro h
      cases h with
      | slept h =>
        obtain ⟨log₁, log₂, s, rfl, hp, hk⟩ := logs_andThen.mp h
        exact ⟨_, log₂, s, rfl, .slept hp, hk⟩
    · rintro ⟨_, log₂, s, rfl, h, hk⟩
      cases h with
      | slept h => exact .slept (logs_andThen.mpr ⟨_, log₂, s, rfl, h, hk⟩)
  | .timed ms body next, _ => by
    constructor
    · intro h
      cases h with
      | timed hb hn =>
        obtain ⟨log₁, log₂, s, rfl, hp, hk⟩ := logs_andThen.mp hn
        exact ⟨_, log₂, s, (List.append_assoc ..).symm, .timed hb hp, hk⟩
    · rintro ⟨_, log₂, s, rfl, h, hk⟩
      cases h with
      | timed hb hn =>
        rw [List.append_assoc]
        exact .timed hb (logs_andThen.mpr ⟨_, log₂, s, rfl, hn, hk⟩)
  | .gather limit stops operations here next, _ => by
    constructor
    · intro h
      cases h with
      | gathered x h =>
        obtain ⟨log₁, log₂, s, rfl, hp, hk⟩ := logs_andThen.mp h
        exact ⟨_, log₂, s, rfl, .gathered x hp, hk⟩
    · rintro ⟨_, log₂, s, rfl, h, hk⟩
      cases h with
      | gathered x h => exact .gathered x (logs_andThen.mpr ⟨_, log₂, s, rfl, h, hk⟩)
  | .race wins operations here next, _ => by
    constructor
    · intro h
      cases h with
      | raced x h =>
        obtain ⟨log₁, log₂, s, rfl, hp, hk⟩ := logs_andThen.mp h
        exact ⟨_, log₂, s, rfl, .raced x hp, hk⟩
    · rintro ⟨_, log₂, s, rfl, h, hk⟩
      cases h with
      | raced x h => exact .raced x (logs_andThen.mpr ⟨_, log₂, s, rfl, h, hk⟩)

/-! ## What is left of a process -/

/-- **A process goes on in the logs of another one behind some deeds.** -/
def Resumes (t : List δ) (p q : Process δ σ ν ρ κ) : Prop :=
  ∀ log e, p.Logs log e → ∃ log', Mark.deeds log' = t ++ Mark.deeds log ∧ q.Logs log' e

theorem resumes_of_forall {p q : Process δ σ ν ρ κ}
    (h : ∀ log e, p.Logs log e → q.Logs log e) : Resumes [] p q :=
  fun log e hp => ⟨log, rfl, h log e hp⟩

/-- What is left of a process is what it resumes with. -/
theorem order_resumes : Order (δ := δ) (ν := ν) (ρ := ρ) (κ := κ) (fun _ : σ => True)
    Resumes where
  refl _ := resumes_of_forall fun _ _ => id
  trans h h' log e hp := by
    obtain ⟨log₁, hd, hq⟩ := h log e hp
    obtain ⟨log₂, hd', hs⟩ := h' _ e hq
    exact ⟨log₂, by rw [hd', hd, List.append_assoc], hs⟩
  timed ms ms' next h log e hp := by
    cases hp with
    | limited hb =>
      obtain ⟨log', hd, hq⟩ := h _ _ hb
      exact ⟨log', hd, .limited hq⟩
    | timed hb hn =>
      obtain ⟨log', hd, hq⟩ := h _ _ hb
      refine ⟨_, ?_, .timed hq hn⟩
      rw [Mark.deeds_append, Mark.deeds_append, hd, List.append_assoc]
  acted _ log e hp := ⟨_, rfl, .act _ hp⟩
  asleep {ms ms' here next} log e hp := by
    cases hp with
    | asleep => exact ⟨_, rfl, .asleep⟩
    | @slept _ _ _ log _ hn => exact ⟨.paused ms' :: log, rfl, .slept hn⟩
  slept {ms here next} log e hp := ⟨.paused ms :: log, rfl, .slept hp⟩
  inTime {ms r next} log e hp := ⟨_, rfl, .timed (.done r) hp⟩
  crashed _ _ := nofun
  gatheredNothing _ := resumes_of_forall fun _ _ => .gathered _
  racedNothing _ := resumes_of_forall fun _ _ => .raced _

theorem resumes_of_block? {node : Process δ σ ν ρ κ} {here : ν}
    {next : Settled ρ κ → Process δ σ ν ρ κ} (h : node.block? = some (here, next))
    (s : Settled ρ κ) : Resumes [] (next s) node := by
  cases node with
  | gather =>
    cases h
    exact resumes_of_forall fun _ _ => .gathered s
  | race =>
    cases h
    exact resumes_of_forall fun _ _ => .raced s
  | done | crash | act | sleep | timed => cases h

end Process

/-- A waiting process has come to where it waits. -/
theorem Waiting.Stands.logs {past : List (Event δ σ ν ρ κ)} {task : Nat}
    {w : Waiting δ σ ν ρ κ} {p : Process δ σ ν ρ κ} (h : w.Stands past task p) :
    p.Logs [] (.inr w.here) := by
  induction h with
  | asleep => exact .asleep
  | @blocked block here next node _ hn =>
    cases node with
    | gather =>
      cases hn
      exact .gathering
    | race =>
      cases hn
      exact .racing
    | done | crash | act | sleep | timed => cases hn
  | timed _ ih => exact .limited ih

namespace Moment

variable [Deeds δ σ] {P : Process δ σ ν ρ κ → Prop} {b : Moment δ σ ν ρ κ} {w : σ}

/-- **What tasks still have to do resumes their processes**, at all moments. -/
theorem Later.resumes (h : Later P ⟨.idle, .ofWorld w, []⟩ b) :
    b.Traced Process.Resumes P (fun _ => True) fun _ => True := by
  induction h with
  | refl => exact traced_ofWorld trivial
  | tail hl h ih =>
    exact h.traced Process.order_resumes (Later.orderly hl) (Later.tallied hl)
      (fun _ _ _ => trivial) ih (fun _ _ s _ _ _ _ _ hn _ => Process.resumes_of_block? hn s)
      fun _ _ _ _ _ hs _ log _ hp => ⟨_, rfl, .timed hs.logs hp⟩

/-- **What a task has done when it ends is in a log of its process** to the same result. -/
theorem Later.logs_of_ended (h : Later P ⟨.idle, .ofWorld w, []⟩ b)
    {old new : List (Event δ σ ν ρ κ)} {id : Nat} {r : ρ}
    (he : b.past = old ++ .ended id (.finished r) :: new) :
    ∃ p log, Event.BegunWith P old id p ∧ p.Logs log (.inl r)
      ∧ Mark.deeds log = Event.doneBy id old := by
  obtain ⟨a, task, ha, rfl, rfl, hs⟩ := h.going_of_ended he
  have htask : task ∈ a.stage.task? := by
    rw [hs]
    rfl
  obtain ⟨p, hp, hbelow⟩ := ha.resumes.stage task htask trivial
  rw [hs] at hbelow
  obtain ⟨log, hd, hlog⟩ := hbelow [] _ (.done r)
  rw [Mark.deeds_nil, List.append_nil] at hd
  exact ⟨p, log, Later.begunWith_of_origin ha htask hp, hlog, hd⟩

end Moment

end Playbook
