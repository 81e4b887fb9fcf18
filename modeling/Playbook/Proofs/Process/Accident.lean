import Playbook.Proofs.Process.Log
import Playbook.Proofs.Process.Settled

/-!
# The log of a run that crashes

A process that crashes in the middle of a run has done something and has slept by then
(`Process.Breaks`). The crash passes through the time limits around it and ends the whole
process; what would come behind it is not begun (`Process.breaks_andThen`).

As with the runs that come to an end, the deeds that a machine tells of a task that has
crashed are those of such a log (`Moment.Later.breaks_of_crashed`). And whatever a task has
ended with, it does nothing any more (`Moment.Later.not_did_of_ended`).
-/

namespace Playbook

variable {δ σ ν ρ κ : Type}

namespace Process

/-- **The logs of a process up to a crash.** A crash in a limited process is one of the
whole. -/
inductive Breaks (a : κ) : Process δ σ ν ρ κ → List (Mark δ) → Prop
  | crash : Breaks a (.crash a) []
  | act {deed : δ} {next : σ → Process δ σ ν ρ κ} {log} (w : σ)
      (h : Breaks a (next w) log) : Breaks a (.act deed next) (.did deed :: log)
  | slept {ms here next log} (h : Breaks a next log) :
      Breaks a (.sleep ms here next) (.paused ms :: log)
  | limited {ms body next log} (h : Breaks a body log) : Breaks a (.timed ms body next) log
  | timed {ms body next log x log'} (hb : Logs body log x) (hn : Breaks a (next x) log') :
      Breaks a (.timed ms body next) (log ++ log')
  | gathered {limit stops operations here next log} (s : Settled ρ κ)
      (h : Breaks a (next s) log) : Breaks a (.gather limit stops operations here next) log
  | raced {wins operations here next log} (s : Settled ρ κ)
      (h : Breaks a (next s) log) : Breaks a (.race wins operations here next) log

theorem breaks_sleep {ms : Nat} {here : ν} {next : Process δ σ ν ρ κ} {log : List (Mark δ)}
    {a : κ} :
    (Process.sleep ms here next).Breaks a log
      ↔ ∃ log', log = .paused ms :: log' ∧ next.Breaks a log' := by
  constructor
  · rintro ⟨⟩
    exact ⟨_, rfl, ‹_›⟩
  · rintro ⟨log', rfl, h⟩
    exact .slept h

/-- **One process after another crashes** where the first does, or behind the end of the
first where the second does. -/
theorem breaks_andThen {k : ρ → Process δ σ ν ρ κ} {a : κ} :
    ∀ {p : Process δ σ ν ρ κ} {log : List (Mark δ)},
      (p.andThen k).Breaks a log
        ↔ p.Breaks a log
          ∨ ∃ log₁ log₂ s, log = log₁ ++ log₂ ∧ p.Logs log₁ (.inl s) ∧ (k s).Breaks a log₂
  | .done s, log => by
    constructor
    · exact fun h => .inr ⟨[], log, s, rfl, .done s, h⟩
    · rintro (⟨⟨⟩⟩ | ⟨log₁, log₂, s', rfl, ⟨⟩, h⟩)
      exact h
  | .crash _, _ => ⟨.inl, fun h => h.elim id fun ⟨_, _, _, _, h, _⟩ => nomatch h⟩
  | .act deed next, _ => by
    constructor
    · rintro (_ | ⟨w, h⟩)
      obtain h | ⟨log₁, log₂, s, rfl, hp, hk⟩ := breaks_andThen.mp h
      · exact .inl (.act w h)
      · exact .inr ⟨_, log₂, s, rfl, .act w hp, hk⟩
    · rintro ((_ | ⟨w, h⟩) | ⟨_, log₂, s, rfl, _ | ⟨w, h⟩, hk⟩)
      · exact .act w (breaks_andThen.mpr (.inl h))
      · exact .act w (breaks_andThen.mpr (.inr ⟨_, log₂, s, rfl, h, hk⟩))
  | .sleep ms here next, _ => by
    constructor
    · intro h
      cases h with
      | slept h =>
        obtain h | ⟨log₁, log₂, s, rfl, hp, hk⟩ := breaks_andThen.mp h
        · exact .inl (.slept h)
        · exact .inr ⟨_, log₂, s, rfl, .slept hp, hk⟩
    · rintro (h | ⟨_, log₂, s, rfl, h, hk⟩)
      · cases h with
        | slept h => exact .slept (breaks_andThen.mpr (.inl h))
      · cases h with
        | slept h => exact .slept (breaks_andThen.mpr (.inr ⟨_, log₂, s, rfl, h, hk⟩))
  | .timed ms body next, _ => by
    constructor
    · intro h
      cases h with
      | limited h => exact .inl (.limited h)
      | timed hb hn =>
        obtain h | ⟨log₁, log₂, s, rfl, hp, hk⟩ := breaks_andThen.mp hn
        · exact .inl (.timed hb h)
        · exact .inr ⟨_, log₂, s, (List.append_assoc ..).symm, .timed hb hp, hk⟩
    · rintro (h | ⟨_, log₂, s, rfl, h, hk⟩)
      · cases h with
        | limited h => exact .limited h
        | timed hb hn => exact .timed hb (breaks_andThen.mpr (.inl hn))
      · cases h with
        | timed hb hn =>
          rw [List.append_assoc]
          exact .timed hb (breaks_andThen.mpr (.inr ⟨_, log₂, s, rfl, hn, hk⟩))
  | .gather limit stops operations here next, _ => by
    constructor
    · intro h
      cases h with
      | gathered x h =>
        obtain h | ⟨log₁, log₂, s, rfl, hp, hk⟩ := breaks_andThen.mp h
        · exact .inl (.gathered x h)
        · exact .inr ⟨_, log₂, s, rfl, .gathered x hp, hk⟩
    · rintro (h | ⟨_, log₂, s, rfl, h, hk⟩)
      · cases h with
        | gathered x h => exact .gathered x (breaks_andThen.mpr (.inl h))
      · cases h with
        | gathered x h => exact .gathered x (breaks_andThen.mpr (.inr ⟨_, log₂, s, rfl, h, hk⟩))
  | .race wins operations here next, _ => by
    constructor
    · intro h
      cases h with
      | raced x h =>
        obtain h | ⟨log₁, log₂, s, rfl, hp, hk⟩ := breaks_andThen.mp h
        · exact .inl (.raced x h)
        · exact .inr ⟨_, log₂, s, rfl, .raced x hp, hk⟩
    · rintro (h | ⟨_, log₂, s, rfl, h, hk⟩)
      · cases h with
        | raced x h => exact .raced x (breaks_andThen.mpr (.inl h))
      · cases h with
        | raced x h => exact .raced x (breaks_andThen.mpr (.inr ⟨_, log₂, s, rfl, h, hk⟩))

/-! ## What is left of a process -/

/-- **A process goes on in the logs of another one behind some deeds**, to its end as well
as to a crash. -/
structure Retraces (t : List δ) (p q : Process δ σ ν ρ κ) : Prop where
  resumes : Resumes t p q
  breaks : ∀ log a, p.Breaks a log → ∃ log', Mark.deeds log' = t ++ Mark.deeds log ∧ q.Breaks a log'

/-- What is left of a process is what it retraces. -/
theorem order_retraces : Order (δ := δ) (ν := ν) (ρ := ρ) (κ := κ) (fun _ : σ => True)
    Retraces where
  refl p := ⟨order_resumes.refl p, fun log _ h => ⟨log, rfl, h⟩⟩
  trans h h' := by
    refine ⟨order_resumes.trans h.resumes h'.resumes, fun log a hp => ?_⟩
    obtain ⟨log₁, hd, hq⟩ := h.breaks log a hp
    obtain ⟨log₂, hd', hs⟩ := h'.breaks _ a hq
    exact ⟨log₂, by rw [hd', hd, List.append_assoc], hs⟩
  timed ms ms' next h := by
    refine ⟨order_resumes.timed ms ms' next h.resumes, fun log a hp => ?_⟩
    cases hp with
    | limited hb =>
      obtain ⟨log', hd, hq⟩ := h.breaks _ _ hb
      exact ⟨log', hd, .limited hq⟩
    | timed hb hn =>
      obtain ⟨log', hd, hq⟩ := h.resumes _ _ hb
      refine ⟨_, ?_, .timed hq hn⟩
      rw [Mark.deeds_append, Mark.deeds_append, hd, List.append_assoc]
  acted hw := ⟨order_resumes.acted hw, fun _ _ hp => ⟨_, rfl, .act _ hp⟩⟩
  asleep {ms ms' here next} := by
    refine ⟨order_resumes.asleep, fun log a hp => ?_⟩
    obtain ⟨log', rfl, h⟩ := breaks_sleep.mp hp
    exact ⟨.paused ms' :: log', rfl, .slept h⟩
  slept {ms here next} := ⟨order_resumes.slept, fun log _ hp => ⟨.paused ms :: log, rfl, .slept hp⟩⟩
  inTime {ms r next} := ⟨order_resumes.inTime, fun _ _ hp => ⟨_, rfl, .timed (.done r) hp⟩⟩
  crashed := ⟨order_resumes.crashed, fun log _ hp => ⟨log, rfl, .limited hp⟩⟩
  gatheredNothing h := ⟨order_resumes.gatheredNothing h, fun log _ hp => ⟨log, rfl, .gathered _ hp⟩⟩
  racedNothing h := ⟨order_resumes.racedNothing h, fun log _ hp => ⟨log, rfl, .raced _ hp⟩⟩

theorem retraces_of_block? {node : Process δ σ ν ρ κ} {here : ν}
    {next : Settled ρ κ → Process δ σ ν ρ κ} (h : node.block? = some (here, next))
    (s : Settled ρ κ) : Retraces [] (next s) node := by
  refine ⟨resumes_of_block? h s, fun log a hp => ⟨log, rfl, ?_⟩⟩
  cases node with
  | gather =>
    cases h
    exact .gathered s hp
  | race =>
    cases h
    exact .raced s hp
  | done | crash | act | sleep | timed => cases h

end Process

namespace Moment

variable [Deeds δ σ] {P : Process δ σ ν ρ κ → Prop} {a b : Moment δ σ ν ρ κ} {w : σ}

/-- **What tasks still have to do retraces their processes**, at all moments. -/
theorem Later.retraces (h : Later P ⟨.idle, .ofWorld w, []⟩ b) :
    b.Traced Process.Retraces P (fun _ => True) fun _ => True := by
  induction h with
  | refl => exact traced_ofWorld trivial
  | tail hl h ih =>
    exact h.traced Process.order_retraces (Later.orderly hl) (Later.tallied hl)
      (fun _ _ _ => trivial) ih (fun _ _ s _ _ _ _ _ hn _ => Process.retraces_of_block? hn s)
      fun _ _ _ _ _ hs _ => ⟨fun log _ hp => ⟨log, rfl, .timed hs.logs hp⟩,
        fun log _ hp => ⟨log, rfl, .timed hs.logs hp⟩⟩

/-- **What a task has done when it crashes is in a log of its process** up to that
crash. -/
theorem Later.breaks_of_crashed (h : Later P ⟨.idle, .ofWorld w, []⟩ b)
    {old new : List (Event δ σ ν ρ κ)} {id id' : Nat} {e : κ}
    (he : b.past = old ++ .ended id (.crashed id' e) :: new) :
    ∃ p log, Event.BegunWith P old id p ∧ p.Breaks e log
      ∧ Mark.deeds log = Event.doneBy id old := by
  obtain ⟨a, -, task, p, ha, -, -, rfl, -, rfl, hs, hp⟩ := h.settlement?_of_ended he
  have htask : task ∈ a.stage.task? := by
    rw [hs]
    rfl
  obtain ⟨q, hq, hbelow⟩ := ha.retraces.stage task htask trivial
  rw [hs] at hbelow
  cases p with
  | crash e' =>
    cases hp
    obtain ⟨log, hd, hlog⟩ := hbelow.breaks [] _ .crash
    rw [Mark.deeds_nil, List.append_nil] at hd
    exact ⟨q, log, Later.begunWith_of_origin ha htask hq, hlog, hd⟩
  | done | act | sleep | timed | gather | race => cases hp

/-- **A task that has ended does nothing any more**, but for main tasks, which share their
number. -/
theorem Later.not_did_of_ended (h : Later P ⟨.idle, .ofWorld w, []⟩ a) (hab : Later P a b)
    {t : Nat} {s : Settlement ρ κ} (he : .ended t s ∈ a.past) (ht : t ≠ Machine.mainId)
    {es : List (Event δ σ ν ρ κ)} (hes : b.past = a.past ++ es) (deed : δ) :
    .did t deed ∉ es := by
  intro hm
  obtain ⟨x, y, new, hax, hxy, -, hnew, hm⟩ := Later.exists_next_of_mem hab hes hm
  have hx := h.trans hax
  obtain ⟨task, htask, rfl⟩ := hxy.did hnew hm
  obtain ⟨t', hm', hid, -⟩ := (Later.orderly hx).seated.alive task htask
  exact ((Later.heard hx).gone task.id s (Later.past_subset hax he) ht).2 t' hm' hid

end Moment

end Playbook
