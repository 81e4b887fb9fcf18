import Playbook.Proofs.Process.Trace

/-!
# Which blocks a process comes to

The blocks that are opened in a run are known from the processes that were begun. A
process comes to a block in the course of its own run (`Process.Reaches`), or one of
the operations of its blocks does: that is `Process.Meets`. Nothing in it depends on a
machine, and every block that a machine opens is met by a process that was begun as
the main task (`Moment.Later.meets`).

A property of blocks that goes along with what follows a block can therefore be shown
of all blocks of all runs by the recursion that builds the processes; `meets_andThen`
is the rule for one process after another.
-/

namespace Playbook

variable {δ σ ν ρ κ : Type}

namespace Process

/-- Nothing follows what ends with the result as it is. -/
@[simp] theorem andThen_done : (p : Process δ σ ν ρ κ) → p.andThen .done = p
  | .done _ => rfl
  | .crash _ => rfl
  | .act deed next => congrArg (Process.act deed) (funext fun w => andThen_done (next w))
  | .sleep ms here next => congrArg (Process.sleep ms here) (andThen_done next)
  | .timed ms body next =>
    congrArg (Process.timed ms body) (funext fun x => andThen_done (next x))
  | .gather limit stops operations here next =>
    congrArg (Process.gather limit stops operations here) (funext fun s => andThen_done (next s))
  | .race wins operations here next =>
    congrArg (Process.race wins operations here) (funext fun s => andThen_done (next s))

theorem andThen_assoc {k l : ρ → Process δ σ ν ρ κ} : (p : Process δ σ ν ρ κ) →
    (p.andThen k).andThen l = p.andThen fun r => (k r).andThen l
  | .done _ => rfl
  | .crash _ => rfl
  | .act deed next => congrArg (Process.act deed) (funext fun w => andThen_assoc (next w))
  | .sleep ms here next => congrArg (Process.sleep ms here) (andThen_assoc next)
  | .timed ms body next =>
    congrArg (Process.timed ms body) (funext fun x => andThen_assoc (next x))
  | .gather limit stops operations here next =>
    congrArg (Process.gather limit stops operations here)
      (funext fun s => andThen_assoc (next s))
  | .race wins operations here next =>
    congrArg (Process.race wins operations here) (funext fun s => andThen_assoc (next s))

/-- **The blocks that a run of a process comes to**, by its own task or by an operation
of one of its blocks, at any depth of nesting. -/
inductive Meets : Process δ σ ν ρ κ → Process δ σ ν ρ κ → Prop
  | gather {limit stops operations here next} :
      Meets (.gather limit stops operations here next)
        (.gather limit stops operations here next)
  | race {wins operations here next} :
      Meets (.race wins operations here next) (.race wins operations here next)
  | acted {deed : δ} {next : σ → Process δ σ ν ρ κ} {n} (w : σ)
      (h : Meets (next w) n) : Meets (.act deed next) n
  | slept {ms here next n} (h : Meets next n) : Meets (.sleep ms here next) n
  | body {ms body next n} (h : Meets body n) : Meets (.timed ms body next) n
  | timed {ms body next t x n} (hb : Reaches body t x) (h : Meets (next x) n) :
      Meets (.timed ms body next) n
  | operation {limit stops operations here next op n} (hop : op ∈ operations)
      (h : Meets op n) : Meets (.gather limit stops operations here next) n
  | gathered {limit stops operations here next n} (s : Settled ρ κ)
      (h : Meets (next s) n) : Meets (.gather limit stops operations here next) n
  | competitor {wins operations here next op n} (hop : op ∈ operations)
      (h : Meets op n) : Meets (.race wins operations here next) n
  | raced {wins operations here next n} (s : Settled ρ κ) (h : Meets (next s) n) :
      Meets (.race wins operations here next) n

@[simp] theorem meets_done {r : ρ} {n : Process δ σ ν ρ κ} :
    ¬ (Process.done r : Process δ σ ν ρ κ).Meets n :=
  nofun

@[simp] theorem meets_crash {a : κ} {n : Process δ σ ν ρ κ} :
    ¬ (Process.crash a : Process δ σ ν ρ κ).Meets n :=
  nofun

/-- A block meets itself. -/
theorem meets_self {node : Process δ σ ν ρ κ}
    {b : ν × (Settled ρ κ → Process δ σ ν ρ κ)} (h : node.block? = some b) :
    node.Meets node := by
  cases node with
  | gather => exact .gather
  | race => exact .race
  | done | crash | act | sleep | timed => cases h

/-- The operations of a block that a process meets are its own business. -/
theorem Meets.trans_operation {p n op m : Process δ σ ν ρ κ} (h : p.Meets n)
    (hop : op ∈ n.operations) (hm : op.Meets m) : p.Meets m := by
  induction h with
  | gather => exact .operation hop hm
  | race => exact .competitor hop hm
  | acted w _ ih => exact .acted w (ih hop)
  | slept _ ih => exact .slept (ih hop)
  | body _ ih => exact .body (ih hop)
  | timed hb _ ih => exact .timed hb (ih hop)
  | operation hop' _ ih => exact .operation hop' (ih hop)
  | gathered s _ ih => exact .gathered s (ih hop)
  | competitor hop' _ ih => exact .competitor hop' (ih hop)
  | raced s _ ih => exact .raced s (ih hop)

/-- **The blocks of two processes one after the other** are those of the first, where
what follows has been put behind the blocks of its own run, and those of the second. -/
theorem meets_andThen {k : ρ → Process δ σ ν ρ κ} :
    ∀ {p n : Process δ σ ν ρ κ}, (p.andThen k).Meets n →
      (∃ m, p.Meets m ∧ (n = m ∨ n = m.andThen k))
        ∨ ∃ t r, p.Reaches t (.inl r) ∧ (k r).Meets n
  | .done r, _, h => .inr ⟨[], r, .done r, h⟩
  | .crash _, _, h => (meets_crash h).elim
  | .act deed next, _, h => by
    cases h with
    | acted w h =>
      obtain ⟨m, hm, hn⟩ | ⟨t, r, hr, hk⟩ := meets_andThen (p := next w) h
      · exact .inl ⟨m, .acted w hm, hn⟩
      · exact .inr ⟨deed :: t, r, .act w hr, hk⟩
  | .sleep ms here next, _, h => by
    cases h with
    | slept h =>
      obtain ⟨m, hm, hn⟩ | ⟨t, r, hr, hk⟩ := meets_andThen (p := next) h
      · exact .inl ⟨m, .slept hm, hn⟩
      · exact .inr ⟨t, r, .slept hr, hk⟩
  | .timed ms body next, n, h => by
    cases h with
    | body h => exact .inl ⟨n, .body h, .inl rfl⟩
    | @timed _ _ _ t x _ hb h =>
      obtain ⟨m, hm, hn⟩ | ⟨u, r, hr, hk⟩ := meets_andThen (p := next x) h
      · exact .inl ⟨m, .timed hb hm, hn⟩
      · exact .inr ⟨t ++ u, r, .timed hb hr, hk⟩
  | .gather limit stops operations here next, n, h => by
    cases h with
    | gather => exact .inl ⟨_, .gather, .inr rfl⟩
    | operation hop h => exact .inl ⟨n, .operation hop h, .inl rfl⟩
    | gathered s h =>
      obtain ⟨m, hm, hn⟩ | ⟨t, r, hr, hk⟩ := meets_andThen (p := next s) h
      · exact .inl ⟨m, .gathered s hm, hn⟩
      · exact .inr ⟨t, r, .gathered s hr, hk⟩
  | .race wins operations here next, n, h => by
    cases h with
    | race => exact .inl ⟨_, .race, .inr rfl⟩
    | competitor hop h => exact .inl ⟨n, .competitor hop h, .inl rfl⟩
    | raced s h =>
      obtain ⟨m, hm, hn⟩ | ⟨t, r, hr, hk⟩ := meets_andThen (p := next s) h
      · exact .inl ⟨m, .raced s hm, hn⟩
      · exact .inr ⟨t, r, .raced s hr, hk⟩

/-! ## What is left of a process -/

/-- What is left of a process comes to no places and blocks but those of the process. -/
structure Rest (p q : Process δ σ ν ρ κ) : Prop where
  places : ∀ t e, p.Reaches t e → ∃ t', q.Reaches t' e
  blocks : ∀ n, p.Meets n → q.Meets n

/-- A block is left by what follows it. -/
theorem rest_of_block? {node : Process δ σ ν ρ κ} {here : ν}
    {next : Settled ρ κ → Process δ σ ν ρ κ} (h : node.block? = some (here, next))
    (s : Settled ρ κ) : (next s).Rest node := by
  cases node with
  | gather =>
    cases h
    exact ⟨fun t e hr => ⟨t, .gathered s hr⟩, fun n hn => .gathered s hn⟩
  | race =>
    cases h
    exact ⟨fun t e hr => ⟨t, .raced s hr⟩, fun n hn => .raced s hn⟩
  | done | crash | act | sleep | timed => cases h

/-- A time limit is left by what follows it. -/
theorem rest_timed {ms : Nat} {body : Process δ σ ν ρ κ}
    {next : ρ ⊕ ν → Process δ σ ν ρ κ} {t : List δ} {x : ρ ⊕ ν} (h : body.Reaches t x) :
    (next x).Rest (.timed ms body next) :=
  ⟨fun u _ hr => ⟨t ++ u, .timed h hr⟩, fun _ hn => .timed h hn⟩

theorem order_rest : Order (δ := δ) (ν := ν) (ρ := ρ) (κ := κ) (fun _ : σ => True)
    fun _ => Rest where
  refl p := ⟨fun t _ h => ⟨t, h⟩, fun _ h => h⟩
  trans h h' := by
    refine ⟨fun t e hr => ?_, fun n hn => h'.blocks n (h.blocks n hn)⟩
    obtain ⟨t', hr'⟩ := h.places t e hr
    exact h'.places t' e hr'
  timed ms ms' next h := by
    refine ⟨fun t e hr => ?_, fun n hn => ?_⟩
    · cases hr with
      | limited hb =>
        obtain ⟨t', hb'⟩ := h.places _ _ hb
        exact ⟨t', .limited hb'⟩
      | timed hb hn =>
        obtain ⟨t', hb'⟩ := h.places _ _ hb
        exact ⟨t' ++ _, .timed hb' hn⟩
    · cases hn with
      | body hb => exact .body (h.blocks n hb)
      | timed hb hn =>
        obtain ⟨t', hb'⟩ := h.places _ _ hb
        exact .timed hb' hn
  acted _ := ⟨fun t _ hr => ⟨_ :: t, .act _ hr⟩, fun _ hn => .acted _ hn⟩
  asleep := by
    refine ⟨fun t e hr => ?_, fun n hn => ?_⟩
    · cases hr with
      | asleep => exact ⟨[], .asleep⟩
      | slept hr => exact ⟨t, .slept hr⟩
    · cases hn with
      | slept hn => exact .slept hn
  slept := ⟨fun t _ hr => ⟨t, .slept hr⟩, fun _ hn => .slept hn⟩
  inTime := rest_timed (.done _)
  crashed := ⟨nofun, nofun⟩
  gatheredNothing _ := rest_of_block? rfl _
  racedNothing _ := rest_of_block? rfl _

/-- A process under time limits still meets its blocks. -/
theorem Meets.plug {p n : Process δ σ ν ρ κ} (h : p.Meets n) :
    (limits : List (Limit δ σ ν ρ κ)) → (Limit.plug limits p).Meets n
  | [] => h
  | _ :: limits => h.body.plug limits

end Process

/-- A waiting process is at a place where it waits. -/
theorem Waiting.Stands.reaches {past : List (Event δ σ ν ρ κ)} {task : Nat}
    {w : Waiting δ σ ν ρ κ} {p : Process δ σ ν ρ κ} (h : w.Stands past task p) :
    p.Reaches [] (.inr w.here) := by
  induction h with
  | asleep => exact .asleep
  | @blocked block here next node _ hn =>
    cases node with
    | gather =>
      cases hn
      exact .gathering
    | race =>
      cases hn
      exact .racing
    | done | crash | act | sleep | timed => cases hn
  | timed _ ih => exact .limited ih

namespace Moment

variable [Deeds δ σ] {P : Process δ σ ν ρ κ → Prop} {b : Moment δ σ ν ρ κ}

/-- **What is left of a task belongs to its process**, at all moments, whether time
limits have passed or not. -/
theorem Later.rest {w : σ} (h : Later P ⟨.idle, .ofWorld w, []⟩ b) :
    b.Traced (fun _ => Process.Rest) P (fun _ => True) (fun _ => True) := by
  induction h with
  | refl => exact traced_ofWorld trivial
  | tail hl h ih =>
    exact h.traced Process.order_rest (Later.orderly hl) (Later.tallied hl)
      (fun _ _ _ => trivial) ih
      (fun _ _ s _ _ _ _ _ hn _ => Process.rest_of_block? hn s)
      fun _ _ _ _ _ hs _ => Process.rest_timed hs.reaches

/-- A task that is woken for a block has opened it, and what it waits to go on with is
what follows the block. -/
theorem Later.block?_of_woken {w : σ} (h : Later P ⟨.idle, .ofWorld w, []⟩ b)
    {task : Machine.Task δ σ ν ρ κ} {block : Nat} {here : ν}
    {next : Settled ρ κ → Process δ σ ν ρ κ} {limits : List (Limit δ σ ν ρ κ)}
    (hs : b.stage = .woken task (.blocked block here next) limits) {u : Nat}
    {node : Process δ σ ν ρ κ} (ho : .opened u block node ∈ b.past) :
    task.id = u ∧ node.block? = some (here, next) := by
  obtain ⟨q, -, hbelow⟩ := (Later.rest h).stage task (by rw [hs]; rfl) trivial
  rw [hs] at hbelow
  obtain ⟨p, hstands, -⟩ := hbelow
  cases hstands with
  | blocked ho' hn =>
    obtain ⟨hid, rfl⟩ := (Later.orderly h).booked.opened_inj _ _ _ _ _ ho' ho
    exact ⟨hid, hn⟩

/-- **Every block that is opened is met by a process that was begun as the main task.**
The induction is on the run: what opens a block is left of an operation of an earlier
block, or of a main task. -/
theorem Later.meets {w : σ} (h : Later P ⟨.idle, .ofWorld w, []⟩ b) :
    ∀ u c n, .opened u c n ∈ b.past → ∃ p, P p ∧ p.Meets n := by
  induction h with
  | refl => exact nofun
  | @tail a b hl h ih =>
    intro u c n hm
    have hopened : .opened u c n ∈ a.past → ∃ p, P p ∧ p.Meets n := ih u c n
    obtain ⟨task, deed, next, limits, -, -, hp⟩ | ⟨-, es, hp, hes⟩ := h.told
    · obtain hm | hm := List.mem_append.mp (hp ▸ hm)
      · exact hopened hm
      · cases List.mem_singleton.mp hm
    · obtain hm | hm := List.mem_append.mp (hp ▸ hm)
      · exact hopened hm
      · obtain ⟨task, node, limits, block, here, next, ha, hn, -, he⟩ := hes _ hm rfl
        cases he
        obtain ⟨q, hq, hbelow⟩ := (Later.rest hl).stage task (by rw [ha]; rfl) trivial
        rw [ha] at hbelow
        have hmeets : q.Meets n :=
          hbelow.blocks n ((Process.meets_self hn).plug limits)
        -- the task is an operation of an earlier block, or the main task
        obtain ⟨c', i, -, hs⟩ | ⟨-, hP⟩ := hq
        · obtain ⟨u', n', ho', hop⟩ := (Later.orderly hl).booked.started_opened _ _ _ _ hs
          obtain ⟨p, hP, hp⟩ := ih u' c' n' ho'
          exact ⟨p, hP, hp.trans_operation (List.mem_of_getElem? hop) hmeets⟩
        · exact ⟨q, hP, hmeets⟩

end Moment

end Playbook
