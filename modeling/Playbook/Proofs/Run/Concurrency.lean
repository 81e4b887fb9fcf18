import Playbook.Proofs.Process.Busy
import Playbook.Proofs.Run.Construct
import Playbook.Session

/-!
# How many operations of a block run at once

A block of operations runs as many at once as its settings allow, and at least one. It
starts them in order and none of them twice, and unless it fails fast it starts them
all: `Session.concurrency_le` says so of every moment of every session.

The limit can also be too great to be counted (`Runner.mostAtOnce`). Such a block is
not begun at all, and nothing in it is started: the task crashes that comes to it
(`Session.crash_of_limit_too_great`).
-/

namespace Playbook

variable {σ : Type}

/-- A block with its settings is begun, or the task crashes if its limit is too
great. -/
theorem Runner.countable_eq (engine : Engine σ) (settings : BlockSettings) (block : Runner σ)
    (vars : Variables) :
    countable engine settings block vars
      = if settings.maxConcurrency.getD engine.settings.parallel.maxConcurrency ≤ mostAtOnce
        then block vars else .crash .tooManyAtOnce := by
  unfold countable compute
  split
  · rename_i h
    split at h
    · rename_i hle
      rw [if_pos hle]
    · cases h
  · rename_i h
    split at h <;> cases h
  · rename_i h
    split at h
    · cases h
    · rename_i hle
      cases h
      rw [if_neg hle]

/-! ## Operations that end at once -/

/-- An operation that ends at once ends in its first turn. -/
theorem Moment.later_of_done {δ σ ν ρ κ : Type} [Deeds δ σ] {P : Process δ σ ν ρ κ → Prop}
    {m : Machine δ σ ν ρ κ} {past : List (Event δ σ ν ρ κ)} (task : Machine.Task δ σ ν ρ κ)
    {ms : Nat} {r result : ρ} {follow : ρ ⊕ ν → Process δ σ ν ρ κ}
    (ht : m.tasks.find? (fun t => t.id == task.id) = some task)
    (hs : task.state = .fresh (.timed ms (.done r) follow))
    (hfollow : follow (.inl r) = .done result) :
    Later P ⟨.idle, m, past⟩
      ⟨.idle, (m.finish task (.finished result)).2,
        past ++ [.ended task.id (.finished result)]⟩ := by
  have hfirst : Next P ⟨.idle, m, past⟩ ⟨_, m, past⟩ := .move (.first ht hs)
  have hends := ((Relation.ReflTransGen.single hfirst).tail (.move .limit)).tail (.move .inTime)
  rw [Limit.next, hfollow] at hends
  exact hends.tail .finish

/-- **Three operations that end at once, two of them at the same time.** When the task waits for the
block, the first two have been started. When they have ended, it is woken and starts the third one;
and when that has ended too, the block yields. -/
theorem Moment.yields_of_three {δ σ ν ρ κ : Type} [Deeds δ σ] (w : σ) {ms : Nat}
    {p₀ p₁ p₂ result₀ result₁ result₂ : ρ} {follow : ρ ⊕ ν → Process δ σ ν ρ κ}
    (h₀ : follow (.inl p₀) = .done result₀) (h₁ : follow (.inl p₁) = .done result₁)
    (h₂ : follow (.inl p₂) = .done result₂) {here : ν}
    {next : Settled ρ κ → Process δ σ ν ρ κ} (main : Process δ σ ν ρ κ)
    (hmain : main = .gather 2 (fun _ => false) [.timed ms (.done p₀) follow,
      .timed ms (.done p₁) follow, .timed ms (.done p₂) follow] here next) :
    ∃ a b c task task' s, Later (· = main) ⟨.idle, .ofWorld w, []⟩ a
      ∧ .opened 0 1 main ∈ a.past ∧ a.stage = .waiting task (.blocked 1 here next) []
      ∧ Event.begun 1 a.past = [0, 1] ∧ a.machine.blocks.map Machine.Block.id = [1]
      ∧ Later (· = main) ⟨.idle, .ofWorld w, []⟩ b ∧ .opened 0 1 main ∈ b.past
      ∧ b.stage = .woken task' (.blocked 1 here next) [] ∧ Next (· = main) b c
      ∧ c.stage = .going task' (next s) [] ∧ .yielded 0 1 s ∈ c.past := by
  have hbegin : Next (· = main) ⟨.idle, .ofWorld w, []⟩ _ := .begin rfl nofun
  rw [hmain] at hbegin ⊢
  have hwaits := ((Relation.ReflTransGen.single hbegin).tail
    (.move (.first (t := ⟨0, none, .fresh _⟩) rfl rfl))).tail (.opens (.gather rfl rfl))
  have htwo := ((hwaits.tail .pause).trans
    (later_of_done ⟨2, some (1, 0), .fresh _⟩ rfl rfl h₀)).trans
      (later_of_done ⟨3, some (1, 1), .fresh _⟩ rfl rfl h₁)
  have hattends := ((htwo.tail (.move (.wake (t := ⟨0, none, .waiting _⟩) rfl rfl))).tail
    (.attend rfl)).tail .pause
  have hwoken := (hattends.trans
    (later_of_done ⟨4, some (1, 2), .fresh _⟩ rfl rfl h₂)).tail
      (.move (.wake (t := ⟨0, none, .waiting _⟩) rfl rfl))
  exact ⟨_, _, _, _, _, _, hwaits, List.mem_cons_self, rfl, rfl, rfl, hwoken,
    List.mem_append_left _ (List.mem_append_left _ (List.mem_append_left _
      (List.mem_append_left _ List.mem_cons_self))), rfl, .yield rfl, rfl,
    List.mem_append_right _ List.mem_cons_self⟩

/-! ## Limits -/

/-- **No more operations of a block run at once than its limit allows**, and at least
one may. A block of operations, a loop with concurrent passes included, begins as a
gathering if its limit can be counted, and otherwise its task crashes before anything
in it is started. At every moment of every session and in every order of turns, the
operations of such a block that have been started and have not ended are at most as
many as the limit says, or one if it says zero. They are started in order, and none of
them twice. If the block does not fail fast, all have been started when it yields; and
when its task has looked after it before, as many are running as may, or all have been
started. -/
theorem Session.concurrency_le (engine : Engine σ) (settings : BlockSettings) :
    let limit := settings.maxConcurrency.getD engine.settings.parallel.maxConcurrency
    let failFast := settings.failFast.getD engine.settings.parallel.failFast
    (∀ call keys operations vars,
      Action.runner engine call keys (.parallel operations settings) vars
        = if limit ≤ Runner.mostAtOnce then
            Runner.parallel engine settings (Step.singles engine call operations) vars
          else .crash .tooManyAtOnce)
    ∧ (∀ call keys iteration body vars items,
      Runner.elements engine iteration.source vars = .ok items →
      Action.runner engine call keys (.parallelForEach iteration body settings) vars
        = if limit ≤ Runner.mostAtOnce then
            Runner.parallel engine settings (items.zipIdx.map fun (item, index) =>
              .changing (Runner.bindPass iteration index item)
                (Step.listRunner engine call body)) vars
          else .crash .tooManyAtOnce)
    ∧ ∀ P registry own (b : Moment (Deed σ) (World σ) Variables Outcome Crash),
      Moment.Later P ⟨.idle, Session.start registry own, []⟩ b →
      ∀ u c runners vars k,
      .opened u c ((Runner.parallel engine settings runners vars).andThen k) ∈ b.past →
        b.machine.count c ≤ max 1 limit
        ∧ (∃ n ≤ runners.length, Event.begun c b.past = List.range n)
        ∧ (failFast = false →
          (∀ u' s, .yielded u' c s ∈ b.past →
            Event.begun c b.past = List.range runners.length)
          ∧ ∀ task w limits, b.stage = .waiting task w limits → c ∈ w.blocks →
            c ∈ b.machine.blocks.map Machine.Block.id →
            Event.begun c b.past = List.range runners.length
              ∨ b.machine.count c = max 1 limit) := by
  intro limit failFast
  refine ⟨fun call keys operations vars => Runner.countable_eq engine settings _ vars,
    fun call keys iteration body vars items hi => ?_,
    fun P registry own b hl u c runners vars k ho => ?_⟩
  · show Runner.compute (Runner.elements engine iteration.source) _ vars = _
    unfold Runner.compute
    rw [hi]
    dsimp only
    rw [Runner.countable_eq]
    unfold Runner.parallelForEach Runner.compute
    rw [hi]
    rfl
  · have hord := Moment.Later.orderly hl
    have hmax : max limit 1 = max 1 limit := Nat.max_comm limit 1
    have hlen : ∀ r : List (Runner σ),
        ((r.map (Runner.operation (settings.timeout.getD engine.settings.parallel.timeout))).map
          fun r => r vars).length = r.length := fun r => by
      rw [List.length_map, List.length_map]
    refine ⟨?_, ?_, fun hf => ?_⟩
    · rw [← hmax]
      exact hord.closed.count_le hord.numbered hord.booked ho
    · obtain ⟨n, hn, hb⟩ := hord.booked.begun u c _ ho
      exact ⟨n, hlen runners ▸ hn, hb⟩
    · -- the gathering is one that nothing stops
      have hstops : (fun o : Outcome => failFast && o.failed) = fun _ => false := by
        rw [hf]
        rfl
      have ho : .opened u c (.gather limit (fun o => failFast && o.failed) _ vars _) ∈ b.past :=
        ho
      rw [hstops] at ho
      rw [← hlen runners, ← hmax]
      refine ⟨fun u' s hy => hord.closed.begun_eq hord.booked ho hy,
        fun task w limits hs hw hc => ?_⟩
      obtain ⟨B, hB, hid⟩ := List.mem_map.mp hc
      refine hord.booked.begun_of_busy hord.numbered ho hB hid fun g hg => ?_
      obtain ⟨id, owner, state⟩ := B
      cases hg
      exact Moment.Later.attended hl task w limits hs c hw owner g (hid ▸ hB)

/-- Three operations, two of them at once and the second one a failure: as soon as the first two
have been started, as many are running as may, and when the block has yielded, all three have been
started in order. -/
theorem Session.concurrency_le_two_at_once :
    let ambient : Ambient := ⟨0, "", "", fun _ => none⟩
    let engine : Engine Unit := ⟨.default, .standard ambient, ambient⟩
    let block := (Runner.parallel engine ⟨some 2, some false, none⟩
      [.yield (.text "a"), .fail (.expression .divisionByZero), .yield (.text "c")] .empty).andThen
      .done
    ∃ a b s, Moment.Later (· = block) ⟨.idle, Session.start ⟨[], []⟩ (), []⟩ a
      ∧ .opened 0 1 block ∈ a.past ∧ Event.begun 1 a.past = [0, 1] ∧ a.machine.count 1 = 2
      ∧ Moment.Later (· = block) ⟨.idle, Session.start ⟨[], []⟩ (), []⟩ b
      ∧ .opened 0 1 block ∈ b.past ∧ .yielded 0 1 s ∈ b.past
      ∧ b.machine.count 1 ≤ 2 ∧ Event.begun 1 b.past = [0, 1, 2] := by
  intro ambient engine block
  obtain ⟨a, b, c, task, -, s, hla, hoa, hwaits, htwo, hopen, hlb, hob, -, hn, -, hy⟩ :=
    Moment.yields_of_three (World.fresh ⟨[], []⟩ ()) rfl rfl rfl block rfl
  have hbound := (Session.concurrency_le engine ⟨some 2, some false, none⟩).2.2
  have hfull := ((hbound _ _ _ a hla 0 1 _ .empty .done hoa).2.2 rfl).2 task _ [] hwaits
    List.mem_cons_self (hopen ▸ List.mem_cons_self)
  have hlc : Moment.Later (· = block) ⟨.idle, Session.start ⟨[], []⟩ (), []⟩ c := hlb.tail hn
  have hoc := hn.past_subset hob
  obtain ⟨hle, -, hall⟩ := hbound _ _ _ c hlc 0 1 _ .empty .done hoc
  refine ⟨a, c, s, hla, hoa, htwo, hfull.resolve_left fun h => ?_, hlc, hoc, hy, hle,
    (hall rfl).1 0 s hy⟩
  rw [htwo] at h
  cases h

/-- **Nothing in a block is started whose limit is too great to be counted**, though it
does not fail fast: the session crashes when the block is to begin. -/
theorem Session.crash_of_limit_too_great :
    let ambient : Ambient := ⟨0, "", "", fun _ => none⟩
    let engine : Engine Unit := ⟨.default, .standard ambient, ambient⟩
    let operation := Step.mk (.domain "log" (.text "a") []) none false none .null
    let block := Step.mk (.parallel [operation] ⟨some 2305843009213693952, some false, none⟩)
      none false none .null
    let run := Machine.run 10 (engine.execute [block] .empty) (Session.start ⟨[], []⟩ ())
    run.1 matches .crashed .tooManyAtOnce
      ∧ run.2.world.history = [.started 1 0 "parallel"] := by
  decide +kernel

end Playbook
