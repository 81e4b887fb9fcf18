import Mathlib.Data.List.Permutation
import Playbook.Proofs.Process.Accident
import Playbook.Proofs.Process.Ends
import Playbook.Proofs.Run.Blocks
import Playbook.Session

/-!
# What a race comes to

A race runs all its operations at the same time. Its value is that of the first one to
succeed; if none does, it fails with what became of each of them. So what a race comes to is
told by how its operations have ended and in which order (`Event.ends`), and by nothing else:
`Outcome.Races` says it for a list of ends.

The task that waits for the race looks after it some time after it is decided. Operations can
have ended since then, and more of them may end later. That makes no difference:
`Session.race_outcome` says of what the task goes on with that it is right for all ends up to
any later moment.
-/

namespace Playbook

variable {σ : Type}

/-! ## Ends of operations -/

/-- An operation has succeeded with a value. -/
def Settlement.HasValue (s : Settlement Outcome Crash) (v : Value) : Prop :=
  ∃ o flow, s = .finished o ∧ o.result = .ok flow ∧ flow.value = v

namespace Runner

/-- **How an operation that has a time limit can end**, with the log of what it has done: its
steps end in time, or their time is up while they wait somewhere, or they crash. -/
inductive Settles (timeout : Nat) (r : Runner σ) (vars : Variables) :
    List (Mark (Deed σ)) → Settlement Outcome Crash → Prop
  | inTime {log o} (h : (r vars).Logs log (.inl o)) :
    Settles timeout r vars log
      (.finished { o with result := o.result.map fun flow => .continue flow.value })
  | late {log here} (h : (r vars).Logs log (.inr here)) :
    Settles timeout r vars log (.finished (.fail (.timeout timeout) (here.leaveTo vars.depth)))
  | crashed {log task a} (h : (r vars).Breaks a log) : Settles timeout r vars log (.crashed task a)

variable {timeout : Nat} {r : Runner σ} {vars : Variables} {log : List (Mark (Deed σ))}

theorem settles_of_logs {o : Outcome} (h : (operation timeout r vars).Logs log (.inl o)) :
    Settles timeout r vars log (.finished o) := by
  cases h with
  | @timed _ _ _ _ x _ _ hb hn =>
    obtain ⟨rfl, he⟩ := Process.logs_done.mp hn
    cases he
    rw [List.append_nil]
    cases x with
    | inl o => exact .inTime hb
    | inr here => exact .late hb

theorem settles_of_breaks {task : Nat} {a : Crash}
    (h : (operation timeout r vars).Breaks a log) :
    Settles timeout r vars log (.crashed task a) := by
  cases h with
  | limited h => exact .crashed h
  | timed _ hn => cases hn

theorem winning?_eq_some {s : Settlement Outcome Crash} {v : Value} :
    winning? s = some v ↔ s.HasValue v := by
  constructor
  · intro h
    cases s with
    | finished o =>
      cases ho : o.result with
      | ok flow =>
        have h : (o.result.toOption.map Flow.value) = some v := h
        rw [ho] at h
        exact ⟨o, flow, rfl, ho, Option.some.inj h⟩
      | error f =>
        have h : (o.result.toOption.map Flow.value) = some v := h
        rw [ho] at h
        cases h
    | crashed => cases h
  · rintro ⟨o, flow, rfl, ho, rfl⟩
    show o.result.toOption.map Flow.value = _
    rw [ho]
    rfl

theorem winning?_eq_none {s : Settlement Outcome Crash} :
    winning? s = none ↔ ∀ v, ¬ s.HasValue v :=
  Option.eq_none_iff_forall_ne_some.trans
    (forall_congr' fun _ => not_congr winning?_eq_some)

end Runner

/-! ## What decides a race -/

/-- What a race ends with, by the settlements that have decided it. -/
def Outcome.ofRace (vars : Variables) (settled : Settled Outcome Crash) : Outcome :=
  match settled.findSome? fun s => Runner.winning? s.2 with
  | some v => .yield v vars
  | none => .fail (.raceExhausted (settled.map Runner.raceFailure)) vars

/-- **What a race of `n` operations comes to**, by how they have ended. It has the value of
the first one that has succeeded. It fails if all have ended and none has succeeded, and has a
text for each of them then. -/
structure Outcome.Races (o : Outcome) (n : Nat) (vars : Variables)
    (ends : Settled Outcome Crash) : Prop where
  yields : ∀ v, o = .yield v vars ↔ ∃ before e after, ends = before ++ e :: after
    ∧ e.2.HasValue v ∧ ∀ e' ∈ before, ∀ v', ¬ e'.2.HasValue v'
  exhausted : ∀ texts, o = .fail (.raceExhausted texts) vars ↔
    (ends.map Prod.fst).Perm (List.range n) ∧ (∀ e ∈ ends, ∀ v, ¬ e.2.HasValue v)
      ∧ texts = ends.map Runner.raceFailure
  either : (∃ v, o = .yield v vars) ∨ ∃ texts, o = .fail (.raceExhausted texts) vars

namespace Runner

variable {n : Nat} {ends : Settled Outcome Crash}

/-- The settlements up to the winner have the same winner. -/
theorem findSome?_upTo {p : Settlement Outcome Crash → Bool}
    (hp : ∀ s, p s = (winning? s).isSome) (ends : Settled Outcome Crash) :
    (Race.upTo p ends).findSome? (fun e => winning? e.2)
      = ends.findSome? fun e => winning? e.2 := by
  induction ends with
  | nil => rfl
  | cons e rest ih =>
    show List.findSome? _ (if p e.2 then [e] else e :: Race.upTo p rest) = _
    rw [hp e.2, List.findSome?_cons]
    cases he : winning? e.2 with
    | some v =>
      rw [Option.isSome_some, if_pos rfl, List.findSome?_cons, he]
    | none =>
      rw [Option.isSome_none, if_neg Bool.false_ne_true, List.findSome?_cons, he]
      exact ih

theorem winsWith_eq (s : Settlement Outcome Crash) :
    (Race.mk (fun o : Outcome => !o.failed) n ends).winsWith s = (winning? s).isSome := by
  cases s with
  | finished o =>
    show (!(!o.result.isOk)) = (o.result.toOption.map Flow.value).isSome
    cases o.result <;> rfl
  | crashed => rfl

theorem any_winsWith :
    (ends.any fun e => (Race.mk (fun o : Outcome => !o.failed) n ends).winsWith e.2) = true
      ↔ ∃ e ∈ ends, ∃ v, e.2.HasValue v := by
  rw [List.any_eq_true]
  refine exists_congr fun e => and_congr_right fun _ => ?_
  rw [winsWith_eq, Option.isSome_iff_exists]
  exact exists_congr fun v => winning?_eq_some

/-- **A race is open** as long as none of its operations has succeeded and not all have
ended. -/
theorem result?_race_eq_none :
    (Race.mk (fun o : Outcome => !o.failed) n ends).result? = none
      ↔ (∀ e ∈ ends, ∀ v, ¬ e.2.HasValue v) ∧ ends.length ≠ n := by
  have hnone : (∀ e ∈ ends, ∀ v, ¬ e.2.HasValue v) ↔ ¬ ∃ e ∈ ends, ∃ v, e.2.HasValue v := by
    push Not
    rfl
  rw [hnone, ← any_winsWith (n := n)]
  unfold Race.result?
  split
  · rename_i hany
    exact iff_of_false nofun fun h => h.1 hany
  · rename_i hany
    split
    · rename_i hlen
      exact iff_of_false nofun fun h => h.2 hlen
    · rename_i hlen
      exact iff_of_true rfl ⟨hany, hlen⟩

/-- **What decides a race** has the same winner as all ends together; if there is none, all
have ended. -/
theorem ofRace_of_result? {s : Settled Outcome Crash} (vars : Variables)
    (h : (Race.mk (fun o : Outcome => !o.failed) n ends).result? = some s) :
    Outcome.ofRace vars s = .ofRace vars ends
      ∧ ((∀ e ∈ ends, ∀ v, ¬ e.2.HasValue v) → ends.length = n) := by
  unfold Race.result? at h
  split at h
  · rename_i hany
    obtain ⟨e, he, v, hv⟩ := any_winsWith.mp hany
    refine ⟨?_, fun hnone => absurd hv (hnone e he v)⟩
    have hsome : (ends.findSome? fun e => winning? e.2).isSome = true := by
      rw [List.findSome?_isSome_iff]
      exact ⟨e, he, Option.isSome_iff_exists.mpr ⟨v, winning?_eq_some.mpr hv⟩⟩
    obtain ⟨first, hfirst⟩ := Option.isSome_iff_exists.mp hsome
    unfold Outcome.ofRace
    rw [← Option.some.inj h, findSome?_upTo winsWith_eq, hfirst]
  · split at h
    · rename_i hlen
      cases h
      exact ⟨rfl, fun _ => hlen⟩
    · cases h

/-- **What a race goes on with is what it comes to**, by all ends of its operations. -/
theorem races_ofRace {vars : Variables} (hnodup : (ends.map Prod.fst).Nodup)
    (hlt : ∀ e ∈ ends, e.1 < n)
    (hall : (∀ e ∈ ends, ∀ v, ¬ e.2.HasValue v) → ends.length = n) :
    (Outcome.ofRace vars ends).Races n vars ends := by
  have hfailed : (∀ e ∈ ends, winning? e.2 = none) ↔ ∀ e ∈ ends, ∀ v, ¬ e.2.HasValue v :=
    forall₂_congr fun e _ => winning?_eq_none
  have hfirst : ∀ v, (ends.findSome? fun e => winning? e.2) = some v
      ↔ ∃ before e after, ends = before ++ e :: after ∧ e.2.HasValue v
        ∧ ∀ e' ∈ before, ∀ v', ¬ e'.2.HasValue v' := fun v => by
    rw [List.findSome?_eq_some_iff]
    simp only [winning?_eq_some, winning?_eq_none]
  unfold Outcome.ofRace
  cases hfind : ends.findSome? fun e => winning? e.2 with
  | some v =>
    refine ⟨fun v' => ?_, fun texts => iff_of_false nofun fun ⟨_, hnone, _⟩ => ?_, .inl ⟨v, rfl⟩⟩
    · rw [← hfirst, hfind]
      constructor
      · rintro ⟨⟩
        rfl
      · rintro ⟨⟩
        rfl
    · rw [List.findSome?_eq_none_iff.mpr (hfailed.mpr hnone)] at hfind
      cases hfind
  | none =>
    have hnone := hfailed.mp (List.findSome?_eq_none_iff.mp hfind)
    refine ⟨fun v => iff_of_false nofun fun h => ?_, fun texts => ?_, .inr ⟨_, rfl⟩⟩
    · rw [(hfirst v).mpr h] at hfind
      cases hfind
    · have hperm : (ends.map Prod.fst).Perm (List.range n) := by
        refine (List.subperm_of_subset hnodup fun i hi => ?_).perm_of_length_le ?_
        · obtain ⟨e, he, rfl⟩ := List.mem_map.mp hi
          exact List.mem_range.mpr (hlt e he)
        · rw [List.length_map, List.length_range]
          exact Nat.le_of_eq (hall hnone).symm
      constructor
      · rintro ⟨⟩
        exact ⟨hperm, hnone, rfl⟩
      · rintro ⟨-, -, rfl⟩
        rfl

/-- A race and what follows it. -/
theorem race_andThen (engine : Engine σ) (timeout : Option Nat) (runners : List (Runner σ))
    (vars : Variables) (k : Outcome → Task σ) :
    (race engine timeout runners vars).andThen k
      = .race (fun o => !o.failed)
          (runners.map fun r => operation (timeout.getD engine.settings.raceTimeout) r vars) vars
          fun settled => k (.ofRace vars settled) := by
  have hnext : ∀ settled : Settled Outcome Crash,
      Process.andThen (match settled.findSome? fun s => winning? s.2 with
        | some v => yield v vars
        | none => fail (.raceExhausted (settled.map raceFailure)) vars : Task σ) k
      = k (.ofRace vars settled) := by
    intro settled
    unfold Outcome.ofRace
    cases settled.findSome? fun s => winning? s.2 <;> rfl
  exact congrArg (Process.race _ _ vars) (funext hnext)

end Runner

/-! ## Races in sessions -/

/-- **What has happened tells how the operations of a block have ended** that have a time
limit: each of them once, and with what it has done. -/
structure Event.TimedEnds (past : List (Event (Deed σ) (World σ) Variables Outcome Crash))
    (block timeout : Nat) (runners : List (Runner σ)) (vars : Variables) : Prop where
  once : ((Event.ends block past).map Prod.fst).Nodup
  mem_iff : ∀ e, e ∈ Event.ends block past ↔ Event.EndedAs past block e
  settles : ∀ e ∈ Event.ends block past, ∃ r t old new log, runners[e.1]? = some r
    ∧ .started block e.1 t (Runner.operation timeout r vars) ∈ past
    ∧ past = old ++ .ended t e.2 :: new ∧ Mark.deeds log = Event.doneBy t old
    ∧ Runner.Settles timeout r vars log e.2

namespace Moment

variable {P : Task σ → Prop} {w : World σ}
  {b : Moment (Deed σ) (World σ) Variables Outcome Crash}

/-- **An operation that has ended was begun with its steps under the time limit**, and has done
what these do. -/
theorem Later.timedEnds (h : Later P ⟨.idle, .ofWorld w, []⟩ b) {u c timeout : Nat}
    {runners : List (Runner σ)} {vars : Variables} {n : Task σ} (ho : .opened u c n ∈ b.past)
    (hn : n.operations = runners.map fun r => Runner.operation timeout r vars) :
    Event.TimedEnds b.past c timeout runners vars := by
  have hord := Later.orderly h
  refine ⟨h.nodup_ends c, fun e => hord.booked.mem_ends, fun e he => ?_⟩
  obtain ⟨t, p, hs, hend⟩ := hord.booked.mem_ends.mp he
  obtain ⟨u', n', ho', hop⟩ := hord.booked.started_opened c e.1 t p hs
  obtain ⟨-, rfl⟩ := hord.booked.opened_inj _ _ _ _ _ ho' ho
  rw [hn, List.getElem?_map] at hop
  obtain ⟨r, hr, rfl⟩ := Option.map_eq_some_iff.mp hop
  obtain ⟨old, new, hpast⟩ := List.append_of_mem hend
  have hpast : b.past = old ++ .ended t e.2 :: new := hpast
  have hsub : old ⊆ b.past := hpast ▸ List.subset_append_left _ _
  obtain ⟨i, s⟩ := e
  cases s with
  | finished o =>
    obtain ⟨p, log, hp, hlog, hdeeds⟩ := Later.logs_of_ended h hpast
    cases hord.eq_of_begunWith hs (hp.mono hsub)
    exact ⟨r, t, old, new, log, hr, hs, hpast, hdeeds, Runner.settles_of_logs hlog⟩
  | crashed t' a =>
    obtain ⟨p, log, hp, hlog, hdeeds⟩ := Later.breaks_of_crashed h hpast
    cases hord.eq_of_begunWith hs (hp.mono hsub)
    exact ⟨r, t, old, new, log, hr, hs, hpast, hdeeds, Runner.settles_of_breaks hlog⟩

end Moment

/-- **What a race comes to.** A race begins with the steps of its operations. At every moment
of every session and in every order of turns:

* a task that comes to a race opens it and starts all operations, or goes on at once with the
  failure of no operations if there are none;
* a race that has been opened is waited for, or has yielded, or its task was cut off;
* its operations end once at most: in time, when their time is up, or with a crash;
* a task that is woken for its race goes on waiting only while no operation has succeeded and
  not all have ended. Otherwise it goes on with what the race comes to, and that is the same
  for the ends of its operations up to any later moment.

And in every run of a session, whoever waits for a race can run when an operation of it has
succeeded, or all have ended. -/
theorem Session.race_outcome (engine : Engine σ) (limit : Option Nat) :
    let timeout := limit.getD engine.settings.raceTimeout
    (∀ call keys operations vars,
      Action.runner engine call keys (.race operations limit) vars
        = Runner.race engine limit (Step.singles engine call operations) vars)
    ∧ (∀ P registry own (b : Moment (Deed σ) (World σ) Variables Outcome Crash),
      Moment.Later P ⟨.idle, Session.start registry own, []⟩ b → ∀ runners vars k,
      let race := (Runner.race engine limit runners vars).andThen k
      (∀ task limits b', b.stage = .going task race limits → Moment.Next P b b' →
        (∃ c next, b'.stage = .waiting task (.blocked c vars next) limits
          ∧ .opened task.id c race ∈ b'.past
          ∧ Event.begun c b'.past = List.range runners.length)
        ∨ runners = [] ∧ ∃ o, b'.stage = .going task (k o) limits ∧ o.Races 0 vars [])
      ∧ ∀ u c, .opened u c race ∈ b.past →
        b.Fate u c ∧ Event.TimedEnds b.past c timeout runners vars
        ∧ (∀ B ∈ b.machine.blocks, B.id = c →
          B.state = .race ⟨fun o => !o.failed, runners.length, Event.ends c b.past⟩)
        ∧ ∀ task here next limits b', b.stage = .woken task (.blocked c here next) limits →
          Moment.Next P b b' →
          (b'.stage = .waiting task (.blocked c here next) limits
            ∧ (∀ e ∈ Event.ends c b'.past, ∀ v, ¬ e.2.HasValue v)
            ∧ (Event.ends c b'.past).length < runners.length)
          ∨ ∃ o, b'.stage = .going task (k o) limits
            ∧ ∀ b'', Moment.Later P b' b'' →
              Event.ends c b'.past <+: Event.ends c b''.past
              ∧ o.Races runners.length vars (Event.ends c b''.past))
    ∧ ∀ registry own (session : Session σ), session.Played (World.fresh registry own) →
      (∃ past, Moment.Later (fun _ => True) ⟨.idle, Session.start registry own, []⟩
        ⟨.idle, session, past⟩)
      ∧ ∀ t ∈ session.tasks, ∀ w, t.state.waiting? = some w → ∀ B ∈ session.blocks,
        B.id ∈ w.blocks → ∀ n ends, B.state = .race ⟨fun o => !o.failed, n, ends⟩ →
        (∃ e ∈ ends, ∃ v, e.2.HasValue v) ∨ ends.length = n → session.CanRun t.id := by
  intro timeout
  refine ⟨fun _ _ _ _ => rfl, fun P registry own b hl runners vars k => ?_,
    fun registry own session hp => ?_⟩
  · intro race
    have hrace : race = .race (fun o => !o.failed)
        (runners.map fun r => Runner.operation timeout r vars) vars
        fun settled => k (.ofRace vars settled) := Runner.race_andThen engine limit runners vars k
    have hlen : (runners.map fun r => Runner.operation timeout r vars).length = runners.length :=
      List.length_map _
    refine ⟨fun task limits b' hs hn => ?_, fun u c ho => ⟨(Moment.Later.fated hl).fate u c race ho,
      hl.timedEnds ho (by rw [hrace]; rfl), fun B hB hid => ?_,
      fun task here next limits b' hs hn => ?_⟩⟩
    · rw [hrace] at hs ⊢
      obtain ⟨hs', start, hpast⟩ | ⟨hnone, hs'⟩ := hn.comes hs rfl
      · have ho : .opened task.id b.machine.serial _ ∈ b'.past :=
          hpast ▸ List.mem_append_right _ List.mem_cons_self
        exact .inl ⟨_, _, hs', ho, hlen ▸ Moment.Later.begun_race (hl.tail hn) ho⟩
      · exact .inr ⟨List.map_eq_nil_iff.mp hnone, _, hs',
          Runner.races_ofRace List.nodup_nil nofun fun _ => rfl⟩
    · rw [hrace] at ho
      exact hlen ▸ Moment.Later.state_of_race hl ho hB hid
    · rw [hrace] at ho
      have hl' : Moment.Later P ⟨.idle, Session.start registry own, []⟩ b' := hl.tail hn
      have hle := hl'.length_ends_le (hn.past_subset ho)
      obtain ⟨hwait, hopen⟩ | ⟨s, hs', hdecided⟩ := hl.look_race ho hs hn
      · rw [hlen] at hopen
        obtain ⟨hnone, hne⟩ := Runner.result?_race_eq_none.mp hopen
        exact .inl ⟨hwait, hnone, Nat.lt_of_le_of_ne (hlen ▸ hle) hne⟩
      · refine .inr ⟨_, hs', fun b'' hlater => ?_⟩
        have hl'' := Relation.ReflTransGen.trans hl' hlater
        have ho'' := Moment.Later.past_subset hlater (hn.past_subset ho)
        have hgrows := Moment.Later.ends_prefix hlater (Moment.Later.orderly hl')
          (Moment.Later.heard hl') c
        refine ⟨hgrows, ?_⟩
        -- the ends up to the later moment have decided the race in the same way
        have hdecided'' := Race.result?_of_prefix hdecided hgrows
          (Moment.Later.length_ends_le hl'' ho'')
        have hord := Moment.Later.orderly hl''
        rw [hlen] at hdecided''
        obtain ⟨hsame, hall⟩ := Runner.ofRace_of_result? vars hdecided''
        rw [hsame]
        refine Runner.races_ofRace (Moment.Later.nodup_ends hl'' c) (fun e he => ?_) hall
        exact hlen ▸ hord.lt_of_mem_ends ho'' he
  · obtain ⟨past, hl, -⟩ := hp.cared
    refine ⟨⟨past, hl⟩, fun t ht w hw B hB hc n ends hrace hdecided =>
      hp.canRun_of_due ht hw hB hc ?_⟩
    rw [hrace]
    refine Option.ne_none_iff_exists'.mp fun hnone => ?_
    obtain ⟨hfailed, hne⟩ := Runner.result?_race_eq_none.mp hnone
    obtain ⟨e, he, v, hv⟩ | hlen := hdecided
    · exact hfailed e he v hv
    · exact hne hlen

/-- A race whose first operation fails and whose second one succeeds has the value of the
second one; and after three turns of it the main task can run. -/
theorem Session.race_outcome_second_wins :
    let ambient : Ambient := ⟨0, "", "", fun _ => none⟩
    let engine : Engine Unit := ⟨.default, .standard ambient, ambient⟩
    let runners : List (Runner Unit) := [.fail (.timeout 0), .yield (.bool true)]
    let race := (Runner.race engine none runners .empty).andThen .done
    let session := (Machine.run 3 race (Session.start ⟨[], []⟩ ())).2
    (∃ b b' task, Moment.Later (· = race) ⟨.idle, Session.start ⟨[], []⟩ (), []⟩ b
      ∧ Moment.Next (· = race) b b' ∧ .opened 0 1 race ∈ b.past
      ∧ b'.stage = .going task (.done (.yield (.bool true) .empty)) [])
    ∧ ∃ t ∈ session.tasks, ∃ w, t.state.waiting? = some w ∧ ∃ B ∈ session.blocks, B.id ∈ w.blocks
      ∧ ∃ ends, B.state = .race ⟨fun o => !o.failed, 2, ends⟩ ∧ ends.length = 2
        ∧ session.CanRun t.id := by
  intro ambient engine runners race session
  obtain ⟨-, hrace, hwaits⟩ := Session.race_outcome engine none
  refine ⟨?_, ?_⟩
  · have hbegin : Moment.Next (· = race) ⟨.idle, Session.start ⟨[], []⟩ (), []⟩ _ :=
      .begin rfl (List.forall_mem_nil _)
    have hopens := ((Relation.ReflTransGen.single hbegin).tail
      (.move (.first (t := ⟨0, none, .fresh _⟩) rfl rfl))).tail (.opens (.race rfl))
    have hfirst := (((((hopens.tail .pause).tail
      (.move (.first (t := ⟨2, some (1, 0), .fresh _⟩) rfl rfl))).tail (.move .limit)).tail
      (.move .inTime)).tail .finish)
    have hsecond := ((((hfirst.tail
      (.move (.first (t := ⟨3, some (1, 1), .fresh _⟩) rfl rfl))).tail (.move .limit)).tail
      (.move .inTime)).tail .finish)
    have hwoken := hsecond.tail (.move (.wake (t := ⟨0, none, .waiting _⟩) rfl rfl))
    obtain ⟨b, b', task, next, hl, hnext, hopened, hs, hgoing, e, o, hends, hfailed⟩ :
        ∃ b b' task next, Moment.Later (· = race) ⟨.idle, Session.start ⟨[], []⟩ (), []⟩ b
          ∧ Moment.Next (· = race) b b' ∧ .opened 0 1 race ∈ b.past
          ∧ b.stage = .woken task (.blocked 1 .empty next) [] ∧ (∃ p, b'.stage = .going task p [])
          ∧ ∃ e o, Event.ends 1 b'.past = [e, (1, .finished (.yield (.bool true) .empty))]
            ∧ e.2 = .finished (.fail o .empty) :=
      ⟨_, _, _, _, hwoken, .yield rfl, List.mem_append_left _ (List.mem_append_left _
        (List.mem_append_right _ List.mem_cons_self)), rfl, ⟨_, rfl⟩, _, _, rfl, rfl⟩
    obtain ⟨-, hrace⟩ := hrace _ _ _ b hl runners .empty .done
    obtain ⟨-, -, -, hlook⟩ := hrace 0 1 hopened
    obtain ⟨hwait, -⟩ | ⟨o, hgoing, hlater⟩ := hlook task _ _ _ b' hs hnext
    · obtain ⟨p, hp⟩ := hgoing
      cases hwait.symm.trans hp
    · refine ⟨b, b', task, hl, hnext, hopened, ?_⟩
      obtain ⟨-, hraces⟩ := hlater b' .refl
      rw [hgoing, (hraces.yields (.bool true)).mpr ⟨[e], _, [], hends, ⟨_, _, rfl, rfl, rfl⟩, ?_⟩]
      rintro e he v ⟨o, flow, hfin, ho, -⟩
      rw [List.mem_singleton.mp he, hfailed] at hfin
      cases hfin
      cases ho
  · have hblocks : session.blocks = [⟨1, 0, .race ⟨fun o => !o.failed, 2,
        [(0, .finished (.fail (.timeout 0) .empty)),
          (1, .finished (.yield (.bool true) .empty))]⟩⟩] := by
      subst session race runners engine ambient
      cbv
    have hany : (session.tasks.any fun t => t.state.waiting?.any fun w => w.blocks.contains 1)
        = true := by
      subst session race runners engine ambient
      decide +kernel
    obtain ⟨t, ht, hw⟩ := List.any_eq_true.mp hany
    obtain ⟨w, hw, hc⟩ := (Option.any_eq_true ..).mp hw
    have hc : 1 ∈ w.blocks := List.contains_iff_mem.mp hc
    have hB := hblocks ▸ List.mem_singleton.mpr rfl
    obtain ⟨-, hrun⟩ := hwaits _ _ session (.run .start (List.forall_mem_nil _) 3 race)
    exact ⟨t, ht, w, hw, _, hB, hc, _, rfl, rfl, hrun t ht w hw _ hB hc _ _ rfl (.inr rfl)⟩

end Playbook
