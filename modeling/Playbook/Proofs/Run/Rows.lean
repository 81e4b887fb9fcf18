import Playbook.Proofs.Run.Tolerance
import Playbook.Proofs.Value.Fields

/-!
# Passes for rows of data

The steps of a data-driven run are run once for each row. A pass has three globals to itself: its
steps find the row, its position and the number of rows there (`Rows.Begun`), and what they make
of these globals is gone behind the pass (`Rows.Restored`). Everything else that they leave is
there in the next pass. So a run is a chain of passes (`Rows.Passes`), and no pass, however it
ends, changes what the three globals are between two of them (`Rows.Passes.restored`).

How the chain ends depends on the first failure only if the run does not go on after it
(`Rows.play_passes`). There is one way to lose the passes that have ended: the steps of a pass may
crash, and then there is neither a summary nor a failure of a row
(`Rows.no_summary_of_crash`).
-/

namespace Playbook

variable {σ : Type}

/-- **What is only done to the outcome of a runner** changes nothing else about its run. -/
theorem Play.run_andThen_done {r : Runner σ} {vars : Variables} {session : Session σ}
    (hi : session.Idle) (f : Outcome → Outcome) :
    match Play.run r vars session with
    | (.ok o, session') => session'.Idle
      ∧ Play.run (r.andThen fun o => .done (f o)) vars session = (.ok (f o), session')
    | (.error a, _) => (Play.run (r.andThen fun o => .done (f o)) vars session).1 = .error a := by
  have hc := Machine.run_andThen hi (r vars) (fun o => .done (f o)) Session.turnLimit
  unfold Play.run ExceptT.mk Runner.andThen
  dsimp only
  generalize Machine.run Session.turnLimit (r vars) session = x at hc ⊢
  obtain ⟨o | c | _, session'⟩ := x
  · obtain ⟨hi', left, -, hy⟩ := hc
    have hdone : Machine.run Session.turnLimit ((r vars).andThen fun o => .done (f o)) session
        = (.finished (f o), session') := hy.trans (Machine.run_done hi' _ left)
    rw [hdone]
    exact ⟨hi', rfl⟩
  · rw [show Machine.run _ _ _ = _ from hc]
  · generalize Machine.run Session.turnLimit ((r vars).andThen _) session = y at hc ⊢
    obtain ⟨_, _⟩ := y
    cases hc
    rfl

namespace Rows

/-! ## The globals of a pass -/

section Globals

variable {before vars : Variables}

theorem lookup_restoreGlobal_self (before : Variables) (name : String) (vars : Variables) :
    (restoreGlobal before name vars).globals.lookup name = before.globals.lookup name := by
  unfold restoreGlobal
  cases before.globals.lookup name with
  | some v => exact Named.lookup_put_self name v vars.globals
  | none => exact Named.lookup_remove_self name vars.globals

theorem lookup_restoreGlobal_of_ne {name other : String} (h : other ≠ name)
    (before vars : Variables) :
    (restoreGlobal before name vars).globals.lookup other = vars.globals.lookup other := by
  unfold restoreGlobal
  cases before.globals.lookup name with
  | some v => exact Named.lookup_put_of_ne h v vars.globals
  | none => exact Named.lookup_remove_of_ne h vars.globals

@[simp] theorem frames_restoreGlobal (before : Variables) (name : String) (vars : Variables) :
    (restoreGlobal before name vars).frames = vars.frames := by
  unfold restoreGlobal
  cases before.globals.lookup name with
  | some v => rfl
  | none => rfl

/-- Globals that are put back one after the other. -/
theorem lookup_foldl_restoreGlobal (before : Variables) (names : List String) (x : String) :
    ∀ vars : Variables,
      (names.foldl (fun vars name => restoreGlobal before name vars) vars).globals.lookup x
        = if x ∈ names then before.globals.lookup x else vars.globals.lookup x := by
  induction names with
  | nil => exact fun _ => rfl
  | cons name rest ih =>
    intro vars
    rw [List.foldl_cons, ih]
    by_cases hx : x = name
    · subst hx
      rw [lookup_restoreGlobal_self, ite_self, if_pos List.mem_cons_self]
    · rw [lookup_restoreGlobal_of_ne hx]
      simp only [List.mem_cons, hx, false_or]

/-- **The variables that the steps find in the pass for a row**: the globals of the pass, and
everything else as it was before it. -/
structure Begun (count index : Nat) (row : Value) (vars begun : Variables) : Prop where
  row : begun.globals.lookup "row" = some row
  index : begun.globals.lookup "rowIndex" = some (.nat index)
  count : begun.globals.lookup "rowCount" = some (.nat count)
  others : ∀ name ∉ names, begun.globals.lookup name = vars.globals.lookup name
  frames : begun.frames = vars.frames

theorem begun_bindRow (count index : Nat) (row : Value) (vars : Variables) :
    Begun count index row vars (bindRow index count row vars) where
  row := by
    show List.lookup "row" (((vars.globals.put "row" row).put "rowIndex" _).put "rowCount" _) = _
    rw [Named.lookup_put_of_ne (by decide), Named.lookup_put_of_ne (by decide),
      Named.lookup_put_self]
  index := by
    show List.lookup "rowIndex" ((Named.put "rowIndex" _ _).put "rowCount" _) = _
    rw [Named.lookup_put_of_ne (by decide), Named.lookup_put_self]
  count := Named.lookup_put_self _ _ _
  others name h := by
    obtain ⟨hrow, hindex, hcount⟩ : name ≠ "row" ∧ name ≠ "rowIndex" ∧ name ≠ "rowCount" := by
      simpa only [names, List.mem_cons, List.not_mem_nil, or_false, not_or] using h
    show List.lookup name (((vars.globals.put "row" row).put "rowIndex" _).put "rowCount" _) = _
    rw [Named.lookup_put_of_ne hcount, Named.lookup_put_of_ne hindex, Named.lookup_put_of_ne hrow]
  frames := rfl

/-- **The variables behind a pass**: the globals of the pass are what they were before it, and
everything else is as the steps have left it. -/
structure Restored (before there behind : Variables) : Prop where
  own : ∀ name ∈ names, behind.globals.lookup name = before.globals.lookup name
  others : ∀ name ∉ names, behind.globals.lookup name = there.globals.lookup name
  frames : behind.frames = there.frames

theorem restored_restore (before there : Variables) :
    Restored before there (restore before there) where
  own name h := (lookup_foldl_restoreGlobal before names name there).trans (if_pos h)
  others name h := (lookup_foldl_restoreGlobal before names name there).trans (if_neg h)
  frames := by
    unfold restore names
    simp only [List.foldl_cons, List.foldl_nil, frames_restoreGlobal]

end Globals

/-! ## Chains of passes -/

/-- **Passes for rows, one after the other**, of `count` rows in all, which have all come to an
end. The first one is for the row in position `index`. The steps of a pass begin in the session
and, but for the globals of the pass, with the variables that the pass before has left. The list
`results` tells how they end. -/
inductive Passes (steps : Runner σ) (count : Nat) : Nat → List Value → Variables → Session σ →
    List (Except Failure Value) → Variables → Session σ → Prop
  | nil {index : Nat} {vars : Variables} {session : Session σ} :
    Passes steps count index [] vars session [] vars session
  | cons {index : Nat} {row : Value} {rest : List Value} {vars begun behind vars' : Variables}
      {session session₁ session' : Session σ} {o : Outcome}
      {results : List (Except Failure Value)}
      (hb : Begun count index row vars begun)
      (h : Play.run steps begun session = (.ok o, session₁))
      (hr : Restored vars o.vars behind)
      (hrest : Passes steps count (index + 1) rest behind session₁ results vars' session') :
    Passes steps count index (row :: rest) vars session (o.result.map Flow.value :: results)
      vars' session'

variable {steps : Runner σ} {count index : Nat} {keepGoing : Bool}

/-- **The globals of a pass are the same behind all passes as they were before them**, whatever
the steps have made of them and however they have ended. -/
theorem Passes.restored {rows : List Value} {vars vars' : Variables} {session session' : Session σ}
    {results : List (Except Failure Value)}
    (h : Passes steps count index rows vars session results vars' session') :
    ∀ name ∈ names, vars'.globals.lookup name = vars.globals.lookup name := by
  induction h with
  | nil => exact fun _ _ => rfl
  | cons _ _ hr _ ih => exact fun name hn => (ih name hn).trans (hr.own name hn)

theorem Passes.length_results {rows : List Value} {vars vars' : Variables}
    {session session' : Session σ} {results : List (Except Failure Value)}
    (h : Passes steps count index rows vars session results vars' session') :
    results.length = rows.length := by
  induction h with
  | nil => rfl
  | cons _ _ _ _ ih => exact congrArg (· + 1) ih

/-- The pass for a row by itself. -/
theorem run_pass (steps : Runner σ) (count index : Nat) (row : Value) (vars : Variables)
    {session : Session σ} (hi : session.Idle) :
    match Play.run steps (bindRow index count row vars) session with
    | (.ok o, session') => session'.Idle
      ∧ Play.run (pass steps count index row) vars session
        = (.ok { o with vars := restore vars o.vars }, session')
    | (.error a, _) => (Play.run (pass steps count index row) vars session).1 = .error a :=
  Play.run_andThen_done hi fun o => { o with vars := restore vars o.vars }

/-- **What passes for rows come to.** Either all of them have ended, and the summary has their
results in the order of the rows; if the run does not go on after a failure, there is none among
them. Or it does not, and the failure is that of the last pass that has been begun, the first one
to fail. Or the steps of a pass break the run off. -/
def Comes (steps : Runner σ) (keepGoing : Bool) (count index : Nat) (rows : List Value)
    (vars : Variables) (session : Session σ) :
    Except Abort (Except Failure RowSummary × Variables) × Session σ → Prop
  | (.ok (.ok summary, vars'), session') =>
    Passes steps count index rows vars session (summary.map RowOutcome.result) vars' session'
      ∧ summary.map RowOutcome.index = List.range' index rows.length
      ∧ (keepGoing = false → ∀ r ∈ summary, r.result.isOk = true)
  | (.ok (.error f, vars'), session') =>
    ∃ before row after passed source, keepGoing = false ∧ rows = before ++ row :: after
      ∧ Passes steps count index (before ++ [row]) vars session (passed ++ [.error source])
        vars' session'
      ∧ (∀ r ∈ passed, r.isOk = true) ∧ f = .inRow (index + before.length) source
  | (.error a, _) =>
    ∃ before row after results there here begun, rows = before ++ row :: after
      ∧ Passes steps count index before vars session results there here
      ∧ (keepGoing = false → ∀ r ∈ results, r.isOk = true)
      ∧ Begun count (index + before.length) row there begun
      ∧ (Play.run steps begun here).1 = .error a

/-- What the passes for later rows have come to, with the result of a pass in front. -/
def precede (index : Nat) (result : Except Failure Value) :
    Except Abort (Except Failure RowSummary × Variables) × Session σ →
      Except Abort (Except Failure RowSummary × Variables) × Session σ
  | (.ok (summary, vars), session) => (.ok (summary.map (⟨index, result⟩ :: ·), vars), session)
  | (.error a, session) => (.error a, session)

/-- The passes from a row on, by what its own pass comes to. -/
theorem playFrom_cons (steps : Runner σ) (keepGoing : Bool) (count index : Nat) (row : Value)
    (rest : List Value) {vars : Variables} {session session' : Session σ} {o : Outcome}
    (h : Play.run (pass steps count index row) vars session = (.ok o, session')) :
    playFrom steps keepGoing count index vars (row :: rest) session
      = match o.result, keepGoing with
        | .error f, false => (.ok (.error (.inRow index f), o.vars), session')
        | result, _ => precede index (result.map Flow.value)
            (playFrom steps keepGoing count (index + 1) o.vars rest session') := by
  refine (Play.bind_of_ok h).trans ?_
  obtain ⟨result, there, attempts⟩ := o
  generalize hx : playFrom steps keepGoing count (index + 1) there rest session' = x
  obtain ⟨_ | _, _⟩ := x <;> cases result <;> cases keepGoing <;>
    first | rfl | exact Play.bind_of_error hx | exact Play.bind_of_ok hx

/-- **A pass before the others** that does not end them. -/
theorem Comes.cons {row : Value} {rest : List Value} {vars begun behind : Variables}
    {session session₁ : Session σ} {o : Outcome} (hb : Begun count index row vars begun)
    (h : Play.run steps begun session = (.ok o, session₁)) (hr : Restored vars o.vars behind)
    (hgo : keepGoing = false → o.result.isOk = true)
    {y : Except Abort (Except Failure RowSummary × Variables) × Session σ}
    (hrest : Comes steps keepGoing count (index + 1) rest behind session₁ y) :
    Comes steps keepGoing count index (row :: rest) vars session
      (precede index (o.result.map Flow.value) y) := by
  have hfirst : keepGoing = false → (o.result.map Flow.value).isOk = true := fun hk => by
    have hok := hgo hk
    generalize o.result = result at hok ⊢
    cases result with
    | ok flow => rfl
    | error f => cases hok
  obtain ⟨a | ⟨f | summary, vars'⟩, session'⟩ := y
  -- a later pass breaks the run off
  · obtain ⟨before, broken, after, results, there, here, begun', rfl, hp, hall, hb', hbroken⟩ :=
      hrest
    refine ⟨row :: before, broken, after, _, there, here, begun', rfl, .cons hb h hr hp, ?_, ?_,
      hbroken⟩
    · exact fun hk => List.forall_mem_cons.mpr ⟨hfirst hk, hall hk⟩
    · rw [List.length_cons, Nat.add_comm before.length, ← Nat.add_assoc]
      exact hb'
  -- a later pass is the first to fail
  · obtain ⟨before, failed, after, passed, source, hk, rfl, hp, hall, rfl⟩ := hrest
    refine ⟨row :: before, failed, after, _ :: passed, source, hk, rfl, .cons hb h hr hp, ?_, ?_⟩
    · exact List.forall_mem_cons.mpr ⟨hfirst hk, hall⟩
    · rw [List.length_cons, Nat.add_comm before.length, ← Nat.add_assoc]
  · obtain ⟨hp, hindex, hall⟩ := hrest
    refine ⟨.cons hb h hr hp, ?_, fun hk => List.forall_mem_cons.mpr ⟨hfirst hk, hall hk⟩⟩
    exact congrArg (index :: ·) hindex

/-- **What the passes for rows come to, from any of them on.** The induction is on the rows. -/
theorem comes_playFrom (steps : Runner σ) (keepGoing : Bool) (count : Nat) (rows : List Value) :
    ∀ (index : Nat) (vars : Variables) {session : Session σ}, session.Idle →
      Comes steps keepGoing count index rows vars session
        (playFrom steps keepGoing count index vars rows session) := by
  induction rows with
  | nil => exact fun index vars session _ => ⟨.nil, rfl, fun _ => nofun⟩
  | cons row rest ih =>
    intro index vars session hi
    have hb := begun_bindRow count index row vars
    have hpass := run_pass steps count index row vars hi
    generalize hrun : Play.run steps (bindRow index count row vars) session = x at hpass
    obtain ⟨a | o, session₁⟩ := x
    · generalize hx : Play.run (pass steps count index row) vars session = x at hpass
      obtain ⟨_, session'⟩ := x
      cases hpass
      rw [show playFrom steps keepGoing count index vars (row :: rest) session
        = (.error a, session') from Play.bind_of_error hx]
      exact ⟨[], row, rest, [], vars, session, _, rfl, .nil, fun _ => nofun, hb,
        congrArg Prod.fst hrun⟩
    · obtain ⟨hi', hpass⟩ := hpass
      have hr := restored_restore vars o.vars
      have hrest := ih (index + 1) (restore vars o.vars) hi'
      rw [playFrom_cons steps keepGoing count index row rest hpass]
      obtain ⟨f | flow, there, attempts⟩ := o
      · cases keepGoing with
        | true => exact Comes.cons hb hrun hr (fun hk => Bool.noConfusion hk) hrest
        | false => exact ⟨[], row, rest, [], f, rfl, rfl, .cons hb hrun hr .nil, nofun, rfl⟩
      · exact Comes.cons hb hrun hr (fun _ => rfl) hrest

end Rows

/-- Every row of a summary has passed or failed. -/
theorem RowSummary.passed_add_failed (summary : RowSummary) :
    summary.passed + summary.failed = summary.total := by
  refine .trans ?_ (List.length_eq_countP_add_countP fun r : RowOutcome => r.result.isOk).symm
  simp only [passed, failed, Bool.not_eq_true, Bool.decide_eq_false]

theorem RowSummary.passed_eq_total {summary : RowSummary}
    (h : ∀ r ∈ summary, r.result.isOk = true) : summary.passed = summary.total :=
  List.countP_eq_length.mpr h

/-- **A run for rows of data.** Each pass begins with the row, its position and the number of rows
among its globals. The run comes out in one of three ways.

* It has a summary, with the results of all passes in the order of the rows. If it does not go on
  after a failure, every row has passed.
* It does not go on after a failure, and the first pass that has failed is the last one that has
  been begun: the session is the one that it has left. The failure of the run tells its row.
* The steps of a pass break the run off.

In the first two cases the three globals are what they were before the run. -/
theorem Rows.play_passes (steps : Runner σ) (keepGoing : Bool) (rows : List Value)
    (vars : Variables) {session : Session σ} (hi : session.Idle) :
    match play steps keepGoing rows vars session with
    | (.ok (.ok summary, vars'), session') =>
      Passes steps rows.length 0 rows vars session (summary.map RowOutcome.result) vars' session'
        ∧ summary.map RowOutcome.index = List.range rows.length
        ∧ summary.total = rows.length
        ∧ summary.passed + summary.failed = rows.length
        ∧ (keepGoing = false → summary.passed = rows.length)
        ∧ ∀ name ∈ names, vars'.globals.lookup name = vars.globals.lookup name
    | (.ok (.error f, vars'), session') =>
      ∃ before row after passed source, keepGoing = false ∧ rows = before ++ row :: after
        ∧ Passes steps rows.length 0 (before ++ [row]) vars session (passed ++ [.error source])
          vars' session'
        ∧ (∀ r ∈ passed, r.isOk = true) ∧ f = .inRow before.length source
        ∧ ∀ name ∈ names, vars'.globals.lookup name = vars.globals.lookup name
    | (.error a, _) =>
      ∃ before row after results there here begun, rows = before ++ row :: after
        ∧ Passes steps rows.length 0 before vars session results there here
        ∧ (keepGoing = false → ∀ r ∈ results, r.isOk = true)
        ∧ Begun rows.length before.length row there begun
        ∧ (Play.run steps begun here).1 = .error a := by
  have hcomes := comes_playFrom steps keepGoing rows.length rows 0 vars hi
  rw [show playFrom steps keepGoing rows.length 0 vars rows = play steps keepGoing rows vars
    from rfl] at hcomes
  generalize play steps keepGoing rows vars session = y at hcomes ⊢
  obtain ⟨a | ⟨f | summary, vars'⟩, session'⟩ := y
  · obtain ⟨before, row, after, results, there, here, begun, hrows, hp, hall, hb, hrun⟩ := hcomes
    rw [Nat.zero_add] at hb
    exact ⟨before, row, after, results, there, here, begun, hrows, hp, hall, hb, hrun⟩
  · obtain ⟨before, row, after, passed, source, hk, hrows, hp, hall, hf⟩ := hcomes
    rw [Nat.zero_add] at hf
    exact ⟨before, row, after, passed, source, hk, hrows, hp, hall, hf, hp.restored⟩
  · obtain ⟨hp, hindex, hall⟩ := hcomes
    have htotal : summary.total = rows.length := by
      have hlength := hp.length_results
      rw [List.length_map] at hlength
      exact hlength
    refine ⟨hp, ?_, htotal, ?_, fun hk => ?_, hp.restored⟩
    · rw [hindex, List.range_eq_range']
    · rw [summary.passed_add_failed, htotal]
    · rw [RowSummary.passed_eq_total (hall hk), htotal]

/-- The row at which passes have failed. -/
def Rows.failedRow? : Except Abort (Except Failure RowSummary × Variables) → Option Nat
  | .ok (.error (.inRow index _), _) => some index
  | _ => none

/-- The step sets the global `row` to `false`, and then there is no action of the name of the next
step. So the first row of two fails, and behind the run `row` is what it was before it. -/
theorem Rows.play_passes_first_fails :
    let ambient : Ambient := ⟨0, "", "", fun _ => none⟩
    let engine : Engine Unit := ⟨.default, .standard ambient, ambient⟩
    let sets := Step.mk (.assign .globals [("row", .bool false)]) none false none .null
    let unknown := Step.mk (.domain "transfer" .null []) none false none .null
    let vars : Variables := Variables.empty.setGlobal "row" (.text "before")
    ∃ source vars' session',
      play (engine.execute [sets, unknown]) false [.bool true, .null] vars
        (Session.start ⟨[], []⟩ ()) = (.ok (.error (.inRow 0 source), vars'), session')
      ∧ vars'.globals.lookup "row" = some (.text "before")
      ∧ vars'.globals.lookup "rowIndex" = none := by
  intro ambient engine sets unknown vars
  have hrow : failedRow? (play (engine.execute [sets, unknown]) false [.bool true, .null] vars
      (Session.start ⟨[], []⟩ ())).1 = some 0 := by
    subst vars unknown sets engine ambient
    decide +kernel
  have hidle : (Session.start ⟨[], []⟩ ()).Idle := Machine.idle_ofWorld _
  have hplay := play_passes (engine.execute [sets, unknown]) false [.bool true, .null] vars hidle
  generalize play (engine.execute [sets, unknown]) false [.bool true, .null] vars
    (Session.start ⟨[], []⟩ ()) = y at hrow hplay ⊢
  obtain ⟨_ | ⟨f | _, vars'⟩, session'⟩ := y
  · cases hrow
  · obtain ⟨before, _, _, _, source, -, -, -, -, rfl, hnames⟩ := hplay
    have hzero : before.length = 0 := Option.some.inj hrow
    exact ⟨source, _, _, by rw [hzero], hnames "row" (by decide), hnames "rowIndex" (by decide)⟩
  · cases hrow

/-- **A pass that crashes takes the summary with it**, though the run is to go on after a failure:
its step divides the least integer by minus one. -/
theorem Rows.no_summary_of_crash :
    let ambient : Ambient := ⟨0, "", "", fun _ => none⟩
    let engine : Engine Unit := ⟨.default, .standard ambient, ambient⟩
    let divides := Step.mk (.domain "echo" (.text "\x7b\x7bsmall / -1\x7d\x7d") []) none false none
      (.record [("echo", .text "\x7b\x7bsmall / -1\x7d\x7d")])
    let vars := Variables.empty.setGlobal "small" (.int (-9223372036854775808))
    let y := play (engine.execute [divides]) true [.int 1] vars (Session.start ⟨[], []⟩ ())
    (y.1 matches .error (.crash .quotientOverflow)) = true
      ∧ ∀ summary vars', y.1 ≠ .ok (.ok summary, vars') := by
  intro ambient engine divides vars y
  have hcrash : (y.1 matches .error (.crash .quotientOverflow)) = true := by
    subst y vars divides engine ambient
    decide +kernel
  refine ⟨hcrash, fun summary vars' h => ?_⟩
  rw [h] at hcrash
  cases hcrash

end Playbook
