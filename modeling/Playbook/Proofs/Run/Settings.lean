import Playbook.Proofs.Expr.Integers
import Playbook.Proofs.Run.Retrying
import Playbook.Proofs.Step.Priority

/-!
# Settings as they are written

A loop with a condition and the concurrent constructs have settings that are counts or times. A
setting is looked for in one record or in two (`Step.places`), and what is given first counts
(`Step.given?`). What is made of it is the integer that is written there, be it a number or a
decimal, and nothing if nothing is given (`Step.Exact`).

One setting is kept in fewer bits than it is read in: of the number of further tries of a batch only
the lower 32 bits are left, and a larger number becomes a smaller one without a word
(`Step.retries_cut`). So an operation of a batch that fails each time is tried once more than what
is left says (`Session.settings_of_read`).
-/

namespace Playbook

variable {σ : Type}

/-- **The settings of an action** by their names. -/
def Action.settings : Action → List (String × Option Nat)
  | while_ _ _ maxIterations => [("maxIterations", maxIterations)]
  | parallel _ s => [("maxConcurrency", s.maxConcurrency), ("timeout", s.timeout)]
  | parallelForEach _ _ s => [("maxConcurrency", s.maxConcurrency), ("timeout", s.timeout)]
  | race _ timeout => [("timeout", timeout)]
  | batch _ s => [("size", s.size), ("delay", s.delay), ("maxRetries", s.maxRetries),
      ("retryDelay", s.retryDelay)]
  | _ => []

/-- Only two constructs have settings. -/
theorem Action.introducedBy_of_settings {action : Action} (h : action.settings ≠ []) :
    action.introducedBy = ["while"] ∨ action.introducedBy = ["parallel"] := by
  cases action with
  | while_ => exact .inl rfl
  | parallel | parallelForEach | race | batch => exact .inr rfl
  | _ => exact absurd rfl h

namespace Step

/-! ## Where settings are written -/

/-- The record under a key, if there is one. -/
def recordAt? (key : String) (fields : Named Value) : Option (Named Value) :=
  (fields.lookup key).bind Value.fields?

/-- The records in which a concurrent construct looks for settings: its own, that of the form that
it is written in, or both. -/
def placesOfBlock (block : Named Value) : List (Named Value) :=
  match block.lookup "race", block.lookup "batch", block.lookup "forEach" with
  | some race, _, _ => race.fields?.toList ++ [block]
  | none, some batch, _ => [batch.fields?.getD block]
  | none, none, some forEach => forEach.fields?.toList ++ [block]
  | none, none, none => [block]

/-- **The records in which a step looks for settings**, the one that counts first. -/
def places (node : Value) : List (Named Value) :=
  match node with
  | .record fields =>
    match firstKey? fields with
    | some "while" => (recordAt? "while" fields).toList
    | some "parallel" => (recordAt? "parallel" fields).toList.flatMap placesOfBlock
    | _ => []
  | _ => []

/-- The value that is given under a key. A `null` is none. -/
def givenAt? (key : String) (place : Named Value) : Option Value :=
  match place.lookup key with
  | some .null => none
  | v => v

/-- **The value that is given for a setting**, in the first record with one. -/
def given? (key : String) (places : List (Named Value)) : Option Value :=
  places.findSome? (givenAt? key)

/-! ## What is made of them -/

/-- A value read as a count: an unsigned number of 64 bits or the text of one. -/
def count? : Value → Option Nat
  | .number n => n.toNat?
  | .text s => Numeral.unsigned? (Text.trim s.toList)
  | _ => none

/-- A decimal without a minus sign is an unsigned number, if 64 bits hold it. -/
theorem unsigned?_of_isDecimal {n : Nat} {cs : List Char} (h : Numeral.IsDecimal n cs)
    (hn : n < twoTo 64) : Numeral.unsigned? cs = some n ∨ Numeral.unsigned? cs = none := by
  have hindex (zeros : Nat) : Numeral.index? (Numeral.padded zeros n) = some n := by
    rw [Numeral.index?, Numeral.digits?_padded, Option.filter_some, if_pos (decide_eq_true hn)]
  generalize hm : (n : Int) = m at h
  cases h with
  | plain zeros k =>
    cases Int.ofNat_inj.mp hm
    refine .inl ?_
    unfold Numeral.unsigned?
    split
    · rename_i cs he
      have hplus := List.all_eq_true.mp (Numeral.all_isDigit_padded zeros n) '+'
        (he ▸ List.mem_cons_self)
      cases hplus
    · exact hindex zeros
  | plus zeros k =>
    cases Int.ofNat_inj.mp hm
    exact .inl (hindex zeros)
  | minus zeros k =>
    refine .inr ?_
    show Numeral.index? ('-' :: Numeral.padded zeros k) = none
    rw [Numeral.index?, Numeral.digits?, List.isEmpty_cons, List.all_cons]
    rfl

/-- **An integer that is written is read as it is**, or it is not read. -/
theorem count?_of_isInteger {n : Nat} {v : Value} (h : v.IsInteger n) (hn : n < twoTo 64) :
    count? v = some n ∨ count? v = none := by
  generalize hm : (n : Int) = m at h
  cases h with
  | number =>
    subst hm
    have hfits : Word.Fits n := by
      have : (n : Int) < 18446744073709551616 := Int.ofNat_lt.mpr hn
      exact ⟨by omega, this⟩
    rw [Value.int, dif_pos hfits, count?, Number.toNat?, if_pos (Int.natCast_nonneg n)]
    exact .inl rfl
  | text hl ht hd =>
    subst hm
    rw [count?, String.toList_ofList,
      Text.trim_of_blanks hl ht hd.ne_nil fun c hc => hd.not_isBlank hc]
    exact unsigned?_of_isDecimal hd hn

/-- What is read as a count fits into 64 bits. -/
theorem count?_lt {v : Value} {n : Nat} (h : count? v = some n) : n < twoTo 64 := by
  have hindex {cs : List Char} (h : Numeral.index? cs = some n) : n < twoTo 64 :=
    of_decide_eq_true (Option.filter_eq_some_iff.mp h).2
  have hunsigned {cs : List Char} (h : Numeral.unsigned? cs = some n) : n < twoTo 64 := by
    unfold Numeral.unsigned? at h
    split at h
    · exact hindex h
    · exact hindex h
  cases v with
  | number m =>
    cases m with
    | int m hm =>
      obtain ⟨hpos, hn⟩ := Option.ite_none_right_eq_some.mp h
      have hlt : n < 18446744073709551616 := by
        cases hn
        omega
      exact hlt
    | double => cases h
  | text s => exact hunsigned h
  | _ => cases h

/-- **A setting that is as it is written** in some records: nothing if nothing is given there, and
the integer if an integer of 64 bits is. There is no larger one. -/
structure Exact (key : String) (places : List (Named Value)) (s : Option Nat) : Prop where
  fits : ∀ n ∈ s, n < twoTo 64
  absent : given? key places = none → s = none
  written : ∀ v (n : Nat), given? key places = some v → v.IsInteger n → n < twoTo 64 → s = some n

/-- Nothing is given without a record. -/
theorem Exact.nil (key : String) : Exact key [] none :=
  ⟨nofun, fun _ => rfl, nofun⟩

/-- The setting in a record. -/
theorem countField_eq (key : String) (place : Named Value) :
    countField key place = match givenAt? key place with
      | none => .ok none
      | some v => match count? v with
        | some n => .ok (some n)
        | none => flawed (.notCount key v) := by
  unfold countField givenAt?
  cases place.lookup key with
  | none => rfl
  | some v =>
    cases v with
    | null => rfl
    | number n => cases hn : n.toNat? <;> simp only [count?, hn]
    | text s => cases hs : Numeral.unsigned? (Text.trim s.toList) <;> simp only [count?, hs]
    | _ => rfl

/-- **A setting is read as it is written.** -/
theorem countField_exact (key : String) (place : Named Value) :
    Yields (Exact key [place]) (countField key place) := by
  have hgiven : given? key [place] = givenAt? key place := by
    rw [given?, List.findSome?_cons, List.findSome?_nil]
    cases givenAt? key place <;> rfl
  intro s hs
  rw [countField_eq] at hs
  refine ⟨fun n hn => ?_, fun h => ?_, fun v n h hv hn => ?_⟩
  · cases hn
    split at hs
    · cases hs
    · split at hs
      · cases hs
        exact count?_lt ‹_›
      · cases hs
  · rw [hgiven] at h
    rw [h] at hs
    cases hs
    rfl
  · rw [hgiven] at h
    rw [h] at hs
    obtain hc | hc := count?_of_isInteger hv hn
    · simp only [hc] at hs
      cases hs
      rfl
    · simp only [hc] at hs
      cases hs

/-- The first of two settings is as it is written in the records of both. -/
theorem Exact.orElse {key : String} {ps qs : List (Named Value)} {a b : Option Nat}
    (ha : Exact key ps a) (hb : Exact key qs b) : Exact key (ps ++ qs) (a <|> b) := by
  refine ⟨fun n hn => ?_, fun h => ?_, fun v n h hv hn => ?_⟩
  · cases a with
    | some m => exact ha.fits n hn
    | none => exact hb.fits n hn
  · rw [given?, List.findSome?_append, Option.or_eq_none_iff] at h
    rw [ha.absent h.1, hb.absent h.2]
    rfl
  · rw [given?, List.findSome?_append] at h
    cases hp : ps.findSome? (givenAt? key) with
    | some w =>
      rw [hp] at h
      cases h
      rw [ha.written v n hp hv hn]
      rfl
    | none =>
      rw [hp, Option.none_or] at h
      rw [ha.absent hp, hb.written v n h hv hn]
      rfl

/-! ## The settings of steps -/

/-- **What is kept of a setting** that is read as it is written: all of it, and of the number of
further tries the lower 32 bits. -/
def Kept (places : List (Named Value)) (setting : String × Option Nat) : Prop :=
  ∃ s, Exact setting.1 places s
    ∧ setting.2 = if setting.1 = "maxRetries" then s.map (· % twoTo 32) else s

theorem Exact.kept {key : String} {places : List (Named Value)} {s : Option Nat}
    (h : Exact key places s) (hkey : key ≠ "maxRetries") : Kept places (key, s) :=
  ⟨s, h, (if_neg hkey).symm⟩

/-- What is made of a value may use what is known of it. -/
theorem Yields.bind_of {α β : Type} {p : α → Prop} {q : β → Prop} {x : Except Failure β}
    {f : β → Except Failure α} (hx : Yields q x) (h : ∀ b, q b → Yields p (f b)) :
    Yields p (x >>= f) := by
  cases x with
  | error e => exact nofun
  | ok b => exact h b (hx b rfl)

theorem recordOf_yields (construct : String) (v : Value) :
    Yields (fun fields => v.fields? = some fields) (recordOf construct v) := by
  cases v with
  | record fields => exact .ok rfl
  | _ => exact .error

theorem firstCount_exact (key : String) (inner outer : Named Value) :
    Yields (Exact key ([inner] ++ [outer])) (firstCount key inner outer) :=
  .bind_of (countField_exact key inner) fun _ ha =>
    .bind_of (countField_exact key outer) fun _ hb => .ok (ha.orElse hb)

section

variable {steps : Value → Except Failure (List Step)} {v : Value} {block : Named Value}

/-- All settings of an action are kept as those of given records. -/
def Keeps (places : List (Named Value)) (action : Action) : Prop :=
  ∀ setting ∈ action.settings, Kept places setting

/-- The two settings that limit a block. -/
theorem kept_limits {places : List (Named Value)} {max time : Option Nat}
    (hmax : Exact "maxConcurrency" places max) (htime : Exact "timeout" places time) :
    ∀ setting ∈ [("maxConcurrency", max), ("timeout", time)], Kept places setting := by
  simp only [List.forall_mem_cons]
  exact ⟨hmax.kept (by decide), htime.kept (by decide), nofun⟩

theorem whileLoop_keeps : Yields (Keeps v.fields?.toList) (whileLoop steps v) := by
  refine .bind_of (recordOf_yields "while" v) fun fields hv => ?_
  rw [hv]
  refine .bind fun _ => .bind fun _ => .bind fun _ =>
    .bind_of (countField_exact "maxIterations" fields) fun max hmax => .ok ?_
  exact List.forall_mem_singleton.mpr (hmax.kept (by decide))

theorem raceBlock_keeps :
    Yields (Keeps (v.fields?.toList ++ [block])) (raceBlock steps v block) := by
  have hinner : Yields (Exact "timeout" v.fields?.toList)
      (countField "timeout" (v.fields?.getD [])) := by
    cases v.fields? with
    | some inner => exact countField_exact "timeout" inner
    | none => exact .ok (.nil _)
  refine .bind_of hinner fun _ ha => .bind fun _ =>
    .bind_of (countField_exact "timeout" block) fun _ hb => .ok ?_
  exact List.forall_mem_singleton.mpr ((ha.orElse hb).kept (by decide))

theorem batchBlock_keeps :
    Yields (Keeps [v.fields?.getD block]) (batchBlock steps v block) := by
  refine .bind fun _ => .bind_of (countField_exact "size" _) fun _ hsize =>
    .bind_of (countField_exact "delay" _) fun _ hdelay =>
    .bind_of (countField_exact "maxRetries" _) fun _ hretries =>
    .bind_of (countField_exact "retryDelay" _) fun _ hpause => .ok ?_
  simp only [Keeps, Action.settings, List.forall_mem_cons]
  exact ⟨hsize.kept (by decide), hdelay.kept (by decide), ⟨_, hretries, rfl⟩,
    hpause.kept (by decide), nofun⟩

theorem forEachBlock_keeps :
    Yields (Keeps (v.fields?.toList ++ [block])) (forEachBlock steps v block) := by
  refine .bind_of (recordOf_yields "parallel.forEach" v) fun inner hv => ?_
  rw [hv]
  refine .bind fun _ => .bind fun _ => .bind_of (firstCount_exact "maxConcurrency" inner block)
    fun _ hmax => .bind_of (firstCount_exact "timeout" inner block) fun _ htime => .ok ?_
  exact kept_limits hmax htime

theorem parallelBlock_keeps :
    Yields (Keeps (v.fields?.toList.flatMap placesOfBlock)) (parallelBlock steps v) := by
  cases v with
  | list items =>
    exact .map fun _ => kept_limits (.nil _) (.nil _)
  | record block =>
    have hplaces : (Value.record block).fields?.toList.flatMap placesOfBlock
        = placesOfBlock block := List.flatMap_singleton ..
    rw [hplaces]
    unfold parallelBlock placesOfBlock
    dsimp only
    cases List.lookup "race" block with
    | some race => exact raceBlock_keeps
    | none =>
      cases List.lookup "batch" block with
      | some batch => exact batchBlock_keeps
      | none =>
        cases List.lookup "forEach" block with
        | some forEach => exact forEachBlock_keeps
        | none =>
          cases List.lookup "actions" block with
          | some actions =>
            refine .bind fun _ => .bind_of (countField_exact "maxConcurrency" block) fun _ hmax =>
              .bind_of (countField_exact "timeout" block) fun _ htime => .ok ?_
            exact kept_limits hmax htime
          | none => exact .error
  | _ => exact .error

end

theorem domainAction_settings (fields : Named Value) :
    Yields (fun action => action.settings = []) (domainAction fields) := by
  unfold domainAction
  dsimp only
  split
  · exact .ok rfl
  · exact .error

/-- **The settings of a step are kept as they are written** where it looks for them. -/
theorem keeps_of_read {node : Value} {step : Step} (h : read node = .ok step) :
    Keeps (places node) step.action := by
  cases node with
  | record fields =>
    have hfirst : firstConstruct fields (constructs readList fields) = .ok step.action := by
      rw [read_eq, readWith] at h
      split at h
      · cases h
      · cases ha : firstConstruct fields (constructs readList fields) with
        | error e =>
          rw [ha] at h
          cases h
        | ok action =>
          rw [ha] at h
          cases h
          rfl
    by_cases hno : step.action.settings = []
    · intro setting hs
      rw [hno] at hs
      cases hs
    cases hkey : firstKey? fields with
    | none =>
      rw [firstConstruct_of_firstKey? hkey] at hfirst
      exact absurd (domainAction_settings fields _ hfirst) hno
    | some key =>
      obtain ⟨reader, v, hm, hv, hl, he⟩ := exists_construct_of_firstKey? readList hkey
      have haction := he.symm.trans hfirst
      have hintro : key ∈ step.action.introducedBy := introducedBy_of_constructs hm v _ haction
      have hplaces : recordAt? key fields = v.fields? := by
        rw [recordAt?, hv, Option.bind_some]
      unfold places
      obtain hw | hp := Action.introducedBy_of_settings hno
      · rw [hw, List.mem_singleton] at hintro
        cases hintro
        cases hl
        simp only [hkey, hplaces]
        exact whileLoop_keeps _ haction
      · rw [hp, List.mem_singleton] at hintro
        cases hintro
        cases hl
        simp only [hkey, hplaces]
        exact parallelBlock_keeps _ haction
  | _ =>
    rw [read_eq] at h
    cases h

end Step

/-! ## Operations that always fail -/

/-- An operation that has failed in the end was tried as often as it may be. -/
theorem Retried.length_of_failed {timeout d m n : Nat} {r : Runner σ} {vars : Variables}
    {tries : List (Try σ)} {log : List (Mark (Deed σ))} {o : Outcome}
    (h : Retried timeout r d m n vars tries log o) (hf : o.failed = true) :
    tries.length = m + 1 := by
  by_cases hle : Try.firstSuccess tries ≤ m + 1
  · obtain ⟨-, flow, -, -, hok⟩ := h.result_of_le hle
    rw [Outcome.failed, hok] at hf
    cases hf
  · rw [h.count, Nat.min_eq_right (Nat.le_of_not_le hle)]

/-- **Settings are what is written.** Each setting of a step that has been read is the integer that
is given for it where the step looks for it, be it a number or a decimal of 64 bits, and there is
none if none is given. The number of further tries of a batch is the exception: of it the lower 32
bits are left.

So an operation of a batch that has failed in the end was tried once more than is left of the
number that is given, as long as the count of its tries fits into 32 bits itself, and its result
says so. -/
theorem Session.settings_of_read (engine : Engine σ) {node : Value} {step : Step}
    (h : Step.read node = .ok step) :
    (∀ key s, (key, s) ∈ step.action.settings →
      (Step.given? key (Step.places node) = none → s = none)
      ∧ ∀ v (n : Nat), Step.given? key (Step.places node) = some v → v.IsInteger n →
        n < twoTo 64 → s = some (if key = "maxRetries" then n % twoTo 32 else n))
    ∧ ∀ all settings, step.action = .batch all settings →
      engine.settings.batch.retryDelay ≤ Runner.longestPause →
      ∀ v (n : Nat), Step.given? "maxRetries" (Step.places node) = some v → v.IsInteger n →
      n < twoTo 64 → n % twoTo 32 + 1 < twoTo 32 →
      ∀ registry own (b : Moment (Deed σ) (World σ) Variables Outcome Crash),
      Moment.Later engine.Lists ⟨.idle, Session.start registry own, []⟩ b →
      ∀ (u c : Nat) results before operations rest vars k,
      .opened u c ((engine.chunk settings results before operations rest vars).andThen k)
        ∈ b.past →
      ∀ i t p, .started c i t p ∈ b.past →
      ∀ old o new, b.past = old ++ .ended t (.finished o) :: new → o.failed = true →
      ∃ operation tries log, operations[i]? = some operation
        ∧ Retried engine.settings.parallel.timeout
          (Step.listRunner engine (engine.callsAt vars) [operation])
          (settings.retryDelay.getD engine.settings.batch.retryDelay) (n % twoTo 32) 0 vars
          tries log o
        ∧ tries.length = n % twoTo 32 + 1 ∧ o.attempts = n % twoTo 32 + 1 := by
  have hkeeps := Step.keeps_of_read h
  refine ⟨fun key s hs => ?_, fun all settings ha hpause v n hg hv hn _ registry own b hb u c
    results before operations rest vars k ho i t p hs old o new he hf => ?_⟩
  · obtain ⟨s', hexact, hkept⟩ := hkeeps _ hs
    have hkept : s = if key = "maxRetries" then s'.map (· % twoTo 32) else s' := hkept
    subst hkept
    refine ⟨fun hg => ?_, fun v n hg hv hn => ?_⟩
    · rw [hexact.absent hg]
      exact ite_self none
    · rw [hexact.written v n hg hv hn]
      exact (apply_ite some (key = "maxRetries") (n % twoTo 32) n).symm
  · rw [ha] at hkeeps
    simp only [Step.Keeps, Action.settings, List.forall_mem_cons] at hkeeps
    obtain ⟨-, -, ⟨tries, htries, hm⟩, ⟨pause, hexact, hd⟩, -⟩ := hkeeps
    have hm : settings.maxRetries = some (n % twoTo 32) :=
      hm.trans (congrArg (Option.map (· % twoTo 32)) (htries.written v n hg hv hn))
    have hlongest :
        settings.retryDelay.getD engine.settings.batch.retryDelay ≤ Runner.longestPause := by
      have hd : settings.retryDelay = pause := hd
      rw [hd]
      cases pause with
      | none => exact hpause
      | some d => exact Nat.le_trans (Nat.le_of_lt (hexact.fits d rfl)) (by decide +kernel)
    have hord := Moment.Later.orderly hb
    obtain ⟨p', log, hp, hlog, -⟩ := Moment.Later.logs_of_ended hb he
    cases hord.eq_of_begunWith hs (hp.mono (he ▸ List.subset_append_left _ _))
    obtain ⟨operation, hoperation, rfl⟩ := engine.exists_trying_of_started hord ho hs
    obtain ⟨tries, hr⟩ := (Runner.logs_retrying hlongest).mp hlog
    rw [hm] at hr
    have hlength := hr.length_of_failed hf
    exact ⟨operation, tries, log, hoperation, hr, hlength,
      (hr.attempts_eq.trans (Nat.zero_add _)).trans hlength⟩

/-- A batch of one operation that fails each time, with the number of further tries as a text
and a delay of nothing: the operation was tried twice when it has ended. -/
theorem Session.settings_of_read_batch :
    let ambient : Ambient := ⟨0, "", "", fun _ => none⟩
    let engine : Engine Unit := ⟨.default, .standard ambient, ambient⟩
    let loop : Value := .record [("condition", .bool true), ("maxIterations", .nat 0)]
    let batch : Value := .record [("actions", .record [("while", loop)]),
      ("maxRetries", .text " +01 "), ("retryDelay", .nat 0)]
    let node : Value := .record [("parallel", .record [("batch", batch)])]
    let settings : BatchSettings := ⟨none, none, some 1, some 0⟩
    ∃ step fails b k p old o, Step.read node = .ok step ∧ step.action = .batch [fails] settings
      ∧ Step.given? "maxRetries" (Step.places node) = some (.text " +01 ")
      ∧ (Value.text " +01 ").IsInteger (1 : Nat)
      ∧ Moment.Later engine.Lists ⟨.idle, Session.start ⟨[], []⟩ (), []⟩ b
      ∧ .opened 0 1 ((engine.chunk settings [] [] [fails] [] .empty).andThen k) ∈ b.past
      ∧ .started 1 0 2 p ∈ b.past ∧ b.past = old ++ [.ended 2 (.finished o)] ∧ o.failed = true
      ∧ ∃ tries log, Retried engine.settings.parallel.timeout
          (Step.listRunner engine (engine.callsAt .empty) [fails]) 0 1 0 .empty tries log o
        ∧ tries.length = 2 ∧ o.attempts = 2 := by
  intro ambient engine loop batch node settings
  obtain ⟨step, fails, hread, ha, hfails⟩ : ∃ step fails, Step.read node = .ok step
      ∧ step.action = .batch [fails] settings
      ∧ fails = Step.mk (.while_ (.literal (.bool true)) [] (some 0)) none false none
        (.record [("while", loop)]) := by
    with_unfolding_all exact ⟨_, _, rfl, rfl, rfl⟩
  obtain ⟨k, m, past, htask, ho, hs⟩ :=
    Session.later_trying engine ⟨[], []⟩ () settings fails (by decide)
  let p := engine.trying settings (Step.listRunner engine (engine.callsAt .empty) [fails]) .empty
  obtain ⟨b, old, o, hrest, he, hf⟩ : ∃ b old o,
      Moment.Later engine.Lists ⟨.going ⟨2, some (1, 0), .fresh p⟩ p [], m, past⟩ b
        ∧ b.past = old ++ [.ended 2 (.finished o)] ∧ o.failed = true := by
    subst hfails
    have hlimit : Moment.Later engine.Lists ⟨.going ⟨2, some (1, 0), .fresh p⟩ p [], m, past⟩ _ :=
      .single (.move .limit)
    have htry := ((hlimit.tail .act).tail .act).tail (.move .inTime)
    have hended := (((((htry.tail (.move .sleepZero)).tail (.move .limit)).tail .act).tail
      .act).tail (.move .inTime)).tail .finish
    exact ⟨_, _, _, hended, rfl, rfl⟩
  have hl := htask.trans hrest
  have hsub : past ⊆ b.past := Moment.Later.past_subset hrest
  have hgiven : Step.given? "maxRetries" (Step.places node) = some (.text " +01 ") := rfl
  have hwritten : (Value.text " +01 ").IsInteger (1 : Nat) := by
    have hblank : ∀ c ∈ [' '], Text.isBlank c = true := List.forall_mem_singleton.mpr rfl
    have h : (Value.text (String.ofList ([' '] ++ '+' :: Numeral.padded 1 1 ++ [' ']))).IsInteger
        (1 : Nat) := .text hblank hblank (.plus 1 1)
    exact h
  obtain ⟨operation, tries, log, hop, hr, hlength, hattempts⟩ :=
    (Session.settings_of_read engine hread).2 _ settings ha (by decide) _ 1 hgiven hwritten
      (by decide) (by decide) _ _ b hl 0 1 [] [] [fails] [] .empty k (hsub ho) 0 2 _ (hsub hs) old o
      [] he hf
  cases hop
  exact ⟨step, fails, b, k, p, old, o, hread, ha, hgiven, hwritten, hl, hsub ho, hsub hs, he, hf,
    tries, log, hr, hlength, hattempts⟩

/-- **A large number of further tries is cut**: of two to the power of 32, nothing is left. -/
theorem Step.retries_cut :
    let node : Value := .record [("parallel", .record [("batch", .record
      [("actions", .list []), ("maxRetries", .nat 4294967296)])])]
    Step.given? "maxRetries" (Step.places node) = some (.nat 4294967296)
      ∧ (Value.nat 4294967296).IsInteger (4294967296 : Nat) ∧ 4294967296 < twoTo 64
      ∧ ∃ step, Step.read node = .ok step ∧ ("maxRetries", some 0) ∈ step.action.settings
        ∧ ("maxRetries", some 4294967296) ∉ step.action.settings := by
  intro node
  refine ⟨rfl, .number, by decide, ?_⟩
  obtain ⟨step, hread, ha⟩ : ∃ step, Step.read node = .ok step
      ∧ step.action.settings = [("size", none), ("delay", none), ("maxRetries", some 0),
        ("retryDelay", none)] := by
    with_unfolding_all exact ⟨_, rfl, rfl⟩
  refine ⟨step, hread, ?_⟩
  rw [ha]
  exact ⟨by decide, by decide⟩

end Playbook
