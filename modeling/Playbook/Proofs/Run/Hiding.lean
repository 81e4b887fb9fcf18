import Playbook.Proofs.Keyword.Arguments
import Playbook.Proofs.Process.Meets
import Playbook.Proofs.Run.Construct

/-!
# What a parameter hides

A keyword call has its parameters in a frame of its own, and nothing that its steps do takes a name
out of that frame. So a global variable with the name of a parameter is hidden from the steps,
whatever has been bound to the parameter.

That they never look at it is told by two runs that begin with different values of the global. The
tasks are then alike (`Task.Alike`): they do the same things to the world, wait for the same times,
run blocks of operations that are alike, and end with the same result, while all variables but the
hidden one stay the same. Every construct keeps this (`Runner.Blind`), since all that is computed
for a step is computed in its scope, and the scopes are equal (`Variables.Inside.scope_eq`). What
the steps cannot see themselves may still be seen by the keywords that they call, which have other
frames, and by the handlers, which are given the variables as a whole; of these it has to be known
that they do not look (`Task.Alike.of_blind`).
-/

namespace Playbook

variable {σ : Type} {p : String} {n : Nat}

/-! ## Variables -/

namespace Variables

/-- Variables that differ in the global of one name only. -/
structure Beside (p : String) (a b : Variables) : Prop where
  frames : b.frames = a.frames
  globals : ∀ x, x ≠ p → b.globals.lookup x = a.globals.lookup x

/-- **The steps of a call, or of a call in it, cannot tell the variables apart**: they differ in the
global of a name that the frame of the call has. There are `n` frames below that frame. -/
structure Hides (p : String) (n : Nat) (a b : Variables) : Prop extends Beside p a b where
  hidden : ∃ inner frame outer, a.frames = inner ++ frame :: outer ∧ outer.length = n
    ∧ p ∈ Named.names frame

/-- The same for the steps of the call itself: its frame is the innermost one. -/
structure Inside (p : String) (n : Nat) (a b : Variables) : Prop extends Beside p a b where
  hidden : ∃ frame outer, a.frames = frame :: outer ∧ outer.length = n ∧ p ∈ Named.names frame

variable {a b : Variables}

theorem Inside.hides (h : Inside p n a b) : Hides p n a b where
  toBeside := h.toBeside
  hidden := by
    obtain ⟨frame, outer, hf, hn, hp⟩ := h.hidden
    exact ⟨[], frame, outer, hf, hn, hp⟩

theorem Inside.depth_left (h : Inside p n a b) : a.depth = n + 1 := by
  obtain ⟨frame, outer, hf, rfl, -⟩ := h.hidden
  rw [Variables.depth, hf, List.length_cons]

theorem Beside.depth_eq (h : Beside p a b) : b.depth = a.depth :=
  congrArg List.length h.frames

/-- **The scopes are equal**: of the name that they differ in, only the innermost frame is looked
at. -/
theorem Inside.scope_eq (h : Inside p n a b) (ambient : Ambient) :
    b.scope ambient = a.scope ambient := by
  have hget : ∀ x, b.get? x = a.get? x := by
    intro x
    obtain ⟨frame, outer, hf, -, hp⟩ := h.hidden
    unfold get?
    rw [h.frames, hf, List.headD_cons]
    by_cases hx : x = p
    · subst hx
      cases hl : List.lookup x frame with
      | some v => rfl
      | none => exact absurd hp (Named.lookup_eq_none.mp hl)
    · rw [h.globals x hx]
  unfold scope
  simp only [hget]

/-- What is bound goes to the innermost frame, which keeps its names. -/
theorem Inside.bind (h : Inside p n a b) (name : String) (v : Value) :
    Inside p n (a.bind name v) (b.bind name v) := by
  obtain ⟨frame, outer, hf, hn, hp⟩ := h.hidden
  have ha : a.bind name v = { a with frames := frame.put name v :: outer } := by
    rw [Variables.bind, hf]
  have hb : b.bind name v = { b with frames := frame.put name v :: outer } := by
    rw [Variables.bind, h.frames, hf]
  rw [ha, hb]
  exact ⟨⟨rfl, h.globals⟩, _, _, rfl, hn, Named.mem_names_put.mpr (.inr hp)⟩

theorem Inside.setGlobal (h : Inside p n a b) (name : String) (v : Value) :
    Inside p n (a.setGlobal name v) (b.setGlobal name v) := by
  refine ⟨⟨h.frames, fun x hx => ?_⟩, h.hidden⟩
  show (b.globals.put name v).lookup x = (a.globals.put name v).lookup x
  by_cases hn : x = name
  · subst hn
    rw [Named.lookup_put_self, Named.lookup_put_self]
  · rw [Named.lookup_put_of_ne hn, Named.lookup_put_of_ne hn, h.globals x hx]

/-- Where the calls inside of a call are left, its frame is the innermost one. -/
theorem Hides.leaveTo (h : Hides p n a b) :
    Inside p n (a.leaveTo (n + 1)) (b.leaveTo (n + 1)) := by
  obtain ⟨inner, frame, outer, hf, hn, hp⟩ := h.hidden
  have hdrop : a.frames.drop (a.frames.length - (n + 1)) = frame :: outer := by
    have hlen : a.frames.length - (n + 1) = inner.length := by
      rw [hf, List.length_append, List.length_cons, hn]
      omega
    rw [hlen, hf, List.drop_left]
  refine ⟨⟨?_, h.globals⟩, frame, outer, hdrop, hn, hp⟩
  show b.frames.drop _ = a.frames.drop _
  rw [h.frames]

/-- **A call hides what its parameters are named**, also those that it has no argument for. -/
theorem Beside.enter (h : Beside p a b) {keyword : Keyword} (hp : p ∈ keyword.params)
    (args : List Value) : Inside p a.depth (a.enter (keyword.bindArguments args))
      (b.enter (keyword.bindArguments args)) where
  frames := congrArg (keyword.bindArguments args :: ·) h.frames
  globals := h.globals
  hidden := ⟨_, _, rfl, rfl, ((keyword.bindArguments_spec args).2.1 p).mpr hp⟩

theorem Inside.leave (h : Inside p n a b) : Beside p a.leave b.leave :=
  ⟨congrArg List.tail h.frames, h.globals⟩

end Variables

/-! ## Tasks -/

/-- Outcomes that are the same but for the variables. -/
structure Outcome.Same (o o' : Outcome) : Prop where
  result : o'.result = o.result
  attempts : o'.attempts = o.attempts

/-- Settlements that are the same but for the variables. -/
inductive Settlement.Same : Settlement Outcome Crash → Settlement Outcome Crash → Prop
  | finished {o o' : Outcome} (h : o.Same o') : Same (.finished o) (.finished o')
  | crashed (task : Nat) (c : Crash) : Same (.crashed task c) (.crashed task c)

/-- Lists of settlements that are the same but for the variables. -/
abbrev Settled.Same (s s' : Settled Outcome Crash) : Prop :=
  List.Forall₂ (fun e e' => e'.1 = e.1 ∧ e.2.Same e'.2) s s'

/-- Outcomes of steps of a call that are the same, where the variables cannot be told apart. -/
structure Outcome.Inside (p : String) (n : Nat) (o o' : Outcome) : Prop extends o.Same o' where
  vars : Variables.Inside p n o.vars o'.vars

/-- **Tasks that are alike**: they do the same, wait at places that cannot be told apart, and end
with outcomes that are related by `R`. Where they leave it to others what to do, by tasks that are
related by `X`, they go on alike whenever these come to the same. -/
inductive Task.Alike (X : Task σ → Task σ → Prop) (p : String) (n : Nat) :
    (Outcome → Outcome → Prop) → Task σ → Task σ → Prop
  | foreign {R} {q q' : Task σ} {k k' : Outcome → Task σ} (hX : X q q')
    (hk : ∀ o o', Outcome.Inside p n o o' → Alike X p n R (k o) (k' o')) :
    Alike X p n R (q.andThen k) (q'.andThen k')
  | done {R} {o o' : Outcome} (h : R o o') : Alike X p n R (.done o) (.done o')
  | crash {R} (c : Crash) : Alike X p n R (.crash c) (.crash c)
  | act {R} (deed : Deed σ) {next next' : World σ → Task σ}
    (h : ∀ w, Alike X p n R (next w) (next' w)) : Alike X p n R (.act deed next) (.act deed next')
  | sleep {R} (ms : Nat) {here here' : Variables} {next next' : Task σ}
    (hv : Variables.Hides p n here here') (h : Alike X p n R next next') :
    Alike X p n R (.sleep ms here next) (.sleep ms here' next')
  | timed {R S} (ms : Nat) {body body' : Task σ} {next next' : Outcome ⊕ Variables → Task σ}
    (hb : Alike X p n S body body')
    (hdone : ∀ o o', S o o' → Alike X p n R (next (.inl o)) (next' (.inl o')))
    (hcut : ∀ v v', Variables.Hides p n v v' → Alike X p n R (next (.inr v)) (next' (.inr v'))) :
    Alike X p n R (.timed ms body next) (.timed ms body' next')
  | gather {R S} (limit : Nat) {stops : Outcome → Bool} {operations operations' : List (Task σ)}
    {here here' : Variables} {next next' : Settled Outcome Crash → Task σ}
    (hv : Variables.Hides p n here here') (hlen : operations'.length = operations.length)
    (hops : ∀ (i : Nat) op op', operations[i]? = some op → operations'[i]? = some op' →
      Alike X p n S op op')
    (hS : ∀ o o', S o o' → o.Same o') (hstops : ∀ o o', o.Same o' → stops o' = stops o)
    (h : ∀ s s', Settled.Same s s' → Alike X p n R (next s) (next' s')) :
    Alike X p n R (.gather limit stops operations here next)
      (.gather limit stops operations' here' next')
  | race {R S} {wins : Outcome → Bool} {operations operations' : List (Task σ)}
    {here here' : Variables} {next next' : Settled Outcome Crash → Task σ}
    (hv : Variables.Hides p n here here') (hlen : operations'.length = operations.length)
    (hops : ∀ (i : Nat) op op', operations[i]? = some op → operations'[i]? = some op' →
      Alike X p n S op op')
    (hS : ∀ o o', S o o' → o.Same o') (hwins : ∀ o o', o.Same o' → wins o' = wins o)
    (h : ∀ s s', Settled.Same s s' → Alike X p n R (next s) (next' s')) :
    Alike X p n R (.race wins operations here next) (.race wins operations' here' next')

theorem Settled.Same.refl (s : Settled Outcome Crash) : Settled.Same s s := by
  refine List.forall₂_same.mpr fun e _ => ⟨rfl, ?_⟩
  cases e.2 with
  | finished o => exact .finished ⟨rfl, rfl⟩
  | crashed task c => exact .crashed task c

/-- What is made of each settlement by itself is the same. -/
theorem Settled.Same.map_eq {β : Type} {f : Nat × Settlement Outcome Crash → β}
    {s s' : Settled Outcome Crash} (h : Settled.Same s s')
    (hf : ∀ i e e', Settlement.Same e e' → f (i, e') = f (i, e)) : s'.map f = s.map f := by
  induction h with
  | nil => rfl
  | @cons e e' _ _ he _ ih =>
    obtain ⟨i, e⟩ := e
    obtain ⟨_, e'⟩ := e'
    obtain ⟨rfl, hs⟩ := he
    rw [List.map_cons, List.map_cons, hf _ e e' hs, ih]

namespace Task.Alike

variable {X : Task σ → Task σ → Prop} {R R' : Outcome → Outcome → Prop} {q q' : Task σ}

/-- **One thing after another.** -/
theorem andThen {k k' : Outcome → Task σ} (h : Alike X p n R q q')
    (hk : ∀ o o', R o o' → Alike X p n R' (k o) (k' o')) :
    Alike X p n R' (q.andThen k) (q'.andThen k') := by
  induction h with
  | foreign hX _ ih =>
    rw [Process.andThen_assoc, Process.andThen_assoc]
    exact .foreign hX fun o o' ho => ih o o' ho hk
  | done h => exact hk _ _ h
  | crash c => exact .crash c
  | act deed _ ih => exact .act deed fun w => ih w hk
  | sleep ms hv _ ih => exact .sleep ms hv (ih hk)
  | timed ms hb _ _ _ ihdone ihcut =>
    exact .timed ms hb (fun o o' ho => ihdone o o' ho hk) fun v v' hv => ihcut v v' hv hk
  | gather limit hv hlen hops hS hstops _ _ ih =>
    exact .gather limit hv hlen hops hS hstops fun s s' hs => ih s s' hs hk
  | race hv hlen hops hS hwins _ _ ih =>
    exact .race hv hlen hops hS hwins fun s s' hs => ih s s' hs hk

/-- What is left to others is alike by itself. -/
theorem of_foreign (hX : X q q') : Alike X p n (Outcome.Inside p n) q q' := by
  have h : Alike X p n (Outcome.Inside p n) (q.andThen .done) (q'.andThen .done) :=
    .foreign hX fun o o' ho => .done ho
  rwa [Process.andThen_done, Process.andThen_done] at h

/-- Others who do alike can be counted in. -/
theorem closed (h : Alike X p n R q q')
    (hX : ∀ r r', X r r' → Alike (fun _ _ => False) p n (Outcome.Inside p n) r r') :
    Alike (fun _ _ => False) p n R q q' := by
  induction h with
  | foreign hr _ ih => exact (hX _ _ hr).andThen ih
  | done h => exact .done h
  | crash c => exact .crash c
  | act deed _ ih => exact .act deed ih
  | sleep ms hv _ ih => exact .sleep ms hv ih
  | timed ms _ _ _ ihb ihdone ihcut => exact .timed ms ihb ihdone ihcut
  | gather limit hv hlen _ hS hstops _ ihops ih =>
    exact .gather limit hv hlen ihops hS hstops ih
  | race hv hlen _ hS hwins _ ihops ih => exact .race hv hlen ihops hS hwins ih

/-- **Tasks that are alike have the same runs**, up to the hidden global, if they leave nothing to
others. -/
theorem reaches (h : Alike (fun _ _ => False) p n R q q') {t : List (Deed σ)}
    {e : Outcome ⊕ Variables} (ht : q.Reaches t e) :
    ∃ e', q'.Reaches t e' ∧ Sum.LiftRel R (Variables.Hides p n) e e' := by
  induction h generalizing t e with
  | foreign hX => exact hX.elim
  | @done _ o o' h =>
    obtain ⟨rfl, rfl⟩ := Process.reaches_done.mp ht
    exact ⟨.inl o', .done o', .inl h⟩
  | crash c => exact (Process.reaches_crash ht).elim
  | act deed _ ih =>
    obtain ⟨u, w, rfl, hu⟩ := Process.reaches_act.mp ht
    obtain ⟨e', he', hr⟩ := ih w hu
    exact ⟨e', .act w he', hr⟩
  | sleep ms hv _ ih =>
    cases ht with
    | asleep => exact ⟨_, .asleep, .inr hv⟩
    | slept ht =>
      obtain ⟨e', he', hr⟩ := ih ht
      exact ⟨e', .slept he', hr⟩
  | timed ms _ _ _ ihb ihdone ihcut =>
    cases ht with
    | limited ht =>
      obtain ⟨e', he', hr⟩ := ihb ht
      cases hr with
      | inr hv => exact ⟨_, .limited he', .inr hv⟩
    | timed hx hn =>
      obtain ⟨x', hx', hr⟩ := ihb hx
      cases hr with
      | inl ho =>
        obtain ⟨e', he', hr⟩ := ihdone _ _ ho hn
        exact ⟨e', .timed hx' he', hr⟩
      | inr hv =>
        obtain ⟨e', he', hr⟩ := ihcut _ _ hv hn
        exact ⟨e', .timed hx' he', hr⟩
  | gather limit hv _ _ _ _ _ _ ih =>
    cases ht with
    | gathering => exact ⟨_, .gathering, .inr hv⟩
    | gathered s ht =>
      obtain ⟨e', he', hr⟩ := ih s s (.refl s) ht
      exact ⟨e', .gathered s he', hr⟩
  | race hv _ _ _ _ _ _ ih =>
    cases ht with
    | racing => exact ⟨_, .racing, .inr hv⟩
    | raced s ht =>
      obtain ⟨e', he', hr⟩ := ih s s (.refl s) ht
      exact ⟨e', .raced s he', hr⟩

end Task.Alike

/-! ## Runners -/

/-- **A runner that does not look at a hidden global** makes tasks that are alike. -/
def Runner.Blind (X : Task σ → Task σ → Prop) (p : String) (n : Nat) (r : Runner σ) : Prop :=
  ∀ a b, Variables.Inside p n a b → Task.Alike X p n (Outcome.Inside p n) (r a) (r b)

namespace Runner.Blind

variable {X : Task σ → Task σ → Prop} {engine : Engine σ} {r : Runner σ}

theorem done (result : Except Failure Flow) (attempts : Nat) :
    Blind X p n fun vars => .done ⟨result, vars, attempts⟩ :=
  fun _ _ h => .done ⟨⟨rfl, rfl⟩, h⟩

theorem yield (v : Value) : Blind X p n (.yield v) := done _ _

theorem fail (f : Failure) : Blind X p n (.fail f) := done _ _

/-- What is computed is the same. -/
theorem compute {α : Type} {f : Variables → Except Halt α} {k : α → Runner σ}
    (hf : ∀ a b, Variables.Inside p n a b → f b = f a) (hk : ∀ x, Blind X p n (k x)) :
    Blind X p n (.compute f k) := by
  intro a b h
  unfold Runner.compute
  rw [hf a b h]
  split
  · exact hk _ a b h
  · exact fail _ a b h
  · exact .crash _

theorem changing {f : Variables → Variables}
    (hf : ∀ a b, Variables.Inside p n a b → Variables.Inside p n (f a) (f b))
    (hr : Blind X p n r) : Blind X p n (.changing f r) :=
  fun a b h => hr _ _ (hf a b h)

theorem doing (deed : Deed σ) (hr : Blind X p n r) : Blind X p n (.doing deed r) :=
  fun a b h => .act deed fun _ => hr a b h

/-- Going on from an outcome, by its result. -/
theorem andThen {k k' : Outcome → Task σ} {q q' : Task σ}
    {R : Outcome → Outcome → Prop}
    (h : Task.Alike X p n (Outcome.Inside p n) q q')
    (hk : ∀ result a b attempts, Variables.Inside p n a b →
      Task.Alike X p n R (k ⟨result, a, attempts⟩) (k' ⟨result, b, attempts⟩)) :
    Task.Alike X p n R (Process.andThen q k) (Process.andThen q' k') := by
  refine h.andThen fun o o' ho => ?_
  obtain ⟨result, a, attempts⟩ := o
  obtain ⟨_, b, _⟩ := o'
  obtain ⟨⟨rfl, rfl⟩, hv⟩ := ho
  exact hk _ a b _ hv

theorem onValue {k : Value → Runner σ} (hr : Blind X p n r) (hk : ∀ v, Blind X p n (k v)) :
    Blind X p n (r.onValue k) := by
  refine fun a b h => andThen (hr a b h) fun result a b attempts h => ?_
  obtain _ | (v | _) := result
  · exact done _ _ a b h
  · exact hk v a b h
  · exact done _ _ a b h

theorem inOrderFrom {rs : List (Nat → Runner σ)} (hr : ∀ r ∈ rs, ∀ i, Blind X p n (r i))
    (index : Nat) (last : Value) : Blind X p n (.inOrderFrom index last rs) := by
  induction rs generalizing index last with
  | nil => exact yield last
  | cons r rest ih =>
    refine fun a b h => andThen (hr r List.mem_cons_self index a b h)
      fun result a b attempts h => ?_
    obtain _ | (v | _) := result
    · exact done _ _ a b h
    · exact ih (fun r hm => hr r (List.mem_cons_of_mem _ hm)) (index + 1) v a b h
    · exact done _ _ a b h

/-! ### Loops -/

theorem resolve_eq {a b : Variables} (h : Variables.Inside p n a b) (v : Value) :
    engine.resolve v b = engine.resolve v a := by
  unfold Engine.resolve Engine.scope
  rw [h.scope_eq]

theorem test_eq {a b : Variables} (h : Variables.Inside p n a b) (condition : Condition) :
    engine.test condition b = engine.test condition a := by
  unfold Engine.test Engine.scope
  rw [h.scope_eq]

theorem elements_eq {a b : Variables} (h : Variables.Inside p n a b) (source : Value) :
    Runner.elements engine source b = Runner.elements engine source a := by
  unfold Runner.elements Engine.scope
  simp only [resolve_eq h, h.scope_eq]

theorem bindPass (iteration : Iteration) (index : Nat) (item : Value) {a b : Variables}
    (h : Variables.Inside p n a b) : Variables.Inside p n
      (Runner.bindPass iteration index item a) (Runner.bindPass iteration index item b) := by
  unfold Runner.bindPass
  split
  · exact (h.bind _ _).bind _ _
  · exact h.bind _ _

theorem passes {iteration : Iteration} {finish : List Value → Value}
    {pass : Value → (List Value → Runner σ) → Runner σ}
    (hpass : ∀ item next, (∀ vs, Blind X p n (next vs)) → Blind X p n (pass item next))
    (index : Nat) (made items : List Value) :
    Blind X p n (.passes iteration finish pass index made items) := by
  induction items generalizing index made with
  | nil => exact yield _
  | cons item rest ih =>
    exact changing (fun a b h => bindPass iteration index item h)
      (hpass item _ fun vs => ih (index + 1) _)

theorem forEach (iteration : Iteration) (hr : Blind X p n r) :
    Blind X p n (.forEach engine iteration r) :=
  compute (fun _ _ h => elements_eq h _) fun _ =>
    passes (fun _ _ hnext => onValue hr fun _ => hnext []) 0 [] _

theorem mapEach (iteration : Iteration) {body : Option (Runner σ)} (expression : Option Value)
    (hr : ∀ s ∈ body, Blind X p n s) : Blind X p n (.mapEach engine iteration body expression) := by
  refine compute (fun _ _ h => elements_eq h _) fun _ => passes (fun item next hnext => ?_) 0 [] _
  split
  · exact compute (fun _ _ h => resolve_eq h _) fun v => hnext [v]
  · exact onValue (hr _ rfl) fun v => hnext [v]
  · exact hnext [item]

theorem filterEach (iteration : Iteration) (condition : Condition) :
    Blind X p n (.filterEach engine iteration condition) :=
  compute (fun _ _ h => elements_eq h _) fun _ =>
    passes (fun _ _ hnext => compute (fun _ _ h => test_eq h _) fun _ => hnext _) 0 [] _

theorem whileFrom (condition : Condition) (limit left : Nat) (hr : Blind X p n r) :
    Blind X p n (.whileFrom engine condition r limit left) := by
  induction left with
  | zero =>
    refine compute (fun _ _ h => test_eq h _) fun holds => ?_
    split
    · exact fail _
    · exact yield _
  | succ left ih =>
    refine compute (fun _ _ h => test_eq h _) fun holds => ?_
    split
    · exact onValue hr fun _ => ih
    · exact yield _

theorem repeatFrom (index iteration : String) (times left : Nat) (hr : Blind X p n r) :
    Blind X p n (.repeatFrom index iteration r times left) := by
  induction left with
  | zero => exact yield _
  | succ left ih =>
    have hrest : Blind X p n (r.onValue fun _ => .repeatFrom index iteration r times left) :=
      onValue hr fun _ => ih
    exact fun a b h => hrest _ _ ((h.bind _ _).bind _ _)

theorem repeatTimes (times : Value) (index iteration : String) (hr : Blind X p n r) :
    Blind X p n (.repeatTimes engine times index iteration r) := by
  refine compute (fun a b h => ?_) fun k => repeatFrom index iteration k k hr
  unfold Runner.timesOf Engine.scope
  rw [h.scope_eq]

/-! ### Blocks -/

/-- An operation that is cut off in a call leaves that call. -/
theorem operation (timeout : Nat) (hr : Blind X p n r) : Blind X p n (.operation timeout r) := by
  refine fun a b h => .timed timeout (hr a b h) (fun o o' ho => ?_) fun v v' hv => ?_
  · refine .done ⟨⟨?_, ho.attempts⟩, ho.vars⟩
    show o'.result.map _ = o.result.map _
    rw [ho.result]
  · rw [h.depth_eq, h.depth_left]
    exact fail _ _ _ hv.leaveTo

theorem forall_operation (timeout : Nat) {rs : List (Runner σ)} (hr : ∀ r ∈ rs, Blind X p n r) :
    ∀ r ∈ rs.map (Runner.operation timeout), Blind X p n r := by
  intro r hm
  obtain ⟨s, hs, rfl⟩ := List.mem_map.mp hm
  exact operation timeout (hr s hs)

/-- The operations of a block, one by one. -/
theorem operations {rs : List (Runner σ)} (hr : ∀ r ∈ rs, Blind X p n r) {a b : Variables}
    (h : Variables.Inside p n a b) (i : Nat) (op op' : Task σ)
    (hop : (rs.map fun r => r a)[i]? = some op) (hop' : (rs.map fun r => r b)[i]? = some op') :
    Task.Alike X p n (Outcome.Inside p n) op op' := by
  rw [List.getElem?_map] at hop hop'
  obtain ⟨r, hi, rfl⟩ := Option.map_eq_some_iff.mp hop
  obtain ⟨_, hi', rfl⟩ := Option.map_eq_some_iff.mp hop'
  cases hi.symm.trans hi'
  exact hr r (List.mem_of_getElem? hi) a b h

/-- What is recorded of operations is the same. -/
theorem ofSettled_eq {s s' : Settled Outcome Crash} (h : Settled.Same s s') (base : Nat) :
    OperationResult.ofSettled base s' = OperationResult.ofSettled base s := by
  refine h.map_eq fun i e e' he => ?_
  cases he with
  | finished ho =>
    dsimp only [OperationResult.ofSettlement]
    rw [ho.result, ho.attempts]
  | crashed => rfl

theorem failed_eq {o o' : Outcome} (h : o.Same o') : o'.failed = o.failed := by
  unfold Outcome.failed
  rw [h.result]

/-- What the stopwatch shows has nothing to do with the variables. -/
theorem summarize (results : List OperationResult) :
    Blind X p n (.summarize engine results) :=
  fun a b h => .act _ fun _ => yield _ a b h

theorem conclude (failFast : Bool) (results : List OperationResult) :
    Blind X p n (.conclude engine failFast results) := by
  unfold Runner.conclude
  split
  · exact fail _
  · exact summarize _

theorem parallel (settings : BlockSettings) {rs : List (Runner σ)} (hr : ∀ r ∈ rs, Blind X p n r) :
    Blind X p n (.parallel engine settings rs) := by
  refine fun a b h => .gather _ h.hides (by simp) (operations (forall_operation _ hr) h)
    (fun _ _ ho => ho.toSame) (fun _ _ ho => ?_) fun s s' hs => ?_
  · rw [failed_eq ho]
  · rw [ofSettled_eq hs]
    exact conclude _ _ a b h

theorem countable (settings : BlockSettings) (hr : Blind X p n r) :
    Blind X p n (.countable engine settings r) :=
  compute (fun _ _ _ => rfl) fun _ => hr

theorem parallelForEach (settings : BlockSettings) (iteration : Iteration) (hr : Blind X p n r) :
    Blind X p n (.parallelForEach engine settings iteration r) := by
  refine compute (fun _ _ h => elements_eq h _) fun items => parallel settings fun s hs => ?_
  obtain ⟨⟨item, index⟩, -, rfl⟩ := List.mem_map.mp hs
  exact changing (fun a b h => bindPass iteration index item h) hr

/-- A race is won with the same value. -/
theorem winning_eq {s s' : Settled Outcome Crash} (h : Settled.Same s s') :
    (s'.findSome? fun e => Runner.winning? e.2) = s.findSome? fun e => Runner.winning? e.2 := by
  have hmap : (s'.map fun e => Runner.winning? e.2) = s.map fun e => Runner.winning? e.2 := by
    refine h.map_eq fun i e e' he => ?_
    cases he with
    | finished ho =>
      dsimp only [Runner.winning?]
      rw [ho.result]
    | crashed => rfl
  have hsome := congrArg (List.findSome? id) hmap
  rwa [List.findSome?_map, List.findSome?_map] at hsome

/-- It is lost in the same way. -/
theorem raceFailure_eq {s s' : Settled Outcome Crash} (h : Settled.Same s s') :
    s'.map Runner.raceFailure = s.map Runner.raceFailure := by
  refine h.map_eq fun i e e' he => ?_
  cases he with
  | finished ho =>
    dsimp only [Runner.raceFailure]
    rw [ho.result]
  | crashed => rfl

theorem race (timeout : Option Nat) {rs : List (Runner σ)} (hr : ∀ r ∈ rs, Blind X p n r) :
    Blind X p n (.race engine timeout rs) := by
  intro a b h
  unfold Runner.race
  dsimp only
  generalize timeout.getD engine.settings.raceTimeout = limit
  refine .race h.hides (by simp) (fun i op op' hop hop' => ?_)
    (fun _ _ (ho : Outcome.Inside p n _ _) => ho.toSame) (fun _ _ ho => ?_) fun s s' hs => ?_
  · refine operations (forall_operation limit hr) h i op op' ?_ ?_
    · rw [List.map_map]
      exact hop
    · rw [List.map_map]
      exact hop'
  · rw [failed_eq ho]
  · rw [winning_eq hs, raceFailure_eq hs]
    split
    · exact yield _ a b h
    · exact fail _ a b h

theorem retrying (timeout attempt pause retries : Nat) (hr : Blind X p n r) :
    Blind X p n (.retrying timeout r attempt pause retries) := by
  induction retries generalizing attempt pause with
  | zero =>
    exact fun a b h => andThen (operation timeout hr a b h) fun result a b _ h => done _ _ a b h
  | succ retries ih =>
    refine fun a b h => andThen (operation timeout hr a b h) fun result a b attempts h => ?_
    show Task.Alike _ _ _ _ (if Outcome.failed ⟨result, a, attempts⟩ then _ else _)
      (if Outcome.failed ⟨result, a, attempts⟩ then _ else _)
    split
    · exact .sleep _ h.hides (ih _ _ a b h)
    · exact done _ _ a b h

theorem chunksFrom (delay : Nat) {chunks : List (List (Runner σ))}
    (hr : ∀ chunk ∈ chunks, ∀ r ∈ chunk, Blind X p n r) (results : List (List OperationResult))
    (base : Nat) : Blind X p n (.chunksFrom engine delay results base chunks) := by
  induction chunks generalizing results base with
  | nil => exact summarize _
  | cons chunk rest ih =>
    have hbody : ∀ a b, Variables.Inside p n a b →
        Task.Alike X p n (Outcome.Inside p n)
          (.gather chunk.length (fun _ => false) (chunk.map fun r => r a) a fun settled =>
            Runner.chunksFrom engine delay (OperationResult.ofSettled base settled :: results)
              (base + chunk.length) rest a)
          (.gather chunk.length (fun _ => false) (chunk.map fun r => r b) b fun settled =>
            Runner.chunksFrom engine delay (OperationResult.ofSettled base settled :: results)
              (base + chunk.length) rest b) := by
      refine fun a b h => .gather _ h.hides (by simp)
        (operations (hr chunk List.mem_cons_self) h) (fun _ _ ho => ho.toSame) (fun _ _ _ => rfl)
        fun s s' hs => ?_
      rw [ofSettled_eq hs]
      exact ih (fun c hc => hr c (List.mem_cons_of_mem _ hc)) _ _ a b h
    intro a b h
    unfold Runner.chunksFrom
    split
    · exact hbody a b h
    · exact .sleep _ h.hides (hbody a b h)

theorem batch (settings : BatchSettings) {rs : List (Runner σ)} (hr : ∀ r ∈ rs, Blind X p n r) :
    Blind X p n (.batch engine settings rs) := by
  refine chunksFrom _ (fun chunk hc r hm => ?_) [] 0
  obtain ⟨s, hs, rfl⟩ := List.mem_map.mp (Runner.chunk_subset hc hm)
  exact retrying _ _ _ _ (hr s hs)

/-! ### Actions and steps -/

/-- Runs `r` behind an outcome, and goes on with that. -/
theorem restoring (result : Except Failure Flow) (attempts : Nat) (hr : Blind X p n r)
    {a b : Variables} (h : Variables.Inside p n a b) :
    Task.Alike X p n (Outcome.Inside p n)
      (Runner.restoring ⟨result, a, attempts⟩ r) (Runner.restoring ⟨result, b, attempts⟩ r) := by
  refine andThen (hr a b h) fun last a b _ h => ?_
  obtain _ | (v | _) := last
  · exact done _ _ a b h
  · exact done _ _ a b h
  · exact done _ _ a b h

theorem caught {c : Option (Runner σ)} (binding : String) (hr : Blind X p n r)
    (hc : ∀ s ∈ c, Blind X p n s) : Blind X p n (.caught r c binding) := by
  refine fun a b h => andThen (hr a b h) fun result a b attempts h => ?_
  obtain f | _ := result
  · cases c with
    | none => exact done _ _ a b h
    | some s => exact hc s rfl _ _ (h.bind _ _)
  · exact done _ _ a b h

theorem catching {c f : Option (Runner σ)} (binding : String) (hr : Blind X p n r)
    (hc : ∀ s ∈ c, Blind X p n s) (hf : ∀ s ∈ f, Blind X p n s) :
    Blind X p n (.catching r c f binding) := by
  unfold Runner.catching
  split
  · exact fun a b h => andThen (caught binding hr hc a b h) fun result a b attempts h =>
      restoring result attempts (hf _ rfl) h
  · exact caught binding hr hc

theorem sampling (name : String) (v : Value) : Blind X p n (.sampling engine name v) := by
  refine compute (fun _ _ h => resolve_eq h _) fun w => ?_
  split
  · exact doing _ (yield _)
  · exact fail _

theorem timing (name : String) (hr : Blind X p n r) : Blind X p n (.timing engine name r) :=
  fun a b h => andThen (hr a b h) fun _ a b _ h => .act _ fun _ => done _ _ a b h

theorem assignFrom (target : Target) (last : Value) (values : List (String × Value)) :
    Blind X p n (.assignFrom engine target last values) := by
  induction values generalizing last with
  | nil => exact yield last
  | cons entry rest ih =>
    refine compute (fun _ _ h => resolve_eq h _) fun v => changing (fun a b h => ?_) (ih v)
    cases target with
    | globals => exact h.setGlobal _ _
    | locals => exact h.bind _ _

/-- What is done about an action is left to the handlers. -/
theorem perform (hX : ∀ request a b, Variables.Inside p n a b →
      X ((engine.handler.handle request a).task a) ((engine.handler.handle request b).task b))
    (keys : List String) (name : String) (params : Value) (options : Named Value) :
    Blind X p n (.perform engine keys name params options) := by
  unfold Runner.perform
  split
  · refine compute (fun a b h => ?_) fun request a b h => .of_foreign (hX request a b h)
    unfold Engine.scope
    rw [resolve_eq h, h.scope_eq]
  · exact fail _

theorem bindReturns (returns : Option String) (result : Except Failure Flow) (attempts : Nat)
    {a b : Variables} (h : Variables.Inside p n a b) : Variables.Inside p n
      (Runner.bindReturns returns ⟨result, a, attempts⟩)
      (Runner.bindReturns returns ⟨result, b, attempts⟩) := by
  obtain _ | (v | _) := result
  · exact h
  · cases returns with
    | none => exact h
    | some name => exact h.bind name v
  · exact h

theorem observed (step : Step) (index : Nat) (hr : Blind X p n r) :
    Blind X p n (.observed engine step index r) := by
  intro a b h
  unfold Runner.observed
  dsimp only
  rw [h.depth_eq]
  refine .act _ fun _ => andThen (hr a b h) fun result a b attempts h => .act _ fun _ => ?_
  have hvars := bindReturns step.returns result attempts h
  show Task.Alike _ _ _ _
    (if Outcome.failed ⟨result, a, attempts⟩ && step.continueOnError then _ else _)
    (if Outcome.failed ⟨result, a, attempts⟩ && step.continueOnError then _ else _)
  split
  · exact yield .null _ _ hvars
  · exact done result attempts _ _ hvars

end Runner.Blind

/-- **What the steps of a call leave to others**: the calls that they make, and the actions that
they ask the handlers for. -/
inductive Engine.Foreign (engine : Engine σ) (call : Calls σ) (p : String) (n : Nat) :
    Task σ → Task σ → Prop
  | call (name : String) (args : List Value) {a b : Variables} (h : Variables.Inside p n a b) :
    Foreign engine call p n (call name args a) (call name args b)
  | action (request : ActionCall) {a b : Variables} (h : Variables.Inside p n a b) :
    Foreign engine call p n ((engine.handler.handle request a).task a)
      ((engine.handler.handle request b).task b)

namespace Runner.Blind

variable {engine : Engine σ} {call : Calls σ}

/-- **Every construct keeps to what it can see.** -/
theorem constructs : Constructs engine call (fun _ => Blind (engine.Foreign call p n) p n)
    (Blind (engine.Foreign call p n) p n) Action.Any where
  keyword name args _ := compute (fun a b h => by
    unfold Engine.scope
    rw [h.scope_eq]) fun values _ _ h => .of_foreign (.call name values h)
  ifElse _ _ _ _ _ hr hs := compute (fun _ _ h => test_eq h _) fun holds => by
    cases holds
    · exact hs
    · exact hr
  forEach iteration _ _ hr := forEach iteration hr
  map iteration _ expression _ hr := mapEach iteration expression hr
  filter := filterEach
  while_ condition _ _ limit _ hr := whileFrom condition limit limit hr
  repeat_ times _ index iteration _ hr := repeatTimes times index iteration hr
  parallel _ settings _ hr := countable settings (parallel settings hr)
  race _ timeout _ hr := race timeout hr
  batch _ settings _ hr := batch settings hr
  parallelForEach iteration _ settings _ hr := compute (fun _ _ h => elements_eq h _) fun _ =>
    countable settings (parallelForEach settings iteration hr)
  try_ _ _ _ binding _ _ _ hr hc hf := catching binding hr hc fun s hs => (hf s hs).1
  assign target values := assignFrom target .null values
  return_ v := compute (fun _ _ h => resolve_eq h _) fun _ => done _ _
  sampling name _ v := sampling name v
  timing name _ _ hr := timing name hr
  domain keys name params options := perform (fun request _ _ h => .action request h) keys name
    params options
  step step index _ _ hr := observed step index hr
  list _ hr := inOrderFrom hr 1 .null

/-- **The steps of a call do not look at a hidden global.** -/
theorem listRunner (steps : List Step) :
    Blind (engine.Foreign call p n) p n (Step.listRunner engine call steps) :=
  constructs.listRunner steps

end Runner.Blind

/-! ## Calls -/

/-- Outcomes that are the same, with variables that differ in the global of one name only. -/
structure Outcome.Beside (p : String) (o o' : Outcome) : Prop extends o.Same o' where
  vars : Variables.Beside p o.vars o'.vars

/-- **A call does not look at a global that a parameter hides**, if its steps do not. -/
theorem Runner.alike_calling {X : Task σ → Task σ → Prop} {engine : Engine σ} {keyword : Keyword}
    (hp : p ∈ keyword.params) (name : String) (args : List Value) {steps : Runner σ}
    {a b : Variables} (h : Variables.Beside p a b) (hs : Runner.Blind X p a.depth steps) :
    Task.Alike X p a.depth (Outcome.Beside p) (Runner.calling engine keyword name args steps a)
      (Runner.calling engine keyword name args steps b) := by
  refine Runner.Blind.andThen (hs _ _ (h.enter hp args)) fun result a b attempts h => ?_
  obtain f | (_ | v) := result
  · exact .done ⟨⟨rfl, rfl⟩, h.leave⟩
  · unfold Runner.returning Runner.compute Engine.scope
    dsimp only
    rw [h.scope_eq]
    split
    · exact .done ⟨⟨rfl, rfl⟩, h.leave⟩
    · exact .done ⟨⟨rfl, rfl⟩, h.leave⟩
    · exact .crash _
  · exact .done ⟨⟨rfl, rfl⟩, h.leave⟩

/-- A handler that goes about actions in the same way whatever a hidden global is. -/
def Handler.Blind (p : String) (n : Nat) (handler : Handler σ) : Prop :=
  ∀ request a b, Variables.Inside p n a b → handler.handle request b = handler.handle request a

/-- The standard actions look at the scope only. -/
theorem Handler.blind_standard (ambient : Ambient) :
    (Handler.standard ambient : Handler σ).Blind p n := by
  intro request a b h
  unfold standard
  dsimp only
  rw [h.scope_eq]

/-- What a handler makes of an action that it goes about in the same way. -/
theorem Handling.alike_task (X : Task σ → Task σ → Prop) (handling : Handling σ) {a b : Variables}
    (h : Variables.Inside p n a b) :
    Task.Alike X p n (Outcome.Inside p n) (handling.task a) (handling.task b) := by
  induction handling with
  | answer result =>
    cases result with
    | ok v => exact .done ⟨⟨rfl, rfl⟩, h⟩
    | error e => exact .done ⟨⟨rfl, rfl⟩, h⟩
  | crash c => exact .crash c
  | act update next ih => exact .act _ fun w => ih w.own
  | sleep ms next ih => exact .sleep ms h.hides ih

/-- **Nothing is seen of the hidden global** if neither the handlers nor the calls look at it. -/
theorem Task.Alike.of_blind {engine : Engine σ} {call : Calls σ} {R : Outcome → Outcome → Prop}
    {q q' : Task σ} (h : Task.Alike (engine.Foreign call p n) p n R q q')
    (hh : engine.handler.Blind p n)
    (hcall : ∀ name args, Runner.Blind (fun _ _ => False) p n (call name args)) :
    Task.Alike (fun _ _ => False) p n R q q' := by
  refine h.closed fun r r' hr => ?_
  cases hr with
  | call name args h => exact hcall name args _ _ h
  | action request h =>
    rw [hh request _ _ h]
    exact Handling.alike_task _ _ h

/-- **The arguments of a call are bound to its parameters.** The frame of the call has the
parameters of its keyword, each once, and nothing else. A parameter is bound to what it gets from
the arguments, and that is what its name leads to when the steps begin. A global of the name of a
parameter is hidden, also where there is no argument: with another such global, or none, the call is
alike in all that its steps do by themselves, and nothing is different as long as the calls that
they make and the actions that they ask for come to the same. If these do not look at the global
either, then every run of the call is one of the other, with the same deeds and the same end. -/
theorem Keyword.arguments_bound (keyword : Keyword) (args : List Value) :
    (keyword.bindArguments args).names.Nodup
      ∧ (∀ x, x ∈ (keyword.bindArguments args).names ↔ x ∈ keyword.params)
      ∧ ∀ p ∈ keyword.params,
        (∀ v, (keyword.bindArguments args).lookup p = some v ↔ Gets keyword.params args p v)
        ∧ (∀ v, Gets keyword.params args p v → ∀ ambient (vars : Variables) segments,
          ((vars.enter (keyword.bindArguments args)).scope ambient).find? ⟨p, segments⟩
            = v.at? segments)
        ∧ ∀ (σ : Type) (engine : Engine σ) (call : Calls σ) (name : String) (a b : Variables),
          Variables.Beside p a b →
          let called := Runner.calling engine keyword name args
            (Step.listRunner engine call keyword.steps)
          Task.Alike (engine.Foreign call p a.depth) p a.depth (Outcome.Beside p) (called a)
            (called b)
          ∧ (engine.handler.Blind p a.depth →
            (∀ name args, Runner.Blind (fun _ _ => False) p a.depth (call name args)) →
            ∀ t e, (called a).Reaches t e → ∃ e', (called b).Reaches t e'
              ∧ Sum.LiftRel (Outcome.Beside p) (Variables.Hides p a.depth) e e') := by
  obtain ⟨hnodup, hnames, hgets⟩ := keyword.bindArguments_spec args
  refine ⟨hnodup, hnames, fun p hp => ⟨hgets p hp, fun v hv ambient vars segments => ?_, ?_⟩⟩
  · have hget : (vars.enter (keyword.bindArguments args)).get? p = some v := by
      unfold Variables.get? Variables.enter
      dsimp only [List.headD_cons]
      rw [(hgets p hp v).mpr hv]
    unfold Variables.scope
    dsimp only
    rw [hget]
  · intro σ engine call name a b h called
    have halike : Task.Alike (engine.Foreign call p a.depth) p a.depth (Outcome.Beside p) (called a)
        (called b) := Runner.alike_calling hp name args h (.listRunner keyword.steps)
    exact ⟨halike, fun hh hcall t e ht => (halike.of_blind hh hcall).reaches ht⟩

/-- A name that is declared twice, a parameter without an argument, and a global of its name. -/
theorem Keyword.arguments_bound_repeated :
    let reads : Step := .mk (.return_ (.text "\x7b\x7bb\x7d\x7d")) none false none .null
    let keyword : Keyword := ⟨"k", ["a", "a", "b"], [reads], none, none⟩
    let args : List Value := [.bool true, .bool false]
    let engine : Engine Unit :=
      ⟨.default, .standard ⟨0, "", "", fun _ => none⟩, ⟨0, "", "", fun _ => none⟩⟩
    let call : Calls Unit := fun name _ => .fail (.unknownKeyword name)
    let called := Runner.calling engine keyword "k" args (Step.listRunner engine call keyword.steps)
    let vars : Variables := ⟨[("b", .text "global")], []⟩
    (keyword.bindArguments args).lookup "a" = some (.bool false)
      ∧ (keyword.bindArguments args).lookup "b" = some .null
      ∧ ∀ t e, (called vars).Reaches t e → ∃ e', (called .empty).Reaches t e'
        ∧ Sum.LiftRel (Outcome.Beside "b") (Variables.Hides "b" 0) e e' := by
  intro reads keyword args engine call called vars
  obtain ⟨-, -, h⟩ := keyword.arguments_bound args
  have hargs : ∀ fields, args ≠ [.record fields] := fun _ he => nomatch (List.cons.inj he).2
  have ha : Gets keyword.params args "a" (.bool false) := by
    refine @Gets.position _ _ _ 1 _ hargs rfl rfl fun j hj hp => ?_
    obtain _ | _ | j := j
    · cases hj
    · exact absurd hj (Nat.lt_irrefl 1)
    · rfl
  have hb : Gets keyword.params args "b" .null := by
    refine .noPosition hargs fun i hi => ?_
    obtain _ | _ | i := i
    · exact absurd (Option.some.inj hi) (by decide)
    · exact absurd (Option.some.inj hi) (by decide)
    · rfl
  obtain ⟨hbound, -, hcall⟩ := h "b" (by decide)
  have hbeside : Variables.Beside "b" vars .empty := ⟨rfl, fun x hx => by
    show none = List.lookup x [("b", Value.text "global")]
    rw [List.lookup_cons, beq_eq_false_iff_ne.mpr hx]
    rfl⟩
  exact ⟨((h "a" (by decide)).1 _).mpr ha, (hbound _).mpr hb,
    (hcall Unit engine call "k" vars .empty hbeside).2 (Handler.blind_standard _)
      fun name _ => .fail _⟩

end Playbook
