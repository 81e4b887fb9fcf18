import Playbook.Proofs.Run.Finally
import Playbook.Proofs.Run.Returns
import Playbook.Proofs.Value.Fields

/-!
# What loops run over

A loop over elements and a loop that counts settle what they run over before their first pass, by
the variables that they find (`Loop.Plan`). From there on the plan is not looked at again in the
variables: each pass has its part of it, and what a pass does to the collection, to the count or to
the variables of the loop reaches the next pass as variables that are left, and no further.

So a loop that is not ended early is a chain of passes, one for each round of its plan, and its
value is made of theirs (`Loop.Chain`). All four loops are the same here. They differ in what a pass
does, which is a list of steps for one, an expression for another (`Loop.Body`), and in what is made
of the values in the end. `Engine.loop_follows_plan` says that the runs of such a loop are these and
no others.
-/

namespace Playbook

variable {σ : Type}

/-! ## Variables that are bound one after the other -/

namespace Variables

end Variables

namespace Runner

variable {α : Type}

theorem compute_of_ok {f : Variables → Except Halt α} {k : α → Runner σ} {here : Variables} {a : α}
    (h : f here = .ok a) : compute f k here = k a here := by
  rw [compute, h]

end Runner

namespace Loop

/-! ## Plans -/

/-- **What a pass of a loop does**: it runs steps, it resolves an expression, it gives a value that
is there, or it tests a condition. -/
inductive Body where
  | steps (body : List Step)
  | resolving (expression : Value)
  | giving (v : Value)
  | testing (condition : Condition)

/-- What a pass does, where lists of steps are run by `run`. The value of a test is a boolean. -/
def Body.runner (engine : Engine σ) (run : List Step → Runner σ) : Body → Runner σ
  | steps body => run body
  | resolving expression => .compute (engine.resolve expression) .yield
  | giving v => .yield v
  | testing condition => .compute (engine.test condition) fun holds => .yield (.bool holds)

/-- **A round of a loop**: what is bound when it begins, and what is done then. -/
structure Round where
  bindings : List (String × Value)
  body : Body

/-- The elements of a collection. Those of a record are its entries, each as a record with a key and
a value. -/
inductive Elements : Value → List Value → Prop
  | list (items : List Value) : Elements (.list items) items
  | record (fields : Named Value) : Elements (.record fields)
      (fields.map fun field => .record [("key", .text field.1), ("value", field.2)])

/-- What a loop over elements binds for an element and its position. -/
def bindings (iteration : Iteration) (index : Nat) (item : Value) : List (String × Value) :=
  (iteration.item, item) :: (iteration.index.map fun name => (name, .nat index)).toList

/-- The elements at which a condition was found to hold. -/
def kept (items found : List Value) : List Value :=
  ((items.zip found).filter fun pair => pair.2.bool? == some true).map Prod.fst

end Loop

/-- **The source of a loop over elements.** A text that is a path names a variable, which must be
set. -/
def Engine.sourceOf (engine : Engine σ) (source : Value) (vars : Variables) : Except Halt Value :=
  match source with
  | .text name =>
    if Path.isPath name then
      match (engine.scope vars).lookup? name with
      | some v => .ok v
      | none => .error (.failure (.invalidAction (.sourceUnset name)))
    else engine.resolve source vars
  | _ => engine.resolve source vars

namespace Loop

/-- **A pass of a loop that is not ended by it**: the variables that it begins with, what it does,
its value, and the variables that it leaves. -/
structure Pass (σ : Type) where
  begun : Variables
  deeds : List (Deed σ)
  value : Value
  left : Variables

/-- A pass that does what a runner does. -/
def Pass.Of (r : Runner σ) (p : Pass σ) : Prop :=
  ∃ attempts, (r p.begun).Runs p.deeds (.done ⟨.ok (.continue p.value), p.left, attempts⟩)

/-- A pass that does nothing but compute its value does nothing else. -/
theorem Pass.left_of_compute {α : Type} {f : Variables → Except Halt α} {g : α → Value} {p : Pass σ}
    (h : p.Of (.compute f fun a => .yield (g a))) : p.left = p.begun := by
  obtain ⟨begun, deeds, value, left⟩ := p
  obtain ⟨attempts, h⟩ := h
  unfold Runner.compute at h
  split at h
  · cases (Process.runs_done.mp h).2
    rfl
  · cases (Process.runs_done.mp h).2
  · cases (Process.runs_crash.mp h).2

/-- **A chain of passes**, one for each round. A pass begins with what the one before has left, and
with the bindings of its round. -/
inductive Chain (engine : Engine σ) (run : List Step → Runner σ) :
    List Round → Variables → List (Pass σ) → Variables → Prop
  | nil {here} : Chain engine run [] here [] here
  | cons {round rounds here p passes there}
    (hb : p.begun = here.bindAll round.bindings) (hp : p.Of (round.body.runner engine run))
    (hrest : Chain engine run rounds p.left passes there) :
    Chain engine run (round :: rounds) here (p :: passes) there

namespace Chain

variable {engine : Engine σ} {run run' : List Step → Runner σ} {round : Round}
  {rounds : List Round} {here there : Variables} {p : Pass σ} {passes : List (Pass σ)}

theorem nil_iff : Chain engine run [] here passes there ↔ passes = [] ∧ there = here := by
  constructor
  · rintro ⟨⟩
    exact ⟨rfl, rfl⟩
  · rintro ⟨rfl, rfl⟩
    exact .nil

theorem cons_iff : Chain engine run (round :: rounds) here passes there
    ↔ ∃ p rest, passes = p :: rest ∧ p.begun = here.bindAll round.bindings
      ∧ p.Of (round.body.runner engine run) ∧ Chain engine run rounds p.left rest there := by
  constructor
  · rintro (_ | ⟨hb, hp, hrest⟩)
    exact ⟨_, _, rfl, hb, hp, hrest⟩
  · rintro ⟨p, rest, rfl, hb, hp, hrest⟩
    exact .cons hb hp hrest

/-- There is one pass for each round. -/
theorem length_eq (h : Chain engine run rounds here passes there) :
    passes.length = rounds.length := by
  induction h with
  | nil => rfl
  | cons _ _ _ ih => exact congrArg (· + 1) ih

/-- Lists of steps may be run by anything that runs them alike where so many calls are under way,
and so many are in the end. -/
theorem congr {n : Nat}
    (hrun : ∀ steps (vars : Variables), vars.depth = n → run steps vars = run' steps vars
      ∧ ∀ t o, (run steps vars).Runs t (.done o) → o.vars.depth = n)
    (h : Chain engine run rounds here passes there) (hd : here.depth = n) :
    Chain engine run' rounds here passes there ∧ there.depth = n := by
  induction h with
  | nil => exact ⟨.nil, hd⟩
  | @cons round _ here p _ _ hb hp _ ih =>
    have hbegun : p.begun.depth = n := by
      rw [hb, Variables.depth_bindAll, hd]
    obtain ⟨bindings, body⟩ := round
    cases body with
    | steps body =>
      obtain ⟨attempts, hp⟩ := hp
      obtain ⟨heq, hleft⟩ := hrun body p.begun hbegun
      have hp : (run body p.begun).Runs p.deeds _ := hp
      obtain ⟨hrest, hthere⟩ := ih (hleft _ _ hp)
      refine ⟨.cons hb ⟨attempts, ?_⟩ hrest, hthere⟩
      show (run' body p.begun).Runs _ _
      rw [← heq]
      exact hp
    -- a pass without steps leaves what it begins with
    | resolving | testing =>
      have hleft : p.left = p.begun := Pass.left_of_compute hp
      obtain ⟨hrest, hthere⟩ := ih (hleft ▸ hbegun)
      exact ⟨.cons hb hp hrest, hthere⟩
    | giving v =>
      obtain ⟨begun, deeds, value, left⟩ := p
      obtain ⟨attempts, h⟩ := hp
      cases (Process.runs_done.mp h).2
      obtain ⟨hrest, hthere⟩ := ih hbegun
      exact ⟨.cons hb ⟨_, h⟩ hrest, hthere⟩

/-- **The steps of a loop are run like any others** where the loop stands. -/
theorem execute
    (h : Chain engine (Step.listRunner engine (engine.callsAt here)) rounds here passes there) :
    Chain engine engine.execute rounds here passes there ∧ there.depth = here.depth := by
  refine h.congr (fun steps vars hv =>
    ⟨Engine.listRunner_eq_execute hv steps, fun t o hr => ?_⟩) rfl
  rw [Engine.listRunner_eq_execute hv] at hr
  exact ((engine.tidy_execute steps vars).depth hr).trans hv

theorem execute_iff :
    Chain engine (Step.listRunner engine (engine.callsAt here)) rounds here passes there
      ↔ Chain engine engine.execute rounds here passes there := by
  refine ⟨fun h => h.execute.1, fun h => (h.congr (fun steps vars hv =>
    ⟨(Engine.listRunner_eq_execute hv steps).symm, fun t o hr => ?_⟩) rfl).1⟩
  exact ((engine.tidy_execute steps vars).depth hr).trans hv

end Chain

/-! ## Loops as passes one after the other -/

theorem elements_eq {engine : Engine σ} {source : Value} {here : Variables} {v : Value}
    {items : List Value} (hs : engine.sourceOf source here = .ok v) (hv : Elements v items) :
    Runner.elements engine source here = .ok items := by
  have hsource : Runner.elements engine source here
      = engine.sourceOf source here >>= Runner.elementsOf := by
    unfold Runner.elements Engine.sourceOf
    cases source with
    | text name =>
      dsimp only
      cases Path.isPath name with
      | true => cases (engine.scope here).lookup? name <;> rfl
      | false => rfl
    | _ => rfl
  rw [hsource, hs]
  cases hv with
  | list | record => rfl

end Loop

end Playbook
