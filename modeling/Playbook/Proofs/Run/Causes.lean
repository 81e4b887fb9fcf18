import Playbook.Proofs.Run.Finally
import Playbook.Proofs.Run.Returns

/-!
# The cause of a failure

On its way out a failure gets a place around it for each step, keyword call, data row and operation
of a block that it comes through. So every failure is its root cause with places around it
(`Failure.within_places`), and a place does nothing but put its label in front of the message.

The kind that a failure has by itself would be lost that way, since a place has none and only a
placeholder stands for it (`Failure.ownKind`). The kind that scenarios see is that of the root
cause, which is no place; so the placeholder is never seen.

A `catch` list is told the message of the root cause, its kind, and the message of the whole failure
as its trace. However deep the body is nested in which something fails, the trace is therefore made
of the labels of the places, from the outside to the inside, and of that same message
(`Failure.within_keeps_cause`).
-/

namespace Playbook

variable {σ : Type}

/-! ## Places -/

/-- **A place that a failure comes through**: a step of a list, a call of a keyword, a data row, or
an operation of a concurrent block. -/
inductive Place where
  | step (index : Nat)
  | keyword (name : String)
  | row (index : Nat)
  | operation (index : Nat)

namespace Place

/-- A failure with the place around it. -/
def around : Place → Failure → Failure
  | step index => .inStep index
  | keyword name => .inKeyword name
  | row index => .inRow index
  | operation index => .inOperation index

/-- What the place puts in front of a message. -/
def label : Place → String
  | step index => "step " ++ toString index ++ ": "
  | keyword name => "keyword '" ++ name ++ "': "
  | row index => "row " ++ toString index ++ ": "
  | operation index => "parallel operation " ++ toString index ++ " failed: "

/-- The labels of places, one behind the other. -/
def labels (places : List Place) : String :=
  String.join (places.map label)

variable (p : Place) (f : Failure)

theorem isPlace_around : (p.around f).isPlace = true := by
  cases p <;> rfl

theorem rootCause_around : (p.around f).rootCause = f.rootCause := by
  cases p <;> rfl

theorem message_around : (p.around f).message = p.label ++ f.message := by
  cases p <;> rfl

end Place

namespace Failure

/-- A failure with places around it, the outermost first. -/
def within (places : List Place) (f : Failure) : Failure :=
  places.foldr Place.around f

/-- The places around the root cause of a failure, the outermost first. -/
def places : Failure → List Place
  | inStep index cause => .step index :: cause.places
  | inKeyword name cause => .keyword name :: cause.places
  | inRow index cause => .row index :: cause.places
  | inOperation index cause => .operation index :: cause.places
  | _ => []

/-- **The kind that a failure has by itself**, without a look at what is inside of it. A place has
none, and a placeholder stands for it. -/
def ownKind : Failure → String
  | unknownAction _ => "UnknownActionError"
  | invalidAction _ => "InvalidActionError"
  | unknownKeyword _ => "UnknownKeywordError"
  | emptyKeyword _ => "InvalidKeywordError"
  | recursionLimit _ _ => "RecursionLimitError"
  | loopLimit _ => "LoopLimitError"
  | expression _ => "ExpressionError"
  | action (.assertion _) => "AssertionError"
  | action _ => "ActionError"
  | timeout _ => "TimeoutError"
  | raceExhausted _ => "RaceError"
  | inOperation _ _ | inRow _ _ | inStep _ _ | inKeyword _ _ => "Error"

/-- Only a place has no kind by itself. -/
theorem ownKind_ne_placeholder {f : Failure} (h : f.isPlace = false) : f.ownKind ≠ "Error" := by
  cases f with
  | action e => cases e <;> simp [ownKind]
  | inStep | inKeyword | inRow | inOperation => cases h
  | _ => simp [ownKind]

variable (places : List Place) (f : Failure)

/-- No place stands at the root of a failure. -/
theorem rootCause_ne_around (p : Place) (cause : Failure) : f.rootCause ≠ p.around cause := by
  intro h
  have hroot := f.isPlace_rootCause
  rw [h, p.isPlace_around] at hroot
  cases hroot

/-- Each failure is its root cause within its places. -/
theorem within_places : f.rootCause.within f.places = f := by
  induction f with
  | inStep index cause ih => exact congrArg (inStep index) ih
  | inKeyword name cause ih => exact congrArg (inKeyword name) ih
  | inRow index cause ih => exact congrArg (inRow index) ih
  | inOperation index cause ih => exact congrArg (inOperation index) ih
  | _ => rfl

theorem within_append (outer inner : List Place) :
    f.within (outer ++ inner) = (f.within inner).within outer :=
  List.foldr_append

/-- **Places do not change the root cause.** -/
theorem rootCause_within : (f.within places).rootCause = f.rootCause := by
  induction places with
  | nil => rfl
  | cons p rest ih => exact (p.rootCause_around _).trans ih

/-- **Places put their labels in front of the message**, the outermost first. -/
theorem message_within : (f.within places).message = Place.labels places ++ f.message := by
  induction places with
  | nil => exact String.empty_append.symm
  | cons p rest ih =>
    calc (f.within (p :: rest)).message
      _ = p.label ++ (f.within rest).message := p.message_around _
      _ = p.label ++ (Place.labels rest ++ f.message) := by rw [ih]
      _ = Place.labels (p :: rest) ++ f.message := by
        rw [Place.labels, Place.labels, List.map_cons, String.join_cons, String.append_assoc]

/-- The kind of a failure is the one that its root cause has by itself. -/
theorem kind_eq_ownKind : f.kind = f.rootCause.ownKind := by
  induction f with
  | action e => cases e <;> rfl
  | inStep _ _ ih | inKeyword _ _ ih | inRow _ _ ih | inOperation _ _ ih => exact ih
  | _ => rfl

/-- **The message ends with that of the root cause**, behind the labels of all places. -/
theorem message_within_places :
    (f.within places).message = Place.labels (places ++ f.places) ++ f.rootCause.message := by
  rw [← message_within, within_append, within_places]

example : (Failure.within [.step 4, .keyword "setup", .step 2] (.unknownKeyword "transfer")).message
    = "step 4: keyword 'setup': step 2: unknown keyword 'transfer'" := by decide

/-- What is told of a failure to those who catch it. -/
theorem toValue_within : (f.within places).toValue = .record [
    ("message", .text f.rootCause.message), ("kind", .text f.rootCause.ownKind),
    ("trace", .text (Place.labels (places ++ f.places) ++ f.rootCause.message))] := by
  rw [toValue, message_within_places, kind_eq_ownKind, rootCause_within]

end Failure

/-! ## What a `catch` list finds -/

namespace Variables

/-- The name of a variable with a key behind a point leads to that field of it. -/
theorem lookup?_scope_key {ambient : Ambient} {vars : Variables} {name text : String}
    (key : List Char) {v : Value} (hn : Path.isIdentifier name.toList = true)
    (hk : Path.isIdentifier key = true) (ht : text.toList = name.toList ++ '.' :: key)
    (h : vars.get? name = some v) :
    (vars.scope ambient).lookup? text = v.step? (.key (String.ofList key)) := by
  have hsegments : Segment.AllSpelled ('.' :: key) [.key (String.ofList key)] := by
    have hkey := Segment.AllSpelled.cons (.key (Path.ne_nil_of_isIdentifier hk)
      (Path.all_isNameChar_of_isIdentifier hk)) .nil
    rwa [List.append_nil] at hkey
  have hpath : Path.Spelled text.toList ⟨name, [.key (String.ofList key)]⟩ := by
    have hspelled := Path.Spelled.mk hn hsegments
    rwa [String.ofList_toList, ← ht] at hspelled
  rw [Scope.lookup?, hpath.parse?, Option.bind_some, scope]
  dsimp only
  rw [h]
  show (v.step? _).bind some = _
  exact Option.bind_fun_some _

end Variables

namespace Engine

/-- **What can be learned of a failure** under a name: its message, its kind, and a trace that ends
with the message. -/
structure Learns (engine : Engine σ) (vars : Variables) (name message kind front : String) :
    Prop where
  held : vars.get? name = some (.record [
    ("message", .text message), ("kind", .text kind), ("trace", .text (front ++ message))])
  read : Path.isIdentifier name.toList = true →
    (engine.scope vars).lookup? (name ++ ".message") = some (.text message)
      ∧ (engine.scope vars).lookup? (name ++ ".kind") = some (.text kind)
      ∧ (engine.scope vars).lookup? (name ++ ".trace") = some (.text (front ++ message))

/-- What is held under a name is read by its keys. -/
theorem Learns.of_held {engine : Engine σ} {vars : Variables} {name message kind front : String}
    (h : vars.get? name = some (.record [
      ("message", .text message), ("kind", .text kind), ("trace", .text (front ++ message))])) :
    engine.Learns vars name message kind front := by
  refine ⟨h, fun hn => ⟨?_, ?_, ?_⟩⟩
  · exact Variables.lookup?_scope_key "message".toList hn (by decide) String.toList_append h
  · exact Variables.lookup?_scope_key "kind".toList hn (by decide) String.toList_append h
  · exact Variables.lookup?_scope_key "trace".toList hn (by decide) String.toList_append h

/-- **A body that fails goes on as the `catch` list**, with what is told of the failure bound to its
name. Whatever comes behind the `try` comes behind that. -/
theorem exists_carryOut_try {engine : Engine σ} {step : Step} {body steps finally_ : List Step}
    {binding : String} (ha : step.action = .try_ body (some steps) finally_ binding)
    (here : Variables) : ∃ next : Outcome → Task σ,
      engine.carryOut step here = (engine.execute body here).andThen next
      ∧ ∀ tried f, tried.vars.depth = here.depth → tried.result = .error f →
        ∃ after, next tried
          = (engine.execute steps (tried.vars.bind binding f.toValue)).andThen after := by
  -- the body leaves as many calls under way as it found, so the list is run like one of its own
  have hcatch : ∀ (tried : Outcome) (f : Failure), tried.vars.depth = here.depth →
      Step.listRunner engine (engine.callsAt here) steps (tried.vars.bind binding f.toValue)
        = engine.execute steps (tried.vars.bind binding f.toValue) := fun tried f hd =>
    listRunner_eq_execute ((Variables.depth_bind ..).trans hd) steps
  unfold carryOut
  rw [ha, runner_try]
  cases finally_ with
  | nil =>
    -- nothing is run behind the `catch` list
    refine ⟨_, rfl, fun tried f hd hf => ⟨.done, ?_⟩⟩
    rw [Process.andThen_done, ← hcatch tried f hd, hf]
    rfl
  | cons first rest =>
    let after := fun o => Runner.restoring o
      (Step.listRunner engine (engine.callsAt here) (first :: rest))
    refine ⟨_, Process.andThen_assoc .., fun tried f hd hf => ⟨after, ?_⟩⟩
    rw [← hcatch tried f hd, hf]
    rfl

end Engine

/-- **Places keep the cause of a failure.** Let any places be around a failure, in any order. Then
the root cause is the same as without them, and it is no place. The kind is the one that the root
cause has by itself, which is never the placeholder of a place. The message is made of the labels of
the places, from the outermost to the innermost, and of the message of the root cause.

So when the body of a `try` comes to such a failure, what follows is the `catch` list, and the
message that it finds under the name of the failure is what the trace ends with. -/
theorem Failure.within_keeps_cause (places : List Place) (f : Failure) :
    (f.within places).rootCause = f.rootCause
      ∧ (∀ p cause, f.rootCause ≠ Place.around p cause)
      ∧ f.rootCause.within f.places = f
      ∧ (f.within places).kind = f.rootCause.ownKind ∧ (f.within places).kind ≠ "Error"
      ∧ (f.within places).message = Place.labels (places ++ f.places) ++ f.rootCause.message
      ∧ ∀ (σ : Type) (engine : Engine σ) (step : Step) (body steps finally_ : List Step)
          (binding : String) (here : Variables),
        step.action = .try_ body (some steps) finally_ binding →
        ∃ next : Outcome → Task σ,
          engine.carryOut step here = (engine.execute body here).andThen next
          ∧ ∀ t tried, (engine.execute body here).Runs t (.done tried) →
            tried.result = .error (f.within places) →
            ∃ there after, there = tried.vars.bind binding (f.within places).toValue
              ∧ next tried = (engine.execute steps there).andThen after
              ∧ engine.Learns there binding f.rootCause.message f.rootCause.ownKind
                  (Place.labels (places ++ f.places)) := by
  have hkind : (f.within places).kind = f.rootCause.ownKind := by
    rw [kind_eq_ownKind, rootCause_within]
  refine ⟨f.rootCause_within places, f.rootCause_ne_around, f.within_places, hkind, ?_,
    f.message_within_places places, fun σ engine step body steps finally_ binding here ha => ?_⟩
  · rw [hkind]
    exact ownKind_ne_placeholder f.isPlace_rootCause
  · obtain ⟨next, hnext, hcaught⟩ := Engine.exists_carryOut_try ha here
    refine ⟨next, hnext, fun t tried hbody hf => ?_⟩
    have hdepth : tried.vars.depth = here.depth := (engine.tidy_execute body here).depth hbody
    obtain ⟨after, hafter⟩ := hcaught tried _ hdepth hf
    refine ⟨_, after, rfl, hafter, .of_held ?_⟩
    rw [Variables.get?_bind_self, toValue_within]

/-- A keyword whose only step fails, called in the body of a `try`: the `catch` list finds what has
gone wrong as the message, and the way to it in front of that in the trace. -/
theorem Failure.within_keeps_cause_call :
    let engine : Engine Unit :=
      ⟨.default, .standard ⟨0, "", "", fun _ => none⟩, ⟨0, "", "", fun _ => none⟩⟩
    let calls := Step.mk (.keyword "k" []) none false none .null
    let sets := Step.mk (.assign .locals [("x", .null)]) none false none .null
    let tries := Step.mk (.try_ [calls] (some [sets]) [] "e") none false none .null
    let f : Failure := .within [.step 1, .keyword "k", .step 1] (.loopLimit 0)
    let tried : Outcome := .fail f .empty
    let there : Variables := Variables.empty.bind "e" f.toValue
    ∃ t next after, (engine.execute [calls] .empty).Runs t (.done tried)
      ∧ engine.carryOut tries .empty = (engine.execute [calls] .empty).andThen next
      ∧ next tried = (engine.execute [sets] there).andThen after
      ∧ (engine.scope there).lookup? "e.message" = some (.text "while loop exceeded 0 iterations")
      ∧ (engine.scope there).lookup? "e.kind" = some (.text "LoopLimitError")
      ∧ (engine.scope there).lookup? "e.trace"
        = some (.text "step 1: keyword 'k': step 1: while loop exceeded 0 iterations") := by
  intro engine calls sets tries f tried there
  let loops := Step.mk (.while_ (.literal (.bool true)) [] (some 0)) none false none .null
  let w : World Unit := .fresh ⟨[("k", ⟨"k", [], [loops], none, none⟩)], []⟩ ()
  let failed : Outcome := .fail (.within [.keyword "k", .step 1] (.loopLimit 0)) .empty
  obtain ⟨t, hcall⟩ : ∃ t, (engine.invokeWithin 10 "k" [] .empty).Runs t (.done failed) := by
    unfold Engine.invokeWithin
    exact ⟨_, .act w (.act w (.act w .refl))⟩
  have hbody : (engine.execute [calls] .empty).Runs _ (.done tried) :=
    .act w ((hcall.andThen (.act w .refl)).andThen .refl)
  obtain ⟨-, -, -, -, -, -, hcaught⟩ :=
    within_keeps_cause [.step 1, .keyword "k", .step 1] (.loopLimit 0)
  obtain ⟨next, hnext, hfailed⟩ := hcaught Unit engine tries _ _ _ _ .empty rfl
  obtain ⟨_, after, rfl, hafter, hlearns⟩ := hfailed _ tried hbody rfl
  obtain ⟨hmessage, hkind, htrace⟩ := hlearns.read (by decide)
  exact ⟨_, next, after, hbody, hnext, hafter, hmessage, hkind, htrace⟩

end Playbook
