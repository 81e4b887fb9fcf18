import Playbook.Proofs.Expr.Placeholder

/-!
# Evaluation comes to an end

An evaluation goes down a tree, which is finite, and from the references and strings of the tree
to further texts, of which there is no tree before they are read. These texts are cut out of the
text that is evaluated. They are shorter than it (`Text.Shorter`), and they are the same in every
scope, since a value that is looked up is never read.

So what a text comes to can be told without a depth: by a derivation in which a text stands above
those that are read for it (`Scope.Settles`). Every text has one such derivation, and it gives
what is evaluated (`Scope.settles_iff`). Templates and placeholders come to an end with the texts
that are read for them.
-/

namespace Playbook

namespace Text

/-- **A text is shorter than another one**: it has fewer characters and fewer bytes. -/
def Shorter (s t : String) : Prop :=
  s.length < t.length ∧ s.utf8ByteSize < t.utf8ByteSize

theorem shorter_of_total {s t : String} (h : ∀ w : Weight, w.total s.toList < w.total t.toList) :
    Shorter s t := by
  have hcharacters := h .characters
  have hbytes := h .bytes
  rw [Weight.total_characters, Weight.total_characters, String.length_toList,
    String.length_toList] at hcharacters
  rw [Weight.total_bytes, Weight.total_bytes, String.ofList_toList, String.ofList_toList] at hbytes
  exact ⟨hcharacters, hbytes⟩

end Text

namespace Scope

variable {scope : Scope} {inner : Inner} {text : String} {v : Evaluated Value} {b : Bool}

/-- **What a text comes to**: its value, and whether its names and references lead to values. A text
that is read as a tree has what its tree has, where the texts that are read in their turn have
what they come to. -/
inductive Settles (scope : Scope) : String → Evaluated Value → Bool → Prop
  | malformed {text fault} (h : Expr.parse text = .error fault) :
    Settles scope text (.error (.error fault)) false
  | parsed {text e} {inner : Inner} (h : Expr.parse text = .ok e)
    (hs : ∀ t ∈ e.rereads, Settles scope t (inner.value t) (inner.isBound t)) :
    Settles scope text (e.evalWith scope inner) (e.boundWith scope inner)

/-- A text comes to one result only. -/
theorem Settles.eq (h : scope.Settles text v b) :
    v = scope.evaluate text ∧ b = scope.isBound text := by
  induction h with
  | malformed h =>
    obtain ⟨hv, hb⟩ := scope.evaluate_of_error h
    exact ⟨hv.symm, hb.symm⟩
  | parsed h _ ih =>
    rw [scope.evaluate_eq h, scope.isBound_eq h]
    exact ⟨Expr.evalWith_congr ih, Expr.boundWith_congr ih⟩

/-- Every text comes to a result, by induction on its length. -/
theorem settles (scope : Scope) (text : String) :
    scope.Settles text (scope.evaluate text) (scope.isBound text) := by
  induction hn : text.length using Nat.strongRecOn generalizing text with
  | ind n ih =>
    cases hp : Expr.parse text with
    | error fault =>
      obtain ⟨hv, hb⟩ := scope.evaluate_of_error hp
      rw [hv, hb]
      exact .malformed hp
    | ok e =>
      rw [scope.evaluate_eq hp, scope.isBound_eq hp]
      exact .parsed hp fun t ht => ih t.length (hn ▸ Expr.length_of_mem_rereads hp ht) t rfl

/-- **What a text comes to is what it is evaluated to**, and every text comes to something. -/
theorem settles_iff :
    scope.Settles text v b ↔ v = scope.evaluate text ∧ b = scope.isBound text := by
  refine ⟨Settles.eq, ?_⟩
  rintro ⟨rfl, rfl⟩
  exact scope.settles text

/-- A way to evaluate texts **answers** for a text what the text comes to. -/
def Answered (scope : Scope) (inner : Inner) (text : String) : Prop :=
  scope.Settles text (inner.value text) (inner.isBound text)

theorem Answered.agreeAt (h : scope.Answered inner text) : inner.AgreeAt scope.whole text :=
  Settles.eq h

/-- **Every evaluation comes to an end.** The texts that an evaluation reads again are shorter than
the text that is evaluated, whatever the scope is, and so are those of a template and of a
placeholder. -/
theorem rereads_shorter_and_settles :
    (∀ source e, Expr.parse source = .ok e → (∀ t ∈ e.rereads, Text.Shorter t source)
      ∧ ∀ (scope : Scope) (i j : Inner), (∀ t ∈ e.rereads, i.AgreeAt j t) →
        e.evalWith scope i = e.evalWith scope j ∧ e.boundWith scope i = e.boundWith scope j)
    ∧ (∀ (scope : Scope) text v b,
      scope.Settles text v b ↔ v = scope.evaluate text ∧ b = scope.isBound text)
    ∧ (∀ text, (∀ t ∈ Template.rereads (Template.pieces text.toList), Text.Shorter t text)
      ∧ ∀ (scope : Scope) (inner : Inner),
        (∀ t ∈ Template.rereads (Template.pieces text.toList), scope.Answered inner t) →
          scope.fill text = Template.fillWith scope inner text)
    ∧ ∀ text cs, Template.single? text.toList = some cs →
      (∀ t, Template.reread? cs = some t → Text.Shorter t text)
      ∧ ∀ (scope : Scope) (inner : Inner),
        (∀ t, Template.reread? cs = some t → scope.Answered inner t) →
          scope.resolveText text
            = (Template.placeholderWith scope inner cs).map fun v => v.getD (.text text) := by
  refine ⟨fun source e h => ⟨fun t ht => ?_, fun scope i j hagree => ?_⟩,
    fun _ _ _ _ => settles_iff, fun text => ⟨fun t ht => ?_, fun scope inner h => ?_⟩,
    fun text cs hcs => ⟨fun t ht => ?_, fun scope inner h => ?_⟩⟩
  · exact Text.shorter_of_total fun w => Expr.total_of_mem_rereads w h ht
  · exact ⟨Expr.evalWith_congr hagree, Expr.boundWith_congr hagree⟩
  · exact Text.shorter_of_total fun w => Template.total_of_mem_rereads w ht
  · rw [scope.fill_eq]
    exact (Template.fillWith_congr fun t ht => (h t ht).agreeAt).symm
  · refine Text.shorter_of_total fun w => ?_
    rw [Template.eq_of_reread? ht, String.toList_ofList, (Template.single?_eq_some_iff.mp hcs).1]
    exact Template.total_trim_lt w cs
  · rw [scope.resolveText_single hcs, Template.placeholderWith_congr fun t ht => (h t ht).agreeAt]

/-- The texts that are compared, if a template is compared with a reference. -/
def compared? : Except ExprError Expr → Option (String × String)
  | .ok (.compare .eq (.template text) (.reference inner)) => some (text, inner)
  | _ => none

theorem eq_of_compared? {x : Except ExprError Expr} {text inner : String}
    (h : compared? x = some (text, inner)) :
    x = .ok (.compare .eq (.template text) (.reference inner)) := by
  unfold compared? at h
  split at h
  · cases h
    rfl
  · cases h

/-- The braces that close the placeholder are written with a backslash, so it comes into being only
when the string is read. -/
theorem rereads_shorter_and_settles_escaped :
    let source := "'\x7b\x7b é + 1 \\\x7d\x7d' == \x7b\x7b é - 1 \x7d\x7d"
    ∃ e, Expr.parse source = .ok e ∧ e.rereads = ["é + 1", "é - 1"]
      ∧ Text.Shorter "é + 1" source ∧ Text.Shorter "é - 1" source := by
  intro source
  have h : Expr.parse source
      = .ok (.compare .eq (.template "\x7b\x7b é + 1 \x7d\x7d") (.reference "é - 1")) :=
    eq_of_compared? (by decide +kernel)
  have hrereads : (Expr.compare .eq (.template "\x7b\x7b é + 1 \x7d\x7d")
      (.reference "é - 1")).rereads = ["é + 1", "é - 1"] := by decide +kernel
  have hshorter := (rereads_shorter_and_settles.1 source _ h).1
  rw [hrereads] at hshorter
  exact ⟨_, h, hrereads, hshorter _ List.mem_cons_self,
    hshorter _ (List.mem_cons_of_mem _ List.mem_cons_self)⟩

end Scope

end Playbook
