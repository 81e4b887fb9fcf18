import Playbook.Expr.Eval
import Playbook.Keyword
import Playbook.Proofs.Value.Fields
import Playbook.Variables

/-!
# All that is seen of the variables

A running list of steps evaluates its expressions in its frames, its globals and the built-in
names below them. What can be seen of these may also be taken out as one list of variables, and
expressions may be evaluated in that. The two scopes differ in the built-in names only
(`Variables.agree_visible`), so they agree on everything that uses no built-in name but one
that a variable hides (`Variables.evaluate_visible`).

An expression uses the variables of its names and references, and those of the expressions in
the texts that it holds, at any depth (`Expr.Uses`). Evaluation looks up no other: scopes that
agree on what is used give the same value, or break off in the same way
(`Scope.evaluate_agree`, `Scope.resolve_agree`).

A frame has each of its names once. The lists that stand for frames could have a name twice, and
`Variables.Distinct` says that they have not. A `Variables.Context` carries that with it. All that
a run does to its variables makes a context of a context, so whole runs do as well
(`Engine.distinct_execute`).
-/

namespace Playbook

/-! ## The variables that are used -/

mutual

/-- **A variable is used in a tree**, or in a text that the tree holds, at any depth. -/
inductive Expr.Uses (x : String) : Expr → Prop
  | name {word : String} {path : Path} (h : Path.parse? word = some path)
    (hx : path.root = x) : Uses x (.name word)
  | reference {text : String} (h : UsesInside x text) : Uses x (.reference text)
  | template {text : String} {cs : List Char}
    (hcs : .placeholder cs ∈ Template.pieces text.toList)
    (h : UsesInside x (String.ofList (Text.trim cs))) : Uses x (.template text)
  | not {e : Expr} (h : Uses x e) : Uses x (.not e)
  | neg {e : Expr} (h : Uses x e) : Uses x (.neg e)
  | andLeft {left right : Expr} (h : Uses x left) : Uses x (.and left right)
  | andRight {left right : Expr} (h : Uses x right) : Uses x (.and left right)
  | orLeft {left right : Expr} (h : Uses x left) : Uses x (.or left right)
  | orRight {left right : Expr} (h : Uses x right) : Uses x (.or left right)
  | compareLeft {op : Comparison} {left right : Expr} (h : Uses x left) :
    Uses x (.compare op left right)
  | compareRight {op : Comparison} {left right : Expr} (h : Uses x right) :
    Uses x (.compare op left right)
  | computeLeft {op : Arithmetic} {left right : Expr} (h : Uses x left) :
    Uses x (.compute op left right)
  | computeRight {op : Arithmetic} {left right : Expr} (h : Uses x right) :
    Uses x (.compute op left right)

/-- A variable is used between the braces of a reference or of a placeholder: in a path, or
else in an expression. -/
inductive Expr.UsesInside (x : String) : String → Prop
  | path {text : String} {path : Path} (h : Path.parse? text = some path)
    (hx : path.root = x) : UsesInside x text
  | expr {text : String} {e : Expr} (hp : Path.isPath text = false)
    (he : Expr.parse text = .ok e) (h : Uses x e) : UsesInside x text

end

/-- What stands between the braces of the placeholders of a string that is resolved. -/
def Template.insides (cs : List Char) : List (List Char) :=
  match single? cs with
  | some inner => [inner]
  | none => (pieces cs).filterMap fun
    | .placeholder inner => some inner
    | _ => none

/-- **A variable is used in a value** that is resolved. -/
inductive Value.Uses (x : String) : Value → Prop
  | text {s : String} {cs : List Char} (hcs : cs ∈ Template.insides s.toList)
    (h : Expr.UsesInside x (String.ofList (Text.trim cs))) : Uses x (.text s)
  | item {items : List Value} {v : Value} (hv : v ∈ items) (h : Uses x v) : Uses x (.list items)
  | field {fields : List (String × Value)} {key : String} {v : Value}
    (hv : (key, v) ∈ fields) (h : Uses x v) : Uses x (.record fields)

/-! ## Scopes that agree -/

/-- Two scopes agree on the variables of `A`. -/
def Scope.AgreeOn (A : String → Prop) (s t : Scope) : Prop :=
  ∀ path : Path, A path.root → s.find? path = t.find? path

/-- Two ways to evaluate texts agree on the expressions that use variables of `A` only. -/
def Inner.AgreeOn (A : String → Prop) (i j : Inner) : Prop :=
  ∀ text, (∀ e, Expr.parse text = .ok e → ∀ x, e.Uses x → A x) →
    i.value text = j.value text ∧ i.isBound text = j.isBound text

variable {A : String → Prop} {s t : Scope} {i j : Inner}

theorem Scope.lookup?_agree (h : s.AgreeOn A t) {text : String}
    (hA : ∀ path, Path.parse? text = some path → A path.root) :
    s.lookup? text = t.lookup? text := by
  unfold lookup?
  cases hp : Path.parse? text with
  | none => rfl
  | some path => exact h path (hA path hp)

/-- Between braces, scopes agree on a path or on an expression. -/
theorem Inner.AgreeOn.inside (h : s.AgreeOn A t) (hi : i.AgreeOn A j) {text : String}
    (hA : ∀ x, Expr.UsesInside x text → A x) :
    s.lookup? text = t.lookup? text ∧ (Path.isPath text = false →
      i.value text = j.value text ∧ i.isBound text = j.isBound text) :=
  ⟨Scope.lookup?_agree h fun _ hp => hA _ (.path hp rfl),
    fun hp => hi text fun _ he x hx => hA x (.expr hp he hx)⟩

namespace Template

theorem placeholderWith_agree (h : s.AgreeOn A t) (hi : i.AgreeOn A j) {cs : List Char}
    (hA : ∀ x, Expr.UsesInside x (String.ofList (Text.trim cs)) → A x) :
    placeholderWith s i cs = placeholderWith t j cs := by
  obtain ⟨hlookup, hexpr⟩ := hi.inside h hA
  unfold placeholderWith
  dsimp only
  rw [hlookup]
  cases hp : Path.isPath (String.ofList (Text.trim cs)) with
  | true => rfl
  | false =>
    obtain ⟨hv, hb⟩ := hexpr hp
    rw [hv, hb]

theorem piecesWith_agree (h : s.AgreeOn A t) (hi : i.AgreeOn A j) {ps : List Piece}
    (hA : ∀ cs, .placeholder cs ∈ ps → ∀ x,
      Expr.UsesInside x (String.ofList (Text.trim cs)) → A x) :
    piecesWith s i ps = piecesWith t j ps := by
  induction ps with
  | nil => rfl
  | cons p ps ih =>
    have hp : pieceWith s i p = pieceWith t j p := by
      cases p with
      | plain | unclosed => rfl
      | placeholder cs =>
        rw [pieceWith, pieceWith, placeholderWith_agree h hi (hA cs List.mem_cons_self)]
    rw [piecesWith, piecesWith, hp, ih fun cs hcs => hA cs (List.mem_cons_of_mem p hcs)]

end Template

namespace Expr

/-- **The value of a tree is told by what it uses**, by induction on the tree. -/
theorem evalWith_agree (h : s.AgreeOn A t) (hi : i.AgreeOn A j) {e : Expr}
    (hA : ∀ x, e.Uses x → A x) : e.evalWith s i = e.evalWith t j := by
  induction e with
  | literal => rfl
  | template text =>
    have hfill : Template.fillWith s i text = Template.fillWith t j text :=
      Template.piecesWith_agree h hi fun cs hcs x hx => hA x (.template hcs hx)
    rw [evalWith, evalWith, hfill]
  | name word =>
    rw [evalWith, evalWith, Scope.lookup?_agree h fun _ hp => hA _ (.name hp rfl)]
  | reference text =>
    obtain ⟨hlookup, hexpr⟩ := hi.inside h fun x hx => hA x (.reference hx)
    rw [evalWith, evalWith, hlookup]
    cases hp : Path.isPath text with
    | true => rfl
    | false => exact (hexpr hp).1
  | not e ih => rw [evalWith, evalWith, ih fun x hx => hA x (.not hx)]
  | neg e ih => rw [evalWith, evalWith, ih fun x hx => hA x (.neg hx)]
  | and l r ihl ihr =>
    rw [evalWith, evalWith, ihl fun x hx => hA x (.andLeft hx), ihr fun x hx => hA x (.andRight hx)]
  | or l r ihl ihr =>
    rw [evalWith, evalWith, ihl fun x hx => hA x (.orLeft hx), ihr fun x hx => hA x (.orRight hx)]
  | compare op l r ihl ihr =>
    rw [evalWith, evalWith, ihl fun x hx => hA x (.compareLeft hx),
      ihr fun x hx => hA x (.compareRight hx)]
  | compute op l r ihl ihr =>
    rw [evalWith, evalWith, ihl fun x hx => hA x (.computeLeft hx),
      ihr fun x hx => hA x (.computeRight hx)]

/-- So is whether its names lead to values. -/
theorem boundWith_agree (h : s.AgreeOn A t) (hi : i.AgreeOn A j) {e : Expr}
    (hA : ∀ x, e.Uses x → A x) : e.boundWith s i = e.boundWith t j := by
  induction e with
  | literal | template => rfl
  | name word =>
    rw [boundWith, boundWith, Scope.lookup?_agree h fun _ hp => hA _ (.name hp rfl)]
  | reference text =>
    obtain ⟨hlookup, hexpr⟩ := hi.inside h fun x hx => hA x (.reference hx)
    rw [boundWith, boundWith, hlookup]
    cases hp : Path.isPath text with
    | true => rfl
    | false => exact (hexpr hp).2
  | not e ih => rw [boundWith, boundWith, ih fun x hx => hA x (.not hx)]
  | neg e ih => rw [boundWith, boundWith, ih fun x hx => hA x (.neg hx)]
  | and l r ihl ihr =>
    rw [boundWith, boundWith, ihl fun x hx => hA x (.andLeft hx),
      ihr fun x hx => hA x (.andRight hx)]
  | or l r ihl ihr =>
    rw [boundWith, boundWith, ihl fun x hx => hA x (.orLeft hx),
      ihr fun x hx => hA x (.orRight hx)]
  | compare op l r ihl ihr =>
    rw [boundWith, boundWith, ihl fun x hx => hA x (.compareLeft hx),
      ihr fun x hx => hA x (.compareRight hx)]
  | compute op l r ihl ihr =>
    rw [boundWith, boundWith, ihl fun x hx => hA x (.computeLeft hx),
      ihr fun x hx => hA x (.computeRight hx)]

end Expr

namespace Scope

/-- Scopes that agree evaluate texts inside texts the same, to any depth. -/
theorem AgreeOn.inner (h : s.AgreeOn A t) (depth : Nat) :
    (s.inner depth).AgreeOn A (t.inner depth) := by
  induction depth with
  | zero => exact fun _ _ => ⟨rfl, rfl⟩
  | succ depth ih =>
    intro text hA
    dsimp only [Scope.inner]
    cases he : Expr.parse text with
    | error => exact ⟨rfl, rfl⟩
    | ok e => exact ⟨Expr.evalWith_agree h ih (hA e he), Expr.boundWith_agree h ih (hA e he)⟩

/-- **Scopes that agree on what an expression uses** give it the same value or the same error,
and bind it both or not. -/
theorem evaluate_agree (h : s.AgreeOn A t) {text : String}
    (hA : ∀ e, Expr.parse text = .ok e → ∀ x, e.Uses x → A x) :
    s.evaluate text = t.evaluate text ∧ s.isBound text = t.isBound text :=
  h.inner (depthOf text) text hA

theorem resolveText_agree (h : s.AgreeOn A t) {text : String}
    (hA : ∀ x, (Value.text text).Uses x → A x) : s.resolveText text = t.resolveText text := by
  have hi := h.inner (depthOf text)
  have hinside : ∀ cs ∈ Template.insides text.toList, ∀ x,
      Expr.UsesInside x (String.ofList (Text.trim cs)) → A x :=
    fun cs hcs x hx => hA x (.text hcs hx)
  unfold Template.insides at hinside
  unfold resolveText
  cases hs : Template.single? text.toList with
  | some inner =>
    rw [hs] at hinside
    dsimp only
    rw [Template.placeholderWith_agree h hi (hinside inner (List.mem_singleton_self inner))]
  | none =>
    rw [hs] at hinside
    have hfill : s.fill text = t.fill text := Template.piecesWith_agree h hi fun cs hcs =>
      hinside cs (List.mem_filterMap.mpr ⟨_, hcs, rfl⟩)
    dsimp only
    rw [hfill]

mutual

/-- **Scopes that agree on what a value uses** resolve it to the same. -/
theorem resolve_agree (h : s.AgreeOn A t) (v : Value) (hA : ∀ x, v.Uses x → A x) :
    s.resolve v = t.resolve v := by
  match v with
  | .text text => exact resolveText_agree h hA
  | .list items =>
    rw [resolve, resolve, resolveItems_agree h items fun v hv x hx => hA x (.item hv hx)]
  | .record fields =>
    rw [resolve, resolve, resolveFields_agree h fields fun _ v hv x hx => hA x (.field hv hx)]
  | .null | .bool _ | .number _ => rfl

theorem resolveItems_agree (h : s.AgreeOn A t) (items : List Value)
    (hA : ∀ v ∈ items, ∀ x, v.Uses x → A x) : s.resolveItems items = t.resolveItems items := by
  match items with
  | [] => rfl
  | v :: rest =>
    rw [resolveItems, resolveItems, resolve_agree h v (hA v List.mem_cons_self),
      resolveItems_agree h rest fun w hw => hA w (List.mem_cons_of_mem v hw)]

theorem resolveFields_agree (h : s.AgreeOn A t) (fields : List (String × Value))
    (hA : ∀ key v, (key, v) ∈ fields → ∀ x, v.Uses x → A x) :
    s.resolveFields fields = t.resolveFields fields := by
  match fields with
  | [] => rfl
  | (key, v) :: rest =>
    rw [resolveFields, resolveFields, resolve_agree h v (hA key v List.mem_cons_self),
      resolveFields_agree h rest fun key' w hw => hA key' w (List.mem_cons_of_mem _ hw)]

end

end Scope

/-! ## Frames -/

namespace Variables

/-- **No name stands twice** among the globals, nor in a frame. -/
structure Distinct (vars : Variables) : Prop where
  globals : vars.globals.names.Nodup
  frames : ∀ frame ∈ vars.frames, Named.names frame |>.Nodup

theorem distinct_empty : empty.Distinct := ⟨List.nodup_nil, nofun⟩

namespace Distinct

variable {vars : Variables}

theorem setGlobal (h : vars.Distinct) (name : String) (v : Value) :
    (vars.setGlobal name v).Distinct :=
  ⟨Named.nodup_put h.globals name v, h.frames⟩

theorem removeGlobal (h : vars.Distinct) (name : String) : (vars.removeGlobal name).Distinct :=
  ⟨Named.nodup_remove h.globals name, h.frames⟩

/-- Another innermost frame. -/
theorem innermost {frame frame' : Named Value} {outer : List (Named Value)}
    (h : vars.Distinct) (hf : vars.frames = frame :: outer)
    (h' : frame.names.Nodup → frame'.names.Nodup) :
    Distinct { vars with frames := frame' :: outer } := by
  have hframes := h.frames
  rw [hf] at hframes
  obtain ⟨hframe, houter⟩ := List.forall_mem_cons.mp hframes
  exact ⟨h.globals, List.forall_mem_cons.mpr ⟨h' hframe, houter⟩⟩

theorem bind (h : vars.Distinct) (name : String) (v : Value) : (vars.bind name v).Distinct := by
  unfold Variables.bind
  split
  · exact h.innermost ‹_› fun hf => Named.nodup_put hf name v
  · exact h.setGlobal name v

theorem unbind (h : vars.Distinct) (name : String) : (vars.unbind name).Distinct := by
  unfold Variables.unbind
  split
  · exact h.innermost ‹_› fun hf => Named.nodup_remove hf name
  · exact h.removeGlobal name

/-- The parameters of a call are bound once each. -/
theorem enter (h : vars.Distinct) (keyword : Keyword) (args : List Value) :
    (vars.enter (keyword.bindArguments args)).Distinct := by
  have hnone : (Named.names ([] : Named Value)).Nodup := List.nodup_nil
  exact ⟨h.globals, List.forall_mem_cons.mpr
    ⟨Named.nodup_putAll (Named.nodup_putAll hnone _) _, h.frames⟩⟩

theorem leave (h : vars.Distinct) : vars.leave.Distinct :=
  ⟨h.globals, fun frame hf => h.frames frame (List.mem_of_mem_tail hf)⟩

theorem leaveTo (h : vars.Distinct) (depth : Nat) : (vars.leaveTo depth).Distinct :=
  ⟨h.globals, fun frame hf => h.frames frame (List.mem_of_mem_drop hf)⟩

end Distinct

/-- **The variables that a running list of steps can have**: no name stands twice among them. -/
structure Context extends Variables where
  distinct : toVariables.Distinct

namespace Context

/-- No variables, outside of all keyword calls. -/
def empty : Context := ⟨.empty, distinct_empty⟩

/-- Stores a global variable. -/
def setGlobal (name : String) (value : Value) (context : Context) : Context :=
  ⟨context.toVariables.setGlobal name value, context.distinct.setGlobal name value⟩

/-- Forgets a global variable. -/
def removeGlobal (name : String) (context : Context) : Context :=
  ⟨context.toVariables.removeGlobal name, context.distinct.removeGlobal name⟩

/-- Stores a variable of the innermost keyword call; outside of all calls, a global one. -/
def bind (name : String) (value : Value) (context : Context) : Context :=
  ⟨context.toVariables.bind name value, context.distinct.bind name value⟩

/-- Forgets a variable of the innermost keyword call; outside of all calls, a global one. -/
def unbind (name : String) (context : Context) : Context :=
  ⟨context.toVariables.unbind name, context.distinct.unbind name⟩

/-- The variables inside a call of a keyword with some arguments. -/
def enter (keyword : Keyword) (args : List Value) (context : Context) : Context :=
  ⟨context.toVariables.enter (keyword.bindArguments args), context.distinct.enter keyword args⟩

/-- The variables after a keyword call: its own are gone. -/
def leave (inside : Context) : Context :=
  ⟨inside.toVariables.leave, inside.distinct.leave⟩

/-- Leaves all keyword calls that are nested deeper than a given depth. -/
def leaveTo (depth : Nat) (context : Context) : Context :=
  ⟨context.toVariables.leaveTo depth, context.distinct.leaveTo depth⟩

end Context

/-- **What can be seen is what is found.** -/
theorem lookup_visible (context : Context) (x : String) :
    context.visible.lookup x = context.get? x := by
  have hinner : (Named.names (context.frames.headD [])).Nodup := by
    cases hf : context.frames with
    | nil => exact List.nodup_nil
    | cons frame outer => exact context.distinct.frames frame (hf ▸ List.mem_cons_self)
  unfold visible get?
  rw [Named.lookup_putAll hinner]
  cases (context.frames.headD []).lookup x with
  | none | some => rfl

end Variables

/-- The names that stand for something below the variables. -/
def Ambient.names : List String := ["now", "timestamp", "uuid", "env"]

theorem Ambient.builtin?_eq_none (ambient : Ambient) {path : Path} (h : path.root ∉ names) :
    ambient.builtin? path = none := by
  unfold builtin?
  split
  all_goals first
    | rfl
    | exact absurd (by simp [names, *]) h

namespace Variables

/-- **The scope of the variables and that of what can be seen of them** agree on all names,
but for built-in names that no variable hides. -/
theorem agree_visible (ambient : Ambient) (context : Context) :
    Scope.AgreeOn (fun x => x ∈ Ambient.names → x ∈ context.visible.names) (context.scope ambient)
      (.ofVariables context.visible) := by
  intro path hpath
  have hfound : (Scope.ofVariables context.visible).find? path
      = (context.get? path.root).bind fun v => v.at? path.segments :=
    congrArg (Option.bind · _) (lookup_visible context path.root)
  rw [hfound]
  unfold scope
  dsimp only
  cases hx : context.get? path.root with
  | some v => rfl
  | none =>
    have hnot : path.root ∉ context.visible.names :=
      Named.lookup_eq_none.mp ((lookup_visible context path.root).trans hx)
    exact ambient.builtin?_eq_none fun hm => hnot (hpath hm)

/-- The name that an expression negates, if that is all it does. -/
def negated? : Except ExprError Expr → Option String
  | .ok (.not (.name word)) => some word
  | _ => none

theorem eq_of_negated? {x : Except ExprError Expr} {word : String}
    (h : negated? x = some word) : x = .ok (.not (.name word)) := by
  unfold negated? at h
  split at h
  · cases h
    rfl
  · cases h

/-- **Both scopes give the same.** Take the variables of a running list of steps, inside any
number of calls, and all that can be seen of them as one list of variables. An expression that
uses no built-in name but such as are variables has the same value, or the same error, in both,
and is bound in both or in neither. A value that uses no others is resolved to the same in
both. -/
theorem evaluate_visible (ambient : Ambient) (context : Context) :
    (∀ text : String, (∀ e, Expr.parse text = .ok e → ∀ x, e.Uses x → x ∈ Ambient.names →
        x ∈ context.visible.names) →
      (context.scope ambient).evaluate text = (Scope.ofVariables context.visible).evaluate text
      ∧ (context.scope ambient).isBound text = (Scope.ofVariables context.visible).isBound text)
    ∧ ∀ v : Value, (∀ x, v.Uses x → x ∈ Ambient.names → x ∈ context.visible.names) →
      (context.scope ambient).resolve v = (Scope.ofVariables context.visible).resolve v :=
  ⟨fun _ hx => Scope.evaluate_agree (agree_visible ambient context) hx,
    fun v hx => Scope.resolve_agree (agree_visible ambient context) v hx⟩

/-- In a call that has a parameter `now`, an expression and a placeholder that use it. -/
theorem evaluate_visible_now :
    let ambient : Ambient := ⟨0, "", "", fun _ => none⟩
    let keyword : Keyword := ⟨"k", ["now"], [], none, none⟩
    let context := (Context.empty.setGlobal "now" (.bool false)).enter keyword [.bool true]
    let v := Value.list [.text "{{now}}"]
    (∀ x, v.Uses x → x ∈ Ambient.names → x ∈ context.visible.names)
      ∧ (context.scope ambient).evaluate "!now"
        = (Scope.ofVariables context.visible).evaluate "!now"
      ∧ (context.scope ambient).isBound "!now"
        = (Scope.ofVariables context.visible).isBound "!now"
      ∧ (context.scope ambient).resolve v = (Scope.ofVariables context.visible).resolve v := by
  intro ambient keyword context v
  have hvisible : "now" ∈ context.visible.names := by decide
  have hpath : Path.parse? "now" = some ⟨"now", []⟩ := by decide +kernel
  have hexpr : Expr.parse "!now" = .ok (.not (.name "now")) :=
    eq_of_negated? (by decide +kernel)
  have hnow : ∀ x e, Expr.parse "!now" = .ok e → e.Uses x → x = "now" := by
    intro x e he hx
    cases hexpr.symm.trans he
    cases hx with
    | not hx =>
      cases hx with
      | name hp hroot =>
        cases hpath.symm.trans hp
        exact hroot.symm
  have hinsides : Template.insides "\x7b\x7bnow\x7d\x7d".toList = [['n', 'o', 'w']] := by
    decide +kernel
  have hv : ∀ x, (Value.list [.text "\x7b\x7bnow\x7d\x7d"]).Uses x → x = "now" := by
    intro x hx
    cases hx with
    | item hm hx =>
      cases List.mem_singleton.mp hm
      cases hx with
      | text hcs hx =>
        rw [hinsides] at hcs
        cases List.mem_singleton.mp hcs
        cases hx with
        | path hp hroot =>
          cases hpath.symm.trans hp
          exact hroot.symm
        | expr hp =>
          have hyes : Path.isPath "now" = true := by decide +kernel
          cases hyes.symm.trans hp
  obtain ⟨he, hb⟩ := (evaluate_visible ambient context).1 "!now"
    fun e he x hx _ => hnow x e he hx ▸ hvisible
  exact ⟨fun x hx _ => hv x hx ▸ hvisible, he, hb,
    (evaluate_visible ambient context).2 v fun x hx _ => hv x hx ▸ hvisible⟩

end Variables

end Playbook
