import Playbook.Proofs.Value.Fields
import Playbook.Step.Reader

/-!
# Steps inside of steps

A step is read down to the height of its record. The lists of steps that it holds stand in fields
of that record or of a record in one of them, so they are lower, and what is read of them is
all that a step takes from them (`Step.readWith_congr`). So no other depth would give another result
(`Step.readAt_eq`), and the steps in a step are read as they are on their own (`Step.read_eq`).
-/

namespace Playbook

open Value (heightFields)

namespace Step

variable {steps steps' : Value → Except Failure (List Step)} {n : Nat} {fields : Named Value}
  {v : Value}

/-- Two readers agree on the values up to some height. -/
def AgreeTo (n : Nat) (steps steps' : Value → Except Failure (List Step)) : Prop :=
  ∀ v : Value, v.height ≤ n → steps v = steps' v

/-- Readers that agree on all the fields of a record agree on the field under a key. -/
theorem AgreeTo.field (h : AgreeTo n steps steps') (hf : heightFields fields ≤ n) (key : String) :
    steps (fieldOrNull key fields) = steps' (fieldOrNull key fields) := by
  refine h _ (Nat.le_trans ?_ hf)
  unfold fieldOrNull
  cases hl : fields.lookup key with
  | none => exact Nat.zero_le _
  | some v => exact Value.height_le_of_lookup hl

/-- So they do on all the fields of a record below a value. -/
theorem AgreeTo.inner (h : AgreeTo n steps steps') (hv : v.height ≤ n) (key : String)
    {inner : Named Value} (hi : v = .record inner) :
    steps (fieldOrNull key inner) = steps' (fieldOrNull key inner) := by
  subst hi
  exact h.field (Nat.le_of_succ_le hv) key

/-! ## Readers of constructs

Each asks for steps at its own value, at the fields of a record there, or at the fields beside
it. -/

theorem branch_congr (h : AgreeTo n steps steps') (hv : v.height ≤ n)
    (hf : heightFields fields ≤ n) : branch steps v fields = branch steps' v fields := by
  have hplace : heightFields ((v.fields?.filter fun inner =>
      (inner.lookup "condition").isSome).getD fields) ≤ n := by
    cases v with
    | record inner =>
      show heightFields ((Option.filter _ (some inner)).getD fields) ≤ n
      rw [Option.filter_some]
      split
      · exact Nat.le_of_succ_le hv
      · exact hf
    | _ => exact hf
  unfold branch
  dsimp only
  rw [h.field hplace, h.field hplace]

/-- What is made of the record at a value may use that it is there. -/
theorem recordOf_bind_congr {α : Type} {construct : String} {f f' : Named Value → Except Failure α}
    (h : ∀ inner, v = .record inner → f inner = f' inner) :
    (recordOf construct v >>= f) = (recordOf construct v >>= f') := by
  cases v with
  | record inner => exact h inner rfl
  | _ => rfl

theorem forEachLoop_congr (h : AgreeTo n steps steps') (hv : v.height ≤ n) :
    forEachLoop steps v = forEachLoop steps' v :=
  recordOf_bind_congr fun _ hi => by rw [h.inner hv _ hi]

theorem mapLoop_congr (h : AgreeTo n steps steps') (hv : v.height ≤ n) :
    mapLoop steps v = mapLoop steps' v :=
  recordOf_bind_congr fun _ hi => by rw [h.inner hv _ hi]

theorem whileLoop_congr (h : AgreeTo n steps steps') (hv : v.height ≤ n) :
    whileLoop steps v = whileLoop steps' v :=
  recordOf_bind_congr fun _ hi => by rw [h.inner hv _ hi]

theorem repeatLoop_congr (h : AgreeTo n steps steps') (hv : v.height ≤ n) :
    repeatLoop steps v = repeatLoop steps' v :=
  recordOf_bind_congr fun _ hi => by rw [h.inner hv _ hi]

theorem measurement_congr (h : AgreeTo n steps steps') (hv : v.height ≤ n) :
    measurement steps v = measurement steps' v :=
  recordOf_bind_congr fun _ hi => by rw [h.inner hv _ hi]

theorem raceBlock_congr (h : AgreeTo n steps steps') (hv : v.height ≤ n) :
    raceBlock steps v fields = raceBlock steps' v fields := by
  cases v with
  | record inner =>
    unfold raceBlock
    dsimp only
    rw [h.inner hv _ rfl]
  | _ =>
    unfold raceBlock
    dsimp only
    rw [h _ hv]

theorem batchBlock_congr (h : AgreeTo n steps steps') (hv : v.height ≤ n) :
    batchBlock steps v fields = batchBlock steps' v fields := by
  cases v with
  | record inner =>
    unfold batchBlock
    dsimp only
    rw [h.inner hv _ rfl]
  | _ =>
    unfold batchBlock
    dsimp only
    rw [h _ hv]

theorem forEachBlock_congr (h : AgreeTo n steps steps') (hv : v.height ≤ n) :
    forEachBlock steps v fields = forEachBlock steps' v fields :=
  recordOf_bind_congr fun _ hi => by rw [h.inner hv _ hi]

theorem parallelBlock_congr (h : AgreeTo n steps steps') (hv : v.height ≤ n) :
    parallelBlock steps v = parallelBlock steps' v := by
  cases v with
  | list items =>
    unfold parallelBlock
    dsimp only
    rw [h _ hv]
  | record inner =>
    have hfield : ∀ {key w}, inner.lookup key = some w → w.height ≤ n := fun hl =>
      Nat.le_trans (Value.height_le_of_lookup hl) (Nat.le_of_succ_le hv)
    unfold parallelBlock
    dsimp only
    split
    · exact raceBlock_congr h (hfield ‹inner.lookup "race" = some _›)
    · exact batchBlock_congr h (hfield ‹inner.lookup "batch" = some _›)
    · exact forEachBlock_congr h (hfield ‹inner.lookup "forEach" = some _›)
    · rw [h _ (hfield ‹inner.lookup "actions" = some _›)]
    · rfl
  | _ => rfl

theorem tryBlock_congr (h : AgreeTo n steps steps') (hv : v.height ≤ n)
    (hf : heightFields fields ≤ n) : tryBlock steps v fields = tryBlock steps' v fields := by
  have hcatch : (fields.lookup "catch").mapM steps = (fields.lookup "catch").mapM steps' := by
    cases hl : fields.lookup "catch" with
    | none => rfl
    | some w =>
      show steps w >>= _ = steps' w >>= _
      rw [h _ (Nat.le_trans (Value.height_le_of_lookup hl) hf)]
  unfold tryBlock
  rw [h _ hv, hcatch, h.field hf]

/-! ## Steps -/

/-- The first construct that is there is the same for two tables of constructs with the same keys,
if those of the keys that are there introduce the same. -/
theorem firstConstruct_congr {table table' : List (String × (Value → Except Failure Action))}
    (h : List.Forall₂ (fun a b => a.1 = b.1 ∧ ∀ w, fields.lookup a.1 = some w → a.2 w = b.2 w)
      table table') : firstConstruct fields table = firstConstruct fields table' := by
  induction h with
  | nil => rfl
  | @cons a b rest rest' hab _ ih =>
    obtain ⟨key, read⟩ := a
    obtain ⟨key', read'⟩ := b
    obtain ⟨rfl, hread⟩ := hab
    rw [firstConstruct, firstConstruct]
    dsimp only at hread ⊢
    cases hl : fields.lookup key with
    | some w => exact hread w hl
    | none => exact ih

/-- **A step takes nothing but lists of steps below its record** from the reader of lists. -/
theorem readWith_congr (h : ∀ w : Value, w.height < v.height → steps w = steps' w) :
    readWith steps v = readWith steps' v := by
  cases v with
  | record fields =>
    have hagree : AgreeTo (heightFields fields) steps steps' := fun w hw =>
      h w (Nat.lt_succ_of_le hw)
    have hf : heightFields fields ≤ heightFields fields := Nat.le_refl _
    have hv : ∀ {key w}, fields.lookup key = some w → w.height ≤ heightFields fields :=
      Value.height_le_of_lookup
    have hfirst : firstConstruct fields (constructs steps fields)
        = firstConstruct fields (constructs steps' fields) := by
      refine firstConstruct_congr ?_
      exact .cons ⟨rfl, fun _ _ => rfl⟩ <| .cons ⟨rfl, fun _ _ => rfl⟩ <|
        .cons ⟨rfl, fun _ hw => branch_congr hagree (hv hw) hf⟩ <|
        .cons ⟨rfl, fun _ hw => forEachLoop_congr hagree (hv hw)⟩ <|
        .cons ⟨rfl, fun _ hw => mapLoop_congr hagree (hv hw)⟩ <|
        .cons ⟨rfl, fun _ _ => rfl⟩ <|
        .cons ⟨rfl, fun _ hw => whileLoop_congr hagree (hv hw)⟩ <|
        .cons ⟨rfl, fun _ hw => repeatLoop_congr hagree (hv hw)⟩ <|
        .cons ⟨rfl, fun _ hw => parallelBlock_congr hagree (hv hw)⟩ <|
        .cons ⟨rfl, fun _ hw => tryBlock_congr hagree (hv hw) hf⟩ <|
        .cons ⟨rfl, fun _ _ => rfl⟩ <| .cons ⟨rfl, fun _ _ => rfl⟩ <|
        .cons ⟨rfl, fun _ _ => rfl⟩ <|
        .cons ⟨rfl, fun _ hw => measurement_congr hagree (hv hw)⟩ .nil
    unfold readWith
    dsimp only
    rw [hfirst]
  | _ => rfl

theorem mapM_congr {read read' : Value → Except Failure Step} {items : List Value}
    (h : ∀ w ∈ items, read w = read' w) : items.mapM read = items.mapM read' := by
  induction items with
  | nil => rfl
  | cons w rest ih =>
    obtain ⟨hw, hrest⟩ := List.forall_mem_cons.mp h
    rw [List.mapM_cons, List.mapM_cons, hw, ih hrest]

/-- A list of steps takes nothing but its items from the reader of steps, or the single step that
it is. -/
theorem listWith_congr {read read' : Value → Except Failure Step}
    (h : ∀ w : Value, w.height ≤ v.height → read w = read' w) :
    listWith read v = listWith read' v := by
  cases v with
  | list items =>
    exact mapM_congr fun w hw => h w (Nat.le_succ_of_le (Value.height_le_of_mem_items hw))
  | record fields =>
    unfold listWith
    dsimp only
    rw [h _ (Nat.le_refl _)]
  | _ => rfl

/-- **The depth does not show** from the height of a step on. The induction is on the depth: a step
leaves only lower ones to the depth below. -/
theorem readAt_eq {d d' : Nat} (hd : v.height ≤ d) (hd' : v.height ≤ d') :
    readAt d v = readAt d' v := by
  have hflat : ∀ {v : Value} (d : Nat), v.height ≤ 0 → readAt d v = flawed (.stepNotRecord v) := by
    intro v d hv
    cases v with
    | record fields => cases hv
    | _ => cases d <;> rfl
  induction d generalizing d' v with
  | zero => rw [hflat 0 hd, hflat d' hd]
  | succ d ih =>
    cases d' with
    | zero => rw [hflat 0 hd', hflat _ hd']
    | succ d' =>
      refine readWith_congr fun w hw => listWith_congr fun u hu => ?_
      have hlt : u.height < v.height := Nat.lt_of_le_of_lt hu hw
      exact ih (Nat.le_of_lt_succ (Nat.lt_of_lt_of_le hlt hd))
        (Nat.le_of_lt_succ (Nat.lt_of_lt_of_le hlt hd'))

/-- **The steps in a step are read as they are on their own.** -/
theorem read_eq (v : Value) : read v = readWith readList v := by
  have hdepth : read v = readAt (v.height + 1) v := readAt_eq (Nat.le_refl _) (Nat.le_succ _)
  rw [hdepth, readAt]
  refine readWith_congr fun w hw => listWith_congr fun u hu => ?_
  exact readAt_eq (Nat.le_trans hu (Nat.le_of_lt hw)) (Nat.le_refl _)

end Step

end Playbook
