import Mathlib.Data.List.Infix
import Mathlib.Data.List.DropRight
import Mathlib.Data.List.TakeWhile
import Playbook.Text.Blank

/-!
# Marks in a text

A text is cut at the first place where a mark stands. What is in front of the cut and all of the
mark but its last character has the mark nowhere, and this tells the place
(`Text.cutAt_eq_some_iff`): the mark may well overlap with itself, but not with an earlier copy of
it. A mark occurs if and only if there is a place to cut at (`Text.occursIn_iff`).

Trimming takes away blanks and nothing else (`Text.exists_trim`), and what is left neither begins
nor ends with one.
-/

namespace Playbook.Text

variable {mark cs ds before behind : List Char} {c d : Char}

theorem dropLead_eq_none : dropLead mark cs = none ↔ ¬ mark <+: cs := by
  rw [Option.eq_none_iff_forall_ne_some]
  constructor
  · rintro h ⟨rest, he⟩
    exact h rest (dropLead_eq_some.mpr he.symm)
  · rintro h rest he
    exact h ⟨rest, (dropLead_eq_some.mp he).symm⟩

/-- What is left before a given ending and the ending make up the whole text. -/
theorem dropTail_eq_some : dropTail mark cs = some before ↔ cs = before ++ mark := by
  unfold dropTail
  rw [Option.map_eq_some_iff]
  constructor
  · rintro ⟨rest, hr, rfl⟩
    rw [← List.reverse_reverse cs, dropLead_eq_some.mp hr]
    simp
  · rintro rfl
    exact ⟨before.reverse, dropLead_eq_some.mpr (by simp), before.reverse_reverse⟩

/-- **Where a text is cut**: at a mark in front of which there is no other. -/
theorem cutAt_eq_some_iff (hm : mark ≠ []) :
    cutAt mark cs = some (before, behind)
      ↔ cs = before ++ mark ++ behind ∧ ¬ mark <:+: before ++ mark.dropLast := by
  have hpos : 0 < mark.length := List.length_pos_iff.mpr hm
  induction cs generalizing before with
  | nil =>
    rw [cutAt, if_neg hm]
    constructor
    · intro h
      cases h
    · intro h
      have hlen := congrArg List.length h.1
      simp only [List.length_nil, List.length_append] at hlen
      omega
  | cons c cs ih =>
    rw [cutAt]
    cases hd : dropLead mark (c :: cs) with
    | some rest =>
      -- The mark stands at the beginning, and no shorter text has it.
      have hshort : ¬ mark <:+: mark.dropLast := fun h => by
        have hle := h.length_le
        rw [List.length_dropLast] at hle
        omega
      have hcs := dropLead_eq_some.mp hd
      constructor
      · rintro h
        cases h
        exact ⟨hcs, hshort⟩
      · rintro ⟨he, hn⟩
        cases before with
        | nil =>
          rw [List.nil_append, hcs] at he
          rw [List.append_cancel_left he]
        | cons b before =>
          refine (hn (List.IsPrefix.isInfix ?_)).elim
          have hp : mark <+: b :: before ++ mark.dropLast ++ ([mark.getLast hm] ++ behind) := by
            have hlast : mark.dropLast ++ ([mark.getLast hm] ++ behind) = mark ++ behind := by
              rw [← List.append_assoc, List.dropLast_concat_getLast hm]
            rw [List.append_assoc, hlast, ← List.append_assoc, ← he, hcs]
            exact List.prefix_append _ _
          refine List.prefix_of_prefix_length_le hp (List.prefix_append _ _) ?_
          simp only [List.length_append, List.length_cons, List.length_dropLast]
          omega
    | none =>
      have hnone := dropLead_eq_none.mp hd
      show (cutAt mark cs).map _ = _ ↔ _
      rw [Option.map_eq_some_iff]
      constructor
      · rintro ⟨⟨b, r⟩, hb, he⟩
        cases he
        obtain ⟨rfl, hn⟩ := ih.mp hb
        refine ⟨rfl, fun hi => ?_⟩
        rw [List.cons_append, List.infix_cons_iff] at hi
        refine hi.elim (fun hp => hnone (hp.trans ?_)) hn
        rw [List.append_assoc, List.cons_prefix_cons]
        refine ⟨rfl, (List.prefix_append_right_inj b).mpr ?_⟩
        exact (List.dropLast_prefix mark).trans (List.prefix_append _ _)
      · rintro ⟨he, hn⟩
        cases before with
        | nil => exact (hnone ⟨behind, he.symm⟩).elim
        | cons b before =>
          cases he
          exact ⟨(before, behind), ih.mpr ⟨rfl, fun hi => hn (List.infix_cons hi)⟩, rfl⟩

/-- **A mark occurs** if the text has it somewhere. -/
theorem occursIn_iff (hm : mark ≠ []) : occursIn mark cs = true ↔ mark <:+: cs := by
  unfold occursIn
  constructor
  · intro h
    obtain ⟨⟨before, behind⟩, hc⟩ := Option.isSome_iff_exists.mp h
    exact ⟨before, behind, (eq_of_cutAt hc).symm⟩
  · rintro ⟨before, behind, rfl⟩
    induction before with
    | nil =>
      obtain ⟨c, mark, rfl⟩ := List.exists_cons_of_ne_nil hm
      have hd : dropLead (c :: mark) (c :: (mark ++ behind)) = some behind :=
        dropLead_eq_some.mpr rfl
      show (cutAt (c :: mark) (c :: (mark ++ behind))).isSome = true
      rw [cutAt, hd]
      rfl
    | cons c before ih =>
      rw [List.cons_append, List.cons_append, cutAt]
      split
      · rfl
      · rwa [Option.isSome_map]

theorem occursIn_eq_false_iff (hm : mark ≠ []) : occursIn mark cs = false ↔ ¬ mark <:+: cs := by
  rw [← occursIn_iff hm, Bool.not_eq_true]

theorem cutAt_eq_none_iff (hm : mark ≠ []) : cutAt mark cs = none ↔ ¬ mark <:+: cs := by
  rw [← occursIn_eq_false_iff hm, occursIn, Option.isSome_eq_false_iff, Option.isNone_iff_eq_none]

/-! ## Trimming -/

theorem isBlank_of_isDigit (h : c.isDigit = true) : isBlank c = false := by
  simp only [Char.isDigit, Bool.and_eq_true, decide_eq_true_eq, ge_iff_le, UInt32.le_iff_toNat_le]
    at h
  have hlow : 48 ≤ c.toNat := h.1
  have hhigh : c.toNat ≤ 57 := h.2
  rw [Bool.eq_false_iff]
  intro hb
  simp only [isBlank, Bool.or_eq_true, Bool.and_eq_true, decide_eq_true_eq, beq_iff_eq] at hb
  omega

theorem trimStart_of_not_blank (h : isBlank c = false) : trimStart (c :: cs) = c :: cs :=
  List.dropWhile_cons_of_neg (by rw [h]; exact nofun)

/-- A text that ends with a character other than a blank ends there when it is trimmed. -/
theorem trimEnd_append_singleton (h : isBlank d = false) : trimEnd (cs ++ [d]) = cs ++ [d] := by
  unfold trimEnd
  rw [List.reverse_append, List.reverse_singleton, List.singleton_append,
    List.dropWhile_cons_of_neg (by rw [h]; exact nofun), List.reverse_cons, List.reverse_reverse]

theorem trimStart_append_singleton (h : isBlank d = false) :
    trimStart (cs ++ [d]) = trimStart cs ++ [d] := by
  induction cs with
  | nil => exact trimStart_of_not_blank h
  | cons c cs ih =>
    unfold trimStart at ih ⊢
    rw [List.cons_append, List.dropWhile_cons, List.dropWhile_cons]
    split
    · exact ih
    · rfl

theorem trim_append_singleton (h : isBlank d = false) :
    trim (cs ++ [d]) = trimStart cs ++ [d] := by
  rw [trim, trimStart_append_singleton h, trimEnd_append_singleton h]

/-- **Trimming takes away blanks** in front and behind. -/
theorem exists_trim (cs : List Char) : ∃ lead tail, cs = lead ++ trim cs ++ tail
    ∧ (∀ c ∈ lead, isBlank c = true) ∧ ∀ c ∈ tail, isBlank c = true := by
  refine ⟨cs.takeWhile isBlank, ((trimStart cs).reverse.takeWhile isBlank).reverse, ?_,
    fun c hc => List.mem_takeWhile_imp hc,
    fun c hc => List.mem_takeWhile_imp (List.mem_reverse.mp hc)⟩
  have hend : trim cs ++ ((trimStart cs).reverse.takeWhile isBlank).reverse = trimStart cs := by
    rw [trim, trimEnd, ← List.reverse_append, List.takeWhile_append_dropWhile,
      List.reverse_reverse]
  rw [List.append_assoc, hend]
  exact List.takeWhile_append_dropWhile.symm

/-- A text without blanks is what trimming leaves of it when there are blanks around. -/
theorem trim_of_blanks {lead tail : List Char} (hl : ∀ c ∈ lead, isBlank c = true)
    (ht : ∀ c ∈ tail, isBlank c = true) (hne : cs ≠ []) (hc : ∀ c ∈ cs, isBlank c = false) :
    trim (lead ++ cs ++ tail) = cs := by
  obtain ⟨c, us, rfl⟩ := List.exists_cons_of_ne_nil hne
  have hstart : trimStart (lead ++ (c :: us) ++ tail) = (c :: us) ++ tail := by
    unfold trimStart
    rw [List.append_assoc, List.dropWhile_append_of_pos hl]
    exact trimStart_of_not_blank (hc c List.mem_cons_self)
  have hend : (c :: us).reverse.dropWhile isBlank = (c :: us).reverse := by
    refine List.dropWhile_eq_self_iff.mpr fun hlt hb => ?_
    rw [hc _ (List.mem_reverse.mp (List.getElem_mem hlt))] at hb
    cases hb
  rw [trim, hstart, trimEnd, List.reverse_append,
    List.dropWhile_append_of_pos fun c hm => ht c (List.mem_reverse.mp hm), hend,
    List.reverse_reverse]

/-- Trimming twice is trimming once: what is cut off at the end leaves the beginning as it is. -/
theorem trim_trim (cs : List Char) : trim (trim cs) = trim cs := by
  have hstart : trimStart (trim cs) = trim cs := by
    refine List.dropWhile_eq_self_iff.mpr fun hl hb => ?_
    have hp : trim cs <+: trimStart cs := List.rdropWhile_prefix isBlank (trimStart cs)
    rw [hp.getElem hl] at hb
    exact List.dropWhile_eq_self_iff.mp (List.dropWhile_idempotent isBlank cs)
      (Nat.lt_of_lt_of_le hl hp.length_le) hb
  rw [trim, hstart]
  exact List.rdropWhile_idempotent isBlank (trimStart cs)

end Playbook.Text
