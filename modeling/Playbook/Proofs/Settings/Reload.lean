import Playbook.Proofs.Document.Decoding
import Playbook.Settings.Reader

/-!
# Settings that are written and read again

Whatever settings are read from a JSON text, the text that is written of them gives the same
settings again (`Settings.ofJson_toValue`). Nothing can get lost, because settings hold booleans and
counts only, and every count that is read fits into 64 bits (`Settings.inRange_of_decode`): it is
written as an integer, and integers are read back.
-/

namespace Playbook

open Decode (takeField)
open Document (Nested reread)

/-! ## Ranges -/

/-- The counts in the defaults of blocks are in range. -/
structure ParallelDefaults.InRange (p : ParallelDefaults) : Prop where
  maxConcurrency : p.maxConcurrency < twoTo 64
  timeout : p.timeout < twoTo 64

/-- The counts in the defaults of batches are in range. -/
structure BatchDefaults.InRange (b : BatchDefaults) : Prop where
  size : b.size < twoTo 64
  delay : b.delay < twoTo 64
  maxRetries : b.maxRetries < twoTo 32
  retryDelay : b.retryDelay < twoTo 64

namespace Settings

/-- **The counts in settings are in range**: 32 bits hold the number of retries, and 64 bits the
others. -/
structure InRange (s : Settings) : Prop where
  maxKeywordDepth : s.maxKeywordDepth < twoTo 64
  maxWhileIterations : s.maxWhileIterations < twoTo 64
  parallel : s.parallel.InRange
  batch : s.batch.InRange
  raceTimeout : s.raceTimeout < twoTo 64

theorem inRange_default : default.InRange where
  maxKeywordDepth := by decide +kernel
  maxWhileIterations := by decide +kernel
  parallel := ⟨by decide +kernel, by decide +kernel⟩
  batch := ⟨by decide +kernel, by decide +kernel, by decide +kernel, by decide +kernel⟩
  raceTimeout := by decide +kernel

variable {n : Nat} {d : Document}

theorem parallel_inRange {p : ParallelDefaults} (hd : Nested n d)
    (h : Decode.struct parallelFields default.parallel .ok d = .ok p) : p.InRange := by
  obtain ⟨m, rfl, hspec⟩ := Decode.struct_spec hd h
  have hfields : ∀ f ∈ parallelFields, f.Preserves ParallelDefaults.InRange m := by
    refine List.forall_mem_cons.mpr ⟨Decode.field_preserves fun _ _ _ _ h hp => ?_, ?_⟩
    · exact ⟨Decode.count_lt h, hp.timeout⟩
    refine List.forall_mem_cons.mpr ⟨Decode.field_preserves fun _ _ _ _ h hp => ?_, ?_⟩
    · exact ⟨hp.maxConcurrency, Decode.count_lt h⟩
    exact List.forall_mem_singleton.mpr
      (Decode.field_preserves fun _ _ _ _ _ hp => ⟨hp.maxConcurrency, hp.timeout⟩)
  obtain ⟨_, hp, ⟨⟩⟩ := hspec _ inRange_default.parallel hfields
  exact hp

theorem batch_inRange {b : BatchDefaults} (hd : Nested n d)
    (h : Decode.struct batchFields default.batch .ok d = .ok b) : b.InRange := by
  obtain ⟨m, rfl, hspec⟩ := Decode.struct_spec hd h
  have hfields : ∀ f ∈ batchFields, f.Preserves BatchDefaults.InRange m := by
    refine List.forall_mem_cons.mpr ⟨Decode.field_preserves fun _ _ _ _ h hb => ?_, ?_⟩
    · exact ⟨Decode.count_lt h, hb.delay, hb.maxRetries, hb.retryDelay⟩
    refine List.forall_mem_cons.mpr ⟨Decode.field_preserves fun _ _ _ _ h hb => ?_, ?_⟩
    · exact ⟨hb.size, Decode.count_lt h, hb.maxRetries, hb.retryDelay⟩
    refine List.forall_mem_cons.mpr ⟨Decode.field_preserves fun _ _ _ _ h hb => ?_, ?_⟩
    · exact ⟨hb.size, hb.delay, Decode.count_lt h, hb.retryDelay⟩
    refine List.forall_mem_singleton.mpr (Decode.field_preserves fun _ _ _ _ h hb => ?_)
    exact ⟨hb.size, hb.delay, hb.maxRetries, Decode.count_lt h⟩
  obtain ⟨_, hb, ⟨⟩⟩ := hspec _ inRange_default.batch hfields
  exact hb

theorem race_inRange {timeout : Nat} (hd : Nested n d)
    (h : Decode.struct raceFields default.raceTimeout .ok d = .ok timeout) :
    timeout < twoTo 64 := by
  obtain ⟨m, rfl, hspec⟩ := Decode.struct_spec hd h
  have hfields : ∀ f ∈ raceFields, f.Preserves (· < twoTo 64) m :=
    List.forall_mem_singleton.mpr (Decode.field_preserves fun _ _ _ _ h _ => Decode.count_lt h)
  obtain ⟨_, ht, ⟨⟩⟩ := hspec _ inRange_default.raceTimeout hfields
  exact ht

/-- **All settings that are decoded are in range**. -/
theorem inRange_of_decode {s : Settings} (hd : Nested n d) (h : decode d = .ok s) :
    s.InRange := by
  obtain ⟨m, rfl, hspec⟩ := Decode.struct_spec hd h
  have hfields : ∀ f ∈ fields, f.Preserves InRange m := by
    refine List.forall_mem_cons.mpr ⟨Decode.field_preserves fun _ _ _ _ h hs => ?_, ?_⟩
    · exact { hs with maxKeywordDepth := Decode.count_lt h }
    refine List.forall_mem_cons.mpr ⟨Decode.field_preserves fun _ _ _ _ h hs => ?_, ?_⟩
    · exact { hs with maxWhileIterations := Decode.count_lt h }
    refine List.forall_mem_cons.mpr ⟨Decode.field_preserves fun _ _ _ hd h hs => ?_, ?_⟩
    · exact { hs with parallel := parallel_inRange hd h }
    refine List.forall_mem_cons.mpr ⟨Decode.field_preserves fun _ _ _ hd h hs => ?_, ?_⟩
    · exact { hs with batch := batch_inRange hd h }
    refine List.forall_mem_cons.mpr ⟨Decode.field_preserves fun _ _ _ hd h hs => ?_, ?_⟩
    · exact { hs with raceTimeout := race_inRange hd h }
    exact List.forall_mem_singleton.mpr (Decode.field_preserves fun _ _ _ _ _ hs => { hs with })
  obtain ⟨_, hs, ⟨⟩⟩ := hspec _ inRange_default hfields
  exact hs

/-! ## Settings as they are written -/

theorem count_nat {m bound : Nat} (hm : m < bound) (hb : bound ≤ twoTo 64) :
    Decode.count bound (reread (.nat m)) = .ok m :=
  (Decode.readsBack_nat (Nat.lt_of_lt_of_le hm hb)).2 _ hm

theorem count64_nat {m : Nat} (hm : m < twoTo 64) : count64 (reread (.nat m)) = .ok m :=
  count_nat hm (Nat.le_refl _)

theorem parallel_reread {p : ParallelDefaults} (hp : p.InRange) :
    Decode.struct parallelFields default.parallel .ok (reread (.record [
      ("max_concurrency", .nat p.maxConcurrency),
      ("timeout", .nat p.timeout),
      ("fail_fast", .bool p.failFast)])) = .ok p := by
  rw [Decode.struct_reread (by simp [Named.names]),
    Decode.foldlM_takeField_cons rfl (count64_nat hp.maxConcurrency),
    Decode.foldlM_takeField_cons rfl (count64_nat hp.timeout)]
  rfl

theorem batch_reread {b : BatchDefaults} (hb : b.InRange) :
    Decode.struct batchFields default.batch .ok (reread (.record [
      ("size", .nat b.size),
      ("delay", .nat b.delay),
      ("max_retries", .nat b.maxRetries),
      ("retry_delay", .nat b.retryDelay)])) = .ok b := by
  have hretries : Decode.count (twoTo 32) (reread (.nat b.maxRetries)) = .ok b.maxRetries :=
    count_nat hb.maxRetries (by decide +kernel)
  rw [Decode.struct_reread (by simp [Named.names]),
    Decode.foldlM_takeField_cons rfl (count64_nat hb.size),
    Decode.foldlM_takeField_cons rfl (count64_nat hb.delay),
    Decode.foldlM_takeField_cons rfl hretries,
    Decode.foldlM_takeField_cons rfl (count64_nat hb.retryDelay)]
  rfl

theorem race_reread {timeout : Nat} (ht : timeout < twoTo 64) :
    Decode.struct raceFields default.raceTimeout .ok (reread (.record [("timeout", .nat timeout)]))
      = .ok timeout := by
  rw [Decode.struct_reread (by simp [Named.names]),
    Decode.foldlM_takeField_cons rfl (count64_nat ht)]
  rfl

/-- **What is written of settings** is decoded to the settings. -/
theorem decode_toValue {s : Settings} (hs : s.InRange) : decode (reread s.toValue) = .ok s := by
  rw [decode, toValue, Decode.struct_reread (by simp [Named.names]),
    Decode.foldlM_takeField_cons rfl (count64_nat hs.maxKeywordDepth),
    Decode.foldlM_takeField_cons rfl (count64_nat hs.maxWhileIterations),
    Decode.foldlM_takeField_cons rfl (parallel_reread hs.parallel),
    Decode.foldlM_takeField_cons rfl (batch_reread hs.batch),
    Decode.foldlM_takeField_cons rfl (race_reread hs.raceTimeout)]
  rfl

theorem height_nat (m n : Nat) : (Value.nat m).height ≤ n := by
  unfold Value.nat Value.int
  split <;> exact Nat.zero_le n

theorem height_toValue (s : Settings) : s.toValue.height ≤ 2 := by
  have hrecord : ∀ {n : Nat} {fields : Named Value}, (∀ f ∈ fields, f.2.height ≤ n) →
      (Value.record fields).height ≤ n + 1 := fun h => Nat.succ_le_succ (Value.heightFields_le h)
  have hbool : ∀ b, (Value.bool b).height ≤ 0 := fun _ => Nat.le_refl 0
  unfold toValue
  refine hrecord ?_
  simp only [List.forall_mem_cons, List.not_mem_nil, false_implies, implies_true, and_true]
  refine ⟨height_nat _ _, height_nat _ _, hrecord ?_, hrecord ?_, hrecord ?_, Nat.zero_le 1⟩
  all_goals simp only [List.forall_mem_cons, List.not_mem_nil, false_implies, implies_true,
    and_true, height_nat, hbool]

/-- **The text that is written of settings** yields the same settings again. -/
theorem ofJson_toValue {text : String} {s : Settings} (h : ofJson text = .ok s) :
    ofJson s.toValue.render = .ok s := by
  obtain ⟨d, hd, hdecode⟩ := Decode.exists_of_ofJson (Decode.mapError_eq_ok_iff.mp h)
  have hheight : s.toValue.height ≤ 127 := Nat.le_trans (height_toValue s) (by decide)
  rw [ofJson, Decode.ofJson_render hheight, decode_toValue (inRange_of_decode hd hdecode)]
  rfl

end Settings

end Playbook
