import Mathlib.Algebra.Ring.Nat
import Mathlib.Data.List.Perm.Subperm
import Playbook.Proofs.Process.Resting
import Playbook.Proofs.Run.Aggregation
import Playbook.Proofs.Run.Blocks

/-!
# Batches are barriers

A batch runs its operations in chunks. It opens a block for each chunk, waits until the block
yields, pauses, and opens the next one; and it goes on with the results of all chunks together.
Between these steps there are many turns of other tasks. The task may also be cut off where it
waits, by a time limit or with its race.

`Batch.Course` tells what happens to a batch as a list of blocks, with the moments at which they
were opened and have yielded, and `Batch.exists_course` says that every batch takes such a
course. What is to be shown of batches is then shown by induction on the course: that the chunks
are barriers (`Batch.Course.barriers`) and what the summary says (`Batch.Course.reported`).
-/

namespace Playbook

variable {σ : Type}

/-! ## Chunks -/

namespace Runner

variable {α : Type} {size j : Nat} {items chunk : List α}

/-- Behind some chunks come the chunks of what is left. -/
theorem drop_chunks (size : Nat) (items : List α) (j : Nat) :
    (chunks size items).drop j = chunks size (items.drop (j * max size 1)) := by
  induction j generalizing items with
  | zero => rw [Nat.zero_mul, List.drop_zero, List.drop_zero]
  | succ j ih =>
    by_cases hne : items = []
    · subst hne
      rw [chunks, dif_pos rfl, List.drop_nil, List.drop_nil, chunks, dif_pos rfl]
    · rw [chunks, dif_neg hne, List.drop_succ_cons, ih, List.drop_drop, Nat.succ_mul, Nat.add_comm]

/-- **The chunks of a list** are what stands from one multiple of the size to the next. -/
theorem getElem?_chunks (h : (chunks size items)[j]? = some chunk) :
    j * max size 1 < items.length ∧ chunk = (items.drop (j * max size 1)).take (max size 1)
      ∧ ((chunks size items).take j).flatten.length = j * max size 1 := by
  have hhead : (chunks size (items.drop (j * max size 1))).head? = some chunk := by
    rw [← drop_chunks, List.head?_drop]
    exact h
  have hne : items.drop (j * max size 1) ≠ [] := by
    intro hnil
    rw [hnil, chunks, dif_pos rfl] at hhead
    cases hhead
  have hlt : j * max size 1 < items.length :=
    Nat.not_le.mp fun hle => hne (List.drop_eq_nil_of_le hle)
  rw [chunks, dif_neg hne] at hhead
  refine ⟨hlt, (Option.some.inj hhead).symm, ?_⟩
  -- what stands before the chunk is what does not stand behind it
  have hall := congrArg (List.length ∘ List.flatten) (List.take_append_drop j (chunks size items))
  dsimp only [Function.comp_apply] at hall
  rw [List.flatten_append, List.length_append, drop_chunks, flatten_chunks, flatten_chunks,
    List.length_drop] at hall
  omega

/-- Chunks are not empty, and none is longer than the size. -/
theorem of_mem_chunks (h : chunk ∈ chunks size items) :
    chunk ≠ [] ∧ chunk.length ≤ max size 1 := by
  obtain ⟨j, hj⟩ := List.mem_iff_getElem?.mp h
  obtain ⟨hlt, rfl, -⟩ := getElem?_chunks hj
  refine ⟨List.ne_nil_of_length_pos ?_, List.length_take_le _ _⟩
  rw [List.length_take, List.length_drop]
  exact Nat.lt_min.mpr ⟨Nat.le_max_right size 1, Nat.sub_pos_of_lt hlt⟩

/-- A position in a list, by the chunk and by the place in it. -/
theorem div_mod_place (j : Nat) {size o : Nat} (ho : o < size) :
    (j * size + o) / size = j ∧ (j * size + o) % size = o :=
  (Nat.div_mod_unique (Nat.zero_lt_of_lt ho)).mpr
    ⟨by rw [Nat.mul_comm, Nat.add_comm], ho⟩

end Runner

/-! ## What a batch does -/

/-- **A batch** of an engine, with its pause between two chunks, the variables of its operations and
what follows it. -/
structure Batch (σ : Type) where
  engine : Engine σ
  delay : Nat
  vars : Variables
  next : Outcome → Task σ

namespace Batch

/-- A chunk of a batch: its operations and the chunks behind it. The chunks before it have come
out with `results`, and its first operation has the position `base` in the batch. -/
structure Chunk (σ : Type) where
  results : List (List OperationResult)
  base : Nat
  operations : List (Runner σ)
  rest : List (List (Runner σ))

/-- What is left of a batch to do. -/
def left (B : Batch σ) (results : List (List OperationResult)) (base : Nat)
    (chunks : List (List (Runner σ))) : Task σ :=
  (Runner.chunksFrom B.engine B.delay results base chunks B.vars).andThen B.next

/-- What follows a chunk. -/
def follow (B : Batch σ) (c : Chunk σ) (settled : Settled Outcome Crash) : Task σ :=
  B.left (OperationResult.ofSettled c.base settled :: c.results) (c.base + c.operations.length)
    c.rest

/-- The block of a chunk, with what follows it. -/
def block (B : Batch σ) (c : Chunk σ) : Task σ :=
  .gather c.operations.length (fun _ => false) (c.operations.map fun r => r B.vars) B.vars
    (B.follow c)

/-- The pause before a chunk. There is none before the first one. -/
def pause (B : Batch σ) (c : Chunk σ) : Nat := if c.results.isEmpty then 0 else B.delay

variable {B : Batch σ} {c : Chunk σ}

/-- A batch goes on with the summary of all results when there are no chunks left. -/
theorem left_nil (results : List (List OperationResult)) (base : Nat) :
    B.left results base []
      = (Runner.tallying B.engine results.reverse.flatten B.vars).andThen B.next := by
  rw [← Runner.summarize_eq_tallying]
  rfl

/-- Otherwise it makes the pause and goes on with the next chunk. -/
theorem left_cons (c : Chunk σ) :
    B.left c.results c.base (c.operations :: c.rest)
      = if c.results.isEmpty then B.block c else .sleep B.delay B.vars (B.block c) := by
  unfold left Runner.chunksFrom
  dsimp only
  cases c.results.isEmpty with
  | true => rfl
  | false => rfl

/-! ## Where the task of a batch is -/

/-- **Where the task of a batch waits** that has these chunks left to open: for the end of a
pause, or for the chunk that it has opened. -/
inductive Waits (B : Batch σ) :
    List (List (Runner σ)) → Waiting (Deed σ) (World σ) Variables Outcome Crash → Prop
  | pausing {alarm} (c : Chunk σ) :
    Waits B (c.operations :: c.rest) (.asleep alarm B.vars (B.block c))
  | working {block} (c : Chunk σ) : Waits B c.rest (.blocked block B.vars (B.follow c))

/-- **A batch is under way**, with these chunks left to open: its task goes on with them, or it
waits. -/
inductive UnderWay (B : Batch σ) (id : Nat)
    (b : Moment (Deed σ) (World σ) Variables Outcome Crash) : List (List (Runner σ)) → Prop
  | left {task limits} (c : Chunk σ)
    (hs : b.stage = .going task (B.left c.results c.base (c.operations :: c.rest)) limits)
    (hid : task.id = id) : UnderWay B id b (c.operations :: c.rest)
  | opening {task limits} (c : Chunk σ) (hs : b.stage = .going task (B.block c) limits)
    (hid : task.id = id) : UnderWay B id b (c.operations :: c.rest)
  | resting {chunks w} (hw : B.Waits chunks w) (hr : b.Rests id w) : UnderWay B id b chunks

/-- **A chunk is opened**: its task comes to it at the moment `a`, the pause is over at `x`, and
the block is opened with the next step. -/
structure Opens (B : Batch σ) (P : Task σ → Prop) (id : Nat) (c : Chunk σ)
    (a x y : Moment (Deed σ) (World σ) Variables Outcome Crash) : Prop where
  later : Moment.Later P a x
  next : Moment.Next P x y
  pause : a.machine.now + B.pause c ≤ x.machine.now
  opened : .opened id x.machine.serial (B.block c) ∈ y.past
  openedBy : Event.openedBy id y.past = Event.openedBy id a.past ++ [x.machine.serial]
  rests : y.Rests id (.blocked x.machine.serial B.vars (B.follow c))

/-- **How a batch stands** at the moment `b`, with these chunks left to open, if its task has
last been in it at `z`: it is under way, or the task was cut off where it waited, or the batch
is over and the task has gone on with the summary of these results. -/
inductive Stands (B : Batch σ) (id : Nat)
    (z b : Moment (Deed σ) (World σ) Variables Outcome Crash) :
    List (List (Runner σ)) → Option (List OperationResult) → Prop
  | underWay {chunks} (hz : z = b) (h : B.UnderWay id b chunks) : Stands B id z b chunks none
  | cutOff {chunks w es} (hw : B.Waits chunks w) (hr : z.Rests id w)
    (hes : b.past = z.past ++ es) (hc : Event.CutAt es id w) : Stands B id z b chunks none
  | ended {task limits rs} (hs : z.stage = .going task
      ((Runner.tallying B.engine rs B.vars).andThen B.next) limits) (hid : task.id = id) :
    Stands B id z b [] (some rs)

/-- **How far a batch comes** from the moment `a` to the moment `b`: as long as its task is in
it, the task opens these blocks and no others. -/
def Comes (B : Batch σ) (P : Task σ → Prop) (id : Nat) (blocks : List Nat)
    (chunks : List (List (Runner σ))) (rs? : Option (List OperationResult))
    (a b : Moment (Deed σ) (World σ) Variables Outcome Crash) : Prop :=
  ∃ z, Moment.Later P a z ∧ Moment.Later P z b
    ∧ Event.openedBy id z.past = Event.openedBy id a.past ++ blocks
    ∧ B.Stands id z b chunks rs?

/-- **The course of a batch** up to the moment `b`, from a moment at which its task goes on with
chunks that are left: the blocks that it has opened for them, one after the other, and the
results if the batch is over. -/
inductive Course (B : Batch σ) (P : Task σ → Prop) (id : Nat)
    (b : Moment (Deed σ) (World σ) Variables Outcome Crash) :
    List (List OperationResult) → Nat → List (List (Runner σ)) → List Nat →
    Option (List OperationResult) → Moment (Deed σ) (World σ) Variables Outcome Crash → Prop
  | ended {results base a} (h : B.Comes P id [] [] (some results.reverse.flatten) a b) :
    Course B P id b results base [] [] (some results.reverse.flatten) a
  | ahead {results base chunks a} (h : B.Comes P id [] chunks none a b) :
    Course B P id b results base chunks [] none a
  | working {a x y} (c : Chunk σ) (ho : B.Opens P id c a x y)
    (h : B.Comes P id [] c.rest none y b) :
    Course B P id b c.results c.base (c.operations :: c.rest) [x.machine.serial] none a
  | next {a x y u blocks s rs?} (c : Chunk σ) (ho : B.Opens P id c a x y)
    (hu : Moment.GoesOn P id (B.follow c s) y u) (hub : Moment.Later P u b)
    (hy : .yielded id x.machine.serial s ∈ u.past)
    (h : Course B P id b (OperationResult.ofSettled c.base s :: c.results)
      (c.base + c.operations.length) c.rest blocks rs? u) :
    Course B P id b c.results c.base (c.operations :: c.rest) (x.machine.serial :: blocks) rs? a

variable {P : Task σ → Prop} {id : Nat}
  {a b x : Moment (Deed σ) (World σ) Variables Outcome Crash}

/-! ## Every batch takes its course -/

section

variable {w : World σ} {task : Machine.Task (Deed σ) (World σ) Variables Outcome Crash}
  {limits : List (Limit (Deed σ) (World σ) Variables Outcome Crash)}

theorem Comes.of_held {v : Waiting (Deed σ) (World σ) Variables Outcome Crash}
    {chunks : List (List (Runner σ))} (hw : B.Waits chunks v) (h : Moment.Held P id v a b) :
    B.Comes P id [] chunks none a b := by
  obtain ⟨z, haz, hzb, hsame, hr, rfl | ⟨es, hes, hc⟩⟩ := h
  · exact ⟨z, haz, hzb, by rw [hsame, List.append_nil], .underWay rfl (.resting hw hr)⟩
  · exact ⟨z, haz, hzb, by rw [hsame, List.append_nil], .cutOff hw hr hes hc⟩

/-- A task that goes on with a chunk opens it with the next step. -/
theorem opens_of_goesOn (hx : Moment.GoesOn P id (B.block c) a x) (hxb : Moment.Later P x b)
    (hpause : a.machine.now + B.pause c ≤ x.machine.now) (hne : c.operations ≠ []) :
    B.Comes P id [] (c.operations :: c.rest) none a b
      ∨ ∃ x y, B.Opens P id c a x y ∧ Moment.Later P y b := by
  obtain ⟨task, limits, hs, hid⟩ := hx.going
  obtain rfl | ⟨y, hxy, hyb⟩ := hxb.cases_head
  · exact .inl ⟨x, hx.later, .refl, by rw [hx.openedBy, List.append_nil],
      .underWay rfl (.opening c hs hid)⟩
  · obtain ⟨hs', start, hpast⟩ | ⟨hnil, -⟩ := hxy.comes hs rfl
    · rw [hid] at hpast
      refine .inr ⟨x, y, ⟨hx.later, hxy, hpause, ?_, ?_, .waiting hs' hid rfl⟩, hyb⟩
      · rw [hpast]
        exact List.mem_append_right _ List.mem_cons_self
      · rw [hpast, Event.openedBy_append, Event.openedBy_opened, Event.openedBy_starts,
          hx.openedBy]
    · exact absurd (List.map_eq_nil_iff.mp hnil) hne

/-- **A task that comes to a chunk** opens it some time, or it has not done so yet. -/
theorem opens (ha : Moment.Later P ⟨.idle, .ofWorld w, []⟩ a) (hab : Moment.Later P a b)
    (hs : a.stage = .going task (B.left c.results c.base (c.operations :: c.rest)) limits)
    (hid : task.id = id) (hne : c.operations ≠ []) :
    B.Comes P id [] (c.operations :: c.rest) none a b
      ∨ ∃ x y, B.Opens P id c a x y ∧ Moment.Later P y b := by
  have hleft := left_cons (B := B) c
  cases hfirst : c.results.isEmpty with
  | true =>
    rw [hfirst, if_pos rfl] at hleft
    have hpause : B.pause c = 0 := by rw [pause, hfirst, if_pos rfl]
    exact opens_of_goesOn ⟨.refl, rfl, task, limits, hleft ▸ hs, hid⟩ hab
      (Nat.le_of_eq (by rw [hpause, Nat.add_zero])) hne
  | false =>
    rw [hfirst, if_neg nofun] at hleft
    have hpause : B.pause c = B.delay := by rw [pause, hfirst, if_neg nofun]
    obtain rfl | ⟨alarm, hheld⟩ | ⟨x, hx, hxb, hle⟩ := Moment.Later.sleeps ha hab (hleft ▸ hs)
    · exact .inl ⟨a, .refl, .refl, by rw [List.append_nil], .underWay rfl (.left c hs hid)⟩
    · exact .inl (.of_held (.pausing c) (hid ▸ hheld))
    · exact opens_of_goesOn (hid ▸ hx) hxb (by rw [hpause]; exact hle) hne

/-- **Every batch takes its course**, up to any later moment. The induction is on the chunks
that are left. -/
theorem exists_course (ha : Moment.Later P ⟨.idle, .ofWorld w, []⟩ a) (hab : Moment.Later P a b)
    {results : List (List OperationResult)} {base : Nat} {chunks : List (List (Runner σ))}
    (hs : a.stage = .going task (B.left results base chunks) limits) (hid : task.id = id)
    (hne : ∀ chunk ∈ chunks, chunk ≠ []) :
    ∃ blocks rs?, B.Course P id b results base chunks blocks rs? a := by
  induction chunks generalizing a task limits results base with
  | nil =>
    rw [left_nil] at hs
    exact ⟨[], _, .ended ⟨a, .refl, hab, by rw [List.append_nil], .ended hs hid⟩⟩
  | cons chunk rest ih =>
    obtain ⟨hchunk, hrest⟩ := List.forall_mem_cons.mp hne
    let c : Chunk σ := ⟨results, base, chunk, rest⟩
    obtain hahead | ⟨x, y, ho, hyb⟩ := opens (c := c) ha hab hs hid hchunk
    · exact ⟨[], none, .ahead hahead⟩
    · have hy := (ha.trans ho.later).tail ho.next
      obtain hheld | ⟨u, p, hu, hub, s, hyielded, rfl⟩ := Moment.Later.rests hy hyb ho.rests
      · exact ⟨_, none, .working c ho (.of_held (.working c) hheld)⟩
      · obtain ⟨task', limits', hs', hid'⟩ := hu.going
        obtain ⟨blocks, rs?, hcourse⟩ := ih (hy.trans hu.later) hub hs' hid' hrest
        exact ⟨_, rs?, .next c ho hu hub hyielded hcourse⟩

end

/-! ## What holds of a course -/

namespace Course

variable {results : List (List OperationResult)} {base block block' j size : Nat}
  {chunks : List (List (Runner σ))} {blocks : List Nat} {rs? : Option (List OperationResult)}
  {w : World σ}

theorem comes (h : B.Course P id b results base chunks blocks rs? a) :
    B.Comes P id blocks (chunks.drop blocks.length) rs? a b := by
  induction h with
  | ended h | ahead h => exact h
  | working c ho h =>
    obtain ⟨z, hyz, hzb, hby, hz⟩ := h
    refine ⟨z, (ho.later.tail ho.next).trans hyz, hzb, ?_, hz⟩
    rw [hby, ho.openedBy, List.append_nil]
  | next c ho hu _ _ _ ih =>
    obtain ⟨z, huz, hzb, hby, hz⟩ := ih
    refine ⟨z, (ho.later.tail ho.next).trans (hu.later.trans huz), hzb, ?_, hz⟩
    rw [hby, hu.openedBy, ho.openedBy, List.append_assoc]
    rfl

/-- The first block is opened behind the pause that belongs to the results so far. -/
theorem opens_head (h : B.Course P id b results base chunks (block :: blocks) rs? a) :
    ∃ c x y, c.results = results ∧ B.Opens P id c a x y ∧ Moment.Later P y b
      ∧ block = x.machine.serial := by
  cases h with
  | working c ho h =>
    obtain ⟨z, hyz, hzb, -⟩ := h
    exact ⟨c, _, _, rfl, ho, hyz.trans hzb, rfl⟩
  | next c ho hu hub => exact ⟨c, _, _, rfl, ho, hu.later.trans hub, rfl⟩

/-- **Each block is that of a chunk.** -/
theorem opened (h : B.Course P id b results base chunks blocks rs? a)
    (hj : blocks[j]? = some block) :
    ∃ c : Chunk σ, chunks[j]? = some c.operations ∧ .opened id block (B.block c) ∈ b.past := by
  induction h generalizing j with
  | ended | ahead => cases hj
  | working c ho h =>
    obtain ⟨z, hyz, hzb, -⟩ := h
    cases j with
    | zero =>
      cases hj
      exact ⟨c, rfl, Moment.Later.past_subset (hyz.trans hzb) ho.opened⟩
    | succ j => cases hj
  | next c ho hu hub _ _ ih =>
    cases j with
    | zero =>
      cases hj
      exact ⟨c, rfl, Moment.Later.past_subset (hu.later.trans hub) ho.opened⟩
    | succ j => exact ih hj

/-- **A block is opened when the one before has yielded** and the pause is over. -/
theorem yields_before (h : B.Course P id b results base chunks blocks rs? a)
    (hj : blocks[j]? = some block) (hj' : blocks[j + 1]? = some block') :
    ∃ (c : Chunk σ) (u x : _) (s : _), chunks[j]? = some c.operations
      ∧ Moment.Later P a u ∧ Moment.Later P u x ∧ Moment.Later P x b
      ∧ .opened id block (B.block c) ∈ u.past ∧ .yielded id block s ∈ u.past
      ∧ u.machine.now + B.delay ≤ x.machine.now ∧ block' = x.machine.serial := by
  induction h generalizing j with
  | ended | ahead => cases hj
  | working => cases hj'
  | @next a x y u blocks s rs? c ho hu hub hy h ih =>
    have hau := (ho.later.tail ho.next).trans hu.later
    cases j with
    | zero =>
      cases hj
      obtain ⟨rest, rfl⟩ : ∃ rest, blocks = block' :: rest := by
        cases blocks with
        | nil => cases hj'
        | cons block rest =>
          cases hj'
          exact ⟨rest, rfl⟩
      obtain ⟨c', x', y', hresults, ho', hyb, rfl⟩ := h.opens_head
      have hpause : B.pause c' = B.delay := by
        rw [pause, hresults]
        rfl
      exact ⟨c, u, x', s, rfl, hau, ho'.later, .head ho'.next hyb,
        Moment.Later.past_subset hu.later ho.opened, hy, hpause ▸ ho'.pause, rfl⟩
    | succ j =>
      obtain ⟨c', v, x', s', hc', huv, hrest⟩ := ih hj hj'
      exact ⟨c', v, x', s', hc', hau.trans huv, hrest⟩

/-- **What the results report**: one for each operation, in order. -/
theorem results_eq (hb : Moment.Later P ⟨.idle, .ofWorld w, []⟩ b)
    (h : B.Course P id b results base chunks blocks rs? a) {rs : List OperationResult}
    (hrs : rs? = some rs) :
    ∃ new, rs = results.reverse.flatten ++ new
      ∧ new.map OperationResult.index = List.range' base chunks.flatten.length
      ∧ ∀ r ∈ new, ∃ j block s, blocks[j]? = some block ∧ .yielded id block s ∈ b.past
        ∧ r ∈ OperationResult.ofSettled (base + (chunks.take j).flatten.length) s := by
  induction h with
  | ended h =>
    cases hrs
    exact ⟨[], (List.append_nil _).symm, rfl, nofun⟩
  | ahead | working => cases hrs
  | @next a x y u blocks s rs? c ho hu hub hy h ih =>
    obtain ⟨new, rfl, hindex, hreport⟩ := ih hrs
    have hord := Moment.Later.orderly hb
    have hsub := Moment.Later.past_subset hub
    have hopened : .opened id x.machine.serial (B.block c) ∈ b.past :=
      hsub (Moment.Later.past_subset hu.later ho.opened)
    obtain ⟨hpos, -, hall⟩ := hord.closed.gathered hord.booked hopened (hsub hy)
    have hlen : s.length = c.operations.length := by
      obtain hlen | ⟨e, -, r, -, hstop⟩ := hall
      · rw [hlen, List.length_map]
      · cases hstop
    refine ⟨OperationResult.ofSettled c.base s ++ new, ?_, ?_, fun r hr => ?_⟩
    · rw [List.reverse_cons, List.flatten_append, List.flatten_singleton, List.append_assoc]
    · rw [List.map_append, hindex, OperationResult.map_index_ofSettled hpos, hlen,
        List.flatten_cons, List.length_append, List.range'_append_1]
    · obtain hr | hr := List.mem_append.mp hr
      · exact ⟨0, _, s, rfl, hsub hy, hr⟩
      · obtain ⟨j, block, s', hj, hy', hr⟩ := hreport r hr
        refine ⟨j + 1, block, s', hj, hy', ?_⟩
        rw [List.take_succ_cons, List.flatten_cons, List.length_append, ← Nat.add_assoc]
        exact hr

/-- **No more operations run than a chunk has.** -/
theorem count_le (hb : Moment.Later P ⟨.idle, .ofWorld w, []⟩ b)
    (h : B.Course P id b results base chunks blocks rs? a) (hs : 0 < size)
    (hle : ∀ chunk ∈ chunks, chunk.length ≤ size) :
    (blocks.map fun block => b.machine.count block).sum ≤ size := by
  have hord := Moment.Later.orderly hb
  induction h with
  | ended | ahead => exact Nat.zero_le _
  | working c ho h =>
    obtain ⟨z, hyz, hzb, -⟩ := h
    have hcount := hord.closed.count_le hord.numbered hord.booked
      (Moment.Later.past_subset (hyz.trans hzb) ho.opened)
    have hchunk := (List.forall_mem_cons.mp hle).1
    rw [List.map_singleton, List.sum_singleton]
    exact Nat.le_trans hcount (Nat.max_le.mpr ⟨hchunk, hs⟩)
  | next c ho hu hub hy h ih =>
    have hsub := Moment.Later.past_subset hub
    have hopened := hsub (Moment.Later.past_subset hu.later ho.opened)
    rw [List.map_cons, List.sum_cons, Moment.Later.count_of_yielded hb hopened (hsub hy),
      Nat.zero_add]
    exact ih (List.forall_mem_cons.mp hle).2

end Course

/-! ## Barriers -/

/-- **An operation of a batch is started** as a task: in the block of its chunk. -/
def Started (past : List (Event (Deed σ) (World σ) Variables Outcome Crash)) (blocks : List Nat)
    (size i task : Nat) (p : Task σ) : Prop :=
  ∃ block, blocks[i / size]? = some block ∧ .started block (i % size) task p ∈ past

/-- **Results report a batch of `n` operations**: one for each of them, in order, and it tells
how the task of the operation has ended. -/
structure Reported (past : List (Event (Deed σ) (World σ) Variables Outcome Crash))
    (blocks : List Nat) (size n : Nat) (rs : List OperationResult) : Prop where
  positions : rs.map OperationResult.index = List.range n
  each : ∀ r ∈ rs, ∃ t p s, Started past blocks size r.index t p
    ∧ (∀ s', .ended t s' ∈ past ↔ s' = s) ∧ r = .ofSettlement r.index s
  counts : rs.length = n
    ∧ rs.countP (fun r => r.result.isOk) + rs.countP (fun r => !r.result.isOk) = n

/-- **The chunks of a batch are barriers**, where `a` is the moment at which its task has come to
it.

* `started`: in the block `j` only operations of the chunk `j` are started, each at its place;
* `barrier`: all operations of the chunk `j` have been started and have ended by a moment `u`,
  the delay has passed since then at `x`, and nothing has been started in the next block yet;
* `unsettled`, `running`: the operations that have not ended, and the tasks of all blocks, are
  no more than a chunk may have. -/
structure Barriers (B : Batch σ) (P : Task σ → Prop) (size : Nat) (operations : List (Runner σ))
    (blocks : List Nat) (a b : Moment (Deed σ) (World σ) Variables Outcome Crash) : Prop where
  started : ∀ j block o t p, blocks[j]? = some block → .started block o t p ∈ b.past →
    ∃ i r, i / size = j ∧ i % size = o ∧ operations[i]? = some r ∧ p = r B.vars
  barrier : ∀ j block', blocks[j + 1]? = some block' → ∃ u x, Moment.Later P a u
    ∧ Moment.Later P u x ∧ Moment.Later P x b
    ∧ (∀ i < operations.length, i / size = j →
      ∃ t p s, Started u.past blocks size i t p ∧ .ended t s ∈ u.past)
    ∧ u.machine.now + B.delay ≤ x.machine.now ∧ ∀ o t p, .started block' o t p ∉ x.past
  unsettled : ∀ is : List Nat, is.Nodup → (∀ i ∈ is, ∃ t p, Started b.past blocks size i t p
    ∧ ∀ s, .ended t s ∉ b.past) → is.length ≤ size
  running : (blocks.map fun block => b.machine.count block).sum ≤ size

section

variable {w : World σ} {size j o block : Nat} {operations : List (Runner σ)} {blocks : List Nat}
  {rs? : Option (List OperationResult)}

namespace Course

/-- What is started in a block is the operation at that place of its chunk. -/
theorem operation_of_started (hb : Moment.Later P ⟨.idle, .ofWorld w, []⟩ b)
    (h : B.Course P id b [] 0 (Runner.chunks size operations) blocks rs? a)
    (hj : blocks[j]? = some block) {t : Nat} {p : Task σ} (hs : .started block o t p ∈ b.past) :
    o < max size 1 ∧ ∃ r, operations[j * max size 1 + o]? = some r ∧ p = r B.vars := by
  have hord := Moment.Later.orderly hb
  obtain ⟨c, hchunk, hopened⟩ := h.opened hj
  obtain ⟨u, n, hopened', hop⟩ := hord.booked.started_opened block o t p hs
  obtain ⟨-, rfl⟩ := hord.booked.opened_inj _ _ _ _ _ hopened' hopened
  have hop : (c.operations.map fun r => r B.vars)[o]? = some p := hop
  rw [List.getElem?_map] at hop
  obtain ⟨r, hr, rfl⟩ := Option.map_eq_some_iff.mp hop
  obtain ⟨-, hslice, -⟩ := Runner.getElem?_chunks hchunk
  rw [hslice, List.getElem?_take, List.getElem?_drop] at hr
  obtain ⟨hlt, hr⟩ := Option.ite_none_right_eq_some.mp hr
  exact ⟨hlt, r, hr, rfl⟩

/-- **A chunk that has yielded is over**: its operations have been started and have ended. -/
theorem exists_ended (hb : Moment.Later P ⟨.idle, .ofWorld w, []⟩ b) {c : Chunk σ}
    (hchunk : (Runner.chunks size operations)[j]? = some c.operations)
    (hj : blocks[j]? = some block) (ho : .opened id block (B.block c) ∈ b.past)
    {s : Settled Outcome Crash} (hy : .yielded id block s ∈ b.past) {i : Nat}
    (hi : i < operations.length) (hij : i / max size 1 = j) :
    ∃ t p r, Started b.past blocks (max size 1) i t p ∧ .ended t r ∈ b.past := by
  have hord := Moment.Later.orderly hb
  have hmod : i % max size 1 < c.operations.length := by
    obtain ⟨-, hslice, -⟩ := Runner.getElem?_chunks hchunk
    have hlt : i % max size 1 < max size 1 :=
      Nat.mod_lt i (Nat.le_max_right size 1)
    have hdiv := Nat.div_add_mod' i (max size 1)
    rw [hij] at hdiv
    rw [hslice, List.length_take, List.length_drop]
    omega
  obtain ⟨hpos, hbegun, -⟩ := hord.closed.gathered hord.booked ho hy
  rw [hord.closed.begun_eq hord.booked ho hy, List.length_map] at hbegun
  have hmem : i % max size 1 ∈ s.map Prod.fst := by
    rw [hpos, ← hbegun]
    exact List.mem_range.mpr hmod
  obtain ⟨e, he, heq⟩ := List.mem_map.mp hmem
  obtain ⟨t, p, hs, hend⟩ := (Moment.Later.heard hb).yielded id block s hy e he
  exact ⟨t, p, e.2, ⟨block, hij ▸ hj, heq ▸ hs⟩, hend⟩

/-- **Before a chunk all operations of the one before have ended**, and the pause is over. -/
theorem barrier (ha : Moment.Later P ⟨.idle, .ofWorld w, []⟩ a)
    (h : B.Course P id b [] 0 (Runner.chunks size operations) blocks rs? a)
    (hj : blocks[j + 1]? = some block) :
    ∃ u x, Moment.Later P a u ∧ Moment.Later P u x ∧ Moment.Later P x b
      ∧ (∀ i < operations.length, i / max size 1 = j →
        ∃ t p s, Started u.past blocks (max size 1) i t p ∧ .ended t s ∈ u.past)
      ∧ u.machine.now + B.delay ≤ x.machine.now ∧ ∀ o t p, .started block o t p ∉ x.past := by
  obtain ⟨before, hbefore⟩ : ∃ before, blocks[j]? = some before := by
    obtain ⟨hlt, -⟩ := List.getElem?_eq_some_iff.mp hj
    exact ⟨_, List.getElem?_eq_getElem (Nat.lt_of_succ_lt hlt)⟩
  obtain ⟨c, u, x, s, hchunk, hau, hux, hxb, ho, hy, hle, rfl⟩ := h.yields_before hbefore hj
  refine ⟨u, x, hau, hux, hxb, fun i hi hij => ?_, hle, fun o t p hs => ?_⟩
  · exact exists_ended (ha.trans hau) hchunk hbefore ho hy hi hij
  · -- the block gets the number that is next at that moment
    obtain ⟨hlt, hlt'⟩ :=
      (Moment.Later.orderly (ha.trans (hau.trans hux))).numbered.started _ o t p hs
    exact Nat.lt_asymm hlt hlt'

/-- **All operations that have not ended are those of one chunk.** -/
theorem unsettled (hb : Moment.Later P ⟨.idle, .ofWorld w, []⟩ b)
    (ha : Moment.Later P ⟨.idle, .ofWorld w, []⟩ a)
    (h : B.Course P id b [] 0 (Runner.chunks size operations) blocks rs? a) {i t : Nat}
    {p : Task σ} (hs : Started b.past blocks (max size 1) i t p)
    (hn : ∀ s, .ended t s ∉ b.past) : blocks.length = i / max size 1 + 1 := by
  obtain ⟨block, hj, hs⟩ := hs
  obtain ⟨hlt, -⟩ := List.getElem?_eq_some_iff.mp hj
  refine Nat.le_antisymm (Nat.not_lt.mp fun hlt' => ?_) hlt
  obtain ⟨u, x, hau, hux, hxb, hend, -⟩ := h.barrier ha (List.getElem?_eq_getElem hlt')
  obtain ⟨-, r, hr, -⟩ := h.operation_of_started hb hj hs
  rw [Nat.div_add_mod'] at hr
  obtain ⟨t', p', s, ⟨block', hj', hs'⟩, hend⟩ :=
    hend i (List.getElem?_eq_some_iff.mp hr).1 rfl
  have hsub := Moment.Later.past_subset (hux.trans hxb)
  cases hj.symm.trans hj'
  -- the operation has been started once
  obtain ⟨c, -, hopened⟩ := h.opened hj
  obtain ⟨k, -, hbegun⟩ := (Moment.Later.orderly hb).booked.begun _ _ _ hopened
  cases Event.eq_of_nodup_begun (hbegun ▸ List.nodup_range) hs (hsub hs')
  exact hn s (hsub hend)

/-- **The chunks of a batch are barriers.** -/
theorem barriers (hb : Moment.Later P ⟨.idle, .ofWorld w, []⟩ b)
    (ha : Moment.Later P ⟨.idle, .ofWorld w, []⟩ a)
    (h : B.Course P id b [] 0 (Runner.chunks size operations) blocks rs? a) :
    B.Barriers P (max size 1) operations blocks a b where
  started j block o t p hj hs := by
    obtain ⟨hlt, r, hr, hp⟩ := h.operation_of_started hb hj hs
    obtain ⟨hdiv, hmod⟩ := Runner.div_mod_place j hlt
    exact ⟨j * max size 1 + o, r, hdiv, hmod, hr, hp⟩
  barrier j block' hj := h.barrier ha hj
  unsettled is hnodup his := by
    have hsub : is ⊆ List.range' ((blocks.length - 1) * max size 1) (max size 1) := by
      intro i hi
      obtain ⟨t, p, hs, hn⟩ := his i hi
      have hlen := h.unsettled hb ha hs hn
      have hlt := Nat.mod_lt i (Nat.le_max_right size 1)
      have hdiv := Nat.div_add_mod' i (max size 1)
      rw [hlen, Nat.add_sub_cancel]
      exact List.mem_range'_1.mpr ⟨by omega, by omega⟩
    have hle := (List.subperm_of_subset hnodup hsub).length_le
    rwa [List.length_range'] at hle
  running := h.count_le hb (Nat.le_max_right size 1) fun _ hc => (Runner.of_mem_chunks hc).2

/-- **A batch that is over reports its operations.** -/
theorem reported (hb : Moment.Later P ⟨.idle, .ofWorld w, []⟩ b)
    (h : B.Course P id b [] 0 (Runner.chunks size operations) blocks rs? a)
    {rs : List OperationResult} (hrs : rs? = some rs) :
    Reported b.past blocks (max size 1) operations.length rs := by
  obtain ⟨_, rfl, hindex, hreport⟩ := h.results_eq hb hrs
  rw [Runner.flatten_chunks, ← List.range_eq_range'] at hindex
  have hlen : rs.length = operations.length := by
    have hlen := congrArg List.length hindex
    rwa [List.length_map, List.length_range] at hlen
  refine ⟨hindex, fun r hr => ?_, hlen, hlen ▸ (OperationResult.countP_add_countP rs)⟩
  obtain ⟨j, block, s, hj, hy, hr⟩ := hreport r hr
  obtain ⟨c, hchunk, -⟩ := h.opened hj
  obtain ⟨-, -, hbase⟩ := Runner.getElem?_chunks hchunk
  rw [hbase, Nat.zero_add] at hr
  obtain ⟨e, he, rfl⟩ := OperationResult.mem_ofSettled.mp hr
  have hheard := Moment.Later.heard hb
  obtain ⟨t, p, hs, hend⟩ := hheard.yielded id block s hy e he
  obtain ⟨hlt, -⟩ := h.operation_of_started hb hj hs
  obtain ⟨hdiv, hmod⟩ := Runner.div_mod_place j hlt
  rw [OperationResult.index_ofSettlement]
  refine ⟨t, p, e.2, ⟨block, hdiv.symm ▸ hj, hmod.symm ▸ hs⟩, fun s' => ⟨fun h' => ?_, fun h' =>
    h' ▸ hend⟩, rfl⟩
  exact hheard.once t s' e.2 h' hend ((Moment.Later.orderly hb).numbered.ne_main hs)

end Course

end

/-- A task whose batch is under way is not at its end. -/
theorem UnderWay.ne_of_done {chunks : List (List (Runner σ))} (h : B.UnderWay id b chunks)
    {task : Machine.Task (Deed σ) (World σ) Variables Outcome Crash} {o : Outcome}
    {limits : List (Limit (Deed σ) (World σ) Variables Outcome Crash)}
    (hs : b.stage = .going task (.done o) limits) : task.id ≠ id := by
  cases h with
  | left c hs' =>
    rw [left_cons c] at hs'
    split at hs' <;> cases hs'.symm.trans hs
  | opening c hs' => cases hs'.symm.trans hs
  | resting _ hr => exact hr.not_going hs

end Batch

/-! ## Batches in sessions -/

/-- **Batches are barriers.** A batch is the chunks of its operations, each operation with its
tries. If a task has come to a batch at a moment `a`, then at every later moment `b` of the
session and in every order of turns:

* the task has opened a block for each of the first chunks, one after the other. The batch is
  under way with the chunks that are left, or the task was cut off where it waited, or it has
  gone on with the summary. A batch does not fail, whatever becomes of its operations;
* what is started in the block of the chunk `j` are the operations `i` with `i / size = j`.
  Before anything is started in the next block, all of these have been started and have ended,
  and the delay has passed since. So no more than `size` operations are unsettled, and no more
  tasks of the batch are there;
* the summary has one result for each operation, in order, which tells how the operation has
  ended; the good ones and the failures add up to the number of operations;
* if the task is woken for a chunk, it goes on waiting only while operations of it are running.

And in every run of a session, whoever waits for a block can run when none of its operations is
running. -/
theorem Session.batch_barriers (engine : Engine σ) (settings : BatchSettings) :
    let size := max (settings.size.getD engine.settings.batch.size) 1
    let delay := settings.delay.getD engine.settings.batch.delay
    (∀ call keys operations vars,
      Action.runner engine call keys (.batch operations settings) vars
        = Runner.batch engine settings (Step.singles engine call operations) vars)
    ∧ (∀ P registry own (a b : Moment (Deed σ) (World σ) Variables Outcome Crash),
      Moment.Later P ⟨.idle, Session.start registry own, []⟩ a → Moment.Later P a b →
      ∀ task runners vars k limits,
      a.stage = .going task ((Runner.batch engine settings runners vars).andThen k) limits →
      let batch : Batch σ := ⟨engine, delay, vars, k⟩
      let operations := runners.map (engine.trying settings)
      let chunks := Runner.chunks (settings.size.getD engine.settings.batch.size) operations
      ∃ blocks rs?, batch.Comes P task.id blocks (chunks.drop blocks.length) rs? a b
        ∧ batch.Barriers P size operations blocks a b
        ∧ (∀ rs, rs? = some rs → Batch.Reported b.past blocks size runners.length rs)
        ∧ ∀ c ∈ blocks, ∀ task here next limits b',
          b.stage = .woken task (.blocked c here next) limits → Moment.Next P b b' →
          (b'.stage = .waiting task (.blocked c here next) limits ∧ 0 < b'.machine.count c)
          ∨ ∃ s, b'.stage = .going task (next s) limits ∧ .yielded task.id c s ∈ b'.past)
    ∧ ∀ registry own (session : Session σ), session.Played (World.fresh registry own) →
      ∀ t ∈ session.tasks, ∀ w, t.state.waiting? = some w → ∀ c ∈ w.blocks,
        session.count c = 0 → session.CanRun t.id := by
  intro size delay
  refine ⟨fun _ _ _ _ => rfl, fun P registry own a b ha hab task runners vars k limits hs => ?_,
    fun registry own session hp t ht w hw c hc hcount => hp.canRun ht hw hc hcount⟩
  intro batch operations chunks
  have hb : Moment.Later P ⟨.idle, Session.start registry own, []⟩ b := ha.trans hab
  have hs : a.stage = .going task (batch.left [] 0 chunks) limits := hs
  obtain ⟨blocks, rs?, hcourse⟩ :=
    Batch.exists_course ha hab hs rfl fun _ hc => (Runner.of_mem_chunks hc).1
  refine ⟨blocks, rs?, hcourse.comes, hcourse.barriers hb ha, fun rs hrs => ?_,
    fun c _ task here next limits b' hs hn => hb.look hs hn⟩
  have hreported := hcourse.reported hb hrs
  rwa [List.length_map] at hreported

/-- A batch of two chunks with one operation each, of which the first one fails: it is over with
two results, and the first operation had ended before the second chunk. After two turns of it
the main task can run. -/
theorem Session.batch_barriers_first_fails :
    let ambient : Ambient := ⟨0, "", "", fun _ => none⟩
    let engine : Engine Unit := ⟨.default, .standard ambient, ambient⟩
    let settings : BatchSettings := ⟨some 1, some 0, some 0, some 0⟩
    let runners : List (Runner Unit) := [.fail (.timeout 0), .yield (.bool true)]
    let batch := (Runner.batch engine settings runners .empty).andThen .done
    let session := (Machine.run 2 batch (Session.start ⟨[], []⟩ ())).2
    (∃ a b task blocks chunks rs,
      Moment.Later (· = batch) ⟨.idle, Session.start ⟨[], []⟩ (), []⟩ a
      ∧ Moment.Later (· = batch) a b ∧ a.stage = .going task batch []
      ∧ Batch.Comes ⟨engine, 0, .empty, .done⟩ (· = batch) task.id blocks chunks (some rs) a b
      ∧ rs.map OperationResult.index = [0, 1]
      ∧ ∃ u x, Moment.Later (· = batch) u x ∧ Moment.Later (· = batch) x b
        ∧ ∃ t p s, Batch.Started u.past blocks 1 0 t p ∧ .ended t s ∈ u.past)
    ∧ ∃ t ∈ session.tasks, ∃ w, t.state.waiting? = some w ∧ 1 ∈ w.blocks
      ∧ session.count 1 = 0 ∧ session.CanRun t.id := by
  intro ambient engine settings runners batch session
  obtain ⟨-, hbatch, hwaits⟩ := Session.batch_barriers engine settings
  refine ⟨?_, ?_⟩
  · let main : Task Unit := Batch.left ⟨engine, 0, .empty, .done⟩ [] 0
      (runners.map fun r => [engine.trying settings r])
    have hchunks : Runner.chunks 1 (runners.map (engine.trying settings))
        = runners.map fun r => [engine.trying settings r] := by
      simp [runners, Runner.chunks]
    have hmain : main = batch := congrArg (Batch.left ⟨engine, 0, .empty, .done⟩ [] 0) hchunks.symm
    let a : Moment (Deed Unit) (World Unit) Variables Outcome Crash :=
      ⟨.going ⟨0, none, .fresh main⟩ main [], (Session.start ⟨[], []⟩ ()).begin main, []⟩
    have ha : Moment.Later (· = batch) ⟨.idle, Session.start ⟨[], []⟩ (), []⟩ a :=
      .tail (.single (.begin hmain (List.forall_mem_nil _))) (.move (.first rfl rfl))
    have hopens : Moment.Next (· = batch) a _ := .opens (.gather rfl rfl)
    have hfirst := ((((((((Relation.ReflTransGen.single hopens).tail .pause).tail
      (.move (.first (t := ⟨2, some (1, 0), .fresh _⟩) rfl rfl))).tail (.move .limit)).tail
      (.move .inTime)).tail .finish).tail
      (.move (.wake (t := ⟨0, none, .waiting _⟩) rfl rfl))).tail (.yield rfl)).tail
      (.move .sleepZero)
    have hsecond := ((((((((hfirst.tail (.opens (.gather rfl rfl))).tail .pause).tail
      (.move (.first (t := ⟨4, some (3, 0), .fresh _⟩) rfl rfl))).tail (.move .limit)).tail
      (.move .inTime)).tail .finish).tail
      (.move (.wake (t := ⟨0, none, .waiting _⟩) rfl rfl))).tail (.yield rfl)).tail .act
    obtain ⟨b, task, o, hab, hend, hid, hquiet⟩ : ∃ b task o, Moment.Later (· = batch) a b
        ∧ b.stage = .going task (.done o) [] ∧ task.id = 0
        ∧ b.past.any Event.cutsOff = false :=
      ⟨_, _, _, hsecond, rfl, rfl, rfl⟩
    have hs : a.stage = .going ⟨0, none, .fresh main⟩ batch [] := by rw [← hmain]
    obtain ⟨blocks, rs?, hcomes, hbarriers, hreported, -⟩ :=
      hbatch _ _ _ a b ha hab _ runners .empty .done [] hs
    have hsize : max (settings.size.getD engine.settings.batch.size) 1 = 1 := Nat.max_self 1
    rw [hsize] at hbarriers hreported
    obtain ⟨chunks, hcomes⟩ : ∃ chunks,
        Batch.Comes ⟨engine, 0, .empty, .done⟩ (· = batch) 0 blocks chunks rs? a b :=
      ⟨_, hcomes⟩
    obtain ⟨rs, rfl⟩ : ∃ rs, rs? = some rs := by
      obtain ⟨z, -, -, -, hstands⟩ := hcomes
      cases hstands with
      | underWay hz h => exact absurd hid (h.ne_of_done hend)
      | cutOff hw hr hes hc =>
        have hcut := (hc.mono (List.subset_append_right z.past _)).any_cutsOff
        rw [← hes, hquiet] at hcut
        cases hcut
      | @ended _ _ rs => exact ⟨rs, rfl⟩
    have hpos := (hreported rs rfl).positions
    have hpos : rs.map OperationResult.index = [0, 1] := hpos
    -- the second operation has been started behind the barrier
    obtain ⟨r, hr, hindex⟩ := List.mem_map.mp (hpos ▸ List.mem_cons_of_mem 0 List.mem_cons_self)
    obtain ⟨_, _, _, ⟨block, hblock, -⟩, -⟩ := (hreported rs rfl).each r hr
    rw [hindex] at hblock
    obtain ⟨u, x, -, hux, hxb, hended, -⟩ := hbarriers.barrier 0 block hblock
    exact ⟨a, b, _, blocks, chunks, rs, ha, hab, hs, hcomes, hpos, u, x, hux, hxb,
      hended 0 (Nat.zero_lt_succ 1) rfl⟩
  · have hany : (session.tasks.any fun t => t.state.waiting?.any fun w => w.blocks.contains 1)
        = true := by
      subst session batch runners settings engine ambient
      decide +kernel
    have hcount : session.count 1 = 0 := by
      subst session batch runners settings engine ambient
      decide +kernel
    obtain ⟨t, ht, hw⟩ := List.any_eq_true.mp hany
    obtain ⟨w, hw, hc⟩ := (Option.any_eq_true ..).mp hw
    have hc : 1 ∈ w.blocks := List.contains_iff_mem.mp hc
    exact ⟨t, ht, w, hw, hc, hcount,
      hwaits _ _ session (.run .start (List.forall_mem_nil _) 2 batch) t ht w hw 1 hc hcount⟩

end Playbook
