import Playbook.Expr.Parser
import Playbook.Template

/-!
# The grammar of expressions

A token list is an expression if a grammar derives it. The grammar has a kind of phrase
for each level at which operators bind (`Phrase`), and it says which token lists are
phrases of a kind and which trees they have (`Phrase.Derives`). A row of operators of one
level groups to the left, a comparison has no comparisons for operands unless there are
brackets around them, and where a negation can stand, a `!` in front makes one.

The parser is this grammar: it gives a tree if and only if the grammar derives the tokens
with that tree (`Parser.parse_iff`). One direction goes through the parser's functions and
finds a derivation of what each of them has read (`Parser.Reads`). The other goes along a
derivation: a phrase is read to its end, whatever comes behind it, as long as that does not
make the phrase longer (`Phrase.Ends`).

A tree read from left to right has the tokens that it comes from, but for the brackets
(`Phrase.Derives.symbols`).
-/

namespace Playbook

/-- The kinds of phrase. Operators bind the more tightly, the later their kind comes. -/
inductive Phrase where
  | disjunction
  | conjunction
  | negation
  | comparison
  | sum
  | product
  | signed
  | operand

/-- **The grammar of expressions**: which token lists are phrases of a kind, and with which
trees. -/
inductive Phrase.Derives : Phrase → List Token → Expr → Prop
  | or {ts us l r} (hl : Derives .disjunction ts l) (hr : Derives .conjunction us r) :
    Derives .disjunction (ts ++ .op .or :: us) (.or l r)
  | ofConjunction {ts e} (h : Derives .conjunction ts e) : Derives .disjunction ts e
  | and {ts us l r} (hl : Derives .conjunction ts l) (hr : Derives .negation us r) :
    Derives .conjunction (ts ++ .op .and :: us) (.and l r)
  | ofNegation {ts e} (h : Derives .negation ts e) : Derives .conjunction ts e
  | not {ts e} (h : Derives .negation ts e) : Derives .negation (.op .not :: ts) (.not e)
  /-- A comparison is a negation unless it begins with a `!`, which makes a negation of
  what follows. -/
  | ofComparison {ts e} (hn : ts.head? ≠ some (.op .not)) (h : Derives .comparison ts e) :
    Derives .negation ts e
  | compare {op ts us l r} (hl : Derives .sum ts l) (hr : Derives .sum us r) :
    Derives .comparison (ts ++ .op (.compare op) :: us) (.compare op l r)
  | ofSum {ts e} (h : Derives .sum ts e) : Derives .comparison ts e
  | sum {op ts us l r} (hop : op = .add ∨ op = .sub) (hl : Derives .sum ts l)
    (hr : Derives .product us r) :
    Derives .sum (ts ++ .op (.compute op) :: us) (.compute op l r)
  | ofProduct {ts e} (h : Derives .product ts e) : Derives .sum ts e
  | product {op ts us l r} (hop : op = .mul ∨ op = .div ∨ op = .rem)
    (hl : Derives .product ts l) (hr : Derives .signed us r) :
    Derives .product (ts ++ .op (.compute op) :: us) (.compute op l r)
  | ofSigned {ts e} (h : Derives .signed ts e) : Derives .product ts e
  | neg {ts e} (h : Derives .signed ts e) :
    Derives .signed (.op (.compute .sub) :: ts) (.neg e)
  | notSigned {ts e} (h : Derives .signed ts e) :
    Derives .signed (.op .not :: ts) (.not e)
  | ofOperand {ts e} (h : Derives .operand ts e) : Derives .signed ts e
  | literal (v) : Derives .operand [.literal v] (.literal v)
  | text {s} (h : Template.hasPlaceholders s = false) :
    Derives .operand [.text s] (.literal (.text s))
  | template {s} (h : Template.hasPlaceholders s = true) :
    Derives .operand [.text s] (.template s)
  | name (word) : Derives .operand [.name word] (.name word)
  | reference (inner) : Derives .operand [.reference inner] (.reference inner)
  | brackets {ts e} (h : Derives .disjunction ts e) :
    Derives .operand (.opening :: (ts ++ [.closing])) e

namespace Phrase

variable {q : Phrase} {ts : List Token} {e : Expr}

/-- There is no empty phrase. -/
theorem Derives.ne_nil (h : q.Derives ts e) : ts ≠ [] := by
  induction h with
  | or | and | compare | sum | product =>
    exact List.append_ne_nil_of_right_ne_nil _ (List.cons_ne_nil _ _)
  | ofConjunction _ ih | ofNegation _ ih | ofSum _ ih | ofProduct _ ih | ofSigned _ ih
  | ofOperand _ ih => exact ih
  | ofComparison _ _ ih => exact ih
  | _ => exact List.cons_ne_nil _ _

/-- An operand does not begin with an operator. -/
theorem Derives.head_ne_op (h : operand.Derives ts e) (o : Operator) :
    ts.head? ≠ some (.op o) := by
  cases h <;> exact nofun

theorem Derives.head_append_ne_op (h : operand.Derives ts e) (rest : List Token)
    (o : Operator) : (ts ++ rest).head? ≠ some (.op o) := by
  obtain ⟨t, ts, rfl⟩ := List.exists_cons_of_ne_nil h.ne_nil
  exact h.head_ne_op o

/-- An operand is a phrase of every kind. -/
theorem Derives.ofKind (h : operand.Derives ts e) (q : Phrase) : q.Derives ts e := by
  have hsigned : signed.Derives ts e := .ofOperand h
  have hsum : Phrase.sum.Derives ts e := .ofProduct (.ofSigned hsigned)
  have hnegation : negation.Derives ts e := .ofComparison (h.head_ne_op _) (.ofSum hsum)
  cases q with
  | disjunction => exact .ofConjunction (.ofNegation hnegation)
  | conjunction => exact .ofNegation hnegation
  | negation => exact hnegation
  | comparison => exact .ofSum hsum
  | sum => exact hsum
  | product => exact .ofSigned hsigned
  | signed => exact hsigned
  | operand => exact h

/-- A phrase of any kind is a disjunction if it does not begin with a `!`. -/
theorem Derives.toDisjunction (h : q.Derives ts e) (hn : ts.head? ≠ some (.op .not)) :
    disjunction.Derives ts e := by
  have hcomparison : comparison.Derives ts e → disjunction.Derives ts e :=
    fun h => .ofConjunction (.ofNegation (.ofComparison hn h))
  cases q with
  | disjunction => exact h
  | conjunction => exact .ofConjunction h
  | negation => exact .ofConjunction (.ofNegation h)
  | comparison => exact hcomparison h
  | sum => exact hcomparison (.ofSum h)
  | product => exact hcomparison (.ofSum (.ofProduct h))
  | signed => exact hcomparison (.ofSum (.ofProduct (.ofSigned h)))
  | operand => exact h.ofKind _

/-! ## Reading a tree from left to right -/

end Phrase

/-- What a tree is made of: its leaves and its operators. -/
inductive Symbol where
  | leaf (e : Expr)
  | op (o : Operator)

/-- The leaves and operators of a tree from left to right. -/
def Expr.symbols : Expr → List Symbol
  | not e => .op .not :: e.symbols
  | neg e => .op (.compute .sub) :: e.symbols
  | and l r => l.symbols ++ .op .and :: r.symbols
  | or l r => l.symbols ++ .op .or :: r.symbols
  | compare op l r => l.symbols ++ .op (.compare op) :: r.symbols
  | compute op l r => l.symbols ++ .op (.compute op) :: r.symbols
  | e => [.leaf e]

/-- What a token is in a tree; nothing if it is a bracket. -/
def Token.symbol? : Token → Option Symbol
  | literal v => some (.leaf (.literal v))
  | text s =>
    some (.leaf (if Template.hasPlaceholders s then .template s else .literal (.text s)))
  | name word => some (.leaf (.name word))
  | reference inner => some (.leaf (.reference inner))
  | op o => some (.op o)
  | opening => none
  | closing => none

/-- **A tree is made of its tokens in their order**, without the brackets: none is dropped,
doubled or moved. -/
theorem Phrase.Derives.symbols {q : Phrase} {ts : List Token} {e : Expr}
    (h : q.Derives ts e) : ts.filterMap Token.symbol? = e.symbols := by
  induction h with
  | or _ _ hl hr | and _ _ hl hr | compare _ _ hl hr | sum _ _ _ hl hr
  | product _ _ _ hl hr =>
    simp only [List.filterMap_append, List.filterMap_cons, Token.symbol?, hl, hr, Expr.symbols]
  | not _ ih | neg _ ih | notSigned _ ih =>
    simp only [List.filterMap_cons, Token.symbol?, ih, Expr.symbols]
  | ofConjunction _ ih | ofNegation _ ih | ofSum _ ih | ofProduct _ ih | ofSigned _ ih
  | ofOperand _ ih => exact ih
  | ofComparison _ _ ih => exact ih
  | brackets _ ih =>
    simp only [List.filterMap_cons, List.filterMap_append, List.filterMap_nil, Token.symbol?,
      ih, List.append_nil]
  | literal | name | reference => rfl
  | text h | template h => simp [Token.symbol?, h, Expr.symbols]

/-! ## What the parser has read -/

namespace Parser

/-- **A parser reads phrases of a kind**: if it gives a tree, the tokens it has taken from
the front are such a phrase with that tree. -/
def Reads (p : Parse) (q : Phrase) : Prop :=
  ∀ ts e rest, p ts = .ok (e, rest) → ∃ us, ts = us ++ rest ∧ q.Derives us e

variable {p : Parse} {q outer : Phrase}

/-- A parser that reads phrases leaves fewer tokens than there were. -/
theorem Reads.length_le (h : Reads p q) {ts rest : List Token} {e : Expr}
    (hp : p ts = .ok (e, rest)) : rest.length ≤ ts.length := by
  obtain ⟨us, rfl, -⟩ := h ts e rest hp
  rw [List.length_append]
  exact Nat.le_add_left _ _

variable {join? : Token → Option (Expr → Expr → Expr)}

/-- **A row of operands is a phrase that groups to the left.** The induction is on the
passes; `before` is what has been read already. -/
theorem chain_reads (hp : Reads p q)
    (hj : ∀ t join, join? t = some join → ∀ ts us l r, outer.Derives ts l →
      q.Derives us r → outer.Derives (ts ++ t :: us) (join l r)) (fuel : Nat) :
    ∀ left before ts e rest, outer.Derives before left →
      chain p join? fuel left ts = .ok (e, rest) →
      ∃ us, ts = us ++ rest ∧ outer.Derives (before ++ us) e := by
  induction fuel with
  | zero =>
    intro left before ts e rest hb h
    cases h
    exact ⟨[], rfl, by rwa [List.append_nil]⟩
  | succ fuel ih =>
    intro left before ts e rest hb h
    have hstop : chain p join? (fuel + 1) left ts = .ok (left, ts) →
        ∃ us, ts = us ++ rest ∧ outer.Derives (before ++ us) e := by
      intro hc
      rw [hc] at h
      cases h
      exact ⟨[], rfl, by rwa [List.append_nil]⟩
    cases ts with
    | nil => exact hstop rfl
    | cons t ts =>
      cases ht : join? t with
      | none => exact hstop (by rw [chain, ht])
      | some join =>
        rw [chain, ht] at h
        cases hr : p ts with
        | error fault =>
          rw [hr] at h
          cases h
        | ok a =>
          obtain ⟨right, behind⟩ := a
          rw [hr] at h
          obtain ⟨us, rfl, hus⟩ := hp ts right behind hr
          obtain ⟨vs, rfl, hvs⟩ := ih _ _ _ _ _ (hj t join ht _ _ _ _ hb hus) h
          refine ⟨t :: (us ++ vs), by rw [List.cons_append, List.append_assoc], ?_⟩
          rwa [List.append_assoc, List.cons_append] at hvs

theorem joined_reads (hp : Reads p q) (hone : ∀ ts e, q.Derives ts e → outer.Derives ts e)
    (hj : ∀ t join, join? t = some join → ∀ ts us l r, outer.Derives ts l →
      q.Derives us r → outer.Derives (ts ++ t :: us) (join l r)) :
    Reads (joined p join?) outer := by
  intro ts e rest h
  unfold joined at h
  split at h
  · rename_i left behind hleft
    obtain ⟨us, rfl, hus⟩ := hp _ _ _ hleft
    obtain ⟨vs, rfl, hvs⟩ := chain_reads hp hj _ _ _ _ _ _ (hone _ _ hus) h
    exact ⟨us ++ vs, (List.append_assoc us vs rest).symm, hvs⟩
  · cases h

variable {inside : Parse}

/-- What is read behind a token makes a phrase together with it. -/
theorem reads_of_map {ts rest : List Token}
    (hp : ∀ e rest, p ts = .ok (e, rest) → ∃ us, ts = us ++ rest ∧ q.Derives us e)
    {t : Token} {f : Expr → Expr} (hf : ∀ us e, q.Derives us e → outer.Derives (t :: us) (f e))
    {e : Expr} (h : (p ts).map (fun (e, rest) => (f e, rest)) = .ok (e, rest)) :
    ∃ us, t :: ts = us ++ rest ∧ outer.Derives us e := by
  cases hr : p ts with
  | error fault =>
    rw [hr] at h
    cases h
  | ok a =>
    rw [hr] at h
    cases h
    obtain ⟨us, hts, hus⟩ := hp _ _ hr
    exact ⟨t :: us, congrArg (t :: ·) hts, hf us _ hus⟩

theorem textExpr_derives (s : String) : Phrase.operand.Derives [.text s] (textExpr s) := by
  show Phrase.Derives _ _ (if Template.hasPlaceholders s then _ else _)
  cases h : Template.hasPlaceholders s with
  | true => exact .template h
  | false => exact .text h

theorem primary_reads (hi : Reads inside .disjunction) : Reads (primary inside) .operand := by
  intro ts e rest h
  unfold primary at h
  split at h
  · cases h
  · cases h
    exact ⟨[_], rfl, .literal _⟩
  · cases h
    exact ⟨[_], rfl, textExpr_derives _⟩
  · cases h
    exact ⟨[_], rfl, .name _⟩
  · cases h
    exact ⟨[_], rfl, .reference _⟩
  · split at h
    · rename_i hin
      cases h
      obtain ⟨us, rfl, hus⟩ := hi _ _ _ hin
      exact ⟨.opening :: (us ++ [.closing]), by simp, .brackets hus⟩
    · cases h
    · cases h
    · cases h
  · cases h

/-- What does not begin with a sign is read as an operand. -/
theorem unary_eq_primary {ts : List Token}
    (hsub : ∀ us, ts = .op (.compute .sub) :: us → False)
    (hnot : ∀ us, ts = .op .not :: us → False) :
    unary inside ts = primary inside ts := by
  unfold unary
  split
  · exact (hsub _ rfl).elim
  · exact (hnot _ rfl).elim
  · rfl

theorem unary_reads (hi : Reads inside .disjunction) : Reads (unary inside) .signed := by
  intro ts
  induction ts using unary.induct with
  | case1 ts ih =>
    intro e rest h
    rw [unary] at h
    exact reads_of_map ih (fun _ _ => .neg) h
  | case2 ts ih =>
    intro e rest h
    rw [unary] at h
    exact reads_of_map ih (fun _ _ => .notSigned) h
  | case3 ts hsub hnot =>
    intro e rest h
    rw [unary_eq_primary hsub hnot] at h
    obtain ⟨us, rfl, hus⟩ := primary_reads hi _ _ _ h
    exact ⟨us, rfl, .ofOperand hus⟩

theorem orJoin?_eq_some {t : Token} {join : Expr → Expr → Expr} (h : orJoin? t = some join) :
    t = .op .or ∧ join = .or := by
  unfold orJoin? at h
  split at h
  · cases h
    exact ⟨rfl, rfl⟩
  · cases h

theorem andJoin?_eq_some {t : Token} {join : Expr → Expr → Expr}
    (h : andJoin? t = some join) : t = .op .and ∧ join = .and := by
  unfold andJoin? at h
  split at h
  · cases h
    exact ⟨rfl, rfl⟩
  · cases h

theorem sumJoin?_eq_some {t : Token} {join : Expr → Expr → Expr}
    (h : sumJoin? t = some join) :
    ∃ op, (op = .add ∨ op = .sub) ∧ t = .op (.compute op) ∧ join = .compute op := by
  unfold sumJoin? at h
  split at h
  · cases h
    exact ⟨_, .inl rfl, rfl, rfl⟩
  · cases h
    exact ⟨_, .inr rfl, rfl, rfl⟩
  · cases h

theorem productJoin?_eq_some {t : Token} {join : Expr → Expr → Expr}
    (h : productJoin? t = some join) :
    ∃ op, (op = .mul ∨ op = .div ∨ op = .rem) ∧ t = .op (.compute op)
      ∧ join = .compute op := by
  unfold productJoin? at h
  split at h
  · cases h
    exact ⟨_, .inl rfl, rfl, rfl⟩
  · cases h
    exact ⟨_, .inr (.inl rfl), rfl, rfl⟩
  · cases h
    exact ⟨_, .inr (.inr rfl), rfl, rfl⟩
  · cases h

theorem product_reads (hi : Reads inside .disjunction) : Reads (product inside) .product := by
  refine joined_reads (unary_reads hi) (fun _ _ => .ofSigned) fun t join ht ts us l r hl hr => ?_
  obtain ⟨op, hop, rfl, rfl⟩ := productJoin?_eq_some ht
  exact .product hop hl hr

theorem sum_reads (hi : Reads inside .disjunction) : Reads (sum inside) .sum := by
  refine joined_reads (product_reads hi) (fun _ _ => .ofProduct)
    fun t join ht ts us l r hl hr => ?_
  obtain ⟨op, hop, rfl, rfl⟩ := sumJoin?_eq_some ht
  exact .sum hop hl hr

theorem comparison_reads (hi : Reads inside .disjunction) :
    Reads (comparison inside) .comparison := by
  intro ts e rest h
  unfold comparison at h
  split at h
  · rename_i left op behind hleft
    obtain ⟨us, rfl, hus⟩ := sum_reads hi _ _ _ hleft
    split at h
    · cases h
    · rename_i right behind' _ hright
      cases h
      obtain ⟨vs, rfl, hvs⟩ := sum_reads hi _ _ _ hright
      exact ⟨us ++ .op (.compare op) :: vs, by simp, .compare hus hvs⟩
    · cases h
  · obtain ⟨us, rfl, hus⟩ := sum_reads hi _ _ _ h
    exact ⟨us, rfl, .ofSum hus⟩

/-- What does not begin with a `!` is read as a comparison. -/
theorem negation_eq_comparison {ts : List Token}
    (hnot : ∀ us, ts = .op .not :: us → False) :
    negation inside ts = comparison inside ts := by
  unfold negation
  split
  · exact (hnot _ rfl).elim
  · rfl

theorem negation_reads (hi : Reads inside .disjunction) :
    Reads (negation inside) .negation := by
  intro ts
  induction ts using negation.induct with
  | case1 ts ih =>
    intro e rest h
    rw [negation] at h
    exact reads_of_map ih (fun _ _ => .not) h
  | case2 ts hnot =>
    intro e rest h
    rw [negation_eq_comparison hnot] at h
    obtain ⟨us, rfl, hus⟩ := comparison_reads hi _ _ _ h
    refine ⟨us, rfl, .ofComparison (fun hhead => ?_) hus⟩
    obtain ⟨vs, rfl⟩ := List.head?_eq_some_iff.mp hhead
    exact hnot _ rfl

theorem conjunction_reads (hi : Reads inside .disjunction) :
    Reads (conjunction inside) .conjunction := by
  refine joined_reads (negation_reads hi) (fun _ _ => .ofNegation)
    fun t join ht ts us l r hl hr => ?_
  obtain ⟨rfl, rfl⟩ := andJoin?_eq_some ht
  exact .and hl hr

theorem disjunction_reads (hi : Reads inside .disjunction) :
    Reads (disjunction inside) .disjunction := by
  refine joined_reads (conjunction_reads hi) (fun _ _ => .ofConjunction)
    fun t join ht ts us l r hl hr => ?_
  obtain ⟨rfl, rfl⟩ := orJoin?_eq_some ht
  exact .or hl hr

theorem level_reads (n : Nat) : Reads (level n) .disjunction := by
  induction n with
  | zero =>
    intro ts e rest h
    cases h
  | succ n ih => exact disjunction_reads ih

/-- **The grammar derives what the parser accepts**, with the parser's tree. -/
theorem derives_of_parse {ts : List Token} {e : Expr} (h : parse ts = .ok e) :
    Phrase.disjunction.Derives ts e := by
  unfold parse at h
  split at h
  · rename_i hl
    cases h
    obtain ⟨us, rfl, hus⟩ := level_reads _ _ _ _ hl
    rwa [List.append_nil]
  · cases h
  · cases h

end Parser

/-! ## What the parser is to read -/

/-- How tightly the operators of a kind of phrase bind. -/
def Phrase.tightness : Phrase → Nat
  | disjunction => 0
  | conjunction => 1
  | negation => 2
  | comparison => 3
  | sum => 4
  | product => 5
  | signed => 6
  | operand => 7

/-- The kind of phrase that an operator joins two others to. -/
def Operator.phrase? : Operator → Option Phrase
  | .or => some .disjunction
  | .and => some .conjunction
  | compare _ => some .comparison
  | compute .add => some .sum
  | compute .sub => some .sum
  | compute _ => some .product
  | .not => none

/-- **A phrase ends where some tokens follow**: they do not begin with an operator that
binds at least as tightly as those of the phrase. -/
def Phrase.Ends (q : Phrase) (rest : List Token) : Prop :=
  ∀ o us, rest = .op o :: us → ∀ q', o.phrase? = some q' → q'.tightness < q.tightness

namespace Phrase

variable {q q' : Phrase} {rest : List Token}

theorem ends_nil (q : Phrase) : q.Ends [] :=
  nofun

/-- Where a phrase ends, every phrase of a tighter kind does. -/
theorem Ends.mono (h : q.Ends rest) (hq : q.tightness ≤ q'.tightness) : q'.Ends rest :=
  fun o us hr k hk => Nat.lt_of_lt_of_le (h o us hr k hk) hq

theorem ends_op {o : Operator} {us : List Token} (h : o.phrase? = some q')
    (hq : q'.tightness < q.tightness) : q.Ends (.op o :: us) := by
  intro o' us' hr k hk
  cases hr
  cases h.symm.trans hk
  exact hq

theorem ends_closing (q : Phrase) (us : List Token) : q.Ends (.closing :: us) :=
  nofun

/-- The operands of a row are of the next kind. -/
def part : Phrase → Phrase
  | disjunction => conjunction
  | conjunction => negation
  | sum => product
  | product => signed
  | q => q

end Phrase

namespace Parser

/-- The parser of a kind of phrase. -/
def ofPhrase (inside : Parse) : Phrase → Parse
  | .disjunction => disjunction inside
  | .conjunction => conjunction inside
  | .negation => negation inside
  | .comparison => comparison inside
  | .sum => sum inside
  | .product => product inside
  | .signed => unary inside
  | .operand => primary inside

/-- What the parser of a kind of phrase does when it has read such a phrase: a row of
operands can go on. -/
def goOn (inside : Parse) : Phrase → Expr → Parse
  | .disjunction => fun e ts => chain (conjunction inside) orJoin? ts.length e ts
  | .conjunction => fun e ts => chain (negation inside) andJoin? ts.length e ts
  | .sum => fun e ts => chain (product inside) sumJoin? ts.length e ts
  | .product => fun e ts => chain (unary inside) productJoin? ts.length e ts
  | _ => fun e ts => .ok (e, ts)

variable {p inside : Parse} {q : Phrase} {join? : Token → Option (Expr → Expr → Expr)}

/-- A row ends in front of a token that does not join. -/
theorem chain_of_none {fuel : Nat} {left : Expr} {ts : List Token}
    (h : ∀ t us, ts = t :: us → join? t = none) :
    chain p join? fuel left ts = .ok (left, ts) := by
  cases fuel with
  | zero => rfl
  | succ fuel =>
    cases ts with
    | nil => rfl
    | cons t ts => rw [chain, h t ts rfl]

/-- **Passes enough for all tokens are passes enough.** -/
theorem chain_eq_of_le (hp : Reads p q) :
    ∀ (fuel fuel' : Nat) (left : Expr) (ts : List Token), ts.length ≤ fuel →
      ts.length ≤ fuel' → chain p join? fuel left ts = chain p join? fuel' left ts := by
  intro fuel
  induction fuel with
  | zero =>
    intro fuel' left ts h _
    rw [List.length_eq_zero_iff.mp (Nat.le_zero.mp h)]
    cases fuel' <;> rfl
  | succ fuel ih =>
    intro fuel' left ts h h'
    cases ts with
    | nil => cases fuel' <;> rfl
    | cons t ts =>
      obtain ⟨fuel', rfl⟩ := Nat.exists_eq_add_of_le' (Nat.lt_of_lt_of_le (Nat.succ_pos _) h')
      rw [chain, chain]
      cases join? t with
      | none => rfl
      | some join =>
        cases hr : p ts with
        | error fault => rfl
        | ok a =>
          have hle := hp.length_le hr
          rw [List.length_cons] at h h'
          exact ih fuel' _ _ (by omega) (by omega)

/-- One more operand of a row is read. -/
theorem chain_cons (hp : Reads p q) {t : Token} {join : Expr → Expr → Expr}
    (ht : join? t = some join) {us rest : List Token} {l r : Expr}
    (hr : p (us ++ rest) = .ok (r, rest)) :
    chain p join? (t :: (us ++ rest)).length l (t :: (us ++ rest))
      = chain p join? rest.length (join l r) rest := by
  rw [List.length_cons, chain, ht, hr]
  exact chain_eq_of_le hp _ _ _ _ (hp.length_le hr) (Nat.le_refl _)

/-- A row begins with its first operand. -/
theorem joined_eq {ts rest : List Token} {e : Expr} (h : p ts = .ok (e, rest)) :
    joined p join? ts = chain p join? rest.length e rest := by
  rw [joined, h]

/-- Where a phrase ends, its parser does not go on. -/
theorem goOn_of_ends {e : Expr} {rest : List Token} (h : q.Ends rest) :
    goOn inside q e rest = .ok (e, rest) := by
  have hjoin : ∀ {join? : Token → Option (Expr → Expr → Expr)},
      (∀ t join, join? t = some join → ∃ o, t = .op o ∧ o.phrase? = some q) →
      ∀ t us, rest = t :: us → join? t = none := by
    intro join? hj t us hr
    cases ht : join? t with
    | none => rfl
    | some join =>
      obtain ⟨o, rfl, ho⟩ := hj t join ht
      exact (Nat.lt_irrefl _ (h o us hr q ho)).elim
  cases q with
  | disjunction =>
    refine chain_of_none (hjoin fun t join ht => ⟨.or, (orJoin?_eq_some ht).1, rfl⟩)
  | conjunction =>
    refine chain_of_none (hjoin fun t join ht => ⟨.and, (andJoin?_eq_some ht).1, rfl⟩)
  | sum =>
    refine chain_of_none (hjoin fun t join ht => ?_)
    obtain ⟨op, hop, rfl, -⟩ := sumJoin?_eq_some ht
    exact ⟨_, rfl, by obtain rfl | rfl := hop <;> rfl⟩
  | product =>
    refine chain_of_none (hjoin fun t join ht => ?_)
    obtain ⟨op, hop, rfl, -⟩ := productJoin?_eq_some ht
    exact ⟨_, rfl, by obtain rfl | rfl | rfl := hop <;> rfl⟩
  | _ => rfl

/-- What does not begin with a sign is read as an operand, whatever follows. -/
theorem unary_append {ts : List Token} {e : Expr} (h : Phrase.operand.Derives ts e)
    (rest : List Token) : unary inside (ts ++ rest) = primary inside (ts ++ rest) := by
  have hhead : ∀ o us, ts ++ rest = .op o :: us → False :=
    fun o us he => h.head_append_ne_op rest o (he ▸ rfl)
  exact unary_eq_primary (hhead _) (hhead _)

/-- **The parser reads every phrase to its end**, whatever comes behind it, and goes on from
there. The induction is on the derivation; where a row goes on, the row so far has been read
already, and one operand more is. -/
theorem ofPhrase_derives {ts : List Token} {e : Expr} (h : q.Derives ts e) :
    ∀ n rest, ts.length ≤ n → q.part.Ends rest →
      ofPhrase (level n) q (ts ++ rest) = goOn (level n) q e rest := by
  have hjoined : ∀ {q : Phrase} {ts : List Token} {e : Expr} {n : Nat} {rest : List Token},
      ofPhrase (level n) q (ts ++ rest) = goOn (level n) q e rest → q.Ends rest →
      ofPhrase (level n) q (ts ++ rest) = .ok (e, rest) :=
    fun h he => h.trans (goOn_of_ends he)
  induction h with
  | @or ts us l r _ _ ihl ihr =>
    intro n rest hn he
    rw [List.length_append, List.length_cons] at hn
    have hjoin : orJoin? (.op .or) = some .or := rfl
    rw [List.append_assoc, List.cons_append,
      ihl n _ (by omega) (Phrase.ends_op rfl (by decide))]
    exact chain_cons (conjunction_reads (level_reads n)) hjoin
      (hjoined (ihr n rest (by omega) (he.mono (by decide))) he)
  | ofConjunction _ ih =>
    intro n rest hn he
    exact joined_eq (hjoined (ih n rest hn (he.mono (by decide))) he)
  | @and ts us l r _ _ ihl ihr =>
    intro n rest hn he
    rw [List.length_append, List.length_cons] at hn
    have hjoin : andJoin? (.op .and) = some .and := rfl
    rw [List.append_assoc, List.cons_append,
      ihl n _ (by omega) (Phrase.ends_op rfl (by decide))]
    exact chain_cons (negation_reads (level_reads n)) hjoin
      (hjoined (ihr n rest (by omega) he) he)
  | ofNegation _ ih =>
    intro n rest hn he
    exact joined_eq (hjoined (ih n rest hn he) he)
  | @not ts e _ ih =>
    intro n rest hn he
    rw [List.length_cons] at hn
    show negation _ (.op .not :: (ts ++ rest)) = _
    rw [negation, show negation _ (ts ++ rest) = _ from ih n rest (by omega) he]
    rfl
  | @ofComparison ts e hhead h ih =>
    intro n rest hn he
    have hnot : ∀ us, ts ++ rest = .op .not :: us → False := by
      intro us hus
      obtain ⟨t, ts', rfl⟩ := List.exists_cons_of_ne_nil h.ne_nil
      cases hus
      exact hhead rfl
    show negation _ (ts ++ rest) = _
    rw [negation_eq_comparison hnot]
    exact hjoined (ih n rest hn (he.mono (by decide))) (he.mono (by decide))
  | @compare op ts us l r _ _ ihl ihr =>
    intro n rest hn he
    rw [List.length_append, List.length_cons] at hn
    have hl : sum (level n) (ts ++ .op (.compare op) :: (us ++ rest)) = _ :=
      hjoined (ihl n _ (by omega) (Phrase.ends_op rfl (by decide)))
        (Phrase.ends_op rfl (by decide))
    have hr : sum (level n) (us ++ rest) = _ :=
      hjoined (ihr n rest (by omega) (he.mono (by decide))) (he.mono (by decide))
    show comparison _ _ = _
    rw [List.append_assoc, List.cons_append, comparison, hl]
    dsimp only
    rw [hr]
    split
    · rename_i hnext
      cases hnext
      exact (Nat.lt_irrefl _ (he _ _ rfl _ rfl)).elim
    · rename_i hok
      cases hok
      rfl
    · rename_i herr
      cases herr
  | @ofSum ts e _ ih =>
    intro n rest hn he
    have hs : sum (level n) (ts ++ rest) = _ :=
      hjoined (ih n rest hn (he.mono (by decide))) (he.mono (by decide))
    show comparison _ _ = _
    rw [comparison, hs]
    split
    · rename_i hnext
      cases hnext
      exact (Nat.lt_irrefl _ (he _ _ rfl _ rfl)).elim
    · rfl
  | @sum op ts us l r hop _ _ ihl ihr =>
    intro n rest hn he
    rw [List.length_append, List.length_cons] at hn
    have hphrase : (Operator.compute op).phrase? = some .sum := by
      obtain rfl | rfl := hop <;> rfl
    have hjoin : sumJoin? (.op (.compute op)) = some (.compute op) := by
      obtain rfl | rfl := hop <;> rfl
    rw [List.append_assoc, List.cons_append,
      ihl n _ (by omega) (Phrase.ends_op hphrase (by decide))]
    exact chain_cons (product_reads (level_reads n)) hjoin
      (hjoined (ihr n rest (by omega) (he.mono (by decide))) he)
  | ofProduct _ ih =>
    intro n rest hn he
    exact joined_eq (hjoined (ih n rest hn (he.mono (by decide))) he)
  | @product op ts us l r hop _ _ ihl ihr =>
    intro n rest hn he
    rw [List.length_append, List.length_cons] at hn
    have hphrase : (Operator.compute op).phrase? = some .product := by
      obtain rfl | rfl | rfl := hop <;> rfl
    have hjoin : productJoin? (.op (.compute op)) = some (.compute op) := by
      obtain rfl | rfl | rfl := hop <;> rfl
    rw [List.append_assoc, List.cons_append,
      ihl n _ (by omega) (Phrase.ends_op hphrase (by decide))]
    exact chain_cons (unary_reads (level_reads n)) hjoin
      (hjoined (ihr n rest (by omega) he) he)
  | ofSigned _ ih =>
    intro n rest hn he
    exact joined_eq (hjoined (ih n rest hn he) he)
  | @neg ts e _ ih =>
    intro n rest hn he
    rw [List.length_cons] at hn
    show unary _ (.op (.compute .sub) :: (ts ++ rest)) = _
    rw [unary, show unary _ (ts ++ rest) = _ from ih n rest (by omega) he]
    rfl
  | @notSigned ts e _ ih =>
    intro n rest hn he
    rw [List.length_cons] at hn
    show unary _ (.op .not :: (ts ++ rest)) = _
    rw [unary, show unary _ (ts ++ rest) = _ from ih n rest (by omega) he]
    rfl
  | ofOperand h ih =>
    intro n rest hn he
    show unary _ _ = _
    rw [unary_append h]
    exact ih n rest hn (he.mono (by decide))
  | literal | name | reference => exact fun _ _ _ _ => rfl
  | @text s h =>
    intro n rest _ _
    show Except.ok (if Template.hasPlaceholders s then _ else _, rest) = _
    rw [h]
    rfl
  | @template s h =>
    intro n rest _ _
    show Except.ok (if Template.hasPlaceholders s then _ else _, rest) = _
    rw [h]
    rfl
  | @brackets ts e _ ih =>
    intro n rest hn he
    rw [List.length_cons, List.length_append] at hn
    obtain ⟨n, rfl⟩ := Nat.exists_eq_add_of_le' (Nat.lt_of_lt_of_le (Nat.succ_pos _) hn)
    have hin : level (n + 1) (ts ++ .closing :: rest) = .ok (e, .closing :: rest) :=
      hjoined (ih n _ (by omega) (Phrase.ends_closing _ _)) (Phrase.ends_closing _ _)
    show primary _ (.opening :: (ts ++ [.closing] ++ rest)) = _
    rw [List.append_assoc, List.singleton_append, primary, hin]
    rfl

/-- **The parser accepts what the grammar derives**, with the grammar's tree. -/
theorem parse_of_derives {ts : List Token} {e : Expr} (h : Phrase.disjunction.Derives ts e) :
    parse ts = .ok e := by
  have hl : level (ts.length + 1) (ts ++ []) = .ok (e, []) :=
    (ofPhrase_derives h ts.length [] (Nat.le_refl _) (Phrase.ends_nil _)).trans
      (goOn_of_ends (Phrase.ends_nil _))
  rw [List.append_nil] at hl
  rw [parse, hl]

/-- **The parser is its grammar.** It accepts a list of tokens with a tree if and only if the
grammar derives the list with that tree, and it rejects every list that has no tree. Without
its brackets, a list that is accepted is its tree read from left to right. -/
theorem parse_iff (ts : List Token) :
    (∀ e, parse ts = .ok e ↔ Phrase.disjunction.Derives ts e)
      ∧ (∀ e, Phrase.disjunction.Derives ts e → ts.filterMap Token.symbol? = e.symbols)
      ∧ ((¬ ∃ e, Phrase.disjunction.Derives ts e) → ∃ fault, parse ts = .error fault) := by
  refine ⟨fun e => ⟨derives_of_parse, parse_of_derives⟩, fun e h => h.symbols, fun h => ?_⟩
  cases hp : parse ts with
  | ok e => exact (h ⟨e, derives_of_parse hp⟩).elim
  | error fault => exact ⟨fault, rfl⟩

/-- A `!` in front of a comparison makes a negation of it, and one behind an operator is a
sign. A bracket that is never closed has no tree. -/
theorem parse_iff_bangs :
    let ts : List Token :=
      [.op .not, .name "a", .op (.compare .eq), .op .not, .name "b", .op .or, .name "c"]
    let e : Expr := .or (.not (.compare .eq (.name "a") (.not (.name "b")))) (.name "c")
    Phrase.disjunction.Derives ts e ∧ ts.filterMap Token.symbol? = e.symbols
      ∧ (¬ ∃ e, Phrase.disjunction.Derives [.opening, .name "a"] e)
      ∧ ∃ fault, parse [.opening, .name "a"] = .error fault := by
  intro ts e
  have hd : Phrase.disjunction.Derives ts e := ((parse_iff ts).1 e).mp rfl
  have hn : ¬ ∃ e, Phrase.disjunction.Derives [.opening, .name "a"] e :=
    fun ⟨e, he⟩ => nomatch ((parse_iff _).1 e).mpr he
  exact ⟨hd, (parse_iff ts).2.1 e hd, hn, (parse_iff _).2.2 hn⟩

end Parser

end Playbook
