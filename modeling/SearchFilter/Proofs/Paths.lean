import SearchFilter.Proofs.Stray

/-!
# How deep an expression is

A path down an expression goes to the left operand of an operator, or inwards: to its right operand
or to an item of a list (`Expr.Path`).  No path in what a search reads goes inwards more than three
times for each group that may be open and three times more, however many parentheses the search has
(`path_inward_le`).  For every limit some search comes up to that bound, and to the left a path may
go as often as there are operators.

The bound is counted level by level.  A leaf has no step inwards; a value has one more than its
items, a condition one more than its values, and a search one more than its conditions
(`Call.level`).  A group begins again with a search, but in it there is room for one group less.
What is on the left adds nothing, so the loops of each level keep the bound (`Reads.flat`).
-/

namespace SearchFilter

/-! ### Paths -/

namespace Expr

/-- `Path e lefts inward`: a path from `e` down to a leaf goes to a left operand `lefts` times and
inwards `inward` times, to a right operand or to an item of a list. -/
inductive Path : Expr → Nat → Nat → Prop where
  | word (text : String) : Path (.word text) 0 0
  | string (text : String) : Path (.string text) 0 0
  | number (text : String) : Path (.number text) 0 0
  | empty : Path (.list []) 0 0
  | item {e : Expr} {items : List Expr} {lefts inward : Nat} (he : e ∈ items)
      (h : Path e lefts inward) : Path (.list items) lefts (inward + 1)
  | left {left : Expr} {lefts inward : Nat} (op : Operator) (right : Expr)
      (h : Path left lefts inward) : Path (.binary left op right) (lefts + 1) inward
  | right {right : Expr} {lefts inward : Nat} (left : Expr) (op : Operator)
      (h : Path right lefts inward) : Path (.binary left op right) lefts (inward + 1)

/-- No path goes inwards more than `n` times. -/
def Flat (n : Nat) (e : Expr) : Prop := ∀ lefts inward, e.Path lefts inward → inward ≤ n

variable {m n : Nat} {e left right first : Expr} {others : List Expr}

theorem Flat.mono (h : e.Flat m) (hmn : m ≤ n) : e.Flat n :=
  fun lefts inward hpath => Nat.le_trans (h lefts inward hpath) hmn

/-- The leaf of a token has no step inwards. -/
theorem flat_ofToken? {t : Token} (h : ofToken? t = some e) : e.Flat n := by
  intro lefts inward hpath
  cases hpath with
  | word _ | string _ | number _ | empty => exact Nat.zero_le n
  | item _ _ | left _ _ _ | right _ _ _ =>
    obtain ⟨kind, text⟩ := t
    cases kind <;> cases h

theorem flat_list {items : List Expr} (h : ∀ e ∈ items, e.Flat n) :
    (Expr.list items).Flat (n + 1) := by
  intro lefts inward hpath
  cases hpath with
  | empty => exact Nat.zero_le _
  | item he hpath => exact Nat.succ_le_succ (h _ he _ _ hpath)

/-- The left operand may be as deep as the whole, the right one by one step less. -/
theorem flat_binary {op : Operator} (hleft : left.Flat (n + 1)) (hright : right.Flat n) :
    (Expr.binary left op right).Flat (n + 1) := by
  intro lefts inward hpath
  cases hpath with
  | left _ _ hpath => exact hleft _ _ hpath
  | right _ _ hpath => exact Nat.succ_le_succ (hright _ _ hpath)

theorem flat_fallback (field term : String) : (fallback field term).Flat (n + 1) := by
  have hfield : (Expr.word field).Flat (n + 1) := by
    rintro lefts inward ⟨⟩
    exact Nat.zero_le _
  have hterm : (Expr.string term).Flat n := by
    rintro lefts inward ⟨⟩
    exact Nat.zero_le _
  exact flat_binary hfield hterm

theorem flat_ofItems (h : ∀ e ∈ first :: others, e.Flat n) :
    (ofItems first others).Flat (n + 1) := by
  cases others with
  | nil => exact (h first List.mem_cons_self).mono (Nat.le_succ n)
  | cons other others => exact flat_list h

theorem flat_join {left right : Option Expr} {op : Operator.Kind}
    (hleft : ∀ l ∈ left, l.Flat (n + 1)) (hright : ∀ r ∈ right, r.Flat n) :
    ∀ e ∈ join op left right, e.Flat (n + 1) := by
  intro e he
  cases left with
  | none => exact (hright e he).mono (Nat.le_succ n)
  | some l =>
    cases right with
    | none => exact hleft e he
    | some r =>
      cases he
      exact flat_binary (hleft l rfl) (hright r rfl)

end Expr

namespace Search

variable {o : Options} {call : Call} {r : Reading (Option Expr)} {n : Nat}

/-! ### The levels of a search -/

/-- How many steps inwards what a call reads may have more than an item. -/
def Call.level : Call → Nat
  | .item _ => 0
  | .value _ | .moreItems _ _ _ => 1
  | .condition _ | .moreValues _ _ => 2
  | .search _ _ _ => 3

/-- What a call has put together before is as flat as its level asks, where items have at most `n`
steps inwards. -/
def Call.CarriesFlat (n : Nat) : Call → Prop
  | .item _ | .value _ | .condition _ => True
  | .moreItems first others _ => ∀ e ∈ first :: others, e.Flat n
  | .moreValues left _ => left.Flat (n + 2)
  | .search _ left _ => ∀ e ∈ left, e.Flat (n + 3)

/-- **Every rule of reading keeps to the levels**, where items have at most three steps inwards for
each group that may still be opened. -/
theorem Reads.flat (h : Reads o call r) : 3 * (o.nestingLimit - call.start.depth) ≤ n →
    call.CarriesFlat n → ∀ e, r.value = .ok (some e) → e.Flat (n + call.level) := by
  induction h generalizing n with
  | noItem _ | badItem _ _ _ | badValue _ _ _ | lastOperator _ | badOperand _ _ _ _
  | badFirst _ _ _ =>
    rintro _ _ e ⟨⟩
  | leaf _ ht =>
    intro _ _ e he
    cases he
    exact Expr.flat_ofToken? ht
  | @group t ts depth v next ht hd _ ih =>
    intro hn _ e he
    -- The search in the group has its own three levels, and room for one group less.
    obtain ⟨m, rfl⟩ : ∃ m, n = m + 3 := ⟨n - 3, by simp only [Call.start] at hn; omega⟩
    have hcarried : (Call.search true none ⟨ts, depth + 1⟩).CarriesFlat m := by
      rintro e ⟨⟩
    refine ih ?_ hcarried e he
    simp only [Call.start] at hn ⊢
    omega
  | noValue _ h _ | noCondition _ _ h _ =>
    intro _ _ e he
    exact absurd he (h e)
  | value item _ ih₁ ih₂ =>
    intro hn _
    refine ih₂ (item.depth_eq ▸ hn) ?_
    intro e he
    rw [List.mem_singleton.mp he]
    exact ih₁ hn trivial _ rfl
  | lastItem _ =>
    intro _ hcarried e he
    cases he
    exact Expr.flat_ofItems fun e he => hcarried e (by simpa using he)
  | @nextItem first e others t ts depth next r ht item _ ih₁ ih₂ =>
    intro hn hcarried
    refine ih₂ (item.depth_eq ▸ hn) ?_
    intro e' he'
    rcases List.mem_cons.mp he' with rfl | he'
    · exact hcarried _ List.mem_cons_self
    rcases List.mem_cons.mp he' with rfl | he'
    · exact ih₁ hn trivial _ rfl
    · exact hcarried _ (List.mem_cons_of_mem _ he')
  | trailingColon _ _ _ =>
    intro _ hcarried e he
    cases he
    exact Expr.flat_list fun e he => hcarried e (by simpa using he)
  | fallback _ =>
    intro _ _ e he
    cases he
    exact Expr.flat_fallback _ _
  | condition _ value _ ih₁ ih₂ =>
    intro hn _
    have hvalue := ih₁ hn trivial _ rfl
    exact ih₂ (value.depth_eq ▸ hn) (hvalue.mono (Nat.le_succ _))
  | nextValue _ right _ ih₁ ih₂ =>
    intro hn hcarried
    have hright := ih₁ hn trivial _ rfl
    exact ih₂ (right.depth_eq ▸ hn) (Expr.flat_binary hcarried hright)
  | lastValue _ | droppedComparison _ _ _ =>
    intro _ hcarried e he
    cases he
    exact hcarried
  | searchEnd | closed _ =>
    intro _ hcarried e he
    cases he
    exact hcarried e rfl
  | joined _ _ operand _ ih₁ ih₂ =>
    intro hn hcarried
    refine ih₂ (operand.depth_eq ▸ hn) (Expr.flat_join hcarried ?_)
    intro e he
    cases he
    exact ih₁ hn trivial _ rfl
  | first _ operand _ ih₁ ih₂ =>
    intro hn _
    refine ih₂ (operand.depth_eq ▸ hn) ?_
    intro e he
    cases he
    exact (ih₁ hn trivial _ rfl).mono (Nat.le_succ _)
  | passed _ _ _ _ ih => exact fun hn hcarried => ih hn hcarried

/-- No expression that is read is deeper than its groups allow. -/
theorem flat_of_parse {ts : List Token} {e : Expr} (h : parse o ts = .ok e) :
    e.Flat (3 * (o.nestingLimit + 1)) := by
  have hreads := reads_reading o (.search false none ⟨ts, 0⟩)
  rw [hreads.parse_eq_map] at h
  generalize (Call.search false none ⟨ts, 0⟩).reading o = r at h hreads
  obtain ⟨v, next⟩ := r
  match v, h with
  | .ok none, h =>
    cases h
    exact Expr.flat_fallback _ _
  | .ok (some e), h =>
    cases h
    exact hreads.flat (Nat.le_refl _) nofun e rfl

end Search

/-! ### Searches with long paths -/

namespace Grammar

/-- A condition of one word. -/
def wordCondition : Condition := .one (.plain (.one (.word "a")))

/-- The search `a & a = a : i` for an item `i`. -/
def Search.around (inner : Item) : Search :=
  .more (.one wordCondition) .and "&"
    (.more wordCondition .eq "=" (.plain (.more (.one (.word "a")) ":" inner)))

/-- A search with `n` groups inside one another, each of them as deep down as it can be. -/
def Search.deepest : Nat → Search
  | 0 => .around (.word "a")
  | n + 1 => .around (.group "(" (deepest n) ")")

theorem Search.nesting_deepest : ∀ n : Nat, (deepest n).nesting = n
  | 0 => rfl
  | n + 1 => by
    have hinner := nesting_deepest n
    simp [deepest, around, nesting, Condition.nesting, Value.nesting, Items.nesting, Item.nesting,
      wordCondition, hinner]

/-- To an item that is so deep down three steps lead inwards. -/
theorem Search.path_around (field : String) {inner : Item} {lefts inward : Nat}
    (h : inner.tree.Path lefts inward) :
    ((around inner).wholeTree field).Path lefts (inward + 3) ∧
      (around inner).tree.Path lefts (inward + 3) := by
  have hlist : (Expr.list [.word "a", inner.tree]).Path lefts (inward + 1) :=
    .item (List.mem_cons_of_mem _ List.mem_cons_self) h
  exact ⟨.right _ _ (.right _ _ hlist), .right _ _ (.right _ _ hlist)⟩

theorem Search.path_deepest (field : String) (n : Nat) :
    ((deepest n).wholeTree field).Path 0 (3 * (n + 1)) ∧ (deepest n).tree.Path 0 (3 * (n + 1)) := by
  induction n with
  | zero => exact path_around field (.word "a")
  | succ n ih => exact path_around field ih.2

/-- Words with an operator of the kind `k` between any two, `n` operators in all. -/
def alternating (k : Token.Kind) : Nat → List Token
  | 0 => [⟨.word, "a"⟩]
  | n + 1 => alternating k n ++ [⟨k, ""⟩, ⟨.word, "a"⟩]

/-- The condition of words with `n` comparisons. -/
def Condition.chain (op : Comparison) : Nat → Condition
  | 0 => wordCondition
  | n + 1 => .more (chain op n) op "" (.plain (.one (.word "a")))

/-- The search of words with `n` logic operators. -/
def Search.chain (op : Logic) : Nat → Search
  | 0 => .one wordCondition
  | n + 1 => .more (chain op n) op "" wordCondition

/-- Such a condition has no groups, and all its comparisons are on one path to the left. -/
theorem Condition.chain_spec (op : Comparison) (n : Nat) :
    (chain op n).tokens = alternating op.kind n ∧ (chain op n).nesting = 0 ∧
      (chain op n).tree.Path n 0 := by
  induction n with
  | zero => exact ⟨rfl, rfl, .word "a"⟩
  | succ n ih =>
    obtain ⟨htokens, hnesting, hpath⟩ := ih
    refine ⟨?_, ?_, .left _ _ hpath⟩
    · rw [chain, tokens, htokens]
      rfl
    · rw [chain, nesting, hnesting]
      rfl

/-- Such a search has no groups, and all its operators are on one path to the left. -/
theorem Search.chain_spec (op : Logic) (n : Nat) :
    (chain op n).tokens = alternating op.kind n ∧ (chain op n).nesting = 0 ∧
      (chain op n).tree.Path n 0 := by
  induction n with
  | zero => exact ⟨rfl, rfl, .word "a"⟩
  | succ n ih =>
    obtain ⟨htokens, hnesting, hpath⟩ := ih
    refine ⟨?_, ?_, .left _ _ hpath⟩
    · rw [chain, tokens, htokens]
      rfl
    · rw [chain, nesting, hnesting]
      rfl

/-- A token that compares values is one of the comparisons. -/
theorem Comparison.exists_of_isComparison {k : Token.Kind} (h : k.isComparison = true) :
    ∃ op : Comparison, k = op.kind := by
  cases k with
  | eq => exact ⟨.eq, rfl⟩
  | lt => exact ⟨.lt, rfl⟩
  | le => exact ⟨.le, rfl⟩
  | gt => exact ⟨.gt, rfl⟩
  | ge => exact ⟨.ge, rfl⟩
  | similar => exact ⟨.similar, rfl⟩
  | member => exact ⟨.member, rfl⟩
  | _ => cases h

/-- Operators between words go down to the left, as many as there are. -/
theorem exists_leftPath (o : SearchFilter.Search.Options) {k : Token.Kind}
    (hk : k.isLogic = true ∨ k.isComparison = true) (n : Nat) :
    ∃ e, SearchFilter.Search.parse o (alternating k (n + 1)) = .ok e ∧ e.Path (n + 1) 0 := by
  rcases hk with hk | hk
  · have hop : k.logic?.isSome = true := k.isSome_logic?.trans hk
    obtain ⟨op, rfl⟩ := Logic.exists_of_logic? (Option.isSome_iff_ne_none.mp hop)
    obtain ⟨htokens, hnesting, -⟩ := Search.chain_spec op (n + 1)
    obtain ⟨-, -, hpath⟩ := Search.chain_spec op n
    have hparse := parse_derivation o (.chain op (n + 1)) (hnesting ▸ Nat.zero_le _)
    exact ⟨_, htokens ▸ hparse, .left _ _ hpath⟩
  · obtain ⟨op, rfl⟩ := Comparison.exists_of_isComparison hk
    obtain ⟨htokens, hnesting, hpath⟩ := Condition.chain_spec op (n + 1)
    have hroom : (Search.one (.chain op (n + 1))).nesting ≤ o.nestingLimit :=
      Nat.le_trans (Nat.le_of_eq hnesting) (Nat.zero_le _)
    have hparse := parse_derivation o _ hroom
    exact ⟨_, htokens ▸ hparse, hpath⟩

/-- For every limit the bound on steps inwards is reached. -/
theorem exists_inwardPath (o : SearchFilter.Search.Options) :
    ∃ ts e, SearchFilter.Search.parse o ts = .ok e ∧ e.Path 0 (3 * (o.nestingLimit + 1)) := by
  have hnesting := Search.nesting_deepest o.nestingLimit
  have hparse := parse_derivation o (.deepest o.nestingLimit) (Nat.le_of_eq hnesting)
  exact ⟨_, _, hparse, (Search.path_deepest o.fallbackField o.nestingLimit).1⟩

end Grammar

namespace Search

open Grammar (alternating)

/-- **No path in an expression goes inwards more than three times for each group that may be open,
and three times more**, whatever tokens it was read of.  The bound is reached for every limit; and
to the left a path may be as long as a chain of logic operators or of comparisons. -/
theorem path_inward_le (o : Options) :
    (∀ ts e, parse o ts = .ok e →
      ∀ lefts inward, e.Path lefts inward → inward ≤ 3 * (o.nestingLimit + 1)) ∧
    (∃ ts e, parse o ts = .ok e ∧ e.Path 0 (3 * (o.nestingLimit + 1))) ∧
    ∀ k : Token.Kind, k.isLogic = true ∨ k.isComparison = true → ∀ n,
      ∃ e, parse o (alternating k (n + 1)) = .ok e ∧ e.Path (n + 1) 0 := by
  refine ⟨?_, Grammar.exists_inwardPath o, fun k hk n => Grammar.exists_leftPath o hk n⟩
  intro ts e h lefts inward hpath
  exact flat_of_parse h lefts inward hpath

/-- With room for one group, `a | b = c : ( d & e ^ f : ( 1` has a path of six steps inwards,
through the group that is left open. -/
theorem path_inward_le_openGroup :
    let inner : Expr := .binary (.word "d") { kind := .and }
      (.binary (.word "e") { kind := .member } (.list [.word "f", .number "1"]))
    let e : Expr := .binary (.word "a") { kind := .or }
      (.binary (.word "b") { kind := .eq } (.list [.word "c", inner]))
    parse ⟨"title", 1⟩ [⟨.word, "a"⟩, ⟨.or, "|"⟩, ⟨.word, "b"⟩, ⟨.eq, "="⟩, ⟨.word, "c"⟩,
        ⟨.colon, ":"⟩, ⟨.lparen, "("⟩, ⟨.word, "d"⟩, ⟨.and, "&"⟩, ⟨.word, "e"⟩, ⟨.member, "^"⟩,
        ⟨.word, "f"⟩, ⟨.colon, ":"⟩, ⟨.lparen, "("⟩, ⟨.number, "1"⟩] = .ok e ∧
      e.Path 0 6 ∧ 6 ≤ 3 * (1 + 1) ∧
      ∃ e', parse ⟨"title", 1⟩ (alternating .similar 3) = .ok e' ∧ e'.Path 3 0 := by
  intro inner e
  have hparse : parse ⟨"title", 1⟩ [⟨.word, "a"⟩, ⟨.or, "|"⟩, ⟨.word, "b"⟩, ⟨.eq, "="⟩,
      ⟨.word, "c"⟩, ⟨.colon, ":"⟩, ⟨.lparen, "("⟩, ⟨.word, "d"⟩, ⟨.and, "&"⟩, ⟨.word, "e"⟩,
      ⟨.member, "^"⟩, ⟨.word, "f"⟩, ⟨.colon, ":"⟩, ⟨.lparen, "("⟩, ⟨.number, "1"⟩] = .ok e := by
    with_unfolding_all rfl
  have hinner : inner.Path 0 3 :=
    .right _ _ (.right _ _ (.item (List.mem_cons_of_mem _ List.mem_cons_self) (.number "1")))
  have hpath : e.Path 0 6 :=
    .right _ _ (.right _ _ (.item (List.mem_cons_of_mem _ List.mem_cons_self) hinner))
  obtain ⟨bound, -, chains⟩ := path_inward_le ⟨"title", 1⟩
  exact ⟨hparse, hpath, bound _ _ hparse 0 6 hpath, chains .similar (.inr rfl) 2⟩

end Search

end SearchFilter
