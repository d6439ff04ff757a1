import SearchFilter.Proofs.Grammar
import SearchFilter.Proofs.Rules

/-!
# Reading a derivation

The grammar is read as it is documented (`parse_derivation`): the tokens of a derivation whose
groups nest no deeper than the limit read as the expression of that derivation, and a last
condition that is one single leaf is looked for in the fallback field.

Each level is read in front of any tokens that cannot become part of it.  A chain is read up to
such a place: the call that begins it goes on, behind the chain, as the loop that holds what the
chain means.  So one induction on derivations follows the readers through all levels and back
through groups (`reads_item` to `reads_search`), and says at each level which tokens may stand
behind: `Value.EndsBefore` is where a colon at the end of a value makes a difference.
-/

namespace SearchFilter.Grammar
open SearchFilter.Search (Cursor Reads Options lastLeaf? reads_leaf reads_noItem)

/-! ### The first token -/

theorem Item.tokens_eq_cons (a : Item) :
    ∃ t ts, a.tokens = t :: ts ∧ t.kind.isAtom = true := by
  cases a with
  | word text | preserved text | quoted text | number text => exact ⟨_, _, rfl, rfl⟩
  | group opening inner closing => exact ⟨_, _, rfl, rfl⟩

theorem Items.tokens_eq_cons : ∀ as : Items, ∃ t ts, as.tokens = t :: ts ∧ t.kind.isAtom = true
  | .one a => a.tokens_eq_cons
  | .more as colon a => by
    obtain ⟨t, ts, has, ht⟩ := as.tokens_eq_cons
    exact ⟨t, _, by rw [Items.tokens, has, List.cons_append], ht⟩

theorem Value.tokens_eq_cons : ∀ v : Value, ∃ t ts, v.tokens = t :: ts ∧ t.kind.isAtom = true
  | .plain as => as.tokens_eq_cons
  | .trailing as colon => by
    obtain ⟨t, ts, has, ht⟩ := as.tokens_eq_cons
    exact ⟨t, _, by rw [Value.tokens, has, List.cons_append], ht⟩

/-- A condition begins with a token that begins an item. -/
theorem Condition.tokens_eq_cons :
    ∀ c : Condition, ∃ t ts, c.tokens = t :: ts ∧ t.kind.isAtom = true
  | .one v => v.tokens_eq_cons
  | .more c op text v => by
    obtain ⟨t, ts, hc, ht⟩ := c.tokens_eq_cons
    exact ⟨t, _, by rw [Condition.tokens, hc, List.cons_append], ht⟩

/-! ### What may stand behind -/

/-- The tokens that may stand behind a value: no colon, or behind a colon no item. -/
def Value.EndsBefore (rest : List Token) : Value → Prop
  | .plain _ => ∀ t ∈ rest.head?, t.kind ≠ .colon
  | .trailing _ _ => ∀ t ∈ rest.head?, t.kind.isAtom = false

/-- The last value of a condition. -/
def Condition.last : Condition → Value
  | .one v => v
  | .more _ _ _ v => v

/-- The last condition of a search. -/
def Search.last : Search → Condition
  | .one c => c
  | .more _ _ _ c => c

/-- The tokens that may stand behind a condition: any that may stand behind its last value, but no
comparison. -/
def Condition.EndsBefore (rest : List Token) (c : Condition) : Prop :=
  c.last.EndsBefore rest ∧ ∀ t ∈ rest.head?, t.kind.comparison? = none

theorem Value.endsBefore_nil (v : Value) : v.EndsBefore [] := by
  cases v <;> nofun

theorem Value.endsBefore_cons {t : Token} (hcolon : t.kind ≠ .colon)
    (hatom : t.kind.isAtom = false) (ts : List Token) (v : Value) : v.EndsBefore (t :: ts) := by
  cases v with
  | plain as => rintro u ⟨⟩; exact hcolon
  | trailing as colon => rintro u ⟨⟩; exact hatom

/-- A comparison may stand behind a value. -/
theorem Value.endsBefore_comparison (op : Comparison) (text : String) (ts : List Token)
    (v : Value) : v.EndsBefore (⟨op.kind, text⟩ :: ts) :=
  endsBefore_cons (by cases op <;> nofun) (by cases op <;> rfl) ts v

theorem Condition.endsBefore_nil (c : Condition) : c.EndsBefore [] :=
  ⟨c.last.endsBefore_nil, nofun⟩

/-- A logic operator may stand behind a condition. -/
theorem Condition.endsBefore_logic (op : Logic) (text : String) (ts : List Token)
    (c : Condition) : c.EndsBefore (⟨op.kind, text⟩ :: ts) := by
  refine ⟨Value.endsBefore_cons (by cases op <;> nofun) (by cases op <;> rfl) ts c.last, ?_⟩
  rintro u ⟨⟩
  cases op <;> rfl

/-- The end of a group may stand behind a condition. -/
theorem Condition.endsBefore_closing (text : String) (ts : List Token) (c : Condition) :
    c.EndsBefore (⟨.rparen, text⟩ :: ts) := by
  refine ⟨Value.endsBefore_cons (by simp) rfl ts c.last, ?_⟩
  rintro u ⟨⟩
  rfl

/-! ### Single leaves -/

/-- A leaf with nothing behind it is a condition of one single leaf. -/
theorem Condition.leafText?_of_lastLeaf? {c : Condition} {t : Token}
    (h : lastLeaf? c.tokens = some t) : c.leafText? = some t.text := by
  obtain ⟨htokens, ht⟩ := SearchFilter.Search.lastLeaf?_eq_some_iff.mp h
  match c with
  | .one (.plain (.one a)) =>
    cases a with
    | word text | preserved text | quoted text | number text => cases htokens; rfl
    | group opening inner closing =>
      simp [Condition.tokens, Value.tokens, Items.tokens, Item.tokens] at htokens
  | .one (.plain (.more as colon a)) =>
    obtain ⟨u, us, has, -⟩ := as.tokens_eq_cons
    simp [Condition.tokens, Value.tokens, Items.tokens, has] at htokens
  | .one (.trailing as colon) =>
    obtain ⟨u, us, has, -⟩ := as.tokens_eq_cons
    simp [Condition.tokens, Value.tokens, has] at htokens
  | .more c op text v =>
    obtain ⟨u, us, hc, -⟩ := c.tokens_eq_cons
    simp [Condition.tokens, hc] at htokens

/-- A condition of one single leaf is the token of that leaf. -/
theorem Condition.lastLeaf?_of_leafText? {c : Condition} {text : String}
    (h : c.leafText? = some text) : ∃ t, lastLeaf? c.tokens = some t ∧ t.text = text := by
  match c with
  | .one (.plain (.one a)) =>
    cases a with
    | word text | preserved text | quoted text | number text => cases h; exact ⟨_, rfl, rfl⟩
    | group opening inner closing => cases h
  | .one (.plain (.more as colon a)) => cases h
  | .one (.trailing as colon) => cases h
  | .more c op text v => cases h

/-- A condition with tokens behind it is no last leaf. -/
theorem Condition.lastLeaf?_append {c : Condition} {rest : List Token} (h : rest ≠ []) :
    lastLeaf? (c.tokens ++ rest) = none := by
  obtain ⟨t, ts, hc, -⟩ := c.tokens_eq_cons
  obtain ⟨u, us, rfl⟩ := List.exists_cons_of_ne_nil h
  rw [hc]
  cases ts <;> rfl

/-! ### Each level is read -/

section

variable {o : Options} {depth : Nat} {rest : List Token}

/-- A group is read when its search is. -/
theorem reads_group {inner : Search} (opening closing : String) (hd : depth < o.nestingLimit)
    (h : ∀ r, Reads o (.search true (some inner.tree) ⟨⟨.rparen, closing⟩ :: rest, depth + 1⟩) r →
      Reads o (.search true none ⟨inner.tokens ++ ⟨.rparen, closing⟩ :: rest, depth + 1⟩) r) :
    Reads o (.item ⟨(Item.group opening inner closing).tokens ++ rest, depth⟩)
      ⟨.ok (some inner.tree), ⟨rest, depth⟩⟩ := by
  have hsearch := h _ (.closed rfl)
  have hgroup := Reads.group (t := ⟨.lparen, opening⟩) rfl hd hsearch
  simpa [Item.tokens, Cursor.leave] using hgroup

/-- Items alone are a value, where no colon follows. -/
theorem reads_plain {as : Items} {first : Expr} {others : List Expr}
    (htrees : as.trees = first :: others.reverse) (hend : (Value.plain as).EndsBefore rest)
    (h : ∀ r, Reads o (.moreItems first others ⟨rest, depth⟩) r →
      Reads o (.value ⟨as.tokens ++ rest, depth⟩) r) :
    Reads o (.value ⟨(Value.plain as).tokens ++ rest, depth⟩)
      ⟨.ok (some (Value.plain as).tree), ⟨rest, depth⟩⟩ := by
  have htree : (Value.plain as).tree = .ofItems first others.reverse := by
    rw [Value.tree, htrees]
    cases others.reverse <;> rfl
  rw [htree]
  exact h _ (.lastItem hend)

/-- Items with a colon behind them are a value, where no item follows. -/
theorem reads_trailing {as : Items} {first : Expr} {others : List Expr} (colon : String)
    (htrees : as.trees = first :: others.reverse)
    (hend : (Value.trailing as colon).EndsBefore rest)
    (h : ∀ r, Reads o (.moreItems first others ⟨⟨.colon, colon⟩ :: rest, depth⟩) r →
      Reads o (.value ⟨as.tokens ++ ⟨.colon, colon⟩ :: rest, depth⟩) r) :
    Reads o (.value ⟨(Value.trailing as colon).tokens ++ rest, depth⟩)
      ⟨.ok (some (Value.trailing as colon).tree), ⟨rest, depth⟩⟩ := by
  have hread := h _ (.trailingColon rfl (reads_noItem hend))
  simpa [Value.tokens, Value.tree, htrees] using hread

/-- A condition is read up to its end when its last value is. -/
theorem reads_conditionEnd {c : Condition} (hend : c.EndsBefore rest)
    (h : ∀ r, Reads o (.moreValues c.tree ⟨rest, depth⟩) r →
      Reads o (.condition ⟨c.tokens ++ rest, depth⟩) r) :
    Reads o (.condition ⟨c.tokens ++ rest, depth⟩) ⟨.ok (some c.tree), ⟨rest, depth⟩⟩ :=
  h _ (.lastValue hend.2)

/-- The first condition of a search. -/
theorem reads_firstCondition {c : Condition} {nested : Bool}
    (h : Reads o (.condition ⟨c.tokens ++ rest, depth⟩) ⟨.ok (some c.tree), ⟨rest, depth⟩⟩)
    {r : SearchFilter.Search.Reading (Option Expr)}
    (hr : Reads o (.search nested (some c.tree) ⟨rest, depth⟩) r) :
    Reads o (.search nested none ⟨c.tokens ++ rest, depth⟩) r := by
  obtain ⟨t, ts, hc, ht⟩ := c.tokens_eq_cons
  rw [hc, List.cons_append] at h ⊢
  exact .first ht h hr

mutual

/-- An item is read in front of any tokens. -/
theorem reads_item {depth : Nat} (a : Item) (hd : a.nesting + depth ≤ o.nestingLimit)
    (rest : List Token) :
    Reads o (.item ⟨a.tokens ++ rest, depth⟩) ⟨.ok (some a.tree), ⟨rest, depth⟩⟩ := by
  cases a with
  | word text | preserved text | quoted text | number text => exact reads_leaf rfl rest depth
  | group opening inner closing =>
    rw [Item.nesting] at hd
    have hinner : inner.nesting + (depth + 1) ≤ o.nestingLimit := by omega
    -- The search goes on until the closing parenthesis, which may stand behind any condition.
    refine reads_group opening closing (by omega) fun r hr => ?_
    exact reads_search inner hinner (List.cons_ne_nil _ _)
      (inner.last.endsBefore_closing closing rest) hr

/-- Items are read up to what follows them. -/
theorem reads_items {depth : Nat} (as : Items) (hd : as.nesting + depth ≤ o.nestingLimit) :
    ∃ first others, as.trees = first :: others.reverse ∧ ∀ (rest : List Token) r,
      Reads o (.moreItems first others ⟨rest, depth⟩) r →
        Reads o (.value ⟨as.tokens ++ rest, depth⟩) r := by
  cases as with
  | one a => exact ⟨a.tree, [], rfl, fun rest r hr => .value (reads_item a hd rest) hr⟩
  | more as colon a =>
    rw [Items.nesting, ← Nat.add_max_add_right, Nat.max_le] at hd
    obtain ⟨first, others, htrees, has⟩ := reads_items as hd.1
    -- The loop gathers items in reverse, so the new one comes first.
    refine ⟨first, a.tree :: others, by simp [Items.trees, htrees], fun rest r hr => ?_⟩
    have ha := reads_item a hd.2 rest
    simpa [Items.tokens] using has (⟨.colon, colon⟩ :: (a.tokens ++ rest)) r (.nextItem rfl ha hr)

/-- A value is read in front of tokens that may stand behind it. -/
theorem reads_value {depth : Nat} (v : Value) (hd : v.nesting + depth ≤ o.nestingLimit)
    {rest : List Token} (hend : v.EndsBefore rest) :
    Reads o (.value ⟨v.tokens ++ rest, depth⟩) ⟨.ok (some v.tree), ⟨rest, depth⟩⟩ := by
  cases v with
  | plain as =>
    obtain ⟨first, others, htrees, has⟩ := reads_items as hd
    exact reads_plain htrees hend (has rest)
  | trailing as colon =>
    obtain ⟨first, others, htrees, has⟩ := reads_items as hd
    exact reads_trailing colon htrees hend (has (⟨.colon, colon⟩ :: rest))

/-- A condition is read up to what follows it. -/
theorem reads_condition {depth : Nat} (c : Condition)
    (hd : c.nesting + depth ≤ o.nestingLimit) {rest : List Token}
    (hlast : lastLeaf? (c.tokens ++ rest) = none)
    (hend : c.last.EndsBefore rest) {r : SearchFilter.Search.Reading (Option Expr)}
    (hr : Reads o (.moreValues c.tree ⟨rest, depth⟩) r) :
    Reads o (.condition ⟨c.tokens ++ rest, depth⟩) r := by
  cases c with
  | one v => exact .condition hlast (reads_value v hd hend) hr
  | more c op text v =>
    rw [Condition.nesting, ← Nat.add_max_add_right, Nat.max_le] at hd
    have hv := reads_value v hd.2 hend
    simp only [Condition.tokens, List.append_assoc, List.cons_append] at hlast ⊢
    -- The earlier values are read first; the loop behind them meets the comparison.
    exact reads_condition c hd.1 hlast (Value.endsBefore_comparison op text _ c.last)
      (.nextValue op.comparison?_kind hv hr)

/-- A search is read up to what follows it. -/
theorem reads_search {depth : Nat} {nested : Bool} (s : Search)
    (hd : s.nesting + depth ≤ o.nestingLimit) {rest : List Token}
    (hrest : rest ≠ []) (hend : s.last.EndsBefore rest)
    {r : SearchFilter.Search.Reading (Option Expr)}
    (hr : Reads o (.search nested (some s.tree) ⟨rest, depth⟩) r) :
    Reads o (.search nested none ⟨s.tokens ++ rest, depth⟩) r := by
  cases s with
  | one c =>
    exact reads_firstCondition (reads_conditionEnd hend fun r hr =>
      reads_condition c hd (Condition.lastLeaf?_append hrest) hend.1 hr) hr
  | more s op text c =>
    rw [Search.nesting, ← Nat.add_max_add_right, Nat.max_le] at hd
    have hc := reads_conditionEnd hend fun r hr =>
      reads_condition c hd.2 (Condition.lastLeaf?_append hrest) hend.1 hr
    simp only [Search.tokens, List.append_assoc, List.cons_append]
    refine reads_search s hd.1 (List.cons_ne_nil _ _)
      (s.last.endsBefore_logic op text _) ?_
    exact .joined op.logic?_kind (by simp [hrest]) hc hr

end

end

/-! ### Whole searches -/

/-- A condition at the end of the tokens: one single leaf is looked for in the fallback field. -/
theorem reads_lastCondition {o : Options} {depth : Nat} (c : Condition)
    (hd : c.nesting + depth ≤ o.nestingLimit) :
    Reads o (.condition ⟨c.tokens, depth⟩)
      ⟨.ok (some (c.lastTree o.fallbackField)), ⟨[], depth⟩⟩ := by
  unfold Condition.lastTree
  cases hleaf : c.leafText? with
  | some text =>
    obtain ⟨t, hlast, rfl⟩ := Condition.lastLeaf?_of_leafText? hleaf
    exact .fallback hlast
  | none =>
    have hlast : lastLeaf? (c.tokens ++ []) = none := by
      rw [List.append_nil]
      cases h : lastLeaf? c.tokens with
      | none => rfl
      | some t => rw [Condition.leafText?_of_lastLeaf? h] at hleaf; cases hleaf
    have hread := reads_conditionEnd c.endsBefore_nil fun r hr =>
      reads_condition c hd hlast c.last.endsBefore_nil hr
    rwa [List.append_nil] at hread

/-- A whole search is read to the end, its last condition as one that stands there. -/
theorem reads_whole (o : Options) (s : Search) (hd : s.nesting ≤ o.nestingLimit) :
    Reads o (.search false none ⟨s.tokens, 0⟩)
      ⟨.ok (some (s.wholeTree o.fallbackField)), ⟨[], 0⟩⟩ := by
  cases s with
  | one c =>
    have hc : Reads o (.condition ⟨c.tokens, 0⟩) _ := reads_lastCondition c hd
    obtain ⟨t, ts, htokens, ht⟩ := c.tokens_eq_cons
    simp only [Search.tokens, htokens] at hc ⊢
    exact .first ht hc .searchEnd
  | more s op text c =>
    rw [Search.nesting, Nat.max_le] at hd
    have hc : Reads o (.condition ⟨c.tokens, 0⟩) _ := reads_lastCondition c hd.2
    have htokens : c.tokens ≠ [] := by
      obtain ⟨t, ts, htokens, -⟩ := c.tokens_eq_cons
      simp [htokens]
    exact reads_search s hd.1 (List.cons_ne_nil _ _) (s.last.endsBefore_logic op text _)
      (.joined op.logic?_kind htokens hc .searchEnd)

/-- **The grammar is read as it is documented**: a derivation whose groups nest no deeper than the
limit reads as its expression, whatever the texts of its tokens are. -/
theorem parse_derivation (o : Options) (s : Search) (h : s.nesting ≤ o.nestingLimit) :
    SearchFilter.Search.parse o s.tokens = .ok (s.wholeTree o.fallbackField) := by
  have hread := (reads_whole o s h).reading_eq
  simp only [SearchFilter.Search.Call.reading] at hread
  simp only [SearchFilter.Search.parse, SearchFilter.Search.read, hread]
  rfl

/-- `( a : b : ) >= 1 & ( ( c | "d" ) ) | { e }`: a list with a trailing colon, groups inside one
another, and a single leaf at the end. -/
def nestedGroups : Search :=
  let list : Value := .trailing (.more (.one (.word "a")) ":" (.word "b")) ":"
  let choice : Search :=
    .more (.one (.one (.plain (.one (.word "c"))))) .or "|" (.one (.plain (.one (.quoted "d"))))
  let group (s : Search) : Value := .plain (.one (.group "(" s ")"))
  .more
    (.more
      (.one (.more (.one (group (.one (.one list)))) .ge ">=" (.plain (.one (.number "1")))))
      .and "&" (.one (group (.one (.one (group choice))))))
    .or "|" (.one (.plain (.one (.preserved " e "))))

theorem parse_derivation_nestedGroups :
    nestedGroups.nesting ≤ 128 ∧
      SearchFilter.Search.parse {}
        [⟨.lparen, "("⟩, ⟨.word, "a"⟩, ⟨.colon, ":"⟩, ⟨.word, "b"⟩, ⟨.colon, ":"⟩, ⟨.rparen, ")"⟩,
          ⟨.ge, ">="⟩, ⟨.number, "1"⟩, ⟨.and, "&"⟩, ⟨.lparen, "("⟩, ⟨.lparen, "("⟩, ⟨.word, "c"⟩,
          ⟨.or, "|"⟩, ⟨.quoted, "d"⟩, ⟨.rparen, ")"⟩, ⟨.rparen, ")"⟩, ⟨.or, "|"⟩,
          ⟨.preserved, " e "⟩] =
        .ok (.binary
          (.binary
            (.binary (.list [.word "a", .word "b"]) { kind := .ge } (.number "1"))
            { kind := .and } (.binary (.word "c") { kind := .or } (.string "d")))
          { kind := .or } (.fallback "en_title" " e ")) :=
  ⟨by decide, parse_derivation {} nestedGroups (by decide)⟩

end SearchFilter.Grammar
