import SearchFilter.Proofs.Stray

/-!
# Tokens that make no difference

Tokens in two kinds of places are passed over without a trace.

* In front of a search, tokens that begin no item (`parse_leading`).  A logic operator among them
  looks for a condition behind itself, and may find the first one of the search; since nothing
  stands on its left, that condition begins the search all the same.
* Behind a condition, any tokens but logic operators, unless the first of them goes on with the
  condition (`parse_littered`).  They need not be balanced and may nest as they like: something
  stands on the left, so none of them is read.  Behind the last condition they still show in one
  way.  It is not the end of the search any more, so if it is a single leaf it stays one.
-/

namespace SearchFilter.Grammar
open SearchFilter.Search (Cursor Reads Options parse logic?_of_isAtom)

variable {o : Options}

/-! ### In front of a search -/

/-- A token that begins no item may stand in front of a search that is not empty. -/
theorem reads_leadingToken {t : Token} {ts : List Token} {depth : Nat}
    {r : SearchFilter.Search.Reading (Option Expr)} (ht : t.kind.isAtom = false) (hts : ts ≠ [])
    (h : Reads o (.search false none ⟨ts, depth⟩) r) :
    Reads o (.search false none ⟨t :: ts, depth⟩) r := by
  cases hlogic : t.kind.logic? with
  | none => exact .passed hlogic nofun (fun _ => ht) h
  | some op =>
    obtain ⟨u, us, rfl⟩ := List.exists_cons_of_ne_nil hts
    by_cases hu : u.kind.isAtom
    · -- The operator finds the condition that the search would begin with by itself.
      cases h with
      | first _ operand more => exact .joined hlogic hts operand more
      | badFirst _ operand => exact .badOperand hlogic hts operand
      | passed _ _ hatom _ => exact absurd hu (by simp [hatom rfl])
      | lastOperator h | joined h _ _ _ | badOperand h _ _ => simp [logic?_of_isAtom hu] at h
    · have habsent := reads_absentCondition (o := o) (c := ⟨u :: us, depth⟩) (by simpa using hu)
      exact .joined hlogic hts habsent h

theorem reads_leading {front ts : List Token} {depth : Nat}
    {r : SearchFilter.Search.Reading (Option Expr)} (hfront : ∀ t ∈ front, t.kind.isAtom = false)
    (hts : ts ≠ []) (h : Reads o (.search false none ⟨ts, depth⟩) r) :
    Reads o (.search false none ⟨front ++ ts, depth⟩) r := by
  induction front with
  | nil => exact h
  | cons t front ih =>
    obtain ⟨ht, hfront⟩ := List.forall_mem_cons.mp hfront
    exact reads_leadingToken ht (by simp [hts]) (ih hfront)

/-- **Tokens that begin no item make no difference in front of a search**, whatever the search is:
it reads as the same expression, or fails with the same error. -/
theorem parse_leading (o : Options) {front ts : List Token}
    (hfront : ∀ t ∈ front, t.kind.isAtom = false) (hts : ts ≠ []) :
    parse o (front ++ ts) = parse o ts :=
  have h := SearchFilter.Search.reads_reading o (.search false none ⟨ts, 0⟩)
  parse_congr (reads_leading hfront hts h) h

/-- `| ) = ! & a`: the last operator finds the term, which is still looked for. -/
theorem parse_leading_operator :
    (∀ t ∈ [(⟨.or, "|"⟩ : Token), ⟨.rparen, ")"⟩, ⟨.eq, "="⟩, ⟨.not, "!"⟩, ⟨.and, "&"⟩],
        t.kind.isAtom = false) ∧ [(⟨.word, "a"⟩ : Token)] ≠ [] ∧
      parse {} [⟨.or, "|"⟩, ⟨.rparen, ")"⟩, ⟨.eq, "="⟩, ⟨.not, "!"⟩, ⟨.and, "&"⟩, ⟨.word, "a"⟩] =
        .ok (.fallback "en_title" "a") := by
  have hfront : ∀ t ∈ [(⟨.or, "|"⟩ : Token), ⟨.rparen, ")"⟩, ⟨.eq, "="⟩, ⟨.not, "!"⟩,
      ⟨.and, "&"⟩], t.kind.isAtom = false := by decide
  have hterm : [(⟨.word, "a"⟩ : Token)] ≠ [] := List.cons_ne_nil _ _
  refine ⟨hfront, hterm, (parse_leading {} hfront hterm).trans ?_⟩
  with_unfolding_all rfl

/-! ### Behind conditions -/

/-- The tokens may be put in behind the condition: none of them is a logic operator, and the first
does not go on with the condition. -/
def Condition.Allows (litter : List Token) (c : Condition) : Prop :=
  (∀ t ∈ litter, t.kind.logic? = none) ∧ c.EndsBefore litter

/-- The expression of a condition in front of the end or of other tokens: in front of others it is
not looked for in the fallback field. -/
def Condition.treeBefore (field : String) (rest : List Token) (c : Condition) : Expr :=
  if rest = [] then c.lastTree field else c.tree

/-- A search with more tokens behind each of its conditions. -/
inductive Littered where
  | one (condition : Condition) (litter : List Token)
  | more (search : Littered) (op : Logic) (text : String) (condition : Condition)
      (litter : List Token)

namespace Littered

/-- The search without the tokens that were put in. -/
def search : Littered → Search
  | .one c _ => .one c
  | .more l op text c _ => .more l.search op text c

/-- The tokens of the search, with those that were put in. -/
def tokens : Littered → List Token
  | .one c litter => c.tokens ++ litter
  | .more l op text c litter => l.tokens ++ ⟨op.kind, text⟩ :: (c.tokens ++ litter)

/-- What was put in behind the last condition. -/
def last : Littered → List Token
  | .one _ litter => litter
  | .more _ _ _ _ litter => litter

/-- Behind every condition only such tokens were put in as it allows. -/
def Allowed : Littered → Prop
  | .one c litter => c.Allows litter
  | .more l _ _ c litter => l.Allowed ∧ c.Allows litter

instance (litter : List Token) : (v : Value) → Decidable (v.EndsBefore litter)
  | .plain _ => inferInstanceAs (Decidable (∀ t ∈ litter.head?, t.kind ≠ .colon))
  | .trailing _ _ => inferInstanceAs (Decidable (∀ t ∈ litter.head?, t.kind.isAtom = false))

instance (c : Condition) (litter : List Token) : Decidable (c.Allows litter) :=
  inferInstanceAs (Decidable (_ ∧ c.last.EndsBefore litter ∧ _))

instance Allowed.decidable : (l : Littered) → Decidable l.Allowed
  | .one c litter => inferInstanceAs (Decidable (c.Allows litter))
  | .more l _ _ c litter =>
    have := Allowed.decidable l
    inferInstanceAs (Decidable (l.Allowed ∧ c.Allows litter))

end Littered

section

variable {c : Condition} {litter rest : List Token} {r : SearchFilter.Search.Reading (Option Expr)}

/-- What may stand behind a condition is told by its first token. -/
theorem Condition.endsBefore_append (h : c.EndsBefore litter)
    (hrest : litter = [] → c.EndsBefore rest) : c.EndsBefore (litter ++ rest) := by
  cases litter with
  | nil => exact hrest rfl
  | cons t ts =>
    refine ⟨?_, h.2⟩
    have hlast := h.1
    revert hlast
    cases c.last <;> exact id

/-- A condition is read up to what was put in behind it. -/
theorem reads_litteredCondition (hd : c.nesting ≤ o.nestingLimit) (hne : rest ≠ [])
    (hend : c.EndsBefore rest) :
    Reads o (.condition ⟨c.tokens ++ rest, 0⟩) ⟨.ok (some c.tree), ⟨rest, 0⟩⟩ :=
  reads_conditionEnd hend fun _ =>
    reads_condition c hd (Condition.lastLeaf?_append hne) hend.1

/-- A condition at the end of a search: if nothing was put in behind it, it may be looked for in the
fallback field. -/
theorem reads_lastLittered (hd : c.nesting ≤ o.nestingLimit) (hend : c.EndsBefore litter) :
    Reads o (.condition ⟨c.tokens ++ litter, 0⟩)
      ⟨.ok (some (c.treeBefore o.fallbackField litter)), ⟨litter, 0⟩⟩ := by
  unfold Condition.treeBefore
  split
  · next hnil =>
    subst hnil
    simpa using reads_lastCondition c hd
  · next hne => exact reads_litteredCondition hd hne hend

/-- A search is read up to the operator behind it, whatever was put in. -/
theorem reads_littered (l : Littered) (hd : l.search.nesting ≤ o.nestingLimit) (hl : l.Allowed)
    {rest : List Token} {r : SearchFilter.Search.Reading (Option Expr)} (op : Logic) (text : String)
    (hr : Reads o (.search false (some l.search.tree) ⟨⟨op.kind, text⟩ :: rest, 0⟩) r) :
    Reads o (.search false none ⟨l.tokens ++ ⟨op.kind, text⟩ :: rest, 0⟩) r := by
  induction l generalizing op text rest r with
  | one c litter =>
    have hend : c.EndsBefore (litter ++ ⟨op.kind, text⟩ :: rest) :=
      Condition.endsBefore_append hl.2 fun _ => c.endsBefore_logic op text rest
    have hc := reads_litteredCondition hd (by simp) hend
    have h := reads_firstCondition hc (reads_passed hl.1 hr nofun)
    simpa [Littered.tokens] using h
  | more l op' text' c litter ih =>
    obtain ⟨hl, hlitter⟩ := hl
    obtain ⟨hd, hdc⟩ := Nat.max_le.mp hd
    have hend : c.EndsBefore (litter ++ ⟨op.kind, text⟩ :: rest) :=
      Condition.endsBefore_append hlitter.2 fun _ => c.endsBefore_logic op text rest
    have hc := reads_litteredCondition hdc (by simp) hend
    -- The operator in front of the condition stands behind the search that the induction is on.
    have h := ih hd hl op' text'
      (.joined op'.logic?_kind (by simp) hc (reads_passed hlitter.1 hr nofun))
    simpa [Littered.tokens] using h

end

/-- The expression of a search with more tokens in it. -/
def Littered.tree (field : String) : Littered → Expr
  | .one c litter => c.treeBefore field litter
  | .more l op _ c litter =>
    .binary l.search.tree { kind := op.operator } (c.treeBefore field litter)

/-- A search with more tokens in it is read to the end. -/
theorem reads_wholeLittered (l : Littered) (hd : l.search.nesting ≤ o.nestingLimit)
    (hl : l.Allowed) :
    Reads o (.search false none ⟨l.tokens, 0⟩) ⟨.ok (some (l.tree o.fallbackField)), ⟨[], 0⟩⟩ := by
  have hend {e : Expr} {litter : List Token} (h : ∀ t ∈ litter, t.kind.logic? = none) :
      Reads o (.search false (some e) ⟨litter, 0⟩) ⟨.ok (some e), ⟨[], 0⟩⟩ := by
    have hpassed : Reads o (.search false (some e) ⟨litter ++ [], 0⟩) ⟨.ok (some e), ⟨[], 0⟩⟩ :=
      reads_passed h .searchEnd nofun
    simpa using hpassed
  cases l with
  | one c litter =>
    have hc : Reads o (.condition ⟨c.tokens ++ litter, 0⟩) _ := reads_lastLittered hd hl.2
    obtain ⟨t, ts, htokens, ht⟩ := c.tokens_eq_cons
    simp only [Littered.tokens, htokens] at hc ⊢
    exact .first ht hc (hend hl.1)
  | more l op text c litter =>
    obtain ⟨hl, hlitter⟩ := hl
    obtain ⟨hd, hdc⟩ := Nat.max_le.mp hd
    have hc : Reads o (.condition ⟨c.tokens ++ litter, 0⟩) _ := reads_lastLittered hdc hlitter.2
    have hne : c.tokens ++ litter ≠ [] := by
      obtain ⟨t, ts, htokens, -⟩ := c.tokens_eq_cons
      simp [htokens]
    exact reads_littered l hd hl op text (.joined op.logic?_kind hne hc (hend hlitter.1))

/-- Behind a last condition that is no single leaf nothing shows. -/
theorem Littered.tree_eq (field : String) (l : Littered) :
    l.tree field = if l.last = [] ∨ l.search.last.leafText? = none then l.search.wholeTree field
      else l.search.tree := by
  have hc (c : Condition) (litter : List Token) : c.treeBefore field litter =
      if litter = [] ∨ c.leafText? = none then c.lastTree field else c.tree := by
    by_cases hnil : litter = []
    · simp [Condition.treeBefore, hnil]
    · cases hleaf : c.leafText? <;> simp [Condition.treeBefore, Condition.lastTree, hnil, hleaf]
  cases l with
  | one c litter => exact hc c litter
  | more l op text c litter =>
    rw [tree, hc, last, search, Search.last]
    split <;> rfl

/-- **Tokens behind a condition that do not go on with it make no difference**, up to the next logic
operator.  A search whose groups nest no deeper than the limit reads with them as without them, with
one exception: behind a last condition that is one single leaf they keep it from being looked for in
the fallback field, and it stays a plain leaf. -/
theorem parse_littered (o : Options) (l : Littered) (hd : l.search.nesting ≤ o.nestingLimit)
    (hl : l.Allowed) :
    parse o l.search.tokens = .ok (l.search.wholeTree o.fallbackField) ∧
      parse o l.tokens =
        if l.last = [] ∨ l.search.last.leafText? = none then parse o l.search.tokens
        else .ok l.search.tree := by
  have hplain := parse_eq (reads_whole o l.search hd)
  refine ⟨hplain, ?_⟩
  rw [parse_eq (reads_wholeLittered l hd hl), l.tree_eq, hplain]
  split <;> rfl

/-- `a = 1 ) ( b & c : ! = : | d ( x`: a group that is never closed behind the first condition, a
comparison behind the second, which ends in a colon, and a term behind the last. -/
def unbalancedLitter : Littered :=
  let leaf (text : String) : Condition := .one (.plain (.one (.word text)))
  .more
    (.more
      (.one (.more (leaf "a") .eq "=" (.plain (.one (.number "1"))))
        [⟨.rparen, ")"⟩, ⟨.lparen, "("⟩, ⟨.word, "b"⟩])
      .and "&" (.one (.trailing (.one (.word "c")) ":")) [⟨.not, "!"⟩, ⟨.eq, "="⟩, ⟨.colon, ":"⟩])
    .or "|" (leaf "d") [⟨.lparen, "("⟩, ⟨.word, "x"⟩]

theorem parse_littered_unbalanced :
    unbalancedLitter.search.nesting ≤ 128 ∧ unbalancedLitter.Allowed ∧
      parse {} unbalancedLitter.tokens =
        .ok (.binary
          (.binary (.binary (.word "a") { kind := .eq } (.number "1")) { kind := .and }
            (.list [.word "c"]))
          { kind := .or } (.word "d")) := by
  have hd : unbalancedLitter.search.nesting ≤ 128 := by decide
  have hl : unbalancedLitter.Allowed := by decide
  exact ⟨hd, hl, (parse_littered {} unbalancedLitter hd hl).2⟩

end SearchFilter.Grammar
