import SearchFilter.Proofs.Rules
import SearchFilter.Query

/-!
# When a search cannot be read

A search is refused exactly when its last token is a logic operator, and the error names that
operator (`parse_fails_iff`); so a query is refused exactly when its text ends in one.

The invariant is about the operator that ends the tokens still to be read, `trailing?`.  A call
that succeeds leaves tokens that end in the same operator as those it was given, so none reads past
it; a call that fails names it (`Reads.keepsTrailing`).  The whole search, when it succeeds, leaves
nothing, and nothing ends in no operator.
-/

namespace SearchFilter.Search

/-! ### The operator that ends the tokens -/

/-- The text of the logic operator that ends the tokens, if one does. -/
def trailing? (ts : List Token) : Option String :=
  (ts.getLast?.filter (·.kind.isLogic)).map (·.text)

theorem trailing?_cons_of_ne_nil {ts : List Token} (h : ts ≠ []) (t : Token) :
    trailing? (t :: ts) = trailing? ts := by
  cases ts with
  | nil => exact absurd rfl h
  | cons u us => simp [trailing?, List.getLast?_cons]

theorem trailing?_cons_of_not_isLogic {t : Token} (h : t.kind.isLogic = false)
    (ts : List Token) : trailing? (t :: ts) = trailing? ts := by
  cases ts with
  | nil => simp [trailing?, h]
  | cons u us => exact trailing?_cons_of_ne_nil (List.cons_ne_nil u us) t

theorem trailing?_singleton {t : Token} (h : t.kind.isLogic = true) :
    trailing? [t] = some t.text := by
  simp only [trailing?, List.getLast?_singleton, Option.filter_some, h, if_true, Option.map_some]

theorem trailing?_dropParens (ts : List Token) :
    trailing? (ts.dropWhile (·.kind = .lparen)) = trailing? ts := by
  induction ts with
  | nil => rfl
  | cons t ts ih =>
    by_cases ht : t.kind = .lparen
    · have hlogic : t.kind.isLogic = false := by rw [ht]; rfl
      simpa [ht, trailing?_cons_of_not_isLogic hlogic] using ih
    · simp [ht]

theorem trailing?_skipParens (limit : Nat) (c : Cursor) :
    trailing? (c.skipParens limit).rest = trailing? c.rest := by
  unfold Cursor.skipParens
  split
  · exact trailing?_dropParens c.rest
  · rfl

theorem trailing?_leave (c : Cursor) : trailing? c.leave.rest = trailing? c.rest := by
  obtain ⟨_ | ⟨t, ts⟩, depth⟩ := c
  · rfl
  · by_cases ht : t.kind = .rparen
    · have hlogic : t.kind.isLogic = false := by rw [ht]; rfl
      simpa [Cursor.leave, ht] using (trailing?_cons_of_not_isLogic hlogic ts).symm
    · simp [Cursor.leave, ht]

/-! ### No call reads past it -/

/-- A reading of tokens that end in the operator `last`: it leaves tokens that end in the same
operator, or fails for that operator. -/
def Reading.KeepsTrailing (last : Option String) (r : Reading (Option Expr)) : Prop :=
  match r.value with
  | .ok _ => trailing? r.next.rest = last
  | .error (.missingOperand operator) => last = some operator

theorem Reading.KeepsTrailing.leave {last : Option String} {v : Except Error (Option Expr)}
    {next : Cursor} (h : KeepsTrailing last ⟨v, next⟩) : KeepsTrailing last ⟨v, next.leave⟩ := by
  cases v with
  | ok e => exact (trailing?_leave next).trans h
  | error err => exact h

/-- A token that is no logic operator may be passed in front. -/
theorem Reading.KeepsTrailing.passing {t : Token} {ts : List Token} {r : Reading (Option Expr)}
    (ht : t.kind.isLogic = false) (h : r.KeepsTrailing (trailing? ts)) :
    r.KeepsTrailing (trailing? (t :: ts)) := by
  rwa [trailing?_cons_of_not_isLogic ht]

theorem isLogic_of_isLeaf {k : Token.Kind} (h : k.isLeaf = true) : k.isLogic = false := by
  revert h
  cases k <;> decide

theorem isLogic_of_comparison? {k : Token.Kind} {op : Operator.Kind}
    (h : k.comparison? = some op) : k.isLogic = false := by
  have hk := Token.Kind.isComparison_of_comparison? h
  clear h
  revert hk
  cases k <;> decide

/-- **No call reads past the operator that ends its tokens**, and one that fails names it. -/
theorem Reads.keepsTrailing {o : Options} {call : Call} {r : Reading (Option Expr)}
    (h : Reads o call r) : r.KeepsTrailing (trailing? call.start.rest) := by
  induction h with
  | noItem _ => exact trailing?_skipParens _ _
  | @leaf c t ts e h ht =>
    show trailing? ts = trailing? c.rest
    rw [← trailing?_skipParens o.nestingLimit c, h,
      trailing?_cons_of_not_isLogic (isLogic_of_isLeaf (isLeaf_of_ofToken? ht))]
  | group ht _ _ ih => exact .passing (by rw [ht]; rfl) ih.leave
  | noValue _ _ ih | noCondition _ _ _ ih | badFirst _ _ ih => exact ih
  | value _ _ ih₁ ih₂ | condition _ _ _ ih₁ ih₂ | first _ _ _ ih₁ ih₂ => exact ih₁ ▸ ih₂
  | lastItem _ | lastValue _ | searchEnd | closed _ => exact rfl
  | nextItem ht _ _ ih₁ ih₂ => exact .passing (by rw [ht]; rfl) (ih₁ ▸ ih₂)
  | trailingColon ht _ ih | badItem ht _ ih => exact .passing (by rw [ht]; rfl) ih
  | @fallback c t h =>
    obtain ⟨hrest, ht⟩ := lastLeaf?_eq_some_iff.mp h
    show trailing? [] = trailing? c.rest
    rw [hrest, trailing?_cons_of_not_isLogic (isLogic_of_isLeaf ht)]
  | nextValue ht _ _ ih₁ ih₂ => exact .passing (isLogic_of_comparison? ht) (ih₁ ▸ ih₂)
  | droppedComparison ht _ ih | badValue ht _ ih =>
    exact .passing (isLogic_of_comparison? ht) ih
  -- The one rule that fails by itself.
  | lastOperator ht => exact trailing?_singleton (Token.Kind.isLogic_of_logic? ht)
  | @joined _ _ _ _ t ts _ _ r ht hts _ _ ih₁ ih₂ =>
    show r.KeepsTrailing (trailing? (t :: ts))
    rw [trailing?_cons_of_ne_nil hts]
    exact ih₁ ▸ ih₂
  | @badOperand _ _ _ t ts _ err next ht hts _ ih =>
    show Reading.KeepsTrailing (trailing? (t :: ts)) ⟨.error err, next⟩
    rw [trailing?_cons_of_ne_nil hts]
    exact ih
  | passed hlogic _ _ _ ih => exact .passing (Token.Kind.isLogic_eq_false hlogic) ih

/-! ### Whole searches -/

/-- A whole search fails for the operator that ends it, and succeeds where none does. -/
theorem parse_cases (o : Options) (ts : List Token) :
    (∃ operator, trailing? ts = some operator ∧ parse o ts = .error (.missingOperand operator)) ∨
      trailing? ts = none ∧ ∃ e, parse o ts = .ok e := by
  have h : Reads o (.search false none ⟨ts, 0⟩) (search o false none ⟨ts, 0⟩).1 :=
    reads_reading o (.search false none ⟨ts, 0⟩)
  have hlast : Reading.KeepsTrailing (trailing? ts) (search o false none ⟨ts, 0⟩).1 :=
    h.keepsTrailing
  simp only [parse, read]
  generalize (search o false none ⟨ts, 0⟩).1 = r at h hlast ⊢
  match r, h, hlast with
  | ⟨.ok v, next⟩, h, hlast =>
    rcases h.search_end with hend | ⟨hnested, -⟩
    · -- Nothing is left, and nothing ends in no operator.
      have hnone : trailing? next.rest = trailing? ts := hlast
      rw [hend] at hnone
      exact .inr ⟨hnone.symm, _, rfl⟩
    · cases hnested
  | ⟨.error (.missingOperand operator), next⟩, _, hlast => exact .inl ⟨operator, hlast, rfl⟩

theorem trailing?_eq_some_iff {ts : List Token} {operator : String} :
    trailing? ts = some operator ↔
      ∃ t ∈ ts.getLast?, (t.kind = .and ∨ t.kind = .or) ∧ t.text = operator := by
  simp only [trailing?, Option.map_eq_some_iff, Option.filter_eq_some_iff, isLogic_iff,
    Option.mem_def, and_assoc]

/-- The one error, and exactly when it arises. -/
theorem parse_eq_error_iff {o : Options} {ts : List Token} {err : Error} :
    parse o ts = .error err ↔
      ∃ t ∈ ts.getLast?, (t.kind = .and ∨ t.kind = .or) ∧ err = .missingOperand t.text := by
  rcases parse_cases o ts with ⟨operator, hlast, hparse⟩ | ⟨hlast, e, hparse⟩
  · obtain ⟨t, ht, hk, rfl⟩ := trailing?_eq_some_iff.mp hlast
    rw [hparse]
    constructor
    · intro h
      cases h
      exact ⟨t, ht, hk, rfl⟩
    · rintro ⟨u, hu, -, rfl⟩
      rw [Option.mem_unique ht hu]
  · rw [hparse]
    constructor
    · intro h
      cases h
    · rintro ⟨t, ht, hk, -⟩
      rw [trailing?_eq_some_iff.mpr ⟨t, ht, hk, rfl⟩] at hlast
      cases hlast

theorem parse_eq_ok_iff {o : Options} {ts : List Token} :
    (∃ e, parse o ts = .ok e) ↔ ¬ ∃ t ∈ ts.getLast?, t.kind = .and ∨ t.kind = .or := by
  constructor
  · rintro ⟨e, he⟩ ⟨t, ht, hk⟩
    rw [parse_eq_error_iff.mpr ⟨t, ht, hk, rfl⟩] at he
    cases he
  · intro h
    rcases parse_cases o ts with ⟨operator, hlast, -⟩ | ⟨-, hok⟩
    · obtain ⟨t, ht, hk, -⟩ := trailing?_eq_some_iff.mp hlast
      exact absurd ⟨t, ht, hk⟩ h
    · exact hok

/-- A query is refused with its search. -/
theorem compile_eq_error_iff {o : Options} {text : String} {err : Error} :
    Query.compile o text = .error err ↔ parse o (Token.lex text) = .error err := by
  unfold Query.compile Query.parse
  cases parse o (Token.lex text) <;> simp [Except.map]

/-- **A search is refused exactly when its last token is a logic operator**, and then for that
operator; every other search is read.  A query is refused exactly when the tokens of its text end
in a logic operator. -/
theorem parse_fails_iff (o : Options) (ts : List Token) (text : String) :
    (∀ err, parse o ts = .error err ↔
      ∃ t ∈ ts.getLast?, (t.kind = .and ∨ t.kind = .or) ∧ err = .missingOperand t.text) ∧
    ((∃ e, parse o ts = .ok e) ↔ ¬ ∃ t ∈ ts.getLast?, t.kind = .and ∨ t.kind = .or) ∧
    ((∃ err, Query.compile o text = .error err) ↔
      ∃ t ∈ (Token.lex text).getLast?, t.kind = .and ∨ t.kind = .or) := by
  refine ⟨fun err => parse_eq_error_iff, parse_eq_ok_iff, ?_, ?_⟩
  · rintro ⟨err, h⟩
    obtain ⟨t, ht, hk, -⟩ := parse_eq_error_iff.mp (compile_eq_error_iff.mp h)
    exact ⟨t, ht, hk⟩
  · rintro ⟨t, ht, hk⟩
    exact ⟨_, compile_eq_error_iff.mpr (parse_eq_error_iff.mpr ⟨t, ht, hk, rfl⟩)⟩

end SearchFilter.Search
