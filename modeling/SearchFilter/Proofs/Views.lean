import Mathlib.Control.Monad.Basic
import SearchFilter.Proofs.Failure
import SearchFilter.Proofs.JsonText
import SearchFilter.Report

/-!
# Views of one query

The filter, the tokens and the tree of a query tell one story (`views_agree`).  Tokens are always
shown; the filter and the tree are refused together, for the operator that ends the query; and what
a view shows decides what the views behind it show, tokens before the tree and the tree before the
filter.

A view is made of the one before it, so this is a matter of reading that one back from the answer:
JSON is read in one way, in either layout (`Json.render_inj`).
-/

namespace SearchFilter.Report

/-- The answer when a view of a query is asked for, indented or on one line. -/
def ask (o : Search.Options) (pretty : Bool) (view : View) (query : String) :
    Except Failure String :=
  Request.answer
    { query? := some query, options := o, view, layout := if pretty then .indented else .compact }

theorem blank_layout (pretty : Bool) :
    (if pretty then Json.Layout.indented else Json.Layout.compact).Blank := by
  cases pretty
  · exact Json.Layout.blank_compact
  · exact Json.Layout.blank_indented

variable {o : Search.Options} {pretty : Bool} {view : View} {query query' : String}

/-! ### What a view depends on -/

/-- Line ends behind a query are not part of it. -/
theorem trimmed_append {ends : String} (h : ∀ c ∈ ends.toList, c = '\r' ∨ c = '\n') :
    trimmed (query ++ ends) = trimmed query := by
  have hends : ∀ c ∈ ends.toList.reverse, (decide (c = '\r') || decide (c = '\n')) = true := by
    intro c hc
    simpa using h c (List.mem_reverse.mp hc)
  unfold trimmed
  rw [String.toList_append, List.reverse_append, List.dropWhile_append_of_pos hends]

/-- An answer depends on a query by its tokens. -/
theorem ask_congr (h : Token.lex (trimmed query) = Token.lex (trimmed query')) :
    ask o pretty view query = ask o pretty view query' := by
  cases view <;> simp only [ask, Request.answer, Query.compile, Query.parse, h]

theorem ask_append {ends : String} (h : ∀ c ∈ ends.toList, c = '\r' ∨ c = '\n') :
    ask o pretty view (query ++ ends) = ask o pretty view query :=
  ask_congr (by rw [trimmed_append h])

/-- Tokens are always shown, and tell the tokens. -/
theorem ask_tokens (o : Search.Options) (pretty : Bool) (query : String) :
    ask o pretty .tokens query =
      .ok (Json.render (if pretty then .indented else .compact)
        (.array ((Token.lex (trimmed query)).map Token.toJson))) :=
  rfl

theorem lex_eq_of_ask_tokens (h : ask o pretty .tokens query = ask o pretty .tokens query') :
    Token.lex (trimmed query) = Token.lex (trimmed query') := by
  rw [ask_tokens, ask_tokens] at h
  have hitems := Json.array.inj (Json.render_inj (blank_layout pretty) (Except.ok.inj h))
  exact (List.map_inj_right fun _ _ => Token.toJson_inj).mp hitems

/-- A tree that is shown is that of the expression which the query means. -/
theorem ask_tree_eq_ok_iff {out : String} :
    ask o pretty .tree query = .ok out ↔ ∃ e, Query.parse o (trimmed query) = .ok e ∧
      Json.render (if pretty then .indented else .compact) e.toJson = out := by
  simp only [ask, Request.answer]
  cases Query.parse o (trimmed query) <;> simp [Except.mapError, Except.map]

theorem ask_filter_eq (o : Search.Options) (pretty : Bool) (query : String) :
    ask o pretty .filter query =
      (Query.parse o (trimmed query) |>.map Expr.filter).mapError .search :=
  rfl

theorem ask_filter_eq_of_ask_tree {out : String} (h : ask o pretty .tree query = .ok out)
    (h' : ask o pretty .tree query' = .ok out) :
    ask o pretty .filter query = ask o pretty .filter query' := by
  obtain ⟨e, he, hout⟩ := ask_tree_eq_ok_iff.mp h
  obtain ⟨e', he', hout'⟩ := ask_tree_eq_ok_iff.mp h'
  have hsame : e = e' :=
    Expr.toJson_inj (Json.render_inj (blank_layout pretty) (hout.trans hout'.symm))
  rw [ask_filter_eq, ask_filter_eq, he, he', hsame]

/-! ### Refused queries -/

/-- The filter and the tree are refused where the search is, and with its error. -/
theorem ask_eq_error_iff (hview : view ≠ .tokens) {failure : Failure} :
    ask o pretty view query = .error failure ↔
      ∃ err, Search.parse o (Token.lex (trimmed query)) = .error err ∧ failure = .search err := by
  cases view with
  | tokens => exact absurd rfl hview
  | filter | tree =>
    simp only [ask, Request.answer, Query.compile, Query.parse]
    cases Search.parse o (Token.lex (trimmed query)) <;>
      simp [Except.mapError, Except.map, eq_comm]

theorem ask_eq_ok_iff (hview : view ≠ .tokens) :
    (∃ out, ask o pretty view query = .ok out) ↔
      ∃ e, Search.parse o (Token.lex (trimmed query)) = .ok e := by
  cases view with
  | tokens => exact absurd rfl hview
  | filter | tree =>
    simp only [ask, Request.answer, Query.compile, Query.parse]
    cases Search.parse o (Token.lex (trimmed query)) <;> simp [Except.mapError, Except.map]

/-- The one failure, and exactly when it arises. -/
theorem ask_eq_error_iff_lex (hview : view ≠ .tokens) {failure : Failure} :
    ask o pretty view query = .error failure ↔
      ∃ t ∈ (Token.lex (trimmed query)).getLast?, (t.kind = .and ∨ t.kind = .or) ∧
        failure = .search (.missingOperand t.text) := by
  rw [ask_eq_error_iff hview]
  constructor
  · rintro ⟨err, herr, rfl⟩
    obtain ⟨t, ht, hk, rfl⟩ := Search.parse_eq_error_iff.mp herr
    exact ⟨t, ht, hk, rfl⟩
  · rintro ⟨t, ht, hk, rfl⟩
    exact ⟨_, Search.parse_eq_error_iff.mpr ⟨t, ht, hk, rfl⟩, rfl⟩

/-! ### The views together -/

/-- **The views of a query agree.**  Tokens are always shown, and the other two views are refused
together.  Line ends behind a query change nothing; queries with the same tokens have the same
views, and queries with the same tree the same filter. -/
theorem views_agree (o : Search.Options) (pretty : Bool) :
    (∀ query, ∃ out, ask o pretty .tokens query = .ok out) ∧
      (∀ query view, view ≠ .tokens →
        ((∃ out, ask o pretty view query = .ok out) ↔
          ¬ ∃ t ∈ (Token.lex (trimmed query)).getLast?, t.kind = .and ∨ t.kind = .or) ∧
        ∀ failure, ask o pretty view query = .error failure ↔
          ∃ t ∈ (Token.lex (trimmed query)).getLast?, (t.kind = .and ∨ t.kind = .or) ∧
            failure = .search (.missingOperand t.text)) ∧
      (∀ query ends view, (∀ c ∈ ends.toList, c = '\r' ∨ c = '\n') →
        ask o pretty view (query ++ ends) = ask o pretty view query) ∧
      (∀ query query', ask o pretty .tokens query = ask o pretty .tokens query' →
        ∀ view, ask o pretty view query = ask o pretty view query') ∧
      ∀ query query' out, ask o pretty .tree query = .ok out → ask o pretty .tree query' = .ok out →
        ask o pretty .filter query = ask o pretty .filter query' := by
  refine ⟨fun query => ⟨_, ask_tokens o pretty query⟩, fun query view hview => ⟨?_, ?_⟩,
    fun query ends view => ask_append, fun query query' h view => ?_, fun query query' out => ?_⟩
  · rw [ask_eq_ok_iff hview, Search.parse_eq_ok_iff]
  · exact fun failure => ask_eq_error_iff_lex hview
  · exact ask_congr (lex_eq_of_ask_tokens h)
  · exact ask_filter_eq_of_ask_tree

/-- Spaces leave the tokens as they are and a group leaves the tree, here with a quote in a string;
and a query that ends in an operator is refused, with a line end behind it or not. -/
theorem views_agree_spellings :
    let query := "yr = 'a\"b' & z\r\n"
    let spaced := "yr  =  'a\"b'  &  z"
    let grouped := "( yr = 'a\"b' ) & z"
    (∀ view, ask {} true view query = ask {} true view spaced) ∧
      ask {} true .tokens query ≠ ask {} true .tokens grouped ∧
      ask {} true .filter query = ask {} true .filter grouped ∧
      ask {} true .tree "yr &\n" = .error (.search (.missingOperand "&")) ∧
      ask {} true .tree "yr &\n\r" = ask {} true .tree "yr &\n" := by
  intro query spaced grouped
  obtain ⟨-, hrefused, hends, htokens, htree⟩ := views_agree {} true
  let e : Expr := .binary (.binary (.word "yr") { kind := .eq } (.string "a\"b"))
    { kind := .and } (.fallback "en_title" "z")
  have hquery : ask {} true .tree query = .ok (Json.render .indented e.toJson) :=
    ask_tree_eq_ok_iff.mpr ⟨e, by decide +kernel, rfl⟩
  have hgrouped : ask {} true .tree grouped = .ok (Json.render .indented e.toJson) :=
    ask_tree_eq_ok_iff.mpr ⟨e, by decide +kernel, rfl⟩
  refine ⟨htokens query spaced (by decide +kernel), fun h => ?_, ?_, ?_, ?_⟩
  · have hlex := lex_eq_of_ask_tokens h
    revert hlex
    decide +kernel
  · exact htree query grouped _ hquery hgrouped
  · refine ((hrefused "yr &\n" .tree (by decide)).2 _).mpr ⟨⟨.and, "&"⟩, ?_, .inl rfl, rfl⟩
    decide +kernel
  · exact hends "yr &\n" "\r" .tree fun c hc => .inl (List.mem_singleton.mp hc)

end SearchFilter.Report
