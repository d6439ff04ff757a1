import SearchFilter.Proofs.ShortForm
import SearchFilter.Proofs.Stray
import SearchFilter.Query

/-!
# Queries of one term

A query that is one term looks for that term in the fallback field (`compile_term`).  The term may
be written bare, as a number, between quotes or as a block (`TermSpelling`), with any gap before it
and behind it.

A term is written so that it is one token that ends at the gap, and whatever the second character of
the query is makes no difference to it, since no term is a comparison.  One leaf that is all of a
search is looked for, and the filter quotes it for itself.
-/

namespace SearchFilter.Query
open Token (Balanced IsNumber Run ShortSpelling Spells endsWord escape isGap leads lex)
open Search (Reads lastLeaf?_eq_some_iff)

variable {term written before after rest : List Char} {t : Token}

/-! ### How a term is written -/

/-- The characters that no bare term begins with, beside digits and the characters that end a
word. -/
def openers : List Char := ['*', '/', '-', '+', ':', '(', ')', '!', '"', '\'', '{']

/-- `TermSpelling term written`: the characters `written` are one term, and it is `term`. -/
inductive TermSpelling : List Char → List Char → Prop where
  | bare {s : List Char} (hne : s ≠ []) (hplain : ∀ c ∈ s, endsWord c = false ∧ c ≠ '\\')
      (hfirst : ∀ c ∈ s.head?, c.isDigit = false ∧ c ∉ openers) : TermSpelling s s
  | number {s : List Char} (h : IsNumber s) : TermSpelling s s
  | quoted {q : Char} (hq : q = '"' ∨ q = '\'') (s : List Char) :
      TermSpelling s (q :: escape (fun c => c = q || c = '\\') s ++ [q])
  | block {s : List Char} (h : Balanced s) : TermSpelling s ('{' :: s ++ ['}'])

/-- Characters of which none stops and none is a backslash are read as they are. -/
theorem run_self {stop : Char → Bool} {s : List Char}
    (hplain : ∀ c ∈ s, stop c = false ∧ c ≠ '\\') (hrest : ∀ c ∈ rest.head?, stop c = true) :
    Run stop rest s s := by
  have h : Run stop rest (s ++ []) (s ++ []) := .plain_append hplain (.done hrest)
  rwa [List.append_nil] at h

/-- A word begins with what neither ends a word nor opens another token. -/
theorem not_mem_leads {c : Char} (hends : endsWord c = false) (hopens : c ∉ openers) :
    c ∉ leads := by
  simp_all [endsWord, openers, leads, Token.marks]

/-- The written characters spell one leaf in front of a gap, and its text is the term. -/
def SpellsLeaf (term written : List Char) : Prop :=
  ∃ t : Token, t.kind.isLeaf = true ∧ t.text = String.ofList term ∧
    ∀ wide rest, (∀ c ∈ rest.head?, isGap c = true) → Spells wide written rest t

/-- A bare term is a word. -/
theorem spellsLeaf_bare {s : List Char} (hne : s ≠ [])
    (hplain : ∀ c ∈ s, endsWord c = false ∧ c ≠ '\\')
    (hfirst : ∀ c ∈ s.head?, c.isDigit = false ∧ c ∉ openers) : SpellsLeaf s s := by
  refine ⟨⟨.word, String.ofList s⟩, rfl, rfl, fun wide rest hrest => ?_⟩
  have hrun : Run endsWord rest s s :=
    run_self hplain fun c hc => Token.endsWord_of_isGap (hrest c hc)
  obtain ⟨c, cs, rfl⟩ := List.exists_cons_of_ne_nil hne
  obtain ⟨hdigit, hopens⟩ := hfirst c rfl
  have hends := (hplain c List.mem_cons_self).1
  have hsemicolon : c ≠ ';' := by
    rintro rfl
    cases hends
  exact .word hdigit (not_mem_leads hends hopens) hsemicolon hrun

/-- What the short form writes for a leaf spells it, since no leaf is a comparison. -/
theorem spellsLeaf_short {kind : Token.Kind} (hleaf : kind.isLeaf = true)
    (h : ShortSpelling ⟨kind, String.ofList term⟩ written) : SpellsLeaf term written := by
  have hplain : kind.isComparison = false := by
    revert hleaf
    cases kind <;> decide
  refine ⟨_, hleaf, rfl, fun wide rest hrest => h.spells ?_ hrest⟩
  intro hcomparison
  rw [hplain] at hcomparison
  cases hcomparison

/-- In front of a gap, a term spells one leaf. -/
theorem TermSpelling.spellsLeaf (h : TermSpelling term written) : SpellsLeaf term written := by
  cases h with
  | bare hne hplain hfirst => exact spellsLeaf_bare hne hplain hfirst
  | number h => exact spellsLeaf_short rfl (.number h)
  | quoted hq => exact spellsLeaf_short rfl (.quoted hq term)
  | block h => exact spellsLeaf_short rfl (.preserved h)

/-! ### From the text to the filter -/

/-- One span between two gaps is read as its token. -/
theorem lex_span {text : String} (htext : text.toList = before ++ (written ++ after))
    (hbefore : ∀ c ∈ before, isGap c = true) (hafter : ∀ c ∈ after, isGap c = true)
    (h : ∀ wide, Spells wide written after t) : lex text = [t] := by
  have hvalid (wide : Bool) : (Token.Cut.span before written t (.last after)).Valid wide :=
    ⟨hbefore, h wide, hafter⟩
  rw [lex, htext]
  exact (hvalid _).lexFrom_eq

/-- A leaf that is the whole search is looked for in the fallback field. -/
theorem parse_leaf (o : Search.Options) (ht : t.kind.isLeaf = true) :
    Search.parse o [t] = .ok (.fallback o.fallbackField t.text) := by
  have hatom : t.kind.isAtom = true := by rw [Token.Kind.isAtom_eq, ht, Bool.true_or]
  have hlast : Search.lastLeaf? [t] = some t := lastLeaf?_eq_some_iff.mpr ⟨rfl, ht⟩
  have hcondition : Reads o (.condition ⟨[t], 0⟩)
      ⟨.ok (some (.fallback o.fallbackField t.text)), ⟨[], 0⟩⟩ := .fallback hlast
  exact Grammar.parse_eq (.first hatom hcondition .searchEnd)

theorem filter_fallback (field term : String) :
    (Expr.fallback field term).filter =
      "(" ++ Expr.bare field ++ " LIKE " ++ Json.literal term ++ ")" := by
  rw [Expr.filter_eq, Expr.fallback, Expr.text, Expr.text, Expr.text]
  rfl

/-- **A query of one term looks for that term in the fallback field**, however the term is written
and whatever gap is around it. -/
theorem compile_term (o : Search.Options) {term text before after : String}
    (hbefore : ∀ c ∈ before.toList, isGap c = true) (hafter : ∀ c ∈ after.toList, isGap c = true)
    (h : TermSpelling term.toList text.toList) :
    compile o (before ++ text ++ after) =
      .ok ("(" ++ Expr.bare o.fallbackField ++ " LIKE " ++ Json.literal term ++ ")") := by
  obtain ⟨t, hleaf, hterm, hspells⟩ := h.spellsLeaf
  have htext : (before ++ text ++ after).toList =
      before.toList ++ (text.toList ++ after.toList) := by
    rw [String.toList_append, String.toList_append, List.append_assoc]
  have hgap : ∀ c ∈ after.toList.head?, isGap c = true :=
    fun c hc => hafter c (List.mem_of_mem_head? hc)
  have hlex : lex (before ++ text ++ after) = [t] :=
    lex_span htext hbefore hafter fun wide => hspells wide _ hgap
  have hparse := parse_leaf o hleaf
  rw [hterm, String.ofList_toList] at hparse
  rw [compile, parse, hlex, hparse, ← filter_fallback]
  rfl

/-- The quoted term `="it's" \`, whose equals sign is the second character of the query. -/
theorem compile_term_quoted :
    compile { fallbackField := "na;me" } "'=\"it\\'s\" \\\\' \t\n" =
      .ok "(name LIKE \"=\\\"it's\\\" \\\\\")" := by
  have hspelling : TermSpelling "=\"it's\" \\".toList "'=\"it\\'s\" \\\\'".toList :=
    .quoted (.inr rfl) "=\"it's\" \\".toList
  have hgap : ∀ c ∈ [' ', '\t', '\n'], isGap c = true := by simp [isGap]
  have hcompile := @compile_term { fallbackField := "na;me" } _ _ "" " \t\n" (by simp) hgap
    hspelling
  exact hcompile.trans rfl

end SearchFilter.Query
