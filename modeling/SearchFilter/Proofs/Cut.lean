import SearchFilter.Proofs.Spelling
import SearchFilter.Token.Scanner

/-!
# The one way to cut a text into tokens

A `Cut` lays a text out as gaps and spans: a gap, the characters of a token, and so on to the gap
at the end.  It is valid when its gaps are gaps and each span spells its token in front of what
follows (`Cut.Valid`).

`lex_cut`: every text has exactly one valid cut, no span of it is empty, and the lexer returns the
tokens of its spans in order.

The lexer reads the first span of a valid cut and leaves the rest of the cut (`Spells.first?_eq`),
so a cut is read as its tokens, and two valid cuts of one text agree span by span.  Conversely what
the lexer takes from the front of a text is a gap and a span (`exists_of_first?`).
-/

namespace SearchFilter.Token

/-! ### Cuts -/

/-- A text in pieces: a gap and the span of a token, as often as there are tokens, and the gap that
is left at the end. -/
inductive Cut where
  | last (gap : List Char)
  | span (gap chars : List Char) (t : Token) (more : Cut)

namespace Cut

/-- The text that is cut. -/
def text : Cut → List Char
  | .last gap => gap
  | .span gap chars _ more => gap ++ (chars ++ more.text)

/-- The characters of the tokens. -/
def spans : Cut → List (List Char)
  | .last _ => []
  | .span _ chars _ more => chars :: more.spans

/-- The tokens, one for each span. -/
def tokens : Cut → List Token
  | .last _ => []
  | .span _ _ t more => t :: more.tokens

/-- The gaps are gaps, and each span spells its token in front of what follows it. -/
def Valid (wide : Bool) : Cut → Prop
  | .last gap => ∀ c ∈ gap, isGap c = true
  | .span gap chars t more =>
      (∀ c ∈ gap, isGap c = true) ∧ Spells wide chars more.text t ∧ more.Valid wide

end Cut

/-! ### The first span -/

theorem Spells.ne_nil {wide : Bool} {span rest : List Char} {t : Token}
    (h : Spells wide span rest t) : span ≠ [] := by
  obtain ⟨c, written, rfl, -⟩ := h.ofHead_eq
  exact List.cons_ne_nil c written

/-- The gap in front of a span is all the gap there is. -/
theorem Spells.gap_eq {wide : Bool} {gap span rest : List Char} {t : Token}
    (h : Spells wide span rest t) (hgap : ∀ c ∈ gap, isGap c = true) :
    (gap ++ (span ++ rest)).takeWhile isGap = gap ∧
      (gap ++ (span ++ rest)).dropWhile isGap = span ++ rest := by
  obtain ⟨c, written, rfl, hc, -⟩ := h.ofHead_eq
  exact takeWhile_run hgap (by rintro d ⟨⟩; exact hc)

/-- A span behind a gap is read as its token, and what follows it is left. -/
theorem Spells.first?_eq {wide : Bool} {gap span rest : List Char} {t : Token}
    (h : Spells wide span rest t) (hgap : ∀ c ∈ gap, isGap c = true) :
    ∃ overrun, Lexeme.first? wide (gap ++ (span ++ rest)) = some ⟨t, rest, overrun⟩ := by
  have hdrop := (h.gap_eq hgap).2
  obtain ⟨c, written, rfl, -, overrun, hread⟩ := h.ofHead_eq
  refine ⟨overrun, ?_⟩
  rw [Lexeme.first?, hdrop, ← hread]
  rfl

theorem first?_gap (wide : Bool) {gap : List Char} (hgap : ∀ c ∈ gap, isGap c = true) :
    Lexeme.first? wide gap = none := by
  rw [Lexeme.first?, List.dropWhile_eq_nil_iff.mpr hgap]

theorem isGap_of_first?_none {wide : Bool} {text : List Char}
    (h : Lexeme.first? wide text = none) : ∀ c ∈ text, isGap c = true := by
  unfold Lexeme.first? at h
  split at h
  · next hdrop => exact List.dropWhile_eq_nil_iff.mp hdrop
  · cases h

/-- What is read from the front of a text is a gap and a span that spells the token. -/
theorem exists_of_first? {wide : Bool} {text : List Char} {l : Lexeme}
    (h : Lexeme.first? wide text = some l) :
    ∃ gap span, text = gap ++ (span ++ l.rest) ∧ (∀ c ∈ gap, isGap c = true) ∧
      Spells wide span l.rest l.token := by
  have hsplit := List.takeWhile_append_dropWhile (p := isGap) (l := text)
  have hstop := List.head?_dropWhile_not isGap text
  unfold Lexeme.first? at h
  generalize text.dropWhile isGap = tail at hsplit hstop h
  cases tail with
  | nil => cases h
  | cons c cs =>
    cases h
    obtain ⟨span, hspan, hspells⟩ := heads_ofHead wide hstop cs
    refine ⟨text.takeWhile isGap, span, ?_, fun d hd => List.mem_takeWhile_imp hd, hspells⟩
    rw [← hspan, hsplit]

/-! ### Whole texts -/

namespace Cut

variable {wide : Bool}

/-- A text that is cut is read as the tokens of the cut. -/
theorem Valid.lexFrom_eq : ∀ {cut : Cut}, cut.Valid wide → lexFrom wide cut.text = cut.tokens
  | .last _, hgap => lexFrom_of_none (first?_gap wide hgap)
  | .span gap chars t more, ⟨hgap, hspells, hmore⟩ => by
    obtain ⟨overrun, hread⟩ := hspells.first?_eq hgap
    rw [text, lexFrom_of_some hread, tokens, hmore.lexFrom_eq]

theorem Valid.ne_nil_of_mem : ∀ {cut : Cut}, cut.Valid wide → ∀ chars ∈ cut.spans, chars ≠ []
  | .last _, _, _, h => by cases h
  | .span _ _ _ _, ⟨_, hspells, _⟩, _, .head _ => hspells.ne_nil
  | .span _ _ _ _, ⟨_, _, hmore⟩, chars, .tail _ h => hmore.ne_nil_of_mem chars h

/-- Two cuts of one text are the same. -/
theorem Valid.unique : ∀ {cut other : Cut}, cut.Valid wide → other.Valid wide →
    cut.text = other.text → cut = other
  | .last _, .last _, _, _, htext => congrArg last htext
  | .last gap, .span .., hgap, ⟨hgap', hspells, _⟩, htext => by
    obtain ⟨overrun, hread⟩ := hspells.first?_eq hgap'
    have hnone := first?_gap wide hgap
    have htext' : gap = _ := htext
    rw [htext', text, hread] at hnone
    cases hnone
  | .span .., .last gap, ⟨hgap', hspells, _⟩, hgap, htext => by
    obtain ⟨overrun, hread⟩ := hspells.first?_eq hgap'
    have hnone := first?_gap wide hgap
    have htext' : _ = gap := htext
    rw [← htext', text, hread] at hnone
    cases hnone
  | .span gap chars t more, .span gap' chars' t' more', ⟨hgap, hspells, hmore⟩,
      ⟨hgap', hspells', hmore'⟩, htext => by
    rw [text, text] at htext
    obtain ⟨overrun, hread⟩ := hspells.first?_eq hgap
    obtain ⟨overrun', hread'⟩ := hspells'.first?_eq hgap'
    -- One text has one first lexeme, so the tokens and what follows them agree.
    rw [htext, hread'] at hread
    simp only [Option.some.injEq, Lexeme.mk.injEq] at hread
    obtain ⟨rfl, hrest, -⟩ := hread
    obtain rfl := hmore.unique hmore' hrest.symm
    have hgaps : gap = gap' := by
      rw [← (hspells.gap_eq hgap).1, htext, (hspells'.gap_eq hgap').1]
    subst hgaps
    rw [List.append_cancel_right (List.append_cancel_left htext)]

end Cut

/-- What the lexer reads is a cut. -/
theorem exists_cut (wide : Bool) (text : List Char) :
    ∃ cut : Cut, cut.Valid wide ∧ cut.text = text := by
  cases h : Lexeme.first? wide text with
  | none => exact ⟨.last text, isGap_of_first?_none h, rfl⟩
  | some l =>
    have := Lexeme.length_rest_lt h
    obtain ⟨gap, span, htext, hgap, hspells⟩ := exists_of_first? h
    obtain ⟨more, hmore, hrest⟩ := exists_cut wide l.rest
    refine ⟨.span gap span l.token more, ⟨hgap, ?_, hmore⟩, ?_⟩
    · rwa [hrest]
    · rw [htext, Cut.text, hrest]
termination_by text.length

/-- Each token of a valid cut is spelled in the text. -/
theorem Cut.Valid.exists_spells {wide : Bool} {t : Token} : ∀ {cut : Cut}, cut.Valid wide →
    t ∈ cut.tokens → ∃ span rest, Spells wide span rest t
  | .last _, _, ht => by cases ht
  | .span _ chars u more, ⟨_, hspells, hmore⟩, ht => by
    rcases List.mem_cons.mp ht with rfl | ht
    · exact ⟨chars, more.text, hspells⟩
    · exact hmore.exists_spells ht

/-- Each token of a text is spelled in it. -/
theorem exists_spells_of_mem_lex {text : String} {t : Token} (ht : t ∈ lex text) :
    ∃ span rest, Spells (isWide text.toList) span rest t := by
  obtain ⟨cut, hvalid, htext⟩ := exists_cut (isWide text.toList) text.toList
  have hlex : lex text = cut.tokens := by rw [lex, ← hvalid.lexFrom_eq, htext]
  exact hvalid.exists_spells (hlex ▸ ht)

theorem isWide_eq (text : List Char) : isWide text = decide (text[1]? = some '=') := by
  unfold isWide
  split
  · rfl
  · next h =>
    refine (decide_eq_false fun hsecond => ?_).symm
    obtain ⟨c, d, cs, rfl⟩ : ∃ c d cs, text = c :: d :: cs := by
      match text, hsecond with
      | c :: d :: cs, _ => exact ⟨c, d, cs, rfl⟩
    obtain rfl : d = '=' := Option.some.inj hsecond
    exact h c cs rfl

/-- **A text is cut in exactly one way, and the lexer returns the tokens of the cut.**  Whether its
comparisons are wide is told by the second character of the whole text. -/
theorem lex_cut (text : String) :
    ∃ cut : Cut, cut.Valid (decide (text.toList[1]? = some '=')) ∧ cut.text = text.toList ∧
      (∀ chars ∈ cut.spans, chars ≠ []) ∧ lex text = cut.tokens ∧
      ∀ other : Cut, other.Valid (decide (text.toList[1]? = some '=')) →
        other.text = text.toList → other = cut := by
  obtain ⟨cut, hvalid, htext⟩ := exists_cut (isWide text.toList) text.toList
  have hlex : lex text = cut.tokens := by rw [lex, ← hvalid.lexFrom_eq, htext]
  rw [← isWide_eq]
  exact ⟨cut, hvalid, htext, hvalid.ne_nil_of_mem, hlex,
    fun other hother hsame => hother.unique hvalid (hsame.trans htext.symm)⟩

end SearchFilter.Token
