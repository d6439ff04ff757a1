import SearchFilter.Proofs.ShortForm

/-!
# Texts joined by a gap

Two texts with a gap between them are read as the tokens of the first and then those of the second
(`lex_join`), so a gap behind a text adds nothing to it.  Two things could break this.  Whether
comparisons are wide is told by the second character of the whole text, so the texts and their join
must agree there; and a first text whose last token is left open would take the gap and what follows
for more of that token (`LeftOpen`).

The proof follows the cut of the first text.  A token that is not left open is spelled by the same
characters in front of the gap as at the end (`Spells.before_gap`), with one exception: a wide
comparison that ends the text takes the first character of the gap for its second.  What is left of
the gap is then still a gap, and the next token begins behind it.
-/

namespace SearchFilter.Token

/-! ### Tokens that are left open -/

/-- The characters end with a backslash that escapes nothing. -/
inductive Dangles : List Char → Prop where
  | here : Dangles ['\\']
  | plain {c : Char} {cs : List Char} (hc : c ≠ '\\') (h : Dangles cs) : Dangles (c :: cs)
  | escaped {c : Char} {cs : List Char} (h : Dangles cs) : Dangles ('\\' :: c :: cs)

/-- The characters of a token that is left open: quoted text without its closing quote, a block
without its closing brace, or a word that ends with a backslash and nothing behind it. -/
inductive Unclosed : Kind → List Char → Prop where
  | quoted {q : Char} {written text : List Char} (hq : q = '"' ∨ q = '\'')
      (h : Run (· = q) [] written text) : Unclosed .quoted (q :: written)
  | block {inside : List Char} (h : Within 0 inside) : Unclosed .preserved ('{' :: inside)
  | word {span : List Char} (h : Dangles span) : Unclosed .word span

/-- The last token of the cut is left open. -/
def Cut.LeftOpen : Cut → Prop
  | .last _ => False
  | .span _ chars t (.last _) => Unclosed t.kind chars
  | .span _ _ _ more => more.LeftOpen

/-- The last token of the text is left open. -/
def LeftOpen (text : List Char) : Prop :=
  ∃ cut : Cut, cut.Valid (isWide text) ∧ cut.text = text ∧ cut.LeftOpen

/-- A text has one cut, so any cut of it tells whether it is left open. -/
theorem leftOpen_iff {cut : Cut} (h : cut.Valid (isWide cut.text)) :
    LeftOpen cut.text ↔ cut.LeftOpen := by
  constructor
  · rintro ⟨other, hother, htext, hopen⟩
    exact hother.unique h htext ▸ hopen
  · intro hopen
    exact ⟨cut, h, rfl, hopen⟩

/-! ### Spans in front of a gap -/

/-- A run that does not dangle is a run in front of anything that stops it. -/
theorem Run.in_front {stop : Char → Bool} {rest rest' written text : List Char}
    (h : Run stop rest written text) (hrest : ∀ c ∈ rest'.head?, stop c = true)
    (hclosed : rest = [] → ¬ Dangles written) : Run stop rest' written text := by
  induction h with
  | done _ => exact .done hrest
  | plain hc hb _ ih => exact .plain hc hb (ih fun hr hd => hclosed hr (.plain hb hd))
  | escaped _ ih => exact .escaped (ih fun hr hd => hclosed hr (.escaped hd))
  | dangling hr => exact absurd .here (hclosed hr)

section

variable {rest : List Char} {d : Char}

/-- What is put behind a text shows at its front only if the text is empty. -/
theorem forall_head?_append {p : Char → Prop} (hrest : ∀ c ∈ rest.head?, p c) (hd : p d)
    (tail : List Char) : ∀ c ∈ (rest ++ d :: tail).head?, p c := by
  cases rest with
  | nil => rintro c ⟨⟩; exact hd
  | cons e es => rintro c ⟨⟩; exact hrest e rfl

/-- In front of a gap a token that is not left open is spelled as it is at the end of the text.  A
wide comparison takes the first character of the gap for its second. -/
theorem Spells.before_gap {wide : Bool} {span : List Char} {t : Token}
    (h : Spells wide span rest t) (hclosed : rest = [] → ¬ Unclosed t.kind span)
    (hd : isGap d = true) (tail : List Char) :
    Spells wide span (rest ++ d :: tail) t ∨ rest = [] ∧ Spells wide (span ++ [d]) tail t := by
  cases h with
  | mark h => exact .inl (.mark h)
  | short hwide h => exact .inl (.short hwide h)
  | wide hwide h => exact .inl (.wide hwide h)
  | wideAtEnd hwide h => exact .inr ⟨rfl, .wide hwide h⟩
  | quoted hq h => exact .inl (.quoted hq (h.in_front (by simp) nofun))
  | openQuote hq h => exact absurd (.quoted hq h) (hclosed rfl)
  | block h => exact .inl (.block h)
  | openBlock h => exact absurd (.block h) (hclosed rfl)
  | number h hend =>
    refine .inl (.number h (forall_head?_append hend ?_ tail))
    obtain ⟨hdigit, hpoint⟩ := not_number_of_isGap hd
    rw [isNumber_append_singleton h, hdigit]
    rintro (hc | ⟨hc, -⟩)
    · cases hc
    · exact hpoint hc
  | word hdigit hlead hc h =>
    have hstop := forall_head?_append h.stops (endsWord_of_isGap hd) tail
    exact .inl (.word hdigit hlead hc
      (h.in_front hstop fun hr hdangles => hclosed hr (.word hdangles)))
  | semicolon h =>
    have hstop := forall_head?_append h.stops (endsWord_of_isGap hd) tail
    exact .inl (.semicolon (h.in_front hstop fun hr hdangles =>
      hclosed hr (.word (.plain (by decide) hdangles))))

end

/-! ### Whole texts -/

/-- A gap in front of a text is passed over. -/
theorem lexFrom_gap_append {wide : Bool} {gap : List Char} (hgap : ∀ c ∈ gap, isGap c = true)
    (text : List Char) : lexFrom wide (gap ++ text) = lexFrom wide text := by
  have hfirst : Lexeme.first? wide (gap ++ text) = Lexeme.first? wide text := by
    rw [Lexeme.first?, Lexeme.first?, List.dropWhile_append_of_pos hgap]
  cases h : Lexeme.first? wide text with
  | none => rw [lexFrom_of_none h, lexFrom_of_none (hfirst.trans h)]
  | some l => rw [lexFrom_of_some h, lexFrom_of_some (hfirst.trans h)]

/-- A cut without a character has no token. -/
theorem Cut.Valid.tokens_of_text_nil {wide : Bool} {cut : Cut} (h : cut.Valid wide)
    (htext : cut.text = []) : cut.tokens = [] := by
  cases cut with
  | last gap => rfl
  | span gap chars t more =>
    have hchars : chars = [] := by simp_all [text]
    exact absurd hchars h.2.1.ne_nil

theorem Cut.not_leftOpen_more {gap chars : List Char} {t : Token} {more : Cut}
    (h : ¬ (Cut.span gap chars t more).LeftOpen) : ¬ more.LeftOpen := by
  cases more with
  | last _ => exact id
  | span _ _ _ _ => exact h

/-- A token with nothing behind it is the last one, and closed if the cut is. -/
theorem Cut.not_unclosed_of_text_nil {wide : Bool} {gap chars : List Char} {t : Token} {more : Cut}
    (h : ¬ (Cut.span gap chars t more).LeftOpen) (hmore : more.Valid wide)
    (htext : more.text = []) : ¬ Unclosed t.kind chars := by
  cases more with
  | last _ => exact h
  | span _ _ _ _ => cases hmore.tokens_of_text_nil htext

/-- A text that is cut and not left open, a gap and another text are read as the tokens of the one
and then those of the other. -/
theorem Cut.Valid.lexFrom_append {wide : Bool} {cut : Cut} (h : cut.Valid wide)
    (hclosed : ¬ cut.LeftOpen) {d : Char} {gap : List Char} (hgap : ∀ c ∈ d :: gap, isGap c = true)
    (text : List Char) :
    lexFrom wide (cut.text ++ (d :: gap ++ text)) = cut.tokens ++ lexFrom wide text := by
  induction cut with
  | last first =>
    rw [Cut.text, lexFrom_gap_append h, lexFrom_gap_append hgap]
    rfl
  | span first chars t more ih =>
    obtain ⟨hfirst, hspells, hmore⟩ := h
    have hend := Cut.not_unclosed_of_text_nil hclosed hmore
    rcases hspells.before_gap hend (hgap d List.mem_cons_self) (gap ++ text) with
      hspells' | ⟨hnil, hspells'⟩
    · obtain ⟨overrun, hread⟩ := hspells'.first?_eq hfirst
      have hrest := ih hmore (Cut.not_leftOpen_more hclosed)
      rw [List.cons_append] at hrest ⊢
      rw [Cut.text, List.append_assoc, List.append_assoc, lexFrom_of_some hread, Cut.tokens, hrest,
        List.cons_append]
    · -- The comparison takes a character of the gap, and the rest of the gap is passed over.
      obtain ⟨overrun, hread⟩ := hspells'.first?_eq hfirst
      have hgap' : ∀ c ∈ gap, isGap c = true := fun c hc => hgap c (List.mem_cons_of_mem d hc)
      have htext : Cut.text (.span first chars t more) ++ (d :: gap ++ text) =
          first ++ (chars ++ [d] ++ (gap ++ text)) := by
        simp [Cut.text, hnil]
      rw [htext, lexFrom_of_some hread, Cut.tokens, hmore.tokens_of_text_nil hnil,
        lexFrom_gap_append hgap']
      rfl

/-- A gap behind a text does not become its second character. -/
theorem isWide_append_gap {gap : List Char} (hgap : ∀ c ∈ gap, isGap c = true)
    (text : List Char) : isWide (text ++ gap) = isWide text := by
  have hne : ∀ i, gap[i]? ≠ some '=' := fun i h => nomatch hgap '=' (List.mem_of_getElem? h)
  rw [isWide_eq, isWide_eq, List.getElem?_append]
  split
  · rfl
  · next hlen => simp [hne, List.getElem?_eq_none (Nat.le_of_not_lt hlen)]

/-- **Lexing takes texts joined by a gap apart.**  Where the texts and their join agree on whether
their second character is an equals sign, and the first text is not left open, its tokens are read
and then those of the second.  A gap behind a text that is not left open changes no token. -/
theorem lex_join {x w : String} (hclosed : ¬ LeftOpen x.toList) (hw : w ≠ "")
    (hgap : ∀ c ∈ w.toList, isGap c = true) :
    (∀ y : String,
      (x.toList[1]? = some '=' ↔ (x ++ w ++ y).toList[1]? = some '=') →
      (y.toList[1]? = some '=' ↔ (x ++ w ++ y).toList[1]? = some '=') →
      lex (x ++ w ++ y) = lex x ++ lex y) ∧
    lex (x ++ w) = lex x := by
  obtain ⟨cut, hvalid, htext⟩ := exists_cut (isWide x.toList) x.toList
  have hclosed' : ¬ cut.LeftOpen := fun h => hclosed ⟨cut, hvalid, htext, h⟩
  obtain ⟨d, gap, hdw⟩ := List.exists_cons_of_ne_nil (mt String.toList_eq_nil_iff.mp hw)
  rw [hdw] at hgap
  have hx : cut.tokens = lex x := by rw [lex, ← hvalid.lexFrom_eq, htext]
  have hjoin (text : List Char) :
      lexFrom (isWide x.toList) (x.toList ++ (d :: gap ++ text)) =
        lex x ++ lexFrom (isWide x.toList) text := by
    rw [← hx, ← hvalid.lexFrom_append hclosed' hgap, htext]
  refine ⟨fun y hxwide hywide => ?_, ?_⟩
  · have hwide : isWide (x ++ w ++ y).toList = isWide x.toList := by simp [isWide_eq, hxwide]
    have hwide' : isWide y.toList = isWide x.toList := by simp [isWide_eq, hxwide, hywide]
    rw [lex, hwide, String.toList_append, String.toList_append, hdw, List.append_assoc, hjoin,
      lex, lex, hwide']
  · have hnil : lexFrom (isWide x.toList) [] = [] := lexFrom_of_none rfl
    have hend := hjoin []
    rw [hnil, List.append_nil, List.append_nil] at hend
    rw [lex, String.toList_append, hdw, isWide_append_gap hgap, hend]

/-- The cut of `b=c >`, which ends with a wide comparison. -/
def wideEnd : Cut :=
  .span [] ['b'] ⟨.word, "b"⟩
    (.span [] ['=', 'c'] ⟨.eq, "=="⟩ (.span [' '] ['>'] ⟨.ge, ">="⟩ (.last [])))

theorem valid_wideEnd : wideEnd.Valid true := by
  have word : Spells true ['b'] ['=', 'c', ' ', '>'] ⟨.word, "b"⟩ :=
    .word rfl (by decide) (by decide) (.plain rfl (by decide) (.done (by simp [endsWord])))
  exact ⟨by simp, word, by simp, .wide rfl (by decide), by simp [isGap],
    .wideAtEnd rfl (by decide), by simp [Cut.Valid]⟩

/-- The comparison at the end of `b=c >` takes the blank behind it, and `d=1` is read as before. -/
theorem lex_join_wideEnd :
    ¬ LeftOpen "b=c >".toList ∧ (∀ c ∈ " \n".toList, isGap c = true) ∧
      lex ("b=c >" ++ " \n" ++ "d=1") = lex "b=c >" ++ lex "d=1" ∧
      lex ("b=c >" ++ " \n") = lex "b=c >" := by
  have hclosed : ¬ LeftOpen "b=c >".toList := by
    have htext : "b=c >".toList = wideEnd.text := rfl
    rw [htext, @leftOpen_iff wideEnd valid_wideEnd]
    exact nofun
  have hgap : ∀ c ∈ " \n".toList, isGap c = true := List.all_eq_true.mp (by decide)
  obtain ⟨hjoin, hend⟩ := lex_join hclosed (w := " \n") (by decide) hgap
  exact ⟨hclosed, hgap, hjoin "d=1" (by decide) (by decide), hend⟩

end SearchFilter.Token
