import SearchFilter.Proofs.Cut

/-!
# Queries of the short form

How to write any tokens down so that they are read back.  Where the second character of a text is no
equals sign, comparisons are one character long, and every token but the wide comparisons can be
spelled: a word with a backslash before each of its characters, quoted text with a backslash before
its quotes and backslashes, and blocks, numbers, marks and short comparisons as they are.

The main result `lex_shortForm`: such spellings, with a gap behind each and two blanks before the
first, are read as exactly the tokens that they spell.  The blanks keep the second character of the
text a blank, whatever is spelled first; the gaps end words and numbers.
-/

namespace SearchFilter.Token

/-! ### Spellings -/

/-- The text with a backslash before each character that is marked. -/
def escape (marked : Char → Bool) (text : List Char) : List Char :=
  text.flatMap fun c => if marked c then ['\\', c] else [c]

/-- How the tokens of the short form are spelled. -/
inductive ShortSpelling : Token → List Char → Prop where
  | word {text : List Char} (h : text ≠ []) :
      ShortSpelling ⟨.word, String.ofList text⟩ (escape (fun _ => true) text)
  | quoted {q : Char} (hq : q = '"' ∨ q = '\'') (text : List Char) :
      ShortSpelling ⟨.quoted, String.ofList text⟩
        (q :: escape (fun c => c = q || c = '\\') text ++ [q])
  | preserved {text : List Char} (h : Balanced text) :
      ShortSpelling ⟨.preserved, String.ofList text⟩ ('{' :: text ++ ['}'])
  | number {text : List Char} (h : IsNumber text) :
      ShortSpelling ⟨.number, String.ofList text⟩ text
  | mark {c : Char} {kind : Kind} (h : (c, kind) ∈ marks) :
      ShortSpelling ⟨kind, c.toString⟩ [c]
  | comparison {c : Char} {t : Token} (h : (c, t) ∈ shortComparisons) : ShortSpelling t [c]

/-- A token that is written down: a spelling of it, and the gap that is left behind. -/
structure Written where
  token : Token
  spelling : List Char
  gap : List Char
  spells : ShortSpelling token spelling
  gap_ne : gap ≠ []
  isGap_of_mem : ∀ c ∈ gap, isGap c = true

/-- The text of a token that is written down. -/
def Written.text (w : Written) : List Char := w.spelling ++ w.gap

/-- Characters that are escaped where they would stop are read as they are. -/
theorem run_escape {stop marked : Char → Bool} {rest : List Char}
    (hrest : ∀ c ∈ rest.head?, stop c = true)
    (hmarked : ∀ c, marked c = false → stop c = false ∧ c ≠ '\\') (text : List Char) :
    Run stop rest (escape marked text) text := by
  induction text with
  | nil => exact .done hrest
  | cons c text ih =>
    rw [escape, List.flatMap_cons]
    cases hc : marked c with
    | true => exact .escaped ih
    | false =>
      obtain ⟨hstop, hb⟩ := hmarked c hc
      exact .plain hstop hb ih

theorem endsWord_of_isGap {c : Char} (h : isGap c = true) : endsWord c = true := by
  simp only [isGap, Bool.or_eq_true, decide_eq_true_eq] at h
  rcases h with (rfl | rfl) | rfl <;> rfl

theorem not_number_of_isGap {c : Char} (h : isGap c = true) : c.isDigit = false ∧ c ≠ '.' := by
  simp only [isGap, Bool.or_eq_true, decide_eq_true_eq] at h
  rcases h with (rfl | rfl) | rfl <;> decide

/-- In front of a gap, a spelling of the short form spells its token.  A comparison does so where
comparisons are not wide. -/
theorem ShortSpelling.spells {wide : Bool} {t : Token} {span rest : List Char}
    (h : ShortSpelling t span) (hwide : t.kind.isComparison = true → wide = false)
    (hrest : ∀ c ∈ rest.head?, isGap c = true) : Spells wide span rest t := by
  cases h with
  | @word text h =>
    have hrun : Run endsWord rest (escape (fun _ => true) text) text :=
      run_escape (fun c hc => endsWord_of_isGap (hrest c hc)) (by simp) text
    obtain ⟨c, text, rfl⟩ := List.exists_cons_of_ne_nil h
    exact .word rfl (by decide) (by decide) hrun
  | quoted hq text => exact .quoted hq (run_escape (by simp) (by simp) text)
  | preserved h => exact .block h
  | number h =>
    refine .number h fun c hc => ?_
    obtain ⟨hdigit, hpoint⟩ := not_number_of_isGap (hrest c hc)
    simp [isNumber_append_singleton h, hdigit, hpoint]
  | mark h => exact .mark h
  | @comparison c t h =>
    have hall : ∀ p ∈ shortComparisons, p.2.kind.isComparison = true := by decide
    exact .short (hwide (hall (c, t) h)) h

/-! ### Whole texts -/

/-- What is written down behind a gap is cut where it was written. -/
def Written.cut (gap : List Char) : List Written → Cut
  | [] => .last gap
  | w :: ws => .span gap w.spelling w.token (cut w.gap ws)

namespace Written

theorem text_cut (ws : List Written) (gap : List Char) :
    (cut gap ws).text = gap ++ ws.flatMap text := by
  induction ws generalizing gap with
  | nil => simp [cut, Cut.text]
  | cons w ws ih => simp [cut, Cut.text, text, ih]

theorem tokens_cut (ws : List Written) (gap : List Char) :
    (cut gap ws).tokens = ws.map token := by
  induction ws generalizing gap with
  | nil => rfl
  | cons w ws ih => rw [cut, Cut.tokens, ih, List.map_cons]

/-- Behind a spelling stands its gap. -/
theorem isGap_head?_cut (w : Written) (ws : List Written) :
    ∀ c ∈ (cut w.gap ws).text.head?, isGap c = true := by
  obtain ⟨d, gap, hgap⟩ := List.exists_cons_of_ne_nil w.gap_ne
  rw [text_cut, hgap]
  rintro c ⟨⟩
  exact w.isGap_of_mem d (by simp [hgap])

theorem valid_cut (ws : List Written) {gap : List Char} (hgap : ∀ c ∈ gap, isGap c = true) :
    (cut gap ws).Valid false := by
  induction ws generalizing gap with
  | nil => exact hgap
  | cons w ws ih =>
    exact ⟨hgap, w.spells.spells (fun _ => rfl) (w.isGap_head?_cut ws), ih w.isGap_of_mem⟩

end Written

/-- **Lexing undoes spelling.**  Tokens that are written down behind two blanks are read back. -/
theorem lex_shortForm (ws : List Written) :
    lex (String.ofList (' ' :: ' ' :: ws.flatMap Written.text)) = ws.map Written.token := by
  have hgap : ∀ c ∈ [' ', ' '], isGap c = true := by simp [isGap]
  have htext : (Written.cut [' ', ' '] ws).text = ' ' :: ' ' :: ws.flatMap Written.text :=
    Written.text_cut ws [' ', ' ']
  have hwide : isWide (Written.cut [' ', ' '] ws).text = false := by
    rw [htext]
    rfl
  have hread := (Written.valid_cut ws hgap).lexFrom_eq
  rw [lex, String.toList_ofList, ← htext, hwide, hread, Written.tokens_cut]

/-- The escaped equals sign belongs to the word, and neither makes a comparison wide. -/
theorem lex_shortForm_equals :
    lex "  = \\a\\= 'it\\'s'\t{x {y}} 1.5 \n" =
      [⟨.eq, "="⟩, ⟨.word, "a="⟩, ⟨.quoted, "it's"⟩, ⟨.preserved, "x {y}"⟩, ⟨.number, "1.5"⟩] :=
  have number : IsNumber (['1'] ++ '.' :: ['5']) :=
    isNumber_fraction (List.cons_ne_nil '1' []) (List.forall_mem_singleton.mpr rfl)
      (List.forall_mem_singleton.mpr rfl)
  lex_shortForm
    [⟨_, _, [' '], .comparison (c := '=') (by decide), by decide, by simp [isGap]⟩,
      ⟨_, _, [' '], .word (List.cons_ne_nil 'a' ['=']), by decide, by simp [isGap]⟩,
      ⟨_, _, ['\t'], .quoted (q := '\'') (by decide) "it's".toList, by decide, by simp [isGap]⟩,
      ⟨_, _, [' '], @ShortSpelling.preserved "x {y}".toList (by decide), by decide,
        by simp [isGap]⟩,
      ⟨_, _, [' ', '\n'], .number number, by decide, by simp [isGap]⟩]

end SearchFilter.Token
