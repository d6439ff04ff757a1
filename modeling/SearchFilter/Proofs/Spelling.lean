import SearchFilter.Proofs.Runs

/-!
# How tokens are spelled

The spellings of tokens, said without the lexer: `Spells wide span rest t` holds when the
characters `span`, in front of the characters `rest`, spell the token `t`.  What stands behind a
token is part of the rule, since words, numbers and quoted text reach as far as they can.

The lexer follows these rules.  A spelling is read as its token, and what stands behind it is left
(`Spells.ofHead_eq`); whatever is read is spelled by the characters that it takes
(`heads_ofHead`).
-/

namespace SearchFilter.Token

/-! ### Characters -/

/-- The marks: one character that is a token by itself. -/
def marks : List (Char × Kind) :=
  [('~', .similar), ('*', .mul), ('/', .div), ('-', .sub), ('+', .plus), (':', .colon),
    ('(', .lparen), (')', .rparen), ('|', .or), ('^', .member), ('&', .and), ('!', .not)]

/-- The comparisons where they are not wide. -/
def shortComparisons : List (Char × Token) :=
  [('=', ⟨.eq, "="⟩), ('>', ⟨.gt, ">"⟩), ('<', ⟨.lt, "<"⟩)]

/-- The comparisons where they are wide. -/
def wideComparisons : List (Char × Token) :=
  [('=', ⟨.eq, "=="⟩), ('>', ⟨.ge, ">="⟩), ('<', ⟨.le, "<="⟩)]

/-- The characters that no word begins with, beside digits. -/
def leads : List Char :=
  [' ', '\t', '\n', '=', '>', '<', '"', '\'', '{'] ++ marks.map Prod.fst

/-- What a character of each shape is. -/
def Shape.Fits (c : Char) : Shape → Prop
  | .mark kind => (c, kind) ∈ marks
  | .comparison => c = '=' ∨ c = '>' ∨ c = '<'
  | .quoted => c = '"' ∨ c = '\''
  | .block => c = '{'
  | .number => c.isDigit = true
  | .word => c.isDigit = false ∧ c ∉ leads

theorem Shape.fits_ofChar {c : Char} (hgap : isGap c = false) : (Shape.ofChar c).Fits c := by
  unfold Shape.ofChar
  split
  case h_19 =>
    split
    · assumption
    · next hdigit =>
      refine ⟨by simpa using hdigit, ?_⟩
      simp_all [leads, marks, isGap]
  all_goals simp [Fits, marks]

theorem Shape.ofChar_of_fits {c : Char} {shape : Shape} (h : shape.Fits c) :
    Shape.ofChar c = shape := by
  cases shape with
  | mark kind =>
    have hall : ∀ p ∈ marks, Shape.ofChar p.1 = .mark p.2 := by decide
    exact hall (c, kind) h
  | comparison => rcases h with rfl | rfl | rfl <;> rfl
  | quoted => rcases h with rfl | rfl <;> rfl
  | block => cases h; rfl
  | number =>
    have hdigit : c.isDigit = true := h
    unfold Shape.ofChar
    split
    case h_19 => exact if_pos hdigit
    all_goals cases hdigit
  | word =>
    obtain ⟨hdigit, hlead⟩ := h
    unfold Shape.ofChar
    split
    case h_19 => exact if_neg (by simp [hdigit])
    all_goals exact absurd (by decide) hlead

/-- No token begins with a gap. -/
theorem Shape.Fits.isGap_eq {c : Char} {shape : Shape} (h : shape.Fits c) : isGap c = false := by
  by_contra hgap
  have hc : (c = ' ' ∨ c = '\t') ∨ c = '\n' := by
    simpa only [isGap, Bool.or_eq_true, decide_eq_true_eq, Bool.not_eq_false] using hgap
  have hword : Shape.ofChar c = .word := by rcases hc with (rfl | rfl) | rfl <;> rfl
  -- Read as a word, the gap would have to be a character that words may begin with.
  rw [← Shape.ofChar_of_fits h, hword] at h
  exact h.2 (by rcases hc with (rfl | rfl) | rfl <;> decide)

/-! ### Tokens -/

/-- The characters `span`, in front of the characters `rest`, spell the token. -/
inductive Spells (wide : Bool) : List Char → List Char → Token → Prop where
  | mark {c : Char} {kind : Kind} {rest : List Char} (h : (c, kind) ∈ marks) :
      Spells wide [c] rest ⟨kind, c.toString⟩
  | short {c : Char} {t : Token} {rest : List Char} (hwide : wide = false)
      (h : (c, t) ∈ shortComparisons) : Spells wide [c] rest t
  | wide {c d : Char} {t : Token} {rest : List Char} (hwide : wide = true)
      (h : (c, t) ∈ wideComparisons) : Spells wide [c, d] rest t
  | wideAtEnd {c : Char} {t : Token} (hwide : wide = true) (h : (c, t) ∈ wideComparisons) :
      Spells wide [c] [] t
  | quoted {q : Char} {rest written text : List Char} (hq : q = '"' ∨ q = '\'')
      (h : Run (· = q) (q :: rest) written text) :
      Spells wide (q :: written ++ [q]) rest ⟨.quoted, String.ofList text⟩
  | openQuote {q : Char} {written text : List Char} (hq : q = '"' ∨ q = '\'')
      (h : Run (· = q) [] written text) :
      Spells wide (q :: written) [] ⟨.quoted, String.ofList text⟩
  | block {inside rest : List Char} (h : Balanced inside) :
      Spells wide ('{' :: inside ++ ['}']) rest ⟨.preserved, String.ofList inside⟩
  | openBlock {inside : List Char} (h : Within 0 inside) :
      Spells wide ('{' :: inside) [] ⟨.preserved, String.ofList inside⟩
  | number {span rest : List Char} (h : IsNumber span)
      (hend : ∀ c ∈ rest.head?, ¬ IsNumber (span ++ [c])) :
      Spells wide span rest ⟨.number, String.ofList span⟩
  | word {c : Char} {rest written text : List Char} (hdigit : c.isDigit = false)
      (hlead : c ∉ leads) (hc : c ≠ ';') (h : Run endsWord rest (c :: written) text) :
      Spells wide (c :: written) rest ⟨.word, String.ofList text⟩
  | semicolon {rest written text : List Char} (h : Run endsWord rest written text) :
      Spells wide (';' :: written) rest ⟨.word, String.ofList (';' :: text)⟩

theorem fits_of_mem_short {c : Char} {t : Token} (h : (c, t) ∈ shortComparisons) :
    Shape.comparison.Fits c ∧ shortComparison c = t := by
  simp only [shortComparisons, List.mem_cons, Prod.mk.injEq, List.not_mem_nil, or_false] at h
  rcases h with ⟨rfl, rfl⟩ | ⟨rfl, rfl⟩ | ⟨rfl, rfl⟩ <;> exact ⟨by simp [Shape.Fits], rfl⟩

theorem fits_of_mem_wide {c : Char} {t : Token} (h : (c, t) ∈ wideComparisons) :
    Shape.comparison.Fits c ∧ wideComparison c = t := by
  simp only [wideComparisons, List.mem_cons, Prod.mk.injEq, List.not_mem_nil, or_false] at h
  rcases h with ⟨rfl, rfl⟩ | ⟨rfl, rfl⟩ | ⟨rfl, rfl⟩ <;> exact ⟨by simp [Shape.Fits], rfl⟩

theorem mem_short_of_fits {c : Char} (h : Shape.comparison.Fits c) :
    (c, shortComparison c) ∈ shortComparisons := by
  rcases h with rfl | rfl | rfl <;> decide

theorem mem_wide_of_fits {c : Char} (h : Shape.comparison.Fits c) :
    (c, wideComparison c) ∈ wideComparisons := by
  rcases h with rfl | rfl | rfl <;> decide

theorem endsWord_lead {c : Char} (hlead : c ∉ leads) (hc : c ≠ ';') : endsWord c = false := by
  simp_all [endsWord, leads, marks]

theorem stop_backslash {q : Char} (hq : q = '"' ∨ q = '\'') :
    decide ('\\' = q) = false := by
  rcases hq with rfl | rfl <;> rfl

/-- A spelling is read as its token, and what stands behind it is left. -/
theorem Spells.ofHead_eq {wide : Bool} {span rest : List Char} {t : Token}
    (h : Spells wide span rest t) :
    ∃ c written, span = c :: written ∧ isGap c = false ∧
      ∃ overrun, Lexeme.ofHead wide c (written ++ rest) = ⟨t, rest, overrun⟩ := by
  cases h with
  | @mark c kind _ h =>
    have hfit : (Shape.mark kind).Fits c := h
    refine ⟨c, [], rfl, hfit.isGap_eq, false, ?_⟩
    rw [Lexeme.ofHead, Shape.ofChar_of_fits hfit]
    rfl
  | @short c _ _ hwide h =>
    obtain ⟨hfit, rfl⟩ := fits_of_mem_short h
    refine ⟨c, [], rfl, hfit.isGap_eq, false, ?_⟩
    rw [Lexeme.ofHead, Shape.ofChar_of_fits hfit, hwide]
    rfl
  | @wide c d _ _ hwide h =>
    obtain ⟨hfit, rfl⟩ := fits_of_mem_wide h
    refine ⟨c, [d], rfl, hfit.isGap_eq, false, ?_⟩
    rw [Lexeme.ofHead, Shape.ofChar_of_fits hfit, hwide]
    rfl
  | @wideAtEnd c _ hwide h =>
    obtain ⟨hfit, rfl⟩ := fits_of_mem_wide h
    refine ⟨c, [], rfl, hfit.isGap_eq, true, ?_⟩
    rw [Lexeme.ofHead, Shape.ofChar_of_fits hfit, hwide]
    rfl
  | @quoted q _ written text hq h =>
    have hfit : Shape.quoted.Fits q := hq
    have hread := h.takeUntil_eq (stop_backslash hq)
    refine ⟨q, written ++ [q], rfl, hfit.isGap_eq, false, ?_⟩
    rw [Lexeme.ofHead, Shape.ofChar_of_fits hfit, List.append_assoc, List.singleton_append]
    simp only [hread]
    rfl
  | @openQuote q written text hq h =>
    have hfit : Shape.quoted.Fits q := hq
    have hread := h.takeUntil_eq (stop_backslash hq)
    refine ⟨q, written, rfl, hfit.isGap_eq, true, ?_⟩
    rw [Lexeme.ofHead, Shape.ofChar_of_fits hfit]
    simp only [hread]
    rfl
  | @block inside _ h =>
    have hfit : Shape.block.Fits '{' := rfl
    refine ⟨'{', inside ++ ['}'], rfl, hfit.isGap_eq, false, ?_⟩
    rw [Lexeme.ofHead, Shape.ofChar_of_fits hfit, List.append_assoc, List.singleton_append]
    simp only [takeBlock_balanced h]
  | @openBlock inside h =>
    have hfit : Shape.block.Fits '{' := rfl
    refine ⟨'{', inside, rfl, hfit.isGap_eq, false, ?_⟩
    rw [Lexeme.ofHead, Shape.ofChar_of_fits hfit, List.append_nil]
    simp only [takeBlock_within h]
  | number h hend =>
    obtain ⟨c, hhead, hdigit⟩ := h.1
    obtain ⟨written, rfl⟩ := List.head?_eq_some_iff.mp hhead
    have hfit : Shape.number.Fits c := hdigit
    refine ⟨c, written, rfl, hfit.isGap_eq, false, ?_⟩
    have hread := takeNumber_isNumber h hend
    rw [Lexeme.ofHead, Shape.ofChar_of_fits hfit, ← List.cons_append]
    simp only [hread]
  | @word c _ written text hdigit hlead hc h =>
    have hfit : Shape.word.Fits c := ⟨hdigit, hlead⟩
    have hread := h.takeUntil_eq rfl
    refine ⟨c, written, rfl, hfit.isGap_eq, false, ?_⟩
    rw [Lexeme.ofHead, Shape.ofChar_of_fits hfit, takeWord, endsWord_lead hlead hc,
      ← List.cons_append]
    simp only [Bool.false_eq_true, if_false, hread]
  | @semicolon _ written text h =>
    have hfit : Shape.word.Fits ';' := ⟨by decide, by decide⟩
    have hread := h.takeUntil_eq rfl
    refine ⟨';', written, rfl, hfit.isGap_eq, false, ?_⟩
    have hends : endsWord ';' = true := rfl
    rw [Lexeme.ofHead, Shape.ofChar_of_fits hfit, takeWord, hends]
    simp only [if_true, hread]

/-- The lexeme is spelled at the front of the text, and the text goes on with what it leaves. -/
def Lexeme.Heads (wide : Bool) (text : List Char) (l : Lexeme) : Prop :=
  ∃ span, text = span ++ l.rest ∧ Spells wide span l.rest l.token

theorem heads_comparison (wide : Bool) {c : Char} (h : Shape.comparison.Fits c) (cs : List Char) :
    (Lexeme.ofHead wide c cs).Heads wide (c :: cs) := by
  rw [Lexeme.ofHead, Shape.ofChar_of_fits h]
  cases wide with
  | false => exact ⟨[c], rfl, .short rfl (mem_short_of_fits h)⟩
  | true =>
    cases cs with
    | nil => exact ⟨[c], rfl, .wideAtEnd rfl (mem_wide_of_fits h)⟩
    | cons d ds => exact ⟨[c, d], rfl, .wide rfl (mem_wide_of_fits h)⟩

theorem heads_quoted (wide : Bool) {c : Char} (h : Shape.quoted.Fits c) (cs : List Char) :
    (Lexeme.ofHead wide c cs).Heads wide (c :: cs) := by
  obtain ⟨written, hcs, hrun⟩ := run_takeUntil (· = c) cs
  rw [Lexeme.ofHead, Shape.ofChar_of_fits h]
  generalize takeUntil (· = c) cs = run at hcs hrun ⊢
  obtain ⟨text, rest⟩ := run
  -- What is left begins with the quote that ended the text, or the quote is missing.
  cases rest with
  | nil => exact ⟨c :: written, by rw [hcs]; rfl, .openQuote h hrun⟩
  | cons q rest =>
    obtain rfl : q = c := by simpa using hrun.stops q rfl
    exact ⟨q :: written ++ [q], by rw [hcs]; simp, .quoted h hrun⟩

theorem heads_block (wide : Bool) {c : Char} (h : Shape.block.Fits c) (cs : List Char) :
    (Lexeme.ofHead wide c cs).Heads wide (c :: cs) := by
  have hread := blockRead_takeBlock 0 cs
  rw [Lexeme.ofHead, Shape.ofChar_of_fits h]
  obtain rfl : c = '{' := h
  generalize takeBlock 0 cs = run at hread ⊢
  obtain ⟨inside, rest⟩ := run
  rcases hread with ⟨⟨hwithin, hcount⟩, rfl⟩ | ⟨⟨k, hwithin, -⟩, rfl, rfl⟩
  · exact ⟨'{' :: inside ++ ['}'], by simp, .block ⟨hwithin, by simpa using hcount⟩⟩
  · exact ⟨'{' :: cs, by simp, .openBlock hwithin⟩

theorem heads_word (wide : Bool) {c : Char} (h : Shape.word.Fits c) (cs : List Char) :
    (Lexeme.ofHead wide c cs).Heads wide (c :: cs) := by
  rw [Lexeme.ofHead, Shape.ofChar_of_fits h]
  obtain ⟨hdigit, hlead⟩ := h
  by_cases hc : c = ';'
  · subst hc
    obtain ⟨written, hcs, hrun⟩ := run_takeUntil endsWord cs
    exact ⟨';' :: written, congrArg (';' :: ·) hcs, .semicolon hrun⟩
  · have hends := endsWord_lead hlead hc
    simp only [takeWord, hends, Bool.false_eq_true, if_false]
    obtain ⟨written, hcs, hrun⟩ := run_takeUntil endsWord (c :: cs)
    -- The first character does not stop, so it is not what is left.
    cases written with
    | nil =>
      rw [List.nil_append] at hcs
      have hstop := hrun.stops c (by rw [← hcs]; rfl)
      rw [hends] at hstop
      cases hstop
    | cons d written =>
      obtain rfl : c = d := (List.cons.inj hcs).1
      exact ⟨c :: written, hcs, .word hdigit hlead hc hrun⟩

/-- Whatever is read is spelled by the characters that it takes. -/
theorem heads_ofHead (wide : Bool) {c : Char} (hgap : isGap c = false) (cs : List Char) :
    (Lexeme.ofHead wide c cs).Heads wide (c :: cs) := by
  have hfit := Shape.fits_ofChar hgap
  cases hshape : Shape.ofChar c with
  | mark kind =>
    rw [hshape] at hfit
    rw [Lexeme.ofHead, hshape]
    exact ⟨[c], rfl, .mark hfit⟩
  | comparison => exact heads_comparison wide (hshape ▸ hfit) cs
  | quoted => exact heads_quoted wide (hshape ▸ hfit) cs
  | block => exact heads_block wide (hshape ▸ hfit) cs
  | number =>
    rw [hshape] at hfit
    obtain ⟨hsplit, hnumber, hend⟩ := isNumber_takeNumber hfit cs
    rw [Lexeme.ofHead, hshape]
    exact ⟨(takeNumber (c :: cs)).1, hsplit, .number hnumber hend⟩
  | word => exact heads_word wide (hshape ▸ hfit) cs

end SearchFilter.Token
