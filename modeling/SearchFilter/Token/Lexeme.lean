import SearchFilter.Token

/-!
# Lexemes

How the first token of a text is read: the character it begins with decides its shape, the shape
decides how far it reaches, and the text goes on behind it.

* A *mark* is one character.  A *comparison* is one character too, or two in a text that writes its
  comparisons wide; a wide one takes the next character whatever that is.
* *Quoted* text runs to the same quote again, a *block* to the brace that matches its own, and
  both run to the end of the text where that is missing.  In quoted text and in words a backslash
  is dropped and the character after it kept, so an escaped stop does not stop.
* A *number* is digits with at most one point among them; everything else is a *word*.

What is left behind a token is a suffix of what stood behind its first character
(`Lexeme.rest_ofHead_suffix`), so reading goes forward.
-/

namespace SearchFilter.Token

/-! ### Characters -/

/-- The characters that stand between tokens. -/
def isGap (c : Char) : Bool :=
  c = ' ' || c = '\t' || c = '\n'

/-- The characters that end a word. -/
def endsWord (c : Char) : Bool :=
  [' ', '\t', '\n', ';', '<', '>', '=', '&', '~', '^', '|'].contains c

/-- What a token is, told from its first character. -/
inductive Shape where
  | mark (kind : Kind)
  | comparison
  | quoted
  | block
  | number
  | word
  deriving DecidableEq, Repr

/-- The shape of the token that begins with the given character. -/
def Shape.ofChar : Char → Shape
  | '~' => .mark .similar
  | '*' => .mark .mul
  | '/' => .mark .div
  | '-' => .mark .sub
  | '+' => .mark .plus
  | ':' => .mark .colon
  | '(' => .mark .lparen
  | ')' => .mark .rparen
  | '|' => .mark .or
  | '^' => .mark .member
  | '&' => .mark .and
  | '!' => .mark .not
  | '=' | '>' | '<' => .comparison
  | '"' | '\'' => .quoted
  | '{' => .block
  | c => if c.isDigit then .number else .word

/-- The comparison that one character writes. -/
def shortComparison : Char → Token
  | '>' => ⟨.gt, ">"⟩
  | '<' => ⟨.lt, "<"⟩
  | _ => ⟨.eq, "="⟩

/-- The comparison that a character writes together with the one after it. -/
def wideComparison : Char → Token
  | '>' => ⟨.ge, ">="⟩
  | '<' => ⟨.le, "<="⟩
  | _ => ⟨.eq, "=="⟩

/-- A text writes its comparisons wide when its second character is an equals sign. -/
def isWide : List Char → Bool
  | _ :: '=' :: _ => true
  | _ => false

/-! ### Runs of characters

Each reader splits a text into what it reads and what it leaves. -/

/-- The text up to the first unescaped stop.  Backslashes are dropped and the characters after them
kept; the stop is left. -/
def takeUntil (stop : Char → Bool) : List Char → List Char × List Char
  | [] => ([], [])
  | c :: cs =>
    if stop c then ([], c :: cs)
    else if c = '\\' then
      match cs with
      | [] => ([], [])
      | e :: es => let run := takeUntil stop es; (e :: run.1, run.2)
    else let run := takeUntil stop cs; (c :: run.1, run.2)

/-- The text up to the brace that closes a block, with `depth` inner braces open.  The closing brace
is read and dropped. -/
def takeBlock : Nat → List Char → List Char × List Char
  | _, [] => ([], [])
  | 0, '}' :: cs => ([], cs)
  | depth + 1, '}' :: cs => let run := takeBlock depth cs; ('}' :: run.1, run.2)
  | depth, '{' :: cs => let run := takeBlock (depth + 1) cs; ('{' :: run.1, run.2)
  | depth, c :: cs => let run := takeBlock depth cs; (c :: run.1, run.2)

/-- The longest run of digits with at most one point after the first of them. -/
def takeNumber (cs : List Char) : List Char × List Char :=
  let whole := cs.takeWhile Char.isDigit
  match cs.dropWhile Char.isDigit with
  | '.' :: rest => (whole ++ '.' :: rest.takeWhile Char.isDigit, rest.dropWhile Char.isDigit)
  | rest => (whole, rest)

/-- A word that begins with `c`: the text up to the next character that ends a word.  The first
character belongs to the word even when it is such a character. -/
def takeWord (c : Char) (cs : List Char) : List Char × List Char :=
  if endsWord c then let run := takeUntil endsWord cs; (c :: run.1, run.2)
  else takeUntil endsWord (c :: cs)

/-! ### Lexemes -/

/-- A token with the text behind it.  It overruns when it took the end of the text for the last of
its characters. -/
structure Lexeme where
  token : Token
  rest : List Char
  overrun : Bool := false
  deriving DecidableEq, Repr

namespace Lexeme

/-- The lexeme that begins with character `c`, before the characters `cs`. -/
def ofHead (wide : Bool) (c : Char) (cs : List Char) : Lexeme :=
  match Shape.ofChar c with
  | .mark kind => { token := ⟨kind, c.toString⟩, rest := cs }
  | .comparison =>
    if wide then { token := wideComparison c, rest := cs.tail, overrun := cs.isEmpty }
    else { token := shortComparison c, rest := cs }
  | .quoted =>
    let run := takeUntil (· = c) cs
    { token := ⟨.quoted, String.ofList run.1⟩, rest := run.2.tail, overrun := run.2.isEmpty }
  | .block =>
    let run := takeBlock 0 cs
    { token := ⟨.preserved, String.ofList run.1⟩, rest := run.2 }
  | .number =>
    let run := takeNumber (c :: cs)
    { token := ⟨.number, String.ofList run.1⟩, rest := run.2 }
  | .word =>
    let run := takeWord c cs
    { token := ⟨.word, String.ofList run.1⟩, rest := run.2 }

/-- The first lexeme of a text, behind the gap before it; none when only a gap is left. -/
def first? (wide : Bool) (text : List Char) : Option Lexeme :=
  match text.dropWhile isGap with
  | [] => none
  | c :: cs => some (ofHead wide c cs)

end Lexeme

/-! ### What is left is a suffix -/

theorem takeUntil_suffix (stop : Char → Bool) (cs : List Char) :
    (takeUntil stop cs).2 <:+ cs := by
  fun_induction takeUntil stop cs with
  | case1 => exact List.suffix_rfl
  | case2 => exact List.suffix_rfl
  | case3 => exact List.nil_suffix
  | case4 e es _ _ ih => exact (ih.trans (List.suffix_cons e es)).trans (List.suffix_cons _ _)
  | case5 c cs _ _ _ ih => exact ih.trans (List.suffix_cons c cs)

/-- A first character that does not stop is read. -/
theorem takeUntil_cons_suffix {stop : Char → Bool} {c : Char} (hc : stop c = false)
    (cs : List Char) : (takeUntil stop (c :: cs)).2 <:+ cs := by
  have hcs := takeUntil_suffix stop cs
  rw [takeUntil.eq_def]
  simp only [hc, Bool.false_eq_true, if_false]
  split
  · cases cs with
    | nil => exact List.nil_suffix
    | cons e es => exact (takeUntil_suffix stop es).trans (List.suffix_cons e es)
  · exact hcs

theorem takeBlock_suffix (depth : Nat) (cs : List Char) : (takeBlock depth cs).2 <:+ cs := by
  fun_induction takeBlock depth cs with
  | case1 => exact List.suffix_rfl
  | case2 cs => exact List.suffix_cons _ cs
  | case3 depth cs _ ih => exact ih.trans (List.suffix_cons _ cs)
  | case4 depth cs _ ih => exact ih.trans (List.suffix_cons _ cs)
  | case5 depth c cs _ _ _ _ ih => exact ih.trans (List.suffix_cons _ cs)

theorem takeNumber_cons_suffix {c : Char} (hc : c.isDigit = true) (cs : List Char) :
    (takeNumber (c :: cs)).2 <:+ cs := by
  have hdrop : (c :: cs).dropWhile Char.isDigit = cs.dropWhile Char.isDigit := by simp [hc]
  have hcs := List.dropWhile_suffix (l := cs) Char.isDigit
  simp only [takeNumber, hdrop]
  split
  · next rest heq =>
    rw [heq] at hcs
    exact ((List.dropWhile_suffix _).trans (List.suffix_cons _ _)).trans hcs
  · exact hcs

theorem takeWord_suffix (c : Char) (cs : List Char) : (takeWord c cs).2 <:+ cs := by
  rw [takeWord]
  split
  · exact takeUntil_suffix endsWord cs
  · next hc => exact takeUntil_cons_suffix (by simpa using hc) cs

theorem isDigit_of_shape {c : Char} (h : Shape.ofChar c = .number) : c.isDigit = true := by
  unfold Shape.ofChar at h
  split at h
  case h_19 =>
    split at h
    · assumption
    · cases h
  all_goals cases h

namespace Lexeme

theorem rest_ofHead_suffix (wide : Bool) (c : Char) (cs : List Char) :
    (ofHead wide c cs).rest <:+ cs := by
  unfold ofHead
  split
  · exact List.suffix_rfl
  · split
    · exact List.tail_suffix cs
    · exact List.suffix_rfl
  · exact (List.tail_suffix _).trans (takeUntil_suffix _ cs)
  · exact takeBlock_suffix 0 cs
  · next h => exact takeNumber_cons_suffix (isDigit_of_shape h) cs
  · exact takeWord_suffix c cs

/-- Reading a lexeme makes the text shorter. -/
theorem length_rest_lt {wide : Bool} {text : List Char} {l : Lexeme}
    (h : first? wide text = some l) : l.rest.length < text.length := by
  have hgap := (List.dropWhile_suffix (l := text) isGap).length_le
  unfold first? at h
  split at h
  · cases h
  · next c cs heq =>
    cases h
    rw [heq, List.length_cons] at hgap
    have := (rest_ofHead_suffix wide c cs).length_le
    omega

end Lexeme

end SearchFilter.Token
