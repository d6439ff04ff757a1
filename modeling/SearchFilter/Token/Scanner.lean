import SearchFilter.Token.Lexeme

/-!
# Reading a text into tokens

`Token.lex` reads a whole text at once.  A `Scanner` reads the same tokens one at a time: it holds
the text it has not read, whether the whole text writes its comparisons wide, and how far it has
come.  What a scanner does next depends on the unread text and that one bit only.

The offset counts the characters read, and one more when the last token overran the end of the
text.  A scanner at the end of its text stays there.
-/

namespace SearchFilter.Token

/-! ### A whole text -/

/-- The tokens of a text, given whether it writes its comparisons wide. -/
def lexFrom (wide : Bool) (text : List Char) : List Token :=
  match h : Lexeme.first? wide text with
  | none => []
  | some l =>
    have := Lexeme.length_rest_lt h
    l.token :: lexFrom wide l.rest
termination_by text.length

/-- The tokens of a text. -/
def lex (text : String) : List Token :=
  lexFrom (isWide text.toList) text.toList

theorem lexFrom_of_none {wide : Bool} {text : List Char} (h : Lexeme.first? wide text = none) :
    lexFrom wide text = [] := by
  rw [lexFrom]
  split
  · rfl
  · next l hl => rw [h] at hl; cases hl

theorem lexFrom_of_some {wide : Bool} {text : List Char} {l : Lexeme}
    (h : Lexeme.first? wide text = some l) :
    lexFrom wide text = l.token :: lexFrom wide l.rest := by
  rw [lexFrom]
  split
  · next hn => rw [h] at hn; cases hn
  · next l' hl => rw [h] at hl; cases hl; rfl

/-! ### One token at a time -/

/-- A place in a text that is being read. -/
structure Scanner where
  wide : Bool
  rest : List Char
  offset : Nat := 0
  deriving DecidableEq, Repr

namespace Scanner

/-- The beginning of a text. -/
def start (text : String) : Scanner where
  wide := isWide text.toList
  rest := text.toList

/-- The next token, if one is left, and the place behind it.  Where only a gap is left it is
passed. -/
def next (s : Scanner) : Option Token × Scanner :=
  match Lexeme.first? s.wide s.rest with
  | none => (none, { s with rest := [], offset := s.offset + s.rest.length })
  | some l =>
    let read := s.rest.length - l.rest.length + if l.overrun then 1 else 0
    (some l.token, { s with rest := l.rest, offset := s.offset + read })

/-- The answers of the next `n` calls. -/
def steps : Nat → Scanner → List (Option Token)
  | 0, _ => []
  | n + 1, s => s.next.1 :: steps n s.next.2

/-- The tokens that a scanner still has to read. -/
def remaining (s : Scanner) : List Token :=
  lexFrom s.wide s.rest

@[simp]
theorem remaining_start (text : String) : (start text).remaining = lex text := rfl

/-- A scanner hands out its remaining tokens from the front. -/
theorem next_fst (s : Scanner) : s.next.1 = s.remaining.head? := by
  unfold next remaining
  split
  · next h => rw [lexFrom_of_none h]; rfl
  · next l h => rw [lexFrom_of_some h]; rfl

theorem remaining_next (s : Scanner) : s.next.2.remaining = s.remaining.tail := by
  unfold next remaining
  split
  · next h => rw [lexFrom_of_none h]; exact lexFrom_of_none rfl
  · next l h => rw [lexFrom_of_some h]; rfl

end Scanner

end SearchFilter.Token
