import SearchFilter.Expr.Filter
import SearchFilter.Proofs.Literal
import SearchFilter.Proofs.Runs
import SearchFilter.Token.Scanner

/-!
# Literals read as quoted text

A filter writes a string as a literal, and a query may quote text in the same way; but the two do
not escape alike.  A literal writes control characters as escapes of their own, and the lexer knows
of a backslash only that it is dropped and the character behind it kept.

So the filter of a string is read back as that string exactly when the string has no control
characters (`lex_filter_string`).  Whatever the string, the filter is one quoted token to its very
end: no escape leaves a quote or a backslash that is not escaped (`run_literal`).  What is read is
`Json.rereadText`, and it has no control characters, so none of the string can be among it.
-/

namespace SearchFilter

/-! ### What is left of an escape -/

namespace Json

/-- What is read of a character in a literal where a backslash is dropped and the character behind
it is kept. -/
def reread (c : Char) : List Char :=
  match escape c with
  | '\\' :: kept => kept
  | plain => plain

/-- What is read of the literal of a text where backslashes are dropped. -/
def rereadText (text : String) : String := String.ofList (text.toList.flatMap reread)

theorem reread_of_plain {c : Char} (h : escape c = [c]) (hbackslash : c ≠ '\\') :
    reread c = [c] := by
  unfold reread
  split
  · next kept hescape =>
    rw [h] at hescape
    exact absurd (List.cons.inj hescape).1 hbackslash
  · exact h

theorem reread_of_escaped {c : Char} {kept : List Char} (h : escape c = '\\' :: kept) :
    reread c = kept := by
  simp only [reread, h]

/-- A character that is no control character is read as itself. -/
theorem reread_of_le {c : Char} (hc : 0x20 ≤ c.toNat) : reread c = [c] := by
  by_cases hquote : c = '"'
  · subst hquote
    rfl
  by_cases hbackslash : c = '\\'
  · subst hbackslash
    rfl
  exact reread_of_plain (escape_of_le hc hquote hbackslash) hbackslash

/-- No control character is read. -/
theorem le_toNat_of_mem_reread {c d : Char} (h : d ∈ reread c) : 0x20 ≤ d.toNat := by
  refine le_toNat_of_mem_escape (c := c) ?_
  unfold reread at h
  split at h
  · next kept hescape =>
    rw [hescape]
    exact List.mem_cons_of_mem _ h
  · exact h

/-- A text is read as itself exactly when it has no control characters. -/
theorem rereadText_eq_iff {text : String} :
    rereadText text = text ↔ ∀ c ∈ text.toList, 0x20 ≤ c.toNat := by
  constructor
  · intro h c hc
    rw [← h, rereadText, String.toList_ofList, List.mem_flatMap] at hc
    obtain ⟨d, -, hc⟩ := hc
    exact le_toNat_of_mem_reread hc
  · intro h
    have hread : text.toList.flatMap reread = text.toList := by
      calc text.toList.flatMap reread
          = text.toList.flatMap fun c => [c] :=
            List.flatMap_congr fun c hc => reread_of_le (h c hc)
        _ = text.toList := List.flatMap_singleton' _
    rw [rereadText, hread, String.ofList_toList]

end Json

namespace Token

open Json (escape literal reread rereadText)

/-! ### Literals in a text -/

/-- One character of a literal in front of a run. -/
theorem Run.escape_append {rest written text : List Char} (h : Run (· = '"') rest written text)
    (c : Char) : Run (· = '"') rest (escape c ++ written) (reread c ++ text) := by
  rcases Json.escape_cases c with ⟨hescape, hquote, hbackslash⟩ | ⟨d, code, hescape, hcode⟩
  · rw [hescape, Json.reread_of_plain hescape hbackslash]
    exact .plain (by simpa using hquote) hbackslash h
  · rw [hescape, Json.reread_of_escaped hescape]
    exact .escaped (.plain_append (by simpa using hcode) h)

/-- The characters of a literal are a run up to its last quote. -/
theorem run_literal (rest text : List Char) :
    Run (· = '"') ('"' :: rest) (text.flatMap escape) (text.flatMap reread) := by
  induction text with
  | nil => exact .done (by simp)
  | cons c text ih => exact ih.escape_append c

/-- A literal is one lexeme, up to its last quote and no further. -/
theorem first?_literal (wide : Bool) (text : String) (rest : List Char) :
    Lexeme.first? wide ((literal text).toList ++ rest) =
      some { token := ⟨.quoted, rereadText text⟩, rest := rest } := by
  have hread := (run_literal rest text.toList).takeUntil_eq rfl
  have hliteral : (literal text).toList ++ rest =
      '"' :: (text.toList.flatMap escape ++ '"' :: rest) := by simp [Json.toList_literal]
  rw [hliteral]
  show some (Lexeme.ofHead wide '"' (text.toList.flatMap escape ++ '"' :: rest)) = _
  have hshape : Shape.ofChar '"' = .quoted := rfl
  simp only [Lexeme.ofHead, hshape, hread]
  rfl

/-! ### The filter of a string -/

/-- **The filter of a string is read back as the string exactly when it has no control characters.**
For every string it is one quoted token, and the call that reads it stops at the end of the filter,
behind the quote that closes the literal. -/
theorem lex_filter_string (text : String) :
    (lex (Expr.string text).filter = [⟨.quoted, text⟩] ↔ ∀ c ∈ text.toList, ¬ c.toNat < 0x20) ∧
      lex (Expr.string text).filter = [⟨.quoted, rereadText text⟩] ∧
      (Scanner.start (Expr.string text).filter).next =
        (some ⟨.quoted, rereadText text⟩,
          { wide := isWide (Expr.string text).filter.toList
            rest := []
            offset := (Expr.string text).filter.length }) := by
  have hfilter : (Expr.string text).filter = literal text := by rw [Expr.filter_eq, Expr.text]
  have hfirst := first?_literal (isWide (literal text).toList) text []
  rw [List.append_nil] at hfirst
  have hlex : lex (literal text) = [⟨.quoted, rereadText text⟩] := by
    rw [lex, lexFrom_of_some hfirst, lexFrom_of_none rfl]
  rw [hfilter]
  refine ⟨?_, hlex, ?_⟩
  · have hsame : ([⟨.quoted, rereadText text⟩] : List Token) = [⟨.quoted, text⟩] ↔
        rereadText text = text := by simp
    simp only [hlex, hsame, Json.rereadText_eq_iff, Nat.not_lt]
  · simp [Scanner.next, Scanner.start, hfirst, String.length_toList]

/-- A quote and a backslash come back, a line end and the character with code 1 do not. -/
example : lex (Expr.string "\"\\\n\x01").filter = [⟨.quoted, "\"\\nu0001"⟩] := by decide +kernel

end Token

end SearchFilter
