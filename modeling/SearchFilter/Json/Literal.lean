/-!
# String literals

JSON's way of writing a text between quotes.  The quote, the backslash and the control characters
are escaped, five of them by a letter and the others by their code in four lowercase hexadecimal
digits; every other character stands for itself.
-/

namespace SearchFilter.Json

/-- A character as it is written inside a literal. -/
def escape (c : Char) : List Char :=
  match c with
  | '"' => ['\\', '"']
  | '\\' => ['\\', '\\']
  | '\x08' => ['\\', 'b']
  | '\x0c' => ['\\', 'f']
  | '\n' => ['\\', 'n']
  | '\r' => ['\\', 'r']
  | '\t' => ['\\', 't']
  | c =>
    if c.toNat < 0x20 then
      ['\\', 'u', '0', '0', (c.toNat / 16).digitChar, (c.toNat % 16).digitChar]
    else [c]

/-- A text as a literal, its quotes included. -/
def literal (text : String) : String :=
  String.ofList ('"' :: (text.toList.flatMap escape ++ ['"']))

theorem toList_literal (text : String) :
    (literal text).toList = '"' :: (text.toList.flatMap escape ++ ['"']) :=
  String.toList_ofList

/-- A character is written without control characters. -/
theorem le_toNat_of_mem_escape {c d : Char} (h : d ∈ escape c) : 0x20 ≤ d.toNat := by
  have hex : ∀ n < 16, 0x20 ≤ (Nat.digitChar n).toNat := by decide
  unfold escape at h
  split at h
  case h_8 =>
    split at h
    · next hc =>
      simp only [List.mem_cons, List.not_mem_nil, or_false] at h
      rcases h with rfl | rfl | rfl | rfl | rfl | rfl
      · decide
      · decide
      · decide
      · decide
      · exact hex _ (by omega)
      · exact hex _ (by omega)
    · next hc =>
      cases List.mem_singleton.1 h
      omega
  all_goals
    simp only [List.mem_cons, List.not_mem_nil, or_false] at h
    rcases h with rfl | rfl <;> decide

end SearchFilter.Json
