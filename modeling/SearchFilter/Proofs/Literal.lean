import SearchFilter.Json.Literal

/-!
# What is written in a literal

A literal ends in one place and tells its text (`literal_append_inj`): each character is written so
that it can be read back (`unescape_escape`).  Counting a character that no escape is written with,
such as the semicolon, gives the same for a literal as for its text (`count_literal`).

Whoever reads a literal and only has to find its end, or drops its backslashes, needs less: what
each character is written as begins at most one escape (`escape_cases`).
-/

namespace SearchFilter.Json

/-! ### Escapes -/

/-- A character is written as itself, or as a backslash and a character behind it.  Neither what
stands for itself nor what is left of an escape ends a literal or begins an escape. -/
theorem escape_cases (c : Char) :
    (escape c = [c] ∧ c ≠ '"' ∧ c ≠ '\\') ∨
      ∃ d code, escape c = '\\' :: d :: code ∧ ∀ e ∈ code, e ≠ '"' ∧ e ≠ '\\' := by
  have hex : ∀ n < 16, n.digitChar ≠ '"' ∧ n.digitChar ≠ '\\' := by decide
  unfold escape
  split
  case h_8 hquote hbackslash _ _ _ _ _ =>
    split
    · have hhigh := hex (c.toNat / 16) (by omega)
      have hlow := hex (c.toNat % 16) (by omega)
      exact .inr ⟨'u', _, rfl, by simp [hhigh, hlow]⟩
    · exact .inl ⟨rfl, hquote, hbackslash⟩
  all_goals exact .inr ⟨_, [], rfl, by simp⟩

/-- Beside the control characters only the quote and the backslash are escaped. -/
theorem escape_of_le {c : Char} (hc : 0x20 ≤ c.toNat) (hquote : c ≠ '"') (hbackslash : c ≠ '\\') :
    escape c = [c] := by
  unfold escape
  split
  case h_1 => exact absurd rfl hquote
  case h_2 => exact absurd rfl hbackslash
  case h_8 => exact if_neg (Nat.not_lt_of_le hc)
  all_goals exact absurd hc (by decide)

/-! ### Reading a literal back -/

/-- The number that a hexadecimal digit stands for. -/
def hexValue (c : Char) : Nat :=
  if c.isDigit then c.toNat - 48 else c.toNat - 87

/-- Reads one character of a literal, which may be escaped.  At the quote that ends the literal
there is none. -/
def unescape : List Char → Option (Char × List Char)
  | '\\' :: '"' :: cs => some ('"', cs)
  | '\\' :: '\\' :: cs => some ('\\', cs)
  | '\\' :: 'b' :: cs => some ('\x08', cs)
  | '\\' :: 'f' :: cs => some ('\x0c', cs)
  | '\\' :: 'n' :: cs => some ('\n', cs)
  | '\\' :: 'r' :: cs => some ('\r', cs)
  | '\\' :: 't' :: cs => some ('\t', cs)
  | '\\' :: 'u' :: '0' :: '0' :: high :: low :: cs =>
    some (Char.ofNat (16 * hexValue high + hexValue low), cs)
  | '"' :: _ | [] => none
  | c :: cs => some (c, cs)

/-- A control character is told by its two digits. -/
theorem ofNat_hexValue {c : Char} (hc : c.toNat < 0x20) :
    Char.ofNat (16 * hexValue (c.toNat / 16).digitChar + hexValue (c.toNat % 16).digitChar) =
      c := by
  have digits : ∀ n < 0x20, 16 * hexValue (n / 16).digitChar + hexValue (n % 16).digitChar = n := by
    decide
  rw [digits _ hc, Char.ofNat_toNat]

theorem unescape_escape (c : Char) (cs : List Char) : unescape (escape c ++ cs) = some (c, cs) := by
  unfold escape
  split
  case h_8 hquote hbackslash _ _ _ _ _ =>
    split
    · next hc =>
      show some (Char.ofNat _, cs) = _
      rw [ofNat_hexValue hc]
    · rw [List.singleton_append]
      unfold unescape
      split <;> simp_all
  all_goals rfl

/-- A literal ends in one place, and tells its text. -/
theorem flatMap_escape_inj {xs ys r s : List Char}
    (h : xs.flatMap escape ++ '"' :: r = ys.flatMap escape ++ '"' :: s) : xs = ys ∧ r = s := by
  have hread := congrArg unescape h
  induction xs generalizing ys with
  | nil =>
    cases ys with
    | nil => exact ⟨rfl, List.tail_eq_of_cons_eq h⟩
    | cons y ys =>
      rw [List.flatMap_cons, List.append_assoc, unescape_escape] at hread
      cases hread
  | cons x xs ih =>
    rw [List.flatMap_cons, List.append_assoc, unescape_escape] at hread
    cases ys with
    | nil => cases hread
    | cons y ys =>
      rw [List.flatMap_cons, List.append_assoc, unescape_escape] at hread
      simp only [Option.some.injEq, Prod.mk.injEq] at hread
      obtain ⟨rfl, htail⟩ := hread
      obtain ⟨rfl, hrest⟩ := ih htail (congrArg unescape htail)
      exact ⟨rfl, hrest⟩

theorem literal_append_inj {x y : String} {r s : List Char}
    (h : (literal x).toList ++ r = (literal y).toList ++ s) : x = y ∧ r = s := by
  simp only [toList_literal, List.cons_append, List.append_assoc, List.nil_append,
    List.cons.injEq, true_and] at h
  obtain ⟨hxy, hrest⟩ := flatMap_escape_inj h
  exact ⟨String.toList_injective hxy, hrest⟩

/-! ### Counting in a literal -/

theorem isAlphanum_digitChar : ∀ n < 16, (Nat.digitChar n).isAlphanum = true := by
  decide

/-- A character is escaped without a semicolon, and a semicolon is not escaped. -/
theorem count_escape (c : Char) : (escape c).count ';' = [c].count ';' := by
  have hex (n : Nat) (hn : n < 16) : n.digitChar ≠ ';' := by
    intro h
    have halnum := isAlphanum_digitChar n hn
    rw [h] at halnum
    cases halnum
  unfold escape
  split
  case h_8 =>
    split
    · next hc =>
      have hne : c ≠ ';' := by rintro rfl; revert hc; decide
      have hhigh := hex (c.toNat / 16) (by omega)
      have hlow := hex (c.toNat % 16) (by omega)
      simp [hne, hhigh, hlow]
    · rfl
  all_goals rfl

/-- A literal has the semicolons of its text. -/
theorem count_literal (text : String) :
    (literal text).toList.count ';' = text.toList.count ';' := by
  have hbody (cs : List Char) : (cs.flatMap escape).count ';' = cs.count ';' := by
    induction cs with
    | nil => rfl
    | cons c cs ih =>
      rw [List.flatMap_cons, List.count_append, count_escape, ih, ← List.count_append,
        List.singleton_append]
  rw [toList_literal, List.count_cons_of_ne (by decide), List.count_append, hbody]
  rfl

end SearchFilter.Json
