import SearchFilter.Proofs.Cut

/-!
# Reading token by token

What a scanner does when it is called again and again.  The `i`-th call hands out the `i`-th token
of the text, and none when there are no more, however often it is called (`scanner_reads`).

The invariant ties the two things that a scanner holds of its place: what it has not read is the
text behind its offset, and the offset is at most one more than the length of the text
(`Scanner.Over`).  It is one more where the last token overran the end, and a token that does so
leaves nothing.  Every token takes a character, so a call that hands one out goes forward; and the
first character that it takes is no gap, so there are no more tokens than such characters.
-/

namespace SearchFilter.Token

/-! ### What a lexeme leaves -/

namespace Lexeme

variable {wide : Bool} {text : List Char} {l : Lexeme}

/-- What a lexeme leaves is the end of the text that it was read from. -/
theorem rest_suffix (h : first? wide text = some l) : l.rest <:+ text := by
  obtain ⟨gap, span, htext, -, -⟩ := exists_of_first? h
  exact ⟨gap ++ span, by rw [htext, List.append_assoc]⟩

theorem tail_of_isEmpty {cs : List Char} (h : cs.isEmpty = true) : cs.tail = [] := by
  rw [List.isEmpty_iff.mp h]
  rfl

theorem rest_of_overrun_ofHead (wide : Bool) (c : Char) (cs : List Char) :
    (ofHead wide c cs).overrun = true → (ofHead wide c cs).rest = [] := by
  unfold ofHead
  split
  · exact nofun
  · split
    · exact tail_of_isEmpty
    · exact nofun
  · exact tail_of_isEmpty
  · exact nofun
  · exact nofun
  · exact nofun

/-- A lexeme that overruns the end of the text leaves nothing. -/
theorem rest_of_overrun (h : first? wide text = some l) (hover : l.overrun = true) :
    l.rest = [] := by
  unfold first? at h
  split at h
  · cases h
  · cases h
    exact rest_of_overrun_ofHead _ _ _ hover

/-- What a lexeme leaves is the text behind the characters that it counts, also where it counts the
end for one of them. -/
theorem rest_eq_drop (h : first? wide text = some l) :
    l.rest = text.drop (text.length - l.rest.length + if l.overrun then 1 else 0) := by
  cases hover : l.overrun with
  | false => exact List.suffix_iff_eq_drop.mp (rest_suffix h)
  | true =>
    have hnil := rest_of_overrun h hover
    rw [hnil]
    exact (List.drop_of_length_le (Nat.le_succ _)).symm

end Lexeme

namespace Scanner

variable {text : List Char} {s : Scanner} {l : Lexeme}

/-! ### One call -/

/-- Where no token is left, the gap that is left is passed. -/
theorem next_of_none (h : Lexeme.first? s.wide s.rest = none) :
    s.next = (none, { s with rest := [], offset := s.offset + s.rest.length }) := by
  simp only [next, h]

/-- A token is handed out, and the offset counts the characters up to its end. -/
theorem next_of_some (h : Lexeme.first? s.wide s.rest = some l) :
    s.next = (some l.token, { s with
      rest := l.rest
      offset := s.offset + (s.rest.length - l.rest.length + if l.overrun then 1 else 0) }) := by
  simp only [next, h]

/-- At the end of the text a call hands out nothing and stays where it is. -/
theorem next_at_end (h : s.rest = []) : s.next = (none, s) := by
  have hnone : Lexeme.first? s.wide s.rest = none := by rw [h]; rfl
  obtain ⟨wide, rest, offset⟩ := s
  obtain rfl : rest = [] := h
  exact next_of_none hnone

/-- A call that hands out a token goes forward. -/
theorem offset_lt_next {t : Token} (h : s.next.1 = some t) : s.offset < s.next.2.offset := by
  cases hfirst : Lexeme.first? s.wide s.rest with
  | none =>
    rw [next_of_none hfirst] at h
    cases h
  | some l =>
    have hlen := Lexeme.length_rest_lt hfirst
    rw [next_of_some hfirst]
    show s.offset < s.offset + (_ + _)
    omega

/-! ### The place of a scanner -/

/-- The scanner stands somewhere in the text: what it has not read is the text behind its offset,
and it is at most one character behind the end. -/
structure Over (text : List Char) (s : Scanner) : Prop where
  rest_eq : s.rest = text.drop s.offset
  offset_le : s.offset ≤ text.length + 1

theorem over_start (text : String) : Over text.toList (start text) where
  rest_eq := rfl
  offset_le := Nat.zero_le _

/-- A call leaves the scanner in the text. -/
theorem Over.next (h : s.Over text) : s.next.2.Over text := by
  have hlen : s.rest.length = text.length - s.offset := by rw [h.rest_eq, List.length_drop]
  have hle := h.offset_le
  cases hfirst : Lexeme.first? s.wide s.rest with
  | none =>
    have hend : text.length ≤ s.offset + s.rest.length := by omega
    rw [next_of_none hfirst]
    refine ⟨(List.drop_of_length_le hend).symm, ?_⟩
    show s.offset + s.rest.length ≤ text.length + 1
    omega
  | some l =>
    have hlt := Lexeme.length_rest_lt hfirst
    rw [next_of_some hfirst]
    refine ⟨?_, ?_⟩
    · show l.rest = text.drop (s.offset + _)
      rw [← List.drop_drop, ← h.rest_eq]
      exact Lexeme.rest_eq_drop hfirst
    · show s.offset + (_ + if l.overrun then 1 else 0) ≤ text.length + 1
      split <;> omega

/-! ### Call after call -/

/-- The place behind the next `n` calls. -/
def after (s : Scanner) : Nat → Scanner
  | 0 => s
  | n + 1 => (s.after n).next.2

theorem Over.after (h : s.Over text) (n : Nat) : (s.after n).Over text := by
  induction n with
  | zero => exact h
  | succ n ih => exact ih.next

/-- As many tokens are gone as there were calls. -/
theorem remaining_after (s : Scanner) (n : Nat) : (s.after n).remaining = s.remaining.drop n := by
  induction n with
  | zero => rfl
  | succ n ih => rw [after, remaining_next, ih, List.tail_drop]

/-- Each call hands out the next token that remains. -/
theorem next_after (s : Scanner) (n : Nat) : (s.after n).next.1 = s.remaining[n]? := by
  rw [next_fst, remaining_after, List.head?_drop]

theorem steps_eq (s : Scanner) (n : Nat) :
    s.steps n = (List.range n).map fun i => s.remaining[i]? := by
  induction n generalizing s with
  | zero => rfl
  | succ n ih =>
    have hlater : (s.remaining.tail[·]?) = fun i => s.remaining[i + 1]? :=
      funext fun i => List.getElem?_tail
    rw [steps, ih, next_fst, remaining_next, hlater, List.range_succ_eq_map, List.map_cons,
      List.map_map, List.head?_eq_getElem?]
    rfl

end Scanner

/-! ### How many tokens there are -/

/-- Each span begins with a character that is no gap. -/
theorem Cut.Valid.length_tokens_le {wide : Bool} : ∀ {cut : Cut}, cut.Valid wide →
    cut.tokens.length ≤ cut.text.countP fun c => !isGap c
  | .last _, _ => Nat.zero_le _
  | .span gap chars t more, ⟨_, hspells, hmore⟩ => by
    obtain ⟨c, written, rfl, hc, -⟩ := hspells.ofHead_eq
    have ih := hmore.length_tokens_le
    simp only [tokens, text, List.length_cons, List.countP_append, List.countP_cons, hc,
      Bool.not_false, if_true]
    omega

/-- There are no more tokens than characters that are no gap. -/
theorem length_lex_le (text : String) :
    (lex text).length ≤ text.toList.countP fun c => !isGap c := by
  obtain ⟨cut, hvalid, htext⟩ := exists_cut (isWide text.toList) text.toList
  have hlex : lex text = cut.tokens := by rw [lex, ← hvalid.lexFrom_eq, htext]
  rw [hlex, ← htext]
  exact hvalid.length_tokens_le

/-! ### Reading a text to the end and on -/

/-- **Call after call a scanner hands out the tokens of its text**, and none behind the last,
however often it is called.  A call that hands one out goes forward, and one at the end of the text
stays where it is; no call goes further than one character behind the end, and what is not read is
always the text behind the offset.  There are no more tokens than characters that are no gap. -/
theorem scanner_reads (text : String) :
    (∀ n, (Scanner.start text).steps n = (List.range n).map fun i => (lex text)[i]?) ∧
      (∀ n,
        let s := (Scanner.start text).after n
        s.next.1 = (lex text)[n]? ∧
          (∀ t, s.next.1 = some t → s.offset < s.next.2.offset) ∧
          s.rest = text.toList.drop s.offset ∧ s.offset ≤ text.length + 1 ∧
          (text.length ≤ s.offset → s.next = (none, s))) ∧
      (lex text).length ≤ text.toList.countP fun c => !isGap c := by
  refine ⟨fun n => ?_, fun n => ?_, length_lex_le text⟩
  · rw [Scanner.steps_eq, Scanner.remaining_start]
  · have hover := (Scanner.over_start text).after n
    have hlen : text.toList.length = text.length := String.length_toList
    refine ⟨?_, fun t => Scanner.offset_lt_next, hover.rest_eq, hlen ▸ hover.offset_le, ?_⟩
    · rw [Scanner.next_after, Scanner.remaining_start]
    · intro hend
      rw [← hlen] at hend
      exact Scanner.next_at_end (hover.rest_eq.trans (List.drop_of_length_le hend))

/-- The comparison in the middle takes the line end, and the one at the end overruns. -/
theorem scanner_reads_overrun :
    let s := (Scanner.start "a=\n<").after 3
    (Scanner.start "a=\n<").steps 5 =
        [some ⟨.word, "a"⟩, some ⟨.eq, "=="⟩, some ⟨.le, "<="⟩, none, none] ∧
      s.offset = "a=\n<".length + 1 ∧ s.next = (none, s) := by
  intro s
  have hlex : lex "a=\n<" = [⟨.word, "a"⟩, ⟨.eq, "=="⟩, ⟨.le, "<="⟩] := by decide +kernel
  have hoffset : s.offset = "a=\n<".length + 1 := by decide +kernel
  obtain ⟨hsteps, hcalls, -⟩ := scanner_reads "a=\n<"
  obtain ⟨-, -, -, -, hend⟩ := hcalls 3
  refine ⟨?_, hoffset, hend (hoffset ▸ Nat.le_succ _)⟩
  rw [hsteps, hlex]
  rfl

end SearchFilter.Token
