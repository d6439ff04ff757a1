import SearchFilter.Search

/-!
# Places in a search

A cursor is a place in a list of tokens: the tokens not yet read, and how many groups are open
around them.  A reading is a value together with the place behind it.

Functions that look for an item at a cursor consume at least one token where one begins with the
next token, and none may be left over more than there were: `room` is the number of tokens that may
be left, and the lemmas here say that it is kept.
-/

namespace SearchFilter.Search

/-- The tokens not yet read, and the number of groups open around them. -/
structure Cursor where
  rest : List Token
  depth : Nat := 0
  deriving DecidableEq, Repr

/-- What is read from a place, or why nothing can be, and the place where reading stopped. -/
structure Reading (α : Type) where
  value : Except Error α
  next : Cursor

namespace Cursor

/-- The place behind the opening parentheses for which there is no more room. -/
def skipParens (limit : Nat) (c : Cursor) : Cursor :=
  if limit ≤ c.depth then { c with rest := c.rest.dropWhile (·.kind = .lparen) } else c

/-- The place behind a group: the innermost open group is closed, and its closing parenthesis is
passed if it is there. -/
def leave (c : Cursor) : Cursor where
  rest := match c.rest with
    | t :: ts => if t.kind = .rparen then ts else t :: ts
    | [] => []
  depth := c.depth - 1

/-- How many tokens an item may leave: all, unless the first of them begins an item. -/
def room : List Token → Nat
  | [] => 0
  | t :: ts => if t.kind.isAtom then ts.length else ts.length + 1

theorem room_le (ts : List Token) : room ts ≤ ts.length := by
  cases ts with
  | nil => exact Nat.le_refl _
  | cons t ts => simp only [room, List.length_cons]; split <;> omega

theorem room_le_length_cons (t : Token) (ts : List Token) : room ts ≤ (t :: ts).length :=
  Nat.le_succ_of_le (room_le ts)

/-- An item that begins here takes at least one token. -/
theorem room_of_isAtom {t : Token} (ht : t.kind.isAtom = true) (ts : List Token) :
    room (t :: ts) = ts.length := by
  simp [room, ht]

theorem length_le_room_add_one (ts : List Token) : ts.length ≤ room ts + 1 := by
  cases ts with
  | nil => exact Nat.zero_le _
  | cons t ts => simp only [room, List.length_cons]; split <;> omega

theorem rest_skipParens_suffix (limit : Nat) (c : Cursor) :
    (c.skipParens limit).rest <:+ c.rest := by
  unfold skipParens
  split
  · exact List.dropWhile_suffix _
  · exact List.suffix_rfl

theorem rest_leave_suffix (c : Cursor) : c.leave.rest <:+ c.rest := by
  unfold leave
  cases c.rest with
  | nil => exact List.suffix_rfl
  | cons t ts =>
    dsimp only
    split
    · exact List.suffix_cons t ts
    · exact List.suffix_rfl

@[simp]
theorem depth_skipParens (limit : Nat) (c : Cursor) : (c.skipParens limit).depth = c.depth := by
  unfold skipParens
  split <;> rfl

/-- What is read behind the skipped parentheses fits the room. -/
theorem length_tail_le_room {limit : Nat} {c : Cursor} {t : Token} {ts : List Token}
    (h : (c.skipParens limit).rest = t :: ts) : ts.length ≤ room c.rest := by
  have hlen := (rest_skipParens_suffix limit c).length_le
  have := length_le_room_add_one c.rest
  rw [h, List.length_cons] at hlen
  omega

/-- Where no item begins behind the skipped parentheses, stopping there fits the room. -/
theorem length_skipParens_le_room {limit : Nat} {c : Cursor}
    (h : ∀ t ∈ (c.skipParens limit).rest.head?, t.kind.isAtom = false) :
    (c.skipParens limit).rest.length ≤ room c.rest := by
  obtain ⟨rest, depth⟩ := c
  cases rest with
  | nil => exact (rest_skipParens_suffix limit ⟨[], depth⟩).length_le
  | cons t ts =>
    by_cases ht : t.kind.isAtom
    · unfold skipParens at h ⊢
      split
      · next hd =>
        simp only [hd, if_true] at h
        by_cases hp : t.kind = .lparen
        · simpa [room, hp, Token.Kind.isAtom] using (List.dropWhile_suffix (l := ts) _).length_le
        · simp [hp, ht] at h
      · next hd => simp [hd, ht] at h
    · simpa [room, ht] using (rest_skipParens_suffix limit ⟨t :: ts, depth⟩).length_le

end Cursor

end SearchFilter.Search
