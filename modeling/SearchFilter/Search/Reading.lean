import SearchFilter.Search.Cursor

/-!
# Reading a search

The four levels of a search, each read from a cursor: an item, a value of colon-joined items, a
condition of values and comparisons, and a search of conditions and logic operators.  A group leads
from the first level back to the last.

Each function says how many tokens it may leave, which is also why the recursion ends: a level asks
the one below it at the same place, a loop goes on only behind what was read, and a group is read
behind its parenthesis.

* A group beyond the nesting limit is not opened: its parenthesis is passed over.
* An operator without a value behind it is dropped, and so are tokens between conditions.
* A condition that is one last leaf is looked for in the fallback field.
-/

namespace SearchFilter.Search

/-- A reading that leaves at most `n` tokens. -/
abbrev Bounded (n : Nat) : Type :=
  { r : Reading (Option Expr) // r.next.rest.length ≤ n }

/-- A reading may be given more room. -/
@[inline]
def Bounded.weaken {m n : Nat} (r : Bounded m) (h : m ≤ n) : Bounded n :=
  ⟨r.1, Nat.le_trans r.2 h⟩

/-- The leaf that is all that is left. -/
def lastLeaf? : List Token → Option Token
  | [t] => if t.kind.isLeaf then some t else none
  | _ => none

/-! ### Why reading ends

Each call lowers six times the number of tokens left, plus the rank of the function among the six:
a level may ask the ones below it at the same place, and any of them behind a token. -/

theorem kept_lt {m n i j : Nat} (h : m ≤ n) (hij : i < j) : 6 * m + i < 6 * n + j := by
  omega

theorem passed_lt {α : Type} {t : α} {ts : List α} {m i j : Nat} (h : m ≤ ts.length) (hi : i < 6) :
    6 * m + i < 6 * (t :: ts).length + j := by
  simp only [List.length_cons]
  omega

/-! ### The levels -/

mutual

/-- Reads an item: a leaf, or the search inside a group.  Where no item begins, or the group is
empty, there is none. -/
def item (o : Options) (c : Cursor) : Bounded (Cursor.room c.rest) :=
  match h : (c.skipParens o.nestingLimit).rest with
  | [] => ⟨⟨.ok none, c.skipParens o.nestingLimit⟩, by simp [h]⟩
  | t :: ts =>
    match hleaf : Expr.ofToken? t with
    | some leaf => ⟨⟨.ok (some leaf), ⟨ts, c.depth⟩⟩, Cursor.length_tail_le_room h⟩
    | none =>
      if hp : t.kind = .lparen then
        let inner := search o true none ⟨ts, c.depth + 1⟩
        ⟨⟨inner.1.value, inner.1.next.leave⟩,
          Nat.le_trans (Cursor.rest_leave_suffix _).length_le
            (Nat.le_trans inner.2 (Cursor.length_tail_le_room h))⟩
      else
        ⟨⟨.ok none, c.skipParens o.nestingLimit⟩, by
          refine Cursor.length_skipParens_le_room fun u hu => ?_
          rw [h] at hu
          cases hu
          have := Expr.isSome_ofToken? t
          simp_all [Token.Kind.isAtom_eq]⟩
termination_by 6 * c.rest.length + 0
decreasing_by
  have := (Cursor.rest_skipParens_suffix o.nestingLimit c).length_le
  rw [h, List.length_cons] at this
  omega

/-- Reads a value: items joined by colons.  One item alone is the value itself, unless a colon
behind it asks for a list. -/
def value (o : Options) (c : Cursor) : Bounded (Cursor.room c.rest) :=
  let first := item o c
  match first.1.value with
  | .ok (some e) => (moreItems o e [] first.1.next).weaken first.2
  | _ => first
termination_by 6 * c.rest.length + 2
decreasing_by
  · exact kept_lt (Nat.le_refl _) (by decide)
  · exact kept_lt (Nat.le_trans first.2 (Cursor.room_le _)) (by decide)

/-- Reads the rest of a value behind its first item, with the items behind that in reverse. -/
def moreItems (o : Options) (first : Expr) (others : List Expr) :
    (c : Cursor) → Bounded c.rest.length
  | ⟨[], depth⟩ => ⟨⟨.ok (some (.ofItems first others.reverse)), ⟨[], depth⟩⟩, Nat.le_refl _⟩
  | ⟨t :: ts, depth⟩ =>
    if t.kind = .colon then
      let next := item o ⟨ts, depth⟩
      match next.1.value with
      | .ok (some e) =>
        (moreItems o first (e :: others) next.1.next).weaken
          (Nat.le_trans next.2 (Cursor.room_le_length_cons t ts))
      | .ok none =>
        ⟨⟨.ok (some (.list (first :: others.reverse))), next.1.next⟩,
          Nat.le_trans next.2 (Cursor.room_le_length_cons t ts)⟩
      | .error _ => next.weaken (Cursor.room_le_length_cons t ts)
    else ⟨⟨.ok (some (.ofItems first others.reverse)), ⟨t :: ts, depth⟩⟩, Nat.le_refl _⟩
termination_by c => 6 * c.rest.length + 1
decreasing_by
  · exact passed_lt (Nat.le_refl _) (by decide)
  · exact passed_lt (Nat.le_trans next.2 (Cursor.room_le _)) (by decide)

/-- Reads a condition: values joined by comparisons, from the left. -/
def condition (o : Options) (c : Cursor) : Bounded (Cursor.room c.rest) :=
  match lastLeaf? c.rest with
  | some t => ⟨⟨.ok (some (.fallback o.fallbackField t.text)), ⟨[], c.depth⟩⟩, Nat.zero_le _⟩
  | none =>
    let first := value o c
    match first.1.value with
    | .ok (some e) => (moreValues o e first.1.next).weaken first.2
    | _ => first
termination_by 6 * c.rest.length + 4
decreasing_by
  · exact kept_lt (Nat.le_refl _) (by decide)
  · exact kept_lt (Nat.le_trans first.2 (Cursor.room_le _)) (by decide)

/-- Reads the rest of a condition, with what stands before it. -/
def moreValues (o : Options) (left : Expr) : (c : Cursor) → Bounded c.rest.length
  | ⟨[], depth⟩ => ⟨⟨.ok (some left), ⟨[], depth⟩⟩, Nat.le_refl _⟩
  | ⟨t :: ts, depth⟩ =>
    match t.kind.comparison? with
    | some op =>
      let right := value o ⟨ts, depth⟩
      match right.1.value with
      | .ok (some e) =>
        (moreValues o (.binary left { kind := op } e) right.1.next).weaken
          (Nat.le_trans right.2 (Cursor.room_le_length_cons t ts))
      | .ok none =>
        ⟨⟨.ok (some left), right.1.next⟩,
          Nat.le_trans right.2 (Cursor.room_le_length_cons t ts)⟩
      | .error _ => right.weaken (Cursor.room_le_length_cons t ts)
    | none => ⟨⟨.ok (some left), ⟨t :: ts, depth⟩⟩, Nat.le_refl _⟩
termination_by c => 6 * c.rest.length + 3
decreasing_by
  · exact passed_lt (Nat.le_refl _) (by decide)
  · exact passed_lt (Nat.le_trans right.2 (Cursor.room_le _)) (by decide)

/-- Reads a search, with what stands before it.  Inside a group a closing parenthesis ends it and is
left there. -/
def search (o : Options) (nested : Bool) (left : Option Expr) :
    (c : Cursor) → Bounded c.rest.length
  | ⟨[], depth⟩ => ⟨⟨.ok left, ⟨[], depth⟩⟩, Nat.le_refl _⟩
  | ⟨t :: ts, depth⟩ =>
    match t.kind.logic? with
    | some op =>
      if ts.isEmpty then ⟨⟨.error (.missingOperand t.text), ⟨ts, depth⟩⟩, by simp⟩
      else
        let right := condition o ⟨ts, depth⟩
        match right.1.value with
        | .ok e =>
          (search o nested (Expr.join op left e) right.1.next).weaken
            (Nat.le_trans right.2 (Cursor.room_le_length_cons t ts))
        | .error _ => right.weaken (Cursor.room_le_length_cons t ts)
    | none =>
      if nested && t.kind = .rparen then ⟨⟨.ok left, ⟨t :: ts, depth⟩⟩, Nat.le_refl _⟩
      else if ha : left.isNone && t.kind.isAtom then
        let first := condition o ⟨t :: ts, depth⟩
        match first.1.value with
        | .ok e =>
          (search o nested e first.1.next).weaken (Nat.le_trans first.2 (Cursor.room_le _))
        | .error _ => first.weaken (Cursor.room_le _)
      else (search o nested left ⟨ts, depth⟩).weaken (Nat.le_succ _)
termination_by c => 6 * c.rest.length + 5
decreasing_by
  · exact passed_lt (Nat.le_refl _) (by decide)
  · exact passed_lt (Nat.le_trans right.2 (Cursor.room_le _)) (by decide)
  · exact kept_lt (Nat.le_refl _) (by decide)
  · have ht : t.kind.isAtom = true := (Bool.and_eq_true _ _ ▸ ha).2
    exact passed_lt (Nat.le_trans first.2 (Nat.le_of_eq (Cursor.room_of_isAtom ht ts))) (by decide)
  · exact passed_lt (Nat.le_refl _) (by decide)

end

/-! ### A whole search -/

/-- Reads a search to the end of the tokens.  Where nothing is left of it, the empty term is looked
for in the fallback field. -/
def read (o : Options) (c : Cursor) : Reading Expr :=
  let whole := (search o false none c).1
  ⟨whole.value.map (·.getD (.fallback o.fallbackField "")), whole.next⟩

/-- The expression that tokens write, or why they write none. -/
def parse (o : Options) (tokens : List Token) : Except Error Expr :=
  (read o ⟨tokens, 0⟩).value

end SearchFilter.Search
