import SearchFilter.Search.Reading

/-!
# What each level of a search reads

The readings of the six functions that read a search, without the bounds that make them end.  Each
equation gives the reading at a place by the readings it is made of; what is proved of a search
starts from these.
-/

namespace SearchFilter.Search

/-! ### Items and values -/

theorem item_eq (o : Options) (c : Cursor) :
    (item o c).1 =
      match (c.skipParens o.nestingLimit).rest with
      | [] => ⟨.ok none, c.skipParens o.nestingLimit⟩
      | t :: ts =>
        match Expr.ofToken? t with
        | some leaf => ⟨.ok (some leaf), ⟨ts, c.depth⟩⟩
        | none =>
          if t.kind = .lparen then
            ⟨(search o true none ⟨ts, c.depth + 1⟩).1.value,
              (search o true none ⟨ts, c.depth + 1⟩).1.next.leave⟩
          else ⟨.ok none, c.skipParens o.nestingLimit⟩ := by
  rw [item]
  split
  · next h => simp only [h]
  · next t ts h =>
    simp only [h]
    split
    · next leaf hleaf => simp only [hleaf]
    · next hleaf =>
      simp only [hleaf]
      split <;> rfl

theorem value_eq (o : Options) (c : Cursor) :
    (value o c).1 =
      match (item o c).1.value with
      | .ok (some e) => (moreItems o e [] (item o c).1.next).1
      | _ => (item o c).1 := by
  rw [value]
  split <;> simp_all [Bounded.weaken]

theorem moreItems_nil (o : Options) (first : Expr) (others : List Expr) (depth : Nat) :
    (moreItems o first others ⟨[], depth⟩).1 =
      ⟨.ok (some (.ofItems first others.reverse)), ⟨[], depth⟩⟩ := by
  rw [moreItems]

theorem moreItems_cons (o : Options) (first : Expr) (others : List Expr) (t : Token)
    (ts : List Token) (depth : Nat) :
    (moreItems o first others ⟨t :: ts, depth⟩).1 =
      if t.kind = .colon then
        match (item o ⟨ts, depth⟩).1.value with
        | .ok (some e) => (moreItems o first (e :: others) (item o ⟨ts, depth⟩).1.next).1
        | .ok none =>
          ⟨.ok (some (.list (first :: others.reverse))), (item o ⟨ts, depth⟩).1.next⟩
        | .error _ => (item o ⟨ts, depth⟩).1
      else ⟨.ok (some (.ofItems first others.reverse)), ⟨t :: ts, depth⟩⟩ := by
  rw [moreItems]
  split
  · split <;> simp_all [Bounded.weaken]
  · rfl

/-! ### Conditions -/

theorem condition_eq (o : Options) (c : Cursor) :
    (condition o c).1 =
      match lastLeaf? c.rest with
      | some t => ⟨.ok (some (.fallback o.fallbackField t.text)), ⟨[], c.depth⟩⟩
      | none =>
        match (value o c).1.value with
        | .ok (some e) => (moreValues o e (value o c).1.next).1
        | _ => (value o c).1 := by
  rw [condition]
  cases lastLeaf? c.rest with
  | some t => rfl
  | none =>
    dsimp only
    split <;> simp_all [Bounded.weaken]

theorem moreValues_nil (o : Options) (left : Expr) (depth : Nat) :
    (moreValues o left ⟨[], depth⟩).1 = ⟨.ok (some left), ⟨[], depth⟩⟩ := by
  rw [moreValues]

theorem moreValues_cons (o : Options) (left : Expr) (t : Token) (ts : List Token) (depth : Nat) :
    (moreValues o left ⟨t :: ts, depth⟩).1 =
      match t.kind.comparison? with
      | some op =>
        match (value o ⟨ts, depth⟩).1.value with
        | .ok (some e) =>
          (moreValues o (.binary left { kind := op } e) (value o ⟨ts, depth⟩).1.next).1
        | .ok none => ⟨.ok (some left), (value o ⟨ts, depth⟩).1.next⟩
        | .error _ => (value o ⟨ts, depth⟩).1
      | none => ⟨.ok (some left), ⟨t :: ts, depth⟩⟩ := by
  rw [moreValues]
  cases t.kind.comparison? with
  | some op =>
    dsimp only
    split <;> simp_all [Bounded.weaken]
  | none => rfl

/-! ### Searches -/

theorem search_nil (o : Options) (nested : Bool) (left : Option Expr) (depth : Nat) :
    (search o nested left ⟨[], depth⟩).1 = ⟨.ok left, ⟨[], depth⟩⟩ := by
  rw [search]

/-- A logic operator joins what stands before it with the condition behind it. -/
theorem search_logic (o : Options) (nested : Bool) (left : Option Expr) {t : Token}
    {op : Operator.Kind} (ht : t.kind.logic? = some op) (ts : List Token) (depth : Nat) :
    (search o nested left ⟨t :: ts, depth⟩).1 =
      if ts.isEmpty then ⟨.error (.missingOperand t.text), ⟨ts, depth⟩⟩
      else
        match (condition o ⟨ts, depth⟩).1.value with
        | .ok e => (search o nested (Expr.join op left e) (condition o ⟨ts, depth⟩).1.next).1
        | .error _ => (condition o ⟨ts, depth⟩).1 := by
  rw [search]
  split
  · next op' h =>
    rw [ht] at h
    cases h
    split
    · rfl
    · split <;> simp_all [Bounded.weaken]
  · next h => rw [ht] at h; cases h

/-- Any other token ends a group, begins the first condition, or is passed over. -/
theorem search_other (o : Options) (nested : Bool) (left : Option Expr) {t : Token}
    (ht : t.kind.logic? = none) (ts : List Token) (depth : Nat) :
    (search o nested left ⟨t :: ts, depth⟩).1 =
      if nested && t.kind = .rparen then ⟨.ok left, ⟨t :: ts, depth⟩⟩
      else if left.isNone && t.kind.isAtom then
        match (condition o ⟨t :: ts, depth⟩).1.value with
        | .ok e => (search o nested e (condition o ⟨t :: ts, depth⟩).1.next).1
        | .error _ => (condition o ⟨t :: ts, depth⟩).1
      else (search o nested left ⟨ts, depth⟩).1 := by
  rw [search]
  split
  · next op h => rw [ht] at h; cases h
  · split
    · rfl
    · split
      · split <;> simp_all [Bounded.weaken]
      · rfl

end SearchFilter.Search
