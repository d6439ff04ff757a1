import SearchFilter.Expr

/-!
# Expressions read from left to right, and with a hole

`Expr.entries` is what an expression says from left to right: its leaves, and the operators between
their two sides.  A token has an entry too, unless it only groups or separates, so the entries of
an expression can be compared with the tokens it comes from.

`Expr.Context` is an expression with one hole, and `Context.fill` puts an expression there.  A
context may itself stand in the hole of another (`Context.comp`).
-/

namespace SearchFilter

/-! ### Entries -/

/-- One thing that is said: a leaf, or an operator between two sides. -/
inductive Entry where
  | word (text : String)
  | string (text : String)
  | number (text : String)
  | operator (kind : Operator.Kind)
  deriving DecidableEq, Repr

/-- What a token says, if it is a leaf or an operator. -/
def Entry.ofToken? (t : Token) : Option Entry :=
  match t.kind with
  | .word | .preserved => some (.word t.text)
  | .quoted => some (.string t.text)
  | .number => some (.number t.text)
  | k => k.operator?.map .operator

/-- What tokens say, in order. -/
def Entry.ofTokens (ts : List Token) : List Entry := ts.filterMap Entry.ofToken?

mutual

/-- What an expression says: the left side, the operator and the right side, and the items of a
list in order. -/
def Expr.entries : Expr → List Entry
  | .word text => [.word text]
  | .string text => [.string text]
  | .number text => [.number text]
  | .list items => Expr.itemsEntries items
  | .binary left op right => left.entries ++ .operator op.kind :: right.entries

/-- What the items of a list say, in order. -/
def Expr.itemsEntries : List Expr → List Entry
  | [] => []
  | item :: items => item.entries ++ Expr.itemsEntries items

end

@[simp]
theorem Entry.ofTokens_append (ts us : List Token) :
    ofTokens (ts ++ us) = ofTokens ts ++ ofTokens us :=
  List.filterMap_append

theorem Entry.ofTokens_cons {t : Token} {entry : Entry} (h : ofToken? t = some entry)
    (ts : List Token) : ofTokens (t :: ts) = entry :: ofTokens ts :=
  List.filterMap_cons_some h

theorem Entry.ofTokens_sublist_cons (t : Token) (ts : List Token) :
    (ofTokens ts).Sublist (ofTokens (t :: ts)) :=
  (List.sublist_cons_self t ts).filterMap _

@[simp]
theorem Expr.itemsEntries_append (as bs : List Expr) :
    itemsEntries (as ++ bs) = itemsEntries as ++ itemsEntries bs := by
  induction as with
  | nil => rfl
  | cons a as ih => simp [itemsEntries, ih, List.append_assoc]

/-- Joined items say what they say one after the other. -/
theorem Expr.entries_ofItems (first : Expr) (others : List Expr) :
    (ofItems first others).entries = itemsEntries (first :: others) := by
  cases others with
  | nil => simp [ofItems, itemsEntries]
  | cons other others => rfl

/-- Items gathered in reverse, with one more behind them, are a list. -/
theorem Expr.ofItems_reverse_cons (first e : Expr) (others : List Expr) :
    ofItems first (e :: others).reverse = .list (first :: others.reverse ++ [e]) := by
  rw [List.reverse_cons]
  cases others.reverse <;> rfl

/-- A leaf says what its token says. -/
theorem Expr.entries_of_ofToken? {t : Token} {leaf : Expr} (h : ofToken? t = some leaf) :
    leaf.entries = Entry.ofTokens [t] := by
  unfold ofToken? at h
  split at h
  case h_5 => cases h
  all_goals
    next hk =>
      cases h
      simp [Entry.ofTokens, Entry.ofToken?, entries, hk]

/-- The token of an operator says that operator. -/
theorem Entry.ofToken?_of_operator? {t : Token} {op : Operator.Kind}
    (h : t.kind.operator? = some op) : ofToken? t = some (.operator op) := by
  unfold ofToken?
  split
  case h_5 => rw [h]; rfl
  all_goals
    next hk =>
      rw [hk] at h
      cases h

/-! ### An expression with a hole -/

namespace Expr

/-- An expression with one hole. -/
inductive Context where
  | hole
  | left (C : Context) (op : Operator) (right : Expr)
  | right (left : Expr) (op : Operator) (C : Context)
  | item (before : List Expr) (C : Context) (after : List Expr)

/-- The expression with `e` in the hole. -/
def Context.fill : Context → Expr → Expr
  | .hole, e => e
  | .left C op r, e => .binary (C.fill e) op r
  | .right l op C, e => .binary l op (C.fill e)
  | .item before C after, e => .list (before ++ C.fill e :: after)

/-- The context with another in its hole. -/
def Context.comp : Context → Context → Context
  | .hole, D => D
  | .left C op r, D => .left (C.comp D) op r
  | .right l op C, D => .right l op (C.comp D)
  | .item before C after, D => .item before (C.comp D) after

theorem Context.fill_comp (C D : Context) (e : Expr) : (C.comp D).fill e = C.fill (D.fill e) := by
  induction C with
  | hole => rfl
  | left C op r ih | right l op C ih | item before C after ih => simp only [comp, fill, ih]

/-- What stands in the hole can be seen. -/
theorem Context.fill_inj (C : Context) {e e' : Expr} (h : C.fill e = C.fill e') : e = e' := by
  induction C with
  | hole => exact h
  | left C op r ih => exact ih (Expr.binary.inj h).1
  | right l op C ih => exact ih (Expr.binary.inj h).2.2
  | item before C after ih =>
    exact ih (List.cons.inj (List.append_cancel_left (Expr.list.inj h))).1

end Expr

end SearchFilter
