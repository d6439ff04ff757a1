/-!
# Operators

The operators that join two expressions, and the symbols a filter writes them with.

A filter's inequalities include the bound where the query's do not, and the other way round:
`<` is written `<=`, and `<=` is written `<`.  A symbol and its negation form a pair, read in
either direction: `negatedSymbol?_comm` says that negating twice gives the symbol back.
-/

namespace SearchFilter

/-- What an operator does with its two operands. -/
inductive Operator.Kind where
  | eq | lt | le | gt | ge | similar | member
  | and | or
  | mul | div | sub | plus
  deriving DecidableEq, Repr, Inhabited

/-- An operator between two expressions.  A negated one is written with the opposite symbol. -/
structure Operator where
  kind : Operator.Kind
  negate : Bool := false
  deriving DecidableEq, Repr, Inhabited

namespace Operator

namespace Kind

/-- All kinds of operator. -/
def all : List Kind :=
  [.eq, .lt, .le, .gt, .ge, .similar, .member, .and, .or, .mul, .div, .sub, .plus]

/-- The name of a kind in a written tree. -/
def name : Kind → String
  | .eq => "Eq"
  | .lt => "Lt"
  | .le => "Le"
  | .gt => "Gt"
  | .ge => "Ge"
  | .similar => "Similar"
  | .member => "In"
  | .and => "And"
  | .or => "Or"
  | .mul => "Mul"
  | .div => "Div"
  | .sub => "Sub"
  | .plus => "Plus"

/-- The kind with the given name. -/
def ofName? (name : String) : Option Kind :=
  all.find? (·.name = name)

/-- The symbol of a kind in a filter. -/
def symbol : Kind → String
  | .eq => "=="
  | .lt => "<="
  | .le => "<"
  | .gt => ">="
  | .ge => ">"
  | .similar => "LIKE"
  | .member => "IN"
  | .and => "AND"
  | .or => "OR"
  | .mul => "*"
  | .div => "/"
  | .sub => "-"
  | .plus => "+"

theorem mem_all (k : Kind) : k ∈ all := by
  cases k <;> decide

theorem name_injective {j k : Kind} (h : j.name = k.name) : j = k := by
  revert h
  cases j <;> cases k <;> decide

theorem symbol_injective {j k : Kind} (h : j.symbol = k.symbol) : j = k := by
  revert h
  cases j <;> cases k <;> decide

end Kind

/-! ### Negation -/

/-- The pairs of symbols that negate each other. -/
def negations : List (String × String) :=
  [("==", "!="), ("<=", ">"), (">=", "<"), ("LIKE", "NOT LIKE"), ("AND", "OR"), ("IN", "NOT IN")]

/-- The symbol that negates the given one, if there is one. -/
def negatedSymbol? (symbol : String) : Option String :=
  negations.findSome? fun (plain, negated) =>
    if plain = symbol then some negated else if negated = symbol then some plain else none

/-- The symbol of an operator in a filter.  Where a negated operator's symbol has no opposite, it
stays as it is. -/
def symbol (op : Operator) : String :=
  if op.negate then (negatedSymbol? op.kind.symbol).getD op.kind.symbol else op.kind.symbol

@[simp]
theorem symbol_plain (k : Kind) : symbol { kind := k } = k.symbol := rfl

/-- A symbol and its negation are one of the pairs, in one of the two orders. -/
theorem mem_negations_of_negatedSymbol? {s t : String} (h : negatedSymbol? s = some t) :
    (s, t) ∈ negations ∨ (t, s) ∈ negations := by
  obtain ⟨⟨plain, negated⟩, hmem, hpair⟩ := List.exists_of_findSome?_eq_some h
  dsimp only at hpair
  split at hpair
  · next hs => cases hs; cases hpair; exact .inl hmem
  · split at hpair
    · next hs => cases hs; cases hpair; exact .inr hmem
    · cases hpair

/-- Negation is symmetric: each symbol of a pair is the negation of the other. -/
theorem negatedSymbol?_comm {s t : String} (h : negatedSymbol? s = some t) :
    negatedSymbol? t = some s := by
  have pairs : ∀ p ∈ negations,
      negatedSymbol? p.1 = some p.2 ∧ negatedSymbol? p.2 = some p.1 := by decide
  rcases mem_negations_of_negatedSymbol? h with hmem | hmem
  · exact (pairs _ hmem).2
  · exact (pairs _ hmem).1

end Operator

end SearchFilter
