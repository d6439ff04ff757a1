import SearchFilter.Expr

/-!
# Searches

What a search is read under, and the one way in which reading fails.

A search is conditions joined by logic operators; a condition is values joined by comparisons; a
value is items joined by colons; an item is a leaf or a search in parentheses.  Whatever does not
fit is left out, with one exception: a logic operator that ends the search is an error.
-/

namespace SearchFilter

/-- What a search is read under: the field for terms without an operator, and how many groups may
be open at once. -/
structure Search.Options where
  fallbackField : String := "en_title"
  nestingLimit : Nat := 128
  deriving DecidableEq, Repr

/-- Why a search cannot be read. -/
inductive Search.Error where
  | missingOperand (operator : String)
  deriving DecidableEq, Repr

/-- The wording of an error. -/
def Search.Error.message : Search.Error → String
  | .missingOperand operator => "missing right-hand operand after '" ++ operator ++ "'"

end SearchFilter
