import SearchFilter.Token.Scanner
import SearchFilter.Search.Reading
import SearchFilter.Expr.Filter

/-!
# Queries

From the text of a query to its expression, and on to its filter.
-/

namespace SearchFilter.Query

/-- The expression that a query's text means. -/
def parse (o : Search.Options) (text : String) : Except Search.Error Expr :=
  Search.parse o (Token.lex text)

/-- The filter that a query's text means. -/
def compile (o : Search.Options) (text : String) : Except Search.Error String :=
  (parse o text).map Expr.filter

/-- The filter of a query is the text of its expression. -/
theorem eq_text_of_compile {o : Search.Options} {text filter : String} {e : Expr}
    (hparse : parse o text = .ok e) (hcompile : compile o text = .ok filter) : filter = e.text := by
  rw [compile, hparse] at hcompile
  cases hcompile
  exact Expr.filter_eq e

end SearchFilter.Query
