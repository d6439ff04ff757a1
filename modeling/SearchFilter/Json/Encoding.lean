import SearchFilter.Json.Value
import SearchFilter.Expr

/-!
# Tokens and trees as JSON

A token is an object of its kind and its text.  An expression is an object with one field, named for
the class of the node; an operator node holds its left side, its operator and its right side in that
order.
-/

namespace SearchFilter

/-- A token as JSON. -/
def Token.toJson (t : Token) : Json :=
  .object [("kind", .string t.kind.name), ("text", .string t.text)]

/-- An operator as JSON. -/
def Operator.toJson (op : Operator) : Json :=
  .object [("kind", .string op.kind.name), ("negate", .bool op.negate)]

mutual

/-- An expression as JSON. -/
def Expr.toJson : Expr → Json
  | .word text => .object [("Word", .string text)]
  | .string text => .object [("String", .string text)]
  | .number text => .object [("Number", .string text)]
  | .list items => .object [("List", .array (Expr.itemsToJson items))]
  | .binary left op right =>
    .object [("Binary",
      .object [("left", left.toJson), ("op", op.toJson), ("right", right.toJson)])]

/-- The items of a list as JSON, in order. -/
def Expr.itemsToJson : List Expr → List Json
  | [] => []
  | item :: items => item.toJson :: Expr.itemsToJson items

end

end SearchFilter
