import SearchFilter.Expr
import SearchFilter.Json.Literal

/-!
# Filters

The filter that an expression is written as: every operator in parentheses with its two operands,
lists as comma-joined tuples, quoted text as a JSON literal, numbers as they are, and words without
their semicolons.

`Expr.text` says this by recursion on the expression.  `Expr.filter` writes the same text from the
left, with a list of the pieces still to come, so a long chain of operators needs no deep
recursion; `Piece.write_eq` says what it writes.
-/

namespace SearchFilter

/-! ### The text of an expression -/

namespace Expr

/-- A word as a filter writes it, without semicolons. -/
def bare (word : String) : String :=
  String.ofList (word.toList.filter (· ≠ ';'))

/-- An operator as a filter writes it, with a space on either side. -/
def infixText (op : Operator) : String :=
  " " ++ op.symbol ++ " "

mutual

/-- The filter of an expression, by recursion. -/
def text : Expr → String
  | .word w => bare w
  | .string s => Json.literal s
  | .number n => n
  | .list items => "(" ++ itemsText items ++ ")"
  | .binary left op right => "(" ++ text left ++ infixText op ++ text right ++ ")"

/-- The filters of a list's items with a comma between any two. -/
def itemsText : List Expr → String
  | [] => ""
  | item :: items => text item ++ tailText items

/-- The filters of the items behind the first, each behind a comma. -/
def tailText : List Expr → String
  | [] => ""
  | item :: items => "," ++ text item ++ tailText items

end

theorem toList_infixText (op : Operator) :
    (infixText op).toList = ' ' :: (op.symbol.toList ++ [' ']) := by
  simp [infixText, String.toList_append]

theorem toList_text_list (items : List Expr) :
    (text (.list items)).toList = '(' :: ((itemsText items).toList ++ [')']) := by
  simp [text, String.toList_append]

theorem toList_text_binary (left : Expr) (op : Operator) (right : Expr) :
    (text (.binary left op right)).toList =
      '(' :: (left.text.toList ++ ((infixText op).toList ++ (right.text.toList ++ [')']))) := by
  simp [text, String.toList_append]

theorem toList_itemsText_cons (item : Expr) (items : List Expr) :
    (itemsText (item :: items)).toList = item.text.toList ++ (tailText items).toList := by
  simp [itemsText, String.toList_append]

theorem toList_tailText_cons (item : Expr) (items : List Expr) :
    (tailText (item :: items)).toList =
      ',' :: (item.text.toList ++ (tailText items).toList) := by
  simp [tailText, String.toList_append]

end Expr

/-! ### Writing from the left -/

/-- A part of a filter that is still to be written. -/
inductive Piece where
  | text (s : String)
  | expr (e : Expr)
  deriving Repr

namespace Piece

/-- The pieces of a list's items, with commas between them. -/
def ofItems : List Expr → List Piece
  | [] => []
  | item :: items => .expr item :: items.flatMap fun e => [.text ",", .expr e]

mutual

/-- More than the number of pieces that an expression is written in. -/
def exprWeight : Expr → Nat
  | .word _ | .string _ | .number _ => 1
  | .list items => itemsWeight items + 2
  | .binary left _ right => exprWeight left + exprWeight right + 4

/-- The weight of a list's items and of the commas between them. -/
def itemsWeight : List Expr → Nat
  | [] => 0
  | item :: items => exprWeight item + 1 + itemsWeight items

end

/-- The weight of pieces: each step of writing lowers it. -/
def weight : List Piece → Nat
  | [] => 0
  | .text _ :: ps => weight ps + 1
  | .expr e :: ps => exprWeight e + weight ps

theorem weight_append (ps qs : List Piece) : weight (ps ++ qs) = weight ps + weight qs := by
  induction ps with
  | nil => simp [weight]
  | cons p ps ih => cases p <;> simp [weight, ih] <;> omega

theorem weight_flatMap (items : List Expr) :
    weight (items.flatMap fun e => [.text ",", .expr e]) = itemsWeight items := by
  induction items with
  | nil => rfl
  | cons item items ih =>
    simp [weight, itemsWeight, ih]
    omega

theorem weight_ofItems_le (items : List Expr) : weight (ofItems items) ≤ itemsWeight items := by
  cases items with
  | nil => exact Nat.le_refl _
  | cons item items =>
    simp only [ofItems, weight, weight_flatMap, itemsWeight]
    omega

/-- Writes pieces behind what is written already. -/
def write (out : String) : List Piece → String
  | [] => out
  | .text s :: ps => write (out ++ s) ps
  | .expr (.word w) :: ps => write (out ++ Expr.bare w) ps
  | .expr (.string s) :: ps => write (out ++ Json.literal s) ps
  | .expr (.number n) :: ps => write (out ++ n) ps
  | .expr (.list items) :: ps => write (out ++ "(") (ofItems items ++ .text ")" :: ps)
  | .expr (.binary left op right) :: ps =>
    write (out ++ "(") (.expr left :: .text (Expr.infixText op) :: .expr right :: .text ")" :: ps)
termination_by ps => weight ps
decreasing_by
  · simp [weight]
  · simp [weight, exprWeight]
  · simp [weight, exprWeight]
  · simp [weight, exprWeight]
  · have := weight_ofItems_le items
    simp only [weight_append, weight, exprWeight]
    omega
  · simp only [weight, exprWeight]
    omega

end Piece

namespace Expr

/-- The filter of an expression. -/
def filter (e : Expr) : String :=
  Piece.write "" [.expr e]

end Expr

/-! ### What is written -/

namespace Piece

/-- The text that pieces stand for. -/
def textOf : List Piece → String
  | [] => ""
  | .text s :: ps => s ++ textOf ps
  | .expr e :: ps => e.text ++ textOf ps

theorem textOf_append (ps qs : List Piece) : textOf (ps ++ qs) = textOf ps ++ textOf qs := by
  induction ps with
  | nil => simp [textOf]
  | cons p ps ih => cases p <;> simp [textOf, ih, String.append_assoc]

theorem textOf_flatMap (items : List Expr) :
    textOf (items.flatMap fun e => [.text ",", .expr e]) = Expr.tailText items := by
  induction items with
  | nil => rfl
  | cons item items ih => simp [textOf, Expr.tailText, ih, String.append_assoc]

theorem textOf_ofItems (items : List Expr) : textOf (ofItems items) = Expr.itemsText items := by
  cases items with
  | nil => rfl
  | cons item items => simp [ofItems, textOf, Expr.itemsText, textOf_flatMap]

/-- Writing adds the text of the pieces to what is written already. -/
theorem write_eq (out : String) (ps : List Piece) : write out ps = out ++ textOf ps := by
  fun_induction write out ps with
  | case1 => simp [textOf]
  | case2 out s ps ih => simp [ih, textOf, String.append_assoc]
  | case3 out w ps ih => simp [ih, textOf, Expr.text, String.append_assoc]
  | case4 out s ps ih => simp [ih, textOf, Expr.text, String.append_assoc]
  | case5 out n ps ih => simp [ih, textOf, Expr.text, String.append_assoc]
  | case6 out items ps ih =>
    simp [ih, textOf, textOf_append, textOf_ofItems, Expr.text, String.append_assoc]
  | case7 out left op right ps ih => simp [ih, textOf, Expr.text, String.append_assoc]

end Piece

/-- The filter of an expression is its text. -/
theorem Expr.filter_eq (e : Expr) : e.filter = e.text := by
  simp [filter, Piece.write_eq, Piece.textOf]

end SearchFilter
