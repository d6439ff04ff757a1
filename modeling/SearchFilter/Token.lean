import SearchFilter.Operator

/-!
# Tokens

The words of the query language: a kind, and the text that was written for it.

Kinds fall into classes by the place they may take in a search.  A *leaf* stands for a value; an
*atom* begins a value, so it is a leaf or an opening parenthesis; comparisons and logic operators
join values.  Which operator a kind stands for is told apart from the classes, and of arithmetic
too, which joins nothing in a search.  The two tables agree: a kind of a joining class has an
operator (`isSome_operator?`), so that whoever asks whether a token joins two expressions also
learns how.
-/

namespace SearchFilter

/-- The kinds of token. -/
inductive Token.Kind where
  | word | quoted | number | preserved
  | similar | eq | lt | le | gt | ge | member
  | and | or | not
  | mul | div | sub | plus
  | colon | lparen | rparen
  deriving DecidableEq, Repr, Inhabited

/-- A kind with its text.  For an operator the text is the symbol as written; for quoted text and
preserved blocks it is what stands between the delimiters. -/
structure Token where
  kind : Token.Kind
  text : String
  deriving DecidableEq, Repr, Inhabited

namespace Token.Kind

/-- All kinds of token. -/
def all : List Kind :=
  [.word, .quoted, .number, .preserved, .similar, .eq, .lt, .le, .gt, .ge, .member, .and, .or,
    .not, .mul, .div, .sub, .plus, .colon, .lparen, .rparen]

/-- The name of a kind in a written token. -/
def name : Kind → String
  | .word => "Word"
  | .quoted => "QuotedString"
  | .number => "Number"
  | .preserved => "Preserved"
  | .similar => "Similar"
  | .eq => "Eq"
  | .lt => "Lt"
  | .le => "Le"
  | .gt => "Gt"
  | .ge => "Ge"
  | .member => "In"
  | .and => "And"
  | .or => "Or"
  | .not => "Not"
  | .mul => "Mul"
  | .div => "Div"
  | .sub => "Sub"
  | .plus => "Plus"
  | .colon => "Colon"
  | .lparen => "LParen"
  | .rparen => "RParen"

/-- The kind with the given name. -/
def ofName? (name : String) : Option Kind :=
  all.find? (·.name = name)

theorem mem_all (k : Kind) : k ∈ all := by
  cases k <;> decide

theorem name_injective {j k : Kind} (h : j.name = k.name) : j = k := by
  revert h
  cases j <;> cases k <;> decide

/-! ### Classes -/

/-- The kinds that stand for a value by themselves. -/
def isLeaf : Kind → Bool
  | .word | .quoted | .number | .preserved => true
  | _ => false

/-- The kinds that begin a value: the leaves, and the parenthesis that opens a group. -/
def isAtom : Kind → Bool
  | .word | .quoted | .number | .preserved | .lparen => true
  | _ => false

/-- The kinds that compare two values. -/
def isComparison : Kind → Bool
  | .lt | .gt | .le | .ge | .eq | .similar | .member => true
  | _ => false

/-- The kinds that join two conditions. -/
def isLogic : Kind → Bool
  | .and | .or => true
  | _ => false

/-! ### Operators -/

/-- The operator that a kind stands for, of whichever class. -/
def operator? : Kind → Option Operator.Kind
  | .eq => some .eq
  | .lt => some .lt
  | .le => some .le
  | .gt => some .gt
  | .ge => some .ge
  | .similar => some .similar
  | .member => some .member
  | .and => some .and
  | .or => some .or
  | .mul => some .mul
  | .div => some .div
  | .sub => some .sub
  | .plus => some .plus
  | _ => none

/-- The operator of a kind that compares two values. -/
def comparison? (k : Kind) : Option Operator.Kind :=
  if k.isComparison then k.operator? else none

/-- The operator of a kind that joins two conditions. -/
def logic? (k : Kind) : Option Operator.Kind :=
  if k.isLogic then k.operator? else none

/-- A kind that joins two expressions, of either class, stands for an operator. -/
theorem isSome_operator? {k : Kind} (h : k.isComparison = true ∨ k.isLogic = true) :
    k.operator?.isSome = true := by
  revert h
  cases k <;> decide

theorem isSome_comparison? (k : Kind) : k.comparison?.isSome = k.isComparison := by
  cases h : k.isComparison with
  | true => rw [comparison?, if_pos h, isSome_operator? (.inl h)]
  | false => simp [comparison?, h]

theorem isSome_logic? (k : Kind) : k.logic?.isSome = k.isLogic := by
  cases h : k.isLogic with
  | true => rw [logic?, if_pos h, isSome_operator? (.inr h)]
  | false => simp [logic?, h]

theorem operator?_of_comparison? {k : Kind} {op : Operator.Kind} (h : k.comparison? = some op) :
    k.operator? = some op :=
  (Option.ite_none_right_eq_some.mp h).2

theorem operator?_of_logic? {k : Kind} {op : Operator.Kind} (h : k.logic? = some op) :
    k.operator? = some op :=
  (Option.ite_none_right_eq_some.mp h).2

theorem isComparison_of_comparison? {k : Kind} {op : Operator.Kind}
    (h : k.comparison? = some op) : k.isComparison = true :=
  (Option.ite_none_right_eq_some.mp h).1

theorem isLogic_of_logic? {k : Kind} {op : Operator.Kind} (h : k.logic? = some op) :
    k.isLogic = true :=
  (Option.ite_none_right_eq_some.mp h).1

theorem isLogic_eq_false {k : Kind} (h : k.logic? = none) : k.isLogic = false := by
  rw [← isSome_logic?, h]
  rfl

theorem isAtom_eq (k : Kind) : k.isAtom = (k.isLeaf || k == .lparen) := by
  cases k <;> rfl

end Token.Kind

end SearchFilter
