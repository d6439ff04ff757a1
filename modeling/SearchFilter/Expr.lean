import SearchFilter.Token

/-!
# Expressions

What a search means: leaves of three classes, lists, and operators between two expressions.

A search without an operator looks for its one term in a field that was chosen beforehand; that
reading is `Expr.fallback`.  Equality of expressions is decided by comparing them node by node.
-/

namespace SearchFilter

/-- A parsed search.  A number keeps the text it was written with. -/
inductive Expr where
  | word (text : String)
  | string (text : String)
  | number (text : String)
  | list (items : List Expr)
  | binary (left : Expr) (op : Operator) (right : Expr)
  deriving Repr, Inhabited

namespace Expr

/-- The search for a term in a field. -/
def fallback (field term : String) : Expr :=
  .binary (.word field) { kind := .similar } (.string term)

/-- The leaf that a token writes, if its kind is a leaf. -/
def ofToken? (t : Token) : Option Expr :=
  match t.kind with
  | .quoted => some (.string t.text)
  | .number => some (.number t.text)
  | .word | .preserved => some (.word t.text)
  | _ => none

theorem isSome_ofToken? (t : Token) : (ofToken? t).isSome = t.kind.isLeaf := by
  unfold ofToken?
  cases t.kind <;> rfl

/-- The value of colon-joined items: one item alone is itself, and several are a list. -/
def ofItems (first : Expr) : List Expr → Expr
  | [] => first
  | others => .list (first :: others)

/-- Two conditions joined by an operator.  Where one is missing the operator is dropped. -/
def join (op : Operator.Kind) : Option Expr → Option Expr → Option Expr
  | some left, some right => some (.binary left { kind := op } right)
  | some left, none => some left
  | none, right => right

/-! ### Equality -/

mutual

/-- Two expressions are the same node by node. -/
def same : Expr → Expr → Bool
  | .word s, .word t => s == t
  | .string s, .string t => s == t
  | .number s, .number t => s == t
  | .list as, .list bs => sameItems as bs
  | .binary l₁ op₁ r₁, .binary l₂ op₂ r₂ => op₁ == op₂ && same l₁ l₂ && same r₁ r₂
  | _, _ => false

/-- Two lists of expressions are the same item by item. -/
def sameItems : List Expr → List Expr → Bool
  | [], [] => true
  | a :: as, b :: bs => same a b && sameItems as bs
  | _, _ => false

end

mutual

theorem same_iff : ∀ a b : Expr, same a b = true ↔ a = b
  | .word _, b | .string _, b | .number _, b => by cases b <;> simp [same]
  | .list as, b => by
    cases b with
    | list bs => simp [same, sameItems_iff as bs]
    | _ => simp [same]
  | .binary l₁ op₁ r₁, b => by
    cases b with
    | binary l₂ op₂ r₂ => simp [same, same_iff l₁ l₂, same_iff r₁ r₂, and_assoc, and_left_comm]
    | _ => simp [same]

theorem sameItems_iff : ∀ as bs : List Expr, sameItems as bs = true ↔ as = bs
  | [], bs => by cases bs <;> simp [sameItems]
  | a :: as, bs => by
    cases bs with
    | nil => simp [sameItems]
    | cons b bs => simp [sameItems, same_iff a b, sameItems_iff as bs]

end

instance : DecidableEq Expr := fun a b =>
  decidable_of_iff (same a b = true) (same_iff a b)

end Expr

end SearchFilter
