import SearchFilter.Search

/-!
# The grammar of searches

A search as the language documents it, with the text of every token:

```text
search     ::= condition | search (and | or) condition
condition  ::= value | condition comparison value
value      ::= items | items :
items      ::= item | items : item
item       ::= word | preserved | quoted | number | ( search )
```

Each level is a type, and a derivation is one of its values.  A derivation has the tokens that it
derives, the expression that it means, and a nesting: how many of its groups stand inside one
another.  Chains lean to the left, in the derivation as in the expression.
-/

namespace SearchFilter.Grammar

/-- What compares two values. -/
inductive Comparison where
  | eq | lt | le | gt | ge | similar | member
  deriving DecidableEq, Repr

/-- The kind of a comparison's token. -/
def Comparison.kind : Comparison → Token.Kind
  | .eq => .eq
  | .lt => .lt
  | .le => .le
  | .gt => .gt
  | .ge => .ge
  | .similar => .similar
  | .member => .member

/-- The operator that a comparison stands for. -/
def Comparison.operator : Comparison → Operator.Kind
  | .eq => .eq
  | .lt => .lt
  | .le => .le
  | .gt => .gt
  | .ge => .ge
  | .similar => .similar
  | .member => .member

/-- What joins two conditions. -/
inductive Logic where
  | and | or
  deriving DecidableEq, Repr

/-- The kind of a logic operator's token. -/
def Logic.kind : Logic → Token.Kind
  | .and => .and
  | .or => .or

/-- The operator that a logic operator stands for. -/
def Logic.operator : Logic → Operator.Kind
  | .and => .and
  | .or => .or

@[simp]
theorem Comparison.comparison?_kind (op : Comparison) : op.kind.comparison? = some op.operator := by
  cases op <;> rfl

@[simp]
theorem Logic.logic?_kind (op : Logic) : op.kind.logic? = some op.operator := by
  cases op <;> rfl

/-! ### Derivations -/

mutual

/-- A leaf, or a search in parentheses. -/
inductive Item where
  | word (text : String)
  | preserved (text : String)
  | quoted (text : String)
  | number (text : String)
  | group (opening : String) (inner : Search) (closing : String)

/-- Items with colons between them. -/
inductive Items where
  | one (item : Item)
  | more (items : Items) (colon : String) (item : Item)

/-- Items, and perhaps a colon behind them. -/
inductive Value where
  | plain (items : Items)
  | trailing (items : Items) (colon : String)

/-- Values with comparisons between them. -/
inductive Condition where
  | one (value : Value)
  | more (condition : Condition) (op : Comparison) (text : String) (value : Value)

/-- Conditions with logic operators between them. -/
inductive Search where
  | one (condition : Condition)
  | more (search : Search) (op : Logic) (text : String) (condition : Condition)

end

/-! ### The tokens of a derivation -/

mutual

/-- The tokens of an item. -/
def Item.tokens : Item → List Token
  | .word text => [⟨.word, text⟩]
  | .preserved text => [⟨.preserved, text⟩]
  | .quoted text => [⟨.quoted, text⟩]
  | .number text => [⟨.number, text⟩]
  | .group opening inner closing =>
    ⟨.lparen, opening⟩ :: (inner.tokens ++ [⟨.rparen, closing⟩])

/-- The tokens of items and of the colons between them. -/
def Items.tokens : Items → List Token
  | .one item => item.tokens
  | .more items colon item => items.tokens ++ ⟨.colon, colon⟩ :: item.tokens

/-- The tokens of a value. -/
def Value.tokens : Value → List Token
  | .plain items => items.tokens
  | .trailing items colon => items.tokens ++ [⟨.colon, colon⟩]

/-- The tokens of a condition. -/
def Condition.tokens : Condition → List Token
  | .one value => value.tokens
  | .more condition op text value => condition.tokens ++ ⟨op.kind, text⟩ :: value.tokens

/-- The tokens of a search. -/
def Search.tokens : Search → List Token
  | .one condition => condition.tokens
  | .more search op text condition => search.tokens ++ ⟨op.kind, text⟩ :: condition.tokens

end

/-! ### The nesting of a derivation -/

mutual

/-- How many groups of an item stand inside one another. -/
def Item.nesting : Item → Nat
  | .word _ | .preserved _ | .quoted _ | .number _ => 0
  | .group _ inner _ => inner.nesting + 1

/-- The deepest nesting among items. -/
def Items.nesting : Items → Nat
  | .one item => item.nesting
  | .more items _ item => max items.nesting item.nesting

/-- The deepest nesting in a value. -/
def Value.nesting : Value → Nat
  | .plain items => items.nesting
  | .trailing items _ => items.nesting

/-- The deepest nesting in a condition. -/
def Condition.nesting : Condition → Nat
  | .one value => value.nesting
  | .more condition _ _ value => max condition.nesting value.nesting

/-- The deepest nesting in a search. -/
def Search.nesting : Search → Nat
  | .one condition => condition.nesting
  | .more search _ _ condition => max search.nesting condition.nesting

end

/-! ### The meaning of a derivation -/

/-- What items without a trailing colon mean: one alone is itself, and any others are a list. -/
def single : List Expr → Expr
  | [e] => e
  | es => .list es

mutual

/-- The expression of an item; a group is what stands in it. -/
def Item.tree : Item → Expr
  | .word text | .preserved text => .word text
  | .quoted text => .string text
  | .number text => .number text
  | .group _ inner _ => inner.tree

/-- The expressions of items, in order. -/
def Items.trees : Items → List Expr
  | .one item => [item.tree]
  | .more items _ item => items.trees ++ [item.tree]

/-- The expression of a value. -/
def Value.tree : Value → Expr
  | .plain items => single items.trees
  | .trailing items _ => .list items.trees

/-- The expression of a condition, folded to the left. -/
def Condition.tree : Condition → Expr
  | .one value => value.tree
  | .more condition op _ value => .binary condition.tree { kind := op.operator } value.tree

/-- The expression of a search, folded to the left. -/
def Search.tree : Search → Expr
  | .one condition => condition.tree
  | .more search op _ condition => .binary search.tree { kind := op.operator } condition.tree

end

/-- The text of an item that is a leaf. -/
def Item.leafText? : Item → Option String
  | .word text | .preserved text | .quoted text | .number text => some text
  | .group _ _ _ => none

/-- The text of a condition that is one single leaf: no group, no colon and no comparison. -/
def Condition.leafText? : Condition → Option String
  | .one (.plain (.one item)) => item.leafText?
  | _ => none

/-- The expression of a condition at the end: one single leaf is looked for in a field. -/
def Condition.lastTree (field : String) (condition : Condition) : Expr :=
  match condition.leafText? with
  | some text => .fallback field text
  | none => condition.tree

/-- The expression of a whole search: its last condition stands at the end. -/
def Search.wholeTree (field : String) : Search → Expr
  | .one condition => condition.lastTree field
  | .more search op _ condition =>
    .binary search.tree { kind := op.operator } (condition.lastTree field)

end SearchFilter.Grammar
