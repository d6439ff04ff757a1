import SearchFilter.Proofs.Built
import SearchFilter.Proofs.Cut
import SearchFilter.Query

/-!
# What the expression of a query is at each node

An expression that a query's text means is `Regular` at each of its nodes (`parse_regular`): lists
have items, operators are plain and not arithmetic, and numbers are digits with at most one point.
Its comparisons agree in their form over the whole expression, since one character of the text, the
second, decides whether they are wide.

Reading builds an expression of tokens (`built_of_parse`), so this is a fact about the tokens of a
text: each is spelled in it (`exists_spells_of_mem_lex`), and the rules of spelling say which
comparisons a wide text has and what the text of a number is.  Other facts about the expressions of
queries need no more of the tokens than this (`Expr.Built.elim`).
-/

namespace SearchFilter

/-! ### Tokens of a text -/

namespace Token

/-- The comparisons that are not spelled: the narrow ones in a wide text, and the other way
round. -/
def unspelled (wide : Bool) : List Kind :=
  if wide then [.lt, .gt] else [.le, .ge]

variable {wide : Bool} {span rest : List Char} {t : Token} {text : String}

theorem not_mem_unspelled_of_isLeaf {k : Kind} (hk : k.isLeaf = true) : k ∉ unspelled wide := by
  revert hk
  cases k <;> cases wide <;> decide

theorem Spells.kind_not_mem (h : Spells wide span rest t) : t.kind ∉ unspelled wide := by
  have hmarks : ∀ p ∈ marks, ∀ wide, p.2 ∉ unspelled wide := by decide
  have hshort : ∀ p ∈ shortComparisons, p.2.kind ∉ unspelled false := by decide
  have hwide : ∀ p ∈ wideComparisons, p.2.kind ∉ unspelled true := by decide
  cases h with
  | mark h => exact hmarks _ h wide
  | short hw h => exact hw ▸ hshort _ h
  | wide hw h | wideAtEnd hw h => exact hw ▸ hwide _ h
  | quoted _ _ | openQuote _ _ | block _ | openBlock _ | number _ _ | word _ _ _ _ | semicolon _ =>
    exact not_mem_unspelled_of_isLeaf rfl

/-- A number is spelled as its text. -/
theorem Spells.isNumber (h : Spells wide span rest t) (ht : t.kind = .number) :
    IsNumber t.text.toList := by
  have hmarks : ∀ p ∈ marks, p.2 ≠ .number := by decide
  have hshort : ∀ p ∈ shortComparisons, p.2.kind ≠ .number := by decide
  have hwide : ∀ p ∈ wideComparisons, p.2.kind ≠ .number := by decide
  cases h with
  | number h _ => rwa [String.toList_ofList]
  | mark h => exact absurd ht (hmarks _ h)
  | short _ h => exact absurd ht (hshort _ h)
  | wide _ h | wideAtEnd _ h => exact absurd ht (hwide _ h)
  | quoted _ _ | openQuote _ _ | block _ | openBlock _ | word _ _ _ _ | semicolon _ => cases ht

/-- The number tokens of a text are numbers. -/
theorem isNumber_of_mem_lex (ht : t ∈ lex text) (hk : t.kind = .number) :
    IsNumber t.text.toList := by
  obtain ⟨span, rest, hspells⟩ := exists_spells_of_mem_lex ht
  exact hspells.isNumber hk

/-- A text has comparisons of one form only. -/
theorem kind_not_mem_of_mem_lex (ht : t ∈ lex text) : t.kind ∉ unspelled (isWide text.toList) := by
  obtain ⟨span, rest, hspells⟩ := exists_spells_of_mem_lex ht
  exact hspells.kind_not_mem

end Token

/-! ### Nodes -/

namespace Expr

mutual

/-- An expression and all expressions in it, each in front of its parts. -/
def nodes : Expr → List Expr
  | .word text => [.word text]
  | .string text => [.string text]
  | .number text => [.number text]
  | .list items => .list items :: itemsNodes items
  | .binary left op right => .binary left op right :: (left.nodes ++ right.nodes)

/-- All expressions in the items of a list. -/
def itemsNodes : List Expr → List Expr
  | [] => []
  | item :: items => item.nodes ++ itemsNodes items

end

theorem mem_itemsNodes {n : Expr} {items : List Expr} :
    n ∈ itemsNodes items ↔ ∃ e ∈ items, n ∈ e.nodes := by
  induction items with
  | nil => simp [itemsNodes]
  | cons item items ih => simp [itemsNodes, ih]

/-- The operators that a query can have, with comparisons of one form. -/
def queryOperators (wide : Bool) : List Operator.Kind :=
  [.eq, .similar, .member, .and, .or] ++ if wide then [.le, .ge] else [.lt, .gt]

/-- What a node of a query's expression is: a list has an item, an operator is plain and one that a
query can have, and a number is digits with at most one point behind the first. -/
def Regular (wide : Bool) : Expr → Prop
  | .word _ | .string _ => True
  | .number text => Token.IsNumber text.toList
  | .list items => items ≠ []
  | .binary _ op _ => op.negate = false ∧ op.kind ∈ queryOperators wide

theorem mem_queryOperators {k : Token.Kind} {op : Operator.Kind} {wide : Bool}
    (hk : k ∉ Token.unspelled wide) (hop : k.comparison? = some op ∨ k.logic? = some op) :
    op ∈ queryOperators wide := by
  revert hk hop
  cases k <;> cases op <;> cases wide <;> decide

/-- What holds of every expression that is built of the tokens of a text, if it holds of the leaves
that the text can have and is kept by its lists and operators. -/
@[elab_as_elim]
theorem Built.elim {motive : Expr → Prop} {field text : String} {e : Expr}
    (h : Built field (Token.lex text) e)
    (word : ∀ w, (w = field ∨ ∃ t ∈ Token.lex text,
      (t.kind = .word ∨ t.kind = .preserved) ∧ t.text = w) → motive (.word w))
    (string : ∀ s, motive (.string s))
    (number : ∀ n, Token.IsNumber n.toList → motive (.number n))
    (list : ∀ first others, (∀ e ∈ first :: others, motive e) → motive (.list (first :: others)))
    (binary : ∀ left op right, op ∈ queryOperators (Token.isWide text.toList) → motive left →
      motive right → motive (.binary left { kind := op } right)) : motive e := by
  induction h with
  | leaf ht he =>
    rcases ofToken?_cases he with ⟨hk, rfl⟩ | ⟨-, rfl⟩ | ⟨hk, rfl⟩
    · exact word _ (.inr ⟨_, ht, hk, rfl⟩)
    · exact string _
    · exact number _ (Token.isNumber_of_mem_lex ht hk)
  | list _ ih => exact list _ _ ih
  | binary ht hop _ _ ihleft ihright =>
    exact binary _ _ _ (mem_queryOperators (Token.kind_not_mem_of_mem_lex ht) hop) ihleft ihright
  | fallback _ =>
    exact binary _ _ _ (List.mem_append_left _ (by decide)) (word field (.inl rfl)) (string _)

/-- What is built of the tokens of a text is regular at each node. -/
theorem Built.regular {field text : String} {e : Expr} (h : Built field (Token.lex text) e) :
    ∀ n ∈ e.nodes, n.Regular (Token.isWide text.toList) := by
  refine h.elim (fun w _ => ?_) (fun s => ?_) (fun number hnumber => ?_)
    (fun first others ih n hn => ?_) (fun left op right hop hleft hright n hn => ?_)
  · simp [nodes, Regular]
  · simp [nodes, Regular]
  · simpa [nodes, Regular] using hnumber
  · rcases List.mem_cons.mp hn with rfl | hn
    · exact List.cons_ne_nil _ _
    · obtain ⟨e, he, hn⟩ := mem_itemsNodes.mp hn
      exact ih e he n hn
  · rcases List.mem_cons.mp hn with rfl | hn
    · exact ⟨rfl, hop⟩
    · exact (List.mem_append.mp hn).elim (hleft n) (hright n)

end Expr

namespace Query

/-- **The expression of a query is regular.** -/
theorem parse_regular {o : Search.Options} {text : String} {e : Expr}
    (h : parse o text = .ok e) :
    ∀ n ∈ e.nodes, n.Regular (decide (text.toList[1]? = some '=')) := by
  rw [← Token.isWide_eq]
  exact (Search.built_of_parse h).regular

/-- A text whose second character is an equals sign: its comparisons are wide, and each takes one
more character with it. -/
theorem parse_regular_wide :
    let e : Expr := .binary (.binary (.binary (.word "x") { kind := .eq } (.list [.number "1.5"]))
      { kind := .and } (.binary (.word "y") { kind := .le } (.word "z")))
      { kind := .or } (.fallback "en_title" ";")
    parse {} "x=  1.5 : & y <  z | ;" = .ok e ∧ ∀ n ∈ e.nodes, n.Regular true := by
  intro e
  have h : parse {} "x=  1.5 : & y <  z | ;" = .ok e := by decide +kernel
  have hwide : decide ("x=  1.5 : & y <  z | ;".toList[1]? = some '=') = true := by decide
  exact ⟨h, hwide ▸ parse_regular h⟩

end Query

end SearchFilter
