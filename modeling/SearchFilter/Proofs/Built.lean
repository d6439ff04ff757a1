import SearchFilter.Proofs.Provenance

/-!
# What an expression is built of

Reading puts expressions together in four ways: a token is a leaf, items are a list, a token joins
two sides, and a term is looked for in the fallback field.  `Expr.Built` has a constructor for each,
so what holds of every expression that a search reads is proved by one induction over it.

Each rule of reading keeps it, for what a call has put together before and for what it reads
(`Reads.built`); so the expression of a whole search is built of its tokens (`built_of_parse`).
-/

namespace SearchFilter

/-! ### Built expressions -/

/-- `e` is built of the tokens `ts`, with `field` for the fallback field.  A list has an item, no
operator is negated, and the term of a fallback search is the text of a leaf or empty. -/
inductive Expr.Built (field : String) (ts : List Token) : Expr → Prop where
  | leaf {t : Token} {e : Expr} (ht : t ∈ ts) (he : ofToken? t = some e) : Built field ts e
  | list {first : Expr} {others : List Expr} (h : ∀ e ∈ first :: others, Built field ts e) :
      Built field ts (.list (first :: others))
  | binary {left right : Expr} {op : Operator.Kind} {t : Token} (ht : t ∈ ts)
      (hop : t.kind.comparison? = some op ∨ t.kind.logic? = some op)
      (hleft : Built field ts left) (hright : Built field ts right) :
      Built field ts (.binary left { kind := op } right)
  | fallback {term : String}
      (h : term = "" ∨ ∃ t ∈ ts, t.kind.isLeaf = true ∧ t.text = term) :
      Built field ts (.fallback field term)

namespace Expr

variable {field : String} {ts : List Token} {first : Expr} {others : List Expr}

/-- The leaf of a token, for each class of leaves. -/
theorem ofToken?_cases {t : Token} {e : Expr} (h : ofToken? t = some e) :
    (t.kind = .word ∨ t.kind = .preserved) ∧ e = .word t.text ∨
      t.kind = .quoted ∧ e = .string t.text ∨ t.kind = .number ∧ e = .number t.text := by
  obtain ⟨kind, text⟩ := t
  cases kind <;> simp_all [ofToken?]

/-- Colon-joined items are built of the tokens that the items are built of. -/
theorem built_ofItems :
    Built field ts (ofItems first others) ↔ ∀ e ∈ first :: others, Built field ts e := by
  cases others with
  | nil => simp [ofItems]
  | cons other others =>
    refine ⟨fun h => ?_, Built.list⟩
    cases h with
    | leaf _ he => rcases ofToken?_cases he with ⟨-, he⟩ | ⟨-, he⟩ | ⟨-, he⟩ <;> cases he
    | list h => exact h

/-- Items gathered in reverse, with one more behind them. -/
theorem built_ofItems_reverse_cons {e : Expr} (h : Built field ts (ofItems first others.reverse))
    (he : Built field ts e) : Built field ts (ofItems first (e :: others).reverse) := by
  rw [built_ofItems] at h
  rw [ofItems_reverse_cons]
  refine .list fun e' he' => ?_
  rcases List.mem_append.mp (show e' ∈ (first :: others.reverse) ++ [e] from he') with h' | h'
  · exact h e' h'
  · rwa [List.mem_singleton.mp h']

/-- Where nothing is carried, all of it is built. -/
theorem built_none : ∀ e ∈ (none : Option Expr), Built field ts e := nofun

/-- Two conditions joined, or the one of them that is there. -/
theorem built_join {left right : Option Expr} {op : Operator.Kind} {t : Token} (ht : t ∈ ts)
    (hop : t.kind.logic? = some op) (hleft : ∀ e ∈ left, Built field ts e)
    (hright : ∀ e ∈ right, Built field ts e) : ∀ e ∈ join op left right, Built field ts e := by
  intro e he
  match left, right with
  | some l, some r =>
    cases he
    exact .binary ht (.inr hop) (hleft l rfl) (hright r rfl)
  | some l, none => exact hleft e he
  | none, _ => exact hright e he

end Expr

namespace Search

open SearchFilter.Expr (Built)

variable {field : String} {limit : Nat} {ts : List Token} {call : Call}
  {r : Reading (Option Expr)}

/-- **Every rule of reading builds of the tokens at hand**, if what the call carries is built of
them. -/
theorem Reads.built (h : Reads ⟨field, limit⟩ call r) :
    call.start.rest ⊆ ts → (∀ e ∈ call.carried, Built field ts e) →
      ∀ e, r.value = .ok (some e) → Built field ts e := by
  induction h with
  | noItem _ | badItem _ _ _ | badValue _ _ _ | lastOperator _ | badOperand _ _ _ _
  | badFirst _ _ _ => exact fun _ _ e he => by cases he
  | @leaf c t us e h ht =>
    intro hts _ e' he
    cases he
    refine .leaf (hts ?_) ht
    refine (Cursor.rest_skipParens_suffix limit c).subset ?_
    rw [h]
    exact List.mem_cons_self
  | group _ _ _ ih => exact fun hts _ => ih (List.subset_of_cons_subset hts) Expr.built_none
  | noValue _ h _ | noCondition _ _ h _ => exact fun _ _ e he => absurd he (h e)
  | value first _ ih₁ ih₂ | condition _ first _ ih₁ ih₂ =>
    intro hts _
    refine ih₂ (List.Subset.trans first.suffix.subset hts) fun e he => ?_
    cases he
    exact ih₁ hts Expr.built_none _ rfl
  | lastItem _ | lastValue _ | searchEnd | closed _ =>
    intro _ hcarried e he
    cases he
    exact hcarried _ rfl
  | nextItem _ item _ ih₁ ih₂ =>
    intro hts hcarried
    have hus := List.subset_of_cons_subset hts
    refine ih₂ (List.Subset.trans item.suffix.subset hus) fun e he => ?_
    cases he
    exact Expr.built_ofItems_reverse_cons (hcarried _ rfl) (ih₁ hus Expr.built_none _ rfl)
  | trailingColon _ _ _ =>
    intro _ hcarried e he
    cases he
    have hitems := Expr.built_ofItems.mp (hcarried _ rfl)
    exact .list hitems
  | @fallback c t h =>
    intro hts _ e he
    cases he
    obtain ⟨hrest, hleaf⟩ := lastLeaf?_eq_some_iff.mp h
    replace hrest : c.rest = [t] := hrest
    exact .fallback (.inr ⟨t, hts (by simp [Call.start, hrest]), hleaf, rfl⟩)
  | nextValue ht right _ ih₁ ih₂ =>
    intro hts hcarried
    have hus := List.subset_of_cons_subset hts
    refine ih₂ (List.Subset.trans right.suffix.subset hus) fun e he => ?_
    cases he
    exact .binary (hts List.mem_cons_self) (.inl ht) (hcarried _ rfl)
      (ih₁ hus Expr.built_none _ rfl)
  | droppedComparison _ _ _ =>
    intro _ hcarried e he
    cases he
    exact hcarried _ rfl
  | joined ht _ operand _ ih₁ ih₂ =>
    intro hts hcarried
    have hus := List.subset_of_cons_subset hts
    refine ih₂ (List.Subset.trans operand.suffix.subset hus) ?_
    refine Expr.built_join (hts List.mem_cons_self) ht hcarried fun e he => ?_
    cases he
    exact ih₁ hus Expr.built_none _ rfl
  | first _ operand _ ih₁ ih₂ =>
    intro hts _
    refine ih₂ (List.Subset.trans operand.suffix.subset hts) fun e he => ?_
    cases he
    exact ih₁ hts Expr.built_none _ rfl
  | passed _ _ _ _ ih => exact fun hts hcarried => ih (List.subset_of_cons_subset hts) hcarried

/-- **What a search reads is built of its tokens.** -/
theorem built_of_parse {o : Options} {e : Expr} (h : parse o ts = .ok e) :
    Built o.fallbackField ts e := by
  have hreads := reads_reading o (.search false none ⟨ts, 0⟩)
  rw [hreads.parse_eq_map] at h
  generalize (Call.search false none ⟨ts, 0⟩).reading o = r at h hreads
  obtain ⟨v, next⟩ := r
  match v, h with
  | .ok none, h =>
    cases h
    exact .fallback (.inl rfl)
  | .ok (some e), h =>
    cases h
    exact hreads.built (List.Subset.refl _) Expr.built_none e rfl

end Search

end SearchFilter
