import SearchFilter.Proofs.Literal
import SearchFilter.Proofs.Regular

/-!
# Semicolons in filters

A filter has the semicolons of its string literals and no others (`semicolons_compile`), whatever
the words, blocks and numbers of the query and the fallback field hold.

Words lose their semicolons where they are written, and symbols have none; but a number is written
as it is, so that it has none is a fact about the tokens of a text.  The count is made by induction
on what the expression is built of.
-/

namespace SearchFilter

/-- The semicolons of texts, taken together. -/
def semicolons (texts : List String) : Nat := (texts.flatMap String.toList).count ';'

theorem semicolons_append (xs ys : List String) :
    semicolons (xs ++ ys) = semicolons xs + semicolons ys := by
  rw [semicolons, List.flatMap_append, List.count_append]
  rfl

theorem semicolons_singleton (text : String) : semicolons [text] = text.toList.count ';' := by
  rw [semicolons, List.flatMap_singleton]

/-- The text of an entry that is a string leaf. -/
def Entry.string? : Entry → Option String
  | .string text => some text
  | _ => none

namespace Expr

/-- The texts of the string leaves of an expression, from left to right. -/
def strings (e : Expr) : List String := e.entries.filterMap Entry.string?

theorem strings_binary (left : Expr) (op : Operator) (right : Expr) :
    strings (.binary left op right) = left.strings ++ right.strings := by
  rw [strings, entries, List.filterMap_append, List.filterMap_cons_none rfl]
  rfl

theorem strings_list (items : List Expr) : strings (.list items) = items.flatMap strings := by
  induction items with
  | nil => rfl
  | cons item items ih =>
    rw [strings, entries, itemsEntries, List.filterMap_append, List.flatMap_cons, ← ih]
    rfl

/-! ### What each part of a filter adds -/

/-- The filter of an expression has the semicolons of the expression's strings. -/
def Counted (e : Expr) : Prop := e.text.toList.count ';' = semicolons e.strings

theorem counted_word (word : String) : Counted (.word word) := by
  show (bare word).toList.count ';' = 0
  simp [bare, List.count_eq_zero]

theorem counted_string (text : String) : Counted (.string text) :=
  (Json.count_literal text).trans (semicolons_singleton text).symm

theorem counted_number {number : String} (h : Token.IsNumber number.toList) :
    Counted (.number number) := by
  refine List.count_eq_zero.mpr fun hmem => ?_
  rcases h.2.1 ';' hmem with h | h <;> cases h

theorem count_infixText (op : Operator.Kind) :
    (infixText { kind := op }).toList.count ';' = 0 := by
  cases op <;> decide

theorem counted_binary {left right : Expr} (op : Operator.Kind) (hleft : left.Counted)
    (hright : right.Counted) : Counted (.binary left { kind := op } right) := by
  rw [Counted, strings_binary, semicolons_append, ← hleft, ← hright]
  simp [toList_text_binary, List.count_append, count_infixText]

theorem count_tailText {items : List Expr} (h : ∀ e ∈ items, e.Counted) :
    (tailText items).toList.count ';' = semicolons (items.flatMap strings) := by
  induction items with
  | nil => rfl
  | cons item items ih =>
    have hitem : item.Counted := h item List.mem_cons_self
    have hitems := ih fun e he => h e (List.mem_cons_of_mem item he)
    rw [List.flatMap_cons, semicolons_append, ← hitem, ← hitems]
    simp [toList_tailText_cons, List.count_append]

theorem counted_list {items : List Expr} (h : ∀ e ∈ items, e.Counted) : Counted (.list items) := by
  rw [Counted, strings_list]
  cases items with
  | nil => rfl
  | cons item items =>
    have hitem : item.Counted := h item List.mem_cons_self
    have hitems := count_tailText fun e he => h e (List.mem_cons_of_mem item he)
    rw [List.flatMap_cons, semicolons_append, ← hitem, ← hitems]
    simp [toList_text_list, toList_itemsText_cons, List.count_append]

/-- What is built of the tokens of a text is written with the semicolons of its strings. -/
theorem Built.counted {field text : String} {e : Expr} (h : Built field (Token.lex text) e) :
    e.Counted :=
  h.elim (fun w _ => counted_word w) counted_string (fun _ => counted_number)
    (fun _ _ => counted_list) (fun _ op _ _ => counted_binary op)

end Expr

namespace Query

/-- **Semicolons survive only in string literals.** -/
theorem semicolons_compile {o : Search.Options} {text filter : String} {e : Expr}
    (hparse : parse o text = .ok e) (hcompile : compile o text = .ok filter) :
    filter.toList.count ';' = semicolons e.strings ∧
      ((∀ s ∈ e.strings, ';' ∉ s.toList) → ';' ∉ filter.toList) := by
  have hcount : filter.toList.count ';' = semicolons e.strings := by
    rw [eq_text_of_compile hparse hcompile]
    exact (Search.built_of_parse hparse).counted
  refine ⟨hcount, fun hnone => ?_⟩
  rw [← List.count_eq_zero, hcount]
  refine List.count_eq_zero.mpr fun hmem => ?_
  obtain ⟨s, hs, hsemicolon⟩ := List.mem_flatMap.mp hmem
  exact hnone s hs hsemicolon

/-- Of the semicolons that are not in a string, one begins a word, one is escaped, one stands in a
block and one in the fallback field. -/
theorem semicolons_compile_everywhere :
    let e : Expr :=
      .binary (.binary (.word ";a;") { kind := .and } (.list [.word "b;", .string "c;"]))
        { kind := .or } (.fallback "t;" ";;")
    let filter := "((a AND (b,\"c;\")) OR (t LIKE \";;\"))"
    parse { fallbackField := "t;" } ";a\\; & {b;} : 'c;' | ';;'" = .ok e ∧
      compile { fallbackField := "t;" } ";a\\; & {b;} : 'c;' | ';;'" = .ok filter ∧
      filter.toList.count ';' = semicolons e.strings := by
  intro e filter
  have hparse : parse { fallbackField := "t;" } ";a\\; & {b;} : 'c;' | ';;'" = .ok e := by
    decide +kernel
  have hcompile : compile { fallbackField := "t;" } ";a\\; & {b;} : 'c;' | ';;'" = .ok filter := by
    decide +kernel
  exact ⟨hparse, hcompile, (semicolons_compile hparse hcompile).1⟩

end Query

end SearchFilter
