import SearchFilter.Expr.Filter
import SearchFilter.Proofs.Literal
import SearchFilter.Proofs.Runs

/-!
# Filters are read in one way

Different expressions are written as different filters (`Expr.filter_inj`), where every leaf shows
what it is: words hold no mark of the filter language and begin with no digit, and numbers hold
digits and points.  Quoted text is arbitrary, and so are lists.  Only plain operators are allowed,
since a negated one may have the symbol of another.

In front of an operator, a comma or a closing parenthesis, the end of every expression can be told
from the characters alone (`Expr.text_append_inj`): by induction the filter of an operand or an item
ends in one place, and its first character tells the class of the node (`Expr.lead`).
-/

namespace SearchFilter

/-! ### Symbols -/

/-- Text of one class of characters, in front of characters of another class, ends in one place. -/
theorem run_append_inj {p : Char → Bool} {x y r s : List Char} (hx : ∀ c ∈ x, p c = true)
    (hy : ∀ c ∈ y, p c = true) (hr : ∀ c ∈ r.head?, p c = false) (hs : ∀ c ∈ s.head?, p c = false)
    (h : x ++ r = y ++ s) : x = y ∧ r = s := by
  obtain ⟨htake, hdrop⟩ := Token.takeWhile_run hx hr
  obtain ⟨htake', hdrop'⟩ := Token.takeWhile_run hy hs
  exact ⟨by rw [← htake, h, htake'], by rw [← hdrop, h, hdrop']⟩

namespace Expr

/-- The symbol of a plain operator tells the operator, and ends at the next space. -/
theorem infixText_append_inj {op op' : Operator} {r s : List Char} (hop : op.negate = false)
    (hop' : op'.negate = false) (h : (infixText op).toList ++ r = (infixText op').toList ++ s) :
    op = op' ∧ r = s := by
  obtain ⟨kind, negate⟩ := op
  obtain ⟨kind', negate'⟩ := op'
  obtain rfl : negate = false := hop
  obtain rfl : negate' = false := hop'
  have spaceless (k : Operator.Kind) : k.symbol.toList.all (· ≠ ' ') = true := by
    cases k <;> decide
  simp only [toList_infixText, Operator.symbol_plain, List.cons_append, List.append_assoc,
    List.nil_append, List.cons.injEq, true_and] at h
  obtain ⟨hsymbol, hrest⟩ := run_append_inj (List.all_eq_true.mp (spaceless kind))
    (List.all_eq_true.mp (spaceless kind')) (by rintro c ⟨⟩; rfl) (by rintro c ⟨⟩; rfl) h
  obtain rfl := Operator.Kind.symbol_injective (String.toList_injective hsymbol)
  exact ⟨rfl, List.tail_eq_of_cons_eq hrest⟩

/-! ### Expressions that a filter shows -/

/-- A mark that a word may not hold. -/
def isMark (c : Char) : Bool :=
  c = ';' || c = '(' || c = ')' || c = ',' || c = '"' || c = ' '

/-- A word that a filter shows as it is, and that is no other leaf. -/
structure PlainWord (word : String) : Prop where
  starts : ∃ c ∈ word.toList.head?, c.isDigit = false
  plain : ∀ c ∈ word.toList, isMark c = false

/-- Digits and points, beginning with a digit. -/
structure PlainNumber (number : String) : Prop where
  starts : ∃ c ∈ number.toList.head?, c.isDigit = true
  plain : ∀ c ∈ number.toList, (c.isDigit || c = '.') = true

-- The instances say how to look through a text: there are too many characters to try them all.
instance (word : String) : Decidable (PlainWord word) :=
  decidable_of_iff (word.toList.head?.any (!·.isDigit) = true ∧ word.toList.all (!isMark ·) = true)
    ⟨fun h => ⟨by simpa [Option.any_eq_true] using h.1, by simpa using h.2⟩,
      fun h => ⟨by simpa [Option.any_eq_true] using h.starts, by simpa using h.plain⟩⟩

instance (number : String) : Decidable (PlainNumber number) :=
  decidable_of_iff (number.toList.head?.any Char.isDigit = true ∧
      number.toList.all (fun c => c.isDigit || c = '.') = true)
    ⟨fun h => ⟨by simpa [Option.any_eq_true] using h.1, by simpa using h.2⟩,
      fun h => ⟨by simpa [Option.any_eq_true] using h.starts, by simpa using h.plain⟩⟩

mutual

/-- Every word and every number shows what it is, and no operator is negated. -/
def Readable : Expr → Prop
  | .word w => PlainWord w
  | .string _ => True
  | .number n => PlainNumber n
  | .list items => ItemsReadable items
  | .binary left op right => op.negate = false ∧ Readable left ∧ Readable right

/-- Every item of a list is readable. -/
def ItemsReadable : List Expr → Prop
  | [] => True
  | item :: items => Readable item ∧ ItemsReadable items

end

mutual

instance decidableReadable : ∀ e : Expr, Decidable (Readable e)
  | .word w => inferInstanceAs (Decidable (PlainWord w))
  | .string _ => inferInstanceAs (Decidable True)
  | .number n => inferInstanceAs (Decidable (PlainNumber n))
  | .list items => decidableItemsReadable items
  | .binary left op right =>
    have := decidableReadable left
    have := decidableReadable right
    inferInstanceAs (Decidable (op.negate = false ∧ Readable left ∧ Readable right))

instance decidableItemsReadable : ∀ items : List Expr, Decidable (ItemsReadable items)
  | [] => inferInstanceAs (Decidable True)
  | item :: items =>
    have := decidableReadable item
    have := decidableItemsReadable items
    inferInstanceAs (Decidable (Readable item ∧ ItemsReadable items))

end

/-! ### What the first character tells -/

/-- The classes of nodes that the first character of a filter tells apart. -/
inductive Lead where
  | bare | quote | digit | paren

/-- The class of a node whose filter begins with a character. -/
def Lead.ofChar? (c : Char) : Option Lead :=
  if c = '"' then some .quote
  else if c = '(' then some .paren
  else if isMark c then none
  else if c.isDigit then some .digit
  else some .bare

/-- The class of a node. -/
def lead : Expr → Lead
  | .word _ => .bare
  | .string _ => .quote
  | .number _ => .digit
  | .list _ | .binary _ _ _ => .paren

theorem isMark_iff {c : Char} :
    isMark c = true ↔ c = ';' ∨ c = '(' ∨ c = ')' ∨ c = ',' ∨ c = '"' ∨ c = ' ' := by
  simp [isMark, or_assoc]

theorem isMark_of_isDigit {c : Char} (hc : c.isDigit = true) : isMark c = false := by
  by_contra hmark
  rcases isMark_iff.mp (by simpa using hmark) with rfl | rfl | rfl | rfl | rfl | rfl <;> cases hc

theorem Lead.ofChar?_of_not_isMark {c : Char} (hc : isMark c = false) :
    Lead.ofChar? c = some (if c.isDigit then .digit else .bare) := by
  have hquote : c ≠ '"' := by rintro rfl; cases hc
  have hparen : c ≠ '(' := by rintro rfl; cases hc
  unfold Lead.ofChar?
  simp only [hquote, hparen, hc, Bool.false_eq_true, if_false]
  split <;> rfl

theorem PlainWord.toList_bare {word : String} (h : PlainWord word) :
    (bare word).toList = word.toList := by
  have hkeep : ∀ c ∈ word.toList, decide (c ≠ ';') = true := by
    intro c hc
    have hmark := h.plain c hc
    exact decide_eq_true (by rintro rfl; cases hmark)
  rw [bare, String.toList_ofList, List.filter_eq_self.mpr hkeep]

/-- The first character of a filter tells the class of the node. -/
theorem Readable.lead_eq {e : Expr} (h : e.Readable) (rest : List Char) :
    (e.text.toList ++ rest).head?.bind Lead.ofChar? = some e.lead := by
  cases e with
  | word w =>
    have hword : PlainWord w := h
    obtain ⟨c, hc, hdigit⟩ := hword.starts
    have hhead : (w.toList ++ rest).head? = some c := List.mem_head?_append_of_mem_head? hc
    have hmark : isMark c = false := hword.plain c (List.mem_of_mem_head? hc)
    rw [text, hword.toList_bare, hhead, Option.bind_some, Lead.ofChar?_of_not_isMark hmark, hdigit]
    rfl
  | number n =>
    have hnumber : PlainNumber n := h
    obtain ⟨c, hc, hdigit⟩ := hnumber.starts
    have hhead : (n.toList ++ rest).head? = some c := List.mem_head?_append_of_mem_head? hc
    have hmark : isMark c = false := isMark_of_isDigit hdigit
    rw [text, hhead, Option.bind_some, Lead.ofChar?_of_not_isMark hmark, hdigit]
    rfl
  | string s => rw [text, Json.toList_literal]; rfl
  | list items => rw [toList_text_list]; rfl
  | binary left op right => rw [toList_text_binary]; rfl

/-- Expressions of different classes are not written alike. -/
theorem Readable.lead_eq_of_text {a b : Expr} {r s : List Char} (ha : a.Readable) (hb : b.Readable)
    (h : a.text.toList ++ r = b.text.toList ++ s) : a.lead = b.lead := by
  have hlead := ha.lead_eq r
  rw [h, hb.lead_eq s] at hlead
  exact (Option.some.inj hlead).symm

/-- No expression begins with a closing parenthesis. -/
theorem Readable.text_ne_close {e : Expr} (h : e.Readable) (r s : List Char) :
    e.text.toList ++ r ≠ ')' :: s := by
  intro heq
  have hlead := h.lead_eq r
  rw [heq] at hlead
  cases hlead

/-! ### Where an expression ends -/

/-- Nothing follows, or what may stand behind an operand or an item. -/
def Stops (rest : List Char) : Prop := ∀ c ∈ rest.head?, c = ' ' ∨ c = ',' ∨ c = ')'

theorem stops_close (r : List Char) : Stops (')' :: r) := by
  rintro c ⟨⟩
  exact .inr (.inr rfl)

theorem stops_infixText (op : Operator) (r : List Char) : Stops ((infixText op).toList ++ r) := by
  rw [toList_infixText]
  rintro c ⟨⟩
  exact .inl rfl

theorem stops_tailText (items : List Expr) (r : List Char) :
    Stops ((tailText items).toList ++ ')' :: r) := by
  cases items with
  | nil => exact stops_close r
  | cons item items =>
    rw [toList_tailText_cons]
    rintro c ⟨⟩
    exact .inr (.inl rfl)

/-- No operator follows the first item of a list. -/
theorem tailText_ne_infixText (items : List Expr) (op : Operator) (r s : List Char) :
    (tailText items).toList ++ ')' :: r ≠ (infixText op).toList ++ s := by
  rw [toList_infixText]
  cases items with
  | nil => nofun
  | cons item items =>
    rw [toList_tailText_cons]
    nofun

theorem word_append_inj {v w : String} {r s : List Char} (hv : PlainWord v) (hw : PlainWord w)
    (hr : Stops r) (hs : Stops s) (h : v.toList ++ r = w.toList ++ s) : v = w ∧ r = s := by
  have stop {c : Char} (hc : c = ' ' ∨ c = ',' ∨ c = ')') : (!isMark c) = false := by
    rcases hc with rfl | rfl | rfl <;> rfl
  obtain ⟨htext, hrest⟩ := run_append_inj (p := fun c => !isMark c)
    (fun c hc => by rw [hv.plain c hc, Bool.not_false])
    (fun c hc => by rw [hw.plain c hc, Bool.not_false])
    (fun c hc => stop (hr c hc)) (fun c hc => stop (hs c hc)) h
  exact ⟨String.toList_injective htext, hrest⟩

theorem number_append_inj {m n : String} {r s : List Char} (hm : PlainNumber m)
    (hn : PlainNumber n) (hr : Stops r) (hs : Stops s) (h : m.toList ++ r = n.toList ++ s) :
    m = n ∧ r = s := by
  have stop {c : Char} (hc : c = ' ' ∨ c = ',' ∨ c = ')') : (c.isDigit || c = '.') = false := by
    rcases hc with rfl | rfl | rfl <;> rfl
  obtain ⟨htext, hrest⟩ := run_append_inj hm.plain hn.plain (fun c hc => stop (hr c hc))
    (fun c hc => stop (hs c hc)) h
  exact ⟨String.toList_injective htext, hrest⟩

mutual

/-- **The filter of an expression ends in one place, and tells the expression.** -/
theorem text_append_inj : ∀ (a b : Expr) {r s : List Char}, a.Readable → b.Readable →
    Stops r → Stops s → a.text.toList ++ r = b.text.toList ++ s → a = b ∧ r = s
  | .word v, b, r, s, ha, hb, hr, hs, h => by
    have hlead := Readable.lead_eq_of_text ha hb h
    cases b with
    | word w =>
      have hv : PlainWord v := ha
      have hw : PlainWord w := hb
      rw [text, text, hv.toList_bare, hw.toList_bare] at h
      obtain ⟨rfl, hrest⟩ := word_append_inj hv hw hr hs h
      exact ⟨rfl, hrest⟩
    | _ => cases hlead
  | .string v, b, r, s, ha, hb, _, _, h => by
    have hlead := Readable.lead_eq_of_text ha hb h
    cases b with
    | string w =>
      obtain ⟨rfl, hrest⟩ := Json.literal_append_inj h
      exact ⟨rfl, hrest⟩
    | _ => cases hlead
  | .number m, b, r, s, ha, hb, hr, hs, h => by
    have hlead := Readable.lead_eq_of_text ha hb h
    cases b with
    | number n =>
      obtain ⟨rfl, hrest⟩ := number_append_inj ha hb hr hs h
      exact ⟨rfl, hrest⟩
    | _ => cases hlead
  | .list items, b, r, s, ha, hb, _, _, h => by
    have hlead := Readable.lead_eq_of_text ha hb h
    cases b with
    | list items' =>
      simp only [toList_text_list, List.cons_append, List.append_assoc, List.nil_append,
        List.cons.injEq, true_and] at h
      obtain ⟨rfl, hrest⟩ := itemsText_append_inj items items' ha hb h
      exact ⟨rfl, hrest⟩
    | binary left op right =>
      -- Both begin with a parenthesis: what follows the first expression inside tells them apart.
      simp only [toList_text_list, toList_text_binary, List.cons_append, List.append_assoc,
        List.nil_append, List.cons.injEq, true_and] at h
      exact absurd h (itemsText_ne_operand items ha hb.2.1)
    | _ => cases hlead
  | .binary left op right, b, r, s, ha, hb, _, _, h => by
    have hlead := Readable.lead_eq_of_text ha hb h
    cases b with
    | binary left' op' right' =>
      simp only [toList_text_binary, List.cons_append, List.append_assoc, List.nil_append,
        List.cons.injEq, true_and] at h
      obtain ⟨hop, hleft, hright⟩ := ha
      obtain ⟨hop', hleft', hright'⟩ := hb
      obtain ⟨rfl, hbehind⟩ := text_append_inj left left' hleft hleft' (stops_infixText op _)
        (stops_infixText op' _) h
      obtain ⟨rfl, hoperand⟩ := infixText_append_inj hop hop' hbehind
      obtain ⟨rfl, hclose⟩ := text_append_inj right right' hright hright' (stops_close r)
        (stops_close s) hoperand
      exact ⟨rfl, List.tail_eq_of_cons_eq hclose⟩
    | list items =>
      simp only [toList_text_list, toList_text_binary, List.cons_append, List.append_assoc,
        List.nil_append, List.cons.injEq, true_and] at h
      cases items with
      | nil => exact absurd h (ha.2.1.text_ne_close _ s)
      | cons item items =>
        rw [toList_itemsText_cons, List.append_assoc] at h
        obtain ⟨-, hbehind⟩ := text_append_inj left item ha.2.1 hb.1 (stops_infixText op _)
          (stops_tailText items s) h
        exact absurd hbehind.symm (tailText_ne_infixText items op s _)
    | _ => cases hlead

/-- The items of a list end at a parenthesis. -/
theorem itemsText_append_inj : ∀ (as bs : List Expr) {r s : List Char}, ItemsReadable as →
    ItemsReadable bs → (itemsText as).toList ++ ')' :: r = (itemsText bs).toList ++ ')' :: s →
    as = bs ∧ r = s
  | [], [], _, _, _, _, h => ⟨rfl, List.tail_eq_of_cons_eq h⟩
  | [], b :: bs, r, s, _, hb, h => by
    rw [toList_itemsText_cons, List.append_assoc] at h
    exact absurd h.symm (hb.1.text_ne_close _ r)
  | a :: as, [], r, s, ha, _, h => by
    rw [toList_itemsText_cons, List.append_assoc] at h
    exact absurd h (ha.1.text_ne_close _ s)
  | a :: as, b :: bs, r, s, ha, hb, h => by
    simp only [toList_itemsText_cons, List.append_assoc] at h
    obtain ⟨rfl, htail⟩ :=
      text_append_inj a b ha.1 hb.1 (stops_tailText as r) (stops_tailText bs s) h
    obtain ⟨rfl, hrest⟩ := tailText_append_inj as bs ha.2 hb.2 htail
    exact ⟨rfl, hrest⟩

/-- The items behind the first of a list end at a parenthesis. -/
theorem tailText_append_inj : ∀ (as bs : List Expr) {r s : List Char}, ItemsReadable as →
    ItemsReadable bs → (tailText as).toList ++ ')' :: r = (tailText bs).toList ++ ')' :: s →
    as = bs ∧ r = s
  | [], [], _, _, _, _, h => ⟨rfl, List.tail_eq_of_cons_eq h⟩
  | [], b :: bs, _, _, _, _, h => by
    rw [toList_tailText_cons] at h
    cases h
  | a :: as, [], _, _, _, _, h => by
    rw [toList_tailText_cons] at h
    cases h
  | a :: as, b :: bs, r, s, ha, hb, h => by
    simp only [toList_tailText_cons, List.cons_append, List.append_assoc, List.cons.injEq,
      true_and] at h
    obtain ⟨rfl, htail⟩ :=
      text_append_inj a b ha.1 hb.1 (stops_tailText as r) (stops_tailText bs s) h
    obtain ⟨rfl, hrest⟩ := tailText_append_inj as bs ha.2 hb.2 htail
    exact ⟨rfl, hrest⟩

/-- What stands in the parentheses of a list is no operand with its operator. -/
theorem itemsText_ne_operand : ∀ (items : List Expr) {left : Expr} {op : Operator}
    {r s : List Char}, ItemsReadable items → left.Readable →
    (itemsText items).toList ++ ')' :: r ≠ left.text.toList ++ ((infixText op).toList ++ s)
  | [], _, op, r, s, _, hleft => fun h => hleft.text_ne_close _ r h.symm
  | item :: items, left, op, r, s, hitems, hleft => by
    intro h
    rw [toList_itemsText_cons, List.append_assoc] at h
    obtain ⟨-, hbehind⟩ := text_append_inj item left hitems.1 hleft (stops_tailText items r)
      (stops_infixText op s) h
    exact tailText_ne_infixText items op r s hbehind

end

/-- **Filters are read in one way.**  Expressions whose leaves show what they are, and whose
operators are plain, are written alike only if they are the same. -/
theorem filter_inj {a b : Expr} (ha : a.Readable) (hb : b.Readable) :
    a.filter = b.filter ↔ a = b := by
  constructor
  · intro h
    rw [filter_eq, filter_eq] at h
    have htext : a.text.toList ++ [] = b.text.toList ++ [] := by rw [h]
    have hend : Stops [] := by simp [Stops]
    exact (text_append_inj a b ha hb hend hend htext).1
  · rintro rfl
    rfl

/-- Negated operators must be left out: that `a` is not at most `b` is written as that it is more.
-/
example : text (.binary (.word "a") ⟨.lt, true⟩ (.word "b")) =
    text (.binary (.word "a") ⟨.ge, false⟩ (.word "b")) := by
  decide

/-- `x < b`, where `b` is a list of one text with quotes and a comma in it, or of two texts. -/
def quotedPair (one : Bool) : Expr :=
  let texts : List Expr := if one then [.string "b\",\"c"] else [.string "b", .string "c"]
  .binary (.word "x") { kind := .le } (.list (.number "1.5" :: .list [] :: texts))

/-- `(x < (1.5,(),"b\",\"c"))` is not `(x < (1.5,(),"b","c"))`. -/
theorem filter_inj_quotedPair :
    Readable (quotedPair true) ∧ Readable (quotedPair false) ∧
      (quotedPair true).filter ≠ (quotedPair false).filter := by
  have hone : Readable (quotedPair true) := by decide
  have htwo : Readable (quotedPair false) := by decide
  refine ⟨hone, htwo, fun h => ?_⟩
  have hsame : quotedPair true = quotedPair false := (filter_inj hone htwo).mp h
  revert hsame
  decide

end Expr

end SearchFilter
