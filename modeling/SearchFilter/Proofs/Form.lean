import SearchFilter.Proofs.Rules
import SearchFilter.Query

/-!
# The form of a search

Texts have no say in how a search is read.  A `Slot` is a token of which only the kind is fixed,
and its text has a name; a `Form` is an expression whose texts are such names, with the fallback
search as a node of its own.  Filled with texts, slots become tokens and a form an expression.

* `exists_form`: slots read as one form, whatever texts and whatever fallback field they are filled
  with.
* `parse_texts`: so texts may be changed before reading or after it, and two queries whose tokens
  agree in their kinds read as expressions of the same shape.

A `Plan` is a call with slots and forms for its tokens and expressions.  The plans of the calls that
a plan makes do not depend on texts either, since each rule of reading asks for kinds only; so one
induction along the six functions gives every plan its outcome (`Plan.exists_outcome`).
-/

namespace SearchFilter

variable {α : Type} {field : String} {text : α → String}

/-! ### Texts and shapes -/

/-- A token with its text changed. -/
def Token.mapText (g : String → String) (t : Token) : Token := ⟨t.kind, g t.text⟩

mutual

/-- An expression without its texts. -/
def Expr.shape : Expr → Expr
  | .word _ => .word ""
  | .string _ => .string ""
  | .number _ => .number ""
  | .list items => .list (Expr.shapes items)
  | .binary left op right => .binary left.shape op right.shape

/-- Expressions without their texts. -/
def Expr.shapes : List Expr → List Expr
  | [] => []
  | item :: items => item.shape :: Expr.shapes items

end

/-! ### Slots and forms -/

/-- A token whose text is only named. -/
structure Slot (α : Type) where
  kind : Token.Kind
  name : α

/-- The token in a slot. -/
def Slot.token (text : α → String) (s : Slot α) : Token := ⟨s.kind, text s.name⟩

/-- An expression whose texts are only named. -/
inductive Form (α : Type) where
  | word (x : α)
  | string (x : α)
  | number (x : α)
  | list (items : List (Form α))
  | binary (left : Form α) (op : Operator) (right : Form α)
  | fallback (term : Option α)

namespace Form

mutual

/-- The expression of a form.  A fallback without a term is the search for the empty term. -/
def expr (field : String) (text : α → String) : Form α → Expr
  | .word x => .word (text x)
  | .string x => .string (text x)
  | .number x => .number (text x)
  | .list items => .list (exprs field text items)
  | .binary left op right => .binary (left.expr field text) op (right.expr field text)
  | .fallback term => .fallback field ((term.map text).getD "")

/-- The expressions of forms. -/
def exprs (field : String) (text : α → String) : List (Form α) → List Expr
  | [] => []
  | form :: forms => form.expr field text :: exprs field text forms

end

theorem exprs_eq_map (forms : List (Form α)) :
    exprs field text forms = forms.map (expr field text) := by
  induction forms with
  | nil => rfl
  | cons form forms ih => rw [exprs, ih, List.map_cons]

mutual

/-- Whatever the texts and the field are, the shape is the same. -/
theorem shape_expr (field field' : String) (text text' : α → String) :
    ∀ form : Form α, (form.expr field text).shape = (form.expr field' text').shape
  | .word _ | .string _ | .number _ | .fallback _ => rfl
  | .list items => by simp only [expr, Expr.shape, shapes_exprs field field' text text' items]
  | .binary left op right => by
    simp only [expr, Expr.shape, shape_expr field field' text text' left,
      shape_expr field field' text text' right]

theorem shapes_exprs (field field' : String) (text text' : α → String) :
    ∀ forms : List (Form α),
      Expr.shapes (exprs field text forms) = Expr.shapes (exprs field' text' forms)
  | [] => rfl
  | form :: forms => by
    simp only [exprs, Expr.shapes, shape_expr field field' text text' form,
      shapes_exprs field field' text text' forms]

end

/-- The leaf in a slot, if its kind is a leaf. -/
def ofSlot? (s : Slot α) : Option (Form α) :=
  match s.kind with
  | .quoted => some (.string s.name)
  | .number => some (.number s.name)
  | .word | .preserved => some (.word s.name)
  | _ => none

theorem map_ofSlot? (field : String) (text : α → String) (s : Slot α) :
    (ofSlot? s).map (expr field text) = Expr.ofToken? (s.token text) := by
  obtain ⟨kind, name⟩ := s
  cases kind <;> simp [ofSlot?, Expr.ofToken?, Slot.token, expr]

theorem isLeaf_of_ofSlot?_none {s : Slot α} (h : ofSlot? s = none) : s.kind.isLeaf = false := by
  obtain ⟨kind, name⟩ := s
  revert h
  cases kind <;> simp [ofSlot?, Token.Kind.isLeaf]

/-- The form of colon-joined items. -/
def ofItems (first : Form α) : List (Form α) → Form α
  | [] => first
  | others => .list (first :: others)

theorem expr_ofItems (first : Form α) (others : List (Form α)) :
    (ofItems first others).expr field text =
      .ofItems (first.expr field text) (others.map (expr field text)) := by
  cases others with
  | nil => rfl
  | cons other others => simp [ofItems, Expr.ofItems, expr, exprs, exprs_eq_map]

/-- Two forms joined by an operator, or the one that is there. -/
def join (op : Operator.Kind) : Option (Form α) → Option (Form α) → Option (Form α)
  | some left, some right => some (.binary left { kind := op } right)
  | some left, none => some left
  | none, right => right

theorem map_join (op : Operator.Kind) (left right : Option (Form α)) :
    (join op left right).map (expr field text) =
      Expr.join op (left.map (expr field text)) (right.map (expr field text)) := by
  cases left <;> cases right <;> simp [join, Expr.join, expr]

end Form

namespace Search

/-! ### Plans and outcomes -/

/-- A place among slots. -/
structure Place (α : Type) where
  rest : List (Slot α)
  depth : Nat

/-- The place among the tokens in the slots. -/
def Place.cursor (text : α → String) (p : Place α) : Cursor :=
  ⟨p.rest.map (Slot.token text), p.depth⟩

/-- The place behind the opening parentheses for which there is no more room. -/
def Place.skipParens (limit : Nat) (p : Place α) : Place α :=
  if limit ≤ p.depth then { p with rest := p.rest.dropWhile (·.kind = .lparen) } else p

theorem Place.cursor_skipParens (limit : Nat) (p : Place α) :
    (p.skipParens limit).cursor text = (p.cursor text).skipParens limit := by
  unfold skipParens Cursor.skipParens
  split
  · next h =>
    simp only [cursor, h, if_true, List.dropWhile_map, Function.comp_def, Slot.token]
    rfl
  · next h => simp [cursor, h]

/-- The place behind a group. -/
def Place.leave (p : Place α) : Place α where
  rest := match p.rest with
    | s :: ss => if s.kind = .rparen then ss else s :: ss
    | [] => []
  depth := p.depth - 1

theorem Place.cursor_leave (p : Place α) : p.leave.cursor text = (p.cursor text).leave := by
  obtain ⟨_ | ⟨s, ss⟩, depth⟩ := p
  · rfl
  · simp only [leave, cursor, Cursor.leave, List.map_cons, Slot.token]
    split <;> rfl

/-- A parenthesis that is not skipped opens a group for which there is room. -/
theorem Place.of_skipParens_lparen {limit : Nat} {p : Place α} {s : Slot α} {ss : List (Slot α)}
    (h : (p.skipParens limit).rest = s :: ss) (hs : s.kind = .lparen) :
    p.depth < limit ∧ p.rest = s :: ss := by
  unfold skipParens at h
  split at h
  · have hskip := List.head?_dropWhile_not (fun s : Slot α => decide (s.kind = .lparen)) p.rest
    simp only at h
    simp [h, hs] at hskip
  · next hd => exact ⟨Nat.lt_of_not_le hd, h⟩

/-- The leaf that is all that is left. -/
def lastSlot? : List (Slot α) → Option (Slot α)
  | [s] => if s.kind.isLeaf then some s else none
  | _ => none

theorem lastLeaf?_map (ss : List (Slot α)) :
    lastLeaf? (ss.map (Slot.token text)) = (lastSlot? ss).map (Slot.token text) := by
  match ss with
  | [] => rfl
  | [s] =>
    simp only [List.map_cons, List.map_nil, lastLeaf?, lastSlot?, Slot.token]
    split <;> rfl
  | s :: u :: us => rfl

/-- A call on slots, with forms for what it has put together. -/
inductive Plan (α : Type) where
  | item (p : Place α)
  | value (p : Place α)
  | moreItems (first : Form α) (others : List (Form α)) (p : Place α)
  | condition (p : Place α)
  | moreValues (left : Form α) (p : Place α)
  | search (nested : Bool) (left : Option (Form α)) (p : Place α)

/-- The call that a plan is. -/
def Plan.call (field : String) (text : α → String) : Plan α → Call
  | .item p => .item (p.cursor text)
  | .value p => .value (p.cursor text)
  | .moreItems first others p =>
    .moreItems (first.expr field text) (others.map (Form.expr field text)) (p.cursor text)
  | .condition p => .condition (p.cursor text)
  | .moreValues left p => .moreValues (left.expr field text) (p.cursor text)
  | .search nested left p => .search nested (left.map (Form.expr field text)) (p.cursor text)

/-- The place where a plan begins. -/
def Plan.start : Plan α → Place α
  | .item p | .value p | .moreItems _ _ p | .condition p | .moreValues _ p | .search _ _ p => p

/-- The place of a plan's function among the six. -/
def Plan.rank (plan : Plan α) : Nat := (plan.call "" fun _ => "").rank

/-- What each plan lowers. -/
def Plan.size (plan : Plan α) : Nat := 6 * plan.start.rest.length + plan.rank

/-- What is read of slots, and the place where reading stopped. -/
structure Outcome (α : Type) where
  value : Except α (Option (Form α))
  next : Place α

/-- The reading of an outcome.  The text of an error is named too. -/
def Outcome.reading (field : String) (text : α → String) (out : Outcome α) :
    Reading (Option Expr) where
  value := match out.value with
    | .ok form => .ok (form.map (Form.expr field text))
    | .error x => .error (.missingOperand (text x))
  next := out.next.cursor text

/-- The plan reads the outcome, whatever the texts are. -/
def Plan.Yields (limit : Nat) (plan : Plan α) (out : Outcome α) : Prop :=
  ∀ field text, Reads ⟨field, limit⟩ (plan.call field text) (out.reading field text)

/-! ### Every plan has an outcome -/

section

variable {limit : Nat} {p : Place α}

theorem Plan.length_start (plan : Plan α) (field : String) (text : α → String) :
    (plan.call field text).start.rest.length = plan.start.rest.length := by
  cases plan <;> simp [call, start, Call.start, Place.cursor]

/-- An outcome leaves no more slots than there were. -/
theorem Plan.Yields.length_le {plan : Plan α} {out : Outcome α} (h : plan.Yields limit out) :
    out.next.rest.length ≤ plan.start.rest.length := by
  have hlen := (h "" fun _ => "").suffix.length_le
  rw [plan.length_start] at hlen
  simpa [Outcome.reading, Place.cursor] using hlen

/-- A condition takes at least the slot that begins it. -/
theorem Plan.Yields.condition_length_le {s : Slot α} {ss : List (Slot α)} {depth : Nat}
    {out : Outcome α} (h : (Plan.condition ⟨s :: ss, depth⟩).Yields limit out)
    (hs : s.kind.isAtom = true) : out.next.rest.length ≤ ss.length := by
  have hlen := (h "" fun _ => "").length_le_room
  simpa [Outcome.reading, Place.cursor, Plan.call, Call.room, Cursor.room, Slot.token, hs]
    using hlen

/-- Where no item begins, none is read, whatever the texts are. -/
theorem yields_noItem (h : ∀ s ∈ (p.skipParens limit).rest.head?, s.kind.isAtom = false) :
    (Plan.item p).Yields limit ⟨.ok none, p.skipParens limit⟩ := by
  intro field text
  have hnone : Reads ⟨field, limit⟩ (.item (p.cursor text))
      ⟨.ok none, (p.cursor text).skipParens limit⟩ := by
    refine .noItem fun t ht => ?_
    rw [← Place.cursor_skipParens] at ht
    obtain ⟨s, hs, rfl⟩ : ∃ s ∈ (p.skipParens limit).rest.head?, s.token text = t := by
      simpa [Place.cursor] using ht
    exact h s hs
  rwa [← Place.cursor_skipParens] at hnone

theorem exists_item
    (ih : ∀ plan : Plan α, plan.size < (Plan.item p).size → ∃ out, plan.Yields limit out) :
    ∃ out, (Plan.item p).Yields limit out := by
  cases h : (p.skipParens limit).rest with
  | nil => exact ⟨_, yields_noItem (by simp [h])⟩
  | cons s ss =>
    have hrest (text : α → String) :
        ((p.cursor text).skipParens limit).rest = s.token text :: ss.map (Slot.token text) := by
      rw [← Place.cursor_skipParens, Place.cursor, h, List.map_cons]
    cases hleaf : Form.ofSlot? s with
    | some leaf =>
      refine ⟨⟨.ok (some leaf), ⟨ss, p.depth⟩⟩, fun field text => .leaf (hrest text) ?_⟩
      rw [← Form.map_ofSlot? field text, hleaf]
      rfl
    | none =>
      by_cases hparen : s.kind = .lparen
      · obtain ⟨hd, hp⟩ := Place.of_skipParens_lparen h hparen
        obtain ⟨rest, depth⟩ := p
        obtain rfl : rest = s :: ss := hp
        obtain ⟨⟨v, next⟩, inner⟩ := ih (.search true none ⟨ss, depth + 1⟩)
          (passed_lt (Nat.le_refl _) (by decide : 5 < 6))
        refine ⟨⟨v, next.leave⟩, fun field text => ?_⟩
        have hgroup := Reads.group (t := s.token text) hparen hd (inner field text)
        rwa [← Place.cursor_leave] at hgroup
      · refine ⟨_, yields_noItem fun t ht => ?_⟩
        rw [h] at ht
        cases ht
        rw [Token.Kind.isAtom_eq, Form.isLeaf_of_ofSlot?_none hleaf]
        simpa using hparen

theorem exists_value
    (ih : ∀ plan : Plan α, plan.size < (Plan.value p).size → ∃ out, plan.Yields limit out) :
    ∃ out, (Plan.value p).Yields limit out := by
  obtain ⟨⟨v, next⟩, first⟩ := ih (.item p) (kept_lt (Nat.le_refl _) (by decide : 0 < 2))
  match v with
  | .ok (some form) =>
    obtain ⟨out, more⟩ :=
      ih (.moreItems form [] next) (kept_lt first.length_le (by decide : 1 < 2))
    exact ⟨out, fun field text => .value (first field text) (more field text)⟩
  | .ok none => exact ⟨_, fun field text => .noValue (first field text) nofun⟩
  | .error x => exact ⟨_, fun field text => .noValue (first field text) nofun⟩

theorem exists_moreItems {first : Form α} {others : List (Form α)}
    (ih : ∀ plan : Plan α, plan.size < (Plan.moreItems first others p).size →
      ∃ out, plan.Yields limit out) :
    ∃ out, (Plan.moreItems first others p).Yields limit out := by
  have last (hp : ∀ s ∈ p.rest.head?, s.kind ≠ .colon) : (Plan.moreItems first others p).Yields
      limit ⟨.ok (some (.ofItems first others.reverse)), p⟩ := fun field text => by
    simp only [Outcome.reading, Option.map_some, Form.expr_ofItems, List.map_reverse]
    refine .lastItem fun t ht => ?_
    obtain ⟨s, hs, rfl⟩ : ∃ s ∈ p.rest.head?, s.token text = t := by
      simpa [Place.cursor] using ht
    exact hp s hs
  obtain ⟨_ | ⟨s, ss⟩, depth⟩ := p
  · exact ⟨_, last nofun⟩
  by_cases hs : s.kind = .colon
  · obtain ⟨⟨v, next⟩, item⟩ :=
      ih (.item ⟨ss, depth⟩) (passed_lt (Nat.le_refl _) (by decide : 0 < 6))
    match v with
    | .ok (some form) =>
      obtain ⟨out, more⟩ := ih (.moreItems first (form :: others) next)
        (passed_lt item.length_le (by decide : 1 < 6))
      exact ⟨out, fun field text => .nextItem hs (item field text) (more field text)⟩
    | .ok none =>
      refine ⟨⟨.ok (some (.list (first :: others.reverse))), next⟩, fun field text => ?_⟩
      simp only [Outcome.reading, Option.map_some, Form.expr, Form.exprs_eq_map, List.map_cons,
        List.map_reverse]
      exact .trailingColon hs (item field text)
    | .error x => exact ⟨⟨.error x, next⟩, fun field text => .badItem hs (item field text)⟩
  · exact ⟨_, last (by rintro t ⟨⟩; exact hs)⟩

theorem exists_condition
    (ih : ∀ plan : Plan α, plan.size < (Plan.condition p).size → ∃ out, plan.Yields limit out) :
    ∃ out, (Plan.condition p).Yields limit out := by
  cases hlast : lastSlot? p.rest with
  | some s =>
    refine ⟨⟨.ok (some (.fallback (some s.name))), ⟨[], p.depth⟩⟩, fun field text => ?_⟩
    exact .fallback (t := s.token text) (by rw [Place.cursor, lastLeaf?_map, hlast]; rfl)
  | none =>
    have hc (text : α → String) : lastLeaf? (p.cursor text).rest = none := by
      rw [Place.cursor, lastLeaf?_map, hlast]
      rfl
    obtain ⟨⟨v, next⟩, first⟩ := ih (.value p) (kept_lt (Nat.le_refl _) (by decide : 2 < 4))
    match v with
    | .ok (some form) =>
      obtain ⟨out, more⟩ :=
        ih (.moreValues form next) (kept_lt first.length_le (by decide : 3 < 4))
      exact ⟨out, fun field text => .condition (hc text) (first field text) (more field text)⟩
    | .ok none => exact ⟨_, fun field text => .noCondition (hc text) (first field text) nofun⟩
    | .error x => exact ⟨_, fun field text => .noCondition (hc text) (first field text) nofun⟩

theorem exists_moreValues {left : Form α}
    (ih : ∀ plan : Plan α, plan.size < (Plan.moreValues left p).size →
      ∃ out, plan.Yields limit out) :
    ∃ out, (Plan.moreValues left p).Yields limit out := by
  have last (hp : ∀ s ∈ p.rest.head?, s.kind.comparison? = none) :
      (Plan.moreValues left p).Yields limit ⟨.ok (some left), p⟩ := fun field text => by
    refine .lastValue fun t ht => ?_
    obtain ⟨s, hs, rfl⟩ : ∃ s ∈ p.rest.head?, s.token text = t := by
      simpa [Place.cursor] using ht
    exact hp s hs
  obtain ⟨_ | ⟨s, ss⟩, depth⟩ := p
  · exact ⟨_, last nofun⟩
  cases hs : s.kind.comparison? with
  | some op =>
    obtain ⟨⟨v, next⟩, right⟩ :=
      ih (.value ⟨ss, depth⟩) (passed_lt (Nat.le_refl _) (by decide : 2 < 6))
    match v with
    | .ok (some form) =>
      obtain ⟨out, more⟩ := ih (.moreValues (.binary left { kind := op } form) next)
        (passed_lt right.length_le (by decide : 3 < 6))
      refine ⟨out, fun field text => .nextValue hs (right field text) ?_⟩
      simpa only [Plan.call, Form.expr] using more field text
    | .ok none =>
      exact ⟨⟨.ok (some left), next⟩, fun field text => .droppedComparison hs (right field text)⟩
    | .error x => exact ⟨⟨.error x, next⟩, fun field text => .badValue hs (right field text)⟩
  | none => exact ⟨_, last (by rintro t ⟨⟩; exact hs)⟩

theorem exists_search {nested : Bool} {left : Option (Form α)}
    (ih : ∀ plan : Plan α, plan.size < (Plan.search nested left p).size →
      ∃ out, plan.Yields limit out) :
    ∃ out, (Plan.search nested left p).Yields limit out := by
  obtain ⟨_ | ⟨s, ss⟩, depth⟩ := p
  · exact ⟨⟨.ok left, ⟨[], depth⟩⟩, fun field text => .searchEnd⟩
  cases hlogic : s.kind.logic? with
  | some op =>
    cases ss with
    | nil => exact ⟨⟨.error s.name, ⟨[], depth⟩⟩, fun field text => .lastOperator hlogic⟩
    | cons u us =>
      obtain ⟨⟨v, next⟩, operand⟩ :=
        ih (.condition ⟨u :: us, depth⟩) (passed_lt (Nat.le_refl _) (by decide : 4 < 6))
      match v with
      | .ok right =>
        obtain ⟨out, more⟩ := ih (.search nested (Form.join op left right) next)
          (passed_lt operand.length_le (by decide : 5 < 6))
        refine ⟨out, fun field text => ?_⟩
        have hmore := more field text
        simp only [Plan.call, Form.map_join] at hmore
        exact .joined hlogic (List.cons_ne_nil _ _) (operand field text) hmore
      | .error x =>
        exact ⟨⟨.error x, next⟩,
          fun field text => .badOperand hlogic (List.cons_ne_nil _ _) (operand field text)⟩
  | none =>
    by_cases hclose : nested = true ∧ s.kind = .rparen
    · obtain ⟨rfl, hs⟩ := hclose
      exact ⟨⟨.ok left, ⟨s :: ss, depth⟩⟩, fun field text => .closed hs⟩
    by_cases hfirst : left = none ∧ s.kind.isAtom = true
    · obtain ⟨rfl, hs⟩ := hfirst
      obtain ⟨⟨v, next⟩, operand⟩ :=
        ih (.condition ⟨s :: ss, depth⟩) (kept_lt (Nat.le_refl _) (by decide : 4 < 5))
      match v with
      | .ok form =>
        obtain ⟨out, more⟩ := ih (.search nested form next)
          (passed_lt (operand.condition_length_le hs) (by decide : 5 < 6))
        exact ⟨out, fun field text => .first hs (operand field text) (more field text)⟩
      | .error x =>
        exact ⟨⟨.error x, next⟩, fun field text => .badFirst hs (operand field text)⟩
    · obtain ⟨out, more⟩ :=
        ih (.search nested left ⟨ss, depth⟩) (passed_lt (Nat.le_refl _) (by decide : 5 < 6))
      refine ⟨out, fun field text => .passed hlogic (not_and.mp hclose) (fun h => ?_)
        (more field text)⟩
      have hleft : left = none := Option.map_eq_none_iff.mp h
      exact Bool.eq_false_iff.mpr (not_and.mp hfirst hleft)

/-- **Every plan has an outcome that no text changes.** -/
theorem Plan.exists_outcome (limit : Nat) (plan : Plan α) : ∃ out, plan.Yields limit out := by
  have ih : ∀ sub : Plan α, sub.size < plan.size → ∃ out, sub.Yields limit out :=
    fun sub _ => exists_outcome limit sub
  cases plan with
  | item p => exact exists_item ih
  | value p => exact exists_value ih
  | moreItems first others p => exact exists_moreItems ih
  | condition p => exact exists_condition ih
  | moreValues left p => exact exists_moreValues ih
  | search nested left p => exact exists_search ih
termination_by plan.size

end

/-! ### Whole searches -/

/-- What a form of a search reads as: an expression, or the error for the text that has the
name. -/
def outcome (field : String) (text : α → String) : Except α (Form α) → Except Error Expr
  | .ok form => .ok (form.expr field text)
  | .error x => .error (.missingOperand (text x))

/-- Slots read as one form, whatever texts and whatever fallback field they are filled with. -/
theorem exists_form (limit : Nat) (slots : List (Slot α)) :
    ∃ form : Except α (Form α), ∀ (field : String) (text : α → String),
      parse ⟨field, limit⟩ (slots.map (Slot.token text)) = outcome field text form := by
  obtain ⟨⟨v, next⟩, hreads⟩ := (Plan.search false none ⟨slots, 0⟩).exists_outcome limit
  refine ⟨v.map (·.getD (.fallback none)), fun field text => ?_⟩
  have hread := (hreads field text).reading_eq
  simp only [Plan.call, Call.reading, Place.cursor, Option.map_none] at hread
  simp only [parse, read, hread]
  cases v with
  | error x => rfl
  | ok form => cases form <;> rfl

/-- Tokens that agree in their kinds stand in the same slots. -/
theorem exists_slots {us vs : List Token} (h : us.map Token.kind = vs.map Token.kind) :
    ∃ slots : List (Slot (String × String)),
      slots.map (Slot.token Prod.fst) = us ∧ slots.map (Slot.token Prod.snd) = vs := by
  induction us generalizing vs with
  | nil => exact ⟨[], rfl, (List.map_eq_nil_iff.mp h.symm).symm⟩
  | cons u us ih =>
    obtain ⟨v, vs, rfl, hv, hvs⟩ := List.map_eq_cons_iff.mp h.symm
    obtain ⟨slots, rfl, rfl⟩ := ih hvs.symm
    refine ⟨⟨u.kind, (u.text, v.text)⟩ :: slots, rfl, ?_⟩
    rw [List.map_cons, Slot.token, ← hv]

/-- Searches whose tokens agree in their kinds have the same shape, or both have none. -/
theorem shape_parse (o : Options) {us vs : List Token} (h : us.map Token.kind = vs.map Token.kind) :
    (parse o us).toOption.map Expr.shape = (parse o vs).toOption.map Expr.shape := by
  obtain ⟨slots, rfl, rfl⟩ := exists_slots h
  obtain ⟨form, hform⟩ := exists_form o.nestingLimit slots
  rw [hform o.fallbackField Prod.fst, hform o.fallbackField Prod.snd]
  cases form with
  | ok form => exact congrArg some (form.shape_expr _ _ _ _)
  | error x => rfl

/-- **Texts have no say in how a search is read.**  Tokens read as one form of expression for all
texts that they are given and every fallback field: the texts may be changed before reading, or in
what is read, where the field and the empty term stay as they are.  Two queries whose tokens agree
in their kinds read as expressions of the same shape, or are both refused. -/
theorem parse_texts (limit : Nat) (ts : List Token) :
    (∃ form : Except String (Form String),
      (∀ field, parse ⟨field, limit⟩ ts = outcome field id form) ∧
      ∀ (field : String) (g : String → String),
        parse ⟨field, limit⟩ (ts.map (Token.mapText g)) = outcome field g form) ∧
    ∀ (o : Options) (x y : String), (Token.lex x).map Token.kind = (Token.lex y).map Token.kind →
      (Query.parse o x).toOption.map Expr.shape = (Query.parse o y).toOption.map Expr.shape := by
  refine ⟨?_, fun o x y h => shape_parse o h⟩
  obtain ⟨form, hform⟩ := exists_form limit (ts.map fun t => (⟨t.kind, t.text⟩ : Slot String))
  have hmap (g : String → String) :
      (ts.map fun t => (⟨t.kind, t.text⟩ : Slot String)).map (Slot.token g) =
        ts.map (Token.mapText g) := by
    rw [List.map_map]
    rfl
  refine ⟨form, fun field => ?_, fun field g => ?_⟩
  · have hid := hform field id
    rwa [hmap, show Token.mapText id = id from rfl, List.map_id] at hid
  · rw [← hmap]
    exact hform field g

/-- `"a)" & (b` and `'& |' & (c:d` have tokens of the same kinds. -/
theorem parse_texts_open_group :
    (Token.lex "\"a)\" & (b").map Token.kind = (Token.lex "'& |' & (c:d").map Token.kind ∧
      (Query.parse {} "\"a)\" & (b").toOption.map Expr.shape =
        (Query.parse {} "'& |' & (c:d").toOption.map Expr.shape := by
  have h : (Token.lex "\"a)\" & (b").map Token.kind =
      (Token.lex "'& |' & (c:d").map Token.kind := by
    decide +kernel
  exact ⟨h, (parse_texts 128 []).2 {} _ _ h⟩

end Search

end SearchFilter
