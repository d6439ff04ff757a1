import SearchFilter.Proofs.Provenance
import SearchFilter.Query

/-!
# The fallback field

The field that a term without an operator is looked for in reaches the expression of a search in at
most one place (`parse_field`).  Of three things exactly one holds for given tokens: they are
refused for every field, with one error; they read as one expression for every field; or they read
as a context with one hole, which for every field holds the fallback search for the last token.  So
two filters of one query differ in a single field name.

The one rule that reads the field is the one for a last leaf, and it reads to the end of the tokens.
Behind it every call hands on what it carries (`reads_at_end`), so no second fallback can follow;
and a call that goes on elsewhere has carried nothing that depends on the field.  `Call.Blind` says
so for one call, and every rule of reading keeps it (`Reads.blind`).  In six rules a call goes on
with what a subcall has read and puts it in a context of its own; `GoesOn` is what they share.
-/

namespace SearchFilter

/-! ### Filters of contexts -/

namespace Expr

theorem tailText_append (as bs : List Expr) : tailText (as ++ bs) = tailText as ++ tailText bs := by
  induction as with
  | nil => simp [tailText]
  | cons a as ih => simp [tailText, ih, String.append_assoc]

/-- What stands in front of an item in the text of a list, and what stands behind it. -/
theorem itemsText_split (as bs : List Expr) :
    ∃ before after, ∀ e, itemsText (as ++ e :: bs) = before ++ e.text ++ after := by
  cases as with
  | nil => exact ⟨"", tailText bs, fun e => by simp [itemsText]⟩
  | cons a as =>
    refine ⟨a.text ++ tailText as ++ ",", tailText bs, fun e => ?_⟩
    simp [itemsText, tailText, tailText_append, String.append_assoc]

/-- The text of what stands in a hole is a part of the text of the whole. -/
theorem Context.text_fill (C : Context) :
    ∃ before after, ∀ e, (C.fill e).text = before ++ e.text ++ after := by
  induction C with
  | hole => exact ⟨"", "", fun e => by simp [fill]⟩
  | left C op r ih =>
    obtain ⟨before, after, h⟩ := ih
    refine ⟨"(" ++ before, after ++ infixText op ++ r.text ++ ")", fun e => ?_⟩
    simp [fill, text, h, String.append_assoc]
  | right l op C ih =>
    obtain ⟨before, after, h⟩ := ih
    refine ⟨"(" ++ l.text ++ infixText op ++ before, after ++ ")", fun e => ?_⟩
    simp [fill, text, h, String.append_assoc]
  | item as C bs ih =>
    obtain ⟨before, after, h⟩ := ih
    obtain ⟨first, last, hitems⟩ := itemsText_split as bs
    refine ⟨"(" ++ first ++ before, after ++ last ++ ")", fun e => ?_⟩
    simp [fill, text, hitems, h, String.append_assoc]

end Expr

namespace Search

variable {field : String} {limit depth : Nat} {call : Call} {r : Reading (Option Expr)}

/-! ### The end of the tokens -/

/-- Behind all that can be read a call hands on what it carries.  Of closing parentheses that are
left there it may pass some. -/
theorem reads_at_closings {o : Options} (h : ∀ t ∈ call.start.rest, t.kind = .rparen) :
    ∃ left, left <:+ call.start.rest ∧
      Reads o call ⟨.ok call.carried, ⟨left, call.start.depth⟩⟩ := by
  have head {ts : List Token} {t : Token} (hts : ∀ t ∈ ts, t.kind = .rparen) (ht : t ∈ ts.head?) :
      t.kind = .rparen :=
    hts t (List.mem_of_mem_head? ht)
  have item (c : Cursor) (hc : ∀ t ∈ c.rest, t.kind = .rparen) : Reads o (.item c) ⟨.ok none, c⟩ :=
    reads_noItem fun t ht => by rw [head hc ht]; rfl
  have value (c : Cursor) (hc : ∀ t ∈ c.rest, t.kind = .rparen) :
      Reads o (.value c) ⟨.ok none, c⟩ := .noValue (item c hc) (by simp)
  cases call with
  | item c => exact ⟨_, List.suffix_rfl, item c h⟩
  | value c => exact ⟨_, List.suffix_rfl, value c h⟩
  | moreItems first others c =>
    exact ⟨_, List.suffix_rfl, .lastItem fun t ht => by simp [head h ht]⟩
  | condition c =>
    refine ⟨_, List.suffix_rfl, .noCondition ?_ (value c h) (by simp [Call.carried])⟩
    cases hlast : lastLeaf? c.rest with
    | none => rfl
    | some t =>
      obtain ⟨hrest, ht⟩ := lastLeaf?_eq_some_iff.mp hlast
      have hclose : t.kind = .rparen := h t (by simp [Call.start, hrest])
      rw [hclose] at ht
      cases ht
  | moreValues left c =>
    exact ⟨_, List.suffix_rfl, .lastValue fun t ht => by rw [head h ht]; rfl⟩
  | search nested left c =>
    obtain ⟨rest, depth⟩ := c
    induction rest with
    | nil => exact ⟨[], List.suffix_rfl, .searchEnd⟩
    | cons t ts ih =>
      obtain ⟨ht, hts⟩ := List.forall_mem_cons.mp h
      cases nested with
      | true => exact ⟨_, List.suffix_rfl, .closed ht⟩
      | false =>
        obtain ⟨rest, hrest, hread⟩ := ih hts
        have hopen : false = true → t.kind ≠ .rparen := fun h => by cases h
        exact ⟨rest, hrest.trans (List.suffix_cons t ts), .passed (by rw [ht]; rfl) hopen
          (fun _ => by rw [ht]; rfl) hread⟩

/-- At the end of the tokens a call hands on what it carries. -/
theorem reads_at_end {o : Options} (h : call.start.rest = []) :
    Reads o call ⟨.ok call.carried, call.start⟩ := by
  have hnone : ∀ t ∈ call.start.rest, t.kind = .rparen := by simp [h]
  obtain ⟨left, hleft, hread⟩ := reads_at_closings (o := o) hnone
  rw [h, List.suffix_nil] at hleft
  rwa [hleft, ← h] at hread

/-! ### Calls that go on -/

/-- What a call goes on with behind a subcall.  Whatever the subcall has read, there is a call that
begins where it stopped and carries what was read in the context `D`. -/
structure GoesOn {α : Type} (read : α → Option Expr) (more : α → Cursor → Call)
    (D : Expr.Context) : Prop where
  exists_read (e : Expr) : ∃ a, read a = some e
  start (a : α) (c : Cursor) : (more a c).start = c := by intros; rfl
  carried (a : α) (c d : Cursor) : (more a c).carried = (more a d).carried := by intros; rfl
  carried_read (a : α) (c : Cursor) (e : Expr) (h : read a = some e) :
    (more a c).carried = some (D.fill e)

namespace GoesOn

theorem items : GoesOn some (fun e c => .moreItems e [] c) .hole where
  exists_read e := ⟨e, rfl⟩
  carried_read _ _ _ h := h

theorem nextItem (first : Expr) (others : List Expr) :
    GoesOn some (fun e c => .moreItems first (e :: others) c)
      (.item (first :: others.reverse) .hole []) where
  exists_read e := ⟨e, rfl⟩
  carried_read _ _ _ h := by
    cases h
    exact congrArg some (Expr.ofItems_reverse_cons ..)

theorem values : GoesOn some (fun e c => .moreValues e c) .hole where
  exists_read e := ⟨e, rfl⟩
  carried_read _ _ _ h := h

theorem nextValue (left : Expr) (op : Operator) :
    GoesOn some (fun e c => .moreValues (.binary left op e) c) (.right left op .hole) where
  exists_read e := ⟨e, rfl⟩
  carried_read _ _ _ h := by cases h; rfl

theorem search (nested : Bool) : GoesOn id (fun e c => .search nested e c) .hole where
  exists_read e := ⟨some e, rfl⟩
  carried_read _ _ _ h := h

end GoesOn

/-- Where what is joined to the expression on the left stands, if there is one. -/
def joinedContext (op : Operator.Kind) : Option Expr → Expr.Context
  | none => .hole
  | some left => .right left { kind := op } .hole

theorem GoesOn.joined (nested : Bool) (op : Operator.Kind) (left : Option Expr) :
    GoesOn id (fun e c => .search nested (Expr.join op left e) c) (joinedContext op left) where
  exists_read e := ⟨some e, rfl⟩
  carried_read _ _ _ h := by
    cases h
    cases left <;> rfl

/-- At the end of the tokens what was read is handed on in its context. -/
theorem GoesOn.reads_at_end {α : Type} {read : α → Option Expr} {more : α → Cursor → Call}
    {D : Expr.Context} {o : Options} {a : α} {e : Expr} (h : GoesOn read more D)
    (ha : read a = some e) (depth : Nat) :
    Reads o (more a ⟨[], depth⟩) ⟨.ok (some (D.fill e)), ⟨[], depth⟩⟩ := by
  have hend : (more a ⟨[], depth⟩).start.rest = [] := by rw [h.start]
  have hread := Search.reads_at_end (o := o) hend
  rwa [h.carried_read a _ e ha, h.start] at hread

/-! ### Readings that know no field -/

/-- The last token is a leaf, and for every field the call reads to the end with the fallback search
for that leaf in the context. -/
def Call.ReadsLast (limit : Nat) (call : Call) (C : Expr.Context) (t : Token) (depth : Nat) :
    Prop :=
  t ∈ call.start.rest.getLast? ∧ t.kind.isLeaf = true ∧ ∀ field,
    Reads ⟨field, limit⟩ call ⟨.ok (some (C.fill (.fallback field t.text))), ⟨[], depth⟩⟩

/-- The last token stays the last where more tokens stand in front. -/
theorem Call.ReadsLast.of_rest {first : Call} {C D : Expr.Context} {t : Token} {depth depth' : Nat}
    (h : first.ReadsLast limit C t depth) (hrest : first.start.rest <:+ call.start.rest)
    (hreads : ∀ field, Reads ⟨field, limit⟩ call
      ⟨.ok (some (D.fill (.fallback field t.text))), ⟨[], depth'⟩⟩) :
    call.ReadsLast limit D t depth' := by
  refine ⟨?_, h.2.1, hreads⟩
  obtain ⟨before, hbefore⟩ := hrest
  rw [← hbefore, List.getLast?_append, Option.mem_def.mp h.1]
  rfl

/-- What the call reads for the field it reads for every field, or every field stands in the
fallback search for the last token, and all else is the same. -/
def Call.Blind (field : String) (limit : Nat) (call : Call) (r : Reading (Option Expr)) : Prop :=
  (∀ field, Reads ⟨field, limit⟩ call r) ∨ ∃ C t depth, call.ReadsLast limit C t depth ∧
    r = ⟨.ok (some (C.fill (.fallback field t.text))), ⟨[], depth⟩⟩

namespace Call.Blind

variable {first : Call} {next : Cursor} {e : Expr}

/-- A reading without an expression holds no field. -/
theorem constant (h : Blind field limit call r) (hr : ∀ e, r.value ≠ .ok (some e)) :
    ∀ field, Reads ⟨field, limit⟩ call r := by
  rcases h with h | ⟨C, t, depth, -, rfl⟩
  · exact h
  · exact absurd rfl (hr _)

/-- A call that goes on, for every field, where another begins reads as blindly. -/
theorem passing {more : Call} (h : Blind field limit more r)
    (hrest : more.start.rest <:+ call.start.rest)
    (rule : ∀ field r, Reads ⟨field, limit⟩ more r → Reads ⟨field, limit⟩ call r) :
    Blind field limit call r := by
  rcases h with h | ⟨C, t, depth, h, rfl⟩
  · exact .inl fun field => rule field r (h field)
  · exact .inr ⟨C, t, depth, h.of_rest hrest fun field => rule field _ (h.2.2 field), rfl⟩

/-- What is known for every field is known for the one. -/
theorem reads (h : Blind field limit call r) : Reads ⟨field, limit⟩ call r := by
  rcases h with h | ⟨C, t, depth, ⟨-, -, h⟩, rfl⟩
  · exact h field
  · exact h field

/-- A call that goes on with what another has read.  If that holds the field, nothing is left, and
it is handed on in a context of its own. -/
theorem behind {α : Type} {read : α → Option Expr} {more : α → Cursor → Call} {D : Expr.Context}
    {a : α} (h : GoesOn read more D) (hfirst : Blind field limit first ⟨.ok (read a), next⟩)
    (hmore : Blind field limit (more a next) r) (hrest : first.start.rest <:+ call.start.rest)
    (rule : ∀ field a c r, Reads ⟨field, limit⟩ first ⟨.ok (read a), c⟩ →
      Reads ⟨field, limit⟩ (more a c) r → Reads ⟨field, limit⟩ call r) :
    Blind field limit call r := by
  have hread := hmore.reads
  rcases hfirst with hfirst | ⟨C, t, depth, hlast, heq⟩
  · refine hmore.passing ?_ fun field r => rule field a next r (hfirst field)
    rw [h.start]
    exact (hfirst field).suffix.trans hrest
  · obtain ⟨ha, rfl⟩ := Reading.mk.inj heq
    replace ha := Except.ok.inj ha
    obtain rfl := hread.reading_eq.symm.trans (h.reads_at_end ha depth).reading_eq
    refine .inr ⟨D.comp C, t, depth, ?_, by rw [Expr.Context.fill_comp]⟩
    refine hlast.of_rest hrest fun field => ?_
    obtain ⟨b, hb⟩ := h.exists_read (C.fill (.fallback field t.text))
    rw [Expr.Context.fill_comp]
    exact rule field b _ _ (hb ▸ hlast.2.2 field) (h.reads_at_end hb depth)

end Call.Blind

/-- **Every rule of reading is blind to the field.** -/
theorem Reads.blind (h : Reads ⟨field, limit⟩ call r) : call.Blind field limit r := by
  induction h with
  | noItem h => exact .inl fun _ => .noItem h
  | leaf h ht => exact .inl fun _ => .leaf h ht
  | @group t ts depth v next ht hroom _ ih =>
    have hd : depth < limit := hroom
    rcases ih with ih | ⟨C, last, depth', hlast, heq⟩
    · exact .inl fun field => .group ht hd (ih field)
    · cases heq
      have hgroup (field : String) : Reads ⟨field, limit⟩ (.item ⟨t :: ts, depth⟩)
          ⟨.ok (some (C.fill (.fallback field last.text))), ⟨[], depth' - 1⟩⟩ :=
        .group ht hd (hlast.2.2 field)
      exact .inr ⟨C, last, depth' - 1, hlast.of_rest (List.suffix_cons t ts) hgroup, rfl⟩
  | noValue _ h ih => exact .inl fun field => .noValue (ih.constant h field) h
  | value _ _ ih₁ ih₂ =>
    exact .behind .items ih₁ ih₂ List.suffix_rfl fun _ _ _ _ => .value
  | lastItem h => exact .inl fun _ => .lastItem h
  | @nextItem first e others t ts depth next r ht _ _ ih₁ ih₂ =>
    exact .behind (.nextItem first others) ih₁ ih₂ (List.suffix_cons t ts)
      fun _ _ _ _ => .nextItem ht
  | trailingColon ht _ ih => exact .inl fun field => .trailingColon ht (ih.constant nofun field)
  | badItem ht _ ih => exact .inl fun field => .badItem ht (ih.constant nofun field)
  | @fallback c t h =>
    obtain ⟨hrest, hleaf⟩ := lastLeaf?_eq_some_iff.mp h
    have hlast : t ∈ c.rest.getLast? := by rw [hrest]; rfl
    exact .inr ⟨.hole, t, c.depth, ⟨hlast, hleaf, fun _ => .fallback h⟩, rfl⟩
  | noCondition hc _ h ih => exact .inl fun field => .noCondition hc (ih.constant h field) h
  | condition hc _ _ ih₁ ih₂ =>
    exact .behind .values ih₁ ih₂ List.suffix_rfl fun _ _ _ _ => .condition hc
  | lastValue h => exact .inl fun _ => .lastValue h
  | @nextValue left e op t ts depth next r ht _ _ ih₁ ih₂ =>
    exact .behind (.nextValue left { kind := op }) ih₁ ih₂ (List.suffix_cons t ts)
      fun _ _ _ _ => .nextValue ht
  | droppedComparison ht _ ih =>
    exact .inl fun field => .droppedComparison ht (ih.constant nofun field)
  | badValue ht _ ih => exact .inl fun field => .badValue ht (ih.constant nofun field)
  | searchEnd => exact .inl fun _ => .searchEnd
  | lastOperator ht => exact .inl fun _ => .lastOperator ht
  | @joined nested left right op t ts depth next r ht hts operand _ ih₁ ih₂ =>
    exact .behind (.joined nested op left) ih₁ ih₂ (List.suffix_cons t ts)
      fun _ _ _ _ => .joined ht hts
  | badOperand ht hts _ ih => exact .inl fun field => .badOperand ht hts (ih.constant nofun field)
  | closed ht => exact .inl fun _ => .closed ht
  | @first nested e t ts depth next r ht operand _ ih₁ ih₂ =>
    exact .behind (.search nested) ih₁ ih₂ List.suffix_rfl fun _ _ _ _ => .first ht
  | badFirst ht _ ih => exact .inl fun field => .badFirst ht (ih.constant nofun field)
  | passed hlogic hclose hatom _ ih =>
    exact ih.passing (List.suffix_cons _ _) fun _ _ => .passed hlogic hclose hatom

/-! ### Whole searches -/

/-- The tokens are refused for every field, with one error. -/
def RefusedAlike (limit : Nat) (ts : List Token) : Prop :=
  ∃ err, ∀ field, parse ⟨field, limit⟩ ts = .error err

/-- The tokens read as one expression for every field. -/
def ReadAlike (limit : Nat) (ts : List Token) : Prop :=
  ∃ e, ∀ field, parse ⟨field, limit⟩ ts = .ok e

/-- The tokens read as a context that for every field holds the fallback search for one term: for
the last token, a leaf, or for the empty term and then with nothing around it. -/
def ReadAround (limit : Nat) (ts : List Token) : Prop :=
  ∃ (C : Expr.Context) (term : String),
    (∀ field, parse ⟨field, limit⟩ ts = .ok (C.fill (.fallback field term))) ∧
    ((∃ t ∈ ts.getLast?, t.kind.isLeaf = true ∧ term = t.text) ∨ C = .hole ∧ term = "")

variable {ts : List Token}

/-- A search that reads nothing looks for the empty term. -/
theorem readAround_empty {next : Cursor}
    (h : ∀ field, Reads ⟨field, limit⟩ (.search false none ⟨ts, 0⟩) ⟨.ok none, next⟩) :
    ReadAround limit ts :=
  ⟨.hole, "", fun field => (h field).parse_eq_map, .inr ⟨rfl, rfl⟩⟩

theorem parse_cases_field (limit : Nat) (ts : List Token) :
    RefusedAlike limit ts ∨ ReadAlike limit ts ∨ ReadAround limit ts := by
  have hread := reads_reading ⟨"", limit⟩ (.search false none ⟨ts, 0⟩)
  generalize (Call.search false none ⟨ts, 0⟩).reading ⟨"", limit⟩ = r at hread
  rcases hread.blind with h | ⟨C, t, depth, ⟨ht, hleaf, h⟩, -⟩
  · obtain ⟨v, next⟩ := r
    match v with
    | .error err => exact .inl ⟨err, fun field => (h field).parse_eq_map⟩
    | .ok (some e) => exact .inr (.inl ⟨e, fun field => (h field).parse_eq_map⟩)
    | .ok none => exact .inr (.inr (readAround_empty h))
  · exact .inr (.inr ⟨C, t.text, fun field => (h field).parse_eq_map, .inl ⟨t, ht, hleaf, rfl⟩⟩)

theorem RefusedAlike.not_readAlike (h : RefusedAlike limit ts) : ¬ ReadAlike limit ts := by
  obtain ⟨err, herr⟩ := h
  rintro ⟨e, he⟩
  cases (herr "").symm.trans (he "")

theorem RefusedAlike.not_readAround (h : RefusedAlike limit ts) : ¬ ReadAround limit ts := by
  obtain ⟨err, herr⟩ := h
  rintro ⟨C, term, hC, -⟩
  cases (herr "").symm.trans (hC "")

/-- Two fields show in the hole. -/
theorem ReadAlike.not_readAround (h : ReadAlike limit ts) : ¬ ReadAround limit ts := by
  obtain ⟨e, he⟩ := h
  rintro ⟨C, term, hC, -⟩
  have hfill (field : String) : C.fill (.fallback field term) = e :=
    Except.ok.inj ((hC field).symm.trans (he field))
  have hsame := C.fill_inj ((hfill "a").trans (hfill "b").symm)
  exact absurd hsame (by simp [Expr.fallback])

theorem compile_eq (o : Options) (text : String) :
    Query.compile o text = (parse o (Token.lex text)).map Expr.text := by
  simp only [Query.compile, Query.parse, show Expr.filter = Expr.text from funext Expr.filter_eq]

/-- **The fallback field reaches an expression in at most one place.**  Tokens are refused for
every field with one error, or read as one expression for every field, or read as a context whose
one hole holds the fallback search for the last token or, with nothing around it, for the empty
term; and only one of these holds.  So for all fields a query is refused alike, or has one filter,
or has filters that differ only in the field of one comparison. -/
theorem parse_field (limit : Nat) (ts : List Token) (text : String) :
    (RefusedAlike limit ts ∨ ReadAlike limit ts ∨ ReadAround limit ts) ∧
    ¬ (RefusedAlike limit ts ∧ ReadAlike limit ts) ∧
    ¬ (RefusedAlike limit ts ∧ ReadAround limit ts) ∧
    ¬ (ReadAlike limit ts ∧ ReadAround limit ts) ∧
    ((∃ err, ∀ field, Query.compile ⟨field, limit⟩ text = .error err) ∨
      (∃ filter, ∀ field, Query.compile ⟨field, limit⟩ text = .ok filter) ∨
      ∃ before term after, ∀ field, Query.compile ⟨field, limit⟩ text =
        .ok (before ++ ("(" ++ Expr.bare field ++ " LIKE " ++ Json.literal term ++ ")") ++
          after)) := by
  refine ⟨parse_cases_field limit ts, fun h => h.1.not_readAlike h.2,
    fun h => h.1.not_readAround h.2, fun h => h.1.not_readAround h.2, ?_⟩
  rcases parse_cases_field limit (Token.lex text) with ⟨err, h⟩ | ⟨e, h⟩ | ⟨C, term, h, -⟩
  · exact .inl ⟨err, fun field => by rw [compile_eq, h]; rfl⟩
  · exact .inr (.inl ⟨e.text, fun field => by rw [compile_eq, h]; rfl⟩)
  · obtain ⟨before, after, htext⟩ := C.text_fill
    refine .inr (.inr ⟨before, term, after, fun field => ?_⟩)
    rw [compile_eq, h, Except.map, htext]
    rfl

end Search

end SearchFilter
