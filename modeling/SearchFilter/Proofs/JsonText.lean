import SearchFilter.Json.Encoding
import SearchFilter.Proofs.Literal

/-!
# JSON is read in one way

Different values are written as different texts (`render_inj`), on one line as well as indented;
and different tokens and different expressions are different values (`Token.toJson_inj`,
`Expr.toJson_inj`).

A value ends in one place (`pieces_inj`): its first character tells what it is, and a literal in it
ends where it should.  An item is followed by a comma or by the bracket that closes the container,
with a gap in front of the bracket.  A gap is blank in either layout, so it hides neither.
-/

namespace SearchFilter

namespace Json

/-! ### Gaps -/

/-- The gaps of a layout hold nothing but spaces and line ends. -/
def Layout.Blank (layout : Layout) : Prop :=
  ∀ depth, ∀ c ∈ (layout.gap depth).toList, c = '\n' ∨ c = ' '

namespace Layout

theorem blank_compact : compact.Blank := fun _ _ hc => absurd hc List.not_mem_nil

theorem blank_indented : indented.Blank := by
  intro depth c hc
  rcases List.mem_cons.mp (String.toList_ofList ▸ hc) with rfl | hc
  · exact .inl rfl
  · exact .inr (List.eq_of_mem_replicate hc)

/-- The first character behind a gap is told apart from any other that is not blank. -/
theorem Blank.gap_append_ne {layout : Layout} (h : layout.Blank) (depth : Nat) {c d : Char}
    (hne : c ≠ d) (hd : ¬ (d = '\n' ∨ d = ' ')) (cs ds : List Char) :
    (layout.gap depth).toList ++ c :: cs ≠ d :: ds := by
  intro heq
  cases hgap : (layout.gap depth).toList with
  | nil =>
    rw [hgap] at heq
    exact hne (List.cons.inj heq).1
  | cons g gs =>
    rw [hgap] at heq
    refine hd (h depth d ?_)
    rw [hgap, ← (List.cons.inj heq).1]
    exact List.mem_cons_self

end Layout

/-! ### What is written -/

/-- The characters of the pieces of a text. -/
def written (ps : List String) : List Char := ps.flatMap String.toList

theorem written_cons (p : String) (ps : List String) :
    written (p :: ps) = p.toList ++ written ps := rfl

variable {layout : Layout} {depth : Nat} {a b : Json} {r s : List String}

theorem written_array_nil : written (pieces layout depth (.array []) r) = '[' :: ']' :: written r :=
  rfl

theorem written_array_cons (item : Json) (items : List Json) :
    written (pieces layout depth (.array (item :: items)) r) =
      '[' :: ((layout.gap (depth + 1)).toList ++ written (pieces layout (depth + 1) item
        (itemPieces layout (depth + 1) items (layout.gap depth :: "]" :: r)))) :=
  rfl

theorem written_object_nil :
    written (pieces layout depth (.object []) r) = '\x7b' :: '\x7d' :: written r :=
  rfl

theorem written_object_cons (key : String) (value : Json) (fields : List (String × Json)) :
    written (pieces layout depth (.object ((key, value) :: fields)) r) =
      '\x7b' :: ((layout.gap (depth + 1)).toList ++ ((literal key).toList ++
        (layout.colon.toList ++ written (pieces layout (depth + 1) value
          (fieldPieces layout (depth + 1) fields (layout.gap depth :: "\x7d" :: r)))))) :=
  rfl

theorem written_itemPieces_cons (item : Json) (items : List Json) :
    written (itemPieces layout depth (item :: items) r) =
      ',' :: ((layout.gap depth).toList ++
        written (pieces layout depth item (itemPieces layout depth items r))) :=
  rfl

theorem written_fieldPieces_cons (key : String) (value : Json) (fields : List (String × Json)) :
    written (fieldPieces layout depth ((key, value) :: fields) r) =
      ',' :: ((layout.gap depth).toList ++ ((literal key).toList ++ (layout.colon.toList ++
        written (pieces layout depth value (fieldPieces layout depth fields r))))) :=
  rfl

/-! ### What the first character tells -/

/-- The first character of a value. -/
def lead : Json → Char
  | .bool true => 't'
  | .bool false => 'f'
  | .string _ => '"'
  | .array _ => '['
  | .object _ => '\x7b'

theorem exists_written_pieces (layout : Layout) (depth : Nat) (a : Json) (r : List String) :
    ∃ cs, written (a.pieces layout depth r) = a.lead :: cs := by
  match a with
  | .bool true | .bool false => exact ⟨_, rfl⟩
  | .string text => exact ⟨_, by rw [pieces, written_cons, toList_literal, List.cons_append]; rfl⟩
  | .array [] => exact ⟨_, written_array_nil⟩
  | .array (item :: items) => exact ⟨_, written_array_cons item items⟩
  | .object [] => exact ⟨_, written_object_nil⟩
  | .object ((key, value) :: fields) => exact ⟨_, written_object_cons key value fields⟩

theorem lead_eq_of_written (h : written (a.pieces layout depth r) =
    written (b.pieces layout depth s)) : a.lead = b.lead := by
  obtain ⟨cs, ha⟩ := exists_written_pieces layout depth a r
  obtain ⟨ds, hb⟩ := exists_written_pieces layout depth b s
  rw [ha, hb] at h
  exact (List.cons.inj h).1

/-- A value behind a gap is no bracket. -/
theorem gap_pieces_ne_close (h : layout.Blank) (a : Json) (depth depth' : Nat) (r : List String)
    (cs : List Char) :
    (layout.gap depth).toList ++ written (a.pieces layout depth' r) ≠ ']' :: cs := by
  obtain ⟨ds, ha⟩ := exists_written_pieces layout depth' a r
  have hlead : a.lead ≠ ']' := by
    unfold lead
    split <;> decide
  rw [ha]
  exact h.gap_append_ne depth hlead (by decide) ds cs

/-- A key behind a gap is no brace. -/
theorem gap_literal_ne_close (h : layout.Blank) (key : String) (depth : Nat) (r cs : List Char) :
    (layout.gap depth).toList ++ ((literal key).toList ++ r) ≠ '\x7d' :: cs := by
  rw [toList_literal]
  exact h.gap_append_ne depth (by decide) (by decide) _ cs

/-! ### Where a value ends -/

/-- Pieces that do not begin with a comma. -/
def NoComma (r : List String) : Prop := ∀ cs, written r ≠ ',' :: cs

theorem noComma_bracket (h : layout.Blank) (depth : Nat) (r : List String) :
    NoComma (layout.gap depth :: "]" :: r) :=
  h.gap_append_ne depth (by decide) (by decide) (written r)

theorem noComma_brace (h : layout.Blank) (depth : Nat) (r : List String) :
    NoComma (layout.gap depth :: "\x7d" :: r) :=
  h.gap_append_ne depth (by decide) (by decide) (written r)

mutual

/-- **A value ends in one place, and its text tells the value.** -/
theorem pieces_inj (hl : layout.Blank) : ∀ (a b : Json) (depth : Nat) {r s : List String},
    written (a.pieces layout depth r) = written (b.pieces layout depth s) →
    a = b ∧ written r = written s
  | .bool v, b, depth, r, s, h => by
    have hlead := lead_eq_of_written h
    cases b with
    | bool w =>
      rw [pieces, pieces, written_cons, written_cons] at h
      cases v <;> cases w
      · exact ⟨rfl, List.append_cancel_left h⟩
      · cases hlead
      · cases hlead
      · exact ⟨rfl, List.append_cancel_left h⟩
    | _ => cases v <;> cases hlead
  | .string v, b, depth, r, s, h => by
    have hlead := lead_eq_of_written h
    cases b with
    | string w =>
      rw [pieces, pieces, written_cons, written_cons] at h
      obtain ⟨rfl, hrest⟩ := literal_append_inj h
      exact ⟨rfl, hrest⟩
    | bool w => cases w <;> cases hlead
    | _ => cases hlead
  | .array as, b, depth, r, s, h => by
    have hlead := lead_eq_of_written h
    cases b with
    | array bs =>
      match as, bs with
      | [], [] =>
        rw [written_array_nil, written_array_nil] at h
        exact ⟨rfl, (List.cons.inj (List.cons.inj h).2).2⟩
      | [], b :: bs =>
        rw [written_array_nil, written_array_cons] at h
        exact absurd (List.cons.inj h).2.symm (gap_pieces_ne_close hl b _ _ _ _)
      | a :: as, [] =>
        rw [written_array_nil, written_array_cons] at h
        exact absurd (List.cons.inj h).2 (gap_pieces_ne_close hl a _ _ _ _)
      | a :: as, b :: bs =>
        rw [written_array_cons, written_array_cons] at h
        obtain ⟨hitems, hclose⟩ := itemPieces_inj hl (a :: as) (b :: bs) (depth + 1)
          (noComma_bracket hl depth r) (noComma_bracket hl depth s)
          (congrArg (',' :: ·) (List.cons.inj h).2)
        rw [hitems]
        exact ⟨rfl, List.tail_eq_of_cons_eq (List.append_cancel_left hclose)⟩
    | bool w => cases w <;> cases hlead
    | _ => cases hlead
  | .object as, b, depth, r, s, h => by
    have hlead := lead_eq_of_written h
    cases b with
    | object bs =>
      match as, bs with
      | [], [] =>
        rw [written_object_nil, written_object_nil] at h
        exact ⟨rfl, (List.cons.inj (List.cons.inj h).2).2⟩
      | [], (key, value) :: bs =>
        rw [written_object_nil, written_object_cons] at h
        exact absurd (List.cons.inj h).2.symm (gap_literal_ne_close hl key _ _ _)
      | (key, value) :: as, [] =>
        rw [written_object_nil, written_object_cons] at h
        exact absurd (List.cons.inj h).2 (gap_literal_ne_close hl key _ _ _)
      | (key, value) :: as, (key', value') :: bs =>
        rw [written_object_cons, written_object_cons] at h
        obtain ⟨hfields, hclose⟩ := fieldPieces_inj hl ((key, value) :: as) ((key', value') :: bs)
          (depth + 1) (noComma_brace hl depth r) (noComma_brace hl depth s)
          (congrArg (',' :: ·) (List.cons.inj h).2)
        rw [hfields]
        exact ⟨rfl, List.tail_eq_of_cons_eq (List.append_cancel_left hclose)⟩
    | bool w => cases w <;> cases hlead
    | _ => cases hlead

/-- The items of an array end where no comma follows. -/
theorem itemPieces_inj (hl : layout.Blank) : ∀ (as bs : List Json) (depth : Nat)
    {r s : List String}, NoComma r → NoComma s →
    written (itemPieces layout depth as r) = written (itemPieces layout depth bs s) →
    as = bs ∧ written r = written s
  | [], [], _, _, _, _, _, h => ⟨rfl, h⟩
  | [], _ :: _, _, _, _, hr, _, h => absurd h (hr _)
  | _ :: _, [], _, _, _, _, hs, h => absurd h.symm (hs _)
  | a :: as, b :: bs, depth, r, s, hr, hs, h => by
    rw [written_itemPieces_cons, written_itemPieces_cons] at h
    have hitem := List.append_cancel_left (List.cons.inj h).2
    obtain ⟨rfl, hbehind⟩ := pieces_inj hl a b depth hitem
    obtain ⟨rfl, hrest⟩ := itemPieces_inj hl as bs depth hr hs hbehind
    exact ⟨rfl, hrest⟩

/-- The fields of an object end where no comma follows. -/
theorem fieldPieces_inj (hl : layout.Blank) : ∀ (as bs : List (String × Json)) (depth : Nat)
    {r s : List String}, NoComma r → NoComma s →
    written (fieldPieces layout depth as r) = written (fieldPieces layout depth bs s) →
    as = bs ∧ written r = written s
  | [], [], _, _, _, _, _, h => ⟨rfl, h⟩
  | [], _ :: _, _, _, _, hr, _, h => absurd h (hr _)
  | _ :: _, [], _, _, _, _, hs, h => absurd h.symm (hs _)
  | (key, value) :: as, (key', value') :: bs, depth, r, s, hr, hs, h => by
    rw [written_fieldPieces_cons, written_fieldPieces_cons] at h
    have hkey := List.append_cancel_left (List.cons.inj h).2
    obtain ⟨rfl, hcolon⟩ := literal_append_inj hkey
    have hvalue := List.append_cancel_left hcolon
    obtain ⟨rfl, hbehind⟩ := pieces_inj hl value value' depth hvalue
    obtain ⟨rfl, hrest⟩ := fieldPieces_inj hl as bs depth hr hs hbehind
    exact ⟨rfl, hrest⟩

end

/-- **Different values are written as different texts.** -/
theorem render_inj (hl : layout.Blank) (h : render layout a = render layout b) : a = b := by
  have htext := congrArg String.toList h
  rw [render, render, String.toList_join, String.toList_join] at htext
  exact (pieces_inj hl a b 0 htext).1

end Json

/-! ### Tokens and expressions -/

theorem Token.toJson_inj {t u : Token} (h : t.toJson = u.toJson) : t = u := by
  obtain ⟨kind, text⟩ := t
  obtain ⟨kind', text'⟩ := u
  simp only [toJson, Json.object.injEq, List.cons.injEq, Prod.mk.injEq, Json.string.injEq,
    true_and, and_true] at h
  obtain ⟨hkind, rfl⟩ := h
  rw [Kind.name_injective hkind]

theorem Operator.toJson_inj {op op' : Operator} (h : op.toJson = op'.toJson) : op = op' := by
  obtain ⟨kind, negate⟩ := op
  obtain ⟨kind', negate'⟩ := op'
  simp only [toJson, Json.object.injEq, List.cons.injEq, Prod.mk.injEq, Json.string.injEq,
    Json.bool.injEq, true_and, and_true] at h
  obtain ⟨hkind, rfl⟩ := h
  rw [Kind.name_injective hkind]

namespace Expr

mutual

theorem toJson_inj : ∀ {a b : Expr}, a.toJson = b.toJson → a = b
  | .word v, b, h => by
    cases b <;> simp_all [toJson]
  | .string v, b, h => by
    cases b <;> simp_all [toJson]
  | .number v, b, h => by
    cases b <;> simp_all [toJson]
  | .list items, b, h => by
    cases b with
    | list items' =>
      simp only [toJson, Json.object.injEq, List.cons.injEq, Prod.mk.injEq, Json.array.injEq,
        true_and, and_true] at h
      rw [itemsToJson_inj h]
    | _ => simp [toJson] at h
  | .binary left op right, b, h => by
    cases b with
    | binary left' op' right' =>
      simp only [toJson, Json.object.injEq, List.cons.injEq, Prod.mk.injEq,
        true_and, and_true] at h
      obtain ⟨hleft, hop, hright⟩ := h
      rw [toJson_inj hleft, Operator.toJson_inj hop, toJson_inj hright]
    | _ => simp [toJson] at h

theorem itemsToJson_inj : ∀ {as bs : List Expr}, itemsToJson as = itemsToJson bs → as = bs
  | [], [], _ => rfl
  | [], _ :: _, h => by cases h
  | _ :: _, [], h => by cases h
  | a :: as, b :: bs, h => by
    obtain ⟨hitem, hitems⟩ := List.cons.inj h
    rw [toJson_inj hitem, itemsToJson_inj hitems]

end

end Expr

end SearchFilter
