import SearchFilter.Proofs.Brackets
import SearchFilter.Proofs.Calls

/-!
# Where a group ends

A group ends at the first `)` that is met while it is read.  In `x & ( a ( b ) | c )` that is not
the parenthesis one would expect: no group can begin behind `a`, so the second `(` is passed over
like any other token in a wrong place, and its `)` ends the group.

The main result `group_end` tells both cases apart, for every group of a search whose parentheses
are balanced and not too deeply nested.  The parenthesis at which the group ends never stands behind
the match, and it is the match exactly when no `(` is passed over inside.

The proof goes by counting.  Whatever is read inside a search closes only what it opens, and closes
all of it unless a `(` is passed over (`Reads.spans`); the induction needs that no group is left
open at the end of the tokens, for which every place must stand under as many open parentheses as
groups have been entered (`Cursor.Under`).
-/

namespace SearchFilter.Search
open Brackets

variable {o : Options} {call : Call} {ts : List Token}

/-! ### Parentheses -/

/-- The token opens a group. -/
def opens (t : Token) : Bool := t.kind = .lparen

/-- The token closes a group. -/
def closes (t : Token) : Bool := t.kind = .rparen

/-- Every parenthesis has its match. -/
abbrev Balanced (ts : List Token) : Prop := Brackets.Balanced opens closes ts

/-- At most `n` groups are open at once. -/
abbrev NestedWithin (n : Nat) (ts : List Token) : Prop := Brackets.NestedWithin opens closes n ts

section

variable {t : Token}

theorem opens_lparen (ht : t.kind = .lparen) : opens t = true ∧ closes t = false := by
  simp [opens, closes, ht]

theorem opens_rparen (ht : t.kind = .rparen) : opens t = false ∧ closes t = true := by
  simp [opens, closes, ht]

theorem opens_other (hopen : t.kind ≠ .lparen) (hclose : t.kind ≠ .rparen) :
    opens t = false ∧ closes t = false := by
  simp [opens, closes, hopen, hclose]

theorem closes_of_opens (t : Token) (h : opens t = true) : closes t = false :=
  (opens_lparen (of_decide_eq_true h)).2

theorem count_lparen (ht : t.kind = .lparen) (ts : List Token) :
    (t :: ts).countP opens = ts.countP opens + 1 ∧ (t :: ts).countP closes = ts.countP closes :=
  count_open (opens_lparen ht).1 (opens_lparen ht).2 ts

theorem count_rparen (ht : t.kind = .rparen) (ts : List Token) :
    (t :: ts).countP opens = ts.countP opens ∧ (t :: ts).countP closes = ts.countP closes + 1 :=
  count_close (opens_rparen ht).1 (opens_rparen ht).2 ts

end

/-! ### Parentheses that are passed over -/

/-- The call stands, with something on its left, at a parenthesis that opens.  It passes over it. -/
def Call.AtStrayParen : Call → Prop
  | .search _ left c => left.isSome ∧ ∃ t ∈ c.rest.head?, t.kind = .lparen
  | _ => False

/-- In the course of the call a parenthesis that opens is passed over. -/
abbrev Call.PassesParen (o : Options) (call : Call) : Prop := call.Meets o Call.AtStrayParen

theorem Call.not_atStrayParen_nil {nested : Bool} {left : Option Expr} {depth : Nat} :
    ¬ (Call.search nested left ⟨[], depth⟩).AtStrayParen := by
  rintro ⟨-, t, ht, -⟩
  cases ht

theorem Call.not_atStrayParen_cons {nested : Bool} {left : Option Expr} {t : Token} {depth : Nat}
    (ht : t.kind ≠ .lparen) : ¬ (Call.search nested left ⟨t :: ts, depth⟩).AtStrayParen := by
  rintro ⟨-, u, hu, hparen⟩
  cases hu
  exact ht hparen

theorem Call.not_atStrayParen_none {nested : Bool} {c : Cursor} :
    ¬ (Call.search nested none c).AtStrayParen := by
  rintro ⟨h, -⟩
  cases h

/-! ### What is read between two places -/

/-- What is read from one place to another closes no group but its own, and it closes all that it
opens unless a parenthesis is passed over. -/
def Spans (passes : Prop) (c next : Cursor) : Prop :=
  ∃ read, c.rest = read ++ next.rest ∧ next.depth = c.depth ∧ Within opens closes 0 read ∧
    (read.countP closes = read.countP opens ↔ ¬ passes)

namespace Spans

variable {p q : Prop} {c d e : Cursor} {t : Token} {depth : Nat}

theorem refl (c : Cursor) : Spans False c c :=
  ⟨[], rfl, rfl, within_nil 0, by simp⟩

theorem congr (h : Spans p c d) (hpq : p ↔ q) : Spans q c d := by
  rwa [← propext hpq]

theorem trans (hcd : Spans p c d) (hde : Spans q d e) : Spans (p ∨ q) c e := by
  obtain ⟨as, has, hdepth, hwithin, heq⟩ := hcd
  obtain ⟨bs, hbs, hdepth', hwithin', heq'⟩ := hde
  refine ⟨as ++ bs, ?_, hdepth'.trans hdepth, hwithin.append hwithin', ?_⟩
  · rw [has, hbs, List.append_assoc]
  · have := hwithin.closed_le
    have := hwithin'.closed_le
    rw [not_or, ← heq, ← heq', List.countP_append, List.countP_append]
    omega

theorem depth_eq (h : Spans p c d) : d.depth = c.depth := by
  obtain ⟨_, _, hdepth, _⟩ := h
  exact hdepth

/-- A token that is no parenthesis. -/
theorem other (hopen : t.kind ≠ .lparen) (hclose : t.kind ≠ .rparen)
    (h : Spans p ⟨ts, depth⟩ d) : Spans p ⟨t :: ts, depth⟩ d := by
  obtain ⟨read, rfl, hdepth, hwithin, heq⟩ := h
  obtain ⟨ho, hc⟩ := opens_other hopen hclose
  have hcount := count_other ho hc read
  refine ⟨t :: read, rfl, hdepth, (within_other ho hc).mpr hwithin, ?_⟩
  rw [hcount.1, hcount.2, heq]

/-- A parenthesis that is passed over stays open. -/
theorem stray (ht : t.kind = .lparen) (h : Spans p ⟨ts, depth⟩ d) :
    Spans True ⟨t :: ts, depth⟩ d := by
  obtain ⟨read, rfl, hdepth, hwithin, -⟩ := h
  obtain ⟨ho, hc⟩ := opens_lparen ht
  have hcount := count_open ho hc read
  have hclosed := hwithin.closed_le
  refine ⟨t :: read, rfl, hdepth, (within_open ho hc).mpr fun p hp => ?_, ?_⟩
  · exact Nat.le_trans (hwithin p hp) (by omega)
  · simp only [not_true_eq_false, iff_false]
    omega

/-- A group, from its opening parenthesis to behind the closing one. -/
theorem group {closing : Token} {after : List Token} {depth' : Nat} (ht : t.kind = .lparen)
    (hclosing : closing.kind = .rparen)
    (h : Spans p ⟨ts, depth + 1⟩ ⟨closing :: after, depth'⟩) :
    Spans p ⟨t :: ts, depth⟩ (Cursor.leave ⟨closing :: after, depth'⟩) := by
  obtain ⟨read, rfl, hdepth : depth' = depth + 1, hwithin, heq⟩ := h
  subst hdepth
  obtain ⟨ho, hc⟩ := opens_lparen ht
  have hcount := count_open ho hc (read ++ [closing])
  have hcount' := count_rparen hclosing []
  have hclosed := hwithin.closed_le
  simp only [List.countP_append, List.countP_nil] at hcount hcount'
  refine ⟨t :: (read ++ [closing]), by simp [Cursor.leave, hclosing], rfl, ?_, ?_⟩
  · refine (within_open ho hc).mpr (within_append.mpr ⟨fun p hp => ?_, fun p hp => ?_⟩)
    · exact Nat.le_trans (hwithin p hp) (by omega)
    · rcases List.prefix_cons_iff.mp hp with rfl | ⟨q, rfl, hq⟩
      · simpa using Nat.le_trans hclosed (by omega)
      · rw [List.prefix_nil.mp hq, List.countP_append, List.countP_append]
        omega
  · rw [← heq]
    omega

end Spans

/-! ### Places among balanced tokens -/

/-- The place stands among the tokens, and no more groups are open around it than parentheses in
front of it. -/
def Cursor.Under (ts : List Token) (c : Cursor) : Prop :=
  ∃ front, ts = front ++ c.rest ∧ c.depth + front.countP closes ≤ front.countP opens

namespace Cursor.Under

variable {c d : Cursor} {t : Token} {us : List Token} {depth n : Nat} {p : Prop}

theorem spans (h : c.Under ts) (hspans : Spans p c d) : d.Under ts := by
  obtain ⟨front, hts, hcount⟩ := h
  obtain ⟨read, hrest, hdepth, hwithin, -⟩ := hspans
  have := hwithin.closed_le
  refine ⟨front ++ read, by rw [hts, hrest, List.append_assoc], ?_⟩
  rw [hdepth, List.countP_append, List.countP_append]
  omega

/-- A token that does not close a group may be passed over. -/
theorem tail (h : Cursor.Under ts ⟨t :: us, depth⟩) (ht : t.kind ≠ .rparen) :
    Cursor.Under ts ⟨us, depth⟩ := by
  obtain ⟨front, hts, hcount : depth + front.countP closes ≤ front.countP opens⟩ := h
  refine ⟨front ++ [t], by simpa using hts, ?_⟩
  have hclosed : [t].countP closes = 0 := by
    by_cases hopen : t.kind = .lparen
    · exact (count_lparen hopen []).2
    · exact (count_other (opens_other hopen ht).1 (opens_other hopen ht).2 []).2
  rw [List.countP_append, List.countP_append, hclosed]
  exact Nat.le_trans hcount (Nat.le_add_right _ _)

/-- A group may be opened. -/
theorem enter (h : Cursor.Under ts ⟨t :: us, depth⟩) (ht : t.kind = .lparen) :
    Cursor.Under ts ⟨us, depth + 1⟩ := by
  obtain ⟨front, hts, hcount : depth + front.countP closes ≤ front.countP opens⟩ := h
  refine ⟨front ++ [t], by simpa using hts, ?_⟩
  have hopen := count_lparen ht []
  show depth + 1 + (front ++ [t]).countP closes ≤ (front ++ [t]).countP opens
  rw [List.countP_append, List.countP_append, hopen.1, hopen.2, List.countP_nil, List.countP_nil]
  omega

/-- Outside all groups any token may be passed over. -/
theorem tail_zero (h : Cursor.Under ts ⟨t :: us, 0⟩) (hts : Balanced ts) :
    Cursor.Under ts ⟨us, 0⟩ := by
  obtain ⟨front, rfl, -⟩ := h
  exact ⟨front ++ [t], by simp, by simpa using hts.1 (front ++ [t]) (by simp)⟩

/-- There is room for a group where one begins. -/
theorem lt_of_lparen (h : Cursor.Under ts ⟨t :: us, depth⟩) (hts : NestedWithin n ts)
    (ht : t.kind = .lparen) : depth < n := by
  obtain ⟨front, rfl, hcount : depth + front.countP closes ≤ front.countP opens⟩ := h
  have hopen := count_lparen ht []
  have hnested := hts (front ++ [t]) (by simp)
  simp only [List.countP_append, List.countP_nil] at hopen hnested
  omega

/-- No parenthesis is skipped for want of room. -/
theorem skipParens_eq (h : c.Under ts) (hts : NestedWithin n ts) : c.skipParens n = c := by
  obtain ⟨rest, depth⟩ := c
  refine skipParens_of_room ?_
  rintro t us rfl ht
  exact h.lt_of_lparen hts ht

/-- Behind a parenthesis that opens, more parentheses close than open. -/
theorem opened_lt_closed (h : Cursor.Under ts ⟨t :: us, depth⟩) (hts : Balanced ts)
    (ht : t.kind = .lparen) : us.countP opens < us.countP closes := by
  obtain ⟨front, rfl, hcount : depth + front.countP closes ≤ front.countP opens⟩ := h
  have hopen := count_lparen ht us
  have htotal := hts.2
  simp only [List.countP_append] at htotal
  omega

/-- No group is open at the end of balanced tokens. -/
theorem depth_eq_zero (h : c.Under ts) (hts : Balanced ts) (hend : c.rest = []) : c.depth = 0 := by
  obtain ⟨front, hfront, hcount⟩ := h
  rw [hend, List.append_nil] at hfront
  have := hts.2
  rw [hfront] at this
  omega

end Cursor.Under

/-! ### Every reading -/

/-- Among balanced tokens a group that is read without an error is closed. -/
theorem Reads.group_closed {us : List Token} {depth : Nat} {v : Option Expr} {stop : Cursor}
    {p : Prop} (inner : Reads o (.search true none ⟨us, depth + 1⟩) ⟨.ok v, stop⟩)
    (hts : Balanced ts) (hc : Cursor.Under ts ⟨us, depth + 1⟩)
    (hspans : Spans p ⟨us, depth + 1⟩ stop) :
    ∃ closing after, stop = ⟨closing :: after, depth + 1⟩ ∧ closing.kind = .rparen := by
  have hdepth := hspans.depth_eq
  obtain ⟨rest, depth'⟩ := stop
  rcases inner.search_end with hnil | ⟨-, closing, after, hrest, hclosing⟩
  · -- A group would be open where the tokens end.
    have hzero := (hc.spans hspans).depth_eq_zero hts hnil
    exact absurd (hdepth.symm.trans hzero) (Nat.succ_ne_zero depth)
  · exact ⟨closing, after, congrArg₂ Cursor.mk hrest hdepth, hclosing⟩

/-- **Whatever is read inside a search spans its parentheses.** -/
theorem Reads.spans (hts : Balanced ts) (hnest : NestedWithin o.nestingLimit ts)
    {r : Reading (Option Expr)} (h : Reads o call r) :
    call.Nested → call.start.Under ts → ∀ v, r.value = .ok v →
      Spans (call.PassesParen o) call.start r.next := by
  induction h with
  | @noItem c h =>
    intro _ hc v _
    have hsubs := subcalls_noItem fun t ht hparen => by
      simpa [hparen, Token.Kind.isAtom] using h t ht
    have hskip : c.skipParens o.nestingLimit = c := hc.skipParens_eq hnest
    rw [hskip]
    exact (Spans.refl c).congr (Call.meets_none id hsubs).symm
  | @leaf c t us e h ht =>
    intro _ hc v _
    have hskip : c.skipParens o.nestingLimit = c := hc.skipParens_eq hnest
    have hkind := ne_paren_of_isLeaf (isLeaf_of_ofToken? ht)
    have hsubs : (Call.item c).subcalls o = [] :=
      subcalls_noItem (by rw [h]; rintro u ⟨⟩; exact hkind.1)
    obtain ⟨rest, depth⟩ := c
    obtain rfl : rest = t :: us := by rwa [hskip] at h
    exact ((Spans.refl ⟨us, depth⟩).other hkind.1 hkind.2).congr
      (Call.meets_none id hsubs).symm
  | @group t us depth v next ht hd inner ih =>
    intro _ hc v' hv
    obtain rfl : v = .ok v' := hv
    have hinner : Cursor.Under ts ⟨us, depth + 1⟩ := Cursor.Under.enter hc ht
    have h := ih rfl hinner v' rfl
    obtain ⟨closing, after, rfl, hclosing⟩ := inner.group_closed hts hinner h
    exact (h.group ht hclosing).congr (Call.meets_one id (subcalls_group ht hd)).symm
  | @noValue c r item h ih =>
    intro _ hc v hv
    exact (ih trivial hc v hv).congr (Call.meets_one id (subcalls_noValue item h)).symm
  | value item _ ih₁ ih₂ =>
    intro _ hc v hv
    have h₁ := ih₁ trivial hc _ rfl
    have h₂ := ih₂ trivial (hc.spans h₁) v hv
    exact (h₁.trans h₂).congr (Call.meets_two id (subcalls_value item)).symm
  | lastItem h =>
    intro _ hc v _
    exact (Spans.refl _).congr (Call.meets_none id (subcalls_lastItem h)).symm
  | nextItem ht item _ ih₁ ih₂ =>
    intro _ hc v hv
    have hc' := Cursor.Under.tail hc (by simp [ht])
    have h₁ := ih₁ trivial hc' _ rfl
    have h₂ := ih₂ trivial (hc'.spans h₁) v hv
    exact ((h₁.trans h₂).other (by simp [ht]) (by simp [ht])).congr
      (Call.meets_two id (subcalls_nextItem ht item)).symm
  | trailingColon ht item ih =>
    intro _ hc v _
    have h := ih trivial (Cursor.Under.tail hc (by simp [ht])) none rfl
    exact (h.other (by simp [ht]) (by simp [ht])).congr
      (Call.meets_one id (subcalls_trailingColon ht item (by simp))).symm
  | @fallback c t h =>
    intro _ hc v _
    have hsubs := subcalls_fallback (o := o) h
    obtain ⟨hrest, ht⟩ := lastLeaf?_eq_some_iff.mp h
    obtain ⟨rest, depth⟩ := c
    obtain rfl : rest = [t] := hrest
    have hkind := ne_paren_of_isLeaf ht
    exact ((Spans.refl ⟨[], depth⟩).other hkind.1 hkind.2).congr
      (Call.meets_none id hsubs).symm
  | noCondition hlast value h ih =>
    intro _ hc v hv
    exact (ih trivial hc v hv).congr
      (Call.meets_one id (subcalls_noCondition hlast value h)).symm
  | condition hlast value _ ih₁ ih₂ =>
    intro _ hc v hv
    have h₁ := ih₁ trivial hc _ rfl
    have h₂ := ih₂ trivial (hc.spans h₁) v hv
    exact (h₁.trans h₂).congr (Call.meets_two id (subcalls_condition hlast value)).symm
  | lastValue h =>
    intro _ hc v _
    exact (Spans.refl _).congr (Call.meets_none id (subcalls_lastValue h)).symm
  | nextValue ht value _ ih₁ ih₂ =>
    intro _ hc v hv
    have hkind := ne_paren_of_comparison? ht
    have hc' := Cursor.Under.tail hc hkind.2
    have h₁ := ih₁ trivial hc' _ rfl
    have h₂ := ih₂ trivial (hc'.spans h₁) v hv
    exact ((h₁.trans h₂).other hkind.1 hkind.2).congr
      (Call.meets_two id (subcalls_nextValue ht value)).symm
  | droppedComparison ht value ih =>
    intro _ hc v _
    have hkind := ne_paren_of_comparison? ht
    have h := ih trivial (Cursor.Under.tail hc hkind.2) none rfl
    exact (h.other hkind.1 hkind.2).congr
      (Call.meets_one id (subcalls_droppedComparison ht value (by simp))).symm
  | searchEnd =>
    intro _ hc v _
    exact (Spans.refl _).congr (Call.meets_none Call.not_atStrayParen_nil rfl).symm
  | joined ht hts operand _ ih₁ ih₂ =>
    intro hnested hc v hv
    have hkind := ne_paren_of_logic? ht
    have hc' := Cursor.Under.tail hc hkind.2
    have h₁ := ih₁ trivial hc' _ rfl
    have h₂ := ih₂ hnested (hc'.spans h₁) v hv
    exact ((h₁.trans h₂).other hkind.1 hkind.2).congr
      (Call.meets_two (Call.not_atStrayParen_cons hkind.1)
        (subcalls_joined ht hts operand)).symm
  | @closed left t us depth ht =>
    intro _ hc v _
    have hopen : t.kind ≠ .lparen := by simp [ht]
    exact (Spans.refl _).congr
      (Call.meets_none (Call.not_atStrayParen_cons hopen) (subcalls_closed ht)).symm
  | first ht operand _ ih₁ ih₂ =>
    intro hnested hc v hv
    have h₁ := ih₁ trivial hc _ rfl
    have h₂ := ih₂ hnested (hc.spans h₁) v hv
    exact (h₁.trans h₂).congr
      (Call.meets_two Call.not_atStrayParen_none (subcalls_first ht operand)).symm
  | @passed nested left t us depth r hlogic hclose hatom _ ih =>
    intro hnested hc v hv
    have h := ih hnested (Cursor.Under.tail hc (hclose hnested)) v hv
    by_cases ht : t.kind = .lparen
    · -- At a parenthesis something stands on the left, or it would begin a condition.
      have hleft : left.isSome := by
        cases left with
        | none => simp [ht, Token.Kind.isAtom] at hatom
        | some l => rfl
      have hstray : Call.AtStrayParen (.search nested left ⟨t :: us, depth⟩) :=
        ⟨hleft, t, rfl, ht⟩
      exact (h.stray ht).congr (iff_of_true trivial ⟨_, .refl, hstray⟩)
    · exact (h.other ht (hclose hnested)).congr
        (Call.meets_one (Call.not_atStrayParen_cons ht)
          (subcalls_passed hlogic hclose hatom)).symm
  | badItem _ _ _ | badValue _ _ _ | lastOperator _ | badOperand _ _ _ _ | badFirst _ _ _ =>
    intro _ _ v hv
    cases hv

/-! ### Every call of a search -/

/-- The call stands among the tokens, and outside all groups if it reads a whole search. -/
def Call.Under (ts : List Token) (call : Call) : Prop :=
  call.start.Under ts ∧ (call.Nested ∨ call.start.depth = 0)

section

variable (hts : Balanced ts) (hnest : NestedWithin o.nestingLimit ts)
include hts hnest

/-- The place behind an item, a value or a condition stands among the tokens if it does. -/
theorem Reads.under {first : Call} {v : Option Expr} {next : Cursor}
    (h : Reads o first ⟨.ok v, next⟩) (hfirst : first.Nested) (hc : first.start.Under ts) :
    next.Under ts :=
  hc.spans (h.spans hts hnest hfirst hc v rfl)

/-- A call that is made stands among the tokens if the one that makes it does. -/
theorem Call.Makes.under {sub : Call} (h : call.Makes o sub) (hcall : call.Under ts) :
    sub.Under ts := by
  obtain ⟨hc, hdepth⟩ := hcall
  cases h with
  | group ht _ => exact ⟨Cursor.Under.enter hc ht, .inl rfl⟩
  | item | value _ | first _ => exact ⟨hc, .inl trivial⟩
  | behindItem read | behindValue _ read => exact ⟨read.under hts hnest trivial hc, .inl trivial⟩
  | nextItem ht => exact ⟨Cursor.Under.tail hc (by simp [ht]), .inl trivial⟩
  | behindNextItem ht read =>
    have hc' := Cursor.Under.tail hc (by simp [ht])
    exact ⟨read.under hts hnest trivial hc', .inl trivial⟩
  | nextValue ht => exact ⟨Cursor.Under.tail hc (ne_paren_of_comparison? ht).2, .inl trivial⟩
  | behindNextValue ht read =>
    have hc' := Cursor.Under.tail hc (ne_paren_of_comparison? ht).2
    exact ⟨read.under hts hnest trivial hc', .inl trivial⟩
  | operand ht _ => exact ⟨Cursor.Under.tail hc (ne_paren_of_logic? ht).2, .inl trivial⟩
  | behindOperand ht _ read =>
    have hc' := Cursor.Under.tail hc (ne_paren_of_logic? ht).2
    exact ⟨read.under hts hnest trivial hc', hdepth.imp_right read.depth_eq.trans⟩
  | behindFirst _ read =>
    exact ⟨read.under hts hnest trivial hc, hdepth.imp_right read.depth_eq.trans⟩
  | @passed nested left t us depth _ hclose _ =>
    refine ⟨?_, hdepth⟩
    by_cases ht : t.kind = .rparen
    · -- Inside a group the search would have ended here.
      have hzero : depth = 0 := hdepth.resolve_left fun hnested => hclose hnested ht
      subst hzero
      exact Cursor.Under.tail_zero hc hts
    · exact Cursor.Under.tail hc ht

/-- Every call of a search stands among its tokens. -/
theorem Call.During.under {call : Call} (h : call.During o ts) : call.Under ts := by
  induction h with
  | refl => exact ⟨⟨[], rfl, Nat.le_refl 0⟩, .inr rfl⟩
  | tail _ hsub ih => exact (Call.makes_of_mem_subcalls hsub).under hts hnest ih

end

/-! ### Groups -/

/-- A parenthesis that opens in place of an item begins a group. -/
theorem Reads.of_group {t : Token} {us : List Token} {depth : Nat} {r : Reading (Option Expr)}
    (h : Reads o (.item ⟨t :: us, depth⟩) r) (ht : t.kind = .lparen)
    (hd : depth < o.nestingLimit) :
    ∃ next, Reads o (.search true none ⟨us, depth + 1⟩) ⟨r.value, next⟩ ∧ r.next = next.leave := by
  have inner := reads_reading o (.search true none ⟨us, depth + 1⟩)
  have hr := (Reads.group ht hd inner).reading_eq
  rw [h.reading_eq] at hr
  subst hr
  exact ⟨_, inner, rfl⟩

/-- What a group holds closes no other group, and it closes all that it opens unless a parenthesis
is passed over. -/
theorem Reads.group_spans (hts : Balanced ts) (hnest : NestedWithin o.nestingLimit ts) {t : Token}
    {us : List Token} {depth : Nat} {v : Option Expr} {next : Cursor}
    (h : Reads o (.item ⟨t :: us, depth⟩) ⟨.ok v, next⟩) (ht : t.kind = .lparen)
    (hc : Cursor.Under ts ⟨t :: us, depth⟩) :
    ∃ read last, us = read ++ last :: next.rest ∧ last.kind = .rparen ∧ Within opens closes 0 read ∧
      (read.countP closes = read.countP opens ↔ ¬ Call.PassesParen o (.item ⟨t :: us, depth⟩)) := by
  have hd := hc.lt_of_lparen hnest ht
  obtain ⟨stop, inner, hnext⟩ := h.of_group ht hd
  have hinner : Cursor.Under ts ⟨us, depth + 1⟩ := Cursor.Under.enter hc ht
  have hspans := inner.spans hts hnest rfl hinner v rfl
  obtain ⟨closing, after, rfl, hclosing⟩ := inner.group_closed hts hinner hspans
  obtain ⟨read, hus, -, hwithin, hiff⟩ := hspans
  have hnext' : next = ⟨after, depth⟩ := by simpa [Cursor.leave, hclosing] using hnext
  rw [hnext']
  refine ⟨read, closing, hus, hclosing, hwithin, hiff.trans (not_congr ?_)⟩
  exact (Call.meets_one id (subcalls_group ht hd)).symm

/-- **A group ends at its own closing parenthesis, unless a parenthesis inside is passed over.**
Where the parentheses of a search are balanced and nest no deeper than the limit, a group that is
read without an error ends with a closing parenthesis: the one that matches its opening parenthesis,
or an earlier one.  It is the match exactly when no parenthesis that opens inside is passed over. -/
theorem group_end (hts : Balanced ts) (hnest : NestedWithin o.nestingLimit ts) {t : Token}
    {rest : List Token} {depth : Nat} {v : Option Expr} {next : Cursor}
    (hcall : Call.During o ts (.item ⟨t :: rest, depth⟩)) (ht : t.kind = .lparen)
    (hread : (item o ⟨t :: rest, depth⟩).1 = ⟨.ok v, next⟩) :
    ∃ inside closing after, rest = inside ++ closing :: after ∧ Balanced inside ∧
      closing.kind = .rparen ∧
      (∃ read last, rest = read ++ last :: next.rest ∧ last.kind = .rparen) ∧
      after <:+ next.rest ∧
      (next.rest = after ↔ ¬ Call.PassesParen o (.item ⟨t :: rest, depth⟩)) := by
  have hc : Cursor.Under ts ⟨t :: rest, depth⟩ := (hcall.under hts hnest).1
  have hreads : Reads o (.item ⟨t :: rest, depth⟩) ⟨.ok v, next⟩ := reads_iff.mpr hread
  obtain ⟨inside, closing, after, hmatch, hinside, hclosing⟩ :=
    exists_match closes_of_opens (hc.opened_lt_closed hts ht)
  obtain ⟨read, last, hread', hlast, hwithin, hiff⟩ := hreads.group_spans hts hnest ht hc
  have hcut : read ++ last :: next.rest = inside ++ closing :: after := hread'.symm.trans hmatch
  have hkind : closing.kind = .rparen := of_decide_eq_true hclosing
  obtain ⟨ho, -⟩ := opens_rparen hkind
  obtain ⟨ho', hc'⟩ := opens_rparen hlast
  exact ⟨inside, closing, after, hmatch, hinside, hkind, ⟨read, last, hread', hlast⟩,
    suffix_of_match hinside ho hclosing hwithin hcut,
    (eq_match_iff hinside ho hclosing hwithin ho' hc' hcut).trans hiff⟩

/-- The tokens of `a ( b ) | c )`: a group from behind its opening parenthesis to its end. -/
def passingGroup : List Token :=
  [⟨.word, "a"⟩, ⟨.lparen, "("⟩, ⟨.word, "b"⟩, ⟨.rparen, ")"⟩, ⟨.or, "|"⟩, ⟨.word, "c"⟩,
    ⟨.rparen, ")"⟩]

/-- The tokens of `x & ( a ( b ) | c )`. -/
def passingSearch : List Token :=
  ⟨.word, "x"⟩ :: ⟨.and, "&"⟩ :: ⟨.lparen, "("⟩ :: passingGroup

/-- The group is the right operand of `&`. -/
theorem passingSearch_group :
    Call.During {} passingSearch (.item ⟨⟨.lparen, "("⟩ :: passingGroup, 0⟩) := by
  have first : Reads {} (.condition ⟨passingSearch, 0⟩)
      ⟨.ok (some (.word "x")), ⟨⟨.and, "&"⟩ :: ⟨.lparen, "("⟩ :: passingGroup, 0⟩⟩ :=
    reads_iff.mpr (by with_unfolding_all rfl)
  have joined :
      .search false (some (.word "x")) ⟨⟨.and, "&"⟩ :: ⟨.lparen, "("⟩ :: passingGroup, 0⟩ ∈
        (Call.search false none ⟨passingSearch, 0⟩).subcalls {} := by
    rw [passingSearch, subcalls_first rfl first]
    exact List.mem_cons_of_mem _ List.mem_cons_self
  have operand : .condition ⟨⟨.lparen, "("⟩ :: passingGroup, 0⟩ ∈
      (Call.search false (some (.word "x"))
        ⟨⟨.and, "&"⟩ :: ⟨.lparen, "("⟩ :: passingGroup, 0⟩).subcalls {} := List.mem_cons_self
  have value : .value ⟨⟨.lparen, "("⟩ :: passingGroup, 0⟩ ∈
      (Call.condition ⟨⟨.lparen, "("⟩ :: passingGroup, 0⟩).subcalls {} := List.mem_cons_self
  exact ((((Relation.ReflTransGen.refl.tail joined).tail operand).tail value).tail
    List.mem_cons_self)

/-- The first parenthesis that closes in `x & ( a ( b ) | c )` ends the group. -/
theorem passingSearch_reading :
    (item {} ⟨⟨.lparen, "("⟩ :: passingGroup, 0⟩).1 =
      ⟨.ok (some (.word "a")), ⟨[⟨.or, "|"⟩, ⟨.word, "c"⟩, ⟨.rparen, ")"⟩], 0⟩⟩ := by
  with_unfolding_all rfl

/-- The parentheses of `x & ( a ( b ) | c )` are balanced, and the group leaves `| c )`. -/
theorem group_end_passing :
    Balanced passingSearch ∧ NestedWithin 128 passingSearch ∧
      ∃ inside closing after, passingGroup = inside ++ closing :: after ∧ Balanced inside ∧
        closing.kind = .rparen ∧
        (∃ read last, passingGroup =
          read ++ last :: [⟨.or, "|"⟩, ⟨.word, "c"⟩, ⟨.rparen, ")"⟩] ∧ last.kind = .rparen) ∧
        after <:+ [⟨.or, "|"⟩, ⟨.word, "c"⟩, ⟨.rparen, ")"⟩] ∧
        ([⟨.or, "|"⟩, ⟨.word, "c"⟩, ⟨.rparen, ")"⟩] = after ↔
          ¬ Call.PassesParen {} (.item ⟨⟨.lparen, "("⟩ :: passingGroup, 0⟩)) := by
  have hts : Balanced passingSearch := by decide
  have hnest : NestedWithin 128 passingSearch := by decide
  exact ⟨hts, hnest, group_end hts hnest passingSearch_group rfl passingSearch_reading⟩

/-- A group need not end at the parenthesis that matches the one it begins with. -/
theorem not_group_end_at_match :
    ¬ ∀ (ts rest : List Token) (t : Token) (depth : Nat) (v : Option Expr) (next : Cursor),
      Balanced ts → NestedWithin 128 ts → Call.During {} ts (.item ⟨t :: rest, depth⟩) →
      t.kind = .lparen → (item {} ⟨t :: rest, depth⟩).1 = ⟨.ok v, next⟩ →
      ∃ inside closing, rest = inside ++ closing :: next.rest ∧ Balanced inside ∧
        closing.kind = .rparen := by
  intro h
  obtain ⟨inside, closing, hmatch, hinside, -⟩ := h passingSearch passingGroup ⟨.lparen, "("⟩ 0 _ _
    (by decide) (by decide) passingSearch_group rfl passingSearch_reading
  have hread : passingGroup = [⟨.word, "a"⟩, ⟨.lparen, "("⟩, ⟨.word, "b"⟩] ++ ⟨.rparen, ")"⟩ ::
      [⟨.or, "|"⟩, ⟨.word, "c"⟩, ⟨.rparen, ")"⟩] := rfl
  obtain rfl := List.append_inj_left' (hmatch.symm.trans hread) rfl
  revert hinside
  decide

end SearchFilter.Search
