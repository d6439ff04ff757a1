import SearchFilter.Proofs.Rules
import Mathlib.Logic.Relation

/-!
# The calls of a search

Which calls the six functions that read a search make, and so all that happens while a search is
read.  `Call.subcalls` are the calls that one call makes itself, in order; a later one depends on
what the earlier ones read.  `Call.Within` is everything that is called in the course of a call, and
`Call.During` everything that is called while a whole search is read.  `Call.Meets` asks whether a
call of some kind is among them, and is decided by the call itself and its subcalls.

A call makes the calls that stand as premises in its rule of reading, and no others: there is a
lemma for each rule.  The other way round, `Call.Makes` tells what a call can make and what was read
before.  What every call keeps is proved by its rules (`Call.Makes.kept`), and from that what holds
of all calls in the course of one (`Call.Within.kept`).
-/

namespace SearchFilter.Search

/-- The call that goes on behind what was read, if an expression was. -/
def Reading.behind (r : Reading (Option Expr)) (more : Expr → Cursor → Call) : List Call :=
  match r.value with
  | .ok (some e) => [more e r.next]
  | _ => []

/-- The call that goes on behind what was read, if reading did not fail. -/
def Reading.after (r : Reading (Option Expr)) (more : Option Expr → Cursor → Call) : List Call :=
  match r.value with
  | .ok e => [more e r.next]
  | .error _ => []

namespace Call

/-- The calls that a call makes itself. -/
def subcalls (o : Options) : Call → List Call
  | .item c =>
    match (c.skipParens o.nestingLimit).rest with
    | [] => []
    | t :: ts => if t.kind = .lparen then [.search true none ⟨ts, c.depth + 1⟩] else []
  | .value c => .item c :: ((Call.item c).reading o).behind fun e next => .moreItems e [] next
  | .moreItems _ _ ⟨[], _⟩ => []
  | .moreItems first others ⟨t :: ts, depth⟩ =>
    if t.kind = .colon then
      .item ⟨ts, depth⟩ :: ((Call.item ⟨ts, depth⟩).reading o).behind fun e next =>
        .moreItems first (e :: others) next
    else []
  | .condition c =>
    match lastLeaf? c.rest with
    | some _ => []
    | none => .value c :: ((Call.value c).reading o).behind fun e next => .moreValues e next
  | .moreValues _ ⟨[], _⟩ => []
  | .moreValues left ⟨t :: ts, depth⟩ =>
    match t.kind.comparison? with
    | some op =>
      .value ⟨ts, depth⟩ :: ((Call.value ⟨ts, depth⟩).reading o).behind fun e next =>
        .moreValues (.binary left { kind := op } e) next
    | none => []
  | .search _ _ ⟨[], _⟩ => []
  | .search nested left ⟨t :: ts, depth⟩ =>
    match t.kind.logic? with
    | some op =>
      if ts.isEmpty then []
      else
        .condition ⟨ts, depth⟩ :: ((Call.condition ⟨ts, depth⟩).reading o).after fun right next =>
          .search nested (Expr.join op left right) next
    | none =>
      if nested && t.kind = .rparen then []
      else if left.isNone && t.kind.isAtom then
        .condition ⟨t :: ts, depth⟩ :: ((Call.condition ⟨t :: ts, depth⟩).reading o).after
          fun e next => .search nested e next
      else [.search nested left ⟨ts, depth⟩]

/-- `sub` is called in the course of the call. -/
def Within (o : Options) (call sub : Call) : Prop :=
  Relation.ReflTransGen (fun call sub => sub ∈ call.subcalls o) call sub

/-- A call is made while the tokens are read as a whole search. -/
def During (o : Options) (ts : List Token) (call : Call) : Prop :=
  Call.Within o (.search false none ⟨ts, 0⟩) call

/-! ### What is met in the course of a call -/

/-- In the course of the call one of the given kind is made. -/
def Meets (o : Options) (P : Call → Prop) (call : Call) : Prop :=
  ∃ sub, call.Within o sub ∧ P sub

section

variable {o : Options} {P : Call → Prop} {call a b : Call}

/-- A call of the kind is the call itself, or is made in the course of a subcall. -/
theorem meets_iff : call.Meets o P ↔ P call ∨ ∃ sub ∈ call.subcalls o, sub.Meets o P := by
  constructor
  · rintro ⟨met, hwithin, hmet⟩
    rcases hwithin.cases_head with rfl | ⟨sub, hsub, hwithin⟩
    · exact .inl hmet
    · exact .inr ⟨sub, hsub, met, hwithin, hmet⟩
  · rintro (hcall | ⟨sub, hsub, met, hwithin, hmet⟩)
    · exact ⟨call, .refl, hcall⟩
    · exact ⟨met, .head hsub hwithin, hmet⟩

theorem meets_none (hcall : ¬ P call) (hsubs : call.subcalls o = []) :
    call.Meets o P ↔ False := by
  rw [meets_iff]
  simp [hcall, hsubs]

theorem meets_one (hcall : ¬ P call) (hsubs : call.subcalls o = [a]) :
    call.Meets o P ↔ a.Meets o P := by
  rw [meets_iff]
  simp [hcall, hsubs]

theorem meets_two (hcall : ¬ P call) (hsubs : call.subcalls o = [a, b]) :
    call.Meets o P ↔ a.Meets o P ∨ b.Meets o P := by
  rw [meets_iff]
  simp [hcall, hsubs]

end

end Call

/-! ### The subcalls of each rule

A call makes the calls that are premises of the rule by which it reads. -/

section

variable {o : Options} {c next : Cursor} {t : Token} {ts : List Token} {depth : Nat}
  {left right : Option Expr} {first l e : Expr} {others : List Expr} {op : Operator.Kind}
  {nested : Bool} {r : Reading (Option Expr)}

/-- Nothing goes on behind a reading without an expression. -/
theorem Reading.behind_eq_nil (h : ∀ e, r.value ≠ .ok (some e)) (more : Expr → Cursor → Call) :
    r.behind more = [] := by
  unfold behind
  split
  · next e he => exact absurd he (h e)
  · rfl

theorem subcalls_noItem
    (h : ∀ t ∈ (c.skipParens o.nestingLimit).rest.head?, t.kind ≠ .lparen) :
    (Call.item c).subcalls o = [] := by
  rw [Call.subcalls]
  split
  · rfl
  · next t ts hrest => exact if_neg (h t (by simp [hrest]))

theorem subcalls_group (ht : t.kind = .lparen) (hd : depth < o.nestingLimit) :
    (Call.item ⟨t :: ts, depth⟩).subcalls o = [.search true none ⟨ts, depth + 1⟩] := by
  have hskip : Cursor.skipParens o.nestingLimit ⟨t :: ts, depth⟩ = ⟨t :: ts, depth⟩ :=
    if_neg (Nat.not_le_of_lt hd)
  simp only [Call.subcalls, hskip, ht, if_true]

theorem subcalls_value (item : Reads o (.item c) ⟨.ok (some e), next⟩) :
    (Call.value c).subcalls o = [.item c, .moreItems e [] next] := by
  rw [Call.subcalls, item.reading_eq]
  rfl

theorem subcalls_noValue (item : Reads o (.item c) r) (h : ∀ e, r.value ≠ .ok (some e)) :
    (Call.value c).subcalls o = [.item c] := by
  rw [Call.subcalls, item.reading_eq, Reading.behind_eq_nil h]

theorem subcalls_lastItem (h : ∀ t ∈ c.rest.head?, t.kind ≠ .colon) :
    (Call.moreItems first others c).subcalls o = [] := by
  obtain ⟨_ | ⟨t, ts⟩, depth⟩ := c
  · rfl
  · exact if_neg (h t rfl)

theorem subcalls_nextItem (ht : t.kind = .colon)
    (item : Reads o (.item ⟨ts, depth⟩) ⟨.ok (some e), next⟩) :
    (Call.moreItems first others ⟨t :: ts, depth⟩).subcalls o =
      [.item ⟨ts, depth⟩, .moreItems first (e :: others) next] := by
  rw [Call.subcalls, if_pos ht, item.reading_eq]
  rfl

theorem subcalls_trailingColon (ht : t.kind = .colon) (item : Reads o (.item ⟨ts, depth⟩) r)
    (h : ∀ e, r.value ≠ .ok (some e)) :
    (Call.moreItems first others ⟨t :: ts, depth⟩).subcalls o = [.item ⟨ts, depth⟩] := by
  rw [Call.subcalls, if_pos ht, item.reading_eq, Reading.behind_eq_nil h]

theorem subcalls_fallback (h : lastLeaf? c.rest = some t) :
    (Call.condition c).subcalls o = [] := by
  simp only [Call.subcalls, h]

theorem subcalls_condition (hc : lastLeaf? c.rest = none)
    (value : Reads o (.value c) ⟨.ok (some e), next⟩) :
    (Call.condition c).subcalls o = [.value c, .moreValues e next] := by
  simp only [Call.subcalls, hc, value.reading_eq, Reading.behind]

theorem subcalls_noCondition (hc : lastLeaf? c.rest = none) (value : Reads o (.value c) r)
    (h : ∀ e, r.value ≠ .ok (some e)) : (Call.condition c).subcalls o = [.value c] := by
  simp only [Call.subcalls, hc, value.reading_eq, Reading.behind_eq_nil h]

theorem subcalls_lastValue (h : ∀ t ∈ c.rest.head?, t.kind.comparison? = none) :
    (Call.moreValues l c).subcalls o = [] := by
  obtain ⟨_ | ⟨t, ts⟩, depth⟩ := c
  · rfl
  · simp only [Call.subcalls, h t rfl]

theorem subcalls_nextValue (ht : t.kind.comparison? = some op)
    (value : Reads o (.value ⟨ts, depth⟩) ⟨.ok (some e), next⟩) :
    (Call.moreValues l ⟨t :: ts, depth⟩).subcalls o =
      [.value ⟨ts, depth⟩, .moreValues (.binary l { kind := op } e) next] := by
  simp only [Call.subcalls, ht, value.reading_eq, Reading.behind]

theorem subcalls_droppedComparison (ht : t.kind.comparison? = some op)
    (value : Reads o (.value ⟨ts, depth⟩) r) (h : ∀ e, r.value ≠ .ok (some e)) :
    (Call.moreValues l ⟨t :: ts, depth⟩).subcalls o = [.value ⟨ts, depth⟩] := by
  simp only [Call.subcalls, ht, value.reading_eq, Reading.behind_eq_nil h]

theorem subcalls_joined (ht : t.kind.logic? = some op) (hts : ts ≠ [])
    (operand : Reads o (.condition ⟨ts, depth⟩) ⟨.ok right, next⟩) :
    (Call.search nested left ⟨t :: ts, depth⟩).subcalls o =
      [.condition ⟨ts, depth⟩, .search nested (Expr.join op left right) next] := by
  simp [Call.subcalls, ht, hts, operand.reading_eq, Reading.after]

theorem subcalls_closed (ht : t.kind = .rparen) :
    (Call.search true left ⟨t :: ts, depth⟩).subcalls o = [] := by
  have hlogic : Token.Kind.rparen.logic? = none := rfl
  simp [Call.subcalls, ht, hlogic]

theorem subcalls_first (ht : t.kind.isAtom = true)
    (operand : Reads o (.condition ⟨t :: ts, depth⟩) ⟨.ok right, next⟩) :
    (Call.search nested none ⟨t :: ts, depth⟩).subcalls o =
      [.condition ⟨t :: ts, depth⟩, .search nested right next] := by
  have hclose : t.kind ≠ .rparen := fun h => by rw [h] at ht; cases ht
  simp [Call.subcalls, logic?_of_isAtom ht, hclose, ht, operand.reading_eq, Reading.after]

theorem subcalls_passed (hlogic : t.kind.logic? = none) (hclose : nested = true → t.kind ≠ .rparen)
    (hatom : left = none → t.kind.isAtom = false) :
    (Call.search nested left ⟨t :: ts, depth⟩).subcalls o = [.search nested left ⟨ts, depth⟩] := by
  have hend : (nested && decide (t.kind = .rparen)) = false := by simpa using hclose
  have hfirst : (left.isNone && t.kind.isAtom) = false := by simpa using hatom
  simp [Call.subcalls, hlogic, hend, hfirst]

end

/-! ### What a call can make -/

theorem Reading.mem_behind {call : Call} {r : Reading (Option Expr)} {more : Expr → Cursor → Call} :
    call ∈ r.behind more ↔ ∃ e, r.value = .ok (some e) ∧ call = more e r.next := by
  unfold behind
  split
  · next e he => simp [he]
  · next h => simpa using fun e he => absurd he (h e)

theorem Reading.mem_after {call : Call} {r : Reading (Option Expr)}
    {more : Option Expr → Cursor → Call} :
    call ∈ r.after more ↔ ∃ e, r.value = .ok e ∧ call = more e r.next := by
  unfold after
  split
  · next e he => simp [he]
  · next err he => simp [he]

/-- `Makes o call sub`: the call `call` makes the call `sub`.  One function asks another, or goes on
with what another has read. -/
inductive Call.Makes (o : Options) : Call → Call → Prop where
  | group {t : Token} {ts : List Token} {depth : Nat} (ht : t.kind = .lparen)
      (hd : depth < o.nestingLimit) :
      Makes o (.item ⟨t :: ts, depth⟩) (.search true none ⟨ts, depth + 1⟩)
  | item {c : Cursor} : Makes o (.value c) (.item c)
  | behindItem {c next : Cursor} {e : Expr} (item : Reads o (.item c) ⟨.ok (some e), next⟩) :
      Makes o (.value c) (.moreItems e [] next)
  | nextItem {first : Expr} {others : List Expr} {t : Token} {ts : List Token} {depth : Nat}
      (ht : t.kind = .colon) :
      Makes o (.moreItems first others ⟨t :: ts, depth⟩) (.item ⟨ts, depth⟩)
  | behindNextItem {first e : Expr} {others : List Expr} {t : Token} {ts : List Token} {depth : Nat}
      {next : Cursor} (ht : t.kind = .colon)
      (item : Reads o (.item ⟨ts, depth⟩) ⟨.ok (some e), next⟩) :
      Makes o (.moreItems first others ⟨t :: ts, depth⟩) (.moreItems first (e :: others) next)
  | value {c : Cursor} (hc : lastLeaf? c.rest = none) : Makes o (.condition c) (.value c)
  | behindValue {c next : Cursor} {e : Expr} (hc : lastLeaf? c.rest = none)
      (value : Reads o (.value c) ⟨.ok (some e), next⟩) :
      Makes o (.condition c) (.moreValues e next)
  | nextValue {left : Expr} {op : Operator.Kind} {t : Token} {ts : List Token} {depth : Nat}
      (ht : t.kind.comparison? = some op) :
      Makes o (.moreValues left ⟨t :: ts, depth⟩) (.value ⟨ts, depth⟩)
  | behindNextValue {left e : Expr} {op : Operator.Kind} {t : Token} {ts : List Token} {depth : Nat}
      {next : Cursor} (ht : t.kind.comparison? = some op)
      (value : Reads o (.value ⟨ts, depth⟩) ⟨.ok (some e), next⟩) :
      Makes o (.moreValues left ⟨t :: ts, depth⟩) (.moreValues (.binary left { kind := op } e) next)
  | operand {nested : Bool} {left : Option Expr} {op : Operator.Kind} {t : Token} {ts : List Token}
      {depth : Nat} (ht : t.kind.logic? = some op) (hts : ts ≠ []) :
      Makes o (.search nested left ⟨t :: ts, depth⟩) (.condition ⟨ts, depth⟩)
  | behindOperand {nested : Bool} {left right : Option Expr} {op : Operator.Kind} {t : Token}
      {ts : List Token} {depth : Nat} {next : Cursor} (ht : t.kind.logic? = some op) (hts : ts ≠ [])
      (operand : Reads o (.condition ⟨ts, depth⟩) ⟨.ok right, next⟩) :
      Makes o (.search nested left ⟨t :: ts, depth⟩) (.search nested (Expr.join op left right) next)
  | first {nested : Bool} {t : Token} {ts : List Token} {depth : Nat} (ht : t.kind.isAtom = true) :
      Makes o (.search nested none ⟨t :: ts, depth⟩) (.condition ⟨t :: ts, depth⟩)
  | behindFirst {nested : Bool} {e : Option Expr} {t : Token} {ts : List Token} {depth : Nat}
      {next : Cursor} (ht : t.kind.isAtom = true)
      (operand : Reads o (.condition ⟨t :: ts, depth⟩) ⟨.ok e, next⟩) :
      Makes o (.search nested none ⟨t :: ts, depth⟩) (.search nested e next)
  | passed {nested : Bool} {left : Option Expr} {t : Token} {ts : List Token} {depth : Nat}
      (hlogic : t.kind.logic? = none) (hclose : nested = true → t.kind ≠ .rparen)
      (hatom : left = none → t.kind.isAtom = false) :
      Makes o (.search nested left ⟨t :: ts, depth⟩) (.search nested left ⟨ts, depth⟩)

section

variable {o : Options} {top : Nat} {P : Cursor → Prop} {call sub first : Call}

/-- A call asks another and goes on with the expression that it reads, if it reads one. -/
theorem makes_of_mem_behind {more : Expr → Cursor → Call}
    (h : sub ∈ first :: (first.reading o).behind more) (hfirst : call.Makes o first)
    (hmore : ∀ e next, Reads o first ⟨.ok (some e), next⟩ → call.Makes o (more e next)) :
    call.Makes o sub := by
  rcases List.mem_cons.mp h with rfl | h
  · exact hfirst
  · obtain ⟨e, he, rfl⟩ := Reading.mem_behind.mp h
    exact hmore e _ (he ▸ reads_reading o first)

/-- A call asks another and goes on with what it reads, unless it fails. -/
theorem makes_of_mem_after {more : Option Expr → Cursor → Call}
    (h : sub ∈ first :: (first.reading o).after more) (hfirst : call.Makes o first)
    (hmore : ∀ e next, Reads o first ⟨.ok e, next⟩ → call.Makes o (more e next)) :
    call.Makes o sub := by
  rcases List.mem_cons.mp h with rfl | h
  · exact hfirst
  · obtain ⟨e, he, rfl⟩ := Reading.mem_after.mp h
    exact hmore e _ (he ▸ reads_reading o first)

/-- A subcall is made by one of the rules. -/
theorem Call.makes_of_mem_subcalls (h : sub ∈ call.subcalls o) : call.Makes o sub := by
  match call with
  | .item c =>
    rw [subcalls] at h
    split at h
    · cases h
    · next t ts hrest =>
      split at h
      · next ht =>
        obtain rfl := List.mem_singleton.mp h
        obtain ⟨hd, hrest⟩ := of_skipParens_lparen hrest ht
        obtain ⟨rest, depth⟩ := c
        obtain rfl : rest = t :: ts := hrest
        exact .group ht hd
      · cases h
  | .value c => exact makes_of_mem_behind h .item fun _ _ => .behindItem
  | .moreItems first others ⟨[], depth⟩ => cases h
  | .moreItems first others ⟨t :: ts, depth⟩ =>
    rw [subcalls] at h
    split at h
    · next ht => exact makes_of_mem_behind h (.nextItem ht) fun _ _ => .behindNextItem ht
    · cases h
  | .condition c =>
    rw [subcalls] at h
    split at h
    · cases h
    · next hc => exact makes_of_mem_behind h (.value hc) fun _ _ => .behindValue hc
  | .moreValues left ⟨[], depth⟩ => cases h
  | .moreValues left ⟨t :: ts, depth⟩ =>
    rw [subcalls] at h
    split at h
    · next op ht => exact makes_of_mem_behind h (.nextValue ht) fun _ _ => .behindNextValue ht
    · cases h
  | .search nested left ⟨[], depth⟩ => cases h
  | .search nested left ⟨t :: ts, depth⟩ =>
    rw [subcalls] at h
    split at h
    · next op ht =>
      split at h
      · cases h
      · next hts =>
        rw [List.isEmpty_iff] at hts
        exact makes_of_mem_after h (.operand ht hts) fun _ _ => .behindOperand ht hts
    next hlogic =>
    split at h
    · cases h
    next hclose =>
    split at h
    · next hfirst =>
      obtain ⟨rfl, ht⟩ : left = none ∧ t.kind.isAtom = true := by simpa using hfirst
      exact makes_of_mem_after h (.first ht) fun _ _ => .behindFirst ht
    · next hatom =>
      obtain rfl := List.mem_singleton.mp h
      exact .passed hlogic (by simpa using hclose) fun hleft => by simpa [hleft] using hatom

/-! ### Places where calls begin -/

/-- A call that is made begins at a place that is kept if the one that makes it does. -/
theorem Call.Makes.kept (h : call.Makes o sub) (hP : Kept o.nestingLimit top P)
    (hin : call.Inside top) (hc : P call.start) : sub.Inside top ∧ P sub.start := by
  cases h with
  | group ht hd => exact ⟨.inl rfl, hP.enter hc ht hd⟩
  | item | value _ | first _ => exact ⟨.inl trivial, hc⟩
  | behindItem read | behindValue _ read =>
    exact ⟨.inl trivial, read.kept hP (.inl trivial) hc⟩
  | nextItem ht => exact ⟨.inl trivial, hP.tail hc (by simp [ht])⟩
  | behindNextItem ht read =>
    exact ⟨.inl trivial, read.kept hP (.inl trivial) (hP.tail hc (by simp [ht]))⟩
  | nextValue ht => exact ⟨.inl trivial, hP.tail hc (ne_paren_of_comparison? ht).2⟩
  | behindNextValue ht read =>
    exact ⟨.inl trivial, read.kept hP (.inl trivial) (hP.tail hc (ne_paren_of_comparison? ht).2)⟩
  | operand ht _ => exact ⟨.inl trivial, hP.tail hc (ne_paren_of_logic? ht).2⟩
  | behindOperand ht _ read =>
    exact ⟨hin.imp_right read.depth_eq.trans,
      read.kept hP (.inl trivial) (hP.tail hc (ne_paren_of_logic? ht).2)⟩
  | behindFirst _ read =>
    exact ⟨hin.imp_right read.depth_eq.trans, read.kept hP (.inl trivial) hc⟩
  | passed _ hclose _ =>
    -- Inside a group the search would have ended at a parenthesis that closes.
    exact ⟨hin, hP.pass hc fun ht => hin.resolve_left fun hnested => hclose hnested ht⟩

/-- **Every call in the course of a call begins at a place that is kept**, if that call does. -/
theorem Call.Within.kept (h : call.Within o sub) (hP : Kept o.nestingLimit top P)
    (hin : call.Inside top) (hc : P call.start) : sub.Inside top ∧ P sub.start := by
  induction h with
  | refl => exact ⟨hin, hc⟩
  | tail _ hsub ih => exact (Call.makes_of_mem_subcalls hsub).kept hP ih.1 ih.2

/-- A call in the course of a call is given an end of its tokens. -/
theorem Call.Within.suffix (h : call.Within o sub) : sub.start.rest <:+ call.start.rest :=
  (h.kept (kept_suffix call.start.rest) (.inr rfl) List.suffix_rfl).2

end

end SearchFilter.Search
