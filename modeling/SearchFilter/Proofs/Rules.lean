import SearchFilter.Proofs.Body

/-!
# The rules of reading

What the six functions that read a search do, as rules: `Reads o call r` holds when the call `call`
reads `r`, and each branch of the six functions is one rule.

* `reads_iff`: a call reads what its function returns, and nothing else; nor does anything else that
  follows the steps of reading (`Reads.eq_of_follows`).
* `Reads.kept`: places closed under entering and leaving groups and passing tokens are kept.
* `Reads.suffix`: what a call leaves is the end of what it was given.
* `Reads.search_end`: a search that succeeds stops at the end of the tokens, or inside a group at a
  closing parenthesis.

What holds of every reading is proved by one induction over these rules.
-/

namespace SearchFilter.Search

/-! ### The tokens that the rules ask about -/

/-- A token that begins a value joins nothing. -/
theorem logic?_of_isAtom {k : Token.Kind} (h : k.isAtom = true) : k.logic? = none := by
  revert h
  cases k <;> decide

theorem isLogic_iff {k : Token.Kind} : k.isLogic = true ↔ k = .and ∨ k = .or := by
  cases k <;> decide

/-- The token that writes a leaf is of a leaf's kind. -/
theorem isLeaf_of_ofToken? {t : Token} {e : Expr} (h : Expr.ofToken? t = some e) :
    t.kind.isLeaf = true := by
  rw [← Expr.isSome_ofToken?, h]
  rfl

/-- The leaf that is all that is left. -/
theorem lastLeaf?_eq_some_iff {ts : List Token} {t : Token} :
    lastLeaf? ts = some t ↔ ts = [t] ∧ t.kind.isLeaf = true := by
  match ts with
  | [] => simp [lastLeaf?]
  | [u] =>
    by_cases hu : u.kind.isLeaf
    · simp only [lastLeaf?, hu, if_true, Option.some.injEq, List.cons.injEq, and_true]
      exact ⟨fun h => ⟨h, h ▸ hu⟩, fun h => h.1⟩
    · simp only [lastLeaf?, hu, List.cons.injEq, and_true]
      exact ⟨fun h => (nomatch h), fun h => absurd (h.1 ▸ h.2) hu⟩
  | u :: v :: us => simp [lastLeaf?]

/-! ### The rules -/

/-- `Reads o call r`: the call `call` reads `r`. -/
inductive Reads (o : Options) : Call → Reading (Option Expr) → Prop where
  | noItem {c : Cursor}
      (h : ∀ t ∈ (c.skipParens o.nestingLimit).rest.head?, t.kind.isAtom = false) :
      Reads o (.item c) ⟨.ok none, c.skipParens o.nestingLimit⟩
  | leaf {c : Cursor} {t : Token} {ts : List Token} {e : Expr}
      (h : (c.skipParens o.nestingLimit).rest = t :: ts) (ht : Expr.ofToken? t = some e) :
      Reads o (.item c) ⟨.ok (some e), ⟨ts, c.depth⟩⟩
  | group {t : Token} {ts : List Token} {depth : Nat} {v : Except Error (Option Expr)}
      {next : Cursor} (ht : t.kind = .lparen) (hd : depth < o.nestingLimit)
      (inner : Reads o (.search true none ⟨ts, depth + 1⟩) ⟨v, next⟩) :
      Reads o (.item ⟨t :: ts, depth⟩) ⟨v, next.leave⟩
  | noValue {c : Cursor} {r : Reading (Option Expr)} (first : Reads o (.item c) r)
      (h : ∀ e, r.value ≠ .ok (some e)) : Reads o (.value c) r
  | value {c next : Cursor} {e : Expr} {r : Reading (Option Expr)}
      (first : Reads o (.item c) ⟨.ok (some e), next⟩) (more : Reads o (.moreItems e [] next) r) :
      Reads o (.value c) r
  | lastItem {first : Expr} {others : List Expr} {c : Cursor}
      (h : ∀ t ∈ c.rest.head?, t.kind ≠ .colon) :
      Reads o (.moreItems first others c) ⟨.ok (some (.ofItems first others.reverse)), c⟩
  | nextItem {first e : Expr} {others : List Expr} {t : Token} {ts : List Token} {depth : Nat}
      {next : Cursor} {r : Reading (Option Expr)} (ht : t.kind = .colon)
      (item : Reads o (.item ⟨ts, depth⟩) ⟨.ok (some e), next⟩)
      (more : Reads o (.moreItems first (e :: others) next) r) :
      Reads o (.moreItems first others ⟨t :: ts, depth⟩) r
  | trailingColon {first : Expr} {others : List Expr} {t : Token} {ts : List Token} {depth : Nat}
      {next : Cursor} (ht : t.kind = .colon)
      (item : Reads o (.item ⟨ts, depth⟩) ⟨.ok none, next⟩) :
      Reads o (.moreItems first others ⟨t :: ts, depth⟩)
        ⟨.ok (some (.list (first :: others.reverse))), next⟩
  | badItem {first : Expr} {others : List Expr} {t : Token} {ts : List Token} {depth : Nat}
      {err : Error} {next : Cursor} (ht : t.kind = .colon)
      (item : Reads o (.item ⟨ts, depth⟩) ⟨.error err, next⟩) :
      Reads o (.moreItems first others ⟨t :: ts, depth⟩) ⟨.error err, next⟩
  | fallback {c : Cursor} {t : Token} (h : lastLeaf? c.rest = some t) :
      Reads o (.condition c) ⟨.ok (some (.fallback o.fallbackField t.text)), ⟨[], c.depth⟩⟩
  | noCondition {c : Cursor} {r : Reading (Option Expr)} (hc : lastLeaf? c.rest = none)
      (first : Reads o (.value c) r) (h : ∀ e, r.value ≠ .ok (some e)) : Reads o (.condition c) r
  | condition {c next : Cursor} {e : Expr} {r : Reading (Option Expr)}
      (hc : lastLeaf? c.rest = none) (first : Reads o (.value c) ⟨.ok (some e), next⟩)
      (more : Reads o (.moreValues e next) r) : Reads o (.condition c) r
  | lastValue {left : Expr} {c : Cursor} (h : ∀ t ∈ c.rest.head?, t.kind.comparison? = none) :
      Reads o (.moreValues left c) ⟨.ok (some left), c⟩
  | nextValue {left e : Expr} {op : Operator.Kind} {t : Token} {ts : List Token} {depth : Nat}
      {next : Cursor} {r : Reading (Option Expr)} (ht : t.kind.comparison? = some op)
      (right : Reads o (.value ⟨ts, depth⟩) ⟨.ok (some e), next⟩)
      (more : Reads o (.moreValues (.binary left { kind := op } e) next) r) :
      Reads o (.moreValues left ⟨t :: ts, depth⟩) r
  | droppedComparison {left : Expr} {op : Operator.Kind} {t : Token} {ts : List Token}
      {depth : Nat} {next : Cursor} (ht : t.kind.comparison? = some op)
      (right : Reads o (.value ⟨ts, depth⟩) ⟨.ok none, next⟩) :
      Reads o (.moreValues left ⟨t :: ts, depth⟩) ⟨.ok (some left), next⟩
  | badValue {left : Expr} {op : Operator.Kind} {t : Token} {ts : List Token} {depth : Nat}
      {err : Error} {next : Cursor} (ht : t.kind.comparison? = some op)
      (right : Reads o (.value ⟨ts, depth⟩) ⟨.error err, next⟩) :
      Reads o (.moreValues left ⟨t :: ts, depth⟩) ⟨.error err, next⟩
  | searchEnd {nested : Bool} {left : Option Expr} {depth : Nat} :
      Reads o (.search nested left ⟨[], depth⟩) ⟨.ok left, ⟨[], depth⟩⟩
  | lastOperator {nested : Bool} {left : Option Expr} {op : Operator.Kind} {t : Token}
      {depth : Nat} (ht : t.kind.logic? = some op) :
      Reads o (.search nested left ⟨[t], depth⟩) ⟨.error (.missingOperand t.text), ⟨[], depth⟩⟩
  | joined {nested : Bool} {left right : Option Expr} {op : Operator.Kind} {t : Token}
      {ts : List Token} {depth : Nat} {next : Cursor} {r : Reading (Option Expr)}
      (ht : t.kind.logic? = some op) (hts : ts ≠ [])
      (operand : Reads o (.condition ⟨ts, depth⟩) ⟨.ok right, next⟩)
      (more : Reads o (.search nested (Expr.join op left right) next) r) :
      Reads o (.search nested left ⟨t :: ts, depth⟩) r
  | badOperand {nested : Bool} {left : Option Expr} {op : Operator.Kind} {t : Token}
      {ts : List Token} {depth : Nat} {err : Error} {next : Cursor}
      (ht : t.kind.logic? = some op) (hts : ts ≠ [])
      (operand : Reads o (.condition ⟨ts, depth⟩) ⟨.error err, next⟩) :
      Reads o (.search nested left ⟨t :: ts, depth⟩) ⟨.error err, next⟩
  | closed {left : Option Expr} {t : Token} {ts : List Token} {depth : Nat}
      (ht : t.kind = .rparen) :
      Reads o (.search true left ⟨t :: ts, depth⟩) ⟨.ok left, ⟨t :: ts, depth⟩⟩
  | first {nested : Bool} {e : Option Expr} {t : Token} {ts : List Token} {depth : Nat}
      {next : Cursor} {r : Reading (Option Expr)} (ht : t.kind.isAtom = true)
      (operand : Reads o (.condition ⟨t :: ts, depth⟩) ⟨.ok e, next⟩)
      (more : Reads o (.search nested e next) r) :
      Reads o (.search nested none ⟨t :: ts, depth⟩) r
  | badFirst {nested : Bool} {t : Token} {ts : List Token} {depth : Nat} {err : Error}
      {next : Cursor} (ht : t.kind.isAtom = true)
      (operand : Reads o (.condition ⟨t :: ts, depth⟩) ⟨.error err, next⟩) :
      Reads o (.search nested none ⟨t :: ts, depth⟩) ⟨.error err, next⟩
  | passed {nested : Bool} {left : Option Expr} {t : Token} {ts : List Token} {depth : Nat}
      {r : Reading (Option Expr)} (hlogic : t.kind.logic? = none)
      (hclose : nested = true → t.kind ≠ .rparen)
      (hatom : left = none → t.kind.isAtom = false)
      (more : Reads o (.search nested left ⟨ts, depth⟩) r) :
      Reads o (.search nested left ⟨t :: ts, depth⟩) r

/-! ### A call reads what its function returns -/

/-- A parenthesis that is not skipped opens a group for which there is room. -/
theorem of_skipParens_lparen {limit : Nat} {c : Cursor} {t : Token} {ts : List Token}
    (h : (c.skipParens limit).rest = t :: ts) (ht : t.kind = .lparen) :
    c.depth < limit ∧ c.rest = t :: ts := by
  unfold Cursor.skipParens at h
  split at h
  · -- Behind the skipped parentheses there is no parenthesis.
    have hskip := List.head?_dropWhile_not (fun t : Token => decide (t.kind = .lparen)) c.rest
    simp only at h
    simp [h, ht] at hskip
  · next hd => exact ⟨Nat.lt_of_not_le hd, h⟩

section

variable {o : Options}

theorem reads_item {c : Cursor}
    (ih : ∀ call, call.size < (Call.item c).size → Reads o call (call.reading o)) :
    Reads o (.item c) (item o c).1 := by
  rw [item_eq]
  split
  · next h => exact .noItem (by simp [h])
  · next t ts h =>
    have hleaf := Expr.isSome_ofToken? t
    split
    · next e ht => exact .leaf h ht
    · next ht =>
      split
      · next hp =>
        obtain ⟨hd, hrest⟩ := of_skipParens_lparen h hp
        obtain ⟨rest, depth⟩ := c
        obtain rfl : rest = t :: ts := hrest
        exact .group hp hd (ih (.search true none ⟨ts, depth + 1⟩) (by
          simp only [Call.size, Call.start, Call.rank, List.length_cons]
          omega))
      · next hp =>
        refine .noItem fun u hu => ?_
        rw [h] at hu
        cases hu
        simp_all [Token.Kind.isAtom_eq]

theorem reads_value {c : Cursor}
    (ih : ∀ call, call.size < (Call.value c).size → Reads o call (call.reading o)) :
    Reads o (.value c) (value o c).1 := by
  have first : Reads o (.item c) (item o c).1 :=
    ih (.item c) (kept_lt (Nat.le_refl _) (by simp [Call.rank]))
  have hlen := Nat.le_trans (item o c).2 (Cursor.room_le _)
  rw [value_eq]
  -- What was read is kept with its rule and its bound, and the function itself is forgotten.
  generalize (item o c).1 = r at first hlen ⊢
  obtain ⟨v, next⟩ := r
  split
  · next e hv =>
    cases hv
    exact .value first (ih (.moreItems e [] next) (kept_lt hlen (by simp [Call.rank])))
  · next hv => exact .noValue first hv

theorem reads_moreItems {first : Expr} {others : List Expr} {c : Cursor}
    (ih : ∀ call, call.size < (Call.moreItems first others c).size →
      Reads o call (call.reading o)) :
    Reads o (.moreItems first others c) (moreItems o first others c).1 := by
  obtain ⟨_ | ⟨t, ts⟩, depth⟩ := c
  · rw [moreItems_nil]
    exact .lastItem (by simp)
  · rw [moreItems_cons]
    split
    · next ht =>
      have item : Reads o (.item ⟨ts, depth⟩) (item o ⟨ts, depth⟩).1 :=
        ih (.item ⟨ts, depth⟩) (passed_lt (Nat.le_refl _) (by simp [Call.rank]))
      have hlen := Nat.le_trans (Search.item o ⟨ts, depth⟩).2 (Cursor.room_le _)
      generalize (Search.item o ⟨ts, depth⟩).1 = r at item hlen ⊢
      obtain ⟨v, next⟩ := r
      cases v with
      | error err => exact .badItem ht item
      | ok v =>
        cases v with
        | none => exact .trailingColon ht item
        | some e =>
          exact .nextItem ht item
            (ih (.moreItems first (e :: others) next) (passed_lt hlen (by simp [Call.rank])))
    · next ht => exact .lastItem (by simpa using ht)

theorem reads_condition {c : Cursor}
    (ih : ∀ call, call.size < (Call.condition c).size → Reads o call (call.reading o)) :
    Reads o (.condition c) (condition o c).1 := by
  rw [condition_eq]
  split
  · next t h => exact .fallback h
  · next hc =>
    have first : Reads o (.value c) (value o c).1 :=
      ih (.value c) (kept_lt (Nat.le_refl _) (by simp [Call.rank]))
    have hlen := Nat.le_trans (value o c).2 (Cursor.room_le _)
    generalize (value o c).1 = r at first hlen ⊢
    obtain ⟨v, next⟩ := r
    split
    · next e hv =>
      cases hv
      exact .condition hc first (ih (.moreValues e next) (kept_lt hlen (by simp [Call.rank])))
    · next hv => exact .noCondition hc first hv

theorem reads_moreValues {left : Expr} {c : Cursor}
    (ih : ∀ call, call.size < (Call.moreValues left c).size → Reads o call (call.reading o)) :
    Reads o (.moreValues left c) (moreValues o left c).1 := by
  obtain ⟨_ | ⟨t, ts⟩, depth⟩ := c
  · rw [moreValues_nil]
    exact .lastValue (by simp)
  · rw [moreValues_cons]
    split
    · next op ht =>
      have right : Reads o (.value ⟨ts, depth⟩) (value o ⟨ts, depth⟩).1 :=
        ih (.value ⟨ts, depth⟩) (passed_lt (Nat.le_refl _) (by simp [Call.rank]))
      have hlen := Nat.le_trans (value o ⟨ts, depth⟩).2 (Cursor.room_le _)
      generalize (value o ⟨ts, depth⟩).1 = r at right hlen ⊢
      obtain ⟨v, next⟩ := r
      cases v with
      | error err => exact .badValue ht right
      | ok v =>
        cases v with
        | none => exact .droppedComparison ht right
        | some e =>
          exact .nextValue ht right
            (ih (.moreValues (.binary left { kind := op } e) next)
              (passed_lt hlen (by simp [Call.rank])))
    · next ht => exact .lastValue (by simpa using ht)

theorem reads_search {nested : Bool} {left : Option Expr} {c : Cursor}
    (ih : ∀ call, call.size < (Call.search nested left c).size → Reads o call (call.reading o)) :
    Reads o (.search nested left c) (search o nested left c).1 := by
  obtain ⟨_ | ⟨t, ts⟩, depth⟩ := c
  · rw [search_nil]
    exact .searchEnd
  cases hlogic : t.kind.logic? with
  | some op =>
    rw [search_logic o nested left hlogic]
    cases ts with
    | nil => exact .lastOperator hlogic
    | cons u us =>
      have operand : Reads o (.condition ⟨u :: us, depth⟩) (condition o ⟨u :: us, depth⟩).1 :=
        ih (.condition ⟨u :: us, depth⟩) (passed_lt (Nat.le_refl _) (by simp [Call.rank]))
      have hlen := Nat.le_trans (condition o ⟨u :: us, depth⟩).2 (Cursor.room_le _)
      generalize (condition o ⟨u :: us, depth⟩).1 = r at operand hlen ⊢
      obtain ⟨v, next⟩ := r
      cases v with
      | error err => exact .badOperand hlogic (List.cons_ne_nil u us) operand
      | ok right =>
        exact .joined hlogic (List.cons_ne_nil u us) operand
          (ih (.search nested (Expr.join op left right) next)
            (passed_lt hlen (by simp [Call.rank])))
  | none =>
    rw [search_other o nested left hlogic]
    split
    · next hclose =>
      obtain ⟨rfl, ht⟩ : nested = true ∧ t.kind = .rparen := by simpa using hclose
      exact .closed ht
    · next hclose =>
      split
      · next hatom =>
        obtain ⟨rfl, ht⟩ : left = none ∧ t.kind.isAtom = true := by simpa using hatom
        have operand : Reads o (.condition ⟨t :: ts, depth⟩) (condition o ⟨t :: ts, depth⟩).1 :=
          ih (.condition ⟨t :: ts, depth⟩) (kept_lt (Nat.le_refl _) (by simp [Call.rank]))
        have hlen := Nat.le_trans (condition o ⟨t :: ts, depth⟩).2
          (Nat.le_of_eq (Cursor.room_of_isAtom ht ts))
        generalize (condition o ⟨t :: ts, depth⟩).1 = r at operand hlen ⊢
        obtain ⟨v, next⟩ := r
        cases v with
        | error err => exact .badFirst ht operand
        | ok e =>
          exact .first ht operand
            (ih (.search nested e next) (passed_lt hlen (by simp [Call.rank])))
      · next hatom =>
        refine .passed hlogic (by simpa using hclose) (fun h => ?_)
          (ih (.search nested left ⟨ts, depth⟩) (passed_lt (Nat.le_refl _) (by simp [Call.rank])))
        simpa [h] using hatom

end

/-- Every call reads what its function returns. -/
theorem reads_reading (o : Options) (call : Call) : Reads o call (call.reading o) := by
  -- The size of a call is what the six functions themselves lower.
  have ih : ∀ sub : Call, sub.size < call.size → Reads o sub (sub.reading o) :=
    fun sub _ => reads_reading o sub
  cases call with
  | item c => exact reads_item ih
  | value c => exact reads_value ih
  | moreItems first others c => exact reads_moreItems ih
  | condition c => exact reads_condition ih
  | moreValues left c => exact reads_moreValues ih
  | search nested left c => exact reads_search ih
termination_by call.size

/-! ### Places that reading does not leave -/

/-- The call reads a whole search only inside a group. -/
def Call.Nested : Call → Prop
  | .search nested _ _ => nested = true
  | _ => True

/-- The call reads a whole search only inside a group, or where `top` groups are open. -/
def Call.Inside (top : Nat) (call : Call) : Prop := call.Nested ∨ call.start.depth = top

theorem ne_paren_of_isLeaf {k : Token.Kind} (h : k.isLeaf = true) : k ≠ .lparen ∧ k ≠ .rparen := by
  revert h
  cases k <;> decide

theorem ne_paren_of_comparison? {k : Token.Kind} {op : Operator.Kind}
    (h : k.comparison? = some op) : k ≠ .lparen ∧ k ≠ .rparen := by
  constructor <;> (rintro rfl; cases h)

theorem ne_paren_of_logic? {k : Token.Kind} {op : Operator.Kind}
    (h : k.logic? = some op) : k ≠ .lparen ∧ k ≠ .rparen := by
  constructor <;> (rintro rfl; cases h)

/-- As many groups are open behind a call as around it, also where it fails. -/
theorem Reads.depth_eq {o : Options} {call : Call} {r : Reading (Option Expr)}
    (h : Reads o call r) : r.next.depth = call.start.depth := by
  induction h with
  | noItem _ => exact Cursor.depth_skipParens _ _
  | @group t ts depth v next ht hd _ ih =>
    have hinner : next.depth = depth + 1 := ih
    show next.depth - 1 = depth
    rw [hinner, Nat.add_sub_cancel]
  | leaf _ _ | lastItem _ | fallback _ | lastValue _ | searchEnd | lastOperator _ | closed _ =>
    rfl
  | noValue _ _ ih | trailingColon _ _ ih | badItem _ _ ih | noCondition _ _ _ ih
  | droppedComparison _ _ ih | badValue _ _ ih | badOperand _ _ _ ih | badFirst _ _ ih
  | passed _ _ _ _ ih => exact ih
  | value _ _ ih₁ ih₂ | nextItem _ _ _ ih₁ ih₂ | condition _ _ _ ih₁ ih₂ | nextValue _ _ _ ih₁ ih₂
  | joined _ _ _ _ ih₁ ih₂ | first _ _ _ ih₁ ih₂ => exact ih₂.trans ih₁

/-- Places from which a group may be entered and left and any token may be passed, one that closes a
group only where `top` groups are open. -/
structure Kept (limit top : Nat) (P : Cursor → Prop) : Prop where
  enter {t : Token} {ts : List Token} {depth : Nat} :
    P ⟨t :: ts, depth⟩ → t.kind = .lparen → depth < limit → P ⟨ts, depth + 1⟩
  pass {t : Token} {ts : List Token} {depth : Nat} :
    P ⟨t :: ts, depth⟩ → (t.kind = .rparen → depth = top) → P ⟨ts, depth⟩
  leave {c : Cursor} : P c → P c.leave

section

variable {o : Options} {top : Nat} {P : Cursor → Prop} {call : Call} {r : Reading (Option Expr)}

namespace Kept

/-- A token that does not close a group may be passed. -/
theorem tail {limit : Nat} (hP : Kept limit top P) {t : Token} {ts : List Token} {depth : Nat}
    (hc : P ⟨t :: ts, depth⟩) (ht : t.kind ≠ .rparen) : P ⟨ts, depth⟩ :=
  hP.pass hc fun h => absurd h ht

theorem dropParens {limit : Nat} (hP : Kept limit top P) {ts : List Token} {depth : Nat}
    (hc : P ⟨ts, depth⟩) : P ⟨ts.dropWhile (·.kind = .lparen), depth⟩ := by
  induction ts with
  | nil => exact hc
  | cons t ts ih =>
    by_cases ht : t.kind = .lparen
    · have hc' := ih (hP.tail hc (by simp [ht]))
      simpa [ht] using hc'
    · simpa [ht] using hc

theorem skipParens {limit : Nat} (hP : Kept limit top P) {c : Cursor} (hc : P c) :
    P (c.skipParens limit) := by
  unfold Cursor.skipParens
  split
  · exact hP.dropParens hc
  · exact hc

end Kept

/-- **Reading does not leave the places that are kept.** -/
theorem Reads.kept (h : Reads o call r) (hP : Kept o.nestingLimit top P) :
    call.Inside top → P call.start → P r.next := by
  induction h with
  | noItem _ => exact fun _ hc => hP.skipParens hc
  | @leaf c t ts e h ht =>
    intro _ hc
    have hskip : c.skipParens o.nestingLimit = ⟨t :: ts, c.depth⟩ := by
      rw [← h, ← Cursor.depth_skipParens o.nestingLimit c]
    have hc' : P ⟨t :: ts, c.depth⟩ := hskip ▸ hP.skipParens hc
    exact hP.tail hc' (ne_paren_of_isLeaf (isLeaf_of_ofToken? ht)).2
  | group ht hd _ ih => exact fun _ hc => hP.leave (ih (.inl rfl) (hP.enter hc ht hd))
  | noValue _ _ ih | noCondition _ _ _ ih => exact fun _ hc => ih (.inl trivial) hc
  | value _ _ ih₁ ih₂ | condition _ _ _ ih₁ ih₂ =>
    exact fun _ hc => ih₂ (.inl trivial) (ih₁ (.inl trivial) hc)
  | lastItem _ | lastValue _ | searchEnd | closed _ => exact fun _ hc => hc
  | nextItem ht _ _ ih₁ ih₂ =>
    exact fun _ hc => ih₂ (.inl trivial) (ih₁ (.inl trivial) (hP.tail hc (by simp [ht])))
  | trailingColon ht _ ih | badItem ht _ ih =>
    exact fun _ hc => ih (.inl trivial) (hP.tail hc (by simp [ht]))
  | @fallback c t h =>
    intro _ hc
    obtain ⟨hrest, ht⟩ := lastLeaf?_eq_some_iff.mp h
    obtain ⟨rest, depth⟩ := c
    obtain rfl : rest = [t] := hrest
    exact hP.tail hc (ne_paren_of_isLeaf ht).2
  | nextValue ht _ _ ih₁ ih₂ =>
    intro _ hc
    have hc' := hP.tail hc (ne_paren_of_comparison? ht).2
    exact ih₂ (.inl trivial) (ih₁ (.inl trivial) hc')
  | droppedComparison ht _ ih | badValue ht _ ih =>
    exact fun _ hc => ih (.inl trivial) (hP.tail hc (ne_paren_of_comparison? ht).2)
  | lastOperator ht => exact fun _ hc => hP.tail hc (ne_paren_of_logic? ht).2
  | joined ht _ operand _ ih₁ ih₂ =>
    intro hin hc
    have hc' := ih₁ (.inl trivial) (hP.tail hc (ne_paren_of_logic? ht).2)
    exact ih₂ (hin.imp_right operand.depth_eq.trans) hc'
  | badOperand ht _ _ ih =>
    exact fun _ hc => ih (.inl trivial) (hP.tail hc (ne_paren_of_logic? ht).2)
  | first _ operand _ ih₁ ih₂ =>
    exact fun hin hc => ih₂ (hin.imp_right operand.depth_eq.trans) (ih₁ (.inl trivial) hc)
  | badFirst _ _ ih => exact fun _ hc => ih (.inl trivial) hc
  | passed _ hclose _ _ ih =>
    intro hin hc
    -- Inside a group the search would have ended at a parenthesis that closes.
    exact ih hin (hP.pass hc fun ht => hin.resolve_left fun hnested => hclose hnested ht)

end

/-! ### A call reads nothing else -/

/-- **Whatever follows the steps reads what the rules say**, also without the nesting limit or with
another one, where that makes no difference at any place that reading comes to. -/
theorem Reads.eq_of_follows {o : Options} {limit? : Option Nat} {top : Nat} {P : Cursor → Prop}
    {F : Call → Reading (Option Expr)} {call : Call} {r : Reading (Option Expr)}
    (h : Reads o call r) (hF : Follows o.fallbackField limit? F) (hP : Kept o.nestingLimit top P)
    (hskip : ∀ c, P c → c.skip limit? = c.skipParens o.nestingLimit) :
    call.Inside top → P call.start → F call = r := by
  induction h with
  | @noItem c h =>
    intro _ hc
    simp only [hF (.item c), Call.body, hskip c hc]
    cases hrest : (c.skipParens o.nestingLimit).rest with
    | nil => rfl
    | cons t ts =>
      have ht : t.kind.isAtom = false := h t (by simp [hrest])
      have hleaf := Expr.isSome_ofToken? t
      rw [Token.Kind.isAtom_eq] at ht
      simp_all
  | @leaf c t ts e h ht =>
    intro _ hc
    simp only [hF (.item c), Call.body, hskip c hc, h, ht]
  | @group t ts depth v next ht hd _ ih =>
    intro _ hc
    have hskip' : Cursor.skip limit? ⟨t :: ts, depth⟩ = ⟨t :: ts, depth⟩ :=
      (hskip _ hc).trans (if_neg (Nat.not_le_of_lt hd))
    have hleaf : Expr.ofToken? t = none := by simp [Expr.ofToken?, ht]
    have inner := ih (.inl rfl) (hP.enter hc ht hd)
    simp only [hF (.item ⟨t :: ts, depth⟩), Call.body, hskip', hleaf, ht, if_true, inner]
  | @noValue c r _ h ih =>
    intro _ hc
    have first := ih (.inl trivial) hc
    simp only [hF (.value c), Call.body, first]
  | @value c next e r item _ ih₁ ih₂ =>
    intro _ hc
    simp only [hF (.value c), Call.body, ih₁ (.inl trivial) hc]
    exact ih₂ (.inl trivial) (item.kept hP (.inl trivial) hc)
  | @lastItem first others c h =>
    intro _ _
    rw [hF]
    obtain ⟨_ | ⟨t, ts⟩, depth⟩ := c
    · rfl
    · exact if_neg (h t rfl)
  | @nextItem first e others t ts depth next r ht item _ ih₁ ih₂ =>
    intro _ hc
    have hc' := hP.tail hc (by simp [ht])
    simp only [hF (.moreItems first others _), Call.body, ht, if_true, ih₁ (.inl trivial) hc']
    exact ih₂ (.inl trivial) (item.kept hP (.inl trivial) hc')
  | trailingColon ht _ ih | badItem ht _ ih =>
    intro _ hc
    have item := ih (.inl trivial) (hP.tail hc (by simp [ht]))
    simp only [hF (.moreItems _ _ _), Call.body, ht, if_true, item]
  | fallback h =>
    intro _ _
    simp only [hF (.condition _), Call.body, h]
  | noCondition hlast _ h ih =>
    intro _ hc
    have first := ih (.inl trivial) hc
    simp only [hF (.condition _), Call.body, hlast, first]
  | condition hlast first _ ih₁ ih₂ =>
    intro _ hc
    simp only [hF (.condition _), Call.body, hlast, ih₁ (.inl trivial) hc]
    exact ih₂ (.inl trivial) (first.kept hP (.inl trivial) hc)
  | @lastValue left c h =>
    intro _ _
    rw [hF]
    obtain ⟨_ | ⟨t, ts⟩, depth⟩ := c
    · rfl
    · have ht : t.kind.comparison? = none := h t rfl
      simp only [Call.body, ht]
  | @nextValue left e op t ts depth next r ht right _ ih₁ ih₂ =>
    intro _ hc
    have hc' := hP.tail hc (ne_paren_of_comparison? ht).2
    simp only [hF (.moreValues left _), Call.body, ht, ih₁ (.inl trivial) hc']
    exact ih₂ (.inl trivial) (right.kept hP (.inl trivial) hc')
  | droppedComparison ht _ ih | badValue ht _ ih =>
    intro _ hc
    have right := ih (.inl trivial) (hP.tail hc (ne_paren_of_comparison? ht).2)
    simp only [hF (.moreValues _ _), Call.body, ht, right]
  | searchEnd =>
    intro _ _
    rw [hF, Call.body]
  | lastOperator ht =>
    intro _ _
    simp [hF (.search _ _ _), Call.body, ht]
  | @joined nested left right op t ts depth next r ht hts operand _ ih₁ ih₂ =>
    intro hin hc
    have hc' := hP.tail hc (ne_paren_of_logic? ht).2
    simp only [hF (.search nested left _), Call.body, ht, List.isEmpty_iff, hts, if_false,
      ih₁ (.inl trivial) hc']
    exact ih₂ (hin.imp_right operand.depth_eq.trans) (operand.kept hP (.inl trivial) hc')
  | badOperand ht hts _ ih =>
    intro _ hc
    have operand := ih (.inl trivial) (hP.tail hc (ne_paren_of_logic? ht).2)
    simp only [hF (.search _ _ _), Call.body, ht, List.isEmpty_iff, hts, if_false, operand]
  | @closed left t ts depth ht =>
    intro _ _
    have hlogic : t.kind.logic? = none := by rw [ht]; rfl
    have hend : (true && decide (t.kind = .rparen)) = true := by simp [ht]
    simp only [hF (.search true left _), Call.body, hlogic, hend, if_true]
  | @first nested e t ts depth next r ht operand _ ih₁ ih₂ =>
    intro hin hc
    have hend : (nested && decide (t.kind = .rparen)) = false := by
      have hclose : t.kind ≠ .rparen := fun h => by rw [h] at ht; cases ht
      simp [hclose]
    have hfirst : ((none : Option Expr).isNone && t.kind.isAtom) = true := by simp [ht]
    simp only [hF (.search nested none _), Call.body, logic?_of_isAtom ht, hend, hfirst,
      Bool.false_eq_true, if_false, if_true, ih₁ (.inl trivial) hc]
    exact ih₂ (hin.imp_right operand.depth_eq.trans) (operand.kept hP (.inl trivial) hc)
  | @badFirst nested t ts depth err next ht _ ih =>
    intro _ hc
    have hend : (nested && decide (t.kind = .rparen)) = false := by
      have hclose : t.kind ≠ .rparen := fun h => by rw [h] at ht; cases ht
      simp [hclose]
    have hfirst : ((none : Option Expr).isNone && t.kind.isAtom) = true := by simp [ht]
    have operand := ih (.inl trivial) hc
    simp only [hF (.search nested none _), Call.body, logic?_of_isAtom ht, hend, hfirst,
      Bool.false_eq_true, if_false, if_true, operand]
  | @passed nested left t ts depth r hlogic hclose hatom _ ih =>
    intro hin hc
    have hend : (nested && decide (t.kind = .rparen)) = false := by simpa using hclose
    have hfirst : (left.isNone && t.kind.isAtom) = false := by simpa using hatom
    have hc' := hP.pass hc fun ht => hin.resolve_left fun hnested => hclose hnested ht
    simp only [hF (.search nested left ⟨t :: ts, depth⟩), Call.body, hlogic, hend, hfirst,
      Bool.false_eq_true, if_false]
    exact ih hin hc'

/-- A call reads nothing but what its function returns. -/
theorem Reads.reading_eq {o : Options} {call : Call} {r : Reading (Option Expr)}
    (h : Reads o call r) : call.reading o = r := by
  have everywhere : Kept o.nestingLimit call.start.depth fun _ => True :=
    ⟨fun _ _ _ => trivial, fun _ _ => trivial, fun _ => trivial⟩
  exact h.eq_of_follows (follows_reading o) everywhere (fun _ _ => rfl) (.inr rfl) trivial

/-- A call reads what its function returns, and nothing else. -/
theorem reads_iff {o : Options} {call : Call} {r : Reading (Option Expr)} :
    Reads o call r ↔ call.reading o = r :=
  ⟨Reads.reading_eq, fun h => h ▸ reads_reading o call⟩

/-! ### Items at hand -/

/-- Parentheses are skipped only for want of room. -/
theorem skipParens_of_room {limit depth : Nat} {rest : List Token}
    (h : ∀ t ts, rest = t :: ts → t.kind = .lparen → depth < limit) :
    Cursor.skipParens limit ⟨rest, depth⟩ = ⟨rest, depth⟩ := by
  unfold Cursor.skipParens
  split
  · next hd =>
    cases rest with
    | nil => rfl
    | cons t ts =>
      have ht : t.kind ≠ .lparen := fun ht => absurd (h t ts rfl ht) (Nat.not_lt_of_le hd)
      simp [ht]
  · rfl

/-- Only parentheses are skipped. -/
theorem skipParens_of_ne_lparen {limit : Nat} {c : Cursor}
    (h : ∀ t ∈ c.rest.head?, t.kind ≠ .lparen) : c.skipParens limit = c := by
  obtain ⟨rest, depth⟩ := c
  refine skipParens_of_room ?_
  rintro t ts rfl ht
  exact absurd ht (h t rfl)

/-- A leaf is read where it stands. -/
theorem reads_leaf {o : Options} {t : Token} {e : Expr} (ht : Expr.ofToken? t = some e)
    (ts : List Token) (depth : Nat) :
    Reads o (.item ⟨t :: ts, depth⟩) ⟨.ok (some e), ⟨ts, depth⟩⟩ := by
  have hleaf := isLeaf_of_ofToken? ht
  refine .leaf (t := t) ?_ ht
  rw [skipParens_of_ne_lparen]
  rintro u ⟨⟩ hparen
  rw [hparen] at hleaf
  cases hleaf

/-- Where no item begins, none is read and the place is kept. -/
theorem reads_noItem {o : Options} {c : Cursor}
    (h : ∀ t ∈ c.rest.head?, t.kind.isAtom = false) : Reads o (.item c) ⟨.ok none, c⟩ := by
  have hskip : c.skipParens o.nestingLimit = c := by
    refine skipParens_of_ne_lparen fun t ht hparen => ?_
    have hatom := h t ht
    rw [hparen] at hatom
    cases hatom
  have hnone : Reads o (.item c) ⟨.ok none, c.skipParens o.nestingLimit⟩ :=
    .noItem (by rwa [hskip])
  rwa [hskip] at hnone

/-! ### What a call leaves -/

/-- The places among the ends of some tokens are kept. -/
theorem kept_suffix {limit top : Nat} (ts : List Token) :
    Kept limit top fun c => c.rest <:+ ts where
  enter hc _ _ := (List.suffix_cons _ _).trans hc
  pass hc _ := (List.suffix_cons _ _).trans hc
  leave {c} hc := c.rest_leave_suffix.trans hc

/-- What a call leaves is the end of what it was given. -/
theorem Reads.suffix {o : Options} {call : Call} {r : Reading (Option Expr)}
    (h : Reads o call r) : r.next.rest <:+ call.start.rest :=
  h.kept (kept_suffix call.start.rest) (.inr rfl) List.suffix_rfl

/-- How many tokens a call may leave: one that reads an item consumes what begins one. -/
def Call.room : Call → Nat
  | .item c | .value c | .condition c => Cursor.room c.rest
  | .moreItems _ _ c | .moreValues _ c | .search _ _ c => c.rest.length

theorem Reads.length_le_room {o : Options} {call : Call} {r : Reading (Option Expr)}
    (h : Reads o call r) : r.next.rest.length ≤ call.room := by
  rw [← h.reading_eq]
  cases call with
  | item c => exact (Search.item o c).2
  | value c => exact (Search.value o c).2
  | moreItems first others c => exact (Search.moreItems o first others c).2
  | condition c => exact (Search.condition o c).2
  | moreValues left c => exact (Search.moreValues o left c).2
  | search nested left c => exact (Search.search o nested left c).2

/-- A search that succeeds stops at the end of the tokens, or inside a group at a closing
parenthesis. -/
theorem Reads.search_end {o : Options} {nested : Bool} {left v : Option Expr} {c next : Cursor}
    (h : Reads o (.search nested left c) ⟨.ok v, next⟩) :
    next.rest = [] ∨ nested = true ∧ ∃ t ts, next.rest = t :: ts ∧ t.kind = .rparen := by
  -- The induction is over all calls; of the rules only those of a search speak of this one.
  generalize hcall : Call.search nested left c = call at h
  generalize hr : Reading.mk (.ok v) next = r at h
  induction h generalizing left c with
  | searchEnd => cases hr; exact .inl rfl
  | closed ht => cases hcall; cases hr; exact .inr ⟨rfl, _, _, rfl, ht⟩
  | joined _ _ _ _ _ ih | first _ _ _ _ ih | passed _ _ _ _ ih => cases hcall; exact ih rfl hr
  | lastOperator _ | badOperand _ _ _ | badFirst _ _ => cases hr
  | _ => cases hcall

/-- What a whole search reads is its expression; where it reads none, the empty term is looked
for. -/
theorem Reads.parse_eq_map {o : Options} {ts : List Token} {r : Reading (Option Expr)}
    (h : Reads o (.search false none ⟨ts, 0⟩) r) :
    parse o ts = r.value.map (·.getD (.fallback o.fallbackField "")) := by
  rw [parse_eq_parseBy, parseBy, h.reading_eq]

end SearchFilter.Search
