import SearchFilter.Search.Parser
import SearchFilter.Proofs.Rules

/-!
# The parser reads what the rules say

Wherever a call can begin, the parser gives what the call reads and stops where the call does
(`Reads.runs`).  So it comes to an end, and no step of it goes wrong: the rules of reading, of which
there are finitely many for each call, are steps of the parser too.

`Run.Gives` tells what a computation comes to from a given parser, and that the states on the way
are of some kind; it is carried from step to step (`Run.Gives.bind`).  For the parser these states
are `Sound`: the tokens are kept, the position is at one of them or at their end, and there is room
for all groups that are open.  `Moves` is the common case, in which a computation leaves as many
groups open as there were.

The position is a number here and the tokens that are left are `ts.drop p`.  Each level of the
parser has a lemma for each of its branches; the induction over the rules puts them together.
-/

namespace SearchFilter.Search

variable {α β : Type} {Q : Parser → Prop} {s t u : Parser} {o : Options} {ts us : List Token}
  {p q depth : Nat}

/-! ### Computations that succeed -/

/-- From the parser `s` the computation comes to an end without a fault, and gives `a` and the
parser `t`.  All states that it comes to are among `Q`. -/
def Run.Gives (x : Run α) (Q : Parser → Prop) (s : Parser) (a : α) (t : Parser) : Prop :=
  ∀ states, ∃ new, x.outcome s states = some (.ok ((a, t), new ++ states)) ∧ ∀ u ∈ new, Q u

namespace Run.Gives

variable {x : Run α} {f : α → Run β} {a : α} {b : β}

theorem pure (s : Parser) (a : α) : Gives (Pure.pure a) Q s a s :=
  fun _ => ⟨[], rfl, by simp⟩

theorem get {f : Parser → Run β} (h : (f s).Gives Q s b t) : Gives (MonadState.get >>= f) Q s b t :=
  h

theorem bind (hx : x.Gives Q s a t) (hf : (f a).Gives Q t b u) : Gives (x >>= f) Q s b u := by
  intro states
  obtain ⟨new, hx, hnew⟩ := hx states
  obtain ⟨more, hf, hmore⟩ := hf (new ++ states)
  refine ⟨more ++ new, ?_, ?_⟩
  · rw [Run.outcome] at hx hf ⊢
    simp only [StateT.run_bind, ExceptT.run_bind, hx]
    simp [hf]
  · simpa [or_imp, forall_and] using ⟨hmore, hnew⟩

theorem result_eq (hx : x.Gives Q s a t) : x.result s = some (.ok (a, t)) := by
  obtain ⟨new, hx, -⟩ := hx []
  rw [result, hx]
  rfl

/-- Behind a computation that leaves the parser as it was, the same is computed again. -/
theorem again {b : α} (hx : x.Gives Q s a t) (ht : x.Gives Q t b t) (n : Nat) :
    (x.again (n + 1)).Gives Q s b t := by
  induction n generalizing s a with
  | zero => exact hx.bind ht
  | succ n ih => exact hx.bind (ih ht)

end Run.Gives

/-! ### Positions -/

/-- The token at a position where tokens are left. -/
theorem of_drop_eq_cons {t : Token} (h : ts.drop p = t :: us) :
    ts[p]? = some t ∧ ts.drop (p + 1) = us ∧ p < ts.length := by
  refine ⟨?_, ?_, ?_⟩
  · rw [← List.head?_drop, h, List.head?_cons]
  · rw [← List.tail_drop, h, List.tail_cons]
  · refine Nat.lt_of_not_le fun hle => ?_
    rw [List.drop_of_length_le hle] at h
    cases h

/-- No token is left only at the end. -/
theorem of_drop_eq_nil (hp : p ≤ ts.length) (h : ts.drop p = []) :
    ts[p]? = none ∧ p = ts.length := by
  have hle := List.drop_eq_nil_iff.mp h
  exact ⟨List.getElem?_eq_none hle, Nat.le_antisymm hp hle⟩

/-- A place in front of a token, as a position. -/
theorem of_cursor_cons {t : Token} {depth' : Nat}
    (h : (⟨t :: us, depth⟩ : Cursor) = ⟨ts.drop p, depth'⟩) :
    depth' = depth ∧ ts.drop p = t :: us ∧ p < ts.length ∧
      ∀ d, (⟨us, d⟩ : Cursor) = ⟨ts.drop (p + 1), d⟩ := by
  obtain ⟨hrest, hdepth⟩ := Cursor.mk.inj h
  obtain ⟨-, hdrop, hlt⟩ := of_drop_eq_cons hrest.symm
  exact ⟨hdepth.symm, hrest.symm, hlt, fun d => by rw [hdrop]⟩

namespace Parser

/-! ### Steps -/

/-- The parser keeps to the tokens `ts`, stands at one of them or at their end, and has no more
groups open than there is room for. -/
structure Sound (o : Options) (ts : List Token) (s : Parser) : Prop where
  tokens_eq : s.tokens = ts
  position_le : s.position ≤ ts.length
  depth_le : s.depth ≤ o.nestingLimit

/-- The computation goes from position `p` to position `q` with `depth` groups open in the end as
before, and gives `a`. -/
def Moves (o : Options) (ts : List Token) (depth : Nat) (x : Run α) (p : Nat) (a : α) (q : Nat) :
    Prop :=
  x.Gives (Sound o ts) ⟨ts, p, depth⟩ a ⟨ts, q, depth⟩

theorem moveTo_gives (h : Q t) : (moveTo t).Gives Q s () t :=
  fun _ => ⟨[t], rfl, by simpa using h⟩

theorem advance_moves (hd : depth ≤ o.nestingLimit) (hp : p < ts.length) :
    Moves o ts depth advance p () (p + 1) :=
  .get (moveTo_gives ⟨rfl, hp, hd⟩)

theorem back_moves (hd : depth ≤ o.nestingLimit) (hp : p ≤ ts.length) :
    Moves o ts depth back (p + 1) () p :=
  .get (moveTo_gives ⟨rfl, hp, hd⟩)

theorem enter_gives (hd : depth < o.nestingLimit) (hp : p ≤ ts.length) :
    enter.Gives (Sound o ts) ⟨ts, p, depth⟩ () ⟨ts, p, depth + 1⟩ :=
  .get (moveTo_gives ⟨rfl, hp, hd⟩)

theorem leave_gives (hd : depth ≤ o.nestingLimit) (hp : p ≤ ts.length) :
    leave.Gives (Sound o ts) ⟨ts, p, depth + 1⟩ () ⟨ts, p, depth⟩ :=
  .get (moveTo_gives ⟨rfl, hp, hd⟩)

/-- Behind a group that is left, the parenthesis that closes it is passed if it is there. -/
theorem passClosing_moves (hd : depth ≤ o.nestingLimit) (hp : p ≤ ts.length) :
    ∃ q, q ≤ ts.length ∧ Cursor.leave ⟨ts.drop p, depth + 1⟩ = ⟨ts.drop q, depth⟩ ∧
      Moves o ts depth passClosing p () q := by
  cases hrest : ts.drop p with
  | nil =>
    obtain ⟨hget, -⟩ := of_drop_eq_nil hp hrest
    refine ⟨p, hp, by rw [hrest]; rfl, .get ?_⟩
    rw [peekKind?, peek?, hget]
    exact .pure _ _
  | cons t us =>
    obtain ⟨hget, hdrop, hlt⟩ := of_drop_eq_cons hrest
    by_cases ht : t.kind = .rparen
    · refine ⟨p + 1, hlt, by simp [Cursor.leave, ht, hdrop], .get ?_⟩
      rw [peekKind?, peek?, hget, if_pos (by simp [ht])]
      exact advance_moves hd hlt
    · refine ⟨p, hp, by simp [Cursor.leave, ht, hrest], .get ?_⟩
      rw [peekKind?, peek?, hget, if_neg (by simp [ht])]
      exact .pure _ _

/-- At the end there is no next token, and the position is kept. -/
theorem next_moves (hd : depth ≤ o.nestingLimit) (hp : p ≤ ts.length) :
    Moves o ts depth next p ts[p]? (min (p + 1) ts.length) := by
  refine .get ?_
  rw [peek?]
  cases hget : ts[p]? with
  | none =>
    have hend : ts.length ≤ p := List.getElem?_eq_none_iff.mp hget
    rw [Nat.min_eq_right (by omega), ← Nat.le_antisymm hp hend]
    exact .pure _ _
  | some t =>
    obtain ⟨hlt, -⟩ := List.getElem?_eq_some_iff.mp hget
    rw [Nat.min_eq_left hlt]
    exact (advance_moves hd hlt).bind (.pure _ _)

/-- A token that is no parenthesis beyond the limit is taken. -/
theorem nextInLimit_moves_one {t : Token} (hd : depth ≤ o.nestingLimit)
    (hrest : ts.drop p = t :: us) (ht : ¬ (t.kind = .lparen ∧ o.nestingLimit ≤ depth)) :
    Moves o ts depth o.nextInLimit p (some t) (p + 1) := by
  obtain ⟨hget, -, hlt⟩ := of_drop_eq_cons hrest
  have hnext := next_moves hd (Nat.le_of_lt hlt)
  rw [hget, Nat.min_eq_left hlt] at hnext
  rw [Options.nextInLimit]
  refine hnext.bind (.get ?_)
  rw [if_neg ht]
  exact .pure _ _

/-- In front of an item the parentheses are passed for which there is no room. -/
theorem nextInLimit_moves (hd : depth ≤ o.nestingLimit) (hp : p ≤ ts.length) :
    ∃ q, q ≤ ts.length ∧
      Cursor.skipParens o.nestingLimit ⟨ts.drop p, depth⟩ = ⟨ts.drop q, depth⟩ ∧
      Moves o ts depth o.nextInLimit p ts[q]? (min (q + 1) ts.length) := by
  generalize hrest : ts.drop p = rest
  induction rest generalizing p with
  | nil =>
    have hnext := next_moves hd hp
    obtain ⟨hget, -⟩ := of_drop_eq_nil hp hrest
    refine ⟨p, hp, by simp [Cursor.skipParens, hrest], ?_⟩
    rw [Options.nextInLimit]
    refine hnext.bind ?_
    rw [hget]
    exact .pure _ _
  | cons t us ih =>
    obtain ⟨hget, hdrop, hlt⟩ := of_drop_eq_cons hrest
    by_cases ht : t.kind = .lparen ∧ o.nestingLimit ≤ depth
    · obtain ⟨q, hq, hskip, hmore⟩ := ih hlt hdrop
      have hnext := next_moves hd hp
      rw [hget, Nat.min_eq_left hlt] at hnext
      refine ⟨q, hq, ?_, ?_⟩
      · rw [← hskip]
        simp [Cursor.skipParens, ht.1, ht.2]
      · rw [Options.nextInLimit]
        refine hnext.bind (.get ?_)
        rw [if_pos ht]
        exact hmore
    · refine ⟨p, hp, ?_, ?_⟩
      · rw [hrest]
        refine skipParens_of_room ?_
        rintro u vs ⟨⟩ hu
        exact Nat.lt_of_not_le fun hle => ht ⟨hu, hle⟩
      · rw [hget, Nat.min_eq_left hlt]
        exact nextInLimit_moves_one hd hrest ht

/-! ### Items -/

theorem item_moves_none (hd : depth ≤ o.nestingLimit) (hp : p ≤ ts.length)
    (h : ∀ t ∈ (Cursor.skipParens o.nestingLimit ⟨ts.drop p, depth⟩).rest.head?,
      t.kind.isAtom = false) :
    ∃ q, q ≤ ts.length ∧
      Cursor.skipParens o.nestingLimit ⟨ts.drop p, depth⟩ = ⟨ts.drop q, depth⟩ ∧
      Moves o ts depth o.item p (.ok none) q := by
  obtain ⟨q, hq, hskip, hnext⟩ := nextInLimit_moves hd hp
  refine ⟨q, hq, hskip, ?_⟩
  rw [hskip, List.head?_drop] at h
  rw [Options.item]
  refine hnext.bind ?_
  cases hget : ts[q]? with
  | none =>
    have hend := Nat.le_antisymm hq (List.getElem?_eq_none_iff.mp hget)
    rw [Nat.min_eq_right (by omega), ← hend]
    exact .pure _ _
  | some t =>
    obtain ⟨hlt, -⟩ := List.getElem?_eq_some_iff.mp hget
    have hatom := h t hget
    rw [Token.Kind.isAtom_eq, Bool.or_eq_false_iff, ← Expr.isSome_ofToken?,
      Option.isSome_eq_false_iff, Option.isNone_iff_eq_none, beq_eq_false_iff_ne] at hatom
    rw [Nat.min_eq_left hlt]
    dsimp only
    rw [hatom.1]
    dsimp only
    rw [if_neg hatom.2]
    exact (back_moves hd hq).bind (.pure _ _)

theorem item_moves_leaf {t : Token} {e : Expr} (hd : depth ≤ o.nestingLimit) (hp : p ≤ ts.length)
    (h : (Cursor.skipParens o.nestingLimit ⟨ts.drop p, depth⟩).rest = t :: us)
    (ht : Expr.ofToken? t = some e) :
    ∃ q, q ≤ ts.length ∧ us = ts.drop q ∧ Moves o ts depth o.item p (.ok (some e)) q := by
  obtain ⟨q, hq, hskip, hnext⟩ := nextInLimit_moves hd hp
  rw [hskip] at h
  obtain ⟨hget, hdrop, hlt⟩ := of_drop_eq_cons h
  rw [hget, Nat.min_eq_left hlt] at hnext
  refine ⟨q + 1, hlt, hdrop.symm, ?_⟩
  rw [Options.item]
  refine hnext.bind ?_
  dsimp only
  rw [ht]
  exact .pure _ _

theorem item_moves_group {t : Token} {v : Except Error (Option Expr)} (hd : depth < o.nestingLimit)
    (hrest : ts.drop p = t :: us) (ht : t.kind = .lparen) (hq : q ≤ ts.length)
    (hsearch : Moves o ts (depth + 1) (o.search true none) (p + 1) v q) :
    ∃ q', q' ≤ ts.length ∧ Cursor.leave ⟨ts.drop q, depth + 1⟩ = ⟨ts.drop q', depth⟩ ∧
      Moves o ts depth o.item p v q' := by
  obtain ⟨-, -, hlt⟩ := of_drop_eq_cons hrest
  have hle := Nat.le_of_lt hd
  have hnext := nextInLimit_moves_one hle hrest fun h => absurd h.2 (Nat.not_le_of_lt hd)
  have hleaf : Expr.ofToken? t = none := by simp [Expr.ofToken?, ht]
  obtain ⟨q', hq', hleave, hpass⟩ := passClosing_moves hle hq
  refine ⟨q', hq', hleave, ?_⟩
  rw [Options.item]
  refine hnext.bind ?_
  dsimp only
  rw [hleaf]
  dsimp only
  rw [if_pos ht]
  refine (enter_gives hd hlt).bind (hsearch.bind ?_)
  exact (leave_gives hle hq).bind (hpass.bind (.pure _ _))

/-! ### Values -/

theorem value_moves_alone {v : Except Error (Option Expr)} (hitem : Moves o ts depth o.item p v q)
    (h : ∀ e, v ≠ .ok (some e)) : Moves o ts depth o.value p v q := by
  rw [Options.value]
  refine hitem.bind ?_
  match v with
  | .error err => exact .pure _ _
  | .ok none => exact .pure _ _
  | .ok (some e) => exact absurd rfl (h e)

theorem value_moves {e : Expr} {q' : Nat} {v : Except Error (Option Expr)}
    (hitem : Moves o ts depth o.item p (.ok (some e)) q)
    (hmore : Moves o ts depth (o.moreItems e []) q v q') : Moves o ts depth o.value p v q' := by
  rw [Options.value]
  exact hitem.bind hmore

theorem moreItems_moves_end {first : Expr} {others : List Expr}
    (h : ∀ t ∈ (ts.drop p).head?, t.kind ≠ .colon) :
    Moves o ts depth (o.moreItems first others) p (.ok (some (.ofItems first others.reverse)))
      p := by
  rw [Options.moreItems]
  refine .get ?_
  rw [List.head?_drop] at h
  rw [if_neg (by simpa [peekKind?, peek?] using h)]
  exact .pure _ _

/-- Behind a colon the parser goes on with what is read as an item. -/
theorem moreItems_moves {first : Expr} {others : List Expr} {t : Token} {q' : Nat}
    {v w : Except Error (Option Expr)} (hd : depth ≤ o.nestingLimit) (hrest : ts.drop p = t :: us)
    (ht : t.kind = .colon) (hitem : Moves o ts depth o.item (p + 1) v q)
    (hmore : Moves o ts depth (match v with
      | .error err => return .error err
      | .ok none => return .ok (some (.list (first :: others.reverse)))
      | .ok (some e) => o.moreItems first (e :: others)) q w q') :
    Moves o ts depth (o.moreItems first others) p w q' := by
  obtain ⟨hget, -, hlt⟩ := of_drop_eq_cons hrest
  rw [Options.moreItems]
  refine .get ?_
  rw [if_pos (by simp [peekKind?, peek?, hget, ht])]
  exact (advance_moves hd hlt).bind (hitem.bind hmore)

/-! ### Conditions -/

theorem operator_moves {kind : Token.Kind} {op : Operator.Kind} (h : kind.operator? = some op) :
    Moves o ts depth (operator kind) p op p := by
  rw [operator, h]
  exact .pure _ _

theorem tokenAt_moves {i : Nat} {t : Token} (h : ts[i]? = some t) :
    Moves o ts depth (tokenAt i) p t p := by
  refine .get ?_
  rw [h]
  exact .pure _ _

theorem moreValues_moves_end {left : Expr} {compared : Bool}
    (h : ∀ t ∈ (ts.drop p).head?, t.kind.comparison? = none) :
    Moves o ts depth (o.moreValues left compared) p (.ok (left, compared)) p := by
  rw [Options.moreValues]
  refine .get ?_
  rw [List.head?_drop] at h
  have hnone : (peekKind? ⟨ts, p, depth⟩).filter (·.isComparison) = none := by
    simpa [peekKind?, peek?, ← Token.Kind.isSome_comparison?] using h
  rw [hnone]
  exact .pure _ _

/-- Behind a comparison the parser goes on with what is read as a value. -/
theorem moreValues_moves {left : Expr} {compared : Bool} {op : Operator.Kind} {t : Token} {q' : Nat}
    {v : Except Error (Option Expr)} {w : Except Error (Expr × Bool)} (hd : depth ≤ o.nestingLimit)
    (hrest : ts.drop p = t :: us) (ht : t.kind.comparison? = some op)
    (hvalue : Moves o ts depth o.value (p + 1) v q)
    (hmore : Moves o ts depth (match v with
      | .error err => return .error err
      | .ok none => return .ok (left, compared)
      | .ok (some e) => o.moreValues (.binary left { kind := op } e) true) q w q') :
    Moves o ts depth (o.moreValues left compared) p w q' := by
  obtain ⟨hget, -, hlt⟩ := of_drop_eq_cons hrest
  have hkind : (peekKind? ⟨ts, p, depth⟩).filter (·.isComparison) = some t.kind := by
    simp [peekKind?, peek?, hget, Token.Kind.isComparison_of_comparison? ht]
  rw [Options.moreValues]
  refine .get ?_
  rw [hkind]
  refine (advance_moves hd hlt).bind (hvalue.bind ?_)
  match v with
  | .error err => exact hmore
  | .ok none => exact hmore
  | .ok (some e) => exact (operator_moves (Token.Kind.operator?_of_comparison? ht)).bind hmore

theorem condition_moves_alone {v : Except Error (Option Expr)}
    (hvalue : Moves o ts depth o.value p v q) (h : ∀ e, v ≠ .ok (some e)) :
    Moves o ts depth o.condition p v q := by
  rw [Options.condition]
  refine .get (hvalue.bind ?_)
  match v with
  | .error err => exact .pure _ _
  | .ok none => exact .pure _ _
  | .ok (some e) => exact absurd rfl (h e)

theorem condition_moves_error {first : Expr} {err : Error} {q' : Nat}
    (hvalue : Moves o ts depth o.value p (.ok (some first)) q)
    (hmore : Moves o ts depth (o.moreValues first false) q (.error err) q') :
    Moves o ts depth o.condition p (.error err) q' := by
  rw [Options.condition]
  exact .get (hvalue.bind (hmore.bind (.pure _ _)))

/-- Where no lone leaf was read, the condition is what was put together.  If the token at which it
began is looked at again it is there, since it was passed and the parser is not behind the end. -/
theorem condition_moves {first whole : Expr} {compared : Bool} {q' : Nat} (hq' : q' ≤ ts.length)
    (hvalue : Moves o ts depth o.value p (.ok (some first)) q)
    (hmore : Moves o ts depth (o.moreValues first false) q (.ok (whole, compared)) q')
    (h : lastLeaf? (ts.drop p) = none) :
    Moves o ts depth o.condition p (.ok (some whole)) q' := by
  rw [Options.condition]
  refine .get (hvalue.bind (hmore.bind (.get ?_)))
  dsimp only
  split
  · next hlone =>
    obtain ⟨-, hend, rfl⟩ := hlone
    obtain ⟨t, hget⟩ : ∃ t, ts[p]? = some t := ⟨ts[p], List.getElem?_eq_getElem hq'⟩
    have hrest : ts.drop p = [t] := by
      obtain ⟨hlt, rfl⟩ := List.getElem?_eq_some_iff.mp hget
      rw [List.drop_eq_getElem_cons hlt, List.drop_of_length_le (of_decide_eq_true hend)]
    have hleaf : t.kind.isLeaf = false := by
      rw [hrest] at h
      simpa [lastLeaf?] using h
    refine (tokenAt_moves hget).bind ?_
    rw [hleaf, if_neg Bool.false_ne_true]
    exact .pure _ _
  · exact .pure _ _

/-- A leaf that is all that is left is read as a value, and looked at again. -/
theorem condition_moves_lastLeaf {t : Token} (hd : depth ≤ o.nestingLimit)
    (h : lastLeaf? (ts.drop p) = some t) :
    Moves o ts depth o.condition p (.ok (some (.fallback o.fallbackField t.text))) (p + 1) ∧
      ts.length = p + 1 := by
  obtain ⟨hrest, ht⟩ := lastLeaf?_eq_some_iff.mp h
  obtain ⟨hget, hnil, hlt⟩ := of_drop_eq_cons hrest
  obtain ⟨-, hend⟩ := of_drop_eq_nil hlt hnil
  obtain ⟨e, he⟩ := Option.isSome_iff_exists.mp ((Expr.isSome_ofToken? t).trans ht)
  refine ⟨?_, hend.symm⟩
  have hitem : Moves o ts depth o.item p (.ok (some e)) (p + 1) := by
    rw [Options.item]
    refine (nextInLimit_moves_one hd hrest fun hparen => ?_).bind ?_
    · exact (ne_paren_of_isLeaf ht).1 hparen.1
    · dsimp only
      rw [he]
      exact .pure _ _
  have hvalue := value_moves hitem (moreItems_moves_end (by simp [hnil]))
  have hmore : Moves o ts depth (o.moreValues e false) (p + 1) (.ok (e, false)) (p + 1) :=
    moreValues_moves_end (by simp [hnil])
  rw [Options.condition]
  refine .get (hvalue.bind (hmore.bind (.get ?_)))
  dsimp only
  rw [if_pos ⟨rfl, decide_eq_true (Nat.le_of_eq hend.symm), rfl⟩]
  refine (tokenAt_moves hget).bind ?_
  rw [ht, if_pos rfl]
  exact .pure _ _

/-! ### Searches -/

theorem search_moves_end {nested : Bool} {left : Option Expr} (h : ts.drop p = [])
    (hp : p ≤ ts.length) : Moves o ts depth (o.search nested left) p (.ok left) p := by
  obtain ⟨hget, -⟩ := of_drop_eq_nil hp h
  rw [Options.search]
  refine .get ?_
  rw [peek?, hget]
  exact .pure _ _

/-- Behind a logic operator the parser goes on with what is read as a condition. -/
theorem search_moves_joined {nested : Bool} {left : Option Expr} {op : Operator.Kind} {t : Token}
    {q' : Nat} {v w : Except Error (Option Expr)} (hd : depth ≤ o.nestingLimit)
    (hrest : ts.drop p = t :: us) (ht : t.kind.logic? = some op) (hus : us ≠ [])
    (hcondition : Moves o ts depth o.condition (p + 1) v q)
    (hmore : Moves o ts depth (match v with
      | .error err => return .error err
      | .ok right => o.search nested (Expr.join op left right)) q w q') :
    Moves o ts depth (o.search nested left) p w q' := by
  obtain ⟨hget, hdrop, hlt⟩ := of_drop_eq_cons hrest
  have hlogic := Token.Kind.isLogic_of_logic? ht
  have hatEnd : atEnd ⟨ts, p + 1, depth⟩ = false := by
    refine decide_eq_false fun hle => hus ?_
    rw [← hdrop, List.drop_of_length_le hle]
  rw [Options.search]
  refine .get ?_
  rw [peek?, hget]
  dsimp only
  rw [if_pos hlogic]
  refine (advance_moves hd hlt).bind (.get ?_)
  rw [hatEnd, if_neg Bool.false_ne_true]
  refine hcondition.bind ?_
  match left, v with
  | _, .error err => exact hmore
  | some l, .ok (some r) => exact (operator_moves (Token.Kind.operator?_of_logic? ht)).bind hmore
  | some l, .ok none => exact hmore
  | none, .ok right => exact hmore

theorem search_moves_lastOperator {nested : Bool} {left : Option Expr} {op : Operator.Kind}
    {t : Token} (hd : depth ≤ o.nestingLimit) (hrest : ts.drop p = [t])
    (ht : t.kind.logic? = some op) :
    Moves o ts depth (o.search nested left) p (.error (.missingOperand t.text)) (p + 1) := by
  obtain ⟨hget, hdrop, hlt⟩ := of_drop_eq_cons hrest
  have hlogic := Token.Kind.isLogic_of_logic? ht
  have hatEnd : atEnd ⟨ts, p + 1, depth⟩ = true := decide_eq_true (List.drop_eq_nil_iff.mp hdrop)
  rw [Options.search]
  refine .get ?_
  rw [peek?, hget]
  dsimp only
  rw [if_pos hlogic]
  refine (advance_moves hd hlt).bind (.get ?_)
  rw [if_pos hatEnd]
  exact .pure _ _

theorem search_moves_closed {left : Option Expr} {t : Token} (hrest : ts.drop p = t :: us)
    (ht : t.kind = .rparen) : Moves o ts depth (o.search true left) p (.ok left) p := by
  obtain ⟨hget, -, -⟩ := of_drop_eq_cons hrest
  rw [Options.search]
  refine .get ?_
  rw [peek?, hget]
  dsimp only
  rw [if_neg (by simp [ht, Token.Kind.isLogic]), if_pos ⟨rfl, ht⟩]
  exact .pure _ _

theorem search_moves_first {nested : Bool} {t : Token} {q' : Nat} {v w : Except Error (Option Expr)}
    (hrest : ts.drop p = t :: us) (ht : t.kind.isAtom = true)
    (hcondition : Moves o ts depth o.condition p v q)
    (hmore : Moves o ts depth (match v with
      | .error err => return .error err
      | .ok first => o.search nested first) q w q') :
    Moves o ts depth (o.search nested none) p w q' := by
  obtain ⟨hget, -, -⟩ := of_drop_eq_cons hrest
  have hlogic := Token.Kind.isLogic_eq_false (logic?_of_isAtom ht)
  have hclose : t.kind ≠ .rparen := fun h => by rw [h] at ht; cases ht
  rw [Options.search]
  refine .get ?_
  rw [peek?, hget]
  dsimp only
  rw [hlogic, if_neg Bool.false_ne_true, if_neg fun h => hclose h.2, if_pos ⟨rfl, ht⟩]
  exact hcondition.bind hmore

theorem search_moves_passed {nested : Bool} {left : Option Expr} {t : Token}
    {v : Except Error (Option Expr)} (hd : depth ≤ o.nestingLimit) (hrest : ts.drop p = t :: us)
    (hlogic : t.kind.logic? = none) (hclose : nested = true → t.kind ≠ .rparen)
    (hatom : left = none → t.kind.isAtom = false)
    (hmore : Moves o ts depth (o.search nested left) (p + 1) v q) :
    Moves o ts depth (o.search nested left) p v q := by
  obtain ⟨hget, -, hlt⟩ := of_drop_eq_cons hrest
  have hlogic' := Token.Kind.isLogic_eq_false hlogic
  rw [Options.search]
  refine .get ?_
  rw [peek?, hget]
  dsimp only
  rw [hlogic', if_neg Bool.false_ne_true, if_neg fun h => hclose h.1 h.2,
    if_neg fun h => by simp [hatom (Option.isNone_iff_eq_none.mp h.1)] at h]
  exact (advance_moves hd hlt).bind hmore

end Parser

/-! ### Every call -/

open SearchFilter.Search.Parser (Moves)

/-- The parser does what the call stands for: it goes from position `p` to `q` and gives `v`.  Where
values are compared it also tells whether any were. -/
def Call.Runs (o : Options) (ts : List Token) (depth p : Nat) (v : Except Error (Option Expr))
    (q : Nat) : Call → Prop
  | .item _ => Moves o ts depth o.item p v q
  | .value _ => Moves o ts depth o.value p v q
  | .moreItems first others _ => Moves o ts depth (o.moreItems first others) p v q
  | .condition _ => Moves o ts depth o.condition p v q
  | .moreValues left _ => ∀ compared, ∃ w,
      Moves o ts depth (o.moreValues left compared) p w q ∧ w.map (some ·.1) = v
  | .search nested left _ => Moves o ts depth (o.search nested left) p v q

/-- From every position where a call can begin, the parser gives what the call reads and stops where
it does. -/
theorem Reads.runs {call : Call} {r : Reading (Option Expr)} (h : Reads o call r) :
    ∀ {p depth}, p ≤ ts.length → depth ≤ o.nestingLimit → call.start = ⟨ts.drop p, depth⟩ →
      ∃ q, q ≤ ts.length ∧ r.next = ⟨ts.drop q, depth⟩ ∧ call.Runs o ts depth p r.value q := by
  induction h with
  | @noItem c h =>
    rintro p depth hp hd rfl
    exact Parser.item_moves_none hd hp h
  | @leaf c t us e h ht =>
    rintro p depth hp hd rfl
    obtain ⟨q, hq, rfl, hitem⟩ := Parser.item_moves_leaf hd hp h ht
    exact ⟨q, hq, rfl, hitem⟩
  | @group t us depth v next ht hd _ ih =>
    intro p _ hp _ hstart
    obtain ⟨rfl, hrest, hlt, htail⟩ := of_cursor_cons hstart
    obtain ⟨q, hq, rfl, hsearch⟩ := ih hlt hd (htail _)
    exact Parser.item_moves_group hd hrest ht hq hsearch
  | noValue _ h ih =>
    intro p depth hp hd hstart
    obtain ⟨q, hq, hnext, hitem⟩ := ih hp hd hstart
    exact ⟨q, hq, hnext, Parser.value_moves_alone hitem h⟩
  | value _ _ ih₁ ih₂ =>
    intro p depth hp hd hstart
    obtain ⟨q, hq, rfl, hitem⟩ := ih₁ hp hd hstart
    obtain ⟨q', hq', hnext, hmore⟩ := ih₂ hq hd rfl
    exact ⟨q', hq', hnext, Parser.value_moves hitem hmore⟩
  | lastItem h =>
    rintro p depth hp hd rfl
    exact ⟨p, hp, rfl, Parser.moreItems_moves_end h⟩
  | nextItem ht _ _ ih₁ ih₂ =>
    intro p _ hp hd hstart
    obtain ⟨rfl, hrest, hlt, htail⟩ := of_cursor_cons hstart
    obtain ⟨q, hq, rfl, hitem⟩ := ih₁ hlt hd (htail _)
    obtain ⟨q', hq', hnext, hmore⟩ := ih₂ hq hd rfl
    exact ⟨q', hq', hnext, Parser.moreItems_moves hd hrest ht hitem hmore⟩
  | trailingColon ht _ ih | badItem ht _ ih =>
    intro p _ hp hd hstart
    obtain ⟨rfl, hrest, hlt, htail⟩ := of_cursor_cons hstart
    obtain ⟨q, hq, rfl, hitem⟩ := ih hlt hd (htail _)
    exact ⟨q, hq, rfl, Parser.moreItems_moves hd hrest ht hitem (.pure _ _)⟩
  | fallback h =>
    rintro p depth hp hd rfl
    obtain ⟨hcondition, hend⟩ := Parser.condition_moves_lastLeaf hd h
    have hnil : ts.drop (p + 1) = [] := List.drop_of_length_le (Nat.le_of_eq hend)
    exact ⟨p + 1, Nat.le_of_eq hend.symm, by rw [hnil], hcondition⟩
  | noCondition _ _ h ih =>
    intro p depth hp hd hstart
    obtain ⟨q, hq, hnext, hvalue⟩ := ih hp hd hstart
    exact ⟨q, hq, hnext, Parser.condition_moves_alone hvalue h⟩
  | @condition c next e r hlast _ _ ih₁ ih₂ =>
    rintro p depth hp hd rfl
    obtain ⟨q, hq, rfl, hvalue⟩ := ih₁ hp hd rfl
    obtain ⟨q', hq', hnext, hmore⟩ := ih₂ hq hd rfl
    obtain ⟨w, hmore, hw⟩ := hmore false
    refine ⟨q', hq', hnext, ?_⟩
    rw [← hw]
    match w, hmore with
    | .error err, hmore => exact Parser.condition_moves_error hvalue hmore
    | .ok (whole, compared), hmore => exact Parser.condition_moves hq' hvalue hmore hlast
  | lastValue h =>
    rintro p depth hp hd rfl
    exact ⟨p, hp, rfl, fun compared => ⟨_, Parser.moreValues_moves_end h, rfl⟩⟩
  | nextValue ht _ _ ih₁ ih₂ =>
    intro p _ hp hd hstart
    obtain ⟨rfl, hrest, hlt, htail⟩ := of_cursor_cons hstart
    obtain ⟨q, hq, rfl, hvalue⟩ := ih₁ hlt hd (htail _)
    obtain ⟨q', hq', hnext, hmore⟩ := ih₂ hq hd rfl
    refine ⟨q', hq', hnext, fun compared => ?_⟩
    obtain ⟨w, hmore, hw⟩ := hmore true
    exact ⟨w, Parser.moreValues_moves hd hrest ht hvalue hmore, hw⟩
  | droppedComparison ht _ ih | badValue ht _ ih =>
    intro p _ hp hd hstart
    obtain ⟨rfl, hrest, hlt, htail⟩ := of_cursor_cons hstart
    obtain ⟨q, hq, rfl, hvalue⟩ := ih hlt hd (htail _)
    exact ⟨q, hq, rfl, fun compared =>
      ⟨_, Parser.moreValues_moves hd hrest ht hvalue (.pure _ _), rfl⟩⟩
  | searchEnd =>
    intro p _ hp _ hstart
    obtain ⟨hrest, rfl⟩ := Cursor.mk.inj hstart
    exact ⟨p, hp, hstart, Parser.search_moves_end hrest.symm hp⟩
  | lastOperator ht =>
    intro p _ hp hd hstart
    obtain ⟨rfl, hrest, hlt, htail⟩ := of_cursor_cons hstart
    exact ⟨p + 1, hlt, htail _,
      Parser.search_moves_lastOperator hd hrest ht⟩
  | joined ht hus _ _ ih₁ ih₂ =>
    intro p _ hp hd hstart
    obtain ⟨rfl, hrest, hlt, htail⟩ := of_cursor_cons hstart
    obtain ⟨q, hq, rfl, hcondition⟩ := ih₁ hlt hd (htail _)
    obtain ⟨q', hq', hnext, hmore⟩ := ih₂ hq hd rfl
    exact ⟨q', hq', hnext, Parser.search_moves_joined hd hrest ht hus hcondition hmore⟩
  | badOperand ht hus _ ih =>
    intro p _ hp hd hstart
    obtain ⟨rfl, hrest, hlt, htail⟩ := of_cursor_cons hstart
    obtain ⟨q, hq, rfl, hcondition⟩ := ih hlt hd (htail _)
    exact ⟨q, hq, rfl, Parser.search_moves_joined hd hrest ht hus hcondition (.pure _ _)⟩
  | closed ht =>
    intro p _ hp _ hstart
    obtain ⟨rfl, hrest, -, -⟩ := of_cursor_cons hstart
    exact ⟨p, hp, hstart, Parser.search_moves_closed hrest ht⟩
  | first ht _ _ ih₁ ih₂ =>
    intro p _ hp hd hstart
    obtain ⟨rfl, hrest, -, -⟩ := of_cursor_cons hstart
    obtain ⟨q, hq, rfl, hcondition⟩ := ih₁ hp hd hstart
    obtain ⟨q', hq', hnext, hmore⟩ := ih₂ hq hd rfl
    exact ⟨q', hq', hnext, Parser.search_moves_first hrest ht hcondition hmore⟩
  | badFirst ht _ ih =>
    intro p _ hp hd hstart
    obtain ⟨rfl, hrest, -, -⟩ := of_cursor_cons hstart
    obtain ⟨q, hq, rfl, hcondition⟩ := ih hp hd hstart
    exact ⟨q, hq, rfl, Parser.search_moves_first hrest ht hcondition (.pure _ _)⟩
  | passed hlogic hclose hatom _ ih =>
    intro p _ hp hd hstart
    obtain ⟨rfl, hrest, hlt, htail⟩ := of_cursor_cons hstart
    obtain ⟨q, hq, hnext, hmore⟩ := ih hlt hd (htail _)
    exact ⟨q, hq, hnext,
      Parser.search_moves_passed hd hrest hlogic hclose hatom hmore⟩

end SearchFilter.Search
