import SearchFilter.Proofs.Parsing

/-!
# What the parser keeps to

The contract of the functions that read a search, for a parser at any position and with any number
of groups open for which there is room (`parser_keeps_contract`).  Each function comes to an end
without a fault: no token is looked up that is not there, no group is left where none is open, and
whatever is taken for an operator is one.  The parser stops where it began or behind, and neither
then nor on the way is it behind the end of the tokens or in more groups than there is room for; in
the end as many are open as before.  Where a token begins an item, what looks for an item passes it;
where none does, no item is read and the position is kept.  A search that succeeds stops at the end,
or inside a group at a parenthesis that closes.

That a function comes to an end and that nothing goes wrong are one statement about its result
(`Run.Gives`), and so is what it does on the way.  How far it gets is told by the tokens that a call
leaves (`Reads.length_le_room`).
-/

namespace SearchFilter.Search

variable {o : Options} {call : Call} {r : Reading (Option Expr)} {ts : List Token} {p q depth : Nat}

/-! ### How far a call gets -/

/-- The call looks for an item at the place where it begins. -/
def Call.LooksForItem : Call → Prop
  | .item _ | .value _ | .condition _ => True
  | .moreItems _ _ _ | .moreValues _ _ | .search _ _ _ => False

theorem Call.room_eq_of_looksForItem (h : call.LooksForItem) :
    call.room = Cursor.room call.start.rest := by
  cases call with
  | item | value | condition => rfl
  | moreItems | moreValues | search => cases h

/-- A call does not go back. -/
theorem Reads.position_le (h : Reads o call r) (hp : p ≤ ts.length)
    (hstart : call.start = ⟨ts.drop p, depth⟩) (hnext : r.next = ⟨ts.drop q, depth⟩) : p ≤ q := by
  have hlen := h.suffix.length_le
  rw [hstart, hnext, List.length_drop, List.length_drop] at hlen
  omega

/-- A call that looks for an item passes the token that begins it. -/
theorem Reads.position_lt (h : Reads o call r) (hitem : call.LooksForItem)
    (hstart : call.start = ⟨ts.drop p, depth⟩) (hnext : r.next = ⟨ts.drop q, depth⟩)
    (hatom : ∃ t ∈ ts[p]?, t.kind.isAtom = true) : p < q := by
  obtain ⟨t, hget, ht⟩ := hatom
  obtain ⟨us, hus⟩ : ∃ us, ts.drop p = t :: us :=
    List.head?_eq_some_iff.mp (List.head?_drop.trans hget)
  have hlen := h.length_le_room
  rw [Call.room_eq_of_looksForItem hitem, hstart, hnext, hus, Cursor.room_of_isAtom ht] at hlen
  have hcons := congrArg List.length hus
  rw [List.length_cons] at hcons
  rw [List.length_drop] at hlen hcons
  omega

/-! ### The contract -/

namespace Parser

variable {α : Type} {s : Parser}

/-- The place where the parser stands. -/
def cursor (s : Parser) : Cursor := ⟨s.tokens.drop s.position, s.depth⟩

/-- A token that begins an item is to be read next. -/
def AtItem (s : Parser) : Prop := ∃ t ∈ s.peek?, t.kind.isAtom = true

/-- From the parser `s` the computation comes to an end without a fault, with the value `v` and at
position `q`, where as many groups are open as before.  It does not go back, and all the while the
position is among the tokens or at their end, and there is room for the groups that are open. -/
structure Keeps (o : Options) (s : Parser) (x : Run α) (v : α) (q : Nat) : Prop where
  gives : x.Gives (Sound o s.tokens) s v { s with position := q }
  position_le : s.position ≤ q
  le_length : q ≤ s.tokens.length

/-- What the parser does for a call that begins where it stands. -/
theorem exists_runs (o : Options) (call : Call) (hstart : call.start = s.cursor)
    (hposition : s.position ≤ s.tokens.length) (hdepth : s.depth ≤ o.nestingLimit) :
    ∃ q, s.position ≤ q ∧ q ≤ s.tokens.length ∧
      (call.reading o).next = ⟨s.tokens.drop q, s.depth⟩ ∧
      call.Runs o s.tokens s.depth s.position (call.reading o).value q ∧
      (call.LooksForItem → s.AtItem → s.position < q) := by
  have hread := reads_reading o call
  obtain ⟨q, hq, hnext, hruns⟩ := hread.runs hposition hdepth hstart
  exact ⟨q, hread.position_le hposition hstart hnext, hq, hnext, hruns,
    fun hitem hatom => hread.position_lt hitem hstart hnext hatom⟩

/-- Where no item begins none is read, and the position is kept. -/
theorem item_keeps_position {q : Nat} (hposition : s.position ≤ s.tokens.length)
    (hq : q ≤ s.tokens.length) (hatom : ¬ s.AtItem)
    (hnext : ((Call.item s.cursor).reading o).next = ⟨s.tokens.drop q, s.depth⟩) :
    ((Call.item s.cursor).reading o).value = .ok none ∧ q = s.position := by
  have hnone : ∀ t ∈ s.cursor.rest.head?, t.kind.isAtom = false := by
    intro t ht
    rw [cursor, List.head?_drop] at ht
    exact Bool.eq_false_iff.mpr fun hitem => hatom ⟨t, ht, hitem⟩
  have hread := (reads_noItem (o := o) hnone).reading_eq
  rw [hread] at hnext ⊢
  have hlen := congrArg (·.rest.length) hnext
  simp only [cursor, List.length_drop] at hlen
  exact ⟨rfl, by omega⟩

/-- A search that succeeds stops at the end, or inside a group at a parenthesis that closes. -/
theorem search_stops {nested : Bool} {left e : Option Expr} {q : Nat} (hq : q ≤ s.tokens.length)
    (hnext : ((Call.search nested left s.cursor).reading o).next = ⟨s.tokens.drop q, s.depth⟩)
    (hvalue : ((Call.search nested left s.cursor).reading o).value = .ok e) :
    q = s.tokens.length ∨ nested = true ∧ ∃ t ∈ s.tokens[q]?, t.kind = .rparen := by
  have hread : Reads o (.search nested left s.cursor) ⟨.ok e, ⟨s.tokens.drop q, s.depth⟩⟩ := by
    rw [← hnext, ← hvalue]
    exact reads_reading o _
  rcases hread.search_end with hend | ⟨hnested, t, us, hus, ht⟩
  · exact .inl (Nat.le_antisymm hq (List.drop_eq_nil_iff.mp hend))
  · exact .inr ⟨hnested, t, (of_drop_eq_cons hus).1, ht⟩

end Parser

open SearchFilter.Search.Parser (Keeps)

/-- **Every function of the parser keeps to the contract**, at whichever position it begins, with
any number of groups open for which there is room. -/
theorem parser_keeps_contract (o : Options) {s : Parser} (hposition : s.position ≤ s.tokens.length)
    (hdepth : s.depth ≤ o.nestingLimit) :
    (∃ v q, Keeps o s o.item v q ∧ (s.AtItem → s.position < q) ∧
        (¬ s.AtItem → v = .ok none ∧ q = s.position)) ∧
      (∃ v q, Keeps o s o.value v q ∧ (s.AtItem → s.position < q)) ∧
      (∃ v q, Keeps o s o.condition v q ∧ (s.AtItem → s.position < q)) ∧
      ∀ nested left, ∃ v q, Keeps o s (o.search nested left) v q ∧
        ∀ e, v = .ok e → q = s.tokens.length ∨
          nested = true ∧ ∃ t ∈ s.tokens[q]?, t.kind = .rparen := by
  refine ⟨?item, ?value, ?condition, ?search⟩
  case item =>
    obtain ⟨q, hle, hq, hnext, hruns, hpass⟩ :=
      Parser.exists_runs o (.item s.cursor) rfl hposition hdepth
    exact ⟨_, q, ⟨hruns, hle, hq⟩, hpass trivial, fun hatom =>
      Parser.item_keeps_position hposition hq hatom hnext⟩
  case value =>
    obtain ⟨q, hle, hq, -, hruns, hpass⟩ :=
      Parser.exists_runs o (.value s.cursor) rfl hposition hdepth
    exact ⟨_, q, ⟨hruns, hle, hq⟩, hpass trivial⟩
  case condition =>
    obtain ⟨q, hle, hq, -, hruns, hpass⟩ :=
      Parser.exists_runs o (.condition s.cursor) rfl hposition hdepth
    exact ⟨_, q, ⟨hruns, hle, hq⟩, hpass trivial⟩
  case search =>
    intro nested left
    obtain ⟨q, hle, hq, hnext, hruns, -⟩ :=
      Parser.exists_runs o (.search nested left s.cursor) rfl hposition hdepth
    exact ⟨_, q, ⟨hruns, hle, hq⟩, fun e hvalue => Parser.search_stops hq hnext hvalue⟩

/-- In `((b)` with room for one group, inside the group: the condition passes over the parenthesis
for which there is no room. -/
theorem parser_keeps_contract_without_room :
    ∃ v q, Keeps ⟨"title", 1⟩
        ⟨[⟨.lparen, "("⟩, ⟨.lparen, "("⟩, ⟨.word, "b"⟩, ⟨.rparen, ")"⟩], 1, 1⟩
        (Options.condition ⟨"title", 1⟩) v q ∧ 1 < q := by
  obtain ⟨-, -, ⟨v, q, hkeeps, hpass⟩, -⟩ := parser_keeps_contract ⟨"title", 1⟩
    (s := ⟨[⟨.lparen, "("⟩, ⟨.lparen, "("⟩, ⟨.word, "b"⟩, ⟨.rparen, ")"⟩], 1, 1⟩) (by decide)
    (Nat.le_refl 1)
  exact ⟨v, q, hkeeps, hpass ⟨_, rfl, rfl⟩⟩

end SearchFilter.Search
