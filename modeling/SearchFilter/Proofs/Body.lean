import SearchFilter.Search.Equations

/-!
# One call at a time

What each call of the six functions that read a search does by itself.  `Call.body` is the step from
what the calls that it makes read to what it reads.  The nesting limit is a part of the step that
may be taken out; without one every group is opened.  A function that tells what every call reads
`Follows` the steps if each call reads what its body says.

With the limit of its options the parser follows the steps (`follows_reading`).
-/

namespace SearchFilter.Search

/-! ### Calls -/

/-- A call of one of the six functions, with what it is given. -/
inductive Call where
  | item (c : Cursor)
  | value (c : Cursor)
  | moreItems (first : Expr) (others : List Expr) (c : Cursor)
  | condition (c : Cursor)
  | moreValues (left : Expr) (c : Cursor)
  | search (nested : Bool) (left : Option Expr) (c : Cursor)

namespace Call

/-- The place where a call begins. -/
def start : Call → Cursor
  | .item c | .value c | .moreItems _ _ c | .condition c | .moreValues _ c | .search _ _ c => c

/-- What the function that is called returns. -/
def reading (o : Options) : Call → Reading (Option Expr)
  | .item c => (Search.item o c).1
  | .value c => (Search.value o c).1
  | .moreItems first others c => (Search.moreItems o first others c).1
  | .condition c => (Search.condition o c).1
  | .moreValues left c => (Search.moreValues o left c).1
  | .search nested left c => (Search.search o nested left c).1

/-- The place of a function among the six: it asks the ones before it where it stands. -/
def rank : Call → Nat
  | .item _ => 0
  | .moreItems _ _ _ => 1
  | .value _ => 2
  | .moreValues _ _ => 3
  | .condition _ => 4
  | .search _ _ _ => 5

/-- What each call lowers. -/
def size (call : Call) : Nat := 6 * call.start.rest.length + call.rank

end Call

/-! ### The step -/

/-- The place behind the opening parentheses for which there is no more room.  Without a limit there
is room for all. -/
def Cursor.skip (limit? : Option Nat) (c : Cursor) : Cursor :=
  match limit? with
  | some limit => c.skipParens limit
  | none => c

/-- What a call reads where `F` tells what the calls that it makes read.  Without a limit, no
parenthesis is skipped for want of room. -/
def Call.body (field : String) (limit? : Option Nat) (F : Call → Reading (Option Expr)) :
    Call → Reading (Option Expr)
  | .item c =>
    match (c.skip limit?).rest with
    | [] => ⟨.ok none, c.skip limit?⟩
    | t :: ts =>
      match Expr.ofToken? t with
      | some leaf => ⟨.ok (some leaf), ⟨ts, c.depth⟩⟩
      | none =>
        if t.kind = .lparen then
          let inner := F (.search true none ⟨ts, c.depth + 1⟩)
          ⟨inner.value, inner.next.leave⟩
        else ⟨.ok none, c.skip limit?⟩
  | .value c =>
    let first := F (.item c)
    match first.value with
    | .ok (some e) => F (.moreItems e [] first.next)
    | _ => first
  | .moreItems first others ⟨[], depth⟩ =>
    ⟨.ok (some (.ofItems first others.reverse)), ⟨[], depth⟩⟩
  | .moreItems first others ⟨t :: ts, depth⟩ =>
    if t.kind = .colon then
      let next := F (.item ⟨ts, depth⟩)
      match next.value with
      | .ok (some e) => F (.moreItems first (e :: others) next.next)
      | .ok none => ⟨.ok (some (.list (first :: others.reverse))), next.next⟩
      | .error _ => next
    else ⟨.ok (some (.ofItems first others.reverse)), ⟨t :: ts, depth⟩⟩
  | .condition c =>
    match lastLeaf? c.rest with
    | some t => ⟨.ok (some (.fallback field t.text)), ⟨[], c.depth⟩⟩
    | none =>
      let first := F (.value c)
      match first.value with
      | .ok (some e) => F (.moreValues e first.next)
      | _ => first
  | .moreValues left ⟨[], depth⟩ => ⟨.ok (some left), ⟨[], depth⟩⟩
  | .moreValues left ⟨t :: ts, depth⟩ =>
    match t.kind.comparison? with
    | some op =>
      let right := F (.value ⟨ts, depth⟩)
      match right.value with
      | .ok (some e) => F (.moreValues (.binary left { kind := op } e) right.next)
      | .ok none => ⟨.ok (some left), right.next⟩
      | .error _ => right
    | none => ⟨.ok (some left), ⟨t :: ts, depth⟩⟩
  | .search _ left ⟨[], depth⟩ => ⟨.ok left, ⟨[], depth⟩⟩
  | .search nested left ⟨t :: ts, depth⟩ =>
    match t.kind.logic? with
    | some op =>
      if ts.isEmpty then ⟨.error (.missingOperand t.text), ⟨ts, depth⟩⟩
      else
        let right := F (.condition ⟨ts, depth⟩)
        match right.value with
        | .ok e => F (.search nested (Expr.join op left e) right.next)
        | .error _ => right
    | none =>
      if nested && t.kind = .rparen then ⟨.ok left, ⟨t :: ts, depth⟩⟩
      else if left.isNone && t.kind.isAtom then
        let first := F (.condition ⟨t :: ts, depth⟩)
        match first.value with
        | .ok e => F (.search nested e first.next)
        | .error _ => first
      else F (.search nested left ⟨ts, depth⟩)

/-- Every call reads what its body says. -/
def Follows (field : String) (limit? : Option Nat) (F : Call → Reading (Option Expr)) : Prop :=
  ∀ call, F call = call.body field limit? F

/-- The expression that tokens write where `F` tells what every call reads. -/
def parseBy (field : String) (F : Call → Reading (Option Expr)) (ts : List Token) :
    Except Error Expr :=
  (F (.search false none ⟨ts, 0⟩)).value.map (·.getD (.fallback field ""))

theorem parse_eq_parseBy (o : Options) (ts : List Token) :
    parse o ts = parseBy o.fallbackField (Call.reading o) ts := rfl

/-- The parser follows the steps with its limit. -/
theorem follows_reading (o : Options) :
    Follows o.fallbackField (some o.nestingLimit) (Call.reading o) := by
  intro call
  match call with
  | .item c => exact item_eq o c
  | .value c => exact value_eq o c
  | .moreItems first others ⟨[], depth⟩ => exact moreItems_nil o first others depth
  | .moreItems first others ⟨t :: ts, depth⟩ => exact moreItems_cons o first others t ts depth
  | .condition c => exact condition_eq o c
  | .moreValues left ⟨[], depth⟩ => exact moreValues_nil o left depth
  | .moreValues left ⟨t :: ts, depth⟩ => exact moreValues_cons o left t ts depth
  | .search nested left ⟨[], depth⟩ => exact search_nil o nested left depth
  | .search nested left ⟨t :: ts, depth⟩ =>
    cases ht : t.kind.logic? with
    | some op =>
      simp only [Call.body, ht]
      exact search_logic o nested left ht ts depth
    | none =>
      simp only [Call.body, ht]
      exact search_other o nested left ht ts depth

end SearchFilter.Search
