import SearchFilter.Search.Reading

/-!
# The parser

The parser keeps all tokens and a position among them, and reads a search by moving the position
and counting the groups that are open.  Its functions are the levels of a search once more, for
given options, but here everything can go wrong that could: a step forward is made whether or not
there is a token to pass, a token may be looked up that is not there, a group may be left where none
is open, a token may be taken for an operator that is none, and a loop may go on for ever.

`Run` is a computation of the parser.  It has no result if it does not come to an end, a fault if a
step goes wrong, and otherwise a value and the parser behind it.  All states on the way are recorded
too, since what is claimed of the parser is claimed of each of them: only `moveTo` changes the
state, and it records the one that it comes to.

That nothing does go wrong, and that the parser reads what is read from a place, is `Reads.runs`.
-/

namespace SearchFilter.Search

/-- All tokens of a search, the position of the one to be read next, and the number of groups open
around it. -/
structure Parser where
  tokens : List Token
  position : Nat := 0
  depth : Nat := 0
  deriving DecidableEq, Repr

/-- What may go wrong: a token is looked up where there is none, a token stands for no operator, a
group is left and none is open. -/
inductive Fault where
  | noToken
  | noOperator
  | noGroup
  deriving DecidableEq, Repr

/-- A computation of the parser, which also records the states that the parser comes to, the last
one first. -/
abbrev Run : Type → Type := StateT Parser (StateT (List Parser) (ExceptT Fault Option))

namespace Run

variable {α : Type}

/-- What a computation comes to from a parser, and the states on the way in front of earlier ones.
-/
def outcome (x : Run α) (s : Parser) (states : List Parser) :
    Option (Except Fault ((α × Parser) × List Parser)) :=
  ((x.run s).run states).run

/-- What a computation comes to from a parser. -/
def result (x : Run α) (s : Parser) : Option (Except Fault (α × Parser)) :=
  (x.outcome s []).map (·.map (·.1))

/-- A computation that is made `n` times, and once more for its value. -/
def again (x : Run α) : Nat → Run α
  | 0 => x
  | n + 1 => do
    let _ ← x
    x.again n

end Run

namespace Parser

/-! ### Looking at the tokens -/

/-- The token to be read next. -/
def peek? (s : Parser) : Option Token := s.tokens[s.position]?

/-- The kind of the token to be read next. -/
def peekKind? (s : Parser) : Option Token.Kind := s.peek?.map (·.kind)

/-- There is no token to be read. -/
def atEnd (s : Parser) : Bool := s.tokens.length ≤ s.position

/-- The token at a position. -/
def tokenAt (i : Nat) : Run Token := do
  let s ← get
  match s.tokens[i]? with
  | some t => return t
  | none => throw .noToken

/-- The operator of a token that joins two sides. -/
def operator (kind : Token.Kind) : Run Operator.Kind :=
  match kind.operator? with
  | some op => return op
  | none => throw .noOperator

/-! ### Moving on -/

/-- Comes to a state, and records it. -/
def moveTo (s : Parser) : Run Unit := do
  set s
  modifyThe (List Parser) (s :: ·)

/-- One step forward, also at the end. -/
def advance : Run Unit := do
  let s ← get
  moveTo { s with position := s.position + 1 }

/-- One step back, but not from the first token. -/
def back : Run Unit := do
  let s ← get
  moveTo { s with position := s.position - 1 }

/-- The token to be read next, which is passed if it is there. -/
def next : Run (Option Token) := do
  let s ← get
  match s.peek? with
  | none => return none
  | some t =>
    advance
    return some t

/-- One more group is open. -/
def enter : Run Unit := do
  let s ← get
  moveTo { s with depth := s.depth + 1 }

/-- One group less is open. -/
def leave : Run Unit := do
  let s ← get
  if s.depth = 0 then throw .noGroup else moveTo { s with depth := s.depth - 1 }

/-- Passes the parenthesis that closes a group, if it is there. -/
def passClosing : Run Unit := do
  let s ← get
  if s.peekKind? = some .rparen then advance

end Parser

/-! ### The levels

A level is written as a method of the options, and so it calls the others. -/

namespace Options

open SearchFilter.Search.Parser

/-- The next token that is no parenthesis beyond the limit, with those in front of it passed. -/
def nextInLimit (o : Options) : Run (Option Token) := do
  match ← next with
  | none => return none
  | some t =>
    let s ← get
    if t.kind = .lparen ∧ o.nestingLimit ≤ s.depth then o |>.nextInLimit else return some t
partial_fixpoint

mutual

/-- Reads an item: a leaf, or the search inside a group.  A token that begins none is given back. -/
def item (o : Options) : Run (Except Error (Option Expr)) := do
  match ← o.nextInLimit with
  | none => return .ok none
  | some t =>
    match Expr.ofToken? t with
    | some leaf => return .ok (some leaf)
    | none =>
      if t.kind = .lparen then
        enter
        let inner ← o |>.search true none
        leave
        passClosing
        return inner
      else
        back
        return .ok none
partial_fixpoint

/-- Reads a value: items joined by colons. -/
def value (o : Options) : Run (Except Error (Option Expr)) := do
  match ← o |>.item with
  | .error err => return .error err
  | .ok none => return .ok none
  | .ok (some first) => o |>.moreItems first []
partial_fixpoint

/-- Reads the rest of a value behind its first item, with the items behind that in reverse. -/
def moreItems (o : Options) (first : Expr) (others : List Expr) :
    Run (Except Error (Option Expr)) := do
  let s ← get
  if s.peekKind? = some .colon then
    advance
    match ← o |>.item with
    | .error err => return .error err
    | .ok none => return .ok (some (.list (first :: others.reverse)))
    | .ok (some e) => o |>.moreItems first (e :: others)
  else return .ok (some (.ofItems first others.reverse))
partial_fixpoint

/-- Reads a condition: values joined by comparisons.  If there was none of these, the tokens are at
their end and only one was passed, that one is looked at again: a leaf is looked for in the fallback
field. -/
def condition (o : Options) : Run (Except Error (Option Expr)) := do
  let start ← get
  match ← o |>.value with
  | .error err => return .error err
  | .ok none => return .ok none
  | .ok (some first) =>
    match ← o |>.moreValues first false with
    | .error err => return .error err
    | .ok (whole, compared) =>
      let s ← get
      if !compared ∧ s.atEnd ∧ s.position = start.position + 1 then
        let last ← tokenAt start.position
        if last.kind.isLeaf then return .ok (some (.fallback o.fallbackField last.text))
        else return .ok (some whole)
      else return .ok (some whole)
partial_fixpoint

/-- Reads the rest of a condition, with what stands before it, and tells whether anything was
compared. -/
def moreValues (o : Options) (left : Expr) (compared : Bool) :
    Run (Except Error (Expr × Bool)) := do
  let s ← get
  match s.peekKind?.filter (·.isComparison) with
  | none => return .ok (left, compared)
  | some kind =>
    advance
    match ← o |>.value with
    | .error err => return .error err
    | .ok none => return .ok (left, compared)
    | .ok (some right) =>
      let op ← operator kind
      o |>.moreValues (.binary left { kind := op } right) true
partial_fixpoint

/-- Reads a search, with what stands before it.  Inside a group a closing parenthesis ends it and is
left there. -/
def search (o : Options) (nested : Bool) (left : Option Expr) :
    Run (Except Error (Option Expr)) := do
  let s ← get
  match s.peek? with
  | none => return .ok left
  | some t =>
    if t.kind.isLogic then
      advance
      let s ← get
      if s.atEnd then return .error (.missingOperand t.text)
      else
        match ← o |>.condition with
        | .error err => return .error err
        | .ok right =>
          match left, right with
          | some l, some r =>
            let op ← operator t.kind
            o |>.search nested (some (.binary l { kind := op } r))
          | l, r => o |>.search nested (l <|> r)
    else if nested ∧ t.kind = .rparen then return .ok left
    else if left.isNone ∧ t.kind.isAtom then
      match ← o |>.condition with
      | .error err => return .error err
      | .ok first => o |>.search nested first
    else
      advance
      o |>.search nested left
partial_fixpoint

end

/-! ### A whole search -/

/-- Reads a search to the end of the tokens.  Where nothing is left of it, the empty term is looked
for in the fallback field. -/
def parse (o : Options) : Run (Except Error Expr) := do
  match ← o.search false none with
  | .error err => return .error err
  | .ok e => return .ok (e.getD (.fallback o.fallbackField ""))

end Options

end SearchFilter.Search
