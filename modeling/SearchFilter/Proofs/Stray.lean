import SearchFilter.Proofs.Derivation
import Mathlib.Data.List.TakeWhile

/-!
# Tokens behind an operator

What becomes of a condition when tokens that belong nowhere stand between it and the operator in
front of it.  At the beginning of a search such tokens are passed over and the first condition is
read behind them.  Behind an operator they cost the condition: where no condition begins, the
operator has no right operand and is dropped, and with something on the left all that follows is
passed over up to the next operator.

The main result `parse_strays` says so for every operator of a search of the grammar.  The next
operator may stand in a group of the condition itself, so that a part of the group is joined after
all; a condition without such groups is lost as a whole, and the search reads as if neither the
condition nor its operator had been written.
-/

namespace SearchFilter.Grammar
open SearchFilter.Search (Cursor Reads Options parse lastLeaf? lastLeaf?_eq_some_iff reads_noItem)

/-- The kinds of tokens that no search of the grammar has. -/
def foreign : List Token.Kind := [.not, .mul, .div, .sub, .plus]

/-! ### Operators in a search -/

/-- A logic operator and the condition behind it. -/
structure Link where
  op : Logic
  text : String
  condition : Condition

/-- The tokens of links, one behind the other. -/
def Link.tokens (links : List Link) : List Token :=
  links.flatMap fun l => ⟨l.op.kind, l.text⟩ :: l.condition.tokens

/-- The search that goes on with links. -/
def Search.extend (s : Search) (links : List Link) : Search :=
  links.foldl (fun s l => .more s l.op l.text l.condition) s

theorem Search.tokens_extend (links : List Link) (s : Search) :
    (s.extend links).tokens = s.tokens ++ Link.tokens links := by
  induction links generalizing s with
  | nil => simp [extend, Link.tokens]
  | cons l links ih =>
    have hmore : s.extend (l :: links) = (Search.more s l.op l.text l.condition).extend links := rfl
    rw [hmore, ih]
    simp [Search.tokens, Link.tokens]

theorem Search.nesting_extend_le {n : Nat} (links : List Link) (s : Search) :
    (s.extend links).nesting ≤ n ↔ s.nesting ≤ n ∧ ∀ l ∈ links, l.condition.nesting ≤ n := by
  induction links generalizing s with
  | nil => simp [extend]
  | cons l links ih =>
    have hmore : s.extend (l :: links) = (Search.more s l.op l.text l.condition).extend links := rfl
    rw [hmore, ih, Search.nesting, Nat.max_le, List.forall_mem_cons, and_assoc]

/-- One operator of a search, with what stands before it and behind it. -/
structure Joint where
  before : Search
  link : Link
  links : List Link

namespace Joint

/-- The search that the operator belongs to. -/
def search (j : Joint) : Search := j.before.extend (j.link :: j.links)

/-- What stands behind the operator. -/
def behind (j : Joint) : List Token := j.link.condition.tokens ++ Link.tokens j.links

/-- The tokens of the search, with others put in directly behind the operator. -/
def tokens (j : Joint) (strays : List Token) : List Token :=
  j.before.tokens ++ ⟨j.link.op.kind, j.link.text⟩ :: (strays ++ j.behind)

/-- What stands behind the operator, from the next operator on. -/
def remainder (j : Joint) : List Token := j.behind.dropWhile fun t => t.kind.logic?.isNone

/-- With nothing put in they are the tokens of the search. -/
theorem tokens_nil (j : Joint) : j.tokens [] = j.search.tokens := by
  simp [tokens, search, behind, Search.tokens_extend, Link.tokens]

end Joint

/-! ### Tokens that are passed over -/

section

variable {o : Options} {l : Expr} {c : Cursor} {ts rest : List Token} {depth : Nat}
  {r : SearchFilter.Search.Reading (Option Expr)}

/-- With something on the left everything is passed over that is no operator and does not close a
group. -/
theorem reads_passed {nested : Bool} (hts : ∀ t ∈ ts, t.kind.logic? = none)
    (h : Reads o (.search nested (some l) ⟨rest, depth⟩) r)
    (hclose : nested = true → ∀ t ∈ ts, t.kind ≠ .rparen) :
    Reads o (.search nested (some l) ⟨ts ++ rest, depth⟩) r := by
  induction ts with
  | nil => exact h
  | cons t ts ih =>
    obtain ⟨ht, hts⟩ := List.forall_mem_cons.mp hts
    have hmore := ih hts fun hn u hu => hclose hn u (List.mem_cons_of_mem t hu)
    exact .passed ht (fun hn => hclose hn t List.mem_cons_self) nofun hmore

/-- Everything is passed over up to the next operator. -/
theorem reads_toOperator (ts : List Token)
    (h : Reads o (.search false (some l)
      ⟨ts.dropWhile fun t => t.kind.logic?.isNone, depth⟩) r) :
    Reads o (.search false (some l) ⟨ts, depth⟩) r := by
  rw [← List.takeWhile_append_dropWhile (p := fun t : Token => t.kind.logic?.isNone) (l := ts)]
  exact reads_passed (fun t ht => by simpa using List.mem_takeWhile_imp ht) h nofun

/-- Where no condition begins, none is read and the place is kept. -/
theorem reads_absentCondition (h : ∀ t ∈ c.rest.head?, t.kind.isAtom = false) :
    Reads o (.condition c) ⟨.ok none, c⟩ := by
  refine .noCondition ?_ (.noValue (reads_noItem h) nofun) nofun
  cases hlast : lastLeaf? c.rest with
  | none => rfl
  | some t =>
    obtain ⟨hrest, ht⟩ := lastLeaf?_eq_some_iff.mp hlast
    have hatom := h t (by simp [hrest])
    rw [Token.Kind.isAtom_eq, ht] at hatom
    cases hatom

end

theorem isAtom_of_foreign {k : Token.Kind} (h : k ∈ foreign) : k.isAtom = false := by
  revert h
  cases k <;> decide

theorem logic?_of_foreign {k : Token.Kind} (h : k ∈ foreign) : k.logic? = none := by
  revert h
  cases k <;> decide

/-! ### The condition behind them -/

/-- Tokens that are read alike are parsed alike. -/
theorem parse_congr {o : Options} {ts us : List Token}
    {r : SearchFilter.Search.Reading (Option Expr)}
    (hts : Reads o (.search false none ⟨ts, 0⟩) r) (hus : Reads o (.search false none ⟨us, 0⟩) r) :
    parse o ts = parse o us := by
  rw [hts.parse_eq_map, hus.parse_eq_map]

/-- What is read to the end is the expression. -/
theorem parse_eq {o : Options} {ts : List Token} {e : Expr} {next : Cursor}
    (h : Reads o (.search false none ⟨ts, 0⟩) ⟨.ok (some e), next⟩) : parse o ts = .ok e :=
  h.parse_eq_map

/-- A token that joins conditions is one of the logic operators. -/
theorem Logic.exists_of_logic? {k : Token.Kind} (h : k.logic? ≠ none) :
    ∃ op : Logic, k = op.kind := by
  cases k with
  | and => exact ⟨.and, rfl⟩
  | or => exact ⟨.or, rfl⟩
  | _ => exact absurd rfl h

namespace Joint

variable {o : Options} {j : Joint} {strays : List Token}

/-- The search is read up to the operator, and goes on behind all that is passed over. -/
theorem reads_strays (hd : j.before.nesting ≤ o.nestingLimit) (hne : strays ≠ [])
    (hstrays : ∀ t ∈ strays, t.kind ∈ foreign) {r : SearchFilter.Search.Reading (Option Expr)}
    (h : Reads o (.search false (some j.before.tree) ⟨j.remainder, 0⟩) r) :
    Reads o (.search false none ⟨j.tokens strays, 0⟩) r := by
  have habsent : Reads o (.condition ⟨strays ++ j.behind, 0⟩)
      ⟨.ok none, ⟨strays ++ j.behind, 0⟩⟩ := by
    refine reads_absentCondition ?_
    obtain ⟨t, ts, rfl⟩ := List.exists_cons_of_ne_nil hne
    rintro u ⟨⟩
    exact isAtom_of_foreign (hstrays t List.mem_cons_self)
  have hpassed : Reads o (.search false (some j.before.tree) ⟨strays ++ j.behind, 0⟩) r :=
    reads_passed (fun t ht => logic?_of_foreign (hstrays t ht)) (reads_toOperator _ h) nofun
  refine reads_search j.before hd (List.cons_ne_nil _ _)
    (j.before.last.endsBefore_logic j.link.op j.link.text _) ?_
  exact .joined j.link.op.logic?_kind (by simp [hne]) habsent hpassed

/-- Where an operator remains, the search goes on as if it stood at once behind what was read. -/
theorem reads_remainder (hd : j.before.nesting ≤ o.nestingLimit) (hrest : j.remainder ≠ [])
    {r : SearchFilter.Search.Reading (Option Expr)}
    (h : Reads o (.search false (some j.before.tree) ⟨j.remainder, 0⟩) r) :
    Reads o (.search false none ⟨j.before.tokens ++ j.remainder, 0⟩) r := by
  refine reads_search j.before hd hrest ?_ h
  obtain ⟨t, ts, hcons⟩ := List.exists_cons_of_ne_nil hrest
  have hfirst := List.head?_dropWhile_not (fun t : Token => t.kind.logic?.isNone) j.behind
  have ht : t.kind.logic? ≠ none := by
    rw [← remainder, hcons] at hfirst
    simpa [Option.isSome_iff_ne_none] using hfirst
  obtain ⟨op, hop⟩ := Logic.exists_of_logic? ht
  rw [hcons, show t = ⟨op.kind, t.text⟩ from congrArg (Token.mk · t.text) hop]
  exact j.before.last.endsBefore_logic op t.text ts

/-- Without an operator in the condition, the search behind it remains. -/
theorem remainder_eq (h : ∀ t ∈ j.link.condition.tokens, t.kind.logic? = none) :
    j.remainder = Link.tokens j.links := by
  have hnone : ∀ t ∈ j.link.condition.tokens, t.kind.logic?.isNone = true :=
    fun t ht => by simp [h t ht]
  rw [remainder, behind, List.dropWhile_append_of_pos hnone]
  cases j.links with
  | nil => rfl
  | cons l links => simp [Link.tokens]

end Joint

/-- **Foreign tokens behind an operator cost the condition behind them.**  The operator is dropped,
and all is passed over up to the next operator, where the search goes on. -/
theorem parse_strays {o : Options} {j : Joint} (hd : j.search.nesting ≤ o.nestingLimit)
    {strays : List Token} (hne : strays ≠ []) (hstrays : ∀ t ∈ strays, t.kind ∈ foreign) :
    (j.remainder = [] → parse o (j.tokens strays) = .ok j.before.tree) ∧
      (j.remainder ≠ [] →
        parse o (j.tokens strays) = parse o (j.before.tokens ++ j.remainder)) ∧
      ((∀ t ∈ j.link.condition.tokens, t.kind.logic? = none) →
        parse o (j.tokens strays) = .ok (if j.links = [] then j.before.tree
          else (j.before.extend j.links).wholeTree o.fallbackField)) := by
  obtain ⟨hbefore, hlinks⟩ := (Search.nesting_extend_le _ _).mp hd
  have hend : j.remainder = [] → parse o (j.tokens strays) = .ok j.before.tree := by
    intro hrest
    exact parse_eq (Joint.reads_strays hbefore hne hstrays (by rw [hrest]; exact .searchEnd))
  have hgoesOn : j.remainder ≠ [] →
      parse o (j.tokens strays) = parse o (j.before.tokens ++ j.remainder) := by
    intro hrest
    have hreads := SearchFilter.Search.reads_reading o
      (.search false (some j.before.tree) ⟨j.remainder, 0⟩)
    exact parse_congr (Joint.reads_strays hbefore hne hstrays hreads)
      (Joint.reads_remainder hbefore hrest hreads)
  refine ⟨hend, hgoesOn, fun hplain => ?_⟩
  have hrest := Joint.remainder_eq hplain
  split
  · next hnil => exact hend (by rw [hrest, hnil]; rfl)
  · next hcons =>
    have hlinks' : (j.before.extend j.links).nesting ≤ o.nestingLimit :=
      (Search.nesting_extend_le _ _).mpr
        ⟨hbefore, fun l hl => hlinks l (List.mem_cons_of_mem _ hl)⟩
    have hne' : j.remainder ≠ [] := by
      obtain ⟨l, links, hl⟩ := List.exists_cons_of_ne_nil hcons
      simp [hrest, hl, Link.tokens]
    rw [hgoesOn hne', hrest, ← Search.tokens_extend]
    exact parse_eq (reads_whole o _ hlinks')

/-- `a = 1 & ( b | c ) | d`, at its first operator. -/
def beforeGroup : Joint :=
  let leaf (text : String) : Condition := .one (.plain (.one (.word text)))
  let choice : Search := .more (.one (leaf "b")) .or "|" (leaf "c")
  { before := .one (.more (leaf "a") .eq "=" (.plain (.one (.number "1"))))
    link := ⟨.and, "&", .one (.plain (.one (.group "(" choice ")")))⟩
    links := [⟨.or, "|", leaf "d"⟩] }

/-- `a = 1 & ! * ( b | c ) | d`: of the group only what stands behind its operator is joined. -/
theorem parse_strays_group :
    beforeGroup.search.nesting ≤ 128 ∧
      parse {} (beforeGroup.tokens [⟨.not, "!"⟩, ⟨.mul, "*"⟩]) =
        .ok (.binary
          (.binary (.binary (.word "a") { kind := .eq } (.number "1")) { kind := .or } (.word "c"))
          { kind := .or } (.fallback "en_title" "d")) := by
  have hd : beforeGroup.search.nesting ≤ 128 := by decide
  obtain ⟨-, hgoesOn, -⟩ := parse_strays (o := {}) hd (List.cons_ne_nil ⟨.not, "!"⟩ [⟨.mul, "*"⟩])
    (by decide)
  refine ⟨hd, (hgoesOn (by decide)).trans ?_⟩
  with_unfolding_all rfl

/-- Foreign tokens behind an operator change the expression: `a & ! b` is `a`. -/
theorem not_parse_strays_unchanged :
    ¬ ∀ (j : Joint) (strays : List Token), j.search.nesting ≤ 128 →
      (∀ t ∈ strays, t.kind ∈ foreign) → parse {} (j.tokens strays) = parse {} j.search.tokens := by
  intro h
  let leaf (text : String) : Condition := .one (.plain (.one (.word text)))
  have hsame := h ⟨.one (leaf "a"), ⟨.and, "&", leaf "b"⟩, []⟩ [⟨.not, "!"⟩] (by decide) (by decide)
  have hstray : parse {} [⟨.word, "a"⟩, ⟨.and, "&"⟩, ⟨.not, "!"⟩, ⟨.word, "b"⟩] =
      .ok (.word "a") := by
    with_unfolding_all rfl
  have hplain : parse {} [⟨.word, "a"⟩, ⟨.and, "&"⟩, ⟨.word, "b"⟩] =
      .ok (.binary (.word "a") { kind := .and } (.fallback "en_title" "b")) := by
    with_unfolding_all rfl
  cases hstray.symm.trans (hsame.trans hplain)

end SearchFilter.Grammar
