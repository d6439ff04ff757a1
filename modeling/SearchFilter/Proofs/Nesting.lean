import SearchFilter.Proofs.Rules
import Mathlib.Data.List.Infix

/-!
# Below the nesting limit

A search in which parentheses never nest deeper than the limit is read as if there were no limit
(`parse_shallow`): a larger limit changes nothing, and neither does the parser without the check.
The depth of parentheses is counted along the tokens, whatever their place in the search; one that
closes where none is open is ignored (`bracketDepth`).

The parser counts otherwise, since it opens a group only where an item may begin, and passes over
other parentheses.  But it never counts more than the tokens do: a parenthesis that closes is passed
only where no group is open, and ends a group otherwise.  `Sheltered` places are those where the
parser counts no more and the tokens ahead stay within the limit.  Reading does not leave them
(`Sheltered.kept`), and no parenthesis is skipped there.

What is read without the check is told by the steps of the parser with the check taken out
(`Follows`).  There is one function that follows them: it reads every call with a limit too large to
be met (`follows_unlimited`, `Follows.eq_unlimited`).
-/

namespace SearchFilter.Search

/-! ### The depth of parentheses -/

/-- How many parentheses are open behind a token, where `n` are open in front of it. -/
def openBehind (n : Nat) (t : Token) : Nat :=
  match t.kind with
  | .lparen => n + 1
  | .rparen => n - 1
  | _ => n

/-- How many parentheses are open behind tokens.  One that closes is ignored where none is open. -/
def bracketDepth (ts : List Token) : Nat := ts.foldl openBehind 0

/-- At no place among the tokens are more than `n` parentheses open. -/
def Shallow (n : Nat) (ts : List Token) : Prop := ∀ p, p <+: ts → bracketDepth p ≤ n

instance (n : Nat) (ts : List Token) : Decidable (Shallow n ts) :=
  decidable_of_iff (∀ p ∈ ts.inits, bracketDepth p ≤ n) (by simp [Shallow])

theorem openBehind_lparen {t : Token} (ht : t.kind = .lparen) (n : Nat) :
    openBehind n t = n + 1 := by
  rw [openBehind, ht]

theorem openBehind_rparen {t : Token} (ht : t.kind = .rparen) (n : Nat) :
    openBehind n t = n - 1 := by
  rw [openBehind, ht]

theorem le_openBehind {t : Token} (ht : t.kind ≠ .rparen) (n : Nat) : n ≤ openBehind n t := by
  unfold openBehind
  split
  · exact Nat.le_succ n
  · next h => exact absurd h ht
  · exact Nat.le_refl n

/-! ### Places where no parenthesis is skipped -/

variable {field : String} {limit : Nat} {limit? : Option Nat} {F : Call → Reading (Option Expr)}
  {call : Call} {r : Reading (Option Expr)}

/-- Where a limit makes no difference, neither do larger ones or none. -/
theorem Cursor.skip_eq {c : Cursor} (hlimit : ∀ m ∈ limit?, limit ≤ m)
    (h : c.skipParens limit = c) : c.skip limit? = c := by
  cases limit? with
  | none => rfl
  | some m =>
    have hm : limit ≤ m := hlimit m rfl
    by_cases hd : m ≤ c.depth
    · rw [skipParens, if_pos (Nat.le_trans hm hd)] at h
      exact (if_pos hd).trans h
    · exact if_neg hd

/-- A reading that keeps to places where the limit makes no difference is the same with a larger
limit or with none. -/
theorem Reads.eq_of_room {top : Nat} {P : Cursor → Prop} (h : Reads ⟨field, limit⟩ call r)
    (hF : Follows field limit? F) (hlimit : ∀ m ∈ limit?, limit ≤ m) (hP : Kept limit top P)
    (hroom : ∀ c, P c → c.skipParens limit = c) : call.Inside top → P call.start → F call = r :=
  h.eq_of_follows hF hP fun c hc => (c.skip_eq hlimit (hroom c hc)).trans (hroom c hc).symm

/-! ### Reading without a limit -/

/-- The limit is too large to be met among the tokens that are left. -/
def Cursor.Fits (limit : Nat) (c : Cursor) : Prop := c.depth + c.rest.length ≤ limit

namespace Cursor.Fits

variable {t : Token} {ts : List Token} {c d : Cursor} {depth : Nat}

theorem tail (h : Cursor.Fits limit ⟨t :: ts, depth⟩) : Cursor.Fits limit ⟨ts, depth⟩ :=
  Nat.le_trans (Nat.le_succ _) h

theorem enter (h : Cursor.Fits limit ⟨t :: ts, depth⟩) : Cursor.Fits limit ⟨ts, depth + 1⟩ :=
  Nat.le_trans (Nat.le_of_eq (Nat.succ_add depth ts.length)) h

theorem le (h : c.Fits limit) (hrest : d.rest <:+ c.rest) (hdepth : d.depth ≤ c.depth) :
    d.Fits limit :=
  Nat.le_trans (Nat.add_le_add hdepth hrest.length_le) h

theorem kept (top : Nat) : Kept limit top (Cursor.Fits limit) where
  enter h _ _ := h.enter
  pass h _ := h.tail
  leave {c} h := h.le c.rest_leave_suffix (Nat.sub_le _ _)

theorem skipParens_eq (h : c.Fits limit) : c.skipParens limit = c := by
  obtain ⟨rest, depth⟩ := c
  refine skipParens_of_room ?_
  rintro t ts rfl -
  exact Nat.lt_of_lt_of_le (Nat.lt_add_of_pos_right (Nat.succ_pos _)) h

theorem next (field : String) (call : Call) (h : call.start.Fits limit) :
    (call.reading ⟨field, limit⟩).next.Fits limit :=
  (reads_reading ⟨field, limit⟩ call).kept (kept call.start.depth) (.inr rfl) h

end Cursor.Fits

/-- What a call reads without a limit: what it reads with one that is too large to be met. -/
def Call.unlimited (field : String) (call : Call) : Reading (Option Expr) :=
  call.reading ⟨field, call.start.depth + call.start.rest.length⟩

theorem reading_of_fits (h : call.start.Fits limit) :
    call.reading ⟨field, limit⟩ = call.unlimited field :=
  (reads_reading _ call).eq_of_room (follows_reading ⟨field, limit⟩) (by rintro _ ⟨⟩; exact h)
    (Cursor.Fits.kept call.start.depth) (fun _ => Cursor.Fits.skipParens_eq) (.inr rfl)
    (Nat.le_refl _)

/-- One step without a limit, where that of the calls that it makes is too large to be met. -/
theorem Call.body_of_fits
    (hF : ∀ sub : Call, sub.start.Fits limit → F sub = sub.reading ⟨field, limit⟩)
    (hc : call.start.Fits limit) : call.body field none F = call.reading ⟨field, limit⟩ := by
  rw [follows_reading ⟨field, limit⟩ call]
  match call with
  | .item c =>
    have hskip : c.skipParens limit = c := hc.skipParens_eq
    obtain ⟨_ | ⟨t, ts⟩, depth⟩ := c
    · simp only [body, Cursor.skip, hskip]
    · simp only [body, Cursor.skip, hskip, hF (.search true none ⟨ts, depth + 1⟩) hc.enter]
  | .value c =>
    simp only [body, hF (.item c) hc]
    split
    · next e _ => exact hF (.moreItems e [] _) (Cursor.Fits.next field (.item c) hc)
    · rfl
  | .moreItems first others ⟨[], depth⟩ => rfl
  | .moreItems first others ⟨t :: ts, depth⟩ =>
    simp only [body, hF (.item ⟨ts, depth⟩) hc.tail]
    split
    · split
      · next e _ =>
        exact hF (.moreItems first (e :: others) _) (Cursor.Fits.next field (.item _) hc.tail)
      · rfl
      · rfl
    · rfl
  | .condition c =>
    simp only [body, hF (.value c) hc]
    split
    · rfl
    · split
      · next e _ => exact hF (.moreValues e _) (Cursor.Fits.next field (.value c) hc)
      · rfl
  | .moreValues left ⟨[], depth⟩ => rfl
  | .moreValues left ⟨t :: ts, depth⟩ =>
    simp only [body, hF (.value ⟨ts, depth⟩) hc.tail]
    split
    · next op _ =>
      split
      · next e _ => exact hF (.moreValues _ _) (Cursor.Fits.next field (.value _) hc.tail)
      · rfl
      · rfl
    · rfl
  | .search _ left ⟨[], depth⟩ => rfl
  | .search nested left ⟨t :: ts, depth⟩ =>
    simp only [body, hF (.condition ⟨ts, depth⟩) hc.tail, hF (.condition ⟨t :: ts, depth⟩) hc,
      hF (.search nested left ⟨ts, depth⟩) hc.tail]
    split
    · next op _ =>
      split
      · rfl
      · split
        · next e _ => exact hF (.search nested _ _) (Cursor.Fits.next field (.condition _) hc.tail)
        · rfl
    · split
      · rfl
      · split
        · split
          · next e _ => exact hF (.search nested e _) (Cursor.Fits.next field (.condition _) hc)
          · rfl
        · rfl

/-- The limit may be taken out of the steps. -/
theorem follows_unlimited (field : String) : Follows field none (Call.unlimited field) := by
  intro call
  have hfits : call.start.Fits (call.start.depth + call.start.rest.length) := Nat.le_refl _
  exact (Call.body_of_fits (fun sub hsub => (reading_of_fits hsub).symm) hfits).symm

/-- Nothing else follows the steps without a limit. -/
theorem Follows.eq_unlimited (hF : Follows field none F) : F = Call.unlimited field := by
  funext call
  exact (reads_reading _ call).eq_of_room hF (by simp) (Cursor.Fits.kept call.start.depth)
    (fun _ => Cursor.Fits.skipParens_eq) (.inr rfl) (Nat.le_refl _)

/-! ### Where the limit is not met -/

/-- No more groups are open around a place than parentheses behind some tokens, and with those ahead
the parentheses stay within the limit. -/
def Cursor.Sheltered (limit : Nat) (c : Cursor) : Prop :=
  ∃ n, c.depth ≤ n ∧ ∀ p, p <+: c.rest → p.foldl openBehind n ≤ limit

namespace Cursor.Sheltered

variable {t : Token} {ts : List Token} {c : Cursor} {depth depth' : Nat}

/-- A place behind a token, if it counts no more than the tokens do. -/
theorem behind (h : Cursor.Sheltered limit ⟨t :: ts, depth⟩)
    (hdepth : ∀ n, depth ≤ n → depth' ≤ openBehind n t) : Cursor.Sheltered limit ⟨ts, depth'⟩ := by
  obtain ⟨n, hn, hlimit⟩ := h
  refine ⟨openBehind n t, hdepth n hn, fun p hp => ?_⟩
  exact hlimit (t :: p) (List.cons_prefix_cons.mpr ⟨rfl, hp⟩)

theorem lt (h : Cursor.Sheltered limit ⟨t :: ts, depth⟩) (ht : t.kind = .lparen) :
    depth < limit := by
  obtain ⟨n, hn, hlimit⟩ := h
  have hone : openBehind n t ≤ limit := hlimit [t] (List.prefix_append [t] ts)
  rw [openBehind_lparen ht] at hone
  exact Nat.lt_of_le_of_lt hn hone

theorem leave (h : c.Sheltered limit) : c.leave.Sheltered limit := by
  obtain ⟨rest, depth⟩ := c
  have stay : Cursor.Sheltered limit ⟨rest, depth - 1⟩ := by
    obtain ⟨n, hn, hlimit⟩ := h
    exact ⟨n, Nat.le_trans (Nat.sub_le depth 1) hn, hlimit⟩
  cases rest with
  | nil => exact stay
  | cons t ts =>
    by_cases ht : t.kind = .rparen
    · have passed : Cursor.Sheltered limit ⟨ts, depth - 1⟩ :=
        h.behind fun n hn => openBehind_rparen ht n ▸ Nat.sub_le_sub_right hn 1
      simpa [Cursor.leave, ht] using passed
    · simpa [Cursor.leave, ht] using stay

/-- **Reading counts no more parentheses than there are.** -/
theorem kept : Kept limit 0 (Cursor.Sheltered limit) where
  enter h ht _ := h.behind fun n hn => openBehind_lparen ht n ▸ Nat.succ_le_succ hn
  pass {t ts depth} h hclose := by
    by_cases ht : t.kind = .rparen
    · exact h.behind fun n _ => hclose ht ▸ Nat.zero_le _
    · exact h.behind fun n hn => Nat.le_trans hn (le_openBehind ht n)
  leave := leave

theorem skipParens_eq (h : c.Sheltered limit) : c.skipParens limit = c := by
  obtain ⟨rest, depth⟩ := c
  refine skipParens_of_room ?_
  rintro t ts rfl ht
  exact h.lt ht

end Cursor.Sheltered

/-- **A search whose parentheses nest within the limit is read as if there were no limit.**  Any
larger limit reads it the same, and so does whatever follows the steps of the parser without the
check. -/
theorem parse_shallow (o : Options) {ts : List Token} (h : Shallow o.nestingLimit ts) :
    (∀ m, o.nestingLimit ≤ m → parse { o with nestingLimit := m } ts = parse o ts) ∧
      ∀ F, Follows o.fallbackField none F → parseBy o.fallbackField F ts = parse o ts := by
  have start : Cursor.Sheltered o.nestingLimit ⟨ts, 0⟩ := ⟨0, Nat.le_refl 0, h⟩
  have same {limit? : Option Nat} {F : Call → Reading (Option Expr)}
      (hF : Follows o.fallbackField limit? F) (hlimit : ∀ m ∈ limit?, o.nestingLimit ≤ m) :
      parseBy o.fallbackField F ts = parse o ts := by
    have hread : F (.search false none ⟨ts, 0⟩) = Call.reading o (.search false none ⟨ts, 0⟩) :=
      (reads_reading o _).eq_of_room hF hlimit Cursor.Sheltered.kept
        (fun _ => Cursor.Sheltered.skipParens_eq) (.inr rfl) start
    rw [parse_eq_parseBy, parseBy, hread, parseBy]
  constructor
  · intro m hm
    exact same (follows_reading { o with nestingLimit := m }) (by rintro _ ⟨⟩; exact hm)
  · intro F hF
    exact same hF (by simp)

/-- The tokens of `) a ( & ( b ) ) ) | ( ( c`, with parentheses that have no match and others in
places where no group can begin. -/
def unmatchedParens : List Token :=
  [⟨.rparen, ")"⟩, ⟨.word, "a"⟩, ⟨.lparen, "("⟩, ⟨.and, "&"⟩, ⟨.lparen, "("⟩, ⟨.word, "b"⟩,
    ⟨.rparen, ")"⟩, ⟨.rparen, ")"⟩, ⟨.rparen, ")"⟩, ⟨.or, "|"⟩, ⟨.lparen, "("⟩, ⟨.lparen, "("⟩,
    ⟨.word, "c"⟩]

/-- Two parentheses are open at most, so room for two groups is enough. -/
theorem parse_shallow_unmatchedParens :
    Shallow 2 unmatchedParens ∧
      parse ⟨"title", 128⟩ unmatchedParens = parse ⟨"title", 2⟩ unmatchedParens ∧
      parseBy "title" (Call.unlimited "title") unmatchedParens =
        parse ⟨"title", 2⟩ unmatchedParens := by
  have h : Shallow 2 unmatchedParens := by decide
  obtain ⟨larger, without⟩ := parse_shallow ⟨"title", 2⟩ h
  exact ⟨h, larger 128 (by decide), without _ (follows_unlimited "title")⟩

end SearchFilter.Search
