import SearchFilter.Proofs.Stray

/-!
# Runs of opening parentheses

A run of more opening parentheses than groups may be open reads like any other run of that kind,
wherever it stands in the search (`parse_openings_congr`).

At the beginning of an item such a run opens a group for each parenthesis as long as there is room,
and the others are skipped; what is read, and where reading stops, does not depend on how many are
left to skip.  With something on the left of it, the run is passed over.  So two runs are
interchangeable at every place (`Interchangeable`), and of two lists that differ in them
(`Exchanged`) every rule of reading reads the same and leaves lists that differ in nothing else
(`Reads.exchanged`).
-/

namespace SearchFilter.Search

variable {o : Options} {x y ts us : List Token} {t : Token}

/-- A parenthesis is no leaf. -/
theorem lastLeaf?_lparen (ht : t.kind = .lparen) (ts : List Token) :
    lastLeaf? (t :: ts) = none := by
  cases ts with
  | nil => simp [lastLeaf?, ht, Token.Kind.isLeaf]
  | cons u ts => rfl

/-! ### Lists that differ in one part -/

/-- Tokens that are interchangeable where they begin what is left. -/
structure Interchangeable (o : Options) (x y : List Token) : Prop where
  left : ∃ t ts, x = t :: ts ∧ t.kind = .lparen
  right : ∃ t ts, y = t :: ts ∧ t.kind = .lparen
  dropWhile : x.dropWhile (·.kind = .lparen) = y.dropWhile (·.kind = .lparen)
  item (depth : Nat) : (item o ⟨x, depth⟩).1 = (item o ⟨y, depth⟩).1
  search (nested : Bool) (l : Expr) (depth : Nat) :
    (search o nested (some l) ⟨x, depth⟩).1 = (search o nested (some l) ⟨y, depth⟩).1

/-- Lists that are the same up to one place, where the first may go on with `x` and the other with
`y`. -/
inductive Exchanged (x y : List Token) : List Token → List Token → Prop where
  | nil : Exchanged x y [] []
  | part : Exchanged x y x y
  | cons (t : Token) {ts us : List Token} (h : Exchanged x y ts us) :
      Exchanged x y (t :: ts) (t :: us)

namespace Exchanged

theorem refl (ts : List Token) : Exchanged x y ts ts := by
  induction ts with
  | nil => exact .nil
  | cons t ts ih => exact .cons t ih

theorem append (ts : List Token) : Exchanged x y (ts ++ x) (ts ++ y) := by
  induction ts with
  | nil => exact .part
  | cons t ts ih => exact .cons t ih

/-- The first tokens are the same, or the lists begin with the parts that differ. -/
theorem cases_cons (h : Exchanged x y (t :: ts) us) :
    (∃ us', us = t :: us' ∧ Exchanged x y ts us') ∨ x = t :: ts ∧ us = y := by
  generalize hts : t :: ts = ts' at h
  cases h with
  | nil => cases hts
  | part => exact .inr ⟨rfl, rfl⟩
  | cons u h =>
    cases hts
    exact .inl ⟨_, rfl, h⟩

/-- A token that opens no group stands in both lists. -/
theorem of_ne_lparen (hxy : Interchangeable o x y) (h : Exchanged x y (t :: ts) us)
    (ht : t.kind ≠ .lparen) : ∃ us', us = t :: us' ∧ Exchanged x y ts us' := by
  rcases h.cases_cons with h | ⟨hx, -⟩
  · exact h
  · obtain ⟨p, ps, hp, hparen⟩ := hxy.left
    cases hx.symm.trans hp
    exact absurd hparen ht

/-- What holds of the kind of the first token holds in both lists. -/
theorem head (hxy : Interchangeable o x y) (h : Exchanged x y ts us) {P : Token.Kind → Prop}
    (hts : ∀ t ∈ ts.head?, P t.kind) : ∀ u ∈ us.head?, P u.kind := by
  cases h with
  | nil | cons t h => exact hts
  | part =>
    obtain ⟨p, ps, rfl, hp⟩ := hxy.left
    obtain ⟨q, qs, rfl, hq⟩ := hxy.right
    rintro u ⟨⟩
    rw [hq, ← hp]
    exact hts p rfl

/-- Where one list ends, the other does. -/
theorem eq_nil_iff (hxy : Interchangeable o x y) (h : Exchanged x y ts us) :
    us = [] ↔ ts = [] := by
  obtain ⟨p, ps, hx, -⟩ := hxy.left
  obtain ⟨q, qs, hy, -⟩ := hxy.right
  cases h with
  | nil => exact Iff.rfl
  | part => simp [hx, hy]
  | cons t h => simp

/-- Where an item begins in one list, one begins in the other. -/
theorem exists_atom (hxy : Interchangeable o x y) (h : Exchanged x y (t :: ts) us)
    (ht : t.kind.isAtom = true) : ∃ u us', us = u :: us' ∧ u.kind.isAtom = true := by
  have hne : us ≠ [] := mt (h.eq_nil_iff hxy).mp (List.cons_ne_nil t ts)
  obtain ⟨u, us', rfl⟩ := List.exists_cons_of_ne_nil hne
  refine ⟨u, us', rfl, h.head hxy (P := fun k => k.isAtom = true) ?_ u rfl⟩
  rintro t' ⟨⟩
  exact ht

/-- The same leaf is the last, or none. -/
theorem lastLeaf?_eq (hxy : Interchangeable o x y) (h : Exchanged x y ts us) :
    lastLeaf? us = lastLeaf? ts := by
  obtain ⟨p, ps, hx, hp⟩ := hxy.left
  obtain ⟨q, qs, hy, hq⟩ := hxy.right
  cases h with
  | nil => rfl
  | part => rw [hx, hy, lastLeaf?_lparen hp, lastLeaf?_lparen hq]
  | cons t h =>
    cases h with
    | nil | cons u h => rfl
    | part => rw [hx, hy]; rfl

theorem dropWhile (hxy : Interchangeable o x y) (h : Exchanged x y ts us) :
    Exchanged x y (ts.dropWhile (·.kind = .lparen)) (us.dropWhile (·.kind = .lparen)) := by
  induction h with
  | nil => exact .nil
  | part =>
    rw [hxy.dropWhile]
    exact refl _
  | @cons t ts us h ih =>
    by_cases ht : t.kind = .lparen
    · simpa [ht] using ih
    · simpa [ht] using h.cons t

theorem skipParens (hxy : Interchangeable o x y) {c : Cursor} (h : Exchanged x y c.rest us)
    (limit : Nat) :
    Exchanged x y (c.skipParens limit).rest (Cursor.skipParens limit ⟨us, c.depth⟩).rest := by
  unfold Cursor.skipParens
  by_cases hd : limit ≤ c.depth
  · simpa only [if_pos hd] using h.dropWhile hxy
  · simpa only [if_neg hd] using h

theorem leave (hxy : Interchangeable o x y) {c : Cursor} (h : Exchanged x y c.rest us) :
    Exchanged x y c.leave.rest (Cursor.leave ⟨us, c.depth⟩).rest := by
  obtain ⟨ts, depth⟩ := c
  cases h with
  | nil => exact .nil
  | part =>
    obtain ⟨p, ps, hx, hp⟩ := hxy.left
    obtain ⟨q, qs, hy, hq⟩ := hxy.right
    subst hx hy
    simpa [Cursor.leave, hp, hq] using Exchanged.part
  | cons t h =>
    by_cases ht : t.kind = .rparen
    · simpa [Cursor.leave, ht] using h
    · simpa [Cursor.leave, ht] using h.cons t

end Exchanged

/-! ### Readings of such lists -/

/-- The call with other tokens left. -/
def Call.withRest (ts : List Token) : Call → Call
  | .item c => .item ⟨ts, c.depth⟩
  | .value c => .value ⟨ts, c.depth⟩
  | .moreItems first others c => .moreItems first others ⟨ts, c.depth⟩
  | .condition c => .condition ⟨ts, c.depth⟩
  | .moreValues left c => .moreValues left ⟨ts, c.depth⟩
  | .search nested left c => .search nested left ⟨ts, c.depth⟩

/-- **Every rule reads the same from lists that differ in one part**, and leaves such lists. -/
theorem Reads.exchanged {call : Call} {r : Reading (Option Expr)} (h : Reads o call r)
    (hxy : Interchangeable o x y) : Exchanged x y call.start.rest us →
    ∃ us', Exchanged x y r.next.rest us' ∧
      Reads o (call.withRest us) ⟨r.value, ⟨us', r.next.depth⟩⟩ := by
  induction h generalizing us with
  | @noItem c h =>
    intro hs
    have hskip := hs.skipParens hxy o.nestingLimit
    refine ⟨_, hskip, ?_⟩
    rw [Cursor.depth_skipParens, ← Cursor.depth_skipParens o.nestingLimit ⟨us, c.depth⟩]
    exact .noItem (hskip.head hxy (P := fun k => k.isAtom = false) h)
  | @leaf c t ts e h ht =>
    intro hs
    have hskip := hs.skipParens hxy o.nestingLimit
    rw [Call.start, h] at hskip
    obtain ⟨us', hus, hs'⟩ := hskip.of_ne_lparen hxy
      (ne_paren_of_isLeaf (isLeaf_of_ofToken? ht)).1
    exact ⟨us', hs', .leaf (c := ⟨us, c.depth⟩) hus ht⟩
  | @group t ts depth v next ht hd inner ih =>
    intro hs
    rcases hs.cases_cons with ⟨us, rfl, htail⟩ | ⟨hx, rfl⟩
    · obtain ⟨us', hs', hinner⟩ := ih htail
      exact ⟨_, hs'.leave hxy, .group ht hd hinner⟩
    · have hitem : Reads o (.item ⟨x, depth⟩) ⟨v, next.leave⟩ := hx ▸ .group ht hd inner
      refine ⟨_, .refl _, reads_iff.mpr ?_⟩
      exact (hxy.item depth).symm.trans hitem.reading_eq
  | noValue _ h ih =>
    intro hs
    obtain ⟨us', hs', first⟩ := ih hs
    exact ⟨us', hs', .noValue first h⟩
  | value _ _ ih₁ ih₂ =>
    intro hs
    obtain ⟨us₁, hs₁, first⟩ := ih₁ hs
    obtain ⟨us₂, hs₂, more⟩ := ih₂ hs₁
    exact ⟨us₂, hs₂, .value first more⟩
  | lastItem h =>
    intro hs
    exact ⟨us, hs, .lastItem (hs.head hxy (P := (· ≠ .colon)) h)⟩
  | nextItem ht _ _ ih₁ ih₂ =>
    intro hs
    obtain ⟨us, rfl, htail⟩ := hs.of_ne_lparen hxy (by simp [ht])
    obtain ⟨us₁, hs₁, item⟩ := ih₁ htail
    obtain ⟨us₂, hs₂, more⟩ := ih₂ hs₁
    exact ⟨us₂, hs₂, .nextItem ht item more⟩
  | trailingColon ht _ ih =>
    intro hs
    obtain ⟨us, rfl, htail⟩ := hs.of_ne_lparen hxy (by simp [ht])
    obtain ⟨us', hs', item⟩ := ih htail
    exact ⟨us', hs', .trailingColon ht item⟩
  | badItem ht _ ih =>
    intro hs
    obtain ⟨us, rfl, htail⟩ := hs.of_ne_lparen hxy (by simp [ht])
    obtain ⟨us', hs', item⟩ := ih htail
    exact ⟨us', hs', .badItem ht item⟩
  | fallback h =>
    intro hs
    exact ⟨[], .nil, .fallback (c := ⟨us, _⟩) ((hs.lastLeaf?_eq hxy).trans h)⟩
  | noCondition hc _ h ih =>
    intro hs
    obtain ⟨us', hs', first⟩ := ih hs
    exact ⟨us', hs', .noCondition ((hs.lastLeaf?_eq hxy).trans hc) first h⟩
  | condition hc _ _ ih₁ ih₂ =>
    intro hs
    obtain ⟨us₁, hs₁, first⟩ := ih₁ hs
    obtain ⟨us₂, hs₂, more⟩ := ih₂ hs₁
    exact ⟨us₂, hs₂, .condition ((hs.lastLeaf?_eq hxy).trans hc) first more⟩
  | lastValue h =>
    intro hs
    exact ⟨us, hs, .lastValue (hs.head hxy (P := (·.comparison? = none)) h)⟩
  | nextValue ht _ _ ih₁ ih₂ =>
    intro hs
    obtain ⟨us, rfl, htail⟩ := hs.of_ne_lparen hxy (ne_paren_of_comparison? ht).1
    obtain ⟨us₁, hs₁, right⟩ := ih₁ htail
    obtain ⟨us₂, hs₂, more⟩ := ih₂ hs₁
    exact ⟨us₂, hs₂, .nextValue ht right more⟩
  | droppedComparison ht _ ih =>
    intro hs
    obtain ⟨us, rfl, htail⟩ := hs.of_ne_lparen hxy (ne_paren_of_comparison? ht).1
    obtain ⟨us', hs', right⟩ := ih htail
    exact ⟨us', hs', .droppedComparison ht right⟩
  | badValue ht _ ih =>
    intro hs
    obtain ⟨us, rfl, htail⟩ := hs.of_ne_lparen hxy (ne_paren_of_comparison? ht).1
    obtain ⟨us', hs', right⟩ := ih htail
    exact ⟨us', hs', .badValue ht right⟩
  | searchEnd =>
    intro hs
    obtain rfl := (hs.eq_nil_iff hxy).mpr rfl
    exact ⟨[], .nil, .searchEnd⟩
  | lastOperator ht =>
    intro hs
    obtain ⟨us, rfl, htail⟩ := hs.of_ne_lparen hxy (ne_paren_of_logic? ht).1
    obtain rfl := (htail.eq_nil_iff hxy).mpr rfl
    exact ⟨[], .nil, .lastOperator ht⟩
  | joined ht hts _ _ ih₁ ih₂ =>
    intro hs
    obtain ⟨us, rfl, htail⟩ := hs.of_ne_lparen hxy (ne_paren_of_logic? ht).1
    obtain ⟨us₁, hs₁, operand⟩ := ih₁ htail
    obtain ⟨us₂, hs₂, more⟩ := ih₂ hs₁
    exact ⟨us₂, hs₂, .joined ht (mt (htail.eq_nil_iff hxy).mp hts) operand more⟩
  | badOperand ht hts _ ih =>
    intro hs
    obtain ⟨us, rfl, htail⟩ := hs.of_ne_lparen hxy (ne_paren_of_logic? ht).1
    obtain ⟨us', hs', operand⟩ := ih htail
    exact ⟨us', hs', .badOperand ht (mt (htail.eq_nil_iff hxy).mp hts) operand⟩
  | closed ht =>
    intro hs
    obtain ⟨us, rfl, htail⟩ := hs.of_ne_lparen hxy (by simp [ht])
    exact ⟨_, htail.cons _, .closed ht⟩
  | first ht _ _ ih₁ ih₂ =>
    intro hs
    obtain ⟨u, us, rfl, hu⟩ := hs.exists_atom hxy ht
    obtain ⟨us₁, hs₁, operand⟩ := ih₁ hs
    obtain ⟨us₂, hs₂, more⟩ := ih₂ hs₁
    exact ⟨us₂, hs₂, .first hu operand more⟩
  | badFirst ht _ ih =>
    intro hs
    obtain ⟨u, us, rfl, hu⟩ := hs.exists_atom hxy ht
    obtain ⟨us', hs', operand⟩ := ih hs
    exact ⟨us', hs', .badFirst hu operand⟩
  | @passed nested left t ts depth r hlogic hclose hatom more ih =>
    intro hs
    rcases hs.cases_cons with ⟨us, rfl, htail⟩ | ⟨hx, rfl⟩
    · obtain ⟨us', hs', hmore⟩ := ih htail
      exact ⟨us', hs', .passed hlogic hclose hatom hmore⟩
    · cases left with
      | none =>
        -- A parenthesis begins an item, and is not passed with nothing on the left.
        obtain ⟨p, ps, hp, hparen⟩ := hxy.left
        cases hx.symm.trans hp
        simp [Token.Kind.isAtom, hparen] at hatom
      | some l =>
        have hsearch : Reads o (.search nested (some l) ⟨x, depth⟩) r :=
          hx ▸ .passed hlogic hclose hatom more
        refine ⟨_, .refl _, reads_iff.mpr ?_⟩
        exact (hxy.search nested l depth).symm.trans hsearch.reading_eq

/-! ### Runs of opening parentheses -/

section

variable {c c' : Cursor} {u : Token} {opens opens' rest : List Token} {depth : Nat}

/-- What an item reads depends on what is behind the skipped parentheses. -/
theorem item_congr (h : c.skipParens o.nestingLimit = c'.skipParens o.nestingLimit) :
    (item o c).1 = (item o c').1 := by
  have hdepth : c.depth = c'.depth := by
    rw [← Cursor.depth_skipParens o.nestingLimit c, h, Cursor.depth_skipParens]
  rw [item_eq, item_eq, h, hdepth]

/-- With room for it, a parenthesis opens a group. -/
theorem item_lparen (ht : t.kind = .lparen) (hd : depth < o.nestingLimit) :
    (item o ⟨t :: ts, depth⟩).1 =
      ⟨(search o true none ⟨ts, depth + 1⟩).1.value,
        (search o true none ⟨ts, depth + 1⟩).1.next.leave⟩ := by
  have hskip : Cursor.skipParens o.nestingLimit ⟨t :: ts, depth⟩ = ⟨t :: ts, depth⟩ :=
    if_neg (Nat.not_le_of_lt hd)
  have hleaf : Expr.ofToken? t = none := by simp [Expr.ofToken?, ht]
  simp only [item_eq, hskip, hleaf, ht, if_true]

/-- Searches that begin with parentheses read the same where their first items do. -/
theorem search_congr (nested : Bool) (ht : t.kind = .lparen) (hu : u.kind = .lparen)
    (h : (item o ⟨t :: ts, depth⟩).1 = (item o ⟨u :: us, depth⟩).1) :
    (search o nested none ⟨t :: ts, depth⟩).1 = (search o nested none ⟨u :: us, depth⟩).1 := by
  have hvalue : (value o ⟨t :: ts, depth⟩).1 = (value o ⟨u :: us, depth⟩).1 := by
    rw [value_eq, value_eq, h]
  have hcondition : (condition o ⟨t :: ts, depth⟩).1 = (condition o ⟨u :: us, depth⟩).1 := by
    rw [condition_eq, condition_eq, lastLeaf?_lparen ht, lastLeaf?_lparen hu, hvalue]
  rw [search_other o nested none (by rw [ht]; rfl), search_other o nested none (by rw [hu]; rfl),
    hcondition]
  simp [ht, hu, Token.Kind.isAtom]

/-- Where there is no room, a run is skipped. -/
theorem skipParens_openings (hopens : ∀ t ∈ opens, t.kind = .lparen)
    (hd : o.nestingLimit ≤ depth) :
    Cursor.skipParens o.nestingLimit ⟨opens ++ rest, depth⟩ =
      Cursor.skipParens o.nestingLimit ⟨rest, depth⟩ := by
  have hdrop : ∀ t ∈ opens, decide (t.kind = .lparen) = true := by simpa using hopens
  simp only [Cursor.skipParens, if_pos hd, List.dropWhile_append_of_pos hdrop]

/-- **An item reads the same from runs that are too long.**  A group is opened for each parenthesis
as long as there is room, and from there on all are skipped. -/
theorem item_openings (hopens : ∀ t ∈ opens, t.kind = .lparen)
    (hopens' : ∀ t ∈ opens', t.kind = .lparen) (hlen : o.nestingLimit < depth + opens.length)
    (hlen' : o.nestingLimit < depth + opens'.length) :
    (item o ⟨opens ++ rest, depth⟩).1 = (item o ⟨opens' ++ rest, depth⟩).1 := by
  induction opens generalizing opens' depth with
  | nil =>
    have hd : o.nestingLimit ≤ depth := Nat.le_of_lt hlen
    refine item_congr ?_
    rw [skipParens_openings hopens hd, skipParens_openings hopens' hd]
  | cons t opens ih =>
    by_cases hd : o.nestingLimit ≤ depth
    · refine item_congr ?_
      rw [skipParens_openings hopens hd, skipParens_openings hopens' hd]
    · obtain ⟨u, opens', rfl⟩ := List.exists_cons_of_length_pos (l := opens') (by omega)
      obtain ⟨ht, hopens⟩ := List.forall_mem_cons.mp hopens
      obtain ⟨hu, hopens'⟩ := List.forall_mem_cons.mp hopens'
      rw [List.length_cons] at hlen hlen'
      have hitem : (item o ⟨opens ++ rest, depth + 1⟩).1 =
          (item o ⟨opens' ++ rest, depth + 1⟩).1 := ih hopens hopens' (by omega) (by omega)
      obtain ⟨t', opens, rfl⟩ := List.exists_cons_of_length_pos (l := opens) (by omega)
      obtain ⟨u', opens', rfl⟩ := List.exists_cons_of_length_pos (l := opens') (by omega)
      have hsearch : (search o true none ⟨t' :: opens ++ rest, depth + 1⟩).1 =
          (search o true none ⟨u' :: opens' ++ rest, depth + 1⟩).1 :=
        search_congr true (hopens t' List.mem_cons_self) (hopens' u' List.mem_cons_self) hitem
      have hroom : depth < o.nestingLimit := Nat.lt_of_not_le hd
      simp only [List.cons_append] at hsearch ⊢
      rw [item_lparen ht hroom, item_lparen hu hroom, hsearch]

/-- With something on the left a run is passed over. -/
theorem search_openings (hopens : ∀ t ∈ opens, t.kind = .lparen) (nested : Bool) (l : Expr) :
    (search o nested (some l) ⟨opens ++ rest, depth⟩).1 =
      (search o nested (some l) ⟨rest, depth⟩).1 := by
  have hreads := reads_reading o (.search nested (some l) ⟨rest, depth⟩)
  have hpassed := Grammar.reads_passed (fun t ht => by rw [hopens t ht]; rfl) hreads
    fun _ t ht => by simp [hopens t ht]
  exact hpassed.reading_eq

/-- A run begins with a parenthesis. -/
theorem exists_opening (hopens : ∀ t ∈ opens, t.kind = .lparen) (hlen : 0 < opens.length)
    (rest : List Token) : ∃ t ts, opens ++ rest = t :: ts ∧ t.kind = .lparen := by
  obtain ⟨t, opens, rfl⟩ := List.exists_cons_of_length_pos hlen
  exact ⟨t, opens ++ rest, rfl, hopens t List.mem_cons_self⟩

/-- Runs that are too long are interchangeable. -/
theorem interchangeable_openings (hopens : ∀ t ∈ opens, t.kind = .lparen)
    (hopens' : ∀ t ∈ opens', t.kind = .lparen) (hlen : o.nestingLimit < opens.length)
    (hlen' : o.nestingLimit < opens'.length) (rest : List Token) :
    Interchangeable o (opens ++ rest) (opens' ++ rest) where
  left := exists_opening hopens (Nat.zero_lt_of_lt hlen) rest
  right := exists_opening hopens' (Nat.zero_lt_of_lt hlen') rest
  dropWhile := by
    rw [List.dropWhile_append_of_pos (by simpa using hopens),
      List.dropWhile_append_of_pos (by simpa using hopens')]
  item depth := item_openings hopens hopens' (Nat.lt_add_left depth hlen)
    (Nat.lt_add_left depth hlen')
  search nested l depth := by rw [search_openings hopens, search_openings hopens']

end

/-- **Opening parentheses beyond the nesting limit make no difference**, wherever they stand: with
any tokens in front of them and behind them, any run of more parentheses than the limit gives the
same expression or the same error. -/
theorem parse_openings_congr (o : Options) (front rest : List Token) {opens opens' : List Token}
    (hopens : ∀ t ∈ opens, t.kind = .lparen) (hopens' : ∀ t ∈ opens', t.kind = .lparen)
    (hlen : o.nestingLimit + 1 ≤ opens.length) (hlen' : o.nestingLimit + 1 ≤ opens'.length) :
    parse o (front ++ opens ++ rest) = parse o (front ++ opens' ++ rest) := by
  have hxy := interchangeable_openings hopens hopens' hlen hlen' rest
  have hreads := reads_reading o (.search false none ⟨front ++ (opens ++ rest), 0⟩)
  obtain ⟨us, -, hreads'⟩ := hreads.exchanged hxy (.append front)
  rw [List.append_assoc, List.append_assoc, hreads.parse_eq_map, hreads'.parse_eq_map]

/-- In a group, and where an item of a list is read, a thousand parentheses are as good as 129. -/
theorem parse_openings_congr_thousand :
    let front : List Token :=
      [⟨.lparen, "("⟩, ⟨.word, "a"⟩, ⟨.eq, "="⟩, ⟨.word, "b"⟩, ⟨.colon, ":"⟩]
    let rest : List Token := [⟨.word, "c"⟩, ⟨.and, "&"⟩, ⟨.word, "d"⟩]
    (∀ t ∈ List.replicate 1000 (⟨.lparen, "("⟩ : Token), t.kind = .lparen) ∧ 129 ≤ 1000 ∧
      parse {} (front ++ List.replicate 1000 ⟨.lparen, "("⟩ ++ rest) =
        parse {} (front ++ List.replicate 129 ⟨.lparen, "("⟩ ++ rest) := by
  intro front rest
  have hopens (n : Nat) : ∀ t ∈ List.replicate n (⟨.lparen, "("⟩ : Token), t.kind = .lparen := by
    intro t ht
    rw [List.eq_of_mem_replicate ht]
  have hlen (n : Nat) (h : 129 ≤ n) :
      129 ≤ (List.replicate n (⟨.lparen, "("⟩ : Token)).length := by
    rwa [List.length_replicate]
  exact ⟨hopens 1000, by decide, parse_openings_congr {} front rest (hopens 1000) (hopens 129)
    (hlen 1000 (by decide)) (hlen 129 (by decide))⟩

end SearchFilter.Search
