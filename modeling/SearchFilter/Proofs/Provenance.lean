import SearchFilter.Proofs.Context
import SearchFilter.Proofs.Rules

/-!
# Where an expression comes from

A search invents nothing, says nothing twice and keeps the order (`entries_of_parse`): what its
expression says from left to right is part of what its tokens say, in the same order.  Two
expressions are exceptions.  A search of which nothing is left looks for the empty term, and a last
leaf with no operator is looked for in the fallback field; put back as a plain leaf, it is the last
thing that is said.

`Written field e read rest` is the invariant: `e` is written by the tokens `read`, in front of the
tokens `rest`.  It has two cases, and in the second, where the fallback stands for a leaf, nothing
is left to read; so whoever goes on reading may take the first.  Each rule of reading keeps it, for
what the call has put together before and for what it reads (`Reads.accounts`).
-/

namespace SearchFilter.Search

/-! ### Written expressions -/

/-- The last token is a leaf and stands in `e` as the fallback search for its text.  As a plain
leaf it would be the last entry, and the entries before it come from the tokens before it. -/
def Marked (field : String) (e : Expr) (ts : List Token) : Prop :=
  ∃ (init : List Token) (t : Token) (leaf : Expr) (C : Expr.Context) (said : List Entry),
    ts = init ++ [t] ∧ Expr.ofToken? t = some leaf ∧ e = C.fill (.fallback field t.text) ∧
      (C.fill leaf).entries = said ++ Entry.ofTokens [t] ∧ said.Sublist (Entry.ofTokens init)

/-- `e` is written by the tokens `read` in front of the tokens `rest`. -/
def Written (field : String) (e : Expr) (read rest : List Token) : Prop :=
  e.entries.Sublist (Entry.ofTokens read) ∨ rest = [] ∧ Marked field e read

variable {field : String} {e l r first : Expr} {others : List Expr} {op : Operator.Kind}
  {t : Token} {ts read before rest : List Token}

theorem Written.plain (h : Written field e read (t :: ts)) :
    e.entries.Sublist (Entry.ofTokens read) :=
  h.resolve_right fun h => nomatch h.1

/-- Tokens may be passed over. -/
theorem Written.passing (h : Written field e before (read ++ rest)) :
    Written field e (before ++ read) rest := by
  rcases h with h | ⟨hrest, h⟩
  · refine .inl (h.trans ?_)
    rw [Entry.ofTokens_append]
    exact List.sublist_append_left _ _
  · obtain ⟨rfl, rfl⟩ := List.append_eq_nil_iff.mp hrest
    exact .inr ⟨rfl, by rwa [List.append_nil]⟩

/-- Tokens may stand in front. -/
theorem Marked.after (before : List Token) (h : Marked field e read) :
    Marked field e (before ++ read) := by
  obtain ⟨init, t, leaf, C, said, rfl, hleaf, he, hsaid, hsub⟩ := h
  refine ⟨before ++ init, t, leaf, C, said, (List.append_assoc ..).symm, hleaf, he, hsaid, ?_⟩
  rw [Entry.ofTokens_append]
  exact hsub.trans (List.sublist_append_right _ _)

theorem Written.after (before : List Token) (h : Written field e read rest) :
    Written field e (before ++ read) rest := by
  refine h.imp (fun h => h.trans ?_) (fun h => ⟨h.1, h.2.after before⟩)
  rw [Entry.ofTokens_append]
  exact List.sublist_append_right _ _

/-- A leaf is written by its token. -/
theorem written_leaf {leaf : Expr} (h : Expr.ofToken? t = some leaf) :
    Written field leaf [t] rest :=
  .inl ((Expr.entries_of_ofToken? h).symm ▸ List.Sublist.refl (Entry.ofTokens [t]))

/-- The last leaf may stand for its fallback search. -/
theorem marked_fallback {leaf : Expr} (h : Expr.ofToken? t = some leaf) :
    Marked field (.fallback field t.text) [t] :=
  ⟨[], t, leaf, .hole, [], rfl, h, rfl, Expr.entries_of_ofToken? h, List.Sublist.refl _⟩

/-- An operator with its two sides is written by the tokens of the left side, its own and those of
the right side. -/
theorem written_binary (hl : l.entries.Sublist (Entry.ofTokens before))
    (ht : t.kind.operator? = some op) (hr : Written field r read rest) :
    Written field (.binary l { kind := op } r) (before ++ t :: read) rest := by
  have htoken := Entry.ofToken?_of_operator? ht
  rcases hr with hr | ⟨hrest, init, u, leaf, C, said, rfl, hleaf, rfl, hsaid, hsub⟩
  · refine .inl ?_
    rw [Entry.ofTokens_append, Entry.ofTokens_cons htoken]
    exact hl.append (hr.cons_cons _)
  · refine .inr ⟨hrest, before ++ t :: init, u, leaf, .right l { kind := op } C,
      l.entries ++ .operator op :: said, by simp, hleaf, rfl, ?_, ?_⟩
    · simp [Expr.Context.fill, Expr.entries, hsaid]
    · rw [Entry.ofTokens_append, Entry.ofTokens_cons htoken]
      exact hl.append (hsub.cons_cons _)

/-- One more item behind a colon. -/
theorem written_item {items : List Expr}
    (hitems : (Expr.itemsEntries items).Sublist (Entry.ofTokens before))
    (he : Written field e read rest) :
    Written field (.list (items ++ [e])) (before ++ t :: read) rest := by
  have hpass :
      (Entry.ofTokens (before ++ read)).Sublist (Entry.ofTokens (before ++ t :: read)) := by
    rw [Entry.ofTokens_append, Entry.ofTokens_append]
    exact (List.Sublist.refl _).append (Entry.ofTokens_sublist_cons t read)
  rcases he with he | ⟨hrest, init, u, leaf, C, said, rfl, hleaf, rfl, hsaid, hsub⟩
  · refine .inl (List.Sublist.trans ?_ hpass)
    simp only [Expr.entries, Expr.itemsEntries_append, Expr.itemsEntries, List.append_nil,
      Entry.ofTokens_append]
    exact hitems.append he
  · refine .inr ⟨hrest, before ++ t :: init, u, leaf, .item items C [],
      Expr.itemsEntries items ++ said, by simp, hleaf, rfl, ?_, ?_⟩
    · simp [Expr.Context.fill, Expr.entries, Expr.itemsEntries, hsaid]
    · rw [Entry.ofTokens_append]
      exact hitems.append (hsub.trans (Entry.ofTokens_sublist_cons t init))

/-- Items gathered with one more behind them. -/
theorem written_nextItem
    (hitems : (Expr.ofItems first others.reverse).entries.Sublist (Entry.ofTokens before))
    (he : Written field e read rest) :
    Written field (.ofItems first (e :: others).reverse) (before ++ t :: read) rest := by
  rw [Expr.entries_ofItems] at hitems
  rw [Expr.ofItems_reverse_cons]
  exact written_item hitems he

/-- Two conditions joined, or the one of them that is there. -/
theorem written_join {left right : Option Expr}
    (hleft : ∀ l ∈ left, Written field l before (t :: ts)) (hts : ts = read ++ rest)
    (ht : t.kind.operator? = some op) (hright : ∀ r ∈ right, Written field r read rest) :
    ∀ e ∈ Expr.join op left right, Written field e (before ++ t :: read) rest := by
  intro e he
  match left, right with
  | some l, some r =>
    cases he
    exact written_binary (hleft l rfl).plain ht (hright r rfl)
  | some _, none =>
    cases he
    have hl : Written field e before (t :: read ++ rest) := by
      rw [List.cons_append, ← hts]
      exact hleft e rfl
    exact hl.passing
  | none, some _ =>
    cases he
    simpa using (hright e rfl).after (before ++ [t])

/-! ### Each rule keeps it -/

/-- What a call has put together before it reads on. -/
def Call.carried : Call → Option Expr
  | .item _ | .value _ | .condition _ => none
  | .moreItems first others _ => some (.ofItems first others.reverse)
  | .moreValues left _ => some left
  | .search _ left _ => left

/-- The tokens `read` that are passed on the way to `rest` write what is read, behind the tokens
that wrote what the call carried. -/
def Accounts (field : String) (call : Call) (r : Reading (Option Expr)) : Prop :=
  ∀ before, (∀ e ∈ call.carried, Written field e before call.start.rest) →
    ∀ e, r.value = .ok (some e) →
      ∃ read, call.start.rest = read ++ r.next.rest ∧
        Written field e (before ++ read) r.next.rest

variable {call more : Call} {reading : Reading (Option Expr)}

/-- A call that carries nothing is read by itself. -/
theorem Accounts.alone (h : Accounts field call reading) (hcall : call.carried = none)
    (he : reading.value = .ok (some e)) :
    ∃ read, call.start.rest = read ++ reading.next.rest ∧
      Written field e read reading.next.rest :=
  h [] (by rw [hcall]; nofun) e he

/-- A call that goes on, behind the tokens `read`, accounts for these and for its own. -/
theorem Accounts.behind (h : Accounts field more reading)
    (hread : call.start.rest = read ++ more.start.rest)
    (hcarried : ∀ e ∈ more.carried, Written field e (before ++ read) more.start.rest) :
    ∀ e, reading.value = .ok (some e) →
      ∃ read, call.start.rest = read ++ reading.next.rest ∧
        Written field e (before ++ read) reading.next.rest := by
  intro e he
  obtain ⟨read', hread', hwritten⟩ := h (before ++ read) hcarried e he
  refine ⟨read ++ read', by rw [hread, hread', List.append_assoc], ?_⟩
  rwa [← List.append_assoc]

/-- **Every rule of reading keeps the account.** -/
theorem Reads.accounts {o : Options} (h : Reads o call reading) :
    Accounts o.fallbackField call reading := by
  induction h with
  | noItem _ => intro before _ e he; cases he
  | @leaf c t ts e h ht =>
    intro before _ e' he
    cases he
    obtain ⟨parens, hparens⟩ := Cursor.rest_skipParens_suffix o.nestingLimit c
    refine ⟨parens ++ [t], ?_, ?_⟩
    · simpa [Call.start, h] using hparens.symm
    · rw [← List.append_assoc]
      exact (written_leaf ht).after _
  | @group t ts depth v next ht _ _ ih =>
    intro before _ e he
    -- Inside the group nothing is carried; outside, both parentheses are passed.
    obtain ⟨read, hread, hwritten⟩ := ih.alone rfl he
    obtain ⟨closing, hclosing⟩ := Cursor.rest_leave_suffix next
    replace hread : ts = read ++ next.rest := hread
    refine ⟨t :: (read ++ closing), ?_, ?_⟩
    · simp [Call.start, hread, hclosing]
    · rw [← hclosing] at hwritten
      simpa using hwritten.passing.after (before ++ [t])
  | noValue _ h _ | noCondition _ _ h _ => intro before _ e he; exact absurd he (h e)
  | value _ _ ih₁ ih₂ | condition _ _ _ ih₁ ih₂ =>
    intro before _
    obtain ⟨read, hread, hwritten⟩ := ih₁.alone rfl rfl
    refine ih₂.behind hread fun e he => ?_
    cases he
    exact hwritten.after before
  | lastItem _ | lastValue _ =>
    intro before hcarried e he
    cases he
    exact ⟨[], rfl, by simpa [Call.start] using hcarried _ rfl⟩
  | searchEnd | closed _ =>
    intro before hcarried e he
    cases he
    exact ⟨[], rfl, by simpa [Call.start] using hcarried e rfl⟩
  | @nextItem first e others t ts depth next r ht _ _ ih₁ ih₂ =>
    intro before hcarried
    obtain ⟨read, hread, hwritten⟩ := ih₁.alone rfl rfl
    replace hread : t :: ts = t :: read ++ next.rest := congrArg (t :: ·) hread
    refine ih₂.behind hread fun e he => ?_
    cases he
    exact written_nextItem (hcarried _ rfl).plain hwritten
  | @trailingColon first others t ts depth next _ item _ =>
    intro before hcarried e he
    cases he
    -- Where no item was found parentheses may have been skipped; they are passed with the colon.
    obtain ⟨read, hread⟩ := item.suffix
    replace hread : t :: ts = t :: read ++ next.rest := congrArg (t :: ·) hread.symm
    have hitems := (hcarried _ rfl).plain
    rw [Expr.entries_ofItems] at hitems
    have hlist : Written o.fallbackField (.list (first :: others.reverse)) before
        (t :: read ++ next.rest) := .inl hitems
    exact ⟨t :: read, hread, hlist.passing⟩
  | badItem _ _ _ | badValue _ _ _ | lastOperator _ | badOperand _ _ _ _ | badFirst _ _ _ =>
    intro before _ e he; cases he
  | @fallback c t h =>
    intro before _ e he
    cases he
    obtain ⟨hrest, ht⟩ := lastLeaf?_eq_some_iff.mp h
    rw [← Expr.isSome_ofToken?] at ht
    -- The second case of `Written`, and the only rule that gives it: the token is the last one.
    obtain ⟨leaf, hleaf⟩ := Option.isSome_iff_exists.mp ht
    exact ⟨[t], by simpa [Call.start] using hrest,
      .inr ⟨rfl, (marked_fallback hleaf).after before⟩⟩
  | @nextValue left e op t ts depth next r ht _ _ ih₁ ih₂ =>
    intro before hcarried
    obtain ⟨read, hread, hwritten⟩ := ih₁.alone rfl rfl
    replace hread : t :: ts = t :: read ++ next.rest := congrArg (t :: ·) hread
    refine ih₂.behind hread fun e he => ?_
    cases he
    exact written_binary (hcarried _ rfl).plain (Token.Kind.operator?_of_comparison? ht) hwritten
  | @droppedComparison left op t ts depth next _ right _ =>
    intro before hcarried e he
    cases he
    obtain ⟨read, hread⟩ := right.suffix
    replace hread : t :: ts = t :: read ++ next.rest := congrArg (t :: ·) hread.symm
    have hleft : Written o.fallbackField left before (t :: read ++ next.rest) :=
      hread ▸ hcarried left rfl
    exact ⟨t :: read, hread, hleft.passing⟩
  | @joined nested left right op t ts depth next r ht _ operand _ ih₁ ih₂ =>
    intro before hcarried
    obtain ⟨read, hread⟩ := operand.suffix
    have hpassed : t :: ts = t :: read ++ next.rest := congrArg (t :: ·) hread.symm
    refine ih₂.behind hpassed ?_
    refine written_join hcarried hread.symm (Token.Kind.operator?_of_logic? ht) fun r hr => ?_
    cases hr
    obtain ⟨read', hread', hwritten⟩ := ih₁.alone rfl rfl
    rwa [List.append_cancel_right (hread.trans hread')]
  | first _ operand _ ih₁ ih₂ =>
    intro before _
    obtain ⟨read, hread⟩ := operand.suffix
    refine ih₂.behind hread.symm fun e he => ?_
    cases he
    obtain ⟨read', hread', hwritten⟩ := ih₁.alone rfl rfl
    rw [List.append_cancel_right (hread.trans hread')]
    exact hwritten.after before
  | @passed nested left t ts depth r _ _ _ _ ih =>
    intro before hcarried
    have hpassed : t :: ts = [t] ++ ts := rfl
    refine ih.behind hpassed fun e he => ?_
    have he' : Written o.fallbackField e before ([t] ++ ts) := hcarried e he
    exact he'.passing

/-! ### Whole searches -/

/-- **A search invents nothing and keeps the order.**  What its expression says is part of what its
tokens say, in the same order; or nothing was left to read and the empty term is looked for; or the
last token is a leaf that is looked for in the fallback field, and as a plain leaf it would be the
last thing said. -/
theorem entries_of_parse {o : Options} {ts : List Token} {e : Expr} (h : parse o ts = .ok e) :
    e.entries.Sublist (Entry.ofTokens ts) ∨ e = .fallback o.fallbackField "" ∨
      ∃ (init : List Token) (t : Token) (leaf : Expr) (C : Expr.Context) (said : List Entry),
        ts = init ++ [t] ∧ Expr.ofToken? t = some leaf ∧
          e = C.fill (.fallback o.fallbackField t.text) ∧
          (C.fill leaf).entries = said ++ Entry.ofTokens [t] ∧
          said.Sublist (Entry.ofTokens init) := by
  have hreads : Reads o (.search false none ⟨ts, 0⟩) (search o false none ⟨ts, 0⟩).1 :=
    reads_reading o (.search false none ⟨ts, 0⟩)
  simp only [parse, read] at h
  generalize (search o false none ⟨ts, 0⟩).1 = r at h hreads
  match r, h, hreads with
  | ⟨.ok none, next⟩, h, _ =>
    cases h
    exact .inr (.inl rfl)
  | ⟨.ok (some e), next⟩, h, hreads =>
    cases h
    obtain ⟨read, hread, hwritten⟩ := hreads.accounts.alone rfl rfl
    rcases hreads.search_end with hend | ⟨hnested, -⟩
    · obtain rfl : ts = read := by simpa [Call.start, hend] using hread
      rcases hwritten with hsub | ⟨-, hmarked⟩
      · exact .inl hsub
      · exact .inr (.inr hmarked)
    · cases hnested

/-- `a ^ ) | ( "b"`: the comparison is dropped, and the open group ends in the fallback. -/
theorem entries_of_parse_open_group :
    parse {} [⟨.word, "a"⟩, ⟨.member, "^"⟩, ⟨.rparen, ")"⟩, ⟨.or, "|"⟩, ⟨.lparen, "("⟩,
        ⟨.quoted, "b"⟩] = .ok (.binary (.word "a") { kind := .or } (.fallback "en_title" "b")) ∧
      ∃ (init : List Token) (t : Token) (leaf : Expr) (C : Expr.Context) (said : List Entry),
        [⟨.word, "a"⟩, ⟨.member, "^"⟩, ⟨.rparen, ")"⟩, ⟨.or, "|"⟩, ⟨.lparen, "("⟩,
          ⟨.quoted, "b"⟩] = init ++ [t] ∧ Expr.ofToken? t = some leaf ∧
        .binary (.word "a") { kind := .or } (.fallback "en_title" "b") =
          C.fill (.fallback "en_title" t.text) ∧
        (C.fill leaf).entries = said ++ Entry.ofTokens [t] ∧
        said.Sublist (Entry.ofTokens init) := by
  have h : parse {} [⟨.word, "a"⟩, ⟨.member, "^"⟩, ⟨.rparen, ")"⟩, ⟨.or, "|"⟩, ⟨.lparen, "("⟩,
      ⟨.quoted, "b"⟩] = .ok (.binary (.word "a") { kind := .or } (.fallback "en_title" "b")) := by
    with_unfolding_all rfl
  refine ⟨h, ?_⟩
  -- The field is no token, so only the marked leaf remains.
  rcases entries_of_parse h with hsub | hempty | hmarked
  · exact absurd hsub (by decide)
  · exact absurd hempty (by decide)
  · exact hmarked

end SearchFilter.Search
