import SearchFilter.Proofs.Calls
import SearchFilter.Proofs.Failure
import SearchFilter.Proofs.Field

/-!
# Groups that are left open

Closing parentheses may be left out at the end of a search, and too many may be written there
(`parse_closings`).  They make a difference to the last token only: a leaf that is looked for in the
fallback field because nothing stands behind it stays a plain leaf.

Two readings are compared, with the parentheses and without.  They do the same until the tokens of
the second are read.  From there on the second closes at once all groups that are open, and the
first does so with one parenthesis for each, as long as there are any; both only hand on what was
read before.  So the first goes on in front of all parentheses while the second has tokens left, and
in front of some of them when it has none (`Call.Closes`).  Each rule of reading keeps this
(`Reads.closes`).
-/

namespace SearchFilter.Search

variable {o : Options} {call : Call} {closings : List Token}

/-! ### Tokens behind those of a call -/

/-- The place with more tokens behind those that are left. -/
def Cursor.append (c : Cursor) (ts : List Token) : Cursor := ⟨c.rest ++ ts, c.depth⟩

/-- The call with more tokens behind those that it is given. -/
def Call.append (ts : List Token) : Call → Call
  | .item c => .item (c.append ts)
  | .value c => .value (c.append ts)
  | .moreItems first others c => .moreItems first others (c.append ts)
  | .condition c => .condition (c.append ts)
  | .moreValues left c => .moreValues left (c.append ts)
  | .search nested left c => .search nested left (c.append ts)

/-- What begins with no opening parenthesis is not skipped. -/
theorem Cursor.skipParens_append {limit : Nat} {ts : List Token}
    (hts : ∀ t ∈ ts.head?, t.kind ≠ .lparen) (c : Cursor) :
    (c.append ts).skipParens limit = (c.skipParens limit).append ts := by
  have hdrop : ts.dropWhile (·.kind = .lparen) = ts := by
    cases ts with
    | nil => rfl
    | cons t ts => exact List.dropWhile_cons_of_neg (by simpa using hts t rfl)
  unfold skipParens append
  split
  · rw [List.dropWhile_append, hdrop]
    split
    · next hnil => rw [List.isEmpty_iff.mp hnil, List.nil_append]
    · rfl
  · rfl

/-- Behind a group a closing parenthesis is passed, of those that belong to the tokens or, where
none is left there, of those behind them. -/
theorem Cursor.leave_append (hclosings : ∀ t ∈ closings, t.kind = .rparen) (c : Cursor) :
    ∃ left, left <:+ closings ∧ (c.append closings).leave = c.leave.append left ∧
      (c.rest ≠ [] → left = closings) := by
  obtain ⟨_ | ⟨t, ts⟩, depth⟩ := c
  · cases closings with
    | nil => exact ⟨[], List.suffix_rfl, rfl, fun _ => rfl⟩
    | cons u us =>
      have hu : u.kind = .rparen := hclosings u List.mem_cons_self
      exact ⟨us, List.suffix_cons u us, by simp [append, leave, hu], fun h => absurd rfl h⟩
  · refine ⟨closings, List.suffix_rfl, ?_, fun _ => rfl⟩
    simp only [append, leave, List.cons_append]
    split <;> rfl

/-- In front of closing parentheses no leaf is the last. -/
theorem lastLeaf?_append (hclosings : ∀ t ∈ closings, t.kind = .rparen) (hne : closings ≠ [])
    (ts : List Token) : lastLeaf? (ts ++ closings) = none := by
  cases hlast : lastLeaf? (ts ++ closings) with
  | none => rfl
  | some t =>
    obtain ⟨htokens, ht⟩ := lastLeaf?_eq_some_iff.mp hlast
    have hmem : closings.getLast hne ∈ ts ++ closings :=
      List.mem_append_right ts (List.getLast_mem hne)
    rw [htokens, List.mem_singleton] at hmem
    rw [← hmem, hclosings _ (List.getLast_mem hne)] at ht
    cases ht

/-! ### The leaf that is looked for -/

/-- The call reads a condition where one leaf is left, and looks for it in the fallback field. -/
def Call.AtLastLeaf : Call → Prop
  | .condition c => (lastLeaf? c.rest).isSome
  | _ => False

/-- In the course of the call a last leaf is looked for in the fallback field. -/
abbrev Call.FallsBack (o : Options) (call : Call) : Prop := call.Meets o Call.AtLastLeaf

/-- At the end of the tokens there is no leaf to look for. -/
theorem Call.not_fallsBack_at_end (h : call.start.rest = []) : ¬ call.FallsBack o := by
  rintro ⟨sub, hwithin, hlast⟩
  have hend := hwithin.suffix
  rw [h, List.suffix_nil] at hend
  match sub, hlast with
  | .condition c, hlast =>
    obtain ⟨t, ht⟩ := Option.isSome_iff_exists.mp hlast
    obtain ⟨hrest, -⟩ := lastLeaf?_eq_some_iff.mp ht
    cases hend.symm.trans hrest

/-! ### Readings with the parentheses and without -/

/-- `v` is what the call reads with closing parentheses behind its tokens: what it reads without, or
a plain leaf where the last leaf is looked for, and then nothing is left. -/
def Call.Agrees (o : Options) (call : Call) (r : Reading (Option Expr))
    (v : Except Error (Option Expr)) : Prop :=
  ¬ call.FallsBack o ∧ v = r.value ∨
    call.FallsBack o ∧ r.next.rest = [] ∧ ∃ (t : Token) (leaf : Expr) (C : Expr.Context),
      [t] <:+ call.start.rest ∧ Expr.ofToken? t = some leaf ∧
        r.value = .ok (some (C.fill (.fallback o.fallbackField t.text))) ∧
        v = .ok (some (C.fill leaf))

/-- With closing parentheses behind its tokens the call reads what agrees with `r`.  It leaves the
parentheses behind what is left in `r`; where nothing is left it may pass some of them. -/
def Call.Closes (o : Options) (closings : List Token) (call : Call) (r : Reading (Option Expr)) :
    Prop :=
  ∃ left v, left <:+ closings ∧ (r.next.rest ≠ [] → left = closings) ∧
    Reads o (call.append closings) ⟨v, r.next.append left⟩ ∧ call.Agrees o r v

section

variable {first more : Call} {r : Reading (Option Expr)} {next : Cursor} {e : Expr}
  {v : Except Error (Option Expr)}

/-- A call agrees with the one subcall that reads what it reads. -/
theorem Call.Agrees.of_subcall {w : Except Error (Option Expr)} {next' : Cursor}
    (h : more.Agrees o ⟨w, next⟩ v) (hiff : call.FallsBack o ↔ more.FallsBack o)
    (hrest : more.start.rest <:+ call.start.rest) (hnext : next.rest = [] → next'.rest = []) :
    call.Agrees o ⟨w, next'⟩ v := by
  rcases h with ⟨hfall, hv⟩ | ⟨hfall, hend, t, leaf, C, ht, h⟩
  · exact .inl ⟨mt hiff.mp hfall, hv⟩
  · exact .inr ⟨hiff.mpr hfall, hnext hend, t, leaf, C, ht.trans hrest, h⟩

/-- What holds no expression holds no leaf either. -/
theorem Call.Agrees.eq_of_none (h : call.Agrees o r v) (hr : ∀ e, r.value ≠ .ok (some e)) :
    ¬ call.FallsBack o ∧ v = r.value := by
  rcases h with h | ⟨-, -, t, leaf, C, -, -, hvalue, -⟩
  · exact h
  · exact absurd hvalue (hr _)

namespace Call.Closes

/-- A call that makes no others and stops in front of the parentheses. -/
theorem alone (hcall : ¬ call.AtLastLeaf) (hsubs : call.subcalls o = [])
    (h : Reads o (call.append closings) ⟨r.value, r.next.append closings⟩) :
    call.Closes o closings r :=
  ⟨closings, r.value, List.suffix_rfl, fun _ => rfl, h,
    .inl ⟨(meets_none hcall hsubs).mp, rfl⟩⟩

/-- A call that ends with a subcall that reads no expression. -/
theorem stopped {w : Except Error (Option Expr)} (h : first.Closes o closings r)
    (hr : ∀ e, r.value ≠ .ok (some e)) (hcall : ¬ call.AtLastLeaf)
    (hsubs : call.subcalls o = [first])
    (rule : ∀ next, Reads o (first.append closings) ⟨r.value, next⟩ →
      Reads o (call.append closings) ⟨w, next⟩) :
    call.Closes o closings ⟨w, r.next⟩ := by
  obtain ⟨left, v, hleft, hstop, hread, hagrees⟩ := h
  obtain ⟨hfall, rfl⟩ := hagrees.eq_of_none hr
  exact ⟨left, w, hleft, hstop, rule _ hread, .inl ⟨mt (meets_one hcall hsubs).mp hfall, rfl⟩⟩

/-- A call that goes on as its one subcall does. -/
theorem onward (h : more.Closes o closings r) (hcall : ¬ call.AtLastLeaf)
    (hsubs : call.subcalls o = [more]) (hrest : more.start.rest <:+ call.start.rest)
    (rule : ∀ r, Reads o (more.append closings) r → Reads o (call.append closings) r) :
    call.Closes o closings r := by
  obtain ⟨left, v, hleft, hstop, hread, hagrees⟩ := h
  exact ⟨left, v, hleft, hstop, rule _ hread, hagrees.of_subcall (meets_one hcall hsubs) hrest id⟩

end Call.Closes

end

/-! ### Calls that go on -/

section

variable {α : Type} {read : α → Option Expr} {more : α → Cursor → Call} {D : Expr.Context}
  {first : Call} {r : Reading (Option Expr)} {next : Cursor} {a : α}

/-- Behind the end of the tokens a call hands on what was read, past some of the parentheses. -/
theorem GoesOn.reads_at_closings (h : GoesOn read more D) {left : List Token}
    (hleft : ∀ t ∈ left, t.kind = .rparen) (a : α) (depth : Nat) :
    ∃ left', left' <:+ left ∧
      Reads o (more a ⟨left, depth⟩) ⟨.ok (more a ⟨[], depth⟩).carried, ⟨left', depth⟩⟩ := by
  have hclose : ∀ t ∈ (more a ⟨left, depth⟩).start.rest, t.kind = .rparen := by rwa [h.start]
  obtain ⟨left', hleft', hread⟩ := Search.reads_at_closings (o := o) hclose
  rw [h.start] at hleft' hread
  rw [h.carried a ⟨left, depth⟩ ⟨[], depth⟩] at hread
  exact ⟨left', hleft', hread⟩

/-- A call that goes on with what a subcall has read. -/
theorem GoesOn.closes (h : GoesOn read more D)
    (hfirst : first.Closes o closings ⟨.ok (read a), next⟩)
    (hmore : (more a next).Closes o closings r)
    (happend : ∀ c, (more a c).append closings = more a (c.append closings))
    (reads₁ : Reads o first ⟨.ok (read a), next⟩) (reads₂ : Reads o (more a next) r)
    (hclosings : ∀ t ∈ closings, t.kind = .rparen) (hcall : ¬ call.AtLastLeaf)
    (hsubs : call.subcalls o = [first, more a next])
    (hrest : first.start.rest <:+ call.start.rest)
    (rule : ∀ a c r, Reads o (first.append closings) ⟨.ok (read a), c⟩ →
      Reads o (more a c) r → Reads o (call.append closings) r) :
    call.Closes o closings r := by
  have hiff := Call.meets_two (o := o) hcall hsubs
  obtain ⟨left, v, hleft, hstop, hread, hagrees⟩ := hfirst
  by_cases hend : next.rest = []
  · obtain ⟨rest, depth⟩ := next
    obtain rfl : rest = [] := hend
    have hquiet : ¬ (more a ⟨[], depth⟩).FallsBack o :=
      Call.not_fallsBack_at_end (by rw [h.start])
    obtain rfl : r = ⟨.ok (more a ⟨[], depth⟩).carried, ⟨[], depth⟩⟩ := by
      have hcarried := Search.reads_at_end (o := o) (by rw [h.start a ⟨[], depth⟩])
      rw [h.start] at hcarried
      exact reads₂.reading_eq.symm.trans hcarried.reading_eq
    have handOn (b : α) := h.reads_at_closings (o := o) (fun t ht => hclosings t (hleft.subset ht))
      b depth
    rcases hagrees with ⟨hfall, rfl⟩ | ⟨hfall, -, t, leaf, C, ht, hleaf, hvalue, rfl⟩
    · obtain ⟨left', hleft', hmore'⟩ := handOn a
      have hnone : ¬ call.FallsBack o := fun hmet => (hiff.mp hmet).elim hfall hquiet
      exact ⟨left', _, hleft'.trans hleft, fun h => absurd rfl h, rule a _ _ hread hmore',
        .inl ⟨hnone, rfl⟩⟩
    · -- Both readings hand on what was read in the same context.
      obtain ⟨b, hb⟩ := h.exists_read (C.fill leaf)
      obtain ⟨left', hleft', hmore'⟩ := handOn b
      refine ⟨left', _, hleft'.trans hleft, fun h => absurd rfl h, rule b _ _ (hb ▸ hread) hmore',
        .inr ⟨hiff.mpr (.inl hfall), rfl, t, leaf, D.comp C, ht.trans hrest, hleaf, ?_, ?_⟩⟩
      · rw [h.carried_read a _ _ (Except.ok.inj hvalue), Expr.Context.fill_comp]
      · rw [h.carried_read b _ _ hb, Expr.Context.fill_comp]
  · obtain rfl := hstop hend
    obtain ⟨hfall, rfl⟩ : ¬ first.FallsBack o ∧ v = .ok (read a) :=
      hagrees.resolve_right fun h => hend h.2.1
    obtain ⟨left', v', hleft', hstop', hread', hagrees'⟩ := hmore
    rw [happend] at hread'
    have hsuffix : (more a next).start.rest <:+ call.start.rest := by
      rw [h.start]
      exact reads₁.suffix.trans hrest
    exact ⟨left', v', hleft', hstop', rule a _ _ hread hread',
      hagrees'.of_subcall (hiff.trans (or_iff_right hfall)) hsuffix id⟩

end

/-! ### Every rule -/

/-- An end of tokens that end in no operator ends in none. -/
theorem trailing?_suffix {ts us : List Token} (h : us <:+ ts) (hts : trailing? ts = none) :
    trailing? us = none := by
  obtain ⟨front, rfl⟩ := h
  induction front with
  | nil => exact hts
  | cons t front ih =>
    by_cases hne : front ++ us = []
    · rw [(List.append_eq_nil_iff.mp hne).2]
      rfl
    · rw [List.cons_append, trailing?_cons_of_ne_nil hne] at hts
      exact ih hts

/-- Nothing fails where no operator ends the tokens. -/
theorem Reads.not_error {err : Error} {next : Cursor} (h : Reads o call ⟨.error err, next⟩) :
    trailing? call.start.rest ≠ none := by
  match err, h with
  | .missingOperand operator, h =>
    have hlast : trailing? call.start.rest = some operator := h.keepsTrailing
    simp [hlast]

/-- **Every rule of reading closes the groups that are open**, as far as there are parentheses. -/
theorem Reads.closes {r : Reading (Option Expr)} (h : Reads o call r)
    (hclosings : ∀ t ∈ closings, t.kind = .rparen) (hne : closings ≠ []) :
    trailing? call.start.rest = none → call.Closes o closings r := by
  have head {t : Token} (ht : t ∈ closings.head?) : t.kind = .rparen :=
    hclosings t (List.mem_of_mem_head? ht)
  have hskip : ∀ t ∈ closings.head?, t.kind ≠ .lparen := fun t ht => by simp [head ht]
  -- In front of the parentheses nothing begins and nothing goes on.
  have front {p : Token → Prop} {ts : List Token} (hts : ∀ t ∈ ts.head?, p t)
      (hclose : ∀ t, t.kind = .rparen → p t) : ∀ t ∈ (ts ++ closings).head?, p t := by
    cases ts with
    | nil => exact fun t ht => hclose t (head ht)
    | cons u us => exact hts
  have hleaf (ts : List Token) := lastLeaf?_append hclosings hne ts
  induction h with
  | @noItem c h =>
    intro _
    have hnone : ∀ t ∈ (c.skipParens o.nestingLimit).rest.head?, t.kind ≠ .lparen :=
      fun t ht hparen => by simpa [hparen, Token.Kind.isAtom] using h t ht
    refine .alone id (subcalls_noItem hnone) ?_
    show Reads o (.item (c.append closings)) ⟨_, (c.skipParens o.nestingLimit).append closings⟩
    rw [← Cursor.skipParens_append hskip]
    refine .noItem ?_
    rw [Cursor.skipParens_append hskip]
    exact front h fun t ht => by rw [ht]; rfl
  | @leaf c t ts e h ht =>
    intro _
    have hkind := ne_paren_of_isLeaf (isLeaf_of_ofToken? ht)
    refine .alone id (subcalls_noItem (by rw [h]; rintro u ⟨⟩; exact hkind.1)) ?_
    refine .leaf (t := t) ?_ ht
    rw [Cursor.skipParens_append hskip]
    simp [Cursor.append, h]
  | @group t ts depth v next ht hd _ ih =>
    intro hlast
    obtain ⟨left, v', hleft, hstop, hread, hagrees⟩ :=
      ih (trailing?_suffix (List.suffix_cons t ts) hlast)
    obtain ⟨left', hleft', hleave, hstop'⟩ :=
      next.leave_append fun t ht => hclosings t (hleft.subset ht)
    have hend : next.rest = [] → next.leave.rest = [] := fun h => by simp [Cursor.leave, h]
    refine ⟨left', v', hleft'.trans hleft, fun h => ?_, ?_,
      hagrees.of_subcall (Call.meets_one id (subcalls_group ht hd)) (List.suffix_cons t ts) hend⟩
    · rw [hstop' (mt hend h), hstop (mt hend h)]
    · show Reads o (.item ⟨t :: (ts ++ closings), depth⟩) ⟨v', next.leave.append left'⟩
      rw [← hleave]
      exact .group ht hd hread
  | noValue item h ih =>
    exact fun hlast => (ih hlast).stopped h id (subcalls_noValue item h)
      fun _ item => .noValue item h
  | value item more ih₁ ih₂ =>
    intro hlast
    have hmore := ih₂ (trailing?_suffix item.suffix hlast)
    exact GoesOn.items.closes (ih₁ hlast) hmore (fun _ => rfl) item more hclosings id
      (subcalls_value item) List.suffix_rfl fun _ _ _ => .value
  | lastItem h =>
    exact fun _ => .alone id (subcalls_lastItem h) (.lastItem (front h fun t ht => by simp [ht]))
  | @nextItem first e others t ts depth next r ht item more ih₁ ih₂ =>
    intro hlast
    replace hlast := trailing?_suffix (List.suffix_cons t ts) hlast
    have hmore := ih₂ (trailing?_suffix item.suffix hlast)
    exact (GoesOn.nextItem first others).closes (ih₁ hlast) hmore (fun _ => rfl) item more
      hclosings id (subcalls_nextItem ht item) (List.suffix_cons t ts) fun _ _ _ => .nextItem ht
  | @trailingColon first others t ts depth next ht item ih =>
    intro hlast
    have hitem := ih (trailing?_suffix (List.suffix_cons t ts) hlast)
    exact hitem.stopped (by simp) id (subcalls_trailingColon ht item (by simp))
      fun _ => .trailingColon ht
  | @fallback c t h =>
    intro _
    obtain ⟨hrest, ht⟩ := lastLeaf?_eq_some_iff.mp h
    obtain ⟨rest, depth⟩ := c
    obtain rfl : rest = [t] := hrest
    obtain ⟨leaf, ht⟩ := Option.isSome_iff_exists.mp ((Expr.isSome_ofToken? t).trans ht)
    have hfalls : (Call.condition ⟨[t], depth⟩).FallsBack o :=
      ⟨_, .refl, by simp [Call.AtLastLeaf, h]⟩
    -- With a parenthesis behind it the leaf is no longer the last token.
    have hread : Reads o (.condition ⟨t :: closings, depth⟩)
        ⟨.ok (some leaf), ⟨closings, depth⟩⟩ :=
      .condition (hleaf [t])
        (.value (reads_leaf ht closings depth) (.lastItem fun t ht => by simp [head ht]))
        (.lastValue fun t ht => by rw [head ht]; rfl)
    exact ⟨closings, _, List.suffix_rfl, fun _ => rfl, hread,
      .inr ⟨hfalls, rfl, t, leaf, .hole, List.suffix_rfl, ht, rfl, rfl⟩⟩
  | noCondition hc value h ih =>
    exact fun hlast => (ih hlast).stopped h (by simp [Call.AtLastLeaf, hc])
      (subcalls_noCondition hc value h) fun _ value => .noCondition (hleaf _) value h
  | @condition c next e r hc value more ih₁ ih₂ =>
    intro hlast
    have hmore := ih₂ (trailing?_suffix value.suffix hlast)
    have hcall : ¬ (Call.condition c).AtLastLeaf := by simp [Call.AtLastLeaf, hc]
    exact GoesOn.values.closes (ih₁ hlast) hmore (fun _ => rfl) value more hclosings hcall
      (subcalls_condition hc value) List.suffix_rfl fun _ _ _ => .condition (hleaf _)
  | lastValue h =>
    exact fun _ => .alone id (subcalls_lastValue h)
      (.lastValue (front h fun t ht => by rw [ht]; rfl))
  | @nextValue left e op t ts depth next r ht value more ih₁ ih₂ =>
    intro hlast
    replace hlast := trailing?_suffix (List.suffix_cons t ts) hlast
    have hmore := ih₂ (trailing?_suffix value.suffix hlast)
    exact (GoesOn.nextValue left { kind := op }).closes (ih₁ hlast) hmore (fun _ => rfl) value more
      hclosings id (subcalls_nextValue ht value) (List.suffix_cons t ts) fun _ _ _ => .nextValue ht
  | @droppedComparison left op t ts depth next ht value ih =>
    intro hlast
    have hvalue := ih (trailing?_suffix (List.suffix_cons t ts) hlast)
    exact hvalue.stopped (by simp) id (subcalls_droppedComparison ht value (by simp))
      fun _ => .droppedComparison ht
  | @searchEnd nested left depth =>
    intro _
    have hrest : ∀ t ∈ (Call.search nested left ⟨closings, depth⟩).start.rest, t.kind = .rparen :=
      hclosings
    obtain ⟨rest, hrest, hread⟩ := reads_at_closings (o := o) hrest
    exact ⟨rest, _, hrest, fun h => absurd rfl h, hread, .inl ⟨(Call.meets_none id rfl).mp, rfl⟩⟩
  | @joined nested left right op t ts depth next r ht hts operand more ih₁ ih₂ =>
    intro hlast
    have hrest := List.suffix_cons t ts
    replace hlast := trailing?_suffix hrest hlast
    have hmore := ih₂ (trailing?_suffix operand.suffix hlast)
    have hts' : ts ++ closings ≠ [] := by simp [hts]
    exact (GoesOn.joined nested op left).closes (ih₁ hlast) hmore (fun _ => rfl) operand more
      hclosings id (subcalls_joined ht hts operand) hrest fun _ _ _ => .joined ht hts'
  | closed ht => exact fun _ => .alone id (subcalls_closed ht) (.closed ht)
  | @first nested e t ts depth next r ht operand more ih₁ ih₂ =>
    intro hlast
    have hmore := ih₂ (trailing?_suffix operand.suffix hlast)
    exact (GoesOn.search nested).closes (ih₁ hlast) hmore (fun _ => rfl) operand more
      hclosings id (subcalls_first ht operand) List.suffix_rfl fun _ _ _ => .first ht
  | @passed nested left t ts depth r hlogic hclose hatom more ih =>
    intro hlast
    have hmore := ih (trailing?_suffix (List.suffix_cons t ts) hlast)
    exact hmore.onward id (subcalls_passed hlogic hclose hatom) (List.suffix_cons t ts)
      fun _ => .passed hlogic hclose hatom
  -- What fails names an operator at the end of the tokens, where there is none.
  | badItem ht item _ => exact fun hlast => absurd hlast (Reads.not_error (.badItem ht item))
  | badValue ht value _ => exact fun hlast => absurd hlast (Reads.not_error (.badValue ht value))
  | lastOperator ht => exact fun hlast => absurd hlast (Reads.not_error (o := o) (.lastOperator ht))
  | badOperand ht hts operand _ =>
    exact fun hlast => absurd hlast (Reads.not_error (.badOperand ht hts operand))
  | badFirst ht operand _ =>
    exact fun hlast => absurd hlast (Reads.not_error (.badFirst ht operand))

/-! ### Whole searches -/

/-- While the tokens are read, a last leaf is looked for in the fallback field. -/
abbrev FallsBack (o : Options) (ts : List Token) : Prop :=
  (Call.search false none ⟨ts, 0⟩).FallsBack o

theorem trailing?_eq_none {ts : List Token} (h : ∀ t ∈ ts.getLast?, t.kind ≠ .and ∧ t.kind ≠ .or) :
    trailing? ts = none := by
  cases hlast : trailing? ts with
  | none => rfl
  | some operator =>
    obtain ⟨t, ht, hk, -⟩ := trailing?_eq_some_iff.mp hlast
    exact absurd hk (not_or.mpr (h t ht))

/-- **Closing parentheses at the end make no difference**, be they too few, enough or too many for
the groups that are open, unless the last token is a leaf that is looked for in the fallback field.
That leaf stays a plain one, and all else is the same. -/
theorem parse_closings (o : Options) {ts closings : List Token}
    (hlast : ∀ t ∈ ts.getLast?, t.kind ≠ .and ∧ t.kind ≠ .or)
    (hclosings : ∀ t ∈ closings, t.kind = .rparen) (hne : closings ≠ []) :
    (¬ FallsBack o ts → parse o (ts ++ closings) = parse o ts) ∧
      (FallsBack o ts → ∃ (t : Token) (leaf : Expr) (C : Expr.Context),
        ts.getLast? = some t ∧ Expr.ofToken? t = some leaf ∧
          parse o ts = .ok (C.fill (.fallback o.fallbackField t.text)) ∧
          parse o (ts ++ closings) = .ok (C.fill leaf)) := by
  have hread := reads_reading o (.search false none ⟨ts, 0⟩)
  obtain ⟨left, v, -, -, hread', hagrees⟩ :=
    hread.closes hclosings hne (trailing?_eq_none hlast)
  have hparse := hread.parse_eq_map
  have hparse' : parse o (ts ++ closings) = v.map (·.getD (.fallback o.fallbackField "")) :=
    hread'.parse_eq_map
  constructor
  · intro hfall
    obtain ⟨-, rfl⟩ := hagrees.resolve_right fun h => hfall h.1
    rw [hparse, hparse']
  · intro hfall
    obtain ⟨-, -, t, leaf, C, ht, hleaf, hvalue, rfl⟩ := hagrees.resolve_left fun h => h.1 hfall
    rw [hvalue] at hparse
    obtain ⟨front, hfront⟩ := ht
    have hts : front ++ [t] = ts := hfront
    exact ⟨t, leaf, C, by simp [← hts], hleaf, hparse, hparse'⟩

/-- `x | ( a = ( b : ( "c"`, with three groups open at the end. -/
def threeOpen : List Token :=
  [⟨.word, "x"⟩, ⟨.or, "|"⟩, ⟨.lparen, "("⟩, ⟨.word, "a"⟩, ⟨.eq, "="⟩, ⟨.lparen, "("⟩,
    ⟨.word, "b"⟩, ⟨.colon, ":"⟩, ⟨.lparen, "("⟩, ⟨.quoted, "c"⟩]

/-- Two parentheses behind them: the last term is not looked for. -/
theorem parse_closings_threeOpen :
    (∀ t ∈ threeOpen.getLast?, t.kind ≠ .and ∧ t.kind ≠ .or) ∧
      (∀ t ∈ [(⟨.rparen, ")"⟩ : Token), ⟨.rparen, ")"⟩], t.kind = .rparen) ∧
      [(⟨.rparen, ")"⟩ : Token), ⟨.rparen, ")"⟩] ≠ [] ∧ FallsBack {} threeOpen ∧
      ∃ (t : Token) (leaf : Expr) (C : Expr.Context),
        threeOpen.getLast? = some t ∧ Expr.ofToken? t = some leaf ∧
          parse {} threeOpen = .ok (C.fill (.fallback "en_title" t.text)) ∧
          parse {} (threeOpen ++ [⟨.rparen, ")"⟩, ⟨.rparen, ")"⟩]) = .ok (C.fill leaf) := by
  have hlast : ∀ t ∈ threeOpen.getLast?, t.kind ≠ .and ∧ t.kind ≠ .or := by decide
  have hclosings : ∀ t ∈ [(⟨.rparen, ")"⟩ : Token), ⟨.rparen, ")"⟩], t.kind = .rparen := by decide
  have hne : [(⟨.rparen, ")"⟩ : Token), ⟨.rparen, ")"⟩] ≠ [] := List.cons_ne_nil _ _
  obtain ⟨hsame, hleaf⟩ := parse_closings {} hlast hclosings hne
  -- The two expressions differ, so the last leaf was looked for.
  have hfall : FallsBack {} threeOpen := Classical.byContradiction fun hfall => by
    have hwithout : parse {} threeOpen = .ok (.binary (.word "x") { kind := .or }
        (.binary (.word "a") { kind := .eq } (.list [.word "b", .fallback "en_title" "c"]))) := by
      with_unfolding_all rfl
    have hwith : parse {} (threeOpen ++ [⟨.rparen, ")"⟩, ⟨.rparen, ")"⟩]) =
        .ok (.binary (.word "x") { kind := .or }
          (.binary (.word "a") { kind := .eq } (.list [.word "b", .string "c"]))) := by
      with_unfolding_all rfl
    cases hwithout.symm.trans ((hsame hfall).symm.trans hwith)
  exact ⟨hlast, hclosings, hne, hfall, hleaf hfall⟩

end SearchFilter.Search
