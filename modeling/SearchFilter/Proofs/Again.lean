import SearchFilter.Proofs.Parsing

/-!
# Reading again

What a whole search leaves behind: no token, and no group open around the place, whether it was
read or refused (`next_read`).  So the parser stands exactly at the end of its tokens, and when it
goes on from there it finds an empty search, as often as it is tried: an error is reported once
(`parser_spent`).

A search that is read stops only at the end (`Reads.search_end`).  One that is refused is refused
for its last token, and every call around the one that fails hands the place on as it is; a group is
left also where the search in it failed (`Reads.rest_of_error`).  That as many groups are open
behind a call as around it holds of failing calls too (`Reads.depth_eq`).
-/

namespace SearchFilter.Search

variable {o : Options} {call : Call} {r : Reading (Option Expr)}

/-! ### What a failing call leaves -/

/-- Behind a group at the end of the tokens nothing is left either. -/
theorem Cursor.rest_leave_of_end {c : Cursor} (h : c.rest = []) : c.leave.rest = [] := by
  rw [leave, h]

/-- **A call that fails has read to the end of the tokens**, from however many groups. -/
theorem Reads.rest_of_error (h : Reads o call r) :
    ∀ err, r.value = .error err → r.next.rest = [] := by
  induction h with
  -- The one rule that fails by itself: the operator that it fails for is the last token.
  | lastOperator _ => exact fun _ _ => rfl
  | group _ _ _ ih => exact fun err herr => Cursor.rest_leave_of_end (ih err herr)
  | noValue _ _ ih | noCondition _ _ _ ih | badItem _ _ ih | badValue _ _ ih | badOperand _ _ _ ih
  | badFirst _ _ ih | passed _ _ _ _ ih => exact ih
  | value _ _ _ ih | nextItem _ _ _ _ ih | condition _ _ _ _ ih | nextValue _ _ _ _ ih
  | joined _ _ _ _ _ ih | first _ _ _ _ ih => exact ih
  | noItem _ | leaf _ _ | lastItem _ | trailingColon _ _ _ | fallback _ | lastValue _
  | droppedComparison _ _ _ | searchEnd | closed _ => exact nofun

/-! ### Whole searches -/

/-- **A whole search is read to the end of its tokens**, also when it is refused, and leaves as many
groups open as there were. -/
theorem next_read (o : Options) (c : Cursor) : (read o c).next = ⟨[], c.depth⟩ := by
  have hread := reads_reading o (.search false none c)
  have hdepth := hread.depth_eq
  have hend : ((Call.search false none c).reading o).next.rest = [] := by
    cases hvalue : ((Call.search false none c).reading o).value with
    | error err => exact hread.rest_of_error err hvalue
    | ok e =>
      have hsearch : Reads o (.search false none c)
          ⟨.ok e, ((Call.search false none c).reading o).next⟩ := hvalue ▸ hread
      exact hsearch.search_end.resolve_right nofun
  calc (read o c).next
      = ⟨((Call.search false none c).reading o).next.rest,
          ((Call.search false none c).reading o).next.depth⟩ := rfl
    _ = ⟨[], c.depth⟩ := by rw [hend, hdepth]; rfl

/-- At the end of the tokens the empty term is looked for. -/
theorem read_end (o : Options) (depth : Nat) :
    read o ⟨[], depth⟩ = ⟨.ok (.fallback o.fallbackField ""), ⟨[], depth⟩⟩ := by
  rw [read, search_nil]
  rfl

/-! ### The parser behind a search -/

namespace Parser

variable {ts : List Token} {p depth : Nat}

/-- **The parser reads a search to the end of its tokens and no further**, also when it is refused,
and leaves as many groups open as there were. -/
theorem parse_moves (hp : p ≤ ts.length) (hd : depth ≤ o.nestingLimit) :
    Moves o ts depth o.parse p (read o ⟨ts.drop p, depth⟩).value ts.length := by
  have hread := reads_reading o (.search false none ⟨ts.drop p, depth⟩)
  obtain ⟨q, hq, hnext, hsearch⟩ := hread.runs hp hd rfl
  have hend : ts.drop q = [] := by
    have hnil := congrArg Cursor.rest (next_read o ⟨ts.drop p, depth⟩)
    exact (congrArg Cursor.rest hnext).symm.trans hnil
  obtain ⟨-, rfl⟩ := of_drop_eq_nil hq hend
  rw [Options.parse]
  refine hsearch.bind ?_
  rw [read]
  show Moves o ts depth _ _ (((Call.search false none ⟨ts.drop p, depth⟩).reading o).value.map _) _
  cases ((Call.search false none ⟨ts.drop p, depth⟩).reading o).value with
  | error err => exact .pure _ _
  | ok e => exact .pure _ _

end Parser

/-- **A search is read once.**  Whether it was read or refused, the parser stands exactly at the end
of the tokens and no group is open.  However often it reads again, it stays there and looks for the
empty term, and never repeats the error. -/
theorem parser_spent (o : Options) (ts : List Token) :
    o.parse.result ⟨ts, 0, 0⟩ = some (.ok (parse o ts, ⟨ts, ts.length, 0⟩)) ∧
      ∀ n, (o.parse.again (n + 1)).result ⟨ts, 0, 0⟩ =
        some (.ok (.ok (.fallback o.fallbackField ""), ⟨ts, ts.length, 0⟩)) := by
  have hfirst : Parser.Moves o ts 0 o.parse 0 (parse o ts) ts.length :=
    Parser.parse_moves (Nat.zero_le _) (Nat.zero_le _)
  have hmore := Parser.parse_moves (o := o) (Nat.le_refl ts.length) (Nat.zero_le _)
  rw [List.drop_length, read_end] at hmore
  exact ⟨hfirst.result_eq, fun n => (hfirst.again hmore n).result_eq⟩

end SearchFilter.Search
