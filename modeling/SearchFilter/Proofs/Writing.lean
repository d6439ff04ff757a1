import SearchFilter.Expr.Filter

/-!
# Writing in turns

A filter is written by a loop that holds what is written already and a stack of pieces still to
come.  The main result `filter_structural` says what that loop does.

* It writes what plain recursion would: the filter is the one function that puts the text of every
  expression together from the texts of its parts (`Structural`).
* It ends, after a number of turns that is known beforehand (`Expr.turns`), and there is no other
  way for it to end.

A turn takes one piece from the stack, but an expression with parts puts several back.  Two things
are carried through all the same.  What is written, with the text of the pieces behind it, stays as
it is (`Turn.text_eq`); and each turn leaves one turn less to do (`Turn.turns_eq`).
-/

namespace SearchFilter

/-! ### Texts put together from the texts of parts -/

/-- The text of an expression is put together from the texts of its parts. -/
structure Expr.Structural (text : Expr → String) : Prop where
  word (w : String) : text (.word w) = String.ofList (w.toList.filter (· ≠ ';'))
  string (s : String) : text (.string s) = Json.literal s
  number (n : String) : text (.number n) = n
  list (items : List Expr) : text (.list items) = "(" ++ ",".intercalate (items.map text) ++ ")"
  binary (left : Expr) (op : Operator) (right : Expr) :
    text (.binary left op right) = "(" ++ text left ++ " " ++ op.symbol ++ " " ++ text right ++ ")"

namespace Expr

mutual

/-- Only one function does so. -/
theorem Structural.unique {f g : Expr → String} (hf : Structural f) (hg : Structural g) :
    ∀ e, f e = g e
  | .word w => by rw [hf.word, hg.word]
  | .string s => by rw [hf.string, hg.string]
  | .number n => by rw [hf.number, hg.number]
  | .list items => by rw [hf.list, hg.list, Structural.map_unique hf hg items]
  | .binary left op right => by
    rw [hf.binary, hg.binary, Structural.unique hf hg left, Structural.unique hf hg right]

theorem Structural.map_unique {f g : Expr → String} (hf : Structural f) (hg : Structural g) :
    ∀ items : List Expr, items.map f = items.map g
  | [] => rfl
  | item :: items => by
    rw [List.map_cons, List.map_cons, Structural.unique hf hg item,
      Structural.map_unique hf hg items]

end

/-- The items of a list are written with commas between them. -/
theorem itemsText_eq_intercalate (items : List Expr) :
    itemsText items = ",".intercalate (items.map text) := by
  have htail : ∀ (item : Expr) (items : List Expr),
      item.text ++ tailText items = ",".intercalate ((item :: items).map text) := by
    intro item items
    induction items generalizing item with
    | nil => simp [tailText]
    | cons next items ih =>
      rw [List.map_cons, List.map_cons, String.intercalate_cons_cons, ← List.map_cons, ← ih next,
        tailText]
      simp [String.append_assoc]
  cases items with
  | nil => rfl
  | cons item items => exact htail item items

theorem structural_filter : Structural filter where
  word w := filter_eq (.word w)
  string s := filter_eq (.string s)
  number n := filter_eq (.number n)
  list items := by
    rw [filter_eq, text, itemsText_eq_intercalate]
    rw [show filter = text from funext filter_eq]
  binary left op right := by
    simp only [filter_eq, text, infixText, String.append_assoc]

/-! ### How many turns there are -/

mutual

/-- How many turns it takes to write an expression: one for itself, one for every parenthesis,
comma and symbol, and those of its parts. -/
def turns : Expr → Nat
  | .word _ | .string _ | .number _ => 1
  | .list items => itemsTurns items + (items.length - 1) + 3
  | .binary left _ right => left.turns + right.turns + 4

/-- How many turns it takes to write the items of a list, without the commas. -/
def itemsTurns : List Expr → Nat
  | [] => 0
  | item :: items => item.turns + itemsTurns items

end

end Expr

namespace Piece

/-- How many turns it takes to write pieces. -/
def turns : List Piece → Nat
  | [] => 0
  | .text _ :: ps => turns ps + 1
  | .expr e :: ps => e.turns + turns ps

theorem turns_append (ps qs : List Piece) : turns (ps ++ qs) = turns ps + turns qs := by
  induction ps with
  | nil => simp [turns]
  | cons p ps ih => cases p <;> simp only [List.cons_append, turns, ih] <;> omega

/-- The items of a list, with a comma between any two. -/
theorem turns_ofItems (items : List Expr) :
    turns (ofItems items) = Expr.itemsTurns items + (items.length - 1) := by
  have htail : ∀ items : List Expr, turns (items.flatMap fun e => [.text ",", .expr e]) =
      Expr.itemsTurns items + items.length := by
    intro items
    induction items with
    | nil => rfl
    | cons item items ih =>
      simp only [List.flatMap_cons, List.cons_append, List.nil_append, turns, ih, Expr.itemsTurns,
        List.length_cons]
      omega
  cases items with
  | nil => rfl
  | cons item items =>
    simp only [ofItems, turns, htail, Expr.itemsTurns, List.length_cons]
    omega

/-! ### One turn -/

/-- What is written, and the pieces still to come. -/
structure State where
  out : String
  pieces : List Piece

/-- One turn.  A text, a word, quoted text or a number is written; a list or an operator puts the
pieces that it is made of on the stack. -/
inductive Turn : State → State → Prop where
  | text (out s : String) (ps : List Piece) : Turn ⟨out, .text s :: ps⟩ ⟨out ++ s, ps⟩
  | word (out w : String) (ps : List Piece) :
      Turn ⟨out, .expr (.word w) :: ps⟩ ⟨out ++ Expr.bare w, ps⟩
  | string (out s : String) (ps : List Piece) :
      Turn ⟨out, .expr (.string s) :: ps⟩ ⟨out ++ Json.literal s, ps⟩
  | number (out n : String) (ps : List Piece) : Turn ⟨out, .expr (.number n) :: ps⟩ ⟨out ++ n, ps⟩
  | list (out : String) (items : List Expr) (ps : List Piece) :
      Turn ⟨out, .expr (.list items) :: ps⟩
        ⟨out, .text "(" :: (ofItems items ++ .text ")" :: ps)⟩
  | binary (out : String) (left : Expr) (op : Operator) (right : Expr) (ps : List Piece) :
      Turn ⟨out, .expr (.binary left op right) :: ps⟩
        ⟨out, .text "(" :: .expr left :: .text (Expr.infixText op) :: .expr right ::
          .text ")" :: ps⟩

namespace Turn

variable {s s₁ : State}

/-- While pieces are left there is a turn. -/
theorem exists_of_ne_nil (h : s.pieces ≠ []) : ∃ s', Turn s s' := by
  obtain ⟨out, _ | ⟨p, ps⟩⟩ := s
  · exact absurd rfl h
  · match p with
    | .text t => exact ⟨_, .text out t ps⟩
    | .expr (.word w) => exact ⟨_, .word out w ps⟩
    | .expr (.string t) => exact ⟨_, .string out t ps⟩
    | .expr (.number n) => exact ⟨_, .number out n ps⟩
    | .expr (.list items) => exact ⟨_, .list out items ps⟩
    | .expr (.binary left op right) => exact ⟨_, .binary out left op right ps⟩

/-- A turn does not change what will be written in the end. -/
theorem write_eq (h : Turn s s₁) : write s.out s.pieces = write s₁.out s₁.pieces := by
  cases h <;> simp only [write]

/-- **A turn leaves one turn less to do.** -/
theorem turns_eq (h : Turn s s₁) : turns s.pieces = turns s₁.pieces + 1 := by
  cases h with
  | text | word | string | number => simp only [turns, Expr.turns, Nat.add_comm]
  | list out items ps =>
    simp only [turns, Expr.turns, turns_append, turns_ofItems]
    omega
  | binary out left op right ps =>
    simp only [turns, Expr.turns]
    omega

end Turn

/-! ### All turns -/

/-- So many turns lead from one state to another. -/
inductive Turns : Nat → State → State → Prop where
  | none (s : State) : Turns 0 s s
  | more {n : Nat} {s s₁ s' : State} (h : Turn s s₁) (rest : Turns n s₁ s') : Turns (n + 1) s s'

/-- There is no way to go on for ever. -/
theorem wellFounded_turn : WellFounded fun s' s => Turn s s' := by
  refine Subrelation.wf (fun {s' s} h => ?_) (measure fun s : State => turns s.pieces).wf
  show turns s'.pieces < turns s.pieces
  rw [h.turns_eq]
  exact Nat.lt_succ_self _

/-- **The loop writes all pieces**, in as many turns as there are. -/
theorem turns_write (s : State) : Turns (turns s.pieces) s ⟨write s.out s.pieces, []⟩ := by
  induction s using wellFounded_turn.induction with
  | _ s ih =>
    by_cases hend : s.pieces = []
    · obtain ⟨out, pieces⟩ := s
      obtain rfl : pieces = [] := hend
      rw [write]
      exact .none _
    · obtain ⟨s', h⟩ := Turn.exists_of_ne_nil hend
      rw [h.turns_eq, h.write_eq]
      exact .more h (ih s' h)

/-- Where no piece is left, the turns were all there are, and all is written. -/
theorem Turns.of_end {n : Nat} {s s' : State} (h : Turns n s s') (hend : s'.pieces = []) :
    n = turns s.pieces ∧ s' = ⟨write s.out s.pieces, []⟩ := by
  induction h with
  | none s =>
    obtain ⟨out, pieces⟩ := s
    obtain rfl : pieces = [] := hend
    exact ⟨rfl, by rw [write]⟩
  | more h _ ih =>
    obtain ⟨hn, hs⟩ := ih hend
    exact ⟨by rw [hn, h.turns_eq], by rw [hs, h.write_eq]⟩

end Piece

/-- **The loop writes what recursion on the expression would, and it ends.**  The filter is the one
function that puts texts together from the texts of parts.  From a single expression, with nothing
written, the turns come to an end; they end where that filter is written and nothing is left, and
nowhere else, and there are as many of them as `Expr.turns` says. -/
theorem filter_structural (e : Expr) :
    (∀ text, Expr.Structural text ↔ text = Expr.filter) ∧
      Acc (fun s' s => Piece.Turn s s') ⟨"", [.expr e]⟩ ∧
      ∀ n s, Piece.Turns n ⟨"", [.expr e]⟩ s ∧ s.pieces = [] ↔
        n = e.turns ∧ s = ⟨e.filter, []⟩ := by
  refine ⟨fun text => ⟨fun h => ?_, fun h => h ▸ Expr.structural_filter⟩,
    Piece.wellFounded_turn.apply _, fun n s => ⟨fun ⟨h, hend⟩ => ?_, ?_⟩⟩
  · exact funext (h.unique Expr.structural_filter)
  · exact h.of_end hend
  · rintro ⟨rfl, rfl⟩
    exact ⟨Piece.turns_write ⟨"", [.expr e]⟩, rfl⟩

end SearchFilter
