import SearchFilter.Proofs.Literal
import SearchFilter.Proofs.Regular

/-!
# Filters are closed

A filter leaves no parenthesis open and closes none that it did not open, and the parentheses of an
operator or a list enclose the whole of it (`compile_closed`); so a filter can stand in a longer one
as a single operand.  Parentheses inside string literals do not count.  Words are written as they
are, so none of them may hold a parenthesis or a quote, and neither may the fallback field.

Parentheses are counted by a `Reader` that goes over a filter from the left and keeps track of
whether it is in a literal.  The invariant is that a part of a filter brings the reader back to
where it was, and never below the depth it came with (`Reader.Keeps`).  Enclosing a part that is
kept gives one that is kept (`Reader.Keeps.enclose`): parentheses enclose in this way, the quotes of
a literal do, and so do a backslash and the character behind it.
-/

namespace SearchFilter

/-! ### Counting parentheses outside literals -/

/-- Where a reader of a filter is: outside its literals, in one, or behind a backslash in one. -/
inductive Reader.Place where
  | outside | inside | escaped
  deriving DecidableEq, Repr

/-- A reader of a filter, and the number of parentheses that are open around it. -/
structure Reader where
  place : Reader.Place := .outside
  depth : Int := 0
  deriving DecidableEq, Repr

namespace Reader

/-- The reader behind one more character. -/
def next (r : Reader) (c : Char) : Reader :=
  match r.place with
  | .outside =>
    if c = '"' then { r with place := .inside }
    else if c = '(' then { r with depth := r.depth + 1 }
    else if c = ')' then { r with depth := r.depth - 1 }
    else r
  | .inside =>
    if c = '"' then { r with place := .outside }
    else if c = '\\' then { r with place := .escaped }
    else r
  | .escaped => { r with place := .inside }

/-- The reader behind a text. -/
def read (r : Reader) (cs : List Char) : Reader := cs.foldl next r

variable {r inner : Reader} {a b c : Char} {as bs cs p : List Char}

@[simp]
theorem read_nil (r : Reader) : r.read [] = r := rfl

@[simp]
theorem read_cons (r : Reader) (c : Char) (cs : List Char) :
    r.read (c :: cs) = (r.next c).read cs := rfl

theorem read_append (r : Reader) (as bs : List Char) : r.read (as ++ bs) = (r.read as).read bs :=
  List.foldl_append

/-- The text brings the reader back to where it was, and closes no parenthesis around it. -/
structure Keeps (r : Reader) (cs : List Char) : Prop where
  read_eq : r.read cs = r
  le_depth : ∀ p, p <+: cs → r.depth ≤ (r.read p).depth

namespace Keeps

theorem nil (r : Reader) : r.Keeps [] where
  read_eq := rfl
  le_depth p hp := Int.le_of_eq (by rw [List.prefix_nil.mp hp, read_nil])

theorem cons (hc : r.next c = r) (h : r.Keeps cs) : r.Keeps (c :: cs) where
  read_eq := by rw [read_cons, hc, h.read_eq]
  le_depth p hp := by
    rcases List.prefix_cons_iff.mp hp with rfl | ⟨q, rfl, hq⟩
    · exact Int.le_refl _
    · rw [read_cons, hc]
      exact h.le_depth q hq

theorem append (has : r.Keeps as) (hbs : r.Keeps bs) : r.Keeps (as ++ bs) where
  read_eq := by rw [read_append, has.read_eq, hbs.read_eq]
  le_depth p hp := by
    rcases List.prefix_or_prefix_of_prefix hp (List.prefix_append as bs) with hp' | ⟨q, rfl⟩
    · exact has.le_depth p hp'
    · rw [read_append, has.read_eq]
      exact hbs.le_depth q ((List.prefix_append_right_inj as).mp hp)

/-- Characters that the reader passes over. -/
theorem of_next_eq (h : ∀ c ∈ cs, r.next c = r) : r.Keeps cs := by
  induction cs with
  | nil => exact nil r
  | cons c cs ih =>
    exact cons (h c List.mem_cons_self) (ih fun d hd => h d (List.mem_cons_of_mem c hd))

/-- Two characters that undo each other keep the reader in between them where the first has brought
it, up to the last character. -/
theorem le_depth_enclosed (ha : r.next a = inner) (h : inner.Keeps cs)
    (hp : p <+: a :: (cs ++ [b])) (hne : p ≠ []) (hproper : p ≠ a :: (cs ++ [b])) :
    inner.depth ≤ (r.read p).depth := by
  rcases List.prefix_cons_iff.mp hp with rfl | ⟨q, rfl, hq⟩
  · exact absurd rfl hne
  · rw [read_cons, ha]
    rcases List.prefix_concat_iff.mp hq with rfl | hq
    · exact absurd rfl hproper
    · exact h.le_depth q hq

/-- What is kept is kept in between two characters that undo each other. -/
theorem enclose (inner : Reader) (ha : r.next a = inner) (hb : inner.next b = r)
    (hle : r.depth ≤ inner.depth) (h : inner.Keeps cs) : r.Keeps (a :: (cs ++ [b])) := by
  have hread : r.read (a :: (cs ++ [b])) = r := by
    rw [read_cons, ha, read_append, h.read_eq, read_cons, hb, read_nil]
  refine ⟨hread, fun p hp => ?_⟩
  by_cases hne : p = []
  · exact Int.le_of_eq (by rw [hne, read_nil])
  by_cases hproper : p = a :: (cs ++ [b])
  · exact Int.le_of_eq (by rw [hproper, hread])
  · exact Int.le_trans hle (le_depth_enclosed ha h hp hne hproper)

end Keeps

/-! ### Parts of filters -/

/-- The characters that a reader outside literals heeds. -/
def isDelimiter (c : Char) : Bool := c = '(' || c = ')' || c = '"'

/-- A text without delimiters. -/
def Undelimited (text : String) : Prop := ∀ c ∈ text.toList, isDelimiter c = false

-- The instance says how to look through a text: there are too many characters to try them all.
instance (text : String) : Decidable (Undelimited text) :=
  decidable_of_iff (text.toList.all (!isDelimiter ·) = true) (by simp [Undelimited])

theorem next_outside (n : Int) (hc : isDelimiter c = false) :
    next ⟨.outside, n⟩ c = ⟨.outside, n⟩ := by
  simp only [isDelimiter, Bool.or_eq_false_iff, decide_eq_false_iff_not] at hc
  simp [next, hc]

theorem next_inside (n : Int) (hquote : c ≠ '"') (hbackslash : c ≠ '\\') :
    next ⟨.inside, n⟩ c = ⟨.inside, n⟩ := by
  simp [next, hquote, hbackslash]

theorem keeps_plain (n : Int) (h : ∀ c ∈ cs, isDelimiter c = false) :
    Keeps ⟨.outside, n⟩ cs :=
  .of_next_eq fun c hc => next_outside n (h c hc)

theorem keeps_parens (h : ∀ n, Keeps ⟨.outside, n⟩ cs) (n : Int) :
    Keeps ⟨.outside, n⟩ ('(' :: (cs ++ [')'])) := by
  refine .enclose ⟨.outside, n + 1⟩ rfl ?_ ?_ (h (n + 1))
  · simp [next]
  · show n ≤ n + 1
    omega

/-- A character is escaped without ending the literal it stands in. -/
theorem keeps_escape (n : Int) (c : Char) : Keeps ⟨.inside, n⟩ (Json.escape c) := by
  rcases Json.escape_cases c with ⟨hescape, hquote, hbackslash⟩ | ⟨d, code, hescape, hcode⟩
  · rw [hescape]
    exact .cons (next_inside n hquote hbackslash) (.nil _)
  · have pair : Keeps ⟨.inside, n⟩ ['\\', d] :=
      .enclose ⟨.escaped, n⟩ rfl rfl (Int.le_refl n) (.nil _)
    rw [hescape]
    exact pair.append (.of_next_eq fun e he => next_inside n (hcode e he).1 (hcode e he).2)

/-- A literal is read up to its last quote, whatever its text. -/
theorem keeps_literal (n : Int) (text : String) :
    Keeps ⟨.outside, n⟩ (Json.literal text).toList := by
  have hbody (cs : List Char) : Keeps ⟨.inside, n⟩ (cs.flatMap Json.escape) := by
    induction cs with
    | nil => exact .nil _
    | cons c cs ih => exact (keeps_escape n c).append ih
  rw [Json.toList_literal]
  exact .enclose ⟨.inside, n⟩ rfl rfl (Int.le_refl n) (hbody text.toList)

end Reader

/-! ### Filters of expressions -/

namespace Expr

open Reader (Keeps Undelimited isDelimiter)

/-- A list, or two expressions joined by an operator. -/
def isCompound : Expr → Bool
  | .list _ | .binary _ _ _ => true
  | _ => false

theorem keeps_bare (n : Int) {word : String} (h : Undelimited word) :
    Keeps ⟨.outside, n⟩ (bare word).toList := by
  refine Reader.keeps_plain n fun c hc => h c ?_
  rw [bare, String.toList_ofList] at hc
  exact List.mem_of_mem_filter hc

theorem keeps_number (n : Int) {text : String} (h : Token.IsNumber text.toList) :
    Keeps ⟨.outside, n⟩ text.toList := by
  refine Reader.keeps_plain n fun c hc => ?_
  by_contra hdelim
  simp only [isDelimiter, Bool.not_eq_false, Bool.or_eq_true, decide_eq_true_eq, or_assoc] at hdelim
  rcases h.2.1 c hc with hd | rfl
  · rcases hdelim with rfl | rfl | rfl <;> cases hd
  · rcases hdelim with h | h | h <;> cases h

theorem keeps_infixText (n : Int) (op : Operator.Kind) :
    Keeps ⟨.outside, n⟩ (infixText { kind := op }).toList := by
  have hplain : Undelimited (infixText { kind := op }) := by cases op <;> decide
  exact Reader.keeps_plain n hplain

/-- The filter of an expression stands in a longer one as a single operand: a reader comes out of it
as it went in, and in the filter of a compound expression it is in parentheses all the way. -/
structure Closed (e : Expr) : Prop where
  keeps : ∀ n, Keeps ⟨.outside, n⟩ e.text.toList
  enclosed : e.isCompound = true → ∃ body, e.text.toList = '(' :: (body ++ [')']) ∧
    ∀ n, Keeps ⟨.outside, n⟩ body

theorem closed_of_parens {e : Expr} (body : List Char) (he : e.text.toList = '(' :: (body ++ [')']))
    (hbody : ∀ n, Keeps ⟨.outside, n⟩ body) : e.Closed where
  keeps n := he ▸ Reader.keeps_parens hbody n
  enclosed _ := ⟨body, he, hbody⟩

theorem closed_word {word : String} (h : Undelimited word) : (Expr.word word).Closed :=
  ⟨fun n => keeps_bare n h, nofun⟩

theorem closed_string (text : String) : (Expr.string text).Closed :=
  ⟨fun n => Reader.keeps_literal n text, nofun⟩

theorem closed_number {number : String} (h : Token.IsNumber number.toList) :
    (Expr.number number).Closed :=
  ⟨fun n => keeps_number n h, nofun⟩

theorem closed_binary {left right : Expr} (op : Operator.Kind) (hleft : left.Closed)
    (hright : right.Closed) : (Expr.binary left { kind := op } right).Closed := by
  refine closed_of_parens
    (left.text.toList ++ ((infixText { kind := op }).toList ++ right.text.toList)) ?_ fun n => ?_
  · rw [toList_text_binary, List.append_assoc, List.append_assoc]
  · exact (hleft.keeps n).append ((keeps_infixText n op).append (hright.keeps n))

theorem keeps_tailText (n : Int) {items : List Expr} (h : ∀ e ∈ items, e.Closed) :
    Keeps ⟨.outside, n⟩ (tailText items).toList := by
  induction items with
  | nil => exact .nil _
  | cons item items ih =>
    rw [toList_tailText_cons]
    have hitem := (h item List.mem_cons_self).keeps n
    exact .cons rfl (hitem.append (ih fun e he => h e (List.mem_cons_of_mem item he)))

theorem closed_list {items : List Expr} (h : ∀ e ∈ items, e.Closed) : (Expr.list items).Closed := by
  refine closed_of_parens _ (toList_text_list items) fun n => ?_
  cases items with
  | nil => exact .nil _
  | cons item items =>
    rw [toList_itemsText_cons]
    have hitem := (h item List.mem_cons_self).keeps n
    exact hitem.append (keeps_tailText n fun e he => h e (List.mem_cons_of_mem item he))

/-- What is built of the tokens of a text is closed, where no word and no block holds a
delimiter. -/
theorem Built.closed {field text : String} {e : Expr} (h : Built field (Token.lex text) e)
    (hwords : ∀ t ∈ Token.lex text, t.kind = .word ∨ t.kind = .preserved → Undelimited t.text)
    (hfield : Undelimited field) : e.Closed := by
  refine h.elim (fun w hw => closed_word ?_) closed_string (fun _ => closed_number)
    (fun _ _ => closed_list) (fun _ op _ _ => closed_binary op)
  rcases hw with rfl | ⟨t, ht, hk, rfl⟩
  · exact hfield
  · exact hwords t ht hk

/-- Inside a compound expression a reader is in one more parenthesis. -/
theorem Closed.lt_depth {e : Expr} (h : e.Closed) (he : e.isCompound = true) (n : Int)
    {p : List Char} (hp : p <+: e.text.toList) (hne : p ≠ []) (hproper : p ≠ e.text.toList) :
    n < ((Reader.mk .outside n).read p).depth := by
  obtain ⟨body, htext, hbody⟩ := h.enclosed he
  rw [htext] at hp hproper
  have hopen : Reader.next ⟨.outside, n⟩ '(' = ⟨.outside, n + 1⟩ := rfl
  exact Keeps.le_depth_enclosed hopen (hbody (n + 1)) hp hne hproper

end Expr

/-! ### Filters of queries -/

namespace Query

/-- The reader of a whole filter, behind a text. -/
def readerAt (cs : List Char) : Reader := Reader.read {} cs

/-- **Filters are closed.**  Outside string literals no prefix of a filter closes more than it opens
and the whole filter closes all of it; the parentheses of a compound expression enclose its filter;
and behind any text that ends outside literals, a filter leaves the reader where it was. -/
theorem compile_closed {o : Search.Options} {text filter : String} {e : Expr}
    (hparse : parse o text = .ok e) (hcompile : compile o text = .ok filter)
    (hwords : ∀ t ∈ Token.lex text, t.kind = .word ∨ t.kind = .preserved →
      Reader.Undelimited t.text)
    (hfield : Reader.Undelimited o.fallbackField) :
    (∀ p, p <+: filter.toList → 0 ≤ (readerAt p).depth) ∧
      (readerAt filter.toList).depth = 0 ∧
      (e.isCompound = true → (∃ body, filter.toList = '(' :: (body ++ [')'])) ∧
        ∀ p, p <+: filter.toList → p ≠ [] → p ≠ filter.toList → 1 ≤ (readerAt p).depth) ∧
      ∀ before, (readerAt before).place = .outside →
        readerAt (before ++ filter.toList) = readerAt before ∧
          ∀ p, p <+: filter.toList → p ≠ [] → p ≠ filter.toList →
            (readerAt before).depth ≤ (readerAt (before ++ p)).depth ∧
              (e.isCompound = true →
                (readerAt before).depth < (readerAt (before ++ p)).depth) := by
  have hclosed : e.Closed := (Search.built_of_parse hparse).closed hwords hfield
  obtain rfl := eq_text_of_compile hparse hcompile
  refine ⟨(hclosed.keeps 0).le_depth, congrArg Reader.depth (hclosed.keeps 0).read_eq,
    fun he => ⟨?_, fun p => hclosed.lt_depth he 0⟩, fun before hplace => ?_⟩
  · obtain ⟨body, htext, -⟩ := hclosed.enclosed he
    exact ⟨body, htext⟩
  · have hbefore : readerAt before = ⟨.outside, (readerAt before).depth⟩ := by
      rw [← hplace]
    have happend (cs : List Char) : readerAt (before ++ cs) = (readerAt before).read cs :=
      Reader.read_append {} before cs
    generalize (readerAt before).depth = n at hbefore
    simp only [happend, hbefore]
    exact ⟨(hclosed.keeps n).read_eq, fun p hp hne hproper =>
      ⟨(hclosed.keeps n).le_depth p hp, fun he => hclosed.lt_depth he n hp hne hproper⟩⟩

/-- Parentheses, quotes and a line end in literals, and a list with a colon behind it. -/
theorem compile_closed_literals :
    let e : Expr := .binary (.binary (.binary (.word "t") { kind := .similar } (.string ")\"("))
      { kind := .and } (.list [.number "7", .string ";(\n"]))
      { kind := .or } (.fallback "en_title" "b")
    let filter := "(((t LIKE \")\\\"(\") AND (7,\";(\\n\")) OR (en_title LIKE \"b\"))"
    parse {} "t ~ ')\"(' & ( 7 : ';(\n' : ) | b" = .ok e ∧
      compile {} "t ~ ')\"(' & ( 7 : ';(\n' : ) | b" = .ok filter ∧
      (readerAt filter.toList).depth = 0 ∧
      ∀ p, p <+: filter.toList → p ≠ [] → p ≠ filter.toList → 1 ≤ (readerAt p).depth := by
  intro e filter
  have hparse : parse {} "t ~ ')\"(' & ( 7 : ';(\n' : ) | b" = .ok e := by decide +kernel
  have hcompile : compile {} "t ~ ')\"(' & ( 7 : ';(\n' : ) | b" = .ok filter := by
    decide +kernel
  have hclosed := compile_closed hparse hcompile (by decide +kernel) (by decide)
  exact ⟨hparse, hcompile, hclosed.2.1, (hclosed.2.2.1 rfl).2⟩

end Query

end SearchFilter
