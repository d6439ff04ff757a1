import SearchFilter.Proofs.Brackets
import SearchFilter.Token.Lexeme
import Mathlib.Data.List.TakeWhile

/-!
# Runs of characters

What the readers of quoted text, words, blocks and numbers take, said without the readers.

* `Run`: text with backslashes, up to the first unescaped stop or to the end.
* `Balanced`, `Within`: braces that match, and braces of which none closes too much.
* `IsNumber`: digits and at most one point, beginning with a digit.

For each there are two theorems: such a run is read as it is (`Run.takeUntil_eq`,
`takeBlock_balanced` and `takeBlock_within`, `takeNumber_isNumber`), and what is read is such a run
(`run_takeUntil`, `blockRead_takeBlock`, `isNumber_takeNumber`).
-/

namespace SearchFilter.Token

/-! ### Text with backslashes -/

/-- `Run stop rest written text`: the characters `written`, in front of `rest`, write `text`.  A
backslash is dropped and the character behind it kept; the run ends at the first unescaped stop, or
at the end, where a backslash may have no character behind it. -/
inductive Run (stop : Char → Bool) (rest : List Char) : List Char → List Char → Prop where
  | done (h : ∀ c ∈ rest.head?, stop c = true) : Run stop rest [] []
  | plain {c : Char} {written text : List Char} (hc : stop c = false) (hb : c ≠ '\\')
      (h : Run stop rest written text) : Run stop rest (c :: written) (c :: text)
  | escaped {c : Char} {written text : List Char} (h : Run stop rest written text) :
      Run stop rest ('\\' :: c :: written) (c :: text)
  | dangling (h : rest = []) : Run stop rest ['\\'] []

theorem takeUntil_stop {stop : Char → Bool} {c : Char} (hc : stop c = true) (cs : List Char) :
    takeUntil stop (c :: cs) = ([], c :: cs) := by
  rw [takeUntil.eq_def]
  exact if_pos hc

theorem takeUntil_plain {stop : Char → Bool} {c : Char} (hc : stop c = false) (hb : c ≠ '\\')
    (cs : List Char) :
    takeUntil stop (c :: cs) = (c :: (takeUntil stop cs).1, (takeUntil stop cs).2) := by
  rw [takeUntil.eq_def]
  simp only [hc, Bool.false_eq_true, if_false, hb]

theorem takeUntil_escaped {stop : Char → Bool} (hstop : stop '\\' = false) (c : Char)
    (cs : List Char) :
    takeUntil stop ('\\' :: c :: cs) = (c :: (takeUntil stop cs).1, (takeUntil stop cs).2) := by
  rw [takeUntil.eq_def]
  simp only [hstop, Bool.false_eq_true, if_false, if_true]

theorem takeUntil_dangling {stop : Char → Bool} (hstop : stop '\\' = false) :
    takeUntil stop ['\\'] = ([], []) := by
  rw [takeUntil.eq_def]
  simp only [hstop, Bool.false_eq_true, if_false, if_true]

/-- A run is read as its text. -/
theorem Run.takeUntil_eq {stop : Char → Bool} {rest written text : List Char}
    (hstop : stop '\\' = false) (h : Run stop rest written text) :
    takeUntil stop (written ++ rest) = (text, rest) := by
  induction h with
  | done h =>
    cases rest with
    | nil => rfl
    | cons c cs => exact takeUntil_stop (h c rfl) cs
  | plain hc hb _ ih => rw [List.cons_append, takeUntil_plain hc hb, ih]
  | escaped _ ih => rw [List.cons_append, List.cons_append, takeUntil_escaped hstop, ih]
  | dangling h =>
    subst h
    exact takeUntil_dangling hstop

/-- What is read up to a stop is a run. -/
theorem run_takeUntil (stop : Char → Bool) (cs : List Char) :
    ∃ written, cs = written ++ (takeUntil stop cs).2 ∧
      Run stop (takeUntil stop cs).2 written (takeUntil stop cs).1 := by
  fun_induction takeUntil stop cs with
  | case1 => exact ⟨[], rfl, .done (by simp)⟩
  | case2 c cs hc => exact ⟨[], rfl, .done (by rintro d ⟨⟩; exact hc)⟩
  | case3 => exact ⟨['\\'], rfl, .dangling rfl⟩
  | case4 e es _ run ih =>
    obtain ⟨written, hes, h⟩ := ih
    exact ⟨'\\' :: e :: written, by rw [List.cons_append, List.cons_append, ← hes], .escaped h⟩
  | case5 c cs hc hb run ih =>
    obtain ⟨written, hcs, h⟩ := ih
    exact ⟨c :: written, by rw [List.cons_append, ← hcs], .plain (by simpa using hc) hb h⟩

/-- A run ends at a stop or at the end. -/
theorem Run.stops {stop : Char → Bool} {rest written text : List Char}
    (h : Run stop rest written text) : ∀ c ∈ rest.head?, stop c = true := by
  induction h with
  | done h => exact h
  | plain _ _ _ ih => exact ih
  | escaped _ ih => exact ih
  | dangling h =>
    subst h
    exact nofun

/-- Characters of which none stops and none is a backslash may stand in front of a run. -/
theorem Run.plain_append {stop : Char → Bool} {cs rest written text : List Char}
    (hcs : ∀ c ∈ cs, stop c = false ∧ c ≠ '\\') (h : Run stop rest written text) :
    Run stop rest (cs ++ written) (cs ++ text) := by
  induction cs with
  | nil => exact h
  | cons c cs ih =>
    obtain ⟨⟨hstop, hb⟩, hcs⟩ := List.forall_mem_cons.mp hcs
    exact .plain hstop hb (ih hcs)

/-! ### Braces -/

/-- No brace closes more than `depth` braces beside those that are opened before it. -/
def Within (depth : Nat) (cs : List Char) : Prop :=
  ∀ p, p <+: cs → p.count '}' ≤ depth + p.count '{'

/-- Every brace has its match. -/
def Balanced (cs : List Char) : Prop := Within 0 cs ∧ cs.count '}' = cs.count '{'

/-- Braces are brackets. -/
theorem within_iff {depth : Nat} {cs : List Char} :
    Within depth cs ↔ Brackets.Within (· == '{') (· == '}') depth cs := Iff.rfl

instance (depth : Nat) (cs : List Char) : Decidable (Within depth cs) :=
  decidable_of_iff _ within_iff.symm

instance (cs : List Char) : Decidable (Balanced cs) :=
  inferInstanceAs (Decidable (Within 0 cs ∧ cs.count '}' = cs.count '{'))

/-- With `depth` braces open before `cs`, `k` are open behind it, and none closes too much. -/
def Leaves (depth k : Nat) (cs : List Char) : Prop :=
  Within depth cs ∧ k + cs.count '}' = depth + cs.count '{'

theorem leaves_nil {depth k : Nat} : Leaves depth k [] ↔ k = depth :=
  ⟨fun h => by simpa using h.2, fun h => ⟨Brackets.within_nil depth, by simpa using h⟩⟩

theorem leaves_open {depth k : Nat} {cs : List Char} :
    Leaves depth k ('{' :: cs) ↔ Leaves (depth + 1) k cs := by
  refine and_congr (Brackets.within_open rfl rfl) ?_
  rw [List.count_cons_self, List.count_cons_of_ne (by decide)]
  omega

theorem leaves_close {depth k : Nat} {cs : List Char} :
    Leaves (depth + 1) k ('}' :: cs) ↔ Leaves depth k cs := by
  refine and_congr (Brackets.within_close rfl rfl) ?_
  rw [List.count_cons_self, List.count_cons_of_ne (by decide)]
  omega

theorem leaves_other {depth k : Nat} {c : Char} {cs : List Char} (ho : c ≠ '{') (hc : c ≠ '}') :
    Leaves depth k (c :: cs) ↔ Leaves depth k cs := by
  refine and_congr (Brackets.within_other (by simpa using ho) (by simpa using hc)) ?_
  rw [List.count_cons_of_ne ho, List.count_cons_of_ne hc]

/-- A brace that closes too much. -/
theorem not_leaves_close (k : Nat) (cs : List Char) : ¬ Leaves 0 k ('}' :: cs) :=
  fun h => Brackets.not_within_close rfl rfl (within_iff.mp h.1)

theorem takeBlock_other {c : Char} (ho : c ≠ '{') (hc : c ≠ '}') (depth : Nat)
    (cs : List Char) :
    takeBlock depth (c :: cs) = (c :: (takeBlock depth cs).1, (takeBlock depth cs).2) := by
  rw [takeBlock] <;> intros <;> contradiction

/-- What closes nothing outside is read as it is, and reading goes on behind it with the braces
that it leaves open. -/
theorem takeBlock_append {depth k : Nat} {cs : List Char} (h : Leaves depth k cs)
    (rest : List Char) :
    takeBlock depth (cs ++ rest) = (cs ++ (takeBlock k rest).1, (takeBlock k rest).2) := by
  induction cs generalizing depth with
  | nil =>
    obtain rfl := leaves_nil.mp h
    rfl
  | cons c cs ih =>
    by_cases ho : c = '{'
    · subst ho
      rw [List.cons_append, takeBlock, ih (leaves_open.mp h)]
      rfl
    by_cases hc : c = '}'
    · subst hc
      cases depth with
      | zero => exact absurd h (not_leaves_close k cs)
      | succ depth =>
        rw [List.cons_append, takeBlock, ih (leaves_close.mp h)]
        rfl
    · rw [List.cons_append, takeBlock_other ho hc, ih ((leaves_other ho hc).mp h)]
      rfl

/-- A block is read up to the brace that matches the one before it. -/
theorem takeBlock_balanced {cs : List Char} (h : Balanced cs) (rest : List Char) :
    takeBlock 0 (cs ++ '}' :: rest) = (cs, rest) := by
  have hleaves : Leaves 0 0 cs := ⟨h.1, by rw [h.2]⟩
  rw [takeBlock_append hleaves, takeBlock, List.append_nil]

/-- A block that is not closed is read to the end. -/
theorem takeBlock_within {cs : List Char} (h : Within 0 cs) : takeBlock 0 cs = (cs, []) := by
  obtain ⟨k, hk⟩ := Nat.le.dest (h cs List.prefix_rfl)
  have hleaves : Leaves 0 k cs := ⟨h, by omega⟩
  have hread := takeBlock_append hleaves []
  rw [List.append_nil] at hread
  rw [hread, takeBlock, List.append_nil]

/-- What a block reads: up to the brace that leaves nothing open, or everything. -/
def BlockRead (depth : Nat) (cs : List Char) (run : List Char × List Char) : Prop :=
  Leaves depth 0 run.1 ∧ cs = run.1 ++ '}' :: run.2 ∨
    (∃ k, Leaves depth k run.1) ∧ cs = run.1 ∧ run.2 = []

/-- One more character in front. -/
theorem BlockRead.cons {depth depth' : Nat} {c : Char} {cs : List Char}
    {run : List Char × List Char}
    (hc : ∀ k, Leaves depth k run.1 → Leaves depth' k (c :: run.1)) (h : BlockRead depth cs run) :
    BlockRead depth' (c :: cs) (c :: run.1, run.2) := by
  rcases h with ⟨hleaves, hcs⟩ | ⟨⟨k, hleaves⟩, hcs, hrest⟩
  · exact .inl ⟨hc 0 hleaves, by rw [List.cons_append, ← hcs]⟩
  · exact .inr ⟨⟨k, hc k hleaves⟩, by rw [← hcs], hrest⟩

/-- What is read of a block leaves nothing open, or ends with the text. -/
theorem blockRead_takeBlock (depth : Nat) (cs : List Char) :
    BlockRead depth cs (takeBlock depth cs) := by
  fun_induction takeBlock depth cs with
  | case1 depth => exact .inr ⟨⟨depth, leaves_nil.mpr rfl⟩, rfl, rfl⟩
  | case2 cs => exact .inl ⟨leaves_nil.mpr rfl, rfl⟩
  | case3 depth cs run ih => exact ih.cons fun _ => leaves_close.mpr
  | case4 depth cs run ih => exact ih.cons fun _ => leaves_open.mpr
  | case5 depth c cs h₀ h₁ ho run ih =>
    have hc : c ≠ '}' := by
      intro hc
      cases depth with
      | zero => exact h₀ rfl hc
      | succ depth => exact h₁ depth rfl hc
    exact ih.cons fun _ => (leaves_other ho hc).mpr

/-! ### Numbers -/

/-- Digits and at most one point, beginning with a digit. -/
def IsNumber (cs : List Char) : Prop :=
  (∃ c ∈ cs.head?, c.isDigit = true) ∧ (∀ c ∈ cs, c.isDigit = true ∨ c = '.') ∧ cs.count '.' ≤ 1

/-- A run of characters of a class, in front of one that is not of the class, is all that is
taken. -/
theorem takeWhile_run {p : Char → Bool} {run rest : List Char} (hrun : ∀ c ∈ run, p c = true)
    (hrest : ∀ c ∈ rest.head?, p c = false) :
    (run ++ rest).takeWhile p = run ∧ (run ++ rest).dropWhile p = rest := by
  rw [List.takeWhile_append_of_pos hrun, List.dropWhile_append_of_pos hrun]
  cases rest with
  | nil => simp
  | cons c cs =>
    have hc : p c = false := hrest c rfl
    simp [hc]

theorem takeNumber_whole {whole rest : List Char} (hwhole : ∀ c ∈ whole, c.isDigit = true)
    (hrest : ∀ c ∈ rest.head?, c.isDigit = false) (hpoint : ∀ c ∈ rest.head?, c ≠ '.') :
    takeNumber (whole ++ rest) = (whole, rest) := by
  obtain ⟨htake, hdrop⟩ := takeWhile_run hwhole hrest
  rw [takeNumber, htake, hdrop]
  split
  · exact absurd rfl (hpoint '.' rfl)
  · rfl

theorem takeNumber_fraction {whole fraction rest : List Char}
    (hwhole : ∀ c ∈ whole, c.isDigit = true) (hfraction : ∀ c ∈ fraction, c.isDigit = true)
    (hrest : ∀ c ∈ rest.head?, c.isDigit = false) :
    takeNumber (whole ++ '.' :: (fraction ++ rest)) = (whole ++ '.' :: fraction, rest) := by
  have hpoint : ∀ c ∈ ('.' :: (fraction ++ rest)).head?, c.isDigit = false := by
    rintro c ⟨⟩
    rfl
  obtain ⟨htake, hdrop⟩ := takeWhile_run hwhole hpoint
  obtain ⟨htake', hdrop'⟩ := takeWhile_run hfraction hrest
  rw [takeNumber, htake, hdrop]
  simp only [htake', hdrop']

/-- A number goes on with a digit, or with a point where it has none. -/
theorem isNumber_append_singleton {cs : List Char} {c : Char} (h : IsNumber cs) :
    IsNumber (cs ++ [c]) ↔ c.isDigit = true ∨ c = '.' ∧ '.' ∉ cs := by
  obtain ⟨hhead, hall, hcount⟩ := h
  have hhead' : ∃ d ∈ (cs ++ [c]).head?, d.isDigit = true := by
    obtain ⟨d, hd, hdigit⟩ := hhead
    exact ⟨d, by simp [List.head?_append, Option.mem_def.mp hd], hdigit⟩
  have hpoint : ('.' : Char).isDigit = false := rfl
  constructor
  · rintro ⟨-, hall', hcount'⟩
    refine (hall' c (by simp)).imp_right fun hc => ⟨hc, fun hmem => ?_⟩
    have := List.count_pos_iff.mpr hmem
    subst hc
    rw [List.count_append, List.count_singleton_self] at hcount'
    omega
  · intro hc
    refine ⟨hhead', fun d hd => ?_, ?_⟩
    · rcases List.mem_append.mp hd with hd | hd
      · exact hall d hd
      · rw [List.mem_singleton.mp hd]
        exact hc.imp_right And.left
    · rcases hc with hc | ⟨rfl, hmem⟩
      · have hne : c ≠ '.' := fun h => by rw [h, hpoint] at hc; cases hc
        rwa [List.count_append, List.count_singleton, if_neg (by simpa using hne), Nat.add_zero]
      · simp [List.count_append, List.count_eq_zero.mpr hmem]

/-- A number is digits, or digits, a point and digits. -/
theorem IsNumber.cases {cs : List Char} (h : IsNumber cs) :
    (∀ c ∈ cs, c.isDigit = true) ∧ '.' ∉ cs ∨ ∃ whole fraction, cs = whole ++ '.' :: fraction ∧
      (∀ c ∈ whole, c.isDigit = true) ∧ ∀ c ∈ fraction, c.isDigit = true := by
  obtain ⟨-, hall, hcount⟩ := h
  have digits : ∀ ds : List Char, (∀ c ∈ ds, c.isDigit = true ∨ c = '.') → '.' ∉ ds →
      ∀ c ∈ ds, c.isDigit = true := fun ds hds hpoint c hc =>
    (hds c hc).resolve_right fun h => hpoint (h ▸ hc)
  -- A point may stand at one place only, so the characters on both sides of it are digits.
  by_cases hpoint : '.' ∈ cs
  · obtain ⟨whole, fraction, rfl, hwhole⟩ := List.eq_append_cons_of_mem hpoint
    have hfraction : '.' ∉ fraction := by
      intro hmem
      have := List.count_pos_iff.mpr hmem
      rw [List.count_append, List.count_cons_self] at hcount
      omega
    refine .inr ⟨whole, fraction, rfl, digits whole (fun c hc => hall c ?_) hwhole,
      digits fraction (fun c hc => hall c ?_) hfraction⟩
    · exact List.mem_append_left _ hc
    · exact List.mem_append_right _ (List.mem_cons_of_mem _ hc)
  · exact .inl ⟨digits cs hall hpoint, hpoint⟩

/-- A number that cannot go on is read as it is. -/
theorem takeNumber_isNumber {cs rest : List Char} (h : IsNumber cs)
    (hend : ∀ c ∈ rest.head?, ¬ IsNumber (cs ++ [c])) : takeNumber (cs ++ rest) = (cs, rest) := by
  have hdigit : ∀ c ∈ rest.head?, c.isDigit = false := fun c hc => by
    have := hend c hc
    rw [isNumber_append_singleton h, not_or] at this
    simpa using this.1
  rcases h.cases with ⟨hall, hpoint⟩ | ⟨whole, fraction, rfl, hwhole, hfraction⟩
  · refine takeNumber_whole hall hdigit fun c hc hdot => ?_
    exact hend c hc ((isNumber_append_singleton h).mpr (.inr ⟨hdot, hpoint⟩))
  · rw [List.append_assoc, List.cons_append]
    exact takeNumber_fraction hwhole hfraction hdigit

theorem isNumber_whole {whole : List Char} (hne : whole ≠ [])
    (hwhole : ∀ c ∈ whole, c.isDigit = true) : IsNumber whole ∧ '.' ∉ whole := by
  have hpoint : '.' ∉ whole := fun hmem => nomatch hwhole '.' hmem
  obtain ⟨c, cs, rfl⟩ := List.exists_cons_of_ne_nil hne
  refine ⟨⟨⟨c, rfl, hwhole c List.mem_cons_self⟩, fun d hd => .inl (hwhole d hd), ?_⟩, hpoint⟩
  rw [List.count_eq_zero.mpr hpoint]
  exact Nat.zero_le 1

theorem isNumber_fraction {whole fraction : List Char} (hne : whole ≠ [])
    (hwhole : ∀ c ∈ whole, c.isDigit = true) (hfraction : ∀ c ∈ fraction, c.isDigit = true) :
    IsNumber (whole ++ '.' :: fraction) := by
  have hpoint : '.' ∉ fraction := fun hmem => nomatch hfraction '.' hmem
  obtain ⟨hnumber, hpoint'⟩ := isNumber_whole hne hwhole
  obtain ⟨c, cs, rfl⟩ := List.exists_cons_of_ne_nil hne
  refine ⟨⟨c, rfl, hwhole c List.mem_cons_self⟩, fun d hd => ?_, ?_⟩
  · rcases List.mem_append.mp hd with hd | hd
    · exact .inl (hwhole d hd)
    · exact (List.mem_cons.mp hd).symm.imp_left (hfraction d)
  · rw [List.count_append, List.count_cons_self, List.count_eq_zero.mpr hpoint,
      List.count_eq_zero.mpr hpoint']

theorem head?_dropWhile_isDigit (cs : List Char) :
    ∀ c ∈ (cs.dropWhile Char.isDigit).head?, c.isDigit = false := by
  intro c hc
  have hstop := List.head?_dropWhile_not Char.isDigit cs
  rwa [Option.mem_def.mp hc] at hstop

/-- What is read from a digit on is a number that cannot go on. -/
theorem isNumber_takeNumber {c : Char} (hc : c.isDigit = true) (cs : List Char) :
    c :: cs = (takeNumber (c :: cs)).1 ++ (takeNumber (c :: cs)).2 ∧
      IsNumber (takeNumber (c :: cs)).1 ∧
      ∀ d ∈ (takeNumber (c :: cs)).2.head?, ¬ IsNumber ((takeNumber (c :: cs)).1 ++ [d]) := by
  have hsplit := List.takeWhile_append_dropWhile (p := Char.isDigit) (l := c :: cs)
  have hne : (c :: cs).takeWhile Char.isDigit ≠ [] := by simp [hc]
  have hwhole : ∀ d ∈ (c :: cs).takeWhile Char.isDigit, d.isDigit = true :=
    fun d hd => List.mem_takeWhile_imp hd
  have hstop := head?_dropWhile_isDigit (c :: cs)
  -- Digits, and what stops them: a point with more digits behind it, or anything else.
  unfold takeNumber
  generalize (c :: cs).takeWhile Char.isDigit = whole at hsplit hne hwhole ⊢
  generalize (c :: cs).dropWhile Char.isDigit = tail at hsplit hstop ⊢
  split
  · next rest =>
    have hfraction : ∀ d ∈ rest.takeWhile Char.isDigit, d.isDigit = true :=
      fun d hd => List.mem_takeWhile_imp hd
    have hnumber := isNumber_fraction hne hwhole hfraction
    refine ⟨?_, hnumber, fun d hd => ?_⟩
    · rw [← hsplit, List.append_assoc, List.cons_append, List.takeWhile_append_dropWhile]
    · rw [isNumber_append_singleton hnumber, head?_dropWhile_isDigit rest d hd]
      simp
  · next hpoint =>
    obtain ⟨hnumber, -⟩ := isNumber_whole hne hwhole
    refine ⟨hsplit.symm, hnumber, fun d hd => ?_⟩
    rw [isNumber_append_singleton hnumber, hstop d hd]
    rintro (hdigit | ⟨rfl, -⟩)
    · cases hdigit
    · obtain ⟨rest, rfl⟩ := List.head?_eq_some_iff.mp hd
      exact hpoint rest rfl

end SearchFilter.Token
