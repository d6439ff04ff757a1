import Mathlib.Data.List.Infix

/-!
# Brackets

Which brackets match, told by counting them.  Some elements of a list open a bracket and others
close one; the braces of a block are such brackets, and the parentheses of a search.

In a `Balanced` list every bracket has its match.  The match of a bracket that opens stands behind a
balanced list; there is one where more brackets close behind it than open (`exists_match`), and
nothing that closes no more than it opens reaches beyond it (`length_le_of_match`).
-/

namespace SearchFilter.Brackets

section

variable {α : Type} (opens closes : α → Bool)

/-- No bracket closes more than `depth` brackets beside those that are opened before it. -/
def Within (depth : Nat) (xs : List α) : Prop :=
  ∀ p, p <+: xs → p.countP closes ≤ depth + p.countP opens

/-- Every bracket has its match. -/
def Balanced (xs : List α) : Prop :=
  Within opens closes 0 xs ∧ xs.countP closes = xs.countP opens

/-- At most `n` brackets are open at once. -/
def NestedWithin (n : Nat) (xs : List α) : Prop :=
  ∀ p, p <+: xs → p.countP opens ≤ n + p.countP closes

instance (depth : Nat) (xs : List α) : Decidable (Within opens closes depth xs) :=
  decidable_of_iff (∀ p ∈ xs.inits, p.countP closes ≤ depth + p.countP opens) (by simp [Within])

instance (xs : List α) : Decidable (Balanced opens closes xs) :=
  inferInstanceAs (Decidable (Within opens closes 0 xs ∧ xs.countP closes = xs.countP opens))

instance (n : Nat) (xs : List α) : Decidable (NestedWithin opens closes n xs) :=
  decidable_of_iff (∀ p ∈ xs.inits, p.countP opens ≤ n + p.countP closes) (by simp [NestedWithin])

end

variable {α : Type} {opens closes : α → Bool} {depth : Nat} {x : α} {xs as bs : List α}

/-! ### Counting -/

/-- An element that opens a bracket. -/
theorem count_open (ho : opens x = true) (hc : closes x = false) (xs : List α) :
    (x :: xs).countP opens = xs.countP opens + 1 ∧ (x :: xs).countP closes = xs.countP closes :=
  ⟨List.countP_cons_of_pos ho, List.countP_cons_of_neg (by simp [hc])⟩

/-- An element that closes a bracket. -/
theorem count_close (ho : opens x = false) (hc : closes x = true) (xs : List α) :
    (x :: xs).countP opens = xs.countP opens ∧ (x :: xs).countP closes = xs.countP closes + 1 :=
  ⟨List.countP_cons_of_neg (by simp [ho]), List.countP_cons_of_pos hc⟩

/-- Any other element. -/
theorem count_other (ho : opens x = false) (hc : closes x = false) (xs : List α) :
    (x :: xs).countP opens = xs.countP opens ∧ (x :: xs).countP closes = xs.countP closes :=
  ⟨List.countP_cons_of_neg (by simp [ho]), List.countP_cons_of_neg (by simp [hc])⟩

/-! ### Parts of lists -/

theorem within_nil (depth : Nat) : Within opens closes depth [] := by
  intro p hp
  simp [List.prefix_nil.mp hp]

theorem Within.closed_le (h : Within opens closes depth xs) :
    xs.countP closes ≤ depth + xs.countP opens :=
  h xs List.prefix_rfl

theorem within_append :
    Within opens closes depth (as ++ bs) ↔ Within opens closes depth as ∧
      ∀ p, p <+: bs → (as ++ p).countP closes ≤ depth + (as ++ p).countP opens := by
  constructor
  · intro h
    refine ⟨fun p hp => h p (hp.trans (List.prefix_append as bs)), fun p hp => h (as ++ p) ?_⟩
    exact (List.prefix_append_right_inj as).mpr hp
  · rintro ⟨has, hbs⟩ p hp
    rcases List.prefix_or_prefix_of_prefix hp (List.prefix_append as bs) with hp' | ⟨q, rfl⟩
    · exact has p hp'
    · exact hbs q ((List.prefix_append_right_inj as).mp hp)

/-- What closes nothing outside may stand behind what closes nothing outside. -/
theorem Within.append (has : Within opens closes 0 as) (hbs : Within opens closes 0 bs) :
    Within opens closes 0 (as ++ bs) := by
  refine within_append.mpr ⟨has, fun p hp => ?_⟩
  have := has.closed_le
  have := hbs p hp
  simp only [List.countP_append]
  omega

theorem within_cons :
    Within opens closes depth (x :: xs) ↔
      ∀ p, p <+: xs → (x :: p).countP closes ≤ depth + (x :: p).countP opens := by
  constructor
  · intro h p hp
    exact h (x :: p) (List.cons_prefix_cons.mpr ⟨rfl, hp⟩)
  · intro h p hp
    rcases List.prefix_cons_iff.mp hp with rfl | ⟨q, rfl, hq⟩
    · simp
    · exact h q hq

theorem within_open (ho : opens x = true) (hc : closes x = false) :
    Within opens closes depth (x :: xs) ↔ Within opens closes (depth + 1) xs := by
  rw [within_cons]
  refine forall₂_congr fun p _ => ?_
  have := count_open ho hc p
  omega

theorem within_close (ho : opens x = false) (hc : closes x = true) :
    Within opens closes (depth + 1) (x :: xs) ↔ Within opens closes depth xs := by
  rw [within_cons]
  refine forall₂_congr fun p _ => ?_
  have := count_close ho hc p
  omega

theorem within_other (ho : opens x = false) (hc : closes x = false) :
    Within opens closes depth (x :: xs) ↔ Within opens closes depth xs := by
  rw [within_cons]
  refine forall₂_congr fun p _ => ?_
  have := count_other ho hc p
  omega

/-- A bracket that closes too much. -/
theorem not_within_close (ho : opens x = false) (hc : closes x = true) :
    ¬ Within opens closes 0 (x :: xs) := by
  intro h
  have hclose := within_cons.mp h [] List.nil_prefix
  simp [ho, hc] at hclose

/-! ### Matches -/

/-- Where more brackets close than open and are open before, one of them closes the outermost. -/
theorem exists_close (hdisjoint : ∀ x, opens x = true → closes x = false) (depth : Nat)
    (xs : List α) (h : depth + xs.countP opens < xs.countP closes) :
    ∃ inside closing after, xs = inside ++ closing :: after ∧ Within opens closes depth inside ∧
      inside.countP closes = depth + inside.countP opens ∧ closes closing = true := by
  induction xs generalizing depth with
  | nil => simp at h
  | cons x xs ih =>
    cases ho : opens x with
    | true =>
      have hc := hdisjoint x ho
      have hcount := count_open ho hc xs
      obtain ⟨inside, closing, after, rfl, hin, heq, hclosing⟩ := ih (depth + 1) (by omega)
      have hcount' := count_open ho hc inside
      exact ⟨x :: inside, closing, after, rfl, (within_open ho hc).mpr hin, by omega, hclosing⟩
    | false =>
      cases hc : closes x with
      | true =>
        have hcount := count_close ho hc xs
        cases depth with
        | zero => exact ⟨[], x, xs, rfl, within_nil 0, rfl, hc⟩
        | succ depth =>
          obtain ⟨inside, closing, after, rfl, hin, heq, hclosing⟩ := ih depth (by omega)
          have hcount' := count_close ho hc inside
          exact ⟨x :: inside, closing, after, rfl, (within_close ho hc).mpr hin, by omega,
            hclosing⟩
      | false =>
        have hcount := count_other ho hc xs
        obtain ⟨inside, closing, after, rfl, hin, heq, hclosing⟩ := ih depth (by omega)
        have hcount' := count_other ho hc inside
        exact ⟨x :: inside, closing, after, rfl, (within_other ho hc).mpr hin, by omega, hclosing⟩

/-- Where more brackets close than open, one of them matches a bracket in front. -/
theorem exists_match (hdisjoint : ∀ x, opens x = true → closes x = false)
    (h : xs.countP opens < xs.countP closes) :
    ∃ inside closing after, xs = inside ++ closing :: after ∧ Balanced opens closes inside ∧
      closes closing = true := by
  obtain ⟨inside, closing, after, hxs, hin, hcount, hclosing⟩ :=
    exists_close hdisjoint 0 xs (by omega)
  exact ⟨inside, closing, after, hxs, ⟨hin, by omega⟩, hclosing⟩

section

variable {read inside after rest : List α} {last closing : α}

/-- What closes nothing outside does not reach beyond a match. -/
theorem length_le_of_match (hinside : Balanced opens closes inside)
    (ho : opens closing = false) (hc : closes closing = true) (hread : Within opens closes 0 read)
    (h : read ++ rest = inside ++ closing :: after) : read.length ≤ inside.length := by
  by_contra hlen
  -- Otherwise the match stands in what was read, where one bracket too many closes.
  have hprefix : inside ++ [closing] <+: read := by
    refine List.prefix_of_prefix_length_le ⟨after, ?_⟩ (List.prefix_append read rest) ?_
    · rw [h, List.append_assoc, List.singleton_append]
    · simp only [List.length_append, List.length_singleton]
      omega
  have hwithin := hread _ hprefix
  have hcount := count_close ho hc []
  have heq := hinside.2
  simp only [List.countP_append, List.countP_nil] at hwithin hcount
  omega

/-- What stands behind a match stands behind all that closes nothing outside. -/
theorem suffix_of_match (hinside : Balanced opens closes inside)
    (ho : opens closing = false) (hc : closes closing = true) (hread : Within opens closes 0 read)
    (h : read ++ last :: rest = inside ++ closing :: after) : after <:+ rest := by
  have hle := length_le_of_match hinside ho hc hread h
  have hlen := congrArg List.length h
  simp only [List.length_append, List.length_cons] at hlen
  have hafter : after <:+ read ++ last :: rest := ⟨inside ++ [closing], by simp [h]⟩
  have hrest : rest <:+ read ++ last :: rest := ⟨read ++ [last], by simp⟩
  exact List.suffix_of_suffix_length_le hafter hrest (by omega)

/-- A bracket that closes behind all that closes nothing outside is the match exactly if all that
opens there is closed. -/
theorem eq_match_iff (hinside : Balanced opens closes inside)
    (ho : opens closing = false) (hc : closes closing = true) (hread : Within opens closes 0 read)
    (ho' : opens last = false) (hc' : closes last = true)
    (h : read ++ last :: rest = inside ++ closing :: after) :
    rest = after ↔ read.countP closes = read.countP opens := by
  constructor
  · rintro rfl
    have hsame : read = inside := List.append_inj_left' h rfl
    exact hsame ▸ hinside.2
  · intro heq
    have hle := length_le_of_match hinside ho hc hread h
    have hge := length_le_of_match ⟨hread, heq⟩ ho' hc' hinside.1 h.symm
    exact (List.cons.inj (List.append_inj_right h (Nat.le_antisymm hle hge))).2

end

end SearchFilter.Brackets
