import Mathlib.Tactic

/-!
Sums over a plane of discrete times. Rows are filled one after the other, each from its left end;
`rect` sums what stands in a rectangle, and `mixed` is the difference of a function of such sums
in both directions, which the rectangles sum up again.

A mixed difference vanishes where the row has been empty so far, and where the column is empty.
So whoever walks along a row meets every mixed difference that does not vanish if it stops at the
entries of the row and, from the first of them on, at the columns with something in the rows before.
`Due` is the invariant of such a walk, in which every stop notes the next column to stop at.
-/

namespace Feldera.NestedSum

open Finset

variable {M G : Type*}

section

variable [AddCommMonoid M]

/-- The sum over the first `o` rows and the first `i` columns. -/
def rect (w : ℕ → ℕ → M) (o i : ℕ) : M :=
  ∑ row ∈ range o, ∑ col ∈ range i, w row col

/-- The sum of the column `i` in the first `o` rows. -/
def column (w : ℕ → ℕ → M) (o i : ℕ) : M :=
  ∑ row ∈ range o, w row i

section

variable (w : ℕ → ℕ → M)
include w

@[simp] theorem rect_zero_right (o : ℕ) : rect w o 0 = 0 := by
  simp [rect]

variable (o i : ℕ)

theorem rect_succ_left : rect w (o + 1) i = rect w o i + ∑ col ∈ range i, w o col :=
  sum_range_succ _ o

theorem rect_succ_right : rect w o (i + 1) = rect w o i + column w o i := by
  simp only [rect, column, sum_range_succ, sum_add_distrib]

theorem column_succ : column w (o + 1) i = column w o i + w o i :=
  sum_range_succ _ o

end

theorem rect_congr {w w' : ℕ → ℕ → M} {o i : ℕ} (h : ∀ row < o, ∀ col < i, w row col = w' row col) :
    rect w o i = rect w' o i :=
  sum_congr rfl fun row hrow => sum_congr rfl fun col hcol =>
    h row (mem_range.mp hrow) col (mem_range.mp hcol)

/-- What is there when the walk is about to enter column `i` of row `o`. -/
def upTo (w : ℕ → ℕ → M) (o i : ℕ) : ℕ → ℕ → M := fun row col =>
  if row < o ∨ row = o ∧ col < i then w row col else 0

theorem upTo_zero (w : ℕ → ℕ → M) : upTo w 0 0 = fun _ _ => 0 := by
  funext row col
  exact if_neg (by omega)

theorem upTo_succ_left {w : ℕ → ℕ → M} {o i : ℕ} (hrest : ∀ col, i ≤ col → w o col = 0) :
    upTo w (o + 1) 0 = upTo w o i := by
  funext row col
  by_cases hend : row = o ∧ i ≤ col
  · have hzero : w row col = 0 := hend.1 ▸ hrest col hend.2
    simp [upTo, hzero]
  · exact if_congr (by omega) rfl rfl

variable (w : ℕ → ℕ → M)
include w

variable (o i row col : ℕ)

theorem upTo_succ_right :
    upTo w o (i + 1) row col = upTo w o i row col + if row = o ∧ col = i then w o i else 0 := by
  by_cases hhere : row = o ∧ col = i
  · obtain ⟨rfl, rfl⟩ := hhere
    simp [upTo]
  · rw [if_neg hhere, add_zero]
    exact if_congr (by omega) rfl rfl

theorem rect_upTo_succ_right :
    rect (upTo w o (i + 1)) row col =
      rect (upTo w o i) row col + if o < row ∧ i < col then w o i else 0 := by
  have hpoint : ∀ a, ∑ b ∈ range col, (if a = o ∧ b = i then w o i else 0) =
      if a = o then (if i < col then w o i else 0) else 0 := by
    intro a
    by_cases ha : a = o
    · simp [ha]
    · simp [ha]
  simp only [rect, upTo_succ_right, sum_add_distrib, hpoint]
  by_cases hrow : o < row
  · simp [hrow]
  · simp [hrow]

theorem rect_upTo_rows (o i col : ℕ) : rect (upTo w o i) o col = rect w o col :=
  rect_congr fun _ hrow _ _ => if_pos (Or.inl hrow)

theorem rect_upTo_row (o : ℕ) {i col : ℕ} (h : col ≤ i) :
    rect (upTo w o i) (o + 1) col = rect w (o + 1) col :=
  rect_congr fun _ _ _ _ => if_pos (by omega)

end

section

variable [AddCommGroup G]

/-- The difference of `F` in both directions. -/
def mixed (F : ℕ → ℕ → G) (o i : ℕ) : G :=
  (F (o + 1) (i + 1) - F (o + 1) i) - (F o (i + 1) - F o i)

/-- The rectangles sum the mixed differences up. -/
theorem rect_mixed {F : ℕ → ℕ → G} (hrow : ∀ i, F 0 i = 0) (hcol : ∀ o, F o 0 = 0) (o i : ℕ) :
    rect (mixed F) o i = F o i := by
  have hinner : ∀ row, ∑ col ∈ range i, mixed F row col = F (row + 1) i - F row i := by
    intro row
    calc
      ∑ col ∈ range i, mixed F row col =
          ∑ col ∈ range i, (F (row + 1) (col + 1) - F (row + 1) col) -
            ∑ col ∈ range i, (F row (col + 1) - F row col) := sum_sub_distrib _ _
      _ = F (row + 1) i - F row i := by
          rw [sum_range_sub, sum_range_sub, hcol, hcol, sub_zero, sub_zero]
  calc
    rect (mixed F) o i = ∑ row ∈ range o, (F (row + 1) i - F row i) :=
      sum_congr rfl fun row _ => hinner row
    _ = F o i := by rw [sum_range_sub (fun row => F row i), hrow, sub_zero]

/-- What is missing in a corner where everything before it is there. -/
theorem rect_upTo_of_mixed {a F : ℕ → ℕ → G} (hrow : ∀ i, F 0 i = 0) (hcol : ∀ o, F o 0 = 0)
    {o i : ℕ} (h : ∀ row col, row < o ∨ row = o ∧ col < i → a row col = mixed F row col) :
    rect (upTo a o i) (o + 1) (i + 1) = F (o + 1) (i + 1) - mixed F o i := by
  have hsame : upTo a o i = upTo (mixed F) o i := by
    funext row col
    by_cases hbefore : row < o ∨ row = o ∧ col < i
    · simp only [upTo, if_pos hbefore, h row col hbefore]
    · simp only [upTo, if_neg hbefore]
  have hfull := rect_upTo_succ_right (mixed F) o i (o + 1) (i + 1)
  rw [rect_upTo_row _ _ le_rfl, rect_mixed hrow hcol,
    if_pos ⟨Nat.lt_succ_self o, Nat.lt_succ_self i⟩] at hfull
  rw [hsame, hfull, add_sub_cancel_right]

/-- Times are reached in lexicographic order. -/
theorem lex_induction {P : ℕ → ℕ → Prop}
    (h : ∀ o i, (∀ row col, row < o ∨ row = o ∧ col < i → P row col) → P o i) (o i : ℕ) :
    P o i := by
  induction o using Nat.strong_induction_on generalizing i with
  | _ o iho =>
    induction i using Nat.strong_induction_on with
    | _ i ihi =>
      refine h o i fun row col hbefore => ?_
      rcases hbefore with hlt | ⟨rfl, hlt⟩
      · exact iho row hlt col
      · exact ihi col hlt

variable [AddCommMonoid M] {w : ℕ → ℕ → M} {F : ℕ → ℕ → G} {o i : ℕ}

/-- `F` depends on the sums of `w` only. -/
def Determined (w : ℕ → ℕ → M) (F : ℕ → ℕ → G) : Prop :=
  ∀ o i o' i', rect w o i = rect w o' i' → F o i = F o' i'

theorem mixed_eq_zero_of_row (hF : Determined w F) (hrow : ∀ col ≤ i, w o col = 0) :
    mixed F o i = 0 := by
  have hsum : ∀ n ≤ i + 1, F (o + 1) n = F o n := by
    intro n hn
    refine hF _ _ _ _ ?_
    rw [rect_succ_left, sum_eq_zero fun col hcol => hrow col ?_, add_zero]
    exact Nat.lt_succ_iff.mp (lt_of_lt_of_le (mem_range.mp hcol) hn)
  rw [mixed, hsum (i + 1) le_rfl, hsum i (Nat.le_succ i), sub_self]

theorem mixed_eq_zero_of_column (hF : Determined w F) (hcol : column w o i = 0)
    (hentry : w o i = 0) : mixed F o i = 0 := by
  have hnew : F (o + 1) (i + 1) = F (o + 1) i := by
    refine hF _ _ _ _ ?_
    rw [rect_succ_right, column_succ, hcol, hentry, add_zero, add_zero]
  have hold : F o (i + 1) = F o i := by
    refine hF _ _ _ _ ?_
    rw [rect_succ_right, hcol, add_zero]
  rw [mixed, hnew, hold, sub_self, sub_self, sub_self]

end

section

variable [AddCommMonoid M] {w : ℕ → ℕ → M} {noted noted' : ℕ → Prop} {o i : ℕ}

/-- The walk along row `o` is about to enter column `i`: if the row has had an entry, then up to
every column with something in the rows before, a column is noted to stop at. -/
def Due (w : ℕ → ℕ → M) (noted : ℕ → Prop) (o i : ℕ) : Prop :=
  (∃ col < i, w o col ≠ 0) → ∀ c, i ≤ c → column w o c ≠ 0 →
    ∃ stop, i ≤ stop ∧ stop ≤ c ∧ noted stop

theorem due_zero (w : ℕ → ℕ → M) (noted : ℕ → Prop) (o : ℕ) : Due w noted o 0 := by
  rintro ⟨col, hcol, -⟩
  exact absurd hcol (Nat.not_lt_zero col)

/-- A step of the walk: at a stop the next one is noted, and the notes for later columns stay. -/
theorem Due.step (h : Due w noted o i) (hkeep : ∀ c, i < c → noted c → noted' c)
    (hnext : w o i ≠ 0 ∨ noted i → ∀ c, i < c → column w o c ≠ 0 →
      ∃ stop, i < stop ∧ stop ≤ c ∧ noted' stop) : Due w noted' o (i + 1) := by
  rintro ⟨col, hcol, hentry⟩ c hc hsum
  by_cases hstop : w o i ≠ 0 ∨ noted i
  · exact hnext hstop c hc hsum
  obtain ⟨hzero, hnone⟩ := not_or.mp hstop
  have hlt : col < i := by
    refine lt_of_le_of_ne (Nat.lt_succ_iff.mp hcol) fun heq => hzero ?_
    rwa [heq] at hentry
  obtain ⟨stop, hfrom, hto, hnoted⟩ := h ⟨col, hlt, hentry⟩ c (Nat.le_of_succ_le hc) hsum
  have hgt : i < stop := lt_of_le_of_ne hfrom fun heq => hnone (heq ▸ hnoted)
  exact ⟨stop, hgt, hto, hkeep stop hgt hnoted⟩

variable [AddCommGroup G] {F : ℕ → ℕ → G}

/-- The walk stops wherever the mixed difference does not vanish. -/
theorem Due.stops (h : Due w noted o i) (hF : Determined w F) (hne : mixed F o i ≠ 0) :
    w o i ≠ 0 ∨ noted i := by
  by_contra hstop
  obtain ⟨hzero, hnone⟩ := not_or.mp hstop
  rw [not_not] at hzero
  refine hne ?_
  by_cases hrow : ∃ col < i, w o col ≠ 0
  · refine mixed_eq_zero_of_column hF ?_ hzero
    by_contra hsum
    obtain ⟨stop, hfrom, hto, hnoted⟩ := h hrow i le_rfl hsum
    exact hnone (le_antisymm hfrom hto ▸ hnoted)
  · refine mixed_eq_zero_of_row hF fun col hcol => ?_
    rcases Nat.lt_or_eq_of_le hcol with hlt | rfl
    · by_contra hentry
      exact hrow ⟨col, hlt, hentry⟩
    · exact hzero

/-- Where nothing is noted any more and no entry follows, no mixed difference follows. -/
theorem Due.mixed_eq_zero (h : Due w noted o i) (hF : Determined w F)
    (hnone : ∀ c, i ≤ c → ¬noted c) (hrest : ∀ c, i ≤ c → w o c = 0) {c : ℕ} (hc : i ≤ c) :
    mixed F o c = 0 := by
  by_cases hrow : ∃ col < i, w o col ≠ 0
  · refine mixed_eq_zero_of_column hF ?_ (hrest c hc)
    by_contra hsum
    obtain ⟨stop, hfrom, -, hnoted⟩ := h hrow c hc hsum
    exact hnone stop hfrom hnoted
  · refine mixed_eq_zero_of_row hF fun col _ => ?_
    by_contra hentry
    rcases Nat.lt_or_ge col i with hlt | hge
    · exact hrow ⟨col, hlt, hentry⟩
    · exact hentry (hrest col hge)

end

end Feldera.NestedSum
