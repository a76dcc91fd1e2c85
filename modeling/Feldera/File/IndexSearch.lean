import Feldera.File.BlockSearch
import Mathlib.Data.List.GetD

/-!
Index blocks against the rows below them: the rows of each child, the row that each bound is
the key of, and what the two searches of an index block find.
-/

namespace Feldera.File

open Algebra Nat RowRange

variable {K A : Type}

namespace IndexBlock

variable (b : IndexBlock K)

def total (i : Nat) : Nat := b.rowTotals.getD i 0

def low (i : Nat) : Nat := if i = 0 then 0 else b.total (i - 1)

def childRows (i : Nat) : RowRange :=
  ⟨b.firstRow + b.low i, b.firstRow + b.total i⟩

/-- The row, in the column, that bound `j` is the key of. -/
def boundRow (j : Nat) : Nat :=
  if j % 2 = 0 then (b.childRows (j / 2)).start else (b.childRows (j / 2)).stop - 1

/-- An index block describes the rows `rows` of a column with the items `items`. -/
structure Holds (b : IndexBlock K) (items : List (K × A)) (rows : RowRange) : Prop where
  firstRow : b.firstRow = rows.start
  start_le : rows.start ≤ rows.stop
  stop_le : rows.stop ≤ items.length
  children_pos : 0 < b.nChildren
  length_rowTotals : b.rowTotals.length = b.nChildren
  rowTotals_pos : ∀ n ∈ b.rowTotals, 0 < n
  rowTotals_sorted : b.rowTotals.Pairwise (· < ·)
  nRows : b.nRows = .ok rows.len
  bounds : ∀ i, i < b.nChildren →
    b.bounds[2 * i]? = (items[(b.childRows i).start]?).map Prod.fst ∧
      b.bounds[2 * i + 1]? = (items[(b.childRows i).stop - 1]?).map Prod.fst

namespace Holds

variable {b : IndexBlock K} {items : List (K × A)} {rows target : RowRange} {i j row : Nat}
  {compare : K → Ordering} {bias : Ordering}

section

variable (h : b.Holds items rows)
include h

theorem nth_rowTotals (hi : i < b.nChildren) : nth b.rowTotals i = .ok (b.total i) := by
  have hlt : i < b.rowTotals.length := h.length_rowTotals ▸ hi
  rw [nth_eq_ok_iff, total, List.getD_eq_getElem _ _ hlt, List.getElem?_eq_getElem hlt]

theorem total_lt (hij : i < j) (hj : j < b.nChildren) : b.total i < b.total j := by
  have hlt : j < b.rowTotals.length := h.length_rowTotals ▸ hj
  rw [total, total, List.getD_eq_getElem _ _ hlt, List.getD_eq_getElem _ _ (hij.trans hlt)]
  exact List.pairwise_iff_getElem.mp h.rowTotals_sorted i j _ _ hij

theorem total_pos (hi : i < b.nChildren) : 0 < b.total i := by
  have hlt : i < b.rowTotals.length := h.length_rowTotals ▸ hi
  rw [total, List.getD_eq_getElem _ _ hlt]
  exact h.rowTotals_pos _ (List.getElem_mem hlt)

theorem low_lt_total (hi : i < b.nChildren) : b.low i < b.total i := by
  unfold low
  split
  · exact h.total_pos hi
  · exact h.total_lt (by omega) hi

theorem total_le_low (hij : i < j) (hj : j < b.nChildren) : b.total i ≤ b.low j := by
  rw [low, if_neg (by omega)]
  obtain rfl | hlt := eq_or_lt_of_le (show i ≤ j - 1 by omega)
  · exact le_rfl
  · exact (h.total_lt hlt (by omega)).le

theorem total_last : b.total (b.nChildren - 1) = rows.len := by
  have hpos := h.children_pos
  have hn : nth b.rowTotals (b.nChildren - 1) = .ok rows.len := by
    have := h.nRows
    rwa [IndexBlock.nRows, h.length_rowTotals] at this
  rw [h.nth_rowTotals (by omega)] at hn
  exact Except.ok.inj hn

theorem total_le (hi : i < b.nChildren) : b.total i ≤ rows.len := by
  rw [← h.total_last]
  obtain rfl | hlt := eq_or_lt_of_le (show i ≤ b.nChildren - 1 by omega)
  · exact le_rfl
  · exact (h.total_lt hlt (by omega)).le

theorem rows_eq : b.rows = .ok rows := by
  have hle := h.start_le
  rw [IndexBlock.rows, h.nRows, h.firstRow]
  simp only [bind, Except.bind, pure, Except.pure, len]
  rw [Nat.add_sub_cancel' hle]

theorem getRows_eq (hi : i < b.nChildren) : b.getRows i = .ok (b.childRows i) := by
  unfold getRows childRows low
  by_cases h0 : i = 0
  · simp only [if_pos h0, h.nth_rowTotals hi, bind, Except.bind, pure, Except.pure]
  · simp only [if_neg h0, h.nth_rowTotals hi, h.nth_rowTotals (show i - 1 < b.nChildren by omega),
      bind, Except.bind, pure, Except.pure]

theorem childRows_bounds (hi : i < b.nChildren) :
    rows.start ≤ (b.childRows i).start ∧ (b.childRows i).start < (b.childRows i).stop ∧
      (b.childRows i).stop ≤ rows.stop := by
  have h₁ := h.low_lt_total hi
  have h₂ := h.total_le hi
  simp only [childRows, h.firstRow, len] at *
  omega

theorem childRows_ordered (hij : i < j) (hj : j < b.nChildren) :
    (b.childRows i).stop ≤ (b.childRows j).start := by
  have := h.total_le_low hij hj
  simp only [childRows]
  omega

end

theorem childRows_first (b : IndexBlock K) : (b.childRows 0).start = b.firstRow := by
  simp [childRows, low]

theorem childRows_last (h : b.Holds items rows) :
    (b.childRows (b.nChildren - 1)).stop = rows.stop := by
  have := h.start_le
  simp only [childRows, h.total_last, h.firstRow, len]
  omega

theorem childRows_adjacent (b : IndexBlock K) (i : Nat) :
    (b.childRows (i + 1)).start = (b.childRows i).stop := by
  simp [childRows, low]

theorem exists_child (h : b.Holds items rows) (hrow : rows.contains row) :
    ∃ i, i < b.nChildren ∧ (b.childRows i).contains row := by
  have hlast : row < (b.childRows (b.nChildren - 1)).stop := by
    rw [h.childRows_last]
    exact hrow.2
  have hex : ∃ i, row < (b.childRows i).stop := ⟨_, hlast⟩
  have hlt : Nat.find hex < b.nChildren := by
    have := Nat.find_min' hex hlast
    have := h.children_pos
    omega
  refine ⟨Nat.find hex, hlt, ?_, Nat.find_spec hex⟩
  cases hn : Nat.find hex with
  | zero =>
    rw [childRows_first, h.firstRow]
    exact hrow.1
  | succ n =>
    rw [childRows_adjacent]
    exact Nat.le_of_not_lt (Nat.find_min hex (by omega))

theorem child_unique (h : b.Holds items rows) (hi : i < b.nChildren) (hj : j < b.nChildren)
    (hrow : (b.childRows i).contains row) (hrow' : (b.childRows j).contains row) : i = j := by
  have h₁ := hrow.1
  have h₂ := hrow.2
  have h₃ := hrow'.1
  have h₄ := hrow'.2
  obtain hlt | heq | hlt := lt_trichotomy i j
  · have := h.childRows_ordered hlt hj
    omega
  · exact heq
  · have := h.childRows_ordered hlt hi
    omega

/-- How `findRow` judges a child: children after the row answer less. -/
def childClass (b : IndexBlock K) (row i : Nat) : Ordering :=
  if row < (b.childRows i).start then .lt
  else if (b.childRows i).stop ≤ row then .gt
  else .eq

section

variable (h : b.Holds items rows)
include h

theorem rowProbe_eq (hi : i < b.nChildren) (u : Unit) :
    b.rowProbe row i u = .ok (childClass b row i, ()) := by
  simp only [rowProbe, h.getRows_eq hi, childClass, bind, Except.bind, pure, Except.pure]
  split
  · rfl
  · split <;> rfl

theorem childClass_descends (row : Nat) : Descends (childClass b row) 0 b.nChildren := by
  refine DescendsStrictly.descends fun i j _ hij hj hne => ?_
  have hordered := h.childRows_ordered hij hj
  have hbounds := h.childRows_bounds (hij.trans hj)
  grind [childClass]

theorem findRow_eq (hi : i < b.nChildren) (hrow : (b.childRows i).contains row) :
    b.findRow row = .ok i := by
  have heq : childClass b row i = .eq := by
    simp [childClass, not_lt.mpr hrow.1, not_le.mpr hrow.2]
  obtain ⟨r, j, hr, hbest, hj, hjeq⟩ := bisect_equal b.nChildren (s := ⟨none, 0, ()⟩)
    (h.childClass_descends row)
    (fun i u _ hi => ⟨(), h.rowProbe_eq hi u⟩) le_rfl (zero_le i) hi heq
  have hrow' : (b.childRows j).contains row := by grind [childClass, contains]
  obtain rfl := h.child_unique hi hj hrow hrow'
  simp only [findRow, hr, hbest, bind, Except.bind, pure, Except.pure]

/-- The row that a bound is the key of belongs to the child of the bound. -/
theorem childRows_contains_boundRow (hj : j < 2 * b.nChildren) :
    (b.childRows (j / 2)).contains (b.boundRow j) := by
  have := (h.childRows_bounds (show j / 2 < b.nChildren by omega)).2.1
  unfold boundRow contains
  split <;> omega

theorem rows_contains_boundRow (hj : j < 2 * b.nChildren) : rows.contains (b.boundRow j) := by
  have h₁ := h.childRows_bounds (show j / 2 < b.nChildren by omega)
  have h₂ := h.childRows_contains_boundRow hj
  simp only [contains] at *
  omega

theorem boundRow_mono (hij : i < j) (hj : j < 2 * b.nChildren) : b.boundRow i ≤ b.boundRow j := by
  have h₁ := h.childRows_contains_boundRow (hij.trans hj)
  have h₂ := h.childRows_contains_boundRow hj
  obtain hlt | heq := lt_or_eq_of_le (show i / 2 ≤ j / 2 by omega)
  · have := h.childRows_ordered hlt (by omega)
    simp only [contains] at *
    omega
  have hi2 : i % 2 = 0 := by omega
  have hj2 : j % 2 ≠ 0 := by omega
  have := (h.childRows_bounds (show j / 2 < b.nChildren by omega)).2.1
  simp only [boundRow, heq, if_pos hi2, if_neg hj2]
  omega

variable (hj : j < 2 * b.nChildren)
include hj

theorem getRowBound_eq : ∃ r, b.getRowBound j = .ok r ∧ r + b.firstRow = b.boundRow j := by
  unfold getRowBound boundRow
  have hlow := h.low_lt_total (show j / 2 < b.nChildren by omega)
  by_cases h0 : j = 0
  · subst h0
    exact ⟨0, rfl, by simp [childRows, low]⟩
  rw [if_neg h0]
  by_cases hodd : j % 2 = 1
  · rw [if_pos hodd, if_neg (by omega), h.nth_rowTotals (by omega)]
    refine ⟨b.total (j / 2) - 1, if_neg (by omega), ?_⟩
    simp only [childRows]
    omega
  · rw [if_neg hodd, if_pos (by omega), h.nth_rowTotals (by omega)]
    refine ⟨b.total (j / 2 - 1), rfl, ?_⟩
    simp only [childRows, low, if_neg (show j / 2 ≠ 0 by omega)]
    omega

theorem getBound_eq : ∃ x, items[b.boundRow j]? = some x ∧ b.getBound j = .ok x.1 := by
  have hrow := h.rows_contains_boundRow hj
  have hlt : b.boundRow j < items.length := lt_of_lt_of_le hrow.2 h.stop_le
  refine ⟨_, List.getElem?_eq_getElem hlt, ?_⟩
  obtain ⟨hmin, hmax⟩ := h.bounds (j / 2) (by omega)
  rw [getBound, nth_eq_ok_iff]
  by_cases heven : j % 2 = 0
  · have hb : b.boundRow j = (b.childRows (j / 2)).start := by simp [boundRow, heven]
    rw [show 2 * (j / 2) = j by omega, ← hb, List.getElem?_eq_getElem hlt] at hmin
    exact hmin
  · have hb : b.boundRow j = (b.childRows (j / 2)).stop - 1 := by simp [boundRow, heven]
    rw [show 2 * (j / 2) + 1 = j by omega, ← hb, List.getElem?_eq_getElem hlt] at hmax
    exact hmax

theorem probe_eq (key : K) : ∃ key', b.probe target compare j key =
      .ok (rowClass items target compare (b.boundRow j), key') := by
  obtain ⟨r, hr, hrow⟩ := h.getRowBound_eq hj
  obtain ⟨x, hx, hbound⟩ := h.getBound_eq hj
  simp only [probe, hr, hrow, bind, Except.bind, rowClass, hx]
  cases target.compare (b.boundRow j) with
  | eq => exact ⟨x.1, by simp only [hbound, pure, Except.pure]⟩
  | lt => exact ⟨key, rfl⟩
  | gt => exact ⟨key, rfl⟩

end

section

variable (h : b.Holds items rows) (hb : Sided bias)
  (hd : DescendsStrictly (rowClass items target compare) rows.start rows.stop)
include h hd

theorem boundClass_descends :
    Descends (fun j => rowClass items target compare (b.boundRow j)) 0 (2 * b.nChildren) := by
  have hcases : ∀ i j, i < j → j < 2 * b.nChildren →
      b.boundRow i = b.boundRow j ∨
        (rowClass items target compare (b.boundRow i) ≠ .gt →
          rowClass items target compare (b.boundRow j) = .lt) := by
    intro i j hij hj
    obtain heq | hlt := eq_or_lt_of_le (h.boundRow_mono hij hj)
    · exact .inl heq
    · exact .inr (hd _ _ (h.rows_contains_boundRow (hij.trans hj)).1 hlt
        (h.rows_contains_boundRow hj).2)
  constructor
  · intro i j _ hij hj hne
    obtain heq | hlt := hcases i j hij hj
    · rwa [← heq]
    · simp [hlt hne]
  · intro i j _ hij hj hi
    obtain heq | hlt := hcases i j hij hj
    · rwa [← heq]
    · exact hlt (by simp [hi])

variable (hb : Sided bias)
include hb

/-- If bound `j` is the best of all bounds, the best row lies below the child of `j`. -/
theorem best_child_of_best_bound
    (hbest : Best (fun j => rowClass items target compare (b.boundRow j)) bias 0
      (2 * b.nChildren) j) :
    ∃ r, (b.childRows (j / 2)).contains r ∧
      Best (rowClass items target compare) bias rows.start rows.stop r := by
  have hj := hbest.lt
  have hrow := h.rows_contains_boundRow hj
  obtain ⟨r, hr, hside⟩ := Best.of_hit hb hrow.1 hrow.2 hbest.hit
  refine ⟨r, ?_, hr⟩
  have hchild := h.childRows_contains_boundRow hj
  have hr₁ := hr.le
  have hr₂ := hr.lt
  obtain rfl | rfl := hb
  · -- the bound before the child is greater, so the first match is not before the child
    have hle : r ≤ b.boundRow j := Nat.le_of_not_lt hside
    refine ⟨?_, lt_of_le_of_lt hle hchild.2⟩
    cases hc : j / 2 with
    | zero =>
      rw [childRows_first, h.firstRow]
      exact hr₁
    | succ c =>
      rw [childRows_adjacent]
      by_contra hlt
      have hprev : rowClass items target compare (b.boundRow (2 * c + 1)) = .gt :=
        hbest.ahead (2 * c + 1) (zero_le _) (by omega) (show 2 * c + 1 < j by omega)
      have hprevRow : b.boundRow (2 * c + 1) = (b.childRows c).stop - 1 := by
        simp [boundRow, show (2 * c + 1) / 2 = c by omega]
      exact hr.hit (hd.descends.gt_before hr₁ (by omega)
        (h.rows_contains_boundRow (by omega)).2 hprev)
  · have hle : b.boundRow j ≤ r := Nat.le_of_not_lt hside
    refine ⟨hchild.1.trans hle, ?_⟩
    by_contra hge
    have hnext : j / 2 + 1 < b.nChildren := by
      by_contra hlast
      rw [show j / 2 = b.nChildren - 1 by omega, h.childRows_last] at hge
      omega
    have hnextRow : b.boundRow (2 * (j / 2 + 1)) = (b.childRows (j / 2)).stop := by
      rw [← childRows_adjacent]
      simp [boundRow]
    have hnextClass : rowClass items target compare (b.boundRow (2 * (j / 2 + 1))) = .lt :=
      hbest.ahead _ (zero_le _) (by omega) (show j < 2 * (j / 2 + 1) by omega)
    exact hr.hit (hd.descends.lt_after (h.rows_contains_boundRow (by omega)).1 (by omega) hr₂
      hnextClass)

/-- If no bound matches, no row of the block does. -/
theorem no_match_of_bounds
    (hall : ∀ j, j < 2 * b.nChildren → rowClass items target compare (b.boundRow j) = bias.swap)
    (hrow : rows.contains row) : rowClass items target compare row = bias.swap := by
  have hpos := h.children_pos
  obtain rfl | rfl := hb
  · have hlast : b.boundRow (2 * b.nChildren - 1) = rows.stop - 1 := by
      rw [← h.childRows_last]
      simp [boundRow, show (2 * b.nChildren - 1) % 2 ≠ 0 by omega,
        show (2 * b.nChildren - 1) / 2 = b.nChildren - 1 by omega]
    have hlt := hrow.2
    exact hd.descends.gt_before hrow.1 (by omega) (h.rows_contains_boundRow (by omega)).2
      (hall (2 * b.nChildren - 1) (by omega))
  · have hfirst : b.boundRow 0 = rows.start := by
      simp [boundRow, childRows_first, h.firstRow]
    exact hd.descends.lt_after (h.rows_contains_boundRow (by omega)).1 (hfirst ▸ hrow.1) hrow.2
      (hall 0 (by omega))

/-- The search in an index block finds the child with the best row of the block. -/
theorem findBestMatch_eq (key : K) :
    ∃ best key', b.findBestMatch target compare bias key = .ok (best, key') ∧
      ((∃ c r, best = some c ∧ c < b.nChildren ∧ (b.childRows c).contains r ∧
          Best (rowClass items target compare) bias rows.start rows.stop r) ∨
        best = none ∧ ∀ r, rows.contains r → rowClass items target compare r = bias.swap) := by
  have hn : b.nChildren * 2 = 2 * b.nChildren := Nat.mul_comm _ _
  obtain ⟨found, hfound, hfinds⟩ := bisect_finds hb (2 * b.nChildren) (s := ⟨none, 0, key⟩)
    (h.boundClass_descends hd) (fun j key _ hj => h.probe_eq hj key) le_rfl
  have hok : b.findBestMatch target compare bias key =
      .ok (found.best.map (· / 2), found.scratch) := by
    simp only [findBestMatch, hn, hfound, bind, Except.bind, pure, Except.pure]
  refine ⟨_, _, hok, ?_⟩
  generalize found.best = best at hfinds ⊢
  cases hfinds with
  | @equal j _ hj heq =>
    exact .inl ⟨j / 2, b.boundRow j, rfl, by omega, h.childRows_contains_boundRow hj,
      .of_eq hb hd (h.rows_contains_boundRow hj).1 (h.rows_contains_boundRow hj).2 heq⟩
  | @best j hbest =>
    obtain ⟨r, hr, hrbest⟩ := h.best_child_of_best_bound hb hd hbest
    have := hbest.lt
    exact .inl ⟨j / 2, r, rfl, by omega, hr, hrbest⟩
  | nothing hall =>
    exact .inr ⟨rfl, fun r hr => h.no_match_of_bounds hb hd (fun j => hall j (zero_le j)) hr⟩

end

theorem compareMax_eq (h : b.Holds items rows) {x : K × A}
    (hx : items[rows.stop - 1]? = some x) : b.compareMax compare = .ok (compare x.1) := by
  have hpos := h.children_pos
  obtain ⟨y, hy, hbound⟩ := h.getBound_eq (show b.nChildren * 2 - 1 < 2 * b.nChildren by omega)
  have hlast : b.boundRow (b.nChildren * 2 - 1) = rows.stop - 1 := by
    rw [← h.childRows_last]
    simp [boundRow, show (b.nChildren * 2 - 1) % 2 ≠ 0 by omega,
      show (b.nChildren * 2 - 1) / 2 = b.nChildren - 1 by omega]
  rw [hlast, hx] at hy
  cases hy
  simp only [compareMax, hbound, bind, Except.bind, pure, Except.pure]

end Holds

end IndexBlock

end Feldera.File
