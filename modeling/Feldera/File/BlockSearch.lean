import Feldera.File.Block

/-!
Blocks against the rows they stand for. A data block holds a range of the column's rows, and
an index block has the row totals, and the keys of the first and last row, of its children.
The searches inside a block are then statements about the rows of the column: they find the
best row of the block, or the child below which it lies.
-/

namespace Feldera.File

open Algebra RowRange

variable {K A : Type}

variable {α : Type} {l : List α} {i : Nat}

theorem nth_eq_ok_iff {a : α} : nth l i = .ok a ↔ l[i]? = some a := by
  unfold nth
  cases l[i]? with
  | none => simp
  | some b => simp

def slice {α : Type} (l : List α) (r : RowRange) : List α := (l.drop r.start).take r.len

theorem getElem?_slice (l : List α) (r : RowRange) (hi : i < r.len) :
    (slice l r)[i]? = l[r.start + i]? := by
  rw [slice, List.getElem?_take_of_lt hi, List.getElem?_drop]

theorem length_slice {r : RowRange} (h : r.stop ≤ l.length) : (slice l r).length = r.len := by
  simp only [slice, List.length_take, List.length_drop, len]
  omega

/-- A comparison is greater on small keys, then equal on at most one, then less. -/
def LawfulCompare [LT K] (compare : K → Ordering) : Prop :=
  ∀ k k', k < k' → compare k ≠ .gt → compare k' = .lt

structure SortedRows [LT K] (items : List (K × A)) (rows : RowRange) : Prop where
  start_le : rows.start ≤ rows.stop
  stop_le : rows.stop ≤ items.length
  sorted : ∀ i j x y, rows.start ≤ i → i < j → j < rows.stop → items[i]? = some x →
    items[j]? = some y → x.1 < y.1

/-- How a search for `compare` in the rows `target` judges a row of the column. -/
def rowClass (items : List (K × A)) (target : RowRange) (compare : K → Ordering) (row : Nat) :
    Ordering :=
  match items[row]?, target.compare row with
  | some item, .eq => compare item.1
  | some _, cmp => cmp
  | none, _ => .lt

namespace RowRange

variable {r : RowRange} {row : Nat}

theorem compare_eq_gt (h : row < r.start) : r.compare row = .gt := by simp [compare, h]

theorem compare_eq_lt (h : r.start ≤ row) (h' : r.stop ≤ row) : r.compare row = .lt := by
  simp [compare, Nat.not_lt.mpr h, h']

theorem compare_eq_eq (h : r.contains row) : r.compare row = .eq := by
  simp [compare, Nat.not_lt.mpr h.1, Nat.not_le.mpr h.2]

end RowRange

section

variable {items : List (K × A)} {target : RowRange} {compare : K → Ordering} {row : Nat}
  {x : K × A}

theorem rowClass_eq_gt (hx : items[row]? = some x) (h : row < target.start) :
    rowClass items target compare row = .gt := by
  simp [rowClass, hx, RowRange.compare_eq_gt h]

theorem rowClass_eq_lt (hx : items[row]? = some x) (h : target.start ≤ row)
    (h' : target.stop ≤ row) : rowClass items target compare row = .lt := by
  simp [rowClass, hx, RowRange.compare_eq_lt h h']

theorem rowClass_of_contains (hx : items[row]? = some x) (h : target.contains row) :
    rowClass items target compare row = compare x.1 := by
  simp [rowClass, hx, RowRange.compare_eq_eq h]

theorem rowClass_descends [LT K] {group : RowRange} (hs : SortedRows items group)
    (hstart : group.start ≤ target.start) (hstop : target.stop ≤ group.stop)
    (hc : LawfulCompare compare) :
    DescendsStrictly (rowClass items target compare) 0 items.length := by
  intro i j _ hij hj hi
  obtain ⟨x, hx⟩ : ∃ x, items[i]? = some x := ⟨_, List.getElem?_eq_getElem (hij.trans hj)⟩
  obtain ⟨y, hy⟩ : ∃ y, items[j]? = some y := ⟨_, List.getElem?_eq_getElem hj⟩
  have hle : target.start ≤ i := by
    by_contra hlt
    exact hi (rowClass_eq_gt hx (by omega))
  by_cases hstop' : target.stop ≤ j
  · exact rowClass_eq_lt hy (by omega) hstop'
  have hi' : target.contains i := ⟨hle, by omega⟩
  have hj' : target.contains j := ⟨by omega, by omega⟩
  rw [rowClass_of_contains hx hi'] at hi
  rw [rowClass_of_contains hy hj']
  exact hc x.1 y.1 (hs.sorted i j x y (by omega) hij (by omega) hx hy) hi

end

section

/-- A data block holds the rows `rows` of a column with the items `items` and, if there is a
next column, with the row groups bounded by `groups`. -/
structure DataBlock.Holds (b : DataBlock K A) (items : List (K × A)) (groups : Option (List Nat))
    (rows : RowRange) : Prop where
  firstRow : b.firstRow = rows.start
  nonempty : rows.start < rows.stop
  stop_le : rows.stop ≤ items.length
  items_eq : b.items = slice items rows
  groups_eq : b.rowGroups = groups.map fun g => slice g ⟨rows.start, rows.stop + 1⟩

namespace DataBlock.Holds

variable {b : DataBlock K A} {items : List (K × A)} {groups : Option (List Nat)}
  {rows target : RowRange} {compare : K → Ordering} {bias : Ordering} {row : Nat}

theorem nValues_eq (h : b.Holds items groups rows) : b.nValues = rows.len := by
  rw [nValues, h.items_eq, length_slice h.stop_le]

theorem rows_eq (h : b.Holds items groups rows) : b.rows = rows := by
  have hlt := h.nonempty
  simp only [DataBlock.rows, h.firstRow, h.nValues_eq, len]
  rw [Nat.add_sub_cancel' hlt.le]

variable {i : Nat} {x : K × A}

section

variable (h : b.Holds items groups rows)
include h

theorem item_eq (hi : i < rows.len) (hx : items[rows.start + i]? = some x) : b.item i = .ok x := by
  rw [item, nth_eq_ok_iff, h.items_eq, getElem?_slice _ _ hi, hx]

theorem key_eq (hi : i < rows.len) (hx : items[rows.start + i]? = some x) : b.key i = .ok x.1 := by
  rw [key, h.item_eq hi hx]
  rfl

variable (hrow : rows.contains row)
include hrow

theorem rowIndex_eq : b.rowIndex row = .ok (row - rows.start) := by
  rw [rowIndex, h.firstRow, if_pos hrow.1]

theorem itemForRow_eq (hx : items[row]? = some x) : b.itemForRow row = .ok x := by
  obtain ⟨h₁, h₂⟩ := hrow
  rw [itemForRow, h.rowIndex_eq ⟨h₁, h₂⟩]
  exact h.item_eq (by simp only [len]; omega) (by rwa [Nat.add_sub_cancel' h₁])

theorem keyForRow_eq (hx : items[row]? = some x) : b.keyForRow row = .ok x.1 := by
  obtain ⟨h₁, h₂⟩ := hrow
  rw [keyForRow, h.rowIndex_eq ⟨h₁, h₂⟩]
  exact h.key_eq (by simp only [len]; omega) (by rwa [Nat.add_sub_cancel' h₁])

end

theorem rowGroupForRow_eq {g : List Nat} (h : b.Holds items (some g) rows)
    (hrow : rows.contains row) {start stop : Nat} (hstart : g[row]? = some start)
    (hstop : g[row + 1]? = some stop) (hlt : start < stop) :
    b.rowGroupForRow row = .ok ⟨start, stop⟩ := by
  obtain ⟨h₁, h₂⟩ := hrow
  have hlen : rows.stop + 1 - rows.start = (⟨rows.start, rows.stop + 1⟩ : RowRange).len := rfl
  have hb : b.rowGroups = some (slice g ⟨rows.start, rows.stop + 1⟩) := h.groups_eq
  have hn₁ : nth (slice g ⟨rows.start, rows.stop + 1⟩) (row - rows.start) = .ok start := by
    rw [nth_eq_ok_iff, getElem?_slice _ _ (by omega)]
    simpa [Nat.add_sub_cancel' h₁] using hstart
  have hn₂ : nth (slice g ⟨rows.start, rows.stop + 1⟩) (row - rows.start + 1) = .ok stop := by
    rw [nth_eq_ok_iff, getElem?_slice _ _ (by omega)]
    simpa [← Nat.add_assoc, Nat.add_sub_cancel' h₁] using hstop
  rw [rowGroupForRow, h.rowIndex_eq ⟨h₁, h₂⟩]
  simp only [bind, Except.bind, rowGroup, hb, hn₁, hn₂, if_pos hlt]

variable (h : b.Holds items groups rows)
include h

theorem exists_item (hi : i < rows.len) : ∃ x, items[rows.start + i]? = some x := by
  have := h.stop_le
  simp only [len] at hi
  exact ⟨_, List.getElem?_eq_getElem (by omega)⟩

theorem probe_eq (hi : i < rows.len) (ht : target.contains (rows.start + i))
    (hx : items[rows.start + i]? = some x) (key : K) :
    b.probe compare i key = .ok (rowClass items target compare (rows.start + i), x.1) := by
  rw [probe, h.key_eq hi hx, rowClass_of_contains hx ht]
  rfl

theorem best_of_clipped (hb : Sided bias)
    (hbest : Best (fun i => rowClass items target compare (rows.start + i)) bias
      (max rows.start target.start - rows.start) (min rows.stop target.stop - rows.start) i) :
    Best (rowClass items target compare) bias rows.start rows.stop (rows.start + i) := by
  have hle := hbest.le
  have hlt := hbest.lt
  have hstop := h.stop_le
  refine ⟨by omega, by omega, hbest.hit, fun j hj₁ hj₂ hside => ?_⟩
  obtain ⟨y, hy⟩ : ∃ y, items[j]? = some y := ⟨_, List.getElem?_eq_getElem (by omega)⟩
  obtain ⟨k, rfl⟩ : ∃ k, j = rows.start + k := ⟨j - rows.start, by omega⟩
  obtain rfl | rfl := hb
  · have hki : rows.start + k < rows.start + i := hside
    by_cases hk : rows.start + k < target.start
    · exact rowClass_eq_gt hy hk
    · exact hbest.ahead k (by omega) (by omega) (show k < i by omega)
  · have hki : rows.start + i < rows.start + k := hside
    by_cases hk : target.stop ≤ rows.start + k
    · exact rowClass_eq_lt hy (by omega) hk
    · exact hbest.ahead k (by omega) (by omega) (show i < k by omega)

/-- The search in a data block finds its best row if that row is in the target. -/
theorem findBestMatch_eq (hb : Sided bias)
    (hd : DescendsStrictly (rowClass items target compare) rows.start rows.stop) (key : K) :
    ∃ best key', b.findBestMatch target compare bias key = .ok (best, key') ∧
      ((∃ i x, best = some i ∧ Best (rowClass items target compare) bias rows.start rows.stop
          (rows.start + i) ∧ target.contains (rows.start + i) ∧
          items[rows.start + i]? = some x ∧ key' = x.1) ∨
        best = none ∧ ∀ r, Best (rowClass items target compare) bias rows.start rows.stop r →
          ¬ target.contains r) := by
  unfold findBestMatch
  simp only [h.rows_eq, h.firstRow]
  by_cases hout : target.stop ≤ rows.start ∨ rows.stop ≤ target.start
  · refine ⟨none, key, if_pos hout, .inr ⟨rfl, fun r hr ht => ?_⟩⟩
    have := hr.le
    have := hr.lt
    have := ht.1
    have := ht.2
    omega
  rw [if_neg hout]
  have hin : ∀ i, max rows.start target.start - rows.start ≤ i →
      i < min rows.stop target.stop - rows.start →
      i < rows.len ∧ target.contains (rows.start + i) := by
    intro i h₁ h₂
    simp only [len, contains]
    omega
  let f : Nat → K := fun i => (items[rows.start + i]?).elim key Prod.fst
  have hprobe : ∀ i k, max rows.start target.start - rows.start ≤ i →
      i < min rows.stop target.stop - rows.start →
      b.probe compare i k = .ok (rowClass items target compare (rows.start + i), f i) := by
    intro i k h₁ h₂
    obtain ⟨hi, ht⟩ := hin i h₁ h₂
    obtain ⟨x, hx⟩ := h.exists_item hi
    rw [h.probe_eq hi ht hx]
    simp only [f, hx, Option.elim]
  have hd' : DescendsStrictly (fun i => rowClass items target compare (rows.start + i))
      (max rows.start target.start - rows.start) (min rows.stop target.stop - rows.start) :=
    fun i j h₁ h₂ h₃ => hd (rows.start + i) (rows.start + j) (by omega) (by omega) (by omega)
  obtain ⟨found, hfound, hbest⟩ := bisect_best hb key hd' hprobe
  simp only [hfound, bind, Except.bind]
  obtain ⟨i, hi, hbest, hscratch⟩ | ⟨hnone, hall⟩ := hbest
  · obtain ⟨hlen, ht⟩ := hin i hbest.le hbest.lt
    obtain ⟨x, hx⟩ := h.exists_item hlen
    simp only [hi]
    by_cases hmid : i ≠ found.mid
    · rw [if_pos hmid, h.key_eq hlen hx]
      exact ⟨some i, x.1, rfl, .inl ⟨i, x, rfl, h.best_of_clipped hb hbest, ht, hx, rfl⟩⟩
    rw [if_neg hmid]
    have hkey : found.scratch = x.1 := by
      rw [hscratch, ← not_not.mp hmid]
      simp only [f, hx, Option.elim]
    exact ⟨some i, _, rfl, .inl ⟨i, x, rfl, h.best_of_clipped hb hbest, ht, hx, hkey⟩⟩
  · simp only [hnone]
    refine ⟨none, _, rfl, .inr ⟨rfl, fun r hr ht => hr.hit ?_⟩⟩
    have h₁ := hr.le
    have h₂ := hr.lt
    have h₃ := ht.1
    have h₄ := ht.2
    have := hall (r - rows.start) (by omega) (by omega)
    rwa [Nat.add_sub_cancel' h₁] at this

end DataBlock.Holds

end

end Feldera.File
