import Feldera.File.CursorCalls

/-!
Runs of cursor calls. A run on a stored column agrees, call by call, with the same calls on
the plain list of the rows of the row group, from any position and with any hint.
-/

namespace Feldera.File

open Algebra

variable {K A : Type} [LT K] {env : TreeNode → Except Fault (TreeBlock K A)}
  {items : List (K × A)} {groups : Option (List Nat)} {column : Column} {c : Cursor K A}

/-- Every sequence of lawful calls on a valid cursor of a stored column succeeds and ends where
the same calls end on the list of the row group's rows, on the same row, key and row group of
the next column. -/
theorem Cursor.calls_eq_list [Inhabited K] (hcol : column.Stored env items groups)
    (hv : c.Valid env items column) (calls : List (Call K))
    (hl : ∀ call ∈ calls, call.Lawful items) :
    ∃ c', (c.calls calls).run env = .ok c' ∧ c'.Valid env items column ∧
      c'.view = c.view.calls items calls ∧
      c'.key? = ((c.view.calls items calls).item items).map Prod.fst ∧
      c'.item = .ok ((c.view.calls items calls).item items) ∧
      ∀ g, groups = some g → c'.nextColumn = .ok ((c.view.calls items calls).nextColumn g) := by
  induction calls generalizing c with
  | nil => exact ⟨c, rfl, hv, rfl, observe_eq hcol hv⟩
  | cons call calls ih =>
    obtain ⟨c₁, hrun, hv₁, hview⟩ := goes_call hcol hv call (hl call (by simp))
    obtain ⟨c', hrun', hrest⟩ := ih hv₁ fun call hcall => hl call (by simp [hcall])
    refine ⟨c', ?_, by simpa only [ListCursor.calls, hview] using hrest⟩
    rw [Cursor.calls, ReadProgram.run_bind_ok hrun]
    exact hrun'

def smallIndex : IndexBlock Nat := ⟨⟨1536, 512⟩, .data, [1, 2, 3, 3], [2, 3], [1, 2], [1, 1], 0⟩

def smallItems : List (Nat × Nat) := [(1, 10), (2, 20), (3, 30)]

def smallEnv (node : TreeNode) : Except Fault (TreeBlock Nat Nat) :=
  if node.location.offset = 1536 then .ok (.index smallIndex)
  else if node.location.offset = 512 then .ok (.data ⟨⟨512, 512⟩, [(1, 10), (2, 20)], none, 0⟩)
  else .ok (.data ⟨⟨1024, 512⟩, [(3, 30)], none, 2⟩)

def smallColumn : Column := ⟨some ⟨⟨1536, 512⟩, .index, ⟨0, 3⟩⟩, 3⟩

theorem smallIndex_holds : smallIndex.Holds smallItems ⟨0, 3⟩ where
  firstRow := rfl
  start_le := by decide
  stop_le := by decide
  children_pos := by decide
  length_rowTotals := rfl
  rowTotals_pos := by decide
  rowTotals_sorted := by decide
  nRows := rfl
  bounds := by decide

theorem smallColumn_stored : smallColumn.Stored smallEnv smallItems none where
  nRows := rfl
  length_lt := by decide
  noRoot := nofun
  root := by
    rintro root hroot
    cases hroot
    refine ⟨rfl, ⟨1, .index rfl rfl smallIndex_holds (by decide)
      (fun i => if i = 0 then ⟨⟨512, 512⟩, .data, ⟨0, 2⟩⟩ else ⟨⟨1024, 512⟩, .data, ⟨2, 3⟩⟩)
      (by decide) fun i _ => ?_⟩, fun b hb => ?_⟩
    · by_cases h0 : i = 0
      · rw [if_pos h0]
        exact .data rfl rfl ⟨rfl, by decide, by decide, rfl, rfl⟩
      · rw [if_neg h0]
        exact .data rfl rfl ⟨rfl, by decide, by decide, rfl, rfl⟩
    · cases hb
      decide
  groups := nofun

theorem smallItems_sorted : SortedRows smallItems ⟨0, 3⟩ where
  start_le := by decide
  stop_le := by decide
  sorted := by
    intro i j x y _ hij hj hx hy
    have hj' : j = 1 ∨ j = 2 := by
      simp only at hj
      omega
    obtain rfl | rfl := hj'
    · obtain rfl : i = 0 := by omega
      cases hx
      cases hy
      decide
    · have hi' : i = 0 ∨ i = 1 := by omega
      obtain rfl | rfl := hi'
      · cases hx
        cases hy
        decide
      · cases hx
        cases hy
        decide

theorem Cursor.calls_eq_list_small :
    ∃ c', (Cursor.calls (⟨⟨smallColumn, ⟨0, 3⟩⟩, .before, 0⟩ : Cursor Nat Nat)
        [.moveNext, .seekForwardUntil fun k => decide (3 ≤ k)]).run smallEnv = .ok c' ∧
      c'.view = ⟨⟨0, 3⟩, .on 2⟩ ∧ c'.key? = some 3 := by
  obtain ⟨c', hrun, -, hview, hkey, -⟩ := Cursor.calls_eq_list smallColumn_stored
    (c := ⟨⟨smallColumn, ⟨0, 3⟩⟩, .before, 0⟩) ⟨rfl, smallItems_sorted, trivial⟩
    [.moveNext, .seekForwardUntil fun k => decide (3 ≤ k)] (by
      intro call hcall
      simp only [List.mem_cons, List.not_mem_nil, or_false] at hcall
      obtain rfl | rfl := hcall
      · trivial
      · intro k k' hk hpred
        simp only [decide_eq_true_eq] at *
        omega)
  exact ⟨c', hrun, hview, hkey⟩

end Feldera.File
