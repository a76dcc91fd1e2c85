import Feldera.File.ColumnTree

/-!
Paths in a stored column: descending to a row, going to a row from a hint, the search from
the root, and the forward seek that climbs from the current data block and descends again.
Every one of them ends on a valid path to the row that the keys of the column determine.
-/

namespace Feldera.File

open Algebra ReadProgram

variable {K A : Type} {env : TreeNode → Except Fault (TreeBlock K A)} {items : List (K × A)}
  {groups : Option (List Nat)} {root node : TreeNode} {h H row : Nat}
  {indexes : List (IndexBlock K)} {compare : K → Ordering} {target : RowRange}
  {bias : Ordering}

def keyClass (items : List (K × A)) (compare : K → Ordering) (row : Nat) : Ordering :=
  match items[row]? with
  | some item => compare item.1
  | none => .lt

theorem keyClass_eq {x : K × A} (hx : items[row]? = some x) :
    keyClass items compare row = compare x.1 := by
  simp [keyClass, hx]

theorem rowClass_eq_keyClass (hrow : row < items.length) (ht : target.contains row) :
    rowClass items target compare row = keyClass items compare row := by
  have hx := List.getElem?_eq_getElem hrow
  rw [rowClass_of_contains hx ht, keyClass_eq hx]

theorem keyClass_descends [LT K] {group : RowRange} (hs : SortedRows items group)
    (hc : LawfulCompare compare) :
    DescendsStrictly (keyClass items compare) group.start group.stop := by
  intro i j hi hij hj hne
  have hstop := hs.stop_le
  have hx := List.getElem?_eq_getElem (show i < items.length by omega)
  have hy := List.getElem?_eq_getElem (show j < items.length by omega)
  rw [keyClass_eq hx] at hne
  rw [keyClass_eq hy]
  exact hc _ _ (hs.sorted i j _ _ hi hij hj hx hy) hne

section

theorem Path.run_descend (fuel : Nat) (hs : Stored env items groups h node)
    (hc : Chain env root indexes node) (hdepth : h + indexes.length ≤ maxDepth)
    (hrow : node.rows.contains row) (hfuel : h < fuel) :
    ∃ path, (descend row fuel indexes node : Reading K A _).run env = .ok path ∧
      path.row = row ∧ path.Valid env root := by
  induction hs generalizing indexes fuel with
  | @data node b type read holds =>
    obtain _ | fuel := fuel
    · omega
    have hread := holds.run_read type read
    have hlook : (TreeBlock.data b : TreeBlock K A).lookupRow row = .ok none := by
      simp [TreeBlock.lookupRow, holds.rows_eq, hrow]
    refine ⟨⟨row, indexes, b⟩, ?_, rfl, node, hc, read, hrow⟩
    simp only [descend, run_bind, hread, ok_bind, run_ofExcept, hlook,
      run_pure]
  | @index h node b type read holds branch child getChild stored ih =>
    obtain _ | fuel := fuel
    · omega
    have hread := holds.run_read type read
    obtain ⟨i, hi, hirow⟩ := holds.exists_child hrow
    have hlook : (TreeBlock.index b : TreeBlock K A).lookupRow row = .ok (some (child i)) := by
      simp only [TreeBlock.lookupRow, holds.rows_eq, ok_bind, if_pos hrow,
        IndexBlock.getChildByRow, holds.findRow_eq hi hirow, getChild i hi]
      rfl
    have hpush : pushIndexBlock indexes b = .ok (b :: indexes) :=
      pushIndexBlock_eq (by omega)
    have hchild : (child i).rows.contains row := by
      rwa [holds.getChild_rows hi (getChild i hi)]
    obtain ⟨path, hpath, hrest⟩ := ih i hi fuel (.child hc read hi (getChild i hi))
      (by simp only [List.length_cons]; omega) hchild (by omega)
    refine ⟨path, ?_, hrest⟩
    simp only [descend, run_bind, hread, ok_bind, run_ofExcept, hlook,
      hpush]
    exact hpath

theorem levels_lt (hdepth : h + indexes.length ≤ maxDepth) : h < levels indexes.length := by
  unfold levels
  omega

section

variable (hroot : Stored env items groups H root) (hH : H ≤ maxDepth)
  (hc : Chain env root indexes node)
include hroot hH hc

theorem Path.run_forRowFromAncestor (hrow : node.rows.contains row) :
    ∃ path, (forRowFromAncestor indexes node row : Reading K A _).run env = .ok path ∧
      path.row = row ∧ path.Valid env root := by
  obtain ⟨h, hs, hlen⟩ := hc.stored hroot
  exact run_descend _ hs hc (by omega) hrow (levels_lt (by omega))

/-- Going up the index blocks of a path finds the deepest one that holds the row. -/
theorem Path.run_forRowFromIndexes (hout : ¬ node.rows.contains row)
    (hrow : root.rows.contains row) :
    ∃ path, (forRowFromIndexes row indexes : Reading K A _).run env = .ok path ∧
      path.row = row ∧ path.Valid env root := by
  induction hc with
  | root => exact absurd hrow hout
  | @child indexes node child b i above read lt getChild ih =>
    obtain ⟨h, hs, hlen⟩ := above.stored hroot
    obtain ⟨h', rfl, holds, hchild⟩ := hs.index_inv read
    by_cases hin : node.rows.contains row
    · obtain ⟨j, hj, hjrow⟩ := holds.exists_child hin
      obtain ⟨c, hc, -⟩ := hchild j hj
      have hcrow : c.rows.contains row := by rwa [holds.getChild_rows hj hc]
      obtain ⟨path, hpath, hrest⟩ :=
        run_forRowFromAncestor hroot hH (.child above read hj hc) hcrow
      refine ⟨path, ?_, hrest⟩
      simp only [forRowFromIndexes, run_bind, run_ofExcept,
        holds.rows_eq, ok_bind, if_pos hin, IndexBlock.getChildByRow,
        holds.findRow_eq hj hjrow, hc]
      exact hpath
    · obtain ⟨path, hpath, hrest⟩ := ih hin
      refine ⟨path, ?_, hrest⟩
      simp only [forRowFromIndexes, run_bind, run_ofExcept,
        holds.rows_eq, ok_bind, if_neg hin]
      exact hpath

end

variable (hroot : Stored env items groups H root) (hH : H ≤ maxDepth)
include hroot

variable {path : Path K A}

theorem Path.Valid.holds (hv : path.Valid env root) :
    ∃ rows, path.data.Holds items groups rows ∧ rows.contains path.row := by
  obtain ⟨node, hc, hread, hrow⟩ := hv
  obtain ⟨h, hs, -⟩ := hc.stored hroot
  exact ⟨node.rows, (hs.data_inv hread).2, hrow⟩

include hH

variable {group : RowGroup}

theorem Path.run_forRowFromHint (hg : group.column.root = some root) {hint : Option (Path K A)}
    (hv : ∀ p, hint = some p → p.Valid env root) (hrow : root.rows.contains row) :
    ∃ path, (forRowFromHint group hint row).run env = .ok path ∧ path.row = row ∧
      path.Valid env root := by
  cases hint with
  | none =>
    simp only [forRowFromHint, forRow, hg]
    exact run_forRowFromAncestor hroot hH .root hrow
  | some p =>
    obtain ⟨node, hc, hread, -⟩ := hv p rfl
    obtain ⟨h, hs, -⟩ := hc.stored hroot
    have hrows := (hs.data_inv hread).2.rows_eq
    simp only [forRowFromHint, hrows]
    by_cases hin : node.rows.contains row
    · rw [if_pos hin]
      exact ⟨_, rfl, rfl, node, hc, hread, hin⟩
    · rw [if_neg hin]
      exact run_forRowFromIndexes hroot hH hc hin hrow

theorem Path.run_moveToRow (hg : group.column.root = some root) (hv : path.Valid env root)
    (hrow : root.rows.contains row) :
    ∃ path', (path.moveToRow group row).run env = .ok path' ∧ path'.row = row ∧
      path'.Valid env root := by
  unfold moveToRow
  by_cases hin : path.data.rows.contains row
  · obtain ⟨node, hc, hread, -⟩ := hv
    obtain ⟨h, hs, -⟩ := hc.stored hroot
    rw [if_pos hin]
    rw [(hs.data_inv hread).2.rows_eq] at hin
    exact ⟨_, rfl, rfl, node, hc, hread, hin⟩
  · rw [if_neg hin]
    exact run_forRowFromHint hroot hH hg (fun p hp => Option.some.inj hp ▸ hv) hrow

end

section

variable (env items root target) in
/-- What a search below a node ends with: a valid path to the best row of the node and the key
of that row, or nothing when the best row is not in the target. -/
def Found (compare : K → Ordering) (bias : Ordering) (rows : RowRange)
    (res : Option (Path K A) × K) : Prop :=
  (∃ path x, res = (some path, x.1) ∧ path.Valid env root ∧
      Best (rowClass items target compare) bias rows.start rows.stop path.row ∧
      target.contains path.row ∧ items[path.row]? = some x) ∨
    res.1 = none ∧ ∀ r, Best (rowClass items target compare) bias rows.start rows.stop r →
      ¬ target.contains r

/-- When the best row lies below a child, the search below the child is the search below the
node. -/
theorem Found.of_child {rows childRows : RowRange} {res : Option (Path K A) × K} {r : Nat}
    (hb : Sided bias) (hle : rows.start ≤ childRows.start)
    (hle' : childRows.stop ≤ rows.stop) (hr : childRows.contains r)
    (hbest : Best (rowClass items target compare) bias rows.start rows.stop r)
    (hf : Found env items root target compare bias childRows res) :
    Found env items root target compare bias rows res := by
  have hchild := hbest.mono hle hle' hr.1 hr.2
  obtain ⟨path, x, hres, hv, hp, ht, hx⟩ | ⟨hnone, hall⟩ := hf
  · obtain rfl : path.row = r := hp.unique hb hchild
    exact .inl ⟨path, x, hres, hv, hbest, ht, hx⟩
  · refine .inr ⟨hnone, fun r' hr' => ?_⟩
    obtain rfl := hr'.unique hb hbest
    exact hall r' hchild

theorem Found.nothing {rows : RowRange} (key : K)
    (hall : ∀ r, rows.contains r → rowClass items target compare r = bias.swap) :
    Found env items root target compare bias rows (none, key) :=
  .inr ⟨rfl, fun r hr => absurd (hall r ⟨hr.le, hr.lt⟩) hr.hit⟩

/-- `search` finds the best row below a node. -/
theorem Path.run_search (hb : Sided bias)
    (hd : DescendsStrictly (rowClass items target compare) 0 items.length) (fuel : Nat)
    (hs : Stored env items groups h node) (hc : Chain env root indexes node)
    (hdepth : h + indexes.length ≤ maxDepth) (hfuel : h < fuel) (key : K) :
    ∃ res, (search target compare bias fuel indexes node key).run env = .ok res ∧
      Found env items root target compare bias node.rows res := by
  induction hs generalizing indexes fuel key with
  | @data node b type read holds =>
    obtain _ | fuel := fuel
    · omega
    have hread := holds.run_read type read
    obtain ⟨best, key', hfind, hbest⟩ := holds.findBestMatch_eq hb
      (hd.mono (Nat.zero_le node.rows.start) holds.stop_le) key
    refine ⟨(best.map fun i => ⟨b.firstRow + i, indexes, b⟩, key'), ?_, ?_⟩
    · simp only [search, run_bind, hread, ok_bind, run_ofExcept, hfind,
        run_pure]
    obtain ⟨i, x, rfl, hbest, ht, hx, rfl⟩ | ⟨rfl, hall⟩ := hbest
    · rw [← holds.firstRow] at hbest ht hx
      exact .inl ⟨_, x, rfl, ⟨node, hc, read, hbest.le.trans' (holds.firstRow ▸ le_rfl),
        hbest.lt⟩, hbest.mono (holds.firstRow ▸ le_rfl) le_rfl
          (holds.firstRow ▸ hbest.le) hbest.lt, ht, hx⟩
    · exact .inr ⟨rfl, hall⟩
  | @index h node b type read holds branch child getChild stored ih =>
    obtain _ | fuel := fuel
    · omega
    have hread := holds.run_read type read
    obtain ⟨best, key', hfind, hbest⟩ := holds.findBestMatch_eq hb
      (hd.mono (Nat.zero_le node.rows.start) holds.stop_le) key
    obtain ⟨c, r, rfl, hlt, hr, hbest⟩ | ⟨rfl, hall⟩ := hbest
    · have hpush : pushIndexBlock indexes b = .ok (b :: indexes) := pushIndexBlock_eq (by omega)
      obtain ⟨res, hres, hf⟩ := ih c hlt fuel (.child hc read hlt (getChild c hlt))
        (by simp only [List.length_cons]; omega) (by omega) key'
      rw [holds.getChild_rows hlt (getChild c hlt)] at hf
      have hbounds := holds.childRows_bounds hlt
      refine ⟨res, ?_, hf.of_child hb hbounds.1 hbounds.2.2 hr hbest⟩
      simp only [search, run_bind, hread, ok_bind, run_ofExcept, hfind,
        getChild c hlt, hpush]
      exact hres
    · refine ⟨(none, key'), ?_, .nothing key' hall⟩
      simp only [search, run_bind, hread, ok_bind, run_ofExcept, hfind,
        run_pure]

end

end Feldera.File
