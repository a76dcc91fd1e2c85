import Feldera.File.ListCursor

/-!
Cursors on a stored column behave like positions on the list of the rows of their row group:
every call succeeds, keeps the cursor valid, and does what the call does on the list.
-/

namespace Feldera.File

open Algebra

variable {K A : Type}

variable (env : TreeNode → Except Fault (TreeBlock K A))

def Column.PathValid (column : Column) (path : Path K A) : Prop :=
  ∃ root, column.root = some root ∧ path.Valid env root

/-- A position in a row group: a row of the group, whose key is in the buffer, or after the
group with any path of the column as a hint. -/
def Position.Valid (items : List (K × A)) (column : Column) (rows : RowRange) (key : K) :
    Position K A → Prop
  | .before => True
  | .row path => column.PathValid env path ∧ rows.contains path.row ∧
      ∃ x, items[path.row]? = some x ∧ key = x.1
  | .after hint => ∀ path, hint = some path → column.PathValid env path

structure Cursor.Valid [LT K] (env : TreeNode → Except Fault (TreeBlock K A))
    (items : List (K × A)) (column : Column) (c : Cursor K A) : Prop where
  column_eq : c.rowGroup.column = column
  sorted : SortedRows items c.rowGroup.rows
  position : c.position.Valid env items column c.rowGroup.rows c.key

def Position.view (rows : RowRange) : Position K A → ListPosition
  | .before => .before
  | .row path => .on (path.row - rows.start)
  | .after _ => .after

def Cursor.view (c : Cursor K A) : ListCursor :=
  ⟨c.rowGroup.rows, c.position.view c.rowGroup.rows⟩

section

variable {env : TreeNode → Except Fault (TreeBlock K A)} {items : List (K × A)}
  {groups : Option (List Nat)} {column : Column} {rows : RowRange} {row : Nat}
  {path : Path K A}

variable (hcol : column.Stored env items groups)
include hcol

theorem Column.Stored.exists_root (hrow : row < items.length) :
    ∃ root H, column.root = some root ∧ root.rows = ⟨0, items.length⟩ ∧ H ≤ maxDepth ∧
      File.Stored env items groups H root := by
  cases hr : column.root with
  | none =>
    rw [hcol.noRoot hr] at hrow
    exact absurd hrow (Nat.not_lt_zero row)
  | some root =>
    obtain ⟨hrows, ⟨H, hs⟩, -⟩ := hcol.root root hr
    exact ⟨root, H, rfl, hrows, hcol.height_le hr hs, hs⟩

theorem Column.PathValid.holds (hp : column.PathValid env path) :
    ∃ rows, path.data.Holds items groups rows ∧ rows.contains path.row := by
  obtain ⟨root, hroot, hv⟩ := hp
  obtain ⟨-, ⟨H, hs⟩, -⟩ := hcol.root root hroot
  exact hv.holds hs

section

variable (hp : column.PathValid env path) {x : K × A} (hx : items[path.row]? = some x)
include hp hx

theorem Path.key_eq : path.key = .ok x.1 := by
  obtain ⟨rows, holds, hrow⟩ := hp.holds hcol
  exact holds.keyForRow_eq hrow hx

theorem Path.item_eq : path.item = .ok x := by
  obtain ⟨rows, holds, hrow⟩ := hp.holds hcol
  exact holds.itemForRow_eq hrow hx

end

variable {group : RowGroup}

section

variable (hg : group.column = column)
include hg

theorem Path.run_fromHint {hint : Option (Path K A)}
    (hv : ∀ p, hint = some p → column.PathValid env p) (hrow : row < items.length) :
    ∃ path, (forRowFromHint group hint row).run env = .ok path ∧ path.row = row ∧
      column.PathValid env path := by
  obtain ⟨root, H, hroot, hrows, hH, hs⟩ := hcol.exists_root hrow
  have hv' : ∀ p, hint = some p → p.Valid env root := by
    intro p hp
    obtain ⟨root', hroot', hvalid⟩ := hv p hp
    rw [hroot] at hroot'
    cases hroot'
    exact hvalid
  have hin : root.rows.contains row := by
    rw [hrows]
    exact ⟨Nat.zero_le row, hrow⟩
  obtain ⟨path, hrun, hrow', hvalid⟩ := run_forRowFromHint hs hH (by rw [hg, hroot]) hv' hin
  exact ⟨path, hrun, hrow', root, hroot, hvalid⟩

theorem Path.run_toRow (hp : column.PathValid env path) (hrow : row < items.length) :
    ∃ path', (path.moveToRow group row).run env = .ok path' ∧ path'.row = row ∧
      column.PathValid env path' := by
  obtain ⟨root, hroot, hv⟩ := hp
  obtain ⟨hrows, ⟨H, hs⟩, -⟩ := hcol.root root hroot
  have hin : root.rows.contains row := by
    rw [hrows]
    exact ⟨Nat.zero_le row, hrow⟩
  obtain ⟨path', hrun, hrow', hvalid⟩ :=
    run_moveToRow hs (hcol.height_le hroot hs) (by rw [hg, hroot]) hv hin
  exact ⟨path', hrun, hrow', root, hroot, hvalid⟩

theorem Position.run_moveToRow {p : Position K A} {key : K}
    (hp : p.Valid env items column group.rows key) (hstop : group.rows.stop ≤ items.length)
    (hrow : group.rows.contains row) :
    ∃ path, (p.moveToRow group row).run env = .ok (.row path) ∧ path.row = row ∧
      column.PathValid env path := by
  have hlt : row < items.length := lt_of_lt_of_le hrow.2 hstop
  have hne : ¬ group.rows.isEmpty := not_not.mpr (lt_of_le_of_lt hrow.1 hrow.2)
  cases p with
  | before =>
    have hnone : ∀ q : Path K A, none = some q → column.PathValid env q := nofun
    obtain ⟨path, hrun, hrest⟩ := Path.run_fromHint hcol hg hnone hlt
    rw [Path.forRowFromHint] at hrun
    refine ⟨path, ?_, hrest⟩
    rw [moveToRow, if_neg hne, ReadProgram.run_bind_ok hrun]
    rfl
  | row q =>
    obtain ⟨path, hrun, hrest⟩ := Path.run_toRow hcol hg hp.1 hlt
    refine ⟨path, ?_, hrest⟩
    rw [moveToRow, if_neg hne, ReadProgram.run_bind_ok hrun]
    rfl
  | after hint =>
    obtain ⟨path, hrun, hrest⟩ := Path.run_fromHint hcol hg hp hlt
    refine ⟨path, ?_, hrest⟩
    rw [moveToRow, if_neg hne, ReadProgram.run_bind_ok hrun]
    rfl

/-- Seeking from the root of the column. -/
theorem Position.run_bestMatch [LT K] (hs : SortedRows items group.rows) {compare : K → Ordering}
    (hc : LawfulCompare compare) {bias : Ordering} (hb : Sided bias) (key : K) :
    ∃ p key', (bestMatch group compare bias key).run env = .ok (p, key') ∧
      ((∃ path, p = .row path ∧ p.Valid env items column group.rows key' ∧
          Best (keyClass items compare) bias group.rows.start group.rows.stop path.row) ∨
        p = (if bias = .lt then .after none else .before) ∧
          ∀ r, ¬ Best (keyClass items compare) bias group.rows.start group.rows.stop r) := by
  cases hr : column.root with
  | none =>
    refine ⟨_, key, ?_, .inr ⟨rfl, fun r hbest => ?_⟩⟩
    · simp only [bestMatch, Path.bestMatch, hg, hr, ReadProgram.run_bind, ReadProgram.run_pure,
        ok_bind]
    · have hstop := hs.stop_le
      have hlt := hbest.lt
      rw [hcol.noRoot hr, List.length_nil] at hstop
      omega
  | some root =>
    obtain ⟨hrows, ⟨H, hst⟩, -⟩ := hcol.root root hr
    obtain ⟨res, hrun, hl⟩ := Path.run_bestMatch hst (hcol.height_le hr hst) hrows hs hc
      (by rw [hg, hr]) hb key
    obtain ⟨path, x, rfl, hv, hbest, hx⟩ | ⟨hnone, hall⟩ := hl
    · refine ⟨.row path, x.1, ?_, .inl ⟨path, rfl, ⟨⟨root, hr, hv⟩, ⟨hbest.le, hbest.lt⟩, x, hx,
        rfl⟩, hbest⟩⟩
      rw [bestMatch, ReadProgram.run_bind_ok hrun]
      rfl
    · obtain ⟨found, key'⟩ := res
      obtain rfl : found = none := hnone
      refine ⟨_, key', ?_, .inr ⟨rfl, hall⟩⟩
      rw [bestMatch, ReadProgram.run_bind_ok hrun]
      rfl

end

end

section

variable [LT K] {env : TreeNode → Except Fault (TreeBlock K A)} {items : List (K × A)}
  {groups : Option (List Nat)} {column : Column} {c : Cursor K A}

variable (env items column) in
/-- The program ends with a valid cursor at the given place on the list. -/
def Goes (program : Reading K A (Cursor K A)) (view : ListCursor) : Prop :=
  ∃ c, program.run env = .ok c ∧ c.Valid env items column ∧ c.view = view

theorem Goes.pure (hv : c.Valid env items column) : Goes env items column (pure c) c.view :=
  ⟨c, rfl, hv, rfl⟩

theorem Goes.bind {α : Type} {p : Reading K A α} {a : α} (h : p.run env = .ok a)
    {f : α → Reading K A (Cursor K A)} {view : ListCursor} (hf : Goes env items column (f a) view) :
    Goes env items column (p >>= f) view := by
  unfold Goes at *
  rwa [ReadProgram.run_bind_ok h]

theorem Cursor.Valid.length_list (hv : c.Valid env items column) :
    (c.view.list items).length = c.rowGroup.rows.len :=
  length_slice hv.sorted.stop_le

variable {p : Position K A}

theorem Cursor.Valid.withPosition (hv : c.Valid env items column)
    (hp : p.Valid env items column c.rowGroup.rows c.key) :
    ({ c with position := p } : Cursor K A).Valid env items column :=
  ⟨hv.column_eq, hv.sorted, hp⟩

theorem Cursor.Valid.moveAfter (hv : c.Valid env items column) :
    c.position.moveAfter.Valid env items column c.rowGroup.rows c.key := by
  have hp := hv.position
  intro path hpath
  cases hc : c.position with
  | before =>
    rw [hc] at hpath
    exact absurd hpath nofun
  | row q =>
    rw [hc] at hp hpath
    cases hpath
    exact hp.1
  | after hint =>
    rw [hc] at hp hpath
    exact hp path hpath

variable (hcol : column.Stored env items groups)
include hcol

theorem Cursor.goes_to (hg : c.rowGroup.column = column) (hs : SortedRows items c.rowGroup.rows)
    {key : K} (hp : p.Valid env items column c.rowGroup.rows key) :
    Goes env items column (c.goTo p) ⟨c.rowGroup.rows, p.view c.rowGroup.rows⟩ := by
  cases p with
  | before => exact ⟨{ c with position := .before }, rfl, ⟨hg, hs, trivial⟩, rfl⟩
  | row path =>
    obtain ⟨hpath, hrow, x, hx, -⟩ := hp
    refine ⟨{ c with position := .row path, key := x.1 }, ?_, ⟨hg, hs, hpath, hrow, x, hx, rfl⟩,
      rfl⟩
    simp only [goTo, Position.readKey, Position.path, Path.key_eq hcol hpath hx,
      ReadProgram.run_bind, ReadProgram.run_ofExcept, ok_bind, ReadProgram.run_pure]
  | after hint => exact ⟨{ c with position := .after hint }, rfl, ⟨hg, hs, hp⟩, rfl⟩

theorem Cursor.goes_row (hv : c.Valid env items column) {path : Path K A}
    (hp : column.PathValid env path) (hrow : c.rowGroup.rows.contains path.row) :
    Goes env items column (c.goTo (.row path))
      ⟨c.rowGroup.rows, .on (path.row - c.rowGroup.rows.start)⟩ := by
  have hlt : path.row < items.length := lt_of_lt_of_le hrow.2 hv.sorted.stop_le
  exact goes_to hcol hv.column_eq hv.sorted
    ⟨hp, hrow, _, List.getElem?_eq_getElem hlt, rfl⟩

theorem Cursor.goes_moveToRow (hv : c.Valid env items column) {row : Nat}
    (hrow : c.rowGroup.rows.contains row) :
    Goes env items column
      (c.position.moveToRow c.rowGroup row >>= fun position => c.goTo position)
      ⟨c.rowGroup.rows, .on (row - c.rowGroup.rows.start)⟩ := by
  obtain ⟨path, hrun, rfl, hp⟩ := Position.run_moveToRow hcol hv.column_eq hv.position
    hv.sorted.stop_le hrow
  exact .bind hrun (goes_row hcol hv hp hrow)

end

end Feldera.File
