import Feldera.File.Cursor
import Feldera.File.IndexSearch

/-!
Well-formed columns. The tree below a node is stored when every block can be read, data
blocks hold the rows they should and index blocks describe their children. All index blocks
that are not on the right edge of the column have at least two children, so that a column
with fewer than `2 ^ 64` rows is never too deep for the reader.

A path is valid when it follows children from the root to a data block.
-/

namespace Feldera.File

open Algebra

variable {K A : Type}

section

variable (env : TreeNode → Except Fault (TreeBlock K A)) (items : List (K × A))
  (groups : Option (List Nat))

inductive Stored : Nat → TreeNode → Prop
  | data {node : TreeNode} {b : DataBlock K A} (type : node.nodeType = .data)
    (read : env node = .ok (.data b)) (holds : b.Holds items groups node.rows) : Stored 0 node
  | index {h : Nat} {node : TreeNode} {b : IndexBlock K} (type : node.nodeType = .index)
    (read : env node = .ok (.index b)) (holds : b.Holds items node.rows)
    (branch : node.rows.stop < items.length → 2 ≤ b.nChildren) (child : Nat → TreeNode)
    (getChild : ∀ i, i < b.nChildren → b.getChild i = .ok (child i))
    (stored : ∀ i, i < b.nChildren → Stored h (child i)) : Stored (h + 1) node

structure Column.Stored (column : Column) : Prop where
  nRows : column.nRows = items.length
  length_lt : items.length < 2 ^ 64
  noRoot : column.root = none → items = []
  root : ∀ root, column.root = some root →
    root.rows = ⟨0, items.length⟩ ∧ (∃ h, File.Stored env items groups h root) ∧
      ∀ b, env root = .ok (.index b) → 2 ≤ b.nChildren
  groups : ∀ g, groups = some g → g.length = items.length + 1 ∧ g.Pairwise (· < ·)

inductive Chain (root : TreeNode) : List (IndexBlock K) → TreeNode → Prop
  | root : Chain root [] root
  | child {indexes : List (IndexBlock K)} {node child : TreeNode} {b : IndexBlock K} {i : Nat}
    (above : Chain root indexes node) (read : env node = .ok (.index b))
    (lt : i < b.nChildren) (getChild : b.getChild i = .ok child) :
    Chain root (b :: indexes) child

/-- A path leads to the data block with its row. -/
def Path.Valid (root : TreeNode) (path : Path K A) : Prop :=
  ∃ node, Chain env root path.indexes node ∧ env node = .ok (.data path.data) ∧
    node.rows.contains path.row

end

section

variable {env : TreeNode → Except Fault (TreeBlock K A)} {items : List (K × A)}
  {groups : Option (List Nat)} {root node child : TreeNode} {h : Nat}
  {indexes : List (IndexBlock K)}
  {b : IndexBlock K}

theorem IndexBlock.Holds.getChild_rows {rows : RowRange} {i : Nat} (hb : b.Holds items rows)
    (hi : i < b.nChildren) (hc : b.getChild i = .ok child) : child.rows = b.childRows i := by
  unfold IndexBlock.getChild at hc
  cases hl : b.getChildLocation i with
  | error e => simp [hl, bind, Except.bind] at hc
  | ok location =>
    simp only [hl, hb.getRows_eq hi, bind, Except.bind, pure, Except.pure] at hc
    exact (congrArg TreeNode.rows (Except.ok.inj hc)).symm

section

variable (hs : Stored env items groups h node)
include hs

theorem Stored.data_inv {b : DataBlock K A} (hr : env node = .ok (.data b)) :
    h = 0 ∧ b.Holds items groups node.rows := by
  cases hs with
  | data type read holds =>
    rw [hr] at read
    cases read
    exact ⟨rfl, holds⟩
  | index type read =>
    rw [hr] at read
    cases read

theorem Stored.index_inv (hr : env node = .ok (.index b)) :
    ∃ h', h = h' + 1 ∧ b.Holds items node.rows ∧ ∀ i, i < b.nChildren →
      ∃ child, b.getChild i = .ok child ∧ Stored env items groups h' child := by
  cases hs with
  | data type read =>
    rw [hr] at read
    cases read
  | @index h' _ b' type read holds _ child getChild stored =>
    rw [hr] at read
    cases read
    exact ⟨h', rfl, holds, fun i hi => ⟨child i, getChild i hi, stored i hi⟩⟩

omit hs in
theorem Chain.stored {H : Nat} (hroot : Stored env items groups H root)
    (hc : Chain env root indexes node) :
    ∃ h, Stored env items groups h node ∧ h + indexes.length = H := by
  induction hc with
  | root => exact ⟨H, hroot, rfl⟩
  | @child indexes node child b i above read lt getChild ih =>
    obtain ⟨h, hs, hlen⟩ := ih
    obtain ⟨h', rfl, -, hchild⟩ := hs.index_inv read
    obtain ⟨child', hget, hstored⟩ := hchild i lt
    rw [getChild] at hget
    cases hget
    exact ⟨h', hstored, by simp only [List.length_cons]; omega⟩

/-- A tree of height `h` away from the right edge has at least `2 ^ h` rows. -/
theorem Stored.two_pow_le (hlt : node.rows.stop < items.length) : 2 ^ h ≤ node.rows.len := by
  induction hs with
  | data type read holds =>
    have := holds.nonempty
    simp only [RowRange.len]
    omega
  | @index h node b type read holds branch child getChild stored ih =>
    have hrows := fun i (hi : i < b.nChildren) => holds.getChild_rows hi (getChild i hi)
    have hbounds := fun i (hi : i < b.nChildren) => holds.childRows_bounds hi
    have hone : ∀ i, i < b.nChildren → 2 ^ h ≤ (b.childRows i).len := by
      intro i hi
      rw [← hrows i hi]
      apply ih i hi
      rw [hrows i hi]
      exact lt_of_le_of_lt (hbounds i hi).2.2 hlt
    have h₀ := hone 0 (by omega)
    have h₁ := hone 1 (by omega)
    have hb₀ := hbounds 0 (by omega)
    have hb₁ := hbounds 1 (by omega)
    have hadj := IndexBlock.Holds.childRows_adjacent b 0
    simp only [RowRange.len, Nat.zero_add] at *
    omega

omit hs in
/-- A stored column is at most 64 index levels deep. -/
theorem Column.Stored.height_le {column : Column} (hc : column.Stored env items groups)
    (hroot : column.root = some root) (hs : File.Stored env items groups h root) :
    h ≤ maxDepth := by
  obtain ⟨hrows, -, htwo⟩ := hc.root root hroot
  have hlen := hc.length_lt
  cases hs with
  | data => exact Nat.zero_le _
  | @index h _ b type read holds branch child getChild stored =>
    have h2 := htwo b read
    have hchild := holds.getChild_rows (show 0 < b.nChildren by omega) (getChild 0 (by omega))
    have hb₁ := holds.childRows_bounds (show 1 < b.nChildren by omega)
    have hadj : (b.childRows 1).start = (b.childRows 0).stop :=
      IndexBlock.Holds.childRows_adjacent b 0
    have hstop : (child 0).rows.stop < items.length := by
      rw [hchild]
      simp only [hrows] at *
      omega
    have hpow := (stored 0 (by omega)).two_pow_le hstop
    have hlt : 2 ^ h < 2 ^ 64 := by
      simp only [RowRange.len, hrows] at *
      omega
    exact (Nat.pow_lt_pow_iff_right (by omega)).mp hlt

end

theorem DataBlock.Holds.run_read {b : DataBlock K A} (holds : b.Holds items groups node.rows)
    (type : node.nodeType = .data) (read : env node = .ok (.data b)) :
    (node.read : Reading K A _).run env = .ok (.data b) := by
  simp [TreeNode.read, read, TreeNode.check, type, holds.rows_eq]

theorem IndexBlock.Holds.run_read (holds : b.Holds items node.rows)
    (type : node.nodeType = .index) (read : env node = .ok (.index b)) :
    (node.read : Reading K A _).run env = .ok (.index b) := by
  simp only [TreeNode.read, ReadProgram.run_bind, ReadProgram.run_query, read, ok_bind,
    ReadProgram.run_ofExcept, TreeNode.check, type, holds.nRows, ne_eq, not_true_eq_false,
    if_false]
  rfl

theorem pushIndexBlock_eq (hlen : indexes.length ≤ maxDepth) :
    pushIndexBlock indexes b = .ok (b :: indexes) := if_neg (Nat.not_lt.mpr hlen)

end

end Feldera.File
