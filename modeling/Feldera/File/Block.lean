import Feldera.Algebra.Bisect
import Feldera.Algebra.ReadProgram

/-!
Blocks of a storage file as the reader sees them once they are parsed: data blocks with the
rows of a column, index blocks with the row totals, bounds and locations of their children,
and the searches inside one block. An array read out of range and every `unwrap` that can
fail is the fault `panic`; what the reader reports about the file is a `CorruptionError`.
-/

namespace Feldera.File

open Algebra

structure RowRange where
  start : Nat
  stop : Nat
deriving DecidableEq, Repr

namespace RowRange

variable (r : RowRange)

def contains (row : Nat) : Prop := r.start ≤ row ∧ row < r.stop

instance (r : RowRange) (row : Nat) : Decidable (r.contains row) :=
  inferInstanceAs (Decidable (_ ∧ _))

def isEmpty : Prop := ¬ r.start < r.stop

instance (r : RowRange) : Decidable r.isEmpty := inferInstanceAs (Decidable (¬ _))

def len : Nat := r.stop - r.start

/-- Where the range lies as seen from `target`. -/
def compare (target : Nat) : Ordering :=
  if target < r.start then .gt
  else if r.stop ≤ target then .lt
  else .eq

end RowRange

structure BlockLocation where
  offset : Nat
  size : Nat
deriving DecidableEq, Repr

/-- Offset and size are multiples of 512, the size is positive and below `2 ^ 31`. -/
def BlockLocation.new (offset size : Nat) : Option BlockLocation :=
  if offset % 512 ≠ 0 ∨ ¬ (512 ≤ size ∧ size < 2 ^ 31) ∨ size % 512 ≠ 0 then none
  else some ⟨offset, size⟩

inductive NodeType where
  | data
  | index
deriving DecidableEq, Repr

/-- What is needed to read an index or data block. -/
structure TreeNode where
  location : BlockLocation
  nodeType : NodeType
  rows : RowRange
deriving DecidableEq, Repr

inductive CorruptionError where
  | tooDeep (depth maxDepth : Nat)
  | dataBlockWrongRows (location : BlockLocation) (rows expectedRows : RowRange)
  | indexBlockWrongNumberOfRows (location : BlockLocation) (nRows expectedRows : Nat)
  | missingRow (row : Nat)
  | invalidChild (location : BlockLocation) (index childOffset childSize : Nat)
  | invalidRowGroup (location : BlockLocation) (index start stop : Nat)
  | badBlockType (location : BlockLocation)
deriving DecidableEq, Repr

inductive Fault where
  | corruption (e : CorruptionError)
  | panic
deriving DecidableEq, Repr

def nth {α : Type} (l : List α) (i : Nat) : Except Fault α :=
  match l[i]? with
  | some a => .ok a
  | none => .error .panic

variable {K A : Type}

structure DataBlock (K A : Type) where
  location : BlockLocation
  items : List (K × A)
  rowGroups : Option (List Nat)
  firstRow : Nat

namespace DataBlock

variable (b : DataBlock K A)

def nValues : Nat := b.items.length

def rows : RowRange := ⟨b.firstRow, b.firstRow + b.nValues⟩

def rowGroup (index : Nat) : Except Fault RowRange :=
  match b.rowGroups with
  | none => .error .panic
  | some rowGroups => do
    let start ← nth rowGroups index
    let stop ← nth rowGroups (index + 1)
    if start < stop then .ok ⟨start, stop⟩
    else .error (.corruption (.invalidRowGroup b.location index start stop))

/-- The position of a row in the block; the subtraction of the first row is checked. -/
def rowIndex (row : Nat) : Except Fault Nat :=
  if b.firstRow ≤ row then .ok (row - b.firstRow) else .error .panic

def rowGroupForRow (row : Nat) : Except Fault RowRange := do
  let index ← b.rowIndex row
  b.rowGroup index

def item (index : Nat) : Except Fault (K × A) := nth b.items index

def key (index : Nat) : Except Fault K := do
  let item ← b.item index
  pure item.1

def itemForRow (row : Nat) : Except Fault (K × A) := do
  let index ← b.rowIndex row
  b.item index

def keyForRow (row : Nat) : Except Fault K := do
  let index ← b.rowIndex row
  b.key index

/-- One probe of `findBestMatch`: the key goes to the caller's buffer. -/
def probe (compare : K → Ordering) (mid : Nat) (_ : K) : Except Fault (Ordering × K) := do
  let key ← b.key mid
  pure (compare key, key)

/-- The index of a row in `target` for which `compare` returns `bias` or equal: the first one
when `bias` is less and the last one when it is greater. Also returns the key buffer. -/
def findBestMatch (target : RowRange) (compare : K → Ordering) (bias : Ordering) (key : K) :
    Except Fault (Option Nat × K) :=
  if target.stop ≤ b.rows.start ∨ b.rows.stop ≤ target.start then .ok (none, key)
  else do
    let start := max b.rows.start target.start - b.firstRow
    let stop := min b.rows.stop target.stop - b.firstRow
    let found ← bisect (b.probe compare) bias (stop - start) start stop ⟨none, 0, key⟩
    match found.best with
    | none => pure (none, found.scratch)
    | some best =>
      if best ≠ found.mid then do
        let key ← b.key best
        pure (some best, key)
      else pure (some best, found.scratch)

end DataBlock

/-- An index block. `bounds` has two keys for each child, those of its first and last row. -/
structure IndexBlock (K : Type) where
  location : BlockLocation
  childType : NodeType
  bounds : List K
  rowTotals : List Nat
  childOffsets : List Nat
  childSizes : List Nat
  firstRow : Nat

namespace IndexBlock

variable (b : IndexBlock K)

def nChildren : Nat := b.childOffsets.length

def nRows : Except Fault Nat := nth b.rowTotals (b.rowTotals.length - 1)

def rows : Except Fault RowRange := do
  let n ← b.nRows
  pure ⟨b.firstRow, b.firstRow + n⟩

variable (index : Nat)

def getChildLocation : Except Fault BlockLocation := do
  let offset ← nth b.childOffsets index
  let size ← nth b.childSizes index
  match BlockLocation.new (offset <<< 9) (size <<< 9) with
  | some location => .ok location
  | none => .error (.corruption (.invalidChild b.location index (offset <<< 9) (size <<< 9)))

def getRows : Except Fault RowRange := do
  let low ← if index = 0 then pure 0 else nth b.rowTotals (index - 1)
  let high ← nth b.rowTotals index
  pure ⟨b.firstRow + low, b.firstRow + high⟩

def getChild : Except Fault TreeNode := do
  let location ← b.getChildLocation index
  let rows ← b.getRows index
  pure ⟨location, b.childType, rows⟩

/-- The row, relative to the block, that a bound is the key of. -/
def getRowBound : Except Fault Nat :=
  if index = 0 then pure 0
  else if index % 2 = 1 then do
    let total ← nth b.rowTotals (index / 2)
    if total = 0 then .error .panic else pure (total - 1)
  else nth b.rowTotals (index / 2 - 1)

def rowProbe (row mid : Nat) (_ : Unit) : Except Fault (Ordering × Unit) := do
  let rows ← b.getRows mid
  if row < rows.start then pure (.lt, ())
  else if rows.stop ≤ row then pure (.gt, ())
  else pure (.eq, ())

def findRow (row : Nat) : Except Fault Nat := do
  let found ← bisect (b.rowProbe row) .eq b.nChildren 0 b.nChildren ⟨none, 0, ()⟩
  match found.best with
  | some index => pure index
  | none => .error (.corruption (.missingRow row))

def getChildByRow (row : Nat) : Except Fault TreeNode := do
  let index ← b.findRow row
  b.getChild index

def getBound : Except Fault K := nth b.bounds index

/-- One probe of `findBestMatch`: a bound outside of `target` is judged by its row alone, and
only the others are read into the caller's buffer and compared. -/
def probe (target : RowRange) (compare : K → Ordering) (mid : Nat) (bound : K) :
    Except Fault (Ordering × K) := do
  let row ← b.getRowBound mid
  match target.compare (row + b.firstRow) with
  | .eq => do
    let bound ← b.getBound mid
    pure (compare bound, bound)
  | cmp => pure (cmp, bound)

/-- The index of the child that may hold a row in `target` for which `compare` returns `bias`
or equal. -/
def findBestMatch (target : RowRange) (compare : K → Ordering) (bias : Ordering) (bound : K) :
    Except Fault (Option Nat × K) := do
  let n := b.nChildren * 2
  let found ← bisect (b.probe target compare) bias n 0 n ⟨none, 0, bound⟩
  pure (found.best.map (· / 2), found.scratch)

def compareMax (compare : K → Ordering) : Except Fault Ordering := do
  let bound ← b.getBound (b.nChildren * 2 - 1)
  pure (compare bound)

end IndexBlock

inductive TreeBlock (K A : Type) where
  | data (block : DataBlock K A)
  | index (block : IndexBlock K)

/-- The child that holds a row; `none` when the block holds the row itself. -/
def TreeBlock.lookupRow (block : TreeBlock K A) (row : Nat) :
    Except Fault (Option TreeNode) :=
  match block with
  | .data b =>
    if b.rows.contains row then .ok none else .error (.corruption (.missingRow row))
  | .index b => do
    let rows ← b.rows
    if rows.contains row then do
      let child ← b.getChildByRow row
      pure (some child)
    else .error (.corruption (.missingRow row))

abbrev Reading (K A α : Type) : Type := ReadProgram TreeNode (TreeBlock K A) Fault α

/-- What a block that was read has to satisfy for the node that led to it. -/
def TreeNode.check (node : TreeNode) (block : TreeBlock K A) : Except Fault (TreeBlock K A) :=
  match node.nodeType, block with
  | .data, .data b =>
    if b.rows ≠ node.rows then
      .error (.corruption (.dataBlockWrongRows node.location b.rows node.rows))
    else .ok (.data b)
  | .index, .index b => do
    let n ← b.nRows
    if n ≠ node.rows.len then
      .error (.corruption (.indexBlockWrongNumberOfRows node.location n node.rows.len))
    else pure (.index b)
  | _, _ => .error (.corruption (.badBlockType node.location))

def TreeNode.read (node : TreeNode) : Reading K A (TreeBlock K A) := do
  let block ← ReadProgram.query node
  .ofExcept (node.check block)

end Feldera.File
