import Feldera.File.Block

/-!
Cursors over a row group of a column: the path from the root of the column to a data block,
the position of a cursor relative to its row group, and every call that moves a cursor.
-/

namespace Feldera.File

open Algebra

variable {K A : Type}

structure Column where
  root : Option TreeNode
  nRows : Nat

structure RowGroup where
  column : Column
  rows : RowRange

structure Path (K A : Type) where
  row : Nat
  indexes : List (IndexBlock K)
  data : DataBlock K A

def maxDepth : Nat := 64

def pushIndexBlock (indexes : List (IndexBlock K)) (block : IndexBlock K) :
    Except Fault (List (IndexBlock K)) :=
  if maxDepth < indexes.length then .error (.corruption (.tooDeep indexes.length maxDepth))
  else .ok (block :: indexes)

/-- A bound on the blocks read below a path of `n` index blocks. -/
def levels (n : Nat) : Nat := maxDepth + 2 - n

namespace Path

def descend (row : Nat) : Nat → List (IndexBlock K) → TreeNode → Reading K A (Path K A)
  | 0, _, _ => .fail .panic
  | fuel + 1, indexes, node => do
    let block ← node.read
    let next ← .ofExcept (block.lookupRow row)
    match block with
    | .data data => pure ⟨row, indexes, data⟩
    | .index index => do
      let indexes ← .ofExcept (pushIndexBlock indexes index)
      match next with
      | some node => descend row fuel indexes node
      | none => .fail .panic

def forRowFromAncestor (indexes : List (IndexBlock K)) (node : TreeNode) (row : Nat) :
    Reading K A (Path K A) :=
  descend row (levels indexes.length) indexes node

def forRow (group : RowGroup) (row : Nat) : Reading K A (Path K A) :=
  match group.column.root with
  | some root => forRowFromAncestor [] root row
  | none => .fail .panic

/-- Goes to `row` from the deepest index block that holds it. -/
def forRowFromIndexes (row : Nat) : List (IndexBlock K) → Reading K A (Path K A)
  | [] => .fail (.corruption (.missingRow row))
  | index :: indexes => do
    let rows ← .ofExcept index.rows
    if rows.contains row then do
      let node ← .ofExcept (index.getChildByRow row)
      forRowFromAncestor (index :: indexes) node row
    else forRowFromIndexes row indexes

def forRowFromHint (group : RowGroup) (hint : Option (Path K A)) (row : Nat) :
    Reading K A (Path K A) :=
  match hint with
  | none => forRow group row
  | some hint =>
    if hint.data.rows.contains row then pure { hint with row := row }
    else forRowFromIndexes row hint.indexes

variable (path : Path K A)

def key : Except Fault K := path.data.keyForRow path.row

def item : Except Fault (K × A) := path.data.itemForRow path.row

def rowGroup : Except Fault RowRange := path.data.rowGroupForRow path.row

variable (group : RowGroup)

def moveToRow (row : Nat) : Reading K A (Path K A) :=
  if path.data.rows.contains row then pure { path with row := row }
  else forRowFromHint group (some path) row

/-- Descends from `node` to the best match in `target`. Returns the key buffer, which holds
the key of the row that was found. -/
def search (target : RowRange) (compare : K → Ordering) (bias : Ordering) :
    Nat → List (IndexBlock K) → TreeNode → K → Reading K A (Option (Path K A) × K)
  | 0, _, _, _ => .fail .panic
  | fuel + 1, indexes, node, key => do
    let block ← node.read
    match block with
    | .index index => do
      let (childIdx, key) ← .ofExcept (index.findBestMatch target compare bias key)
      match childIdx with
      | none => pure (none, key)
      | some childIdx => do
        let node ← .ofExcept (index.getChild childIdx)
        let indexes ← .ofExcept (pushIndexBlock indexes index)
        search target compare bias fuel indexes node key
    | .data data => do
      let (childIdx, key) ← .ofExcept (data.findBestMatch target compare bias key)
      pure (childIdx.map fun i => ⟨data.firstRow + i, indexes, data⟩, key)

def bestMatch (compare : K → Ordering) (bias : Ordering) (key : K) :
    Reading K A (Option (Path K A) × K) :=
  match group.column.root with
  | none => pure (none, key)
  | some root => search group.rows compare bias (levels 0) [] root key

/-- The climb of a forward seek, with the target rows not yet known to be too small. -/
def climb (compare : K → Ordering) (target : RowRange) (key : K) :
    List (IndexBlock K) → Reading K A (Option (Path K A) × K)
  | [] => pure (none, key)
  | index :: indexes => do
    let rows ← .ofExcept index.rows
    let max ← .ofExcept (if rows.stop < target.stop then index.compareMax compare else pure .eq)
    if rows.stop < target.stop ∧ max = .gt then
      climb compare ⟨rows.stop, target.stop⟩ key indexes
    else do
      let (childIdx, key) ← .ofExcept (index.findBestMatch target compare .lt key)
      match childIdx with
      | none => pure (none, key)
      | some childIdx => do
        let node ← .ofExcept (index.getChild childIdx)
        let indexes ← .ofExcept (pushIndexBlock indexes index)
        search target compare .lt (levels indexes.length) indexes node key

/-- Moves forward past the rows for which `compare` returns greater; `none` if there is no
other row. -/
def advanceToFirstGe (compare : K → Ordering) (key : K) : Reading K A (Option (Path K A) × K) :=
  if compare key ≠ .gt then pure (some path, key)
  else do
    let data := path.data
    let key ← .ofExcept (data.keyForRow (min data.rows.stop group.rows.stop - 1))
    if compare key ≠ .gt then do
      let (childIdx, key) ← .ofExcept
        (data.findBestMatch ⟨path.row + 1, group.rows.stop⟩ compare .lt key)
      match childIdx with
      | some i => pure (some { path with row := data.firstRow + i }, key)
      | none => .fail .panic
    else climb compare ⟨data.rows.stop, group.rows.stop⟩ key path.indexes

end Path

/-- Where a cursor is relative to its row group. `hint` is some path in the column. -/
inductive Position (K A : Type) where
  | before
  | row (path : Path K A)
  | after (hint : Option (Path K A))

namespace Position

def hint : Position K A → Option (Path K A)
  | .before => none
  | .row path => some path
  | .after hint => hint

def path : Position K A → Option (Path K A)
  | .row path => some path
  | _ => none

/-- The derived order: by variant, then by row. -/
def lt : Position K A → Position K A → Prop
  | .before, .before => False
  | .before, _ => True
  | .row _, .before => False
  | .row p, .row q => p.row < q.row
  | .row _, .after _ => True
  | .after none, .after (some _) => True
  | .after (some p), .after (some q) => p.row < q.row
  | .after _, _ => False

instance : (p q : Position K A) → Decidable (p.lt q)
  | .before, .before => .isFalse id
  | .before, .row _ => .isTrue trivial
  | .before, .after _ => .isTrue trivial
  | .row _, .before => .isFalse id
  | .row p, .row q => inferInstanceAs (Decidable (p.row < q.row))
  | .row _, .after _ => .isTrue trivial
  | .after none, .after (some _) => .isTrue trivial
  | .after (some p), .after (some q) => inferInstanceAs (Decidable (p.row < q.row))
  | .after none, .before => .isFalse id
  | .after none, .row _ => .isFalse id
  | .after none, .after none => .isFalse id
  | .after (some _), .before => .isFalse id
  | .after (some _), .row _ => .isFalse id
  | .after (some _), .after none => .isFalse id

variable (p : Position K A)

def moveAfter : Position K A := .after p.hint

variable (group : RowGroup)

def moveToRow (row : Nat) : Reading K A (Position K A) :=
  if group.rows.isEmpty then pure p
  else match p with
    | .before => do
      let path ← Path.forRow group row
      pure (.row path)
    | .after hint => do
      let path ← Path.forRowFromHint group hint row
      pure (.row path)
    | .row path => do
      let path ← path.moveToRow group row
      pure (.row path)

def next : Reading K A (Position K A) :=
  match p with
  | .before => goOn group.rows.start
  | .row path => goOn (path.row + 1)
  | .after hint => pure (.after hint)
where
  goOn (row : Nat) : Reading K A (Position K A) :=
    if row < group.rows.stop then p.moveToRow group row else pure p.moveAfter

def prev : Reading K A (Position K A) :=
  match p with
  | .before => pure .before
  | .row path =>
    if group.rows.start < path.row then do
      let path ← path.moveToRow group (path.row - 1)
      pure (.row path)
    else pure .before
  | .after hint =>
    if group.rows.isEmpty then pure .before
    else do
      let path ← Path.forRowFromHint group hint (group.rows.stop - 1)
      pure (.row path)

def readKey (key : K) : Except Fault K :=
  match p.path with
  | some path => path.key
  | none => .ok key

def bestMatch (compare : K → Ordering) (bias : Ordering) (key : K) :
    Reading K A (Position K A × K) := do
  let (found, key) ← Path.bestMatch group compare bias key
  match found with
  | some path => pure (.row path, key)
  | none => pure (if bias = .lt then .after none else .before, key)

def advanceToFirstGe (compare : K → Ordering) (key : K) : Reading K A (Position K A × K) :=
  match p with
  | .before => bestMatch group compare .lt key
  | .after hint => pure (.after hint, key)
  | .row path => do
    let (found, key) ← path.advanceToFirstGe group compare key
    match found with
    | some path => pure (.row path, key)
    | none => pure (.after none, key)

end Position

/-- A cursor. When the position is on a row, `key` is the key of that row. -/
structure Cursor (K A : Type) where
  rowGroup : RowGroup
  position : Position K A
  key : K

namespace Cursor

variable (c : Cursor K A)

def goTo (position : Position K A) : Reading K A (Cursor K A) := do
  let key ← .ofExcept (position.readKey c.key)
  pure { c with position := position, key := key }

def moveNext : Reading K A (Cursor K A) := do
  let position ← c.position.next c.rowGroup
  c.goTo position

def movePrev : Reading K A (Cursor K A) := do
  let position ← c.position.prev c.rowGroup
  c.goTo position

def moveFirst : Reading K A (Cursor K A) := do
  let position ← c.position.moveToRow c.rowGroup c.rowGroup.rows.start
  c.goTo position

def moveLast : Reading K A (Cursor K A) :=
  if c.rowGroup.rows.isEmpty then pure { c with position := .after none }
  else do
    let position ← c.position.moveToRow c.rowGroup (c.rowGroup.rows.stop - 1)
    c.goTo position

def moveToRow (row : Nat) : Reading K A (Cursor K A) :=
  if row < c.rowGroup.rows.len then do
    let position ← c.position.moveToRow c.rowGroup (c.rowGroup.rows.start + row)
    c.goTo position
  else pure { c with position := c.position.moveAfter }

def advanceToFirstGe (compare : K → Ordering) : Reading K A (Cursor K A) := do
  let (position, key) ← c.position.advanceToFirstGe c.rowGroup compare c.key
  pure { c with position := position, key := key }

def seekForwardUntil (predicate : K → Bool) : Reading K A (Cursor K A) :=
  c.advanceToFirstGe fun key => if predicate key then .lt else .gt

def rewindToLastLe (compare : K → Ordering) : Reading K A (Cursor K A) := do
  let (position, key) ← Position.bestMatch c.rowGroup compare .gt c.key
  { c with key := key }.goTo (if position.lt c.position then position else c.position)

def seekBackwardUntil (predicate : K → Bool) : Reading K A (Cursor K A) :=
  c.rewindToLastLe fun key => if !predicate key then .lt else .gt

def key? : Option K := c.position.path.map fun _ => c.key

def item : Except Fault (Option (K × A)) :=
  match c.position.path with
  | some path => do
    let item ← path.item
    pure (some item)
  | none => .ok none

/-- The rows of the next column that belong to the current row. -/
def nextColumn : Except Fault RowRange :=
  match c.position.path with
  | some path => path.rowGroup
  | none => .ok ⟨0, 0⟩

end Cursor

/-- A cursor on the first row of a row group, found from wherever `hint` is. -/
def RowGroup.firstWithHint [Inhabited K] (group : RowGroup) (hint : Cursor K A) :
    Reading K A (Cursor K A) := do
  let position ← if group.rows.isEmpty then pure (.after none)
    else do
      let path ← Path.forRowFromHint group hint.position.hint group.rows.start
      pure (.row path)
  let key ← .ofExcept (position.readKey default)
  pure ⟨group, position, key⟩

/-- The calls on a cursor. The last one replaces it by a cursor on another row group of the
same column. -/
inductive Call (K : Type) where
  | moveNext
  | movePrev
  | moveFirst
  | moveLast
  | moveToRow (row : Nat)
  | advanceToFirstGe (compare : K → Ordering)
  | seekForwardUntil (predicate : K → Bool)
  | rewindToLastLe (compare : K → Ordering)
  | seekBackwardUntil (predicate : K → Bool)
  | firstWithHint (rows : RowRange)

namespace Cursor

variable [Inhabited K]

def call (c : Cursor K A) : Call K → Reading K A (Cursor K A)
  | .moveNext => c.moveNext
  | .movePrev => c.movePrev
  | .moveFirst => c.moveFirst
  | .moveLast => c.moveLast
  | .moveToRow row => c.moveToRow row
  | .advanceToFirstGe compare => c.advanceToFirstGe compare
  | .seekForwardUntil predicate => c.seekForwardUntil predicate
  | .rewindToLastLe compare => c.rewindToLastLe compare
  | .seekBackwardUntil predicate => c.seekBackwardUntil predicate
  | .firstWithHint rows => RowGroup.firstWithHint ⟨c.rowGroup.column, rows⟩ c

def calls (c : Cursor K A) : List (Call K) → Reading K A (Cursor K A)
  | [] => pure c
  | call :: calls => do
    let c ← c.call call
    c.calls calls

end Cursor

end Feldera.File
