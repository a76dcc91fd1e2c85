import Feldera.File.Seek

/-!
Cursor calls on a plain list. A row group is the list of its rows, a position is before the
list, at an index, or after it, and every call is what its documentation says on such a list.
The searches are connected to the best key of a range of rows.
-/

namespace Feldera.File

open Algebra

variable {K A : Type}

inductive ListPosition where
  | before
  | on (i : Nat)
  | after
deriving DecidableEq, Repr

/-- The first index from `i` on whose key satisfies `ok`. -/
def seekFrom (ok : K → Bool) (l : List (K × A)) (i : Nat) : ListPosition :=
  match (l.drop i).findIdx? fun x => ok x.1 with
  | some j => .on (i + j)
  | none => .after

/-- The last index below `n` whose key satisfies `ok`. -/
def rewindFrom (ok : K → Bool) (l : List (K × A)) : Nat → ListPosition
  | 0 => .before
  | n + 1 => if (l[n]?).any fun x => ok x.1 then .on n else rewindFrom ok l n

structure ListCursor where
  rows : RowRange
  position : ListPosition
deriving DecidableEq, Repr

namespace ListCursor

variable (c : ListCursor)

variable (items : List (K × A))

def list : List (K × A) := slice items c.rows

def seek (ok : K → Bool) : ListPosition :=
  match c.position with
  | .before => seekFrom ok (c.list items) 0
  | .on i => seekFrom ok (c.list items) i
  | .after => .after

def rewind (ok : K → Bool) : ListPosition :=
  match c.position with
  | .before => .before
  | .on i => rewindFrom ok (c.list items) (i + 1)
  | .after => rewindFrom ok (c.list items) (c.list items).length

def next (n : Nat) : ListPosition :=
  match c.position with
  | .before => if 0 < n then .on 0 else .after
  | .on i => if i + 1 < n then .on (i + 1) else .after
  | .after => .after

def prev (n : Nat) : ListPosition :=
  match c.position with
  | .before => .before
  | .on i => if 0 < i then .on (i - 1) else .before
  | .after => if 0 < n then .on (n - 1) else .before

def call (c : ListCursor) (items : List (K × A)) (call : Call K) : ListCursor :=
  let n := (c.list items).length
  match call with
  | .moveNext => ⟨c.rows, c.next n⟩
  | .movePrev => ⟨c.rows, c.prev n⟩
  | .moveFirst => ⟨c.rows, if 0 < n then .on 0 else c.position⟩
  | .moveLast => ⟨c.rows, if 0 < n then .on (n - 1) else .after⟩
  | .moveToRow row => ⟨c.rows, if row < n then .on row else .after⟩
  | .advanceToFirstGe compare => ⟨c.rows, c.seek items fun k => compare k != .gt⟩
  | .seekForwardUntil predicate => ⟨c.rows, c.seek items predicate⟩
  | .rewindToLastLe compare => ⟨c.rows, c.rewind items fun k => compare k != .lt⟩
  | .seekBackwardUntil predicate => ⟨c.rows, c.rewind items predicate⟩
  | .firstWithHint rows => ⟨rows, if 0 < (slice items rows).length then .on 0 else .after⟩

def calls (c : ListCursor) (items : List (K × A)) : List (Call K) → ListCursor
  | [] => c
  | call :: calls => (c.call items call).calls items calls

def item : Option (K × A) :=
  match c.position with
  | .on i => (c.list items)[i]?
  | _ => none

/-- The rows of the next column that belong to the current row, given the bounds of the row
groups of all rows. -/
def nextColumn (groups : List Nat) : RowRange :=
  match c.position with
  | .on i => ⟨groups.getD (c.rows.start + i) 0, groups.getD (c.rows.start + i + 1) 0⟩
  | _ => ⟨0, 0⟩

end ListCursor

/-- What the callers promise: comparisons and predicates are monotone in the key, and a row
group has increasing keys. -/
def Call.Lawful [LT K] (items : List (K × A)) : Call K → Prop
  | .advanceToFirstGe compare => LawfulCompare compare
  | .rewindToLastLe compare => LawfulCompare compare
  | .seekForwardUntil predicate => ∀ k k', k < k' → predicate k = true → predicate k' = true
  | .seekBackwardUntil predicate => ∀ k k', k < k' → predicate k' = true → predicate k = true
  | .firstWithHint rows => SortedRows items rows
  | _ => True

section

variable {items : List (K × A)} {rows : RowRange} {compare : K → Ordering} {ok : K → Bool}
  {i r : Nat}

variable (hstop : rows.stop ≤ items.length)
include hstop

theorem length_drop_slice : ((slice items rows).drop i).length = rows.stop - (rows.start + i) := by
  rw [List.length_drop, length_slice hstop, RowRange.len]
  omega

theorem getElem_drop_slice {j : Nat} (hj : j < ((slice items rows).drop i).length) :
    items[rows.start + i + j]? = some ((slice items rows).drop i)[j] := by
  rw [length_drop_slice hstop] at hj
  rw [← List.getElem?_eq_getElem, List.getElem?_drop,
    getElem?_slice _ _ (by simp only [RowRange.len]; omega), Nat.add_assoc]

section

variable (hok : ∀ k, ok k = true ↔ compare k ≠ .gt)
include hok

theorem ok_drop_slice {j : Nat} (hj : j < ((slice items rows).drop i).length) :
    ok ((slice items rows).drop i)[j].1 = true ↔
      keyClass items compare (rows.start + i + j) ≠ .gt := by
  rw [hok, keyClass_eq (getElem_drop_slice hstop hj)]

theorem seekFrom_best (hbest : Best (keyClass items compare) .lt (rows.start + i) rows.stop r) :
    seekFrom ok (slice items rows) i = .on (r - rows.start) := by
  have h₁ := hbest.le
  have h₂ := hbest.lt
  have hlen : r - (rows.start + i) < ((slice items rows).drop i).length := by
    rw [length_drop_slice hstop]
    omega
  have hfind : ((slice items rows).drop i).findIdx? (fun x => ok x.1) =
      some (r - (rows.start + i)) := by
    rw [List.findIdx?_eq_some_iff_getElem]
    refine ⟨hlen, ?_, fun j hj => ?_⟩
    · rw [ok_drop_slice hstop hok, Nat.add_sub_cancel' h₁]
      exact hbest.hit
    · rw [ok_drop_slice hstop hok, not_not]
      exact hbest.ahead _ (by omega) (by omega) (show rows.start + i + j < r by omega)
  simp only [seekFrom, hfind]
  congr 1
  omega

theorem seekFrom_none
    (hnone : ∀ r, ¬ Best (keyClass items compare) .lt (rows.start + i) rows.stop r) :
    seekFrom ok (slice items rows) i = .after := by
  have hfind : ((slice items rows).drop i).findIdx? (fun x => ok x.1) = none := by
    rw [List.findIdx?_eq_none_iff]
    intro x hx
    obtain ⟨j, hj, rfl⟩ := List.getElem_of_mem hx
    have hlen := hj
    rw [length_drop_slice hstop] at hlen
    by_contra htrue
    rw [Bool.not_eq_false, ok_drop_slice hstop hok] at htrue
    obtain ⟨r, hr, -⟩ := Best.of_hit (.inl rfl) (Nat.le_add_right (rows.start + i) j)
      (show rows.start + i + j < rows.stop by omega) htrue
    exact hnone r hr
  simp only [seekFrom, hfind]

end

section

variable (hok : ∀ k, ok k = true ↔ compare k ≠ .lt) (n : Nat) (hn : n ≤ rows.len)
include hok hn

theorem rewindFrom_best (hbest : Best (keyClass items compare) .gt rows.start (rows.start + n) r) :
    rewindFrom ok (slice items rows) n = .on (r - rows.start) := by
  have h₁ := hbest.le
  have h₂ := hbest.lt
  induction n with
  | zero => omega
  | succ n ih =>
    have hlt : rows.start + n < items.length := by
      simp only [RowRange.len] at hn
      omega
    have hx := List.getElem?_eq_getElem hlt
    have htest : ((slice items rows)[n]?.any fun x => ok x.1) = true ↔
        keyClass items compare (rows.start + n) ≠ .lt := by
      rw [getElem?_slice _ _ (by omega), hx, keyClass_eq hx, ← hok]
      rfl
    unfold rewindFrom
    by_cases hr : r = rows.start + n
    · rw [if_pos (htest.mpr (hr ▸ hbest.hit))]
      congr 1
      omega
    · have hlast : keyClass items compare (rows.start + n) = .lt :=
        hbest.ahead _ (by omega) (by omega) (show r < rows.start + n by omega)
      rw [if_neg (by rw [htest, not_not]; exact hlast)]
      exact ih (by omega) (hbest.mono le_rfl (by omega) h₁ (by omega)) (by omega)

theorem rewindFrom_none
    (hall : ∀ r, rows.start ≤ r → r < rows.start + n → keyClass items compare r = .lt) :
    rewindFrom ok (slice items rows) n = .before := by
  induction n with
  | zero => rfl
  | succ n ih =>
    have hlt : rows.start + n < items.length := by
      simp only [RowRange.len] at hn
      omega
    have hx := List.getElem?_eq_getElem hlt
    have hlast := hall (rows.start + n) (by omega) (by omega)
    rw [keyClass_eq hx] at hlast
    unfold rewindFrom
    rw [if_neg, ih (by omega) fun r h₁ h₂ => hall r h₁ (by omega)]
    rw [getElem?_slice _ _ (by omega), hx, Option.any_some, hok, not_not]
    exact hlast

end

end

end Feldera.File
