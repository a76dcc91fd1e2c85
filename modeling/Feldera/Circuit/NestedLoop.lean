import Feldera.Time.Product

/-!
Nested circuits. A transaction of the outer circuit runs the nested one in an inner loop, as
`IterativeExecutor::transaction` does: the clock of the loop starts, the circuit is evaluated again
and again, and when all operators report a fixed point the loop ends. The clock shows the number
of the transaction and that of the iteration.

Here an operator is given the inputs of all iterations of all transactions; `Settled` says that it
reports a fixed point where a transaction ends.
-/

namespace Feldera.Circuit

open Time List

structure NestedOperator (S I O : Type*) where
  /-- `clock_start(0)`. -/
  clockStart : S → S
  /-- One iteration: all steps up to the one that flushes. -/
  eval : Nested → I → S → S × O
  /-- `fixedpoint(0)`. -/
  fixedpoint : Nested → S → Bool

namespace NestedOperator

variable {S I O : Type*} (op : NestedOperator S I O)

def iterate (o : ℕ) : ℕ → List I → S → S
  | _, [], s => s
  | i, x :: xs, s => iterate o (i + 1) xs (op.eval ⟨o, i⟩ x s).1

def transactions : ℕ → List (List I) → S → S
  | _, [], s => s
  | o, row :: rows, s => transactions (o + 1) rows (op.iterate o 0 row (op.clockStart s))

def row (rows : List (List I)) (o : ℕ) : List I :=
  rows.getD o []

variable (start : S) (rows : List (List I))

def before (o i : ℕ) : S :=
  op.iterate o 0 ((row rows o).take i) (op.clockStart (op.transactions 0 (rows.take o) start))

def outputAt (o i : ℕ) : Option O :=
  (row rows o)[i]?.map fun x => (op.eval ⟨o, i⟩ x (op.before start rows o i)).2

/-- Every inner loop ends where the operator reports a fixed point. -/
def Settled : Prop :=
  ∀ o < rows.length, op.fixedpoint ⟨o, (row rows o).length⟩
    (op.before start rows o (row rows o).length) = true

instance : Decidable (op.Settled start rows) :=
  inferInstanceAs (Decidable (∀ o < rows.length, _))

variable {op start rows}

theorem iterate_append (o i : ℕ) (xs ys : List I) (s : S) :
    op.iterate o i (xs ++ ys) s = op.iterate o (i + xs.length) ys (op.iterate o i xs s) := by
  induction xs generalizing i s with
  | nil => rfl
  | cons x xs ih =>
    rw [cons_append, iterate, ih, length_cons, iterate]
    congr 1
    omega

theorem transactions_append (o : ℕ) (xs ys : List (List I)) (s : S) :
    op.transactions o (xs ++ ys) s =
      op.transactions (o + xs.length) ys (op.transactions o xs s) := by
  induction xs generalizing o s with
  | nil => rfl
  | cons x xs ih =>
    rw [cons_append, transactions, ih, length_cons, transactions]
    congr 1
    omega

variable {o i : ℕ} {x : I}

theorem before_succ (h : (row rows o)[i]? = some x) :
    op.before start rows o (i + 1) = (op.eval ⟨o, i⟩ x (op.before start rows o i)).1 := by
  obtain ⟨hlt, rfl⟩ := List.getElem?_eq_some_iff.mp h
  unfold before
  rw [take_add_one, h, Option.toList_some, iterate_append, length_take_of_le hlt.le,
    Nat.zero_add]
  rfl

theorem before_row {o : ℕ} (h : o < rows.length) :
    op.before start rows (o + 1) 0 =
      op.clockStart (op.before start rows o (row rows o).length) := by
  have hrow : rows[o]? = some (row rows o) := by
    rw [row, getD_eq_getElem?_getD, List.getElem?_eq_getElem h]
    rfl
  unfold before
  rw [take_zero, take_length, take_add_one, hrow, Option.toList_some,
    transactions_append, length_take_of_le h.le, Nat.zero_add]
  rfl

theorem row_eq_nil {o : ℕ} (h : rows.length ≤ o) : row rows o = [] := by
  rw [row, getD_eq_getElem?_getD, List.getElem?_eq_none h]
  rfl

theorem row_map {J : Type*} (f : I → J) (rows : List (List I)) (o : ℕ) :
    row (rows.map (List.map f)) o = (row rows o).map f := by
  rw [row, row, getD_eq_getElem?_getD, getD_eq_getElem?_getD, List.getElem?_map]
  cases rows[o]? with
  | none => rfl
  | some row => rfl

theorem lt_of_getElem? (h : (row rows o)[i]? = some x) : o < rows.length := by
  by_contra hle
  rw [row_eq_nil (not_lt.mp hle)] at h
  cases h

/-- What every iteration and every new transaction keep holds before every iteration. -/
theorem before_invariant {P : ℕ → ℕ → S → Prop} (hstart : P 0 0 (op.clockStart start))
    (hstep : ∀ {o i x s}, (row rows o)[i]? = some x → P o i s → P o (i + 1) (op.eval ⟨o, i⟩ x s).1)
    (hrow : ∀ {o s}, o < rows.length → P o (row rows o).length s → P (o + 1) 0 (op.clockStart s))
    (ho : o ≤ rows.length) (hi : i ≤ (row rows o).length) : P o i (op.before start rows o i) := by
  -- Along a row from its first iteration on.
  have halong : ∀ o, P o 0 (op.before start rows o 0) → ∀ i ≤ (row rows o).length,
      P o i (op.before start rows o i) := by
    intro o hfirst i
    induction i with
    | zero => exact fun _ => hfirst
    | succ i ih =>
      intro hi
      have hget : (row rows o)[i]? = some ((row rows o).get ⟨i, hi⟩) :=
        List.getElem?_eq_getElem hi
      rw [before_succ hget]
      exact hstep hget (ih (Nat.le_of_succ_le hi))
  have hfirst : P o 0 (op.before start rows o 0) := by
    clear hi
    induction o with
    | zero => exact hstart
    | succ o ih =>
      have hlt : o < rows.length := ho
      rw [before_row hlt]
      exact hrow hlt (halong o (ih hlt.le) _ le_rfl)
  exact halong o hfirst i hi

end NestedOperator

end Feldera.Circuit
